import JavaSyntax.Grammar.Body

/-!
# Derivations

What a command comes to, told without memo, budget, levels and checkpoints. `Cmd.Ends` derives the
ending of a command from a place, given what the rules that it calls come to, and `Rule.Ends` ties
the knot. A property of all rules is proven by `Rule.Ends.induct`: it has to hold of every body
under the assumption that it holds of the rules called there.
-/

namespace JavaSyntax

/-- A position and the draft of the current node. -/
structure Place where
  index : Nat
  draft : Draft

/-- What a command comes to: the place that it reaches, or an error and where it gave up. -/
inductive Ending where
  | done (q : Place)
  | failed (e : ParseError) (index : Nat)

/-- A guard's answer, or the probe that it takes to find it. -/
inductive Query where
  | known (answer : Bool)
  | ask (probe : Probe)

namespace Ending

def index : Ending → Nat
  | done q => q.index
  | failed _ i => i

end Ending

namespace TokenStream

def fresh (s : TokenStream) (i : Nat) : Place := ⟨i, { start := (s.tokenAt i).span.start }⟩

def unexpectedAt (s : TokenStream) (expected : KindSet) (remark : Option Remark) (i : Nat) :
    ParseError :=
  { ParseError.unexpected expected (s.tokenAt i) i with remark }

@[simp] theorem fresh_index (s : TokenStream) (i : Nat) : (s.fresh i).index = i := rfl

@[simp] theorem fresh_items (s : TokenStream) (i : Nat) : (s.fresh i).draft.items = [] := rfl

end TokenStream

def Ending.verdict : Ending → Except ParseError Bool
  | done _ => .ok true
  | failed e _ => if e.isFatal then .error e else .ok false

namespace Guard

def query (s : TokenStream) (p : Place) : Guard → Query
  | test t => .known (t.holds s p.index p.draft)
  | trial sure possible probe =>
    if sure.holds s p.index p.draft then .known true
    else if possible.holds s p.index p.draft then .ask probe
    else .known false
  | typeHead probe =>
    if s.kindAt (s.nameEnd p.index) = .less ∧ s.scanTypePrefix (s.nameEnd p.index) = .mayBe then
      .ask probe
    else .known false

/-- The guard may have the answer, as far as can be told without probes. -/
def Allows (s : TokenStream) (p : Place) (g : Guard) (answer : Bool) : Prop :=
  match g.query s p with
  | .known b => b = answer
  | .ask _ => True

@[simp] theorem allows_test (s : TokenStream) (p : Place) (t : Test) (b : Bool) :
    (test t).Allows s p b ↔ t.holds s p.index p.draft = b := Iff.rfl

end Guard

section
variable (s : TokenStream) (strict : Bool)

/-- The command ends so from a place, where `calls` tells what rules come to. -/
inductive Cmd.Ends (calls : Rule → Place → Ending → Prop) : Cmd → Place → Ending → Prop
  | skip {p} : Ends calls .skip p (.done p)
  | shift {p} (h : (s.tokenAt p.index).kind ≠ .eof) :
      Ends calls .shift p (.done ⟨p.index + 1,
        p.draft.push (.leaf (s.tokenAt p.index).kind (s.tokenAt p.index).span)⟩)
  | shiftEnd {p} (h : (s.tokenAt p.index).kind = .eof) :
      Ends calls .shift p (.failed (s.unexpectedAt ∅ none p.index) p.index)
  | fail {p expected remark} :
      Ends calls (.fail expected remark) p
        (.failed (s.unexpectedAt expected remark p.index) p.index)
  | seq {a b p q o} (ha : Ends calls a p (.done q)) (hb : Ends calls b q o) :
      Ends calls (.seq a b) p o
  | seqFail {a b p e i} (ha : Ends calls a p (.failed e i)) :
      Ends calls (.seq a b) p (.failed e i)
  | known {g a b p o answer} (hg : g.query s p = .known answer)
      (h : Ends calls (if answer then a else b) p o) : Ends calls (.ite g a b) p o
  | asked {g a b p o probe t answer} (hg : g.query s p = .ask probe)
      (ht : Ends calls probe.fragment (s.fresh p.index) t)
      (hv : t.verdict = .ok answer)
      (h : Ends calls (if answer then a else b) p o) : Ends calls (.ite g a b) p o
  | aborted {g a b p probe t e} (hg : g.query s p = .ask probe)
      (ht : Ends calls probe.fragment (s.fresh p.index) t) (hv : t.verdict = .error e) :
      Ends calls (.ite g a b) p (.failed e p.index)
  | loop {g body p o} (h : Ends calls (.ite g (.seq body (.loop g body)) .skip) p o) :
      Ends calls (.loop g body) p o
  | nest {body p q} (h : Ends calls body (s.fresh p.index) (.done q)) :
      Ends calls (.nest body) p (.done ⟨q.index, p.draft.adopt q.draft⟩)
  | nestFail {body p e i} (h : Ends calls body (s.fresh p.index) (.failed e i)) :
      Ends calls (.nest body) p (.failed e i)
  | jump {r p o} (h : calls r p o) : Ends calls (.jump r) p o
  | dispatch {t r p o} (ht : Table.decide t s strict p.index = .ok r) (h : calls r p o) :
      Ends calls (.dispatch t) p o
  | dispatchFail {t p e} (ht : Table.decide t s strict p.index = .error e) :
      Ends calls (.dispatch t) p (.failed e p.index)
  | close {kind p} : Ends calls (.close kind) p (.done { p with draft := p.draft.close kind })
  | wrap {kind p} : Ends calls (.wrap kind) p (.done { p with draft := p.draft.wrap kind })

/-- The passes of a loop, as far as can be told without probes. -/
inductive Cmd.Passes (calls : Rule → Place → Ending → Prop) (g : Guard) (body : Cmd) :
    Place → Place → Prop
  | stop {p} (hg : g.Allows s p false) : Passes calls g body p p
  | pass {p m q} (hg : g.Allows s p true) (hb : Cmd.Ends s strict calls body p (.done m))
      (h : Passes calls g body m q) : Passes calls g body p q

/-- The rule ends so from a place. -/
inductive Rule.Ends : Rule → Place → Ending → Prop
  | body {r p o} (h : Cmd.Ends s strict Rule.Ends r.body p o) : Rule.Ends r p o

end

theorem Ending.fatal_of_verdict {o : Ending} {e : ParseError} (h : o.verdict = .error e) :
    e.isFatal = true := by
  cases o with
  | done q => cases h
  | failed e' i =>
    rw [verdict] at h
    split at h
    · cases h
      assumption
    · cases h

namespace Cmd.Ends
variable {s : TokenStream} {strict : Bool} {calls calls' : Rule → Place → Ending → Prop}
  {a b c body : Cmd} {g : Guard} {p q : Place} {o o' : Ending}

/-- A branch is taken on an answer that the guard may have, unless a fatal error comes first. -/
theorem ite_cases (h : Cmd.Ends s strict calls (.ite g a b) p o) :
    (∃ answer, g.Allows s p answer ∧ Cmd.Ends s strict calls (if answer then a else b) p o) ∨
      ∃ e i, o = .failed e i ∧ e.isFatal = true := by
  cases h with
  | known hg h => exact .inl ⟨_, by simp [Guard.Allows, hg], h⟩
  | asked hg _ _ h => exact .inl ⟨_, by simp [Guard.Allows, hg], h⟩
  | aborted _ _ hv => exact .inr ⟨_, _, rfl, Ending.fatal_of_verdict hv⟩

theorem ite_done (h : Cmd.Ends s strict calls (.ite g a b) p (.done q)) :
    ∃ answer, g.Allows s p answer ∧
      Cmd.Ends s strict calls (if answer then a else b) p (.done q) := by
  obtain h | ⟨e, i, ho, -⟩ := h.ite_cases
  · exact h
  · cases ho

theorem seq_done (h : Cmd.Ends s strict calls (.seq a b) p (.done q)) :
    ∃ m, Cmd.Ends s strict calls a p (.done m) ∧ Cmd.Ends s strict calls b m (.done q) := by
  cases h with
  | seq ha hb => exact ⟨_, ha, hb⟩

theorem passes_of_branch {answer : Bool} (hg : g.Allows s p answer)
    (h : Cmd.Ends s strict calls (if answer then .seq body (.loop g body) else .skip) p (.done q))
    (ih : (if answer then .seq body (.loop g body) else .skip) = Cmd.seq body (.loop g body) →
      ∃ m, Cmd.Ends s strict calls body p (.done m) ∧ Cmd.Passes s strict calls g body m q) :
    Cmd.Passes s strict calls g body p q := by
  cases answer with
  | true =>
    obtain ⟨m, hb, hm⟩ := ih rfl
    exact .pass hg hb hm
  | false =>
    cases h
    exact .stop hg

/-- A finished loop is a sequence of passes. The derivation goes through the three commands that
the loop unrolls to. -/
theorem passes (h : Cmd.Ends s strict calls (.loop g body) p (.done q)) :
    Cmd.Passes s strict calls g body p q := by
  suffices hall : ∀ c p o, Cmd.Ends s strict calls c p o → ∀ q, o = .done q →
      (c = .loop g body → Cmd.Passes s strict calls g body p q) ∧
      (c = .ite g (.seq body (.loop g body)) .skip → Cmd.Passes s strict calls g body p q) ∧
      (c = .seq body (.loop g body) →
        ∃ m, Cmd.Ends s strict calls body p (.done m) ∧ Cmd.Passes s strict calls g body m q) from
    (hall _ _ _ h q rfl).1 rfl
  intro c p o h
  induction h with
  | loop _ ih =>
    rintro q rfl
    refine ⟨?_, by simp, by simp⟩
    intro hc
    cases hc
    exact (ih q rfl).2.1 rfl
  | seq ha _ _ ihb =>
    rintro q rfl
    refine ⟨by simp, by simp, ?_⟩
    intro hc
    cases hc
    exact ⟨_, ha, (ihb q rfl).1 rfl⟩
  | known hg h ih =>
    rintro q rfl
    refine ⟨by simp, ?_, by simp⟩
    intro hc
    cases hc
    exact passes_of_branch (by simp [Guard.Allows, hg]) h (ih q rfl).2.2
  | asked hg _ _ h _ ih =>
    rintro q rfl
    refine ⟨by simp, ?_, by simp⟩
    intro hc
    cases hc
    exact passes_of_branch (by simp [Guard.Allows, hg]) h (ih q rfl).2.2
  | _ => simp

theorem loop_done {I : Place → Prop}
    (step : ∀ p q, I p → g.Allows s p true → Cmd.Ends s strict calls body p (.done q) → I q)
    (h : Cmd.Ends s strict calls (.loop g body) p (.done q)) (hp : I p) :
    I q ∧ g.Allows s q false := by
  have hl := h.passes
  clear h
  induction hl with
  | stop hg => exact ⟨hp, hg⟩
  | pass hg hb _ ih => exact ih (step _ _ hp hg hb)

theorem loop_failed {I : Place → Prop} {e : ParseError} {i : Nat}
    (step : ∀ p q, I p → g.Allows s p true → Cmd.Ends s strict calls body p (.done q) → I q)
    (h : Cmd.Ends s strict calls (.loop g body) p (.failed e i)) (hp : I p) :
    e.isFatal = true ∨
      ∃ m, I m ∧ g.Allows s m true ∧ Cmd.Ends s strict calls body m (.failed e i) := by
  suffices hall : ∀ c p o, Cmd.Ends s strict calls c p o → o = .failed e i → I p →
      (c = .loop g body ∨ c = .ite g (.seq body (.loop g body)) .skip ∨
        c = .seq body (.loop g body) ∧ g.Allows s p true) →
      e.isFatal = true ∨
        ∃ m, I m ∧ g.Allows s m true ∧ Cmd.Ends s strict calls body m (.failed e i) from
    hall _ _ _ h rfl hp (.inl rfl)
  intro c p o h
  induction h with
  | loop _ ih =>
    rintro rfl hp hc
    obtain hc | hc | ⟨hc, -⟩ := hc <;> cases hc
    exact ih rfl hp (.inr (.inl rfl))
  | seq ha _ _ ihb =>
    rintro rfl hp hc
    obtain hc | hc | ⟨hc, hg⟩ := hc <;> cases hc
    exact ihb rfl (step _ _ hp hg ha) (.inl rfl)
  | seqFail ha _ =>
    rintro ho hp hc
    cases ho
    obtain hc | hc | ⟨hc, hg⟩ := hc <;> cases hc
    exact .inr ⟨_, hp, hg, ha⟩
  | @known _ _ _ _ _ answer hg h ih =>
    rintro rfl hp hc
    obtain hc | hc | ⟨hc, -⟩ := hc <;> cases hc
    cases answer with
    | true => exact ih rfl hp (.inr (.inr ⟨rfl, by simp [Guard.Allows, hg]⟩))
    | false => cases h
  | @asked _ _ _ _ _ _ _ answer hg _ _ h _ ih =>
    rintro rfl hp hc
    obtain hc | hc | ⟨hc, -⟩ := hc <;> cases hc
    cases answer with
    | true => exact ih rfl hp (.inr (.inr ⟨rfl, by simp [Guard.Allows, hg]⟩))
    | false => cases h
  | aborted _ _ hv =>
    rintro ho hp hc
    cases ho
    exact .inl (Ending.fatal_of_verdict hv)
  | _ =>
    rintro ho hp hc
    obtain hc | hc | ⟨hc, -⟩ := hc <;> cases hc

theorem mono (hcalls : ∀ r p o, calls r p o → calls' r p o) (h : Cmd.Ends s strict calls c p o) :
    Cmd.Ends s strict calls' c p o := by
  induction h with
  | skip => exact .skip
  | shift h => exact .shift h
  | shiftEnd h => exact .shiftEnd h
  | fail => exact .fail
  | seq _ _ iha ihb => exact .seq iha ihb
  | seqFail _ ih => exact .seqFail ih
  | known hg _ ih => exact .known hg ih
  | asked hg _ hv _ iht ih => exact .asked hg iht hv ih
  | aborted hg _ hv iht => exact .aborted hg iht hv
  | loop _ ih => exact .loop ih
  | nest _ ih => exact .nest ih
  | nestFail _ ih => exact .nestFail ih
  | jump h => exact .jump (hcalls _ _ _ h)
  | dispatch ht h => exact .dispatch ht (hcalls _ _ _ h)
  | dispatchFail ht => exact .dispatchFail ht
  | close => exact .close
  | wrap => exact .wrap

theorem unique (hcalls : ∀ r p o, calls r p o → ∀ o', calls' r p o' → o' = o)
    (h : Cmd.Ends s strict calls c p o) (h' : Cmd.Ends s strict calls' c p o') : o' = o := by
  induction h generalizing o' with
  | skip => cases h'; rfl
  | shift h => cases h' with
    | shift => rfl
    | shiftEnd h' => exact absurd h' h
  | shiftEnd h => cases h' with
    | shift h' => exact absurd h h'
    | shiftEnd => rfl
  | fail => cases h'; rfl
  | seq _ _ iha ihb => cases h' with
    | seq ha' hb' =>
      cases iha ha'
      exact ihb hb'
    | seqFail ha' => cases iha ha'
  | seqFail _ ih => cases h' with
    | seq ha' => cases ih ha'
    | seqFail ha' => exact ih ha'
  | known hg _ ih => cases h' with
    | known hg' h' =>
      cases hg.symm.trans hg'
      exact ih h'
    | asked hg' => cases hg.symm.trans hg'
    | aborted hg' => cases hg.symm.trans hg'
  | asked hg _ hv _ iht ih => cases h' with
    | known hg' => cases hg.symm.trans hg'
    | asked hg' ht' hv' h' =>
      cases hg.symm.trans hg'
      cases iht ht'
      cases hv.symm.trans hv'
      exact ih h'
    | aborted hg' ht' hv' =>
      cases hg.symm.trans hg'
      cases iht ht'
      cases hv.symm.trans hv'
  | aborted hg _ hv iht => cases h' with
    | known hg' => cases hg.symm.trans hg'
    | asked hg' ht' hv' =>
      cases hg.symm.trans hg'
      cases iht ht'
      cases hv.symm.trans hv'
    | aborted hg' ht' hv' =>
      cases hg.symm.trans hg'
      cases iht ht'
      cases hv.symm.trans hv'
      rfl
  | loop _ ih =>
    cases h' with
    | loop h' => exact ih h'
  | nest _ ih => cases h' with
    | nest h' => cases ih h'; rfl
    | nestFail h' => cases ih h'
  | nestFail _ ih => cases h' with
    | nest h' => cases ih h'
    | nestFail h' => cases ih h'; rfl
  | jump h =>
    cases h' with
    | jump h' => exact hcalls _ _ _ h _ h'
  | dispatch ht h => cases h' with
    | dispatch ht' h' =>
      cases ht.symm.trans ht'
      exact hcalls _ _ _ h _ h'
    | dispatchFail ht' => cases ht.symm.trans ht'
  | dispatchFail ht => cases h' with
    | dispatch ht' => cases ht.symm.trans ht'
    | dispatchFail ht' => cases ht.symm.trans ht'; rfl
  | close => cases h'; rfl
  | wrap => cases h'; rfl

end Cmd.Ends

namespace Rule.Ends
variable {s : TokenStream} {strict : Bool} {r : Rule} {p : Place} {o o' : Ending}

/-- What holds of each body, provided that it holds of the rules called there, holds of all
rules. -/
theorem induct {R : Rule → Place → Ending → Prop}
    (closed : ∀ r p o,
      Cmd.Ends s strict (fun r p o => Rule.Ends s strict r p o ∧ R r p o) r.body p o → R r p o)
    (h : Rule.Ends s strict r p o) : R r p o := by
  refine @Rule.Ends.rec s strict (fun r p o _ => R r p o)
    (fun c p o _ => Cmd.Ends s strict (fun r p o => Rule.Ends s strict r p o ∧ R r p o) c p o)
    ?body .skip .shift .shiftEnd .fail (fun _ _ => .seq) (fun _ => .seqFail)
    (fun hg _ => .known hg) (fun hg _ hv _ ht => .asked hg ht hv)
    (fun hg _ hv ht => .aborted hg ht hv) (fun _ => .loop) (fun _ => .nest) (fun _ => .nestFail)
    (fun h hr => .jump ⟨h, hr⟩) (fun ht h hr => .dispatch ht ⟨h, hr⟩) .dispatchFail .close .wrap
    r p o h
  case body =>
    intro r p o _ h
    exact closed r p o h

/-- A rule has one ending from a place. -/
theorem unique (h : Rule.Ends s strict r p o) (h' : Rule.Ends s strict r p o') : o' = o := by
  refine induct (R := fun r p o => ∀ o', Rule.Ends s strict r p o' → o' = o) ?_ h o' h'
  intro r p o h o' h'
  cases h' with
  | body h' => exact Cmd.Ends.unique (fun _ _ _ h => h.2) h h'

end Rule.Ends

theorem Cmd.Ends.eq {s : TokenStream} {strict : Bool} {c : Cmd} {p : Place} {o o' : Ending}
    (h : Cmd.Ends s strict (Rule.Ends s strict) c p o)
    (h' : Cmd.Ends s strict (Rule.Ends s strict) c p o') : o' = o :=
  unique (fun _ _ _ h _ h' => h.unique h') h h'

end JavaSyntax
