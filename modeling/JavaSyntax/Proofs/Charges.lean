import JavaSyntax.Proofs.Levels

/-!
# What runs charge

Laws of all runs of commands on a closed list. A law that holds of what does not touch a token,
of reading a token, of a probe and of one run after another holds of every run (`Law.run`). The
first of them: the count of speculated tokens never falls, and it passes the budget by one token
exactly when the budget is exhausted.
-/

namespace JavaSyntax

namespace ParseFault

def isExhausted : ParseFault → Bool
  | .budgetExceeded _ => true
  | _ => false

theorem isExhausted_ofFound (expected : KindSet) (found : TokenKind) :
    (ofFound expected found).isExhausted = false := by
  unfold ofFound
  split <;> rfl

theorem isFatal_of_isExhausted {f : ParseFault} (h : f.isExhausted = true) :
    f.isFatal = true := by
  cases f <;> simp_all [isExhausted, isFatal]

end ParseFault

def Outcome.isExhausted : Outcome → Bool
  | done _ => false
  | failed e _ => e.fault.isExhausted

/-- The outcome of a guard by itself: a branch follows the answer. -/
def Ruling.outcome : Ruling → Outcome
  | answer _ s => .done s
  | abort e s => .failed e s

theorem Table.isExhausted_of_decide {t : Table} {s : TokenStream} {strict : Bool} {i : Nat}
    {e : ParseError} (h : t.decide s strict i = .error e) : e.fault.isExhausted = false := by
  obtain ⟨labels, -, rfl⟩ | ⟨-, -, rfl⟩ := decide_error h
  · rfl
  · exact ParseFault.isExhausted_ofFound _ _

/-- The states differ at most in the draft, and in what the memo notes beside its results. -/
structure State.SameCounts (s t : State) : Prop where
  index : t.index = s.index
  results : t.memo.results = s.memo.results
  speculated : t.speculated = s.speculated
  depth : t.depth = s.depth

/-- The state can be run on: its list is closed, it stands before the end, and its memo can be
trusted. -/
structure Setting.Ready (env : Setting) (s : State) : Prop where
  closed : env.stream.Closed
  index_le : s.index ≤ env.stream.lastIndex
  trusts : env.Trusts s.memo

namespace State
variable {env : Setting} {s t u : State}

theorem SameCounts.refl (s : State) : s.SameCounts s := ⟨rfl, rfl, rfl, rfl⟩

theorem SameCounts.trans (h : s.SameCounts t) (h' : t.SameCounts u) : s.SameCounts u where
  index := h'.index.trans h.index
  results := h'.results.trans h.results
  speculated := h'.speculated.trans h.speculated
  depth := h'.depth.trans h.depth

/-- A probe is not known to the memo, if there is one. -/
def Unasked (env : Setting) (s : State) (p : Probe) : Prop :=
  env.options.memoize = true → s.memo.find? p s.index = none

theorem sameCounts_of_consult {p : Probe} {answer : Bool}
    (h : s.consult env p = .known answer t) : s.SameCounts t := by
  unfold consult at h
  split at h
  · cases hf : s.memo.find? p s.index with
    | none =>
      simp only [PredictionMemo.get, hf] at h
      cases h
    | some r =>
      simp only [PredictionMemo.get, hf] at h
      cases h
      exact ⟨rfl, rfl, rfl, rfl⟩
  · cases h

theorem unasked_of_consult {p q : Probe} (h : s.consult env p = .ask q t) :
    t = s ∧ s.Unasked env q := by
  unfold consult at h
  split at h
  · cases hf : s.memo.find? p s.index with
    | none =>
      simp only [PredictionMemo.get, hf] at h
      cases h
      exact ⟨rfl, fun _ => hf⟩
    | some r =>
      simp only [PredictionMemo.get, hf] at h
      cases h
  · rename_i hm
    cases h
    exact ⟨rfl, fun h => absurd h hm⟩

end State

namespace Guard
variable {env : Setting} {s t : State} {g : Guard}

theorem sameCounts_of_known {answer : Bool} (h : g.settle env s = .known answer t) :
    s.SameCounts t := by
  cases g with
  | test c =>
    cases h
    exact .refl s
  | trial sure possible p =>
    simp only [settle] at h
    split at h
    · cases h
      exact .refl s
    · split at h
      · exact State.sameCounts_of_consult h
      · cases h
        exact .refl s
  | typeHead p =>
    simp only [settle] at h
    split at h
    · have hmemo : s.SameCounts { s with memo := (s.memo.mayBeTypePrefix env.stream
          (env.stream.nameEnd s.index)).2 } := ⟨rfl, by simp, rfl, rfl⟩
      split at h
      · exact hmemo.trans (State.sameCounts_of_consult h)
      · cases h
        exact hmemo
    · cases h
      exact .refl s

theorem unasked_of_ask {p : Probe} (h : g.settle env s = .ask p t) :
    s.SameCounts t ∧ t.Unasked env p := by
  cases g with
  | test c => cases h
  | trial sure possible q =>
    simp only [settle] at h
    split at h
    · cases h
    · split at h
      · obtain ⟨rfl, hu⟩ := State.unasked_of_consult h
        exact ⟨.refl t, hu⟩
      · cases h
  | typeHead q =>
    simp only [settle] at h
    split at h
    · split at h
      · obtain ⟨rfl, hu⟩ := State.unasked_of_consult h
        exact ⟨⟨rfl, by simp, rfl, rfl⟩, hu⟩
      · cases h
    · cases h

end Guard

namespace Setting

/-- The relation between states and the outcomes of runs from there is such that it passes from
parts of a run to the whole. -/
structure Law (env : Setting) (R : State → Outcome → Prop) : Prop where
  stay {s t : State} : env.Ready s → s.SameCounts t → R s (.done t)
  fail {s : State} {e : ParseError} : env.Ready s → e.fault.isExhausted = false →
    R s (.failed e s)
  shift {s : State} : env.Ready s → R s (s.shift env)
  probe {s : State} (n : Nat) (p : Probe) (outer : Draft) : env.Ready s → s.Unasked env p →
    R (s.enterProbe env) (p.fragment.run env n (s.enterProbe env)) →
    R s (State.conclude env p s.index outer
      (p.fragment.run env n (s.enterProbe env))).outcome
  trans {s t : State} {o : Outcome} : R s (.done t) → R t o → R s o

variable {env : Setting} {s t : State} {n : Nat}

theorem Ready.enterProbe (h : env.Ready s) : env.Ready (s.enterProbe env) :=
  ⟨h.closed, h.index_le, h.trusts⟩

theorem Ready.redraft (h : env.Ready s) (d : Draft) : env.Ready { s with draft := d } :=
  ⟨h.closed, h.index_le, h.trusts⟩

theorem Ready.settle (h : env.Ready s) {g : Guard} {p : Probe} (ht : g.settle env s = .ask p t) :
    env.Ready t := by
  have hs := Guard.settles_settle h.trusts g
  rw [ht] at hs
  obtain ⟨hp, hm, -⟩ := hs
  have hi : t.index = s.index := congrArg Place.index hp
  exact ⟨h.closed, hi ▸ h.index_le, hm⟩

theorem Ready.decide (h : env.Ready s) {g : Guard} {answer : Bool}
    (ht : g.decide env (Cmd.run env n) s = .answer answer t) : env.Ready t := by
  obtain ⟨hm, hp, -⟩ := Guard.reach_of_decide h.trusts ht
  have hi : t.index = s.index := congrArg Place.index hp
  exact ⟨h.closed, hi ▸ h.index_le, hm⟩

theorem Ready.exec (h : env.Ready s) {c : Cmd} (ht : c.exec env (Cmd.run env n) s = .done t) :
    env.Ready t := by
  obtain ⟨hm, hends⟩ := Cmd.reach_of_run (n := n + 1) h.trusts ht
  have hcov := hends.covers fun _ _ _ h => h.covers
  exact ⟨h.closed, hcov.le_lastIndex h.closed h.index_le, hm⟩

namespace Law
variable {R : State → Outcome → Prop}

theorem decide (law : env.Law R) (ih : ∀ (c : Cmd) s, env.Ready s → R s (c.run env n s))
    (g : Guard) (h : env.Ready s) : R s (g.decide env (Cmd.run env n) s).outcome := by
  unfold Guard.decide
  cases hg : g.settle env s with
  | known answer t => exact law.stay h (Guard.sameCounts_of_known hg)
  | ask p t =>
    obtain ⟨hst, hu⟩ := Guard.unasked_of_ask hg
    have ht : env.Ready t := h.settle hg
    have hprobe := law.probe n p s.draft ht hu (ih p.fragment _ ht.enterProbe)
    rw [hst.index] at hprobe
    exact law.trans (law.stay h hst) hprobe

theorem exec (law : env.Law R) (ih : ∀ (c : Cmd) s, env.Ready s → R s (c.run env n s))
    (c : Cmd) (h : env.Ready s) : R s (c.exec env (Cmd.run env n) s) := by
  induction c generalizing s with
  | skip => exact law.stay h (.refl s)
  | shift => exact law.shift h
  | fail expected remark => exact law.fail h (ParseFault.isExhausted_ofFound _ _)
  | seq a b iha ihb =>
    have ha := iha h
    rw [Cmd.exec]
    split
    · rename_i t ht
      rw [ht] at ha
      exact law.trans ha (ihb (h.exec ht))
    · rename_i e t ht
      rwa [ht] at ha
  | ite g a b iha ihb =>
    have hg := law.decide ih g h
    rw [Cmd.exec]
    split
    · rename_i t ht
      rw [ht] at hg
      exact law.trans hg (iha (h.decide ht))
    · rename_i t ht
      rw [ht] at hg
      exact law.trans hg (ihb (h.decide ht))
    · rename_i e t ht
      rwa [ht] at hg
  | loop g body _ =>
    have hg := law.decide ih g h
    rw [Cmd.exec]
    split
    · rename_i t ht
      rw [ht] at hg
      exact law.trans hg (ih _ _ (h.decide ht))
    · rename_i t ht
      rwa [ht] at hg
    · rename_i e t ht
      rwa [ht] at hg
  | nest body ihb =>
    have hfresh : env.Ready (s.fresh env) := h.redraft _
    have hb : R s (body.exec env (Cmd.run env n) (s.fresh env)) :=
      law.trans (t := s.fresh env) (law.stay h ⟨rfl, rfl, rfl, rfl⟩) (ihb hfresh)
    rw [Cmd.exec]
    split
    · rename_i t ht
      rw [ht] at hb
      exact law.trans hb (law.stay (hfresh.exec ht) ⟨rfl, rfl, rfl, rfl⟩)
    · rename_i e t ht
      rwa [ht] at hb
  | jump r => exact ih r.body s h
  | dispatch t =>
    rw [Cmd.exec]
    split
    · exact ih _ s h
    · rename_i e he
      exact law.fail h (Table.isExhausted_of_decide he)
  | close kind => exact law.stay h ⟨rfl, rfl, rfl, rfl⟩
  | wrap kind => exact law.stay h ⟨rfl, rfl, rfl, rfl⟩

theorem run (law : env.Law R) (n : Nat) (c : Cmd) (h : env.Ready s) : R s (c.run env n s) := by
  induction n generalizing c s with
  | zero => exact law.fail h rfl
  | succ n ih => exact law.exec (fun c _ h => ih c h) c h

end Law
end Setting

namespace State
variable {env : Setting} {s t : State} {start : Nat} {p : Probe} {d : Draft} {e : ParseError}

def comeBack (t : State) (start : Nat) (d : Draft) : State :=
  { t with index := start, depth := t.depth - 1, draft := d }

@[simp] theorem index_remember (r : ProbeResult) : (s.remember env p r).index = s.index := by
  unfold remember
  split <;> rfl

@[simp] theorem speculated_remember (r : ProbeResult) :
    (s.remember env p r).speculated = s.speculated := by
  unfold remember
  split <;> rfl

@[simp] theorem depth_remember (r : ProbeResult) : (s.remember env p r).depth = s.depth := by
  unfold remember
  split <;> rfl

theorem conclude_done (h : start ≤ env.stream.lastIndex) :
    conclude env p start d (.done t) =
      .answer true ((t.comeBack start d).remember env p ⟨true, t.index⟩) := by
  unfold conclude
  rw [if_neg (Nat.not_lt.2 h)]
  rfl

theorem conclude_fatal (h : start ≤ env.stream.lastIndex) (he : e.isFatal = true) :
    conclude env p start d (.failed e t) = .abort e (t.comeBack start d) := by
  unfold conclude
  rw [if_neg (Nat.not_lt.2 h)]
  exact if_pos he

theorem conclude_input (h : start ≤ env.stream.lastIndex) (he : e.isFatal = false) :
    conclude env p start d (.failed e t) =
      .answer false ((t.comeBack start d).remember env p ⟨false, t.index⟩) := by
  unfold conclude
  rw [if_neg (Nat.not_lt.2 h)]
  exact if_neg (by simp [he])

end State

/-- From a state on, the count of speculated tokens has not fallen, and it is past the budget by
one token if and only if the budget ran out. A count that is past the budget already stands for
the budget then. -/
structure Outcome.Charged (env : Setting) (s : State) (o : Outcome) : Prop where
  le : s.speculated ≤ o.state.speculated
  within : o.isExhausted = false →
    o.state.speculated ≤ max s.speculated env.options.speculationBudget
  spent : ∀ e t, o = .failed e t → e.fault.isExhausted = true →
    e.fault = .budgetExceeded env.options.speculationBudget ∧
      t.speculated = max s.speculated env.options.speculationBudget + 1

namespace Outcome.Charged
variable {env : Setting} {s t : State} {o : Outcome} {e : ParseError}

theorem done (h : s.speculated ≤ t.speculated)
    (ht : t.speculated ≤ max s.speculated env.options.speculationBudget) :
    (Outcome.done t).Charged env s :=
  ⟨h, fun _ => ht, by simp⟩

theorem of_eq (h : t.speculated = s.speculated) : (Outcome.done t).Charged env s :=
  .done (Nat.le_of_eq h.symm) (h ▸ Nat.le_max_left _ _)

theorem fail (he : e.fault.isExhausted = false) (h : t.speculated = s.speculated) :
    (failed e t).Charged env s where
  le := Nat.le_of_eq h.symm
  within := by
    intro _
    exact h ▸ Nat.le_max_left _ _
  spent := by
    intro e' t' ho h'
    cases ho
    rw [he] at h'
    cases h'

theorem trans (h : (Outcome.done t).Charged env s) (h' : o.Charged env t) : o.Charged env s where
  le := Nat.le_trans h.le h'.le
  within := by
    intro ho
    have hs : s.speculated ≤ t.speculated := h.le
    have ht : t.speculated ≤ max s.speculated env.options.speculationBudget := h.within rfl
    have := h'.within ho
    omega
  spent := by
    intro e u ho he
    have hs : s.speculated ≤ t.speculated := h.le
    have ht : t.speculated ≤ max s.speculated env.options.speculationBudget := h.within rfl
    obtain ⟨hf, hu⟩ := h'.spent e u ho he
    exact ⟨hf, by omega⟩

theorem shift : (s.shift env).Charged env s := by
  have hle : s.speculated ≤ s.counted.speculated := Nat.le_add_right _ _
  obtain ⟨hd, hb, h⟩ | ⟨hb, h⟩ := s.shift_cases env
  · have hcount : s.counted.speculated = s.speculated + 1 := by rw [State.counted, if_neg hd]
    rw [h]
    refine ⟨hle, by simp [isExhausted, State.errorHere, ParseFault.isExhausted], ?_⟩
    intro e t ho _
    cases ho
    exact ⟨rfl, by omega⟩
  · have hwithin : s.counted.speculated ≤ max s.speculated env.options.speculationBudget := by
      dsimp only [State.counted]
      split <;> omega
    obtain ⟨-, h⟩ | ⟨-, h⟩ := h <;> rw [h]
    · refine ⟨hle, fun _ => hwithin, ?_⟩
      intro e t ho he
      cases ho
      rw [State.unexpected, ParseError.unexpected, ParseFault.isExhausted_ofFound] at he
      cases he
    · exact .done hle hwithin

theorem conclude {p : Probe} {start : Nat} {d : Draft} (hs : start ≤ env.stream.lastIndex)
    (h : o.Charged env (s.enterProbe env)) :
    (State.conclude env p start d o).outcome.Charged env s := by
  cases o with
  | done t =>
    rw [State.conclude_done hs]
    refine .done ?_ ?_
    · rw [State.speculated_remember]
      exact h.le
    · rw [State.speculated_remember]
      exact h.within rfl
  | failed e t =>
    by_cases he : e.isFatal = true
    · rw [State.conclude_fatal hs he]
      refine ⟨h.le, h.within, ?_⟩
      intro e' t' ho hx
      cases ho
      exact h.spent e t rfl hx
    · rw [Bool.not_eq_true] at he
      have hx : (failed e t).isExhausted = false := by
        cases hf : e.fault.isExhausted with
        | false => exact hf
        | true => exact absurd (he.symm.trans (ParseFault.isFatal_of_isExhausted hf)) (by simp)
      rw [State.conclude_input hs he]
      refine .done ?_ ?_
      · rw [State.speculated_remember]
        exact h.le
      · rw [State.speculated_remember]
        exact h.within hx

end Outcome.Charged

theorem Setting.charged_law (env : Setting) : env.Law fun s o => o.Charged env s where
  stay _ h := .of_eq h.speculated
  fail _ he := .fail he rfl
  shift _ := .shift
  probe _ _ _ h _ hp := hp.conclude h.index_le
  trans h h' := h.trans h'

/-- Runs charge what they speculate. -/
theorem Cmd.charged_run {env : Setting} {s : State} (n : Nat) (c : Cmd) (h : env.Ready s) :
    (c.run env n s).Charged env s :=
  env.charged_law.run n c h

end JavaSyntax
