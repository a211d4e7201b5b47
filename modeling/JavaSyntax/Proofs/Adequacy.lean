import JavaSyntax.Proofs.Derivation
import JavaSyntax.Parser.Session

/-!
# Runs and derivations

A run that is not cut off ends as the derivation says. This
rests on what the memo holds: every result in it is that of a derivation, and a type prefix is
never found in its dead end. Both survive every run, also a failing one.
-/

namespace JavaSyntax

namespace TokenStream

/-- A scan that is blocked finds no method reference, however many brackets were open. -/
theorem scanFrom_ne_mayBe {s : TokenStream} {fuel depth i stop : Nat}
    (h : s.scanFrom fuel depth i = .blocked stop) (depth' : Nat) :
    s.scanFrom fuel depth' i ≠ .mayBe := by
  induction fuel generalizing depth depth' i with
  | zero => simp [scanFrom]
  | succ fuel ih =>
    rw [scanFrom] at h ⊢
    split at h
    · exact ih h _
    · split at h
      · cases h
      · split
        · simp
        · exact ih h _
    · split at h <;> cases h
    · cases h
    · split at h
      · simp only [*, ↓reduceIte]
        exact ih h _
      · simp [*]

theorem scanFrom_on_way {s : TokenStream} {fuel depth i stop : Nat}
    (h : s.scanFrom fuel depth i = .blocked stop) {j : Nat} (hij : i ≤ j) (hj : j < stop) :
    ∃ depth', s.scanFrom (fuel - (j - i)) depth' j = .blocked stop := by
  induction fuel generalizing depth i with
  | zero =>
    simp only [scanFrom, TypeScan.blocked.injEq] at h
    omega
  | succ fuel ih =>
    rcases Nat.eq_or_lt_of_le hij with rfl | hlt
    · exact ⟨depth, by simpa using h⟩
    · have hf : fuel + 1 - (j - i) = fuel - (j - (i + 1)) := by omega
      rw [hf]
      rw [scanFrom] at h
      split at h
      · exact ih h hlt
      · split at h
        · cases h
        · exact ih h hlt
      · split at h <;> cases h
      · cases h
      · split at h
        · exact ih h hlt
        · simp only [TypeScan.blocked.injEq] at h
          omega

theorem scanTypePrefix_ne_mayBe {s : TokenStream} {i stop : Nat}
    (h : s.scanTypePrefix i = .blocked stop) {j : Nat} (hij : i ≤ j) (hj : j < stop) :
    s.scanTypePrefix j ≠ .mayBe := by
  obtain ⟨depth, hd⟩ := scanFrom_on_way h hij hj
  have hf : s.length - i - (j - i) = s.length - j := by omega
  rw [hf] at hd
  exact scanFrom_ne_mayBe hd 0

end TokenStream

namespace PredictionMemo
variable {m : PredictionMemo} {s : TokenStream}

/-- No type arguments before a method reference open in the dead end. -/
def Barred (m : PredictionMemo) (s : TokenStream) : Prop :=
  ∀ i, m.deadEnd.1 ≤ i → i < m.deadEnd.2 → s.scanTypePrefix i ≠ .mayBe

@[simp] theorem results_mayBeTypePrefix (m : PredictionMemo) (s : TokenStream) (i : Nat) :
    (m.mayBeTypePrefix s i).2.results = m.results := by
  unfold mayBeTypePrefix
  split
  · rfl
  · split <;> rfl

/-- No memo lets a scan through that finds nothing. -/
theorem mayBeTypePrefix_eq_false {i : Nat} (hscan : s.scanTypePrefix i ≠ .mayBe) :
    (m.mayBeTypePrefix s i).1 = false := by
  unfold mayBeTypePrefix
  split
  · rfl
  · split
    · exact absurd ‹_› hscan
    · rfl
    · rfl

theorem mayBeTypePrefix_of_mayBe {i : Nat} (h : m.Barred s) (hscan : s.scanTypePrefix i = .mayBe) :
    m.mayBeTypePrefix s i = (true, m) := by
  unfold mayBeTypePrefix
  split
  · rename_i hd
    simp only [Bool.and_eq_true, decide_eq_true_eq] at hd
    exact absurd hscan (h i hd.1 hd.2)
  · simp only [hscan]

/-- The answer is that of the scan, with or without a dead end. -/
theorem mayBeTypePrefix_iff (h : m.Barred s) (i : Nat) :
    (m.mayBeTypePrefix s i).1 = true ↔ s.scanTypePrefix i = .mayBe := by
  by_cases hscan : s.scanTypePrefix i = .mayBe
  · simp [mayBeTypePrefix_of_mayBe h hscan, hscan]
  · simp [mayBeTypePrefix_eq_false hscan, hscan]

theorem barred_mayBeTypePrefix (h : m.Barred s) (i : Nat) : (m.mayBeTypePrefix s i).2.Barred s := by
  unfold mayBeTypePrefix
  split
  · exact h
  · split
    · exact h
    · exact h
    · rename_i stop hs
      exact fun j hij hj => TokenStream.scanTypePrefix_ne_mayBe hs hij hj

end PredictionMemo

namespace Setting

abbrev Ends (env : Setting) : Cmd → Place → Ending → Prop :=
  Cmd.Ends env.stream env.options.detectAmbiguity
    (Rule.Ends env.stream env.options.detectAmbiguity)

/-- What a memo holds is true in the setting. -/
structure Trusts (env : Setting) (m : PredictionMemo) : Prop where
  results : ∀ p i r, m.find? p i = some r →
    ∃ o, env.Ends p.fragment (env.stream.fresh i) o ∧ o.verdict = .ok r.accepted
  deadEnd : ∀ i, m.deadEnd.1 ≤ i → i < m.deadEnd.2 → env.stream.scanTypePrefix i ≠ .mayBe

variable {env : Setting} {m : PredictionMemo}

theorem trusts_empty : env.Trusts {} where
  results := by simp [PredictionMemo.find?]
  deadEnd := by simp

theorem Trusts.get (h : env.Trusts m) (p : Probe) (i : Nat) : env.Trusts (m.get p i).2 := by
  unfold PredictionMemo.get
  split
  · exact ⟨h.results, h.deadEnd⟩
  · exact h

theorem Trusts.insert (h : env.Trusts m) {p : Probe} {i : Nat} {o : Ending} {r : ProbeResult}
    (ho : env.Ends p.fragment (env.stream.fresh i) o)
    (hv : o.verdict = .ok r.accepted) : env.Trusts (m.insert p i r) where
  results := by
    intro q j r' hr
    rw [PredictionMemo.find?_insert] at hr
    split at hr
    · rename_i heq
      obtain ⟨rfl, rfl⟩ := heq
      cases hr
      exact ⟨o, ho, hv⟩
    · exact h.results q j r' hr
  deadEnd := h.deadEnd

theorem Trusts.mayBeTypePrefix (h : env.Trusts m) (i : Nat) :
    ((m.mayBeTypePrefix env.stream i).1 = true ↔ env.stream.scanTypePrefix i = .mayBe) ∧
      env.Trusts (m.mayBeTypePrefix env.stream i).2 := by
  refine ⟨PredictionMemo.mayBeTypePrefix_iff h.deadEnd i, ?_, ?_⟩
  · intro p j r hr
    rw [PredictionMemo.find?, PredictionMemo.results_mayBeTypePrefix] at hr
    exact h.results p j r hr
  · exact PredictionMemo.barred_mayBeTypePrefix h.deadEnd i

end Setting

/-- The faults that say nothing of the input: the budget or the levels ran out, or there was no
way back. -/
def ParseFault.isCutoff : ParseFault → Bool
  | .budgetExceeded _ | .stalled | .invalidCheckpoint => true
  | _ => false

namespace State

def place (s : State) : Place := ⟨s.index, s.draft⟩

@[simp] theorem place_fresh (s : State) (env : Setting) :
    (s.fresh env).place = env.stream.fresh s.index := rfl

@[simp] theorem place_enterProbe (s : State) (env : Setting) :
    (s.enterProbe env).place = env.stream.fresh s.index := rfl

end State

namespace Outcome

def ending : Outcome → Ending
  | done s => .done s.place
  | failed e s => .failed e s.index

def isCutoff : Outcome → Bool
  | done _ => false
  | failed e _ => e.fault.isCutoff

/-- The outcome leaves a memo that can be trusted, and unless it was cut off, it is the ending
that the command has from the place. -/
structure Derived (env : Setting) (c : Cmd) (p : Place) (o : Outcome) : Prop where
  memo : env.Trusts o.state.memo
  ending : o.isCutoff = false → env.Ends c p o.ending

end Outcome

/-- The answer to a question at an index, by a derivation of its probe if it takes one. -/
def Query.Answered (env : Setting) (i : Nat) : Query → Bool → Prop
  | known b, answer => b = answer
  | ask probe, answer =>
    ∃ o, env.Ends probe.fragment (env.stream.fresh i) o ∧ o.verdict = .ok answer

/-- The verdict leaves the place and answers the question, or leaves it open. -/
def Verdict.Settles (env : Setting) (p : Place) (q : Query) : Verdict → Prop
  | known b s => s.place = p ∧ env.Trusts s.memo ∧ q.Answered env p.index b
  | ask probe s => s.place = p ∧ env.Trusts s.memo ∧ q = .ask probe

/-- The ruling leaves the place and answers the question, or it ends the parse as the probe
does. -/
def Ruling.Settles (env : Setting) (p : Place) (q : Query) : Ruling → Prop
  | answer b s => s.place = p ∧ env.Trusts s.memo ∧ q.Answered env p.index b
  | abort e s => env.Trusts s.memo ∧ (e.fault.isCutoff = false → s.index = p.index ∧
      ∃ probe o, q = .ask probe ∧ env.Ends probe.fragment (env.stream.fresh p.index) o ∧
        o.verdict = .error e)

namespace Guard
variable {env : Setting} {s : State}

theorem settles_consult (h : env.Trusts s.memo) (probe : Probe) :
    (s.consult env probe).Settles env s.place (.ask probe) := by
  unfold State.consult
  split
  · have hm := h.get probe s.index
    cases hf : s.memo.find? probe s.index with
    | none =>
      simp only [PredictionMemo.get, hf]
      exact ⟨rfl, h, rfl⟩
    | some r =>
      simp only [PredictionMemo.get, hf] at hm ⊢
      exact ⟨rfl, hm, h.results _ _ _ hf⟩
  · exact ⟨rfl, h, rfl⟩

theorem settles_settle (h : env.Trusts s.memo) (g : Guard) :
    (g.settle env s).Settles env s.place (g.query env.stream s.place) := by
  cases g with
  | test t => exact ⟨rfl, h, rfl⟩
  | trial sure possible probe =>
    simp only [settle, query, State.place]
    by_cases hs : sure.holds env.stream s.index s.draft = true
    · simp only [hs, ↓reduceIte]
      exact ⟨rfl, h, rfl⟩
    · by_cases hp : possible.holds env.stream s.index s.draft = true
      · simp only [hs, hp, Bool.false_eq_true, ↓reduceIte]
        exact settles_consult h probe
      · simp only [hs, hp, Bool.false_eq_true, ↓reduceIte]
        exact ⟨rfl, h, rfl⟩
  | typeHead probe =>
    simp only [settle, query, State.place]
    obtain ⟨hiff, hm⟩ := h.mayBeTypePrefix (env.stream.nameEnd s.index)
    by_cases hk : env.stream.kindAt (env.stream.nameEnd s.index) = .less
    · simp only [hk, ↓reduceIte, true_and, ← hiff]
      split
      · exact settles_consult (s := { s with memo := _ }) hm probe
      · exact ⟨rfl, hm, rfl⟩
    · simp only [hk, ↓reduceIte, false_and]
      exact ⟨rfl, h, rfl⟩

end Guard

theorem Guard.decide_typeHead_no {env : Setting} {deeper : Cmd → State → Outcome} {s : State}
    {probe : Probe}
    (hscan : env.stream.scanTypePrefix (env.stream.nameEnd s.index) ≠ .mayBe) :
    ∃ memo, (typeHead probe).decide env deeper s = .answer false { s with memo } := by
  have hmay := PredictionMemo.mayBeTypePrefix_eq_false (m := s.memo) hscan
  unfold Guard.decide settle
  by_cases hless : env.stream.kindAt (env.stream.nameEnd s.index) = .less
  · exact ⟨_, by simp [hless, hmay]; rfl⟩
  · exact ⟨s.memo, by simp [hless]⟩

namespace State

@[simp] theorem place_remember (s : State) (env : Setting) (probe : Probe) (r : ProbeResult) :
    (s.remember env probe r).place = s.place := by
  unfold remember
  split <;> rfl

theorem trusts_remember {env : Setting} {s : State} (h : env.Trusts s.memo) {probe : Probe}
    {o : Ending} {r : ProbeResult} (ho : env.Ends probe.fragment (env.stream.fresh s.index) o)
    (hv : o.verdict = .ok r.accepted) : env.Trusts (s.remember env probe r).memo := by
  unfold remember
  split
  · exact h.insert ho hv
  · exact h

theorem settles_conclude {env : Setting} {probe : Probe} {p : Place} {o : Outcome}
    (h : o.Derived env probe.fragment (env.stream.fresh p.index)) :
    (conclude env probe p.index p.draft o).Settles env p (.ask probe) := by
  unfold conclude
  dsimp only
  split
  · exact ⟨h.memo, by simp [errorHere, ParseFault.isCutoff]⟩
  · cases o with
    | done s =>
      have ho := h.ending rfl
      refine ⟨place_remember .., trusts_remember ?_ ho rfl, _, ho, rfl⟩
      exact h.memo
    | failed e s =>
      dsimp only
      split
      · rename_i he
        refine ⟨h.memo, fun hc => ⟨rfl, probe, _, rfl, h.ending hc, ?_⟩⟩
        simp [Outcome.ending, Ending.verdict, he]
      · rename_i he
        have hc : (Outcome.failed e s).isCutoff = false := by
          cases hf : e.fault <;> simp_all [Outcome.isCutoff, ParseFault.isCutoff,
            ParseError.isFatal, ParseFault.isFatal]
        have hv : (Outcome.failed e s).ending.verdict = .ok false := by
          simp [Outcome.ending, Ending.verdict, he]
        refine ⟨place_remember .., trusts_remember ?_ (h.ending hc) hv, _, h.ending hc, hv⟩
        exact h.memo

end State

namespace Cmd
variable {env : Setting} {deeper : Cmd → State → Outcome}

theorem settles_decide
    (hd : ∀ c (s : State), env.Trusts s.memo → (deeper c s).Derived env c s.place) (g : Guard)
    {s : State} (h : env.Trusts s.memo) :
    (g.decide env deeper s).Settles env s.place (g.query env.stream s.place) := by
  have hs := Guard.settles_settle h g
  unfold Guard.decide
  cases hg : g.settle env s with
  | known b s' =>
    rw [hg] at hs
    exact hs
  | ask probe s' =>
    rw [hg] at hs
    obtain ⟨hp, hm, hq⟩ := hs
    have hi : s'.index = s.index := congrArg Place.index hp
    rw [hq]
    refine State.settles_conclude (p := s.place) ?_
    have hf := hd probe.fragment (s'.enterProbe env) hm
    rw [State.place_enterProbe, hi] at hf
    exact hf

theorem Ends.ite_of_answered {g : Guard} {a b : Cmd} {p : Place} {answer : Bool} {o : Ending}
    (h : (g.query env.stream p).Answered env p.index answer)
    (ho : env.Ends (if answer then a else b) p o) : env.Ends (.ite g a b) p o := by
  cases hq : g.query env.stream p with
  | known t =>
    rw [hq] at h
    cases h
    exact .known hq ho
  | ask probe =>
    rw [hq] at h
    obtain ⟨t, ht, hv⟩ := h
    exact .asked hq ht hv ho

theorem derived_shift {s : State} (h : env.Trusts s.memo) :
    (s.shift env).Derived env .shift s.place := by
  obtain ⟨-, -, hs⟩ | ⟨-, ⟨he, hs⟩ | ⟨he, hs⟩⟩ := s.shift_cases env <;> rw [hs]
  · exact ⟨h, by simp [Outcome.isCutoff, State.errorHere, ParseFault.isCutoff]⟩
  · exact ⟨h, fun _ => .shiftEnd he⟩
  · exact ⟨h, fun _ => .shift he⟩

theorem derived_exec
    (hd : ∀ c (s : State), env.Trusts s.memo → (deeper c s).Derived env c s.place) (c : Cmd)
    {s : State} (h : env.Trusts s.memo) : (c.exec env deeper s).Derived env c s.place := by
  induction c generalizing s with
  | skip => exact ⟨h, fun _ => .skip⟩
  | shift => exact derived_shift h
  | fail expected remark => exact ⟨h, fun _ => .fail⟩
  | seq a b iha ihb =>
    have ha := iha h
    unfold exec
    split
    · rename_i s' hs
      rw [hs] at ha
      have hb := ihb ha.memo
      exact ⟨hb.memo, fun hc => .seq (ha.ending rfl) (hb.ending hc)⟩
    · rename_i e s' hs
      rw [hs] at ha
      exact ⟨ha.memo, fun hc => .seqFail (ha.ending hc)⟩
  | ite g a b iha ihb =>
    have hg := settles_decide hd g h
    unfold exec
    split
    · rename_i s' hs
      rw [hs] at hg
      obtain ⟨hp, hm, hq⟩ := hg
      have ha := iha hm
      rw [hp] at ha
      exact ⟨ha.memo, fun hc => .ite_of_answered hq (ha.ending hc)⟩
    · rename_i s' hs
      rw [hs] at hg
      obtain ⟨hp, hm, hq⟩ := hg
      have hb := ihb hm
      rw [hp] at hb
      exact ⟨hb.memo, fun hc => .ite_of_answered hq (hb.ending hc)⟩
    · rename_i e s' hs
      rw [hs] at hg
      refine ⟨hg.1, fun hc => ?_⟩
      obtain ⟨hi, probe, o, hq, ho, hv⟩ := hg.2 hc
      rw [Outcome.ending, hi]
      exact .aborted hq ho hv
  | loop g body ih =>
    have hg := settles_decide hd g h
    unfold exec
    split
    · rename_i s' hs
      rw [hs] at hg
      obtain ⟨hp, hm, hq⟩ := hg
      have ha := hd (.seq body (.loop g body)) s' hm
      rw [hp] at ha
      exact ⟨ha.memo, fun hc => .loop (.ite_of_answered hq (ha.ending hc))⟩
    · rename_i s' hs
      rw [hs] at hg
      obtain ⟨hp, hm, hq⟩ := hg
      refine ⟨hm, fun hc => .loop (.ite_of_answered hq ?_)⟩
      rw [Outcome.ending, hp]
      exact .skip
    · rename_i e s' hs
      rw [hs] at hg
      refine ⟨hg.1, fun hc => ?_⟩
      obtain ⟨hi, probe, o, hq, ho, hv⟩ := hg.2 hc
      rw [Outcome.ending, hi]
      exact .loop (.aborted hq ho hv)
  | nest body ih =>
    have hb := ih (s := s.fresh env) h
    unfold exec
    split
    · rename_i s' hs
      rw [hs] at hb
      exact ⟨hb.memo, fun _ => .nest (q := s'.place) (hb.ending rfl)⟩
    · rename_i e s' hs
      rw [hs] at hb
      exact ⟨hb.memo, fun hc => .nestFail (hb.ending hc)⟩
  | jump r =>
    have hr := hd r.body s h
    exact ⟨hr.memo, fun hc => .jump (.body (hr.ending hc))⟩
  | dispatch t =>
    unfold exec
    split
    · rename_i r hr
      have hb := hd r.body s h
      exact ⟨hb.memo, fun hc => .dispatch hr (.body (hb.ending hc))⟩
    · rename_i e he
      exact ⟨h, fun _ => .dispatchFail he⟩
  | close kind => exact ⟨h, fun _ => .close⟩
  | wrap kind => exact ⟨h, fun _ => .wrap⟩

/-- Runs are derived. -/
theorem derived_run (env : Setting) (n : Nat) (c : Cmd) {s : State} (h : env.Trusts s.memo) :
    (c.run env n s).Derived env c s.place := by
  induction n generalizing c s with
  | zero => exact ⟨h, by simp [run, Outcome.isCutoff, State.errorHere, ParseFault.isCutoff]⟩
  | succ n ih => exact derived_exec (fun c _ h => ih c h) c h

end Cmd
end JavaSyntax
