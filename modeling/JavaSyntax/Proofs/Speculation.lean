import JavaSyntax.Proofs.Accounts

/-!
# Speculation is bounded

A session with a memo holds at most eight results for each token, and while no call has run out
of its budget, each of them pays for at most all tokens. So a budget of eight times the square of
the list's length never runs out. A smaller one may, and after that each further call that does
adds one token to the count.
-/

namespace JavaSyntax

namespace Machine

variable {deeper : Cmd → State → Outcome} {w : Cmd → Nat}

theorem speculated_shift_le (s : State) (env : Setting) :
    (s.shift env).state.speculated ≤ s.speculated + 1 := by
  rw [State.speculated_shift, State.counted]
  dsimp only
  split <;> omega

theorem speculated_decide_le (env : Setting)
    (hd : ∀ c s, (deeper c s).state.speculated ≤ s.speculated + w c) (g : Guard) (s : State) :
    (g.decide env deeper s).outcome.state.speculated ≤ s.speculated + cost.guardCost w g := by
  unfold Guard.decide
  cases hg : g.settle env s with
  | known answer t =>
    have ht : t.speculated = s.speculated := (Guard.sameCounts_of_known hg).speculated
    exact ht ▸ Nat.le_add_right _ _
  | ask p t =>
    have ht : t.speculated = s.speculated := (Guard.unasked_of_ask hg).1.speculated
    have hp := hd p.fragment (t.enterProbe env)
    change _ ≤ t.speculated + _ at hp
    dsimp only
    rw [State.speculated_conclude, cost.guardCost, Guard.probe?_eq_of_settle hg]
    dsimp only
    omega

/-- The work of a command bounds what it speculates, whatever the budget. -/
theorem speculated_exec_le (env : Setting)
    (hd : ∀ c s, (deeper c s).state.speculated ≤ s.speculated + w c) (c : Cmd) (s : State) :
    (c.exec env deeper s).state.speculated ≤ s.speculated + cost w c := by
  induction c generalizing s with
  | shift => exact speculated_shift_le s env
  | seq a b iha ihb =>
    have ha := iha s
    rw [Cmd.exec, cost]
    split
    · rename_i t ht
      have hb := ihb t
      rw [ht] at ha
      simp only [Outcome.state] at ha
      omega
    · rename_i e t ht
      rw [ht] at ha
      simp only [Outcome.state] at ha ⊢
      omega
  | ite g a b iha ihb =>
    have hg := speculated_decide_le env hd g s
    rw [Cmd.exec, cost]
    split <;> rename_i t ht <;> rw [ht] at hg <;> simp only [Ruling.outcome, Outcome.state] at hg
    · have ha := iha t
      omega
    · have hb := ihb t
      omega
    · simp only [Outcome.state]
      omega
  | loop g body _ =>
    have hg := speculated_decide_le env hd g s
    rw [Cmd.exec, cost]
    split <;> rename_i t ht <;> rw [ht] at hg <;> simp only [Ruling.outcome, Outcome.state] at hg
    · have hpass := hd (.seq body (.loop g body)) t
      omega
    · simp only [Outcome.state]
      omega
    · simp only [Outcome.state]
      omega
  | nest body ihb =>
    have hb := ihb (s.fresh env)
    change _ ≤ s.speculated + _ at hb
    rw [Cmd.exec, cost]
    split <;> rename_i t ht <;> rw [ht] at hb <;> simp only [Outcome.state] at hb ⊢ <;> omega
  | jump r =>
    have hr := hd r.body s
    rw [Cmd.exec, cost]
    omega
  | dispatch t =>
    rw [Cmd.exec, cost]
    split
    · rename_i r hr
      have hb := hd r.body s
      have hm := le_sumMap (fun r : Rule => w r.body) (Table.mem_rules_of_decide hr)
      omega
    · exact Nat.le_add_right _ _
  | _ => exact Nat.le_add_right _ _

theorem speculated_run_le (env : Setting) (n : Nat) (c : Cmd) (s : State) :
    (c.run env n s).state.speculated ≤ s.speculated + work n c := by
  induction n generalizing c s with
  | zero => exact Nat.le_add_right _ _
  | succ n ih => exact speculated_exec_le env (fun c s => ih c s) c s

end Machine

theorem Cmd.exists_ends {s : TokenStream} {c : Cmd} {p : Place} (hs : s.Closed)
    (hp : p.index ≤ s.lastIndex) (hc : c.paced = true) (strict : Bool) :
    ∃ o, Cmd.Ends s strict (Rule.Ends s strict) c p o := by
  obtain ⟨n, hn⟩ : ∃ n, n = c.rank + 128 * (s.lastIndex - p.index) + 1 := ⟨_, rfl⟩
  let env : Setting :=
    ⟨s, { detectAmbiguity := strict, speculationBudget := Machine.work n c }⟩
  let start : State := { index := p.index, draft := p.draft }
  have hready : env.Ready start := ⟨hs, hp, Setting.trusts_empty⟩
  have hafford : env.Affords n c.rank start.index := hn ▸ Nat.lt_succ_self _
  have hsteady : (c.run env n start).Steady :=
    (Cmd.steady_run hs n).1 c start hready.trusts hp hc hafford
  have hcharged := Cmd.charged_run n c hready
  have hwork := Machine.speculated_run_le env n c start
  have hd := Cmd.derived_run env n c (s := start) hready.trusts
  generalize c.run env n start = o at *
  refine ⟨o.ending, hd.ending ?_⟩
  cases o with
  | done t => rfl
  | failed e t =>
    refine ParseFault.isCutoff_eq_false hsteady ?_
    intro budget hf
    have hspent := (hcharged.spent e t rfl (by rw [hf]; rfl)).2
    change t.speculated = max 0 (Machine.work n c) + 1 at hspent
    change t.speculated ≤ 0 + Machine.work n c at hwork
    omega

/-- The largest size that the memo of a list can have. -/
def TokenStream.memoLimit (s : TokenStream) : Nat := 8 * (s.lastIndex + 1)

/-- The most that probes can speculate within a budget. -/
def TokenStream.speculationLimit (s : TokenStream) : Nat := (s.lastIndex + 1) * s.memoLimit

def Reply.isExhausted (r : Reply) : Bool :=
  match r.result with
  | .ok _ => false
  | .error e => e.fault.isExhausted

namespace Session
variable {p : Session} {e : Entry} {k : Nat}

theorem levels_suffice (p : Session) (e : Entry) :
    p.env.Affords p.levels e.rule.body.rank p.index := by
  have hbody := e.rule.rank_body_le
  have hrank : e.rule.rank ≤ 11 := by cases e <;> decide
  have hlast : p.env.stream.lastIndex ≤ p.env.stream.length := Nat.sub_le _ _
  rw [Setting.Affords, levels]
  omega

theorem law_outcome {R : State → Outcome → Prop} (law : p.env.Law R) (h : p.env.Ready p.state)
    (r : Rule) : R (p.state.fresh p.env) (p.outcome r) :=
  law.run p.levels r.body (h.redraft _)

theorem isFatal_outcome (h : p.env.Ready p.state) (e : Entry)
    (ho : (p.outcome e.rule).isExhausted = false) : (p.outcome e.rule).isFatal = false := by
  have hsteady := (Cmd.steady_run h.closed p.levels).1 e.rule.body (p.state.fresh p.env) h.trusts
    h.index_le e.rule.paced_body (p.levels_suffice e)
  have hd := Cmd.derived_run p.env p.levels e.rule.body (s := p.state.fresh p.env) h.trusts
  change (p.outcome e.rule).Steady at hsteady
  change (p.outcome e.rule).Derived _ _ _ at hd
  generalize p.outcome e.rule = o at *
  cases o with
  | done t => rfl
  | failed err t =>
    have hcut : err.fault.isCutoff = false := by
      refine ParseFault.isCutoff_eq_false hsteady ?_
      intro budget hf
      have hx : err.fault.isExhausted = true := by rw [hf]; rfl
      cases ho.symm.trans hx
    exact (Rule.Ends.body (hd.ending hcut)).mild

theorem exists_budget (h : p.env.Ready p.state) (e : Entry) :
    ∃ high, p.env.budget ≤ high ∧ ((p.withBudget high).outcome e.rule).isExhausted = false := by
  refine ⟨max p.env.budget (p.speculated + Machine.work p.levels e.rule.body),
    Nat.le_max_left _ _, ?_⟩
  generalize hhigh : max p.env.budget (p.speculated + Machine.work p.levels e.rule.body) = high
  have hcharged : ((p.withBudget high).outcome e.rule).Charged (p.env.withBudget high)
      (p.state.fresh p.env) :=
    law_outcome (p.env.withBudget high).charged_law (h.withBudget high) e.rule
  have hwork : ((p.withBudget high).outcome e.rule).state.speculated ≤
      p.speculated + Machine.work p.levels e.rule.body :=
    Machine.speculated_run_le (p.env.withBudget high) p.levels e.rule.body (p.state.fresh p.env)
  generalize (p.withBudget high).outcome e.rule = o at *
  cases o with
  | done t => rfl
  | failed err t =>
    cases hx : err.fault.isExhausted with
    | false => exact hx
    | true =>
      have hspent := (hcharged.spent err t rfl hx).2
      change t.speculated = max _ high + 1 at hspent
      change t.speculated ≤ _ at hwork
      omega

/-- What holds of a session with a memo after `k` calls that ran out of their budget. -/
structure Bounded (p : Session) (k : Nat) : Prop where
  ready : p.env.Ready p.state
  memoize : p.env.options.memoize = true
  depth : p.state.depth = 0
  within : p.memo.Within (p.env.stream.lastIndex + 1)
  /-- At first the memo pays for all, within the budget. -/
  paid : k = 0 → p.speculated ≤ p.env.budget ∧
    p.speculated ≤ (p.env.stream.lastIndex + 1) * p.memo.size
  /-- Later each call that runs out adds a token. -/
  spent : 0 < k → p.speculated = p.env.budget + k ∧
    p.env.budget < p.env.stream.speculationLimit

theorem Bounded.size_le (h : p.Bounded k) : p.memo.size ≤ p.env.stream.memoLimit :=
  PredictionMemo.size_le h.within

theorem Bounded.speculated_le (h : p.Bounded k) :
    p.speculated ≤ p.env.stream.speculationLimit + (k - 1) := by
  rcases Nat.eq_zero_or_pos k with rfl | hk
  · have hpaid := (h.paid rfl).2
    have hsize := Nat.mul_le_mul_left (p.env.stream.lastIndex + 1) h.size_le
    rw [TokenStream.speculationLimit]
    omega
  · have hspent := h.spent hk
    omega

/-- A call within the budget is paid for by its results. -/
theorem Bounded.paid_outcome (h : p.Bounded 0) (e : Entry)
    (ho : (p.outcome e.rule).isExhausted = false) :
    (p.outcome e.rule).state.speculated ≤
      (p.env.stream.lastIndex + 1) * (p.outcome e.rule).state.memo.size := by
  have hacc := law_outcome (Setting.accounts_law h.memoize) h.ready e.rule
  have hcount := hacc.count (isFatal_outcome h.ready e ho)
  have hpaid := (h.paid rfl).2
  have hdepth : (p.state.fresh p.env).depth = 0 := h.depth
  rw [if_pos hdepth, if_pos hdepth] at hcount
  change (p.outcome e.rule).state.speculated + _ * p.memo.size + 0 ≤
    p.speculated + _ * (p.outcome e.rule).state.memo.size + 0 at hcount
  omega

/-- Only a budget below the limit runs out. -/
theorem Bounded.lt_of_exhausted (h : p.Bounded 0) (e : Entry)
    (ho : (p.outcome e.rule).isExhausted = true) :
    p.env.budget < p.env.stream.speculationLimit := by
  obtain ⟨high, hle, hhigh⟩ := exists_budget h.ready e
  have hq : (p.withBudget high).Bounded 0 :=
    ⟨h.ready.withBudget high, h.memoize, h.depth, h.within,
      fun _ => ⟨Nat.le_trans (h.paid rfl).1 hle, (h.paid rfl).2⟩, fun hk => absurd hk (by simp)⟩
  have hpaid := hq.paid_outcome e hhigh
  have hwithin : ((p.withBudget high).outcome e.rule).state.memo.Within _ :=
    law_outcome (p.env.withBudget high).within_law hq.ready e.rule hq.within
  have hsize := PredictionMemo.size_le hwithin
  have hlock := lockstep_outcome h.ready (h.paid rfl).1 hle e.rule
  change _ ≤ (p.env.stream.lastIndex + 1) * _ at hpaid
  change _ ≤ p.env.stream.memoLimit at hsize
  have hmul := Nat.mul_le_mul_left (p.env.stream.lastIndex + 1) hsize
  rw [TokenStream.speculationLimit]
  generalize (p.withBudget high).outcome e.rule = o' at *
  generalize p.outcome e.rule = o at *
  cases hlock with
  | same _ => cases hhigh.symm.trans ho
  | out _ _ hlt => omega

theorem Bounded.run (h : p.Bounded k) (e : Entry) :
    (p.run e.rule).2.Bounded (if (p.outcome e.rule).isExhausted then k + 1 else k) := by
  have hcharged := law_outcome p.env.charged_law h.ready e.rule
  have hready : p.env.Ready (p.outcome e.rule).state :=
    ⟨h.ready.closed, law_outcome (p.env.index_law h.ready.closed) h.ready e.rule h.ready.index_le,
      (Cmd.derived_run p.env p.levels e.rule.body (s := p.state.fresh p.env) h.ready.trusts).memo⟩
  have hdepth : (p.outcome e.rule).state.depth = 0 :=
    (law_outcome (Setting.accounts_law h.memoize) h.ready e.rule).depth.trans h.depth
  have hwithin := law_outcome p.env.within_law h.ready e.rule h.within
  rw [run_outcome]
  have hle : p.speculated ≤ (p.outcome e.rule).state.speculated := hcharged.le
  cases hx : (p.outcome e.rule).isExhausted with
  | false =>
    have hmax : (p.outcome e.rule).state.speculated ≤ max p.speculated p.env.budget :=
      hcharged.within hx
    refine ⟨hready, h.memoize, hdepth, hwithin, ?_, ?_⟩
    · intro hk
      cases hk
      have hpaid := (h.paid rfl).1
      refine ⟨?_, h.paid_outcome e hx⟩
      exact Nat.le_trans hmax (Nat.max_le.2 ⟨hpaid, Nat.le_refl _⟩)
    · intro hk
      obtain ⟨hspec, hlimit⟩ := h.spent hk
      refine ⟨?_, hlimit⟩
      change (p.outcome e.rule).state.speculated = p.env.budget + k
      omega
  | true =>
    have hmax : (p.outcome e.rule).state.speculated = max p.speculated p.env.budget + 1 := by
      generalize p.outcome e.rule = o at hcharged hx
      cases o with
      | done t => cases hx
      | failed err t => exact (hcharged.spent err t rfl hx).2
    refine ⟨hready, h.memoize, hdepth, hwithin, ?_, ?_⟩
    · intro hk
      cases hk
    · intro _
      change (p.outcome e.rule).state.speculated = p.env.budget + (k + 1) ∧ _
      rcases Nat.eq_zero_or_pos k with rfl | hk
      · have hpaid := (h.paid rfl).1
        exact ⟨by omega, h.lt_of_exhausted e hx⟩
      · obtain ⟨hspec, hlimit⟩ := h.spent hk
        exact ⟨by omega, hlimit⟩

theorem isExhausted_perform (p : Session) (e : Entry) :
    (p.perform (.entry e)).isExhausted = (p.outcome e.rule).isExhausted := by
  rw [perform, run_outcome]
  cases p.outcome e.rule with
  | failed err t => rfl
  | done t =>
    simp only [Outcome.reply, treeOf]
    split <;> rfl

theorem isExhausted_expectEnd (p : Session) : (p.perform .expectEnd).isExhausted = false := by
  rw [perform, expectEnd]
  split
  · rfl
  · exact ParseFault.isExhausted_ofFound _ _

theorem Bounded.perform (h : p.Bounded k) (c : Request) :
    (p.perform c).session.Bounded (k + if (p.perform c).isExhausted then 1 else 0) := by
  cases c with
  | entry e =>
    have hrun := h.run e
    rw [isExhausted_perform]
    cases hx : (p.outcome e.rule).isExhausted <;> rw [hx] at hrun <;> exact hrun
  | expectEnd =>
    rw [isExhausted_expectEnd]
    exact h

theorem Bounded.after (h : p.Bounded k) (calls : List Request) :
    (p.after calls).Bounded (k + (p.replies calls).countP Reply.isExhausted) := by
  induction calls generalizing p k with
  | nil => exact h
  | cons c calls ih =>
    have hcount : k + (p.replies (c :: calls)).countP Reply.isExhausted =
        (k + if (p.perform c).isExhausted then 1 else 0) +
          ((p.perform c).session.replies calls).countP Reply.isExhausted := by
      rw [replies, List.countP_cons]
      omega
    rw [hcount]
    exact ih (h.perform c)

/-- A budget that reaches the limit never runs out. -/
theorem Bounded.not_exhausted (h : p.Bounded 0)
    (hb : p.env.stream.speculationLimit ≤ p.env.budget) (calls : List Request) :
    ∀ r ∈ p.replies calls, r.isExhausted = false := by
  have hcall {q : Session} (hq : q.Bounded 0) (hle : q.env.stream.speculationLimit ≤ q.env.budget)
      (c : Request) : (q.perform c).isExhausted = false := by
    cases c with
    | entry e =>
      rw [isExhausted_perform, Bool.eq_false_iff]
      intro hx
      have := hq.lt_of_exhausted e hx
      omega
    | expectEnd => exact isExhausted_expectEnd q
  induction calls generalizing p with
  | nil => simp [replies]
  | cons c calls ih =>
    have hc := hcall h hb c
    have hnext := h.perform c
    rw [hc] at hnext
    rw [replies, List.forall_mem_cons]
    refine ⟨hc, ih hnext ?_⟩
    rw [env_perform]
    exact hb

theorem bounded_startAt {ts : TokenList} (options : ParseOptions) {i : Nat}
    (hend : ts.tokens.back?.map Token.kind = some .eof) (hi : i < ts.length) :
    (startAt ts { options with memoize := true } i).Bounded 0 where
  ready := ready_startAt _ hend hi
  memoize := rfl
  depth := rfl
  within := PredictionMemo.within_empty _
  paid := by
    intro _
    exact ⟨Nat.zero_le _, Nat.zero_le _⟩
  spent := by
    intro hk
    exact absurd hk (Nat.lt_irrefl 0)

theorem session_perform (p : Session) (c : Request) : (p.perform c).session =
    match c with
    | .entry e => { p with state := (p.outcome e.rule).state }
    | .expectEnd => p := by
  cases c with
  | entry e => rw [perform, run_outcome]
  | expectEnd => rfl

theorem after_eq_foldl (p : Session) (calls : List Request) : p.after calls =
    calls.foldl (fun p c => match c with
      | .entry e => { p with state := (p.outcome e.rule).state }
      | .expectEnd => p) p := by
  simp only [after, session_perform]

end Session

/-- With a memo, a session over `n` tokens never holds more than `8 n` results, and its count of
speculated tokens stays within `8 n n` and one more for each call that ran out of its budget
after the first that did. A budget of `8 n n` never runs out. -/
theorem speculation_bounded (ts : TokenList) (options : ParseOptions) (i : Nat)
    (calls : List Request) (hend : ts.tokens.back?.map Token.kind = some .eof)
    (hi : i < ts.length) :
    let p := Session.startAt ts { options with memoize := true } i
    let n := ts.length
    (p.after calls).memo.size ≤ 8 * n ∧
      (p.after calls).speculated ≤
        8 * n * n + ((p.replies calls).countP Reply.isExhausted - 1) ∧
      (8 * n * n ≤ options.speculationBudget →
        ∀ r ∈ p.replies calls, r.isExhausted = false) := by
  intro p n
  have hp : p.Bounded 0 := Session.bounded_startAt options hend hi
  have hlength : p.env.stream.lastIndex + 1 = n := Nat.sub_add_cancel (Nat.zero_lt_of_lt hi)
  have hsize : p.env.stream.memoLimit = 8 * n := by
    rw [TokenStream.memoLimit, hlength]
  have hlimit : p.env.stream.speculationLimit = 8 * n * n := by
    rw [TokenStream.speculationLimit, hsize, hlength, Nat.mul_comm]
  have hafter := hp.after calls
  rw [Nat.zero_add] at hafter
  refine ⟨?_, ?_, ?_⟩
  · have hle := hafter.size_le
    rw [Session.env_after, hsize] at hle
    exact hle
  · have hle := hafter.speculated_le
    rw [Session.env_after, hlimit] at hle
    exact hle
  · intro hbudget
    exact hp.not_exhausted (hlimit ▸ hbudget) calls

/-- The bounds for `(Foo) bar`, read as an expression up to its end. -/
theorem speculation_bounded_cast :
    let ts : TokenList :=
      { source := "(Foo) bar"
        tokens := #[⟨.lparen, ⟨0, 1⟩, ⟨1, 1⟩⟩, ⟨.ident, ⟨1, 4⟩, ⟨1, 2⟩⟩, ⟨.rparen, ⟨4, 5⟩, ⟨1, 5⟩⟩,
          ⟨.ident, ⟨6, 9⟩, ⟨1, 7⟩⟩, ⟨.eof, ⟨9, 9⟩, ⟨1, 10⟩⟩] }
    let p := Session.startAt ts { speculationBudget := 200 } 0
    let calls : List Request := [.entry .expression, .expectEnd]
    (p.after calls).memo.size ≤ 40 ∧ (p.after calls).speculated ≤ 200 ∧
      (∀ r ∈ p.replies calls, r.isExhausted = false) ∧ (p.after calls).speculated = 3 := by
  intro ts p calls
  obtain ⟨hsize, hcount, hnever⟩ :=
    speculation_bounded ts { speculationBudget := 200 } 0 calls (by decide) (by decide)
  have hnone : (p.replies calls).countP Reply.isExhausted = 0 := by
    rw [List.countP_eq_zero]
    intro r hr
    simp [hnever (by decide) r hr]
  have hthree : (p.after calls).speculated = 3 := by
    rw [Session.after_eq_foldl]
    decide +kernel
  refine ⟨hsize, ?_, hnever (by decide), hthree⟩
  rw [hnone] at hcount
  exact hcount

/-- The count itself has no bound: on the list of one name and a budget of zero, each of 33 calls
runs out of the budget, and each adds one token. -/
theorem not_speculated_le :
    ¬∀ (ts : TokenList) (options : ParseOptions) (i : Nat) (calls : List Request),
      ts.tokens.back?.map Token.kind = some .eof → i < ts.length →
      ((Session.startAt ts { options with memoize := true } i).after calls).memo.size ≤
          8 * ts.length ∧
        ((Session.startAt ts { options with memoize := true } i).after calls).speculated ≤
          8 * ts.length * ts.length := by
  intro h
  have hle := (h { source := "a", tokens := #[⟨.ident, ⟨0, 1⟩, ⟨1, 1⟩⟩, ⟨.eof, ⟨1, 1⟩, ⟨1, 2⟩⟩] }
    { speculationBudget := 0 } 0 (List.replicate 33 (.entry .statement)) (by decide)
    (by decide)).2
  rw [Session.after_eq_foldl] at hle
  revert hle
  decide +kernel

end JavaSyntax
