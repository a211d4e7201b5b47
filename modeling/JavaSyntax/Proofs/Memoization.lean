import JavaSyntax.Proofs.Levels

/-!
# Sessions in step

What a call answers is fixed by the derivation of its rule, and so is where it leaves the
session. Two sessions over one closed list that stand at one token stay in step, whatever their
memos hold, as long as neither runs out of its budget.
-/

namespace JavaSyntax

theorem TokenStream.closed_ofList {ts : TokenList}
    (h : ts.tokens.back?.map Token.kind = some .eof) : (ofList ts).Closed := by
  rw [Closed, kind_tokenAt_ofList, kindAt, TokenList.kindAt]
  have hlast : ts.tokens[(ofList ts).lastIndex]? = ts.tokens.back? := by
    rw [Array.back?_eq_getElem?]
    rfl
  rw [list_ofList, hlast]
  obtain ⟨t, ht, hk⟩ := Option.map_eq_some_iff.1 h
  rw [ht]
  exact hk

/-- The error is no exhausted budget. -/
def ParseError.InBudget (e : ParseError) : Prop := ∀ budget, e.fault ≠ .budgetExceeded budget

theorem ParseFault.isCutoff_eq_false {f : ParseFault} (hs : f.isStuck = false)
    (hb : ∀ budget, f ≠ .budgetExceeded budget) : f.isCutoff = false := by
  cases f <;> simp_all [isCutoff, isStuck]

namespace Session
variable {p q : Session}

/-- The run of a rule on a closed list ends steadily. -/
theorem Sound.isStuck_rule (h : p.Sound) (hs : p.env.stream.Closed)
    (hi : p.index ≤ p.env.stream.lastIndex) {r : Rule} (hne : r ≠ .emptyMember) {err : ParseError}
    (he : (p.run r).1 = .error err) : err.fault.isStuck = false := by
  have hbody := r.rank_body_le
  have hrank := r.rank_le
  have ha : p.env.Affords p.levels r.body.rank p.index := by
    have hlast : p.env.stream.lastIndex ≤ p.env.stream.length := Nat.sub_le _ _
    rw [Setting.Affords, levels]
    omega
  have hsteady := (Cmd.steady_run hs p.levels).1 r.body (p.state.fresh p.env) h hi r.paced_body ha
  have hd := Cmd.derived_run p.env p.levels r.body (s := p.state.fresh p.env) h
  rw [run_eq] at he
  split at he <;> rename_i s ho <;> rw [ho] at hd hsteady
  · obtain ⟨t, kind, ht, -⟩ := (Rule.Ends.body (hd.ending rfl)).single hne rfl
    have ht : s.draft.items = [t] := ht
    simp [treeOf, ht] at he
  · cases he
    exact hsteady

theorem Sound.isStuck_run (h : p.Sound) (hs : p.env.stream.Closed)
    (hi : p.index ≤ p.env.stream.lastIndex) (e : Entry) {err : ParseError}
    (he : (p.run e.rule).1 = .error err) : err.fault.isStuck = false :=
  h.isStuck_rule hs hi e.rule_ne_emptyMember he

/-- Two sessions stand at the same token of one closed list, and both have sound memos. -/
structure InStep (p q : Session) : Prop where
  stream : q.env.stream = p.env.stream
  strict : q.env.options.detectAmbiguity = p.env.options.detectAmbiguity
  index : q.index = p.index
  closed : p.env.stream.Closed
  index_le : p.index ≤ p.env.stream.lastIndex
  left : p.Sound
  right : q.Sound

/-- A call within the budgets gets one answer from both sessions, and they stay in step. -/
theorem InStep.run (h : InStep p q) (e : Entry)
    (hp : ∀ err, (p.run e.rule).1 = .error err → err.InBudget)
    (hq : ∀ err, (q.run e.rule).1 = .error err → err.InBudget) :
    (q.run e.rule).1 = (p.run e.rule).1 ∧ InStep (p.run e.rule).2 (q.run e.rule).2 := by
  have hqs : q.env.stream.Closed := h.stream ▸ h.closed
  have hqi : q.index ≤ q.env.stream.lastIndex := by
    rw [h.stream, h.index]
    exact h.index_le
  obtain ⟨o, ho, hoi, hog⟩ := h.left.gives e fun err he =>
    ParseFault.isCutoff_eq_false (h.left.isStuck_run h.closed h.index_le e he) (hp err he)
  obtain ⟨o', ho', hoi', hog'⟩ := h.right.gives e fun err he =>
    ParseFault.isCutoff_eq_false (h.right.isStuck_run hqs hqi e he) (hq err he)
  rw [h.stream, h.strict, h.index] at ho'
  cases ho.unique ho'
  refine ⟨hog'.unique hog, ?_⟩
  have hle : o.index ≤ p.env.stream.lastIndex := ho.covers.le_lastIndex h.closed h.index_le
  constructor
  · rw [env_run, env_run, h.stream]
  · rw [env_run, env_run, h.strict]
  · rw [← hoi, ← hoi']
  · rw [env_run]
    exact h.closed
  · rw [env_run, ← hoi]
    exact hle
  · exact h.left.run e.rule
  · exact h.right.run e.rule

theorem InStep.expectEnd (h : InStep p q) : q.expectEnd = p.expectEnd := by
  have hi : q.state.index = p.state.index := h.index
  simp only [Session.expectEnd, State.unexpected, State.token, h.stream, hi]

end Session

def Reply.InBudget (r : Reply) : Prop := ∀ e, r.result = .error e → e.InBudget

namespace Session
variable {p q : Session}

theorem InStep.perform (h : InStep p q) (c : Request) (hp : (p.perform c).InBudget)
    (hq : (q.perform c).InBudget) :
    (q.perform c).result = (p.perform c).result ∧
      InStep (p.perform c).session (q.perform c).session := by
  cases c with
  | entry e =>
    obtain ⟨hresult, hstep⟩ := h.run e (fun err he => hp err (by simp [Session.perform, he]; rfl))
      (fun err he => hq err (by simp [Session.perform, he]; rfl))
    exact ⟨congrArg (Except.map some) hresult, hstep⟩
  | expectEnd => exact ⟨congrArg (Except.map fun _ => none) h.expectEnd, h⟩

/-- What is seen of calls: the results, and the positions that they leave. -/
def observed (p : Session) (calls : List Request) :
    List (Except ParseError (Option Tree) × Nat) :=
  (p.replies calls).map fun r => (r.result, r.session.index)

theorem InStep.observed (h : InStep p q) (calls : List Request)
    (hp : ∀ r ∈ p.replies calls, r.InBudget) (hq : ∀ r ∈ q.replies calls, r.InBudget) :
    q.observed calls = p.observed calls := by
  induction calls generalizing p q with
  | nil => rfl
  | cons c calls ih =>
    obtain ⟨hpc, hp⟩ := List.forall_mem_cons.1 hp
    obtain ⟨hqc, hq⟩ := List.forall_mem_cons.1 hq
    obtain ⟨hresult, hstep⟩ := h.perform c hpc hqc
    exact congrArg₂ List.cons (Prod.ext hresult hstep.index) (ih hstep hp hq)

end Session

theorem Reply.inBudget_of_ok {r : Reply} {x : Option Tree} (h : r.result = .ok x) :
    r.InBudget := by
  intro e he
  cases h.symm.trans he

theorem exists_ok_of_toBool {α β : Type} {x : Except α β} (h : x.toBool = true) :
    ∃ t, x = .ok t := by
  cases x with
  | error err => cases h
  | ok t => exact ⟨t, rfl⟩

/-- A rule that reads all tokens stays within the budget. -/
theorem Rule.inBudget_of_reads {r : Rule} {ts : TokenList} {options : ParseOptions}
    (h : ((Session.start ts options).run r).1.toBool = true ∧
      ((Session.start ts options).run r).2.expectEnd = .ok ()) :
    ∀ err, r.parseAll ts options = .error err → err.InBudget := by
  obtain ⟨t, ht⟩ := exists_ok_of_toBool h.1
  intro err he
  cases (parseAll_eq_ok.2 ⟨ht, h.2⟩).symm.trans he

theorem parse_inBudget_of_reads {e : Entry} {ts : TokenList} {options : ParseOptions}
    (h : ((Session.start ts options).run e.rule).1.toBool = true ∧
      ((Session.start ts options).run e.rule).2.expectEnd = .ok ()) :
    ∀ err, parse e ts options = .error err → err.InBudget :=
  Rule.inBudget_of_reads h

theorem Session.inBudget_of_reads {p : Session} {e : Entry}
    (hrun : (p.run e.rule).1.toBool = true) (hend : (p.run e.rule).2.expectEnd = .ok ()) :
    ∀ r ∈ p.replies [.entry e, .expectEnd], r.InBudget := by
  obtain ⟨t, ht⟩ := exists_ok_of_toBool hrun
  rw [replies, replies, replies, List.forall_mem_cons, List.forall_mem_singleton]
  constructor
  · exact Reply.inBudget_of_ok (congrArg (Except.map some) ht)
  · exact Reply.inBudget_of_ok (congrArg (Except.map fun _ => none) hend)

/-- On a list that ends with the end of the source, the memo is not seen by any sequence of calls
as long as no budget is exhausted. -/
theorem observed_memoize_eq (ts : TokenList) (options : ParseOptions) (i : Nat)
    (calls : List Request) (hend : ts.tokens.back?.map Token.kind = some .eof)
    (hi : i < ts.length)
    (hbudget : ∀ memoize, ∀ r ∈ (Session.startAt ts { options with memoize } i).replies calls,
      r.InBudget) :
    (Session.startAt ts { options with memoize := true } i).observed calls =
      (Session.startAt ts { options with memoize := false } i).observed calls := by
  have hstep : Session.InStep (Session.startAt ts { options with memoize := false } i)
      (Session.startAt ts { options with memoize := true } i) := by
    refine ⟨rfl, rfl, rfl, TokenStream.closed_ofList hend, Nat.le_sub_one_of_lt hi, ?_, ?_⟩
    · exact Session.sound_startAt ts _ i
    · exact Session.sound_startAt ts _ i
  exact hstep.observed calls (hbudget false) (hbudget true)

/-- The probe for a local variable `int @A [] x;` asks for the brackets, which are asked for again
outside of it. Only one of the sessions finds the answer in its memo. -/
theorem observed_annotatedDims :
    let ts : TokenList :=
      { source := "int @A [] x;"
        tokens := #[⟨.kwInt, ⟨0, 3⟩, ⟨1, 1⟩⟩, ⟨.atSign, ⟨4, 5⟩, ⟨1, 5⟩⟩, ⟨.ident, ⟨5, 6⟩, ⟨1, 6⟩⟩,
          ⟨.lbracket, ⟨7, 8⟩, ⟨1, 8⟩⟩, ⟨.rbracket, ⟨8, 9⟩, ⟨1, 9⟩⟩, ⟨.ident, ⟨10, 11⟩, ⟨1, 11⟩⟩,
          ⟨.semi, ⟨11, 12⟩, ⟨1, 12⟩⟩, ⟨.eof, ⟨12, 12⟩, ⟨1, 13⟩⟩] }
    let p := fun memoize => Session.startAt ts { memoize } 0
    let calls : List Request := [.entry .statement, .expectEnd]
    (p true).observed calls = (p false).observed calls ∧
      ((p true).run .blockStatement).2.memo.hits = 1 ∧
      ((p false).run .blockStatement).2.memo.hits = 0 := by
  intro ts p calls
  have hrun : ∀ m, ((p m).run .blockStatement).1.toBool = true ∧
      ((p m).run .blockStatement).2.expectEnd = .ok () := by
    intro m
    rw [Session.run_eq]
    cases m <;> decide
  have hbudget : ∀ m, ∀ r ∈ (p m).replies calls, r.InBudget := fun m =>
    Session.inBudget_of_reads (hrun m).1 (hrun m).2
  have hhits : ((p true).run .blockStatement).2.memo.hits = 1 ∧
      ((p false).run .blockStatement).2.memo.hits = 0 := by
    rw [Session.run_eq, Session.run_eq]
    decide
  exact ⟨observed_memoize_eq ts {} 0 calls (by decide) (by decide) hbudget, hhits⟩

end JavaSyntax
