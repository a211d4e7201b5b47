import JavaSyntax.Proofs.Charges
import JavaSyntax.Proofs.Memoization

/-!
# The budget is a threshold

Two runs that differ only in their budgets go in lockstep up to the token at which the lower
budget runs out. There the run with the lower budget ends, through all probes around it, and
the other one has passed that budget. So the count that a run comes to is the least budget that
suffices for it.
-/

namespace JavaSyntax

abbrev Setting.budget (env : Setting) : Nat := env.options.speculationBudget

def Setting.withBudget (env : Setting) (budget : Nat) : Setting :=
  { env with options := { env.options with speculationBudget := budget } }

/-- Either the outcomes are the same within the budget, or the first is that the budget ran out,
and the second has passed it. -/
inductive Outcome.Lockstep (budget : Nat) : Outcome → Outcome → Prop
  | same {o} (h : o.state.speculated ≤ budget) : Lockstep budget o o
  | out {e s o} (he : e.fault = .budgetExceeded budget) (hs : s.speculated = budget + 1)
      (h : budget < o.state.speculated) : Lockstep budget (.failed e s) o

/-- The same for what guards come to. -/
inductive Ruling.Lockstep (budget : Nat) : Ruling → Ruling → Prop
  | same {r} (h : r.outcome.state.speculated ≤ budget) : Lockstep budget r r
  | out {e s r} (he : e.fault = .budgetExceeded budget) (hs : s.speculated = budget + 1)
      (h : budget < r.outcome.state.speculated) : Lockstep budget (.abort e s) r

section
variable {env : Setting} {s t : State} {n high : Nat}

theorem Setting.Ready.withBudget (h : env.Ready s) (budget : Nat) :
    (env.withBudget budget).Ready s :=
  ⟨h.closed, h.index_le, h.trusts.results, h.trusts.deadEnd⟩

theorem State.speculated_conclude (p : Probe) (start : Nat) (d : Draft) (o : Outcome) :
    (conclude env p start d o).outcome.state.speculated = o.state.speculated := by
  unfold conclude
  dsimp only
  split
  · rfl
  · split
    · exact speculated_remember _
    · split
      · rfl
      · exact speculated_remember _

theorem State.speculated_read (s : State) (env : Setting) :
    (s.read env).state.speculated = s.speculated := by
  obtain ⟨-, h⟩ | ⟨-, h⟩ := s.read_cases env <;> rw [h] <;> rfl

theorem State.lockstep_shift (hle : env.budget ≤ high) (hs : s.speculated ≤ env.budget) :
    Outcome.Lockstep env.budget (s.shift env) (s.shift (env.withBudget high)) := by
  unfold shift
  by_cases hd : s.depth = 0
  · rw [if_pos hd, if_pos hd]
    refine .same ?_
    rw [speculated_read]
    exact hs
  · rw [if_neg hd, if_neg hd]
    dsimp only
    by_cases hout : env.budget < s.speculated + 1
    · rw [if_pos hout]
      refine .out rfl (by dsimp only; omega) ?_
      split
      · exact hout
      · rw [speculated_read]
        exact hout
    · have hhigh : ¬(env.withBudget high).budget < s.speculated + 1 := by
        change ¬high < s.speculated + 1
        omega
      rw [if_neg hout, if_neg hhigh]
      refine .same ?_
      rw [speculated_read]
      exact Nat.le_of_not_lt hout

/-- With so many levels, the runs of all commands go in lockstep with those that have the higher
budget. -/
def Setting.LockstepAt (env : Setting) (high n : Nat) : Prop :=
  ∀ (c : Cmd) (s : State), env.Ready s → s.speculated ≤ env.budget →
    Outcome.Lockstep env.budget (c.run env n s) (c.run (env.withBudget high) n s)

theorem Guard.lockstep_decide (ih : env.LockstepAt high n) (g : Guard) (h : env.Ready s)
    (hs : s.speculated ≤ env.budget) :
    Ruling.Lockstep env.budget (g.decide env (Cmd.run env n) s)
      (g.decide (env.withBudget high) (Cmd.run (env.withBudget high) n) s) := by
  have hsettle : g.settle (env.withBudget high) s = g.settle env s := by
    cases g <;> rfl
  unfold Guard.decide
  rw [hsettle]
  cases hg : g.settle env s with
  | known answer t =>
    have ht : t.speculated = s.speculated := (sameCounts_of_known hg).speculated
    exact .same (ht ▸ hs)
  | ask p t =>
    have hst : s.SameCounts t := (unasked_of_ask hg).1
    have ht : env.Ready t := h.settle hg
    have hf := ih p.fragment (t.enterProbe env) ht.enterProbe (hst.speculated ▸ hs)
    dsimp only
    change Ruling.Lockstep env.budget _ (State.conclude env p s.index s.draft
      (p.fragment.run (env.withBudget high) n (t.enterProbe env)))
    generalize p.fragment.run env n (t.enterProbe env) = o at hf
    generalize p.fragment.run (env.withBudget high) n (t.enterProbe env) = o' at hf
    cases hf with
    | same ho =>
      refine .same ?_
      rw [State.speculated_conclude]
      exact ho
    | @out e u _ he hu ho =>
      have hfatal : e.isFatal = true := by rw [ParseError.isFatal, he]; rfl
      rw [State.conclude_fatal h.index_le hfatal]
      refine .out he hu ?_
      rw [State.speculated_conclude]
      exact ho

def Outcome.andThen (next : State → Outcome) : Outcome → Outcome
  | done s => next s
  | failed e s => .failed e s

def Ruling.andThen (next : Bool → State → Outcome) : Ruling → Outcome
  | answer b s => next b s
  | abort e s => .failed e s

theorem Outcome.Lockstep.andThen {o o' : Outcome} {next next' : State → Outcome} {budget : Nat}
    (h : Lockstep budget o o')
    (hnext : ∀ t, o = .done t → t.speculated ≤ budget → Lockstep budget (next t) (next' t))
    (hle : ∀ t, o' = .done t → t.speculated ≤ (next' t).state.speculated) :
    Lockstep budget (o.andThen next) (o'.andThen next') := by
  cases h with
  | same ho =>
    cases o with
    | done t => exact hnext t rfl ho
    | failed e t => exact .same ho
  | out he hs ho =>
    refine .out he hs ?_
    cases o' with
    | done t => exact Nat.lt_of_lt_of_le ho (hle t rfl)
    | failed e t => exact ho

theorem Ruling.Lockstep.andThen {r r' : Ruling} {next next' : Bool → State → Outcome}
    {budget : Nat} (h : Lockstep budget r r')
    (hnext : ∀ b t, r = .answer b t → t.speculated ≤ budget →
      Outcome.Lockstep budget (next b t) (next' b t))
    (hle : ∀ b t, r' = .answer b t → t.speculated ≤ (next' b t).state.speculated) :
    Outcome.Lockstep budget (r.andThen next) (r'.andThen next') := by
  cases h with
  | same ho =>
    cases r with
    | answer b t => exact hnext b t rfl ho
    | abort e t => exact .same ho
  | out he hs ho =>
    refine .out he hs ?_
    cases r' with
    | answer b t => exact Nat.lt_of_lt_of_le ho (hle b t rfl)
    | abort e t => exact ho

namespace Cmd

section
variable (env : Setting) (deeper : Cmd → State → Outcome) (a b : Cmd) (g : Guard) (s : State)

theorem exec_seq :
    (seq a b).exec env deeper s = (a.exec env deeper s).andThen (b.exec env deeper) := by
  rw [exec]
  cases a.exec env deeper s <;> rfl

theorem exec_ite :
    (ite g a b).exec env deeper s =
      (g.decide env deeper s).andThen fun answer t =>
        if answer then a.exec env deeper t else b.exec env deeper t := by
  rw [exec]
  rcases g.decide env deeper s with ⟨_ | _, t⟩ | ⟨e, t⟩ <;> rfl

theorem exec_loop :
    (loop g a).exec env deeper s =
      (g.decide env deeper s).andThen fun answer t =>
        if answer then deeper (seq a (loop g a)) t else .done t := by
  rw [exec]
  rcases g.decide env deeper s with ⟨_ | _, t⟩ | ⟨e, t⟩ <;> rfl

theorem exec_nest :
    (nest a).exec env deeper s =
      (a.exec env deeper (s.fresh env)).andThen fun t =>
        .done { t with draft := s.draft.adopt t.draft } := by
  rw [exec]
  cases a.exec env deeper (s.fresh env) <;> rfl

theorem exec_dispatch_ok {t : Table} {r : Rule}
    (h : t.decide env.stream env.options.detectAmbiguity s.index = .ok r) :
    (dispatch t).exec env deeper s = deeper r.body s := by
  rw [exec, h]

theorem exec_dispatch_error {t : Table} {e : ParseError}
    (h : t.decide env.stream env.options.detectAmbiguity s.index = .error e) :
    (dispatch t).exec env deeper s = .failed e s := by
  rw [exec, h]

end

theorem lockstep_exec (hle : env.budget ≤ high) (ih : env.LockstepAt high n) (c : Cmd)
    (h : env.Ready s) (hs : s.speculated ≤ env.budget) :
    Outcome.Lockstep env.budget (c.exec env (run env n) s)
      (c.exec (env.withBudget high) (run (env.withBudget high) n) s) := by
  -- What the higher budget goes on with never takes the count back.
  have hrun (c : Cmd) {t : State} (ht : (env.withBudget high).Ready t) :
      t.speculated ≤ (c.run (env.withBudget high) n t).state.speculated :=
    (charged_run n c ht).le
  have hexec (c : Cmd) {t : State} (ht : (env.withBudget high).Ready t) :
      t.speculated ≤
        (c.exec (env.withBudget high) (run (env.withBudget high) n) t).state.speculated :=
    (charged_run (n + 1) c ht).le
  induction c generalizing s with
  | skip => exact .same hs
  | shift => exact State.lockstep_shift hle hs
  | fail expected remark => exact .same hs
  | seq a b iha ihb =>
    rw [exec_seq, exec_seq]
    refine (iha h hs).andThen ?_ ?_
    · intro t ht hspec
      exact ihb (h.exec ht) hspec
    · intro t ht
      exact hexec b ((h.withBudget high).exec ht)
  | ite g a b iha ihb =>
    rw [exec_ite, exec_ite]
    refine (Guard.lockstep_decide ih g h hs).andThen ?_ ?_
    · intro answer t ht hspec
      cases answer with
      | true => exact iha (h.decide ht) hspec
      | false => exact ihb (h.decide ht) hspec
    · intro answer t ht
      cases answer with
      | true => exact hexec a ((h.withBudget high).decide ht)
      | false => exact hexec b ((h.withBudget high).decide ht)
  | loop g body _ =>
    rw [exec_loop, exec_loop]
    refine (Guard.lockstep_decide ih g h hs).andThen ?_ ?_
    · intro answer t ht hspec
      cases answer with
      | true => exact ih _ t (h.decide ht) hspec
      | false => exact .same hspec
    · intro answer t ht
      cases answer with
      | true => exact hrun _ ((h.withBudget high).decide ht)
      | false => exact Nat.le_refl _
  | nest body ihb =>
    rw [exec_nest, exec_nest]
    have hb := ihb (s := s.fresh env) (h.redraft _) hs
    refine hb.andThen ?_ ?_
    · intro t _ hspec
      exact .same hspec
    · intro t _
      exact Nat.le_refl _
  | jump r => exact ih r.body s h hs
  | dispatch t =>
    cases hdecide : t.decide env.stream env.options.detectAmbiguity s.index with
    | ok r =>
      rw [exec_dispatch_ok env _ s hdecide, exec_dispatch_ok (env.withBudget high) _ s hdecide]
      exact ih r.body s h hs
    | error e =>
      rw [exec_dispatch_error env _ s hdecide,
        exec_dispatch_error (env.withBudget high) _ s hdecide]
      exact .same hs
  | close kind => exact .same hs
  | wrap kind => exact .same hs

/-- Runs with two budgets go in lockstep. -/
theorem lockstep_run (hle : env.budget ≤ high) (n : Nat) : env.LockstepAt high n := by
  induction n with
  | zero =>
    intro c s _ hs
    exact .same hs
  | succ n ih =>
    intro c s h hs
    exact lockstep_exec hle ih c h hs

end Cmd
end

def Outcome.reply (env : Setting) : Outcome → Except ParseError Tree
  | done s => Session.treeOf env s
  | failed e _ => .error e

namespace Session
variable {p : Session} {high : Nat} {r : Rule}

def outcome (p : Session) (r : Rule) : Outcome :=
  r.body.run p.env p.levels (p.state.fresh p.env)

theorem run_outcome (p : Session) (r : Rule) :
    p.run r = ((p.outcome r).reply p.env, { p with state := (p.outcome r).state }) := by
  rw [run_eq]
  change (match p.outcome r with
    | .done s => (treeOf p.env s, { p with state := s })
    | .failed e s => (.error e, { p with state := s })) = _
  cases p.outcome r <;> rfl

def withBudget (p : Session) (budget : Nat) : Session :=
  { p with env := p.env.withBudget budget }

theorem ready_startAt {ts : TokenList} (options : ParseOptions) {i : Nat}
    (hend : ts.tokens.back?.map Token.kind = some .eof) (hi : i < ts.length) :
    (startAt ts options i).env.Ready (startAt ts options i).state where
  closed := TokenStream.closed_ofList hend
  index_le := Nat.le_sub_one_of_lt hi
  trusts := Setting.trusts_empty

theorem lockstep_outcome (h : p.env.Ready p.state) (hs : p.speculated ≤ p.env.budget)
    (hle : p.env.budget ≤ high) (r : Rule) :
    Outcome.Lockstep p.env.budget (p.outcome r) ((p.withBudget high).outcome r) :=
  Cmd.lockstep_run hle p.levels r.body (p.state.fresh p.env) (h.redraft _) hs

/-- The call fails for want of budget, one token past it. -/
def Exhausts (p : Session) (r : Rule) : Prop :=
  (∃ e, (p.run r).1 = .error e ∧ e.fault = .budgetExceeded p.env.budget) ∧
    (p.run r).2.speculated = p.env.budget + 1

/-- The call answers as with another budget and leaves the same state. -/
def Agrees (p q : Session) (r : Rule) : Prop :=
  (q.run r).1 = (p.run r).1 ∧ (q.run r).2.state = (p.run r).2.state

/-- With more budget a call comes to the same, or it goes past this budget, which runs out. -/
theorem agrees_or_exhausts (h : p.env.Ready p.state) (hs : p.speculated ≤ p.env.budget)
    (hle : p.env.budget ≤ high) (r : Rule) :
    (p.Agrees (p.withBudget high) r ∧ (p.run r).2.speculated ≤ p.env.budget) ∨
      (p.Exhausts r ∧ p.env.budget < ((p.withBudget high).run r).2.speculated) := by
  have hlock := lockstep_outcome h hs hle r
  rw [Agrees, Exhausts, run_outcome, run_outcome]
  generalize p.outcome r = o at hlock
  generalize (p.withBudget high).outcome r = o' at hlock
  cases hlock with
  | same ho =>
    left
    refine ⟨⟨?_, rfl⟩, ho⟩
    cases o <;> rfl
  | @out e s _ he hs ho =>
    right
    exact ⟨⟨⟨e, rfl, he⟩, hs⟩, ho⟩

/-- The count that a call within its budget comes to is the least budget that suffices. -/
theorem threshold (h : p.env.Ready p.state) (hs : p.speculated ≤ p.env.budget)
    (hin : ∀ err, (p.run r).1 = .error err → err.InBudget) {b : Nat} (hb : p.speculated ≤ b) :
    ((p.run r).2.speculated ≤ b → p.Agrees (p.withBudget b) r) ∧
      (b < (p.run r).2.speculated → (p.withBudget b).Exhausts r) := by
  rcases Nat.le_total p.env.budget b with hle | hle
  · rcases agrees_or_exhausts h hs hle r with ⟨hagree, hspec⟩ | ⟨⟨⟨e, he, hf⟩, -⟩, -⟩
    · constructor
      · intro _
        exact hagree
      · intro hlt
        omega
    · exact absurd hf (hin e he _)
  · have hlow := agrees_or_exhausts (p := p.withBudget b) (h.withBudget b) hb hle r
    change (Agrees _ p r ∧ _ ≤ b) ∨ (_ ∧ b < (p.run r).2.speculated) at hlow
    rcases hlow with ⟨⟨hresult, hstate⟩, hspec⟩ | ⟨hout, hlt⟩
    · constructor
      · intro _
        exact ⟨hresult.symm, hstate.symm⟩
      · intro hlt
        have hcount : (p.run r).2.speculated = ((p.withBudget b).run r).2.speculated :=
          congrArg State.speculated hstate
        omega
    · constructor
      · intro hspec
        omega
      · intro _
        exact hout

end Session

/-- The tokens that the probes of a parse consume. -/
def spent (e : Entry) (ts : TokenList) (options : ParseOptions) : Nat :=
  ((Session.start ts options).run e.rule).2.speculated

theorem parse_eq_of_agrees {e : Entry} {ts : TokenList} {options options' : ParseOptions}
    (h : (Session.start ts options).Agrees (Session.start ts options') e.rule) :
    parse e ts options' = parse e ts options := by
  obtain ⟨hresult, hstate⟩ := h
  have hstream : ((Session.start ts options').run e.rule).2.env.stream =
      ((Session.start ts options).run e.rule).2.env.stream := by
    rw [Session.env_run, Session.env_run]
    rfl
  have hend : ((Session.start ts options').run e.rule).2.expectEnd =
      ((Session.start ts options).run e.rule).2.expectEnd := by
    simp only [Session.expectEnd, State.unexpected, State.token, hstream, hstate]
  unfold parse Rule.parseAll
  generalize (Session.start ts options').run e.rule = x at hresult hend
  generalize (Session.start ts options).run e.rule = y at hresult hend
  obtain ⟨x, p⟩ := x
  obtain ⟨y, q⟩ := y
  cases hresult
  cases x with
  | error err => rfl
  | ok t =>
    dsimp only at hend ⊢
    rw [hend]

/-- Let a parse stay within its budget. With any budget from its count on, it comes to the same
with the same count, and with any lower one it fails for want of budget, one token past it. -/
theorem parse_budget_threshold (e : Entry) (ts : TokenList) (options : ParseOptions)
    (hend : ts.tokens.back?.map Token.kind = some .eof)
    (hin : ∀ err, parse e ts options = .error err → err.InBudget) (b : Nat) :
    (spent e ts options ≤ b →
      parse e ts { options with speculationBudget := b } = parse e ts options ∧
        spent e ts { options with speculationBudget := b } = spent e ts options) ∧
    (b < spent e ts options →
      (∃ err, parse e ts { options with speculationBudget := b } = .error err ∧
        err.fault = .budgetExceeded b) ∧
      spent e ts { options with speculationBudget := b } = b + 1) := by
  have hpos : 0 < ts.length := by
    rw [TokenList.length, Array.size_pos_iff]
    rintro hempty
    rw [hempty] at hend
    cases hend
  have hready := Session.ready_startAt options hend hpos
  have hrun : ∀ err, ((Session.start ts options).run e.rule).1 = .error err → err.InBudget :=
    fun err he => hin err (parse_eq_error.2 (.inl he))
  obtain ⟨hmore, hless⟩ :=
    Session.threshold hready (Nat.zero_le _) hrun (r := e.rule) (Nat.zero_le b)
  constructor
  · intro hle
    have hagree := hmore hle
    exact ⟨parse_eq_of_agrees hagree, congrArg State.speculated hagree.2⟩
  · intro hlt
    obtain ⟨⟨err, he, hf⟩, hcount⟩ := hless hlt
    exact ⟨⟨err, parse_eq_error.2 (.inl he), hf⟩, hcount⟩

/-- The probe for the cast in `(Foo) bar` consumes three tokens. -/
theorem parse_budget_cast :
    let ts : TokenList :=
      { source := "(Foo) bar"
        tokens := #[⟨.lparen, ⟨0, 1⟩, ⟨1, 1⟩⟩, ⟨.ident, ⟨1, 4⟩, ⟨1, 2⟩⟩, ⟨.rparen, ⟨4, 5⟩, ⟨1, 5⟩⟩,
          ⟨.ident, ⟨6, 9⟩, ⟨1, 7⟩⟩, ⟨.eof, ⟨9, 9⟩, ⟨1, 10⟩⟩] }
    let p := fun speculationBudget => parse .expression ts { speculationBudget }
    spent .expression ts {} = 3 ∧ p 3 = p 1048576 ∧
      ∃ err, p 2 = .error err ∧ err.fault = .budgetExceeded 2 := by
  intro ts p
  have hok : ((Session.start ts {}).run .expression).1.toBool = true ∧
      ((Session.start ts {}).run .expression).2.expectEnd = .ok () := by
    rw [Session.run_eq]
    decide
  have hspent : spent .expression ts {} = 3 := by
    rw [spent, Session.run_eq]
    decide
  have hin : ∀ err, parse .expression ts {} = .error err → err.InBudget :=
    parse_inBudget_of_reads hok
  have hend : ts.tokens.back?.map Token.kind = some .eof := by decide
  have hthree := parse_budget_threshold .expression ts {} hend hin 3
  have htwo := parse_budget_threshold .expression ts {} hend hin 2
  exact ⟨hspent, (hthree.1 (Nat.le_of_eq hspent)).1, (htwo.2 (by omega)).1⟩

end JavaSyntax
