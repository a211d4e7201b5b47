import JavaSyntax.Proofs.Budget
import JavaSyntax.Proofs.Chains
import JavaSyntax.Proofs.Whole

/-!
# Straight runs

Runs of commands that take no probe. Outside of all probes such a run reaches a place that depends
neither on the memo nor on the budget, and it consumes no token of the budget.
-/

namespace JavaSyntax

/-- With so many levels for what it calls, the command leads from one place to another outside of
all probes, and takes none. -/
def Cmd.Goes (env : Setting) (n : Nat) (c : Cmd) (p q : Place) : Prop :=
  ∀ s : State, s.place = p → s.depth = 0 →
    ∃ t, c.exec env (Cmd.run env n) s = .done t ∧ t.place = q ∧ t.depth = 0 ∧
      t.speculated = s.speculated

namespace TokenStream

/-- The tokens stand in a row from an index on. -/
def Shows (s : TokenStream) : Nat → List Token → Prop
  | _, [] => True
  | i, t :: ts => s.tokenAt i = t ∧ s.Shows (i + 1) ts

variable {s : TokenStream} {i : Nat}

theorem shows_append {as bs : List Token} :
    s.Shows i (as ++ bs) ↔ s.Shows i as ∧ s.Shows (i + as.length) bs := by
  induction as generalizing i with
  | nil => simp [Shows]
  | cons a as ih =>
    simp only [List.cons_append, Shows, ih, List.length_cons, and_assoc, Nat.add_right_comm,
      Nat.add_assoc]

theorem Shows.tokenAt {ts : List Token} (h : s.Shows i ts) {k : Nat} {t : Token}
    (hk : ts[k]? = some t) : s.tokenAt (i + k) = t := by
  induction ts generalizing i k with
  | nil => simp at hk
  | cons a ts ih =>
    cases k with
    | zero => exact h.1.trans (by simpa using hk)
    | succ k =>
      rw [Nat.add_comm k 1, ← Nat.add_assoc]
      exact ih h.2 (by simpa using hk)

theorem shows_ofList {ts : TokenList} (as : List Token) {bs : List Token}
    (h : as ++ bs = ts.tokens.toList) :
    (ofList ts).Shows as.length bs := by
  induction bs generalizing as with
  | nil => trivial
  | cons b bs ih =>
    refine ⟨?_, ?_⟩
    · have hb : ts.tokens[as.length]? = some b := by
        rw [← Array.getElem?_toList, ← h]
        simp
      simp [TokenStream.tokenAt, hb]
    · simpa using ih (as ++ [b]) (by simpa using h)

end TokenStream

theorem Guard.decide_test {env : Setting} {deeper : Cmd → State → Outcome} {s : State} {u : Test}
    {answer : Bool} (hu : u.holds env.stream s.index s.draft = answer) :
    (Guard.test u).decide env deeper s = .answer answer s :=
  congrArg (Ruling.answer · s) hu

/-- Where the tests of a trial settle its answer, its probe is skipped. -/
theorem Guard.decide_trial {env : Setting} {deeper : Cmd → State → Outcome} {s : State}
    {sure possible : Test} {probe : Probe} {answer : Bool}
    (h : (trial sure possible probe).query env.stream s.place = .known answer) :
    (trial sure possible probe).decide env deeper s = .answer answer s := by
  simp only [query, State.place] at h
  unfold Guard.decide settle
  by_cases hsure : sure.holds env.stream s.index s.draft = true
  · simp only [hsure, ↓reduceIte, Query.known.injEq] at h ⊢
    rw [h]
  · by_cases hpossible : possible.holds env.stream s.index s.draft = true
    · simp [hsure, hpossible] at h
    · simp only [hsure, hpossible, ↓reduceIte, Query.known.injEq, Bool.false_eq_true] at h ⊢
      rw [h]

namespace Cmd.Goes
variable {env : Setting} {n : Nat} {a b c : Cmd} {p q m : Place} {u : Test} {r : Rule} {v : Outlook}
  {i : Nat}

theorem skip : Goes env n .skip p p := fun s hp hd => ⟨s, rfl, hp, hd, rfl⟩

theorem shift (h : (env.stream.tokenAt p.index).kind ≠ .eof) :
    Goes env n .shift p ⟨p.index + 1, p.draft.push (env.stream.tokenAt p.index).leaf⟩ := by
  rintro s rfl hd
  refine ⟨{ s with index := s.index + 1, draft := s.draft.push (s.token env).leaf }, ?_, rfl, hd,
    rfl⟩
  rw [exec, State.shift, if_pos hd, State.read]
  exact if_neg h

theorem seq (ha : Goes env n a p m) (hb : Goes env n b m q) : Goes env n (.seq a b) p q := by
  intro s hp hd
  obtain ⟨t, ht, htp, htd, hts⟩ := ha s hp hd
  obtain ⟨w, hw, hwq, hwd, hws⟩ := hb t htp htd
  refine ⟨w, ?_, hwq, hwd, hws.trans hts⟩
  rw [exec_seq, ht]
  exact hw

theorem ite_yes (hu : u.holds env.stream p.index p.draft = true) (h : Goes env n a p q) :
    Goes env n (.ite (.test u) a b) p q := by
  rintro s rfl hd
  rw [exec_ite, Guard.decide_test hu]
  exact h s rfl hd

theorem ite_no (hu : u.holds env.stream p.index p.draft = false) (h : Goes env n b p q) :
    Goes env n (.ite (.test u) a b) p q := by
  rintro s rfl hd
  rw [exec_ite, Guard.decide_test hu]
  exact h s rfl hd

theorem ite_trial {sure possible : Test} {probe : Probe} {answer : Bool}
    (hu : (Guard.trial sure possible probe).query env.stream p = .known answer)
    (h : Goes env n (if answer then a else b) p q) :
    Goes env n (.ite (.trial sure possible probe) a b) p q := by
  rintro s rfl hd
  rw [exec_ite, Guard.decide_trial hu]
  cases answer with
  | true => exact h s rfl hd
  | false => exact h s rfl hd

/-- No type arguments stand behind the name here, and no probe looks for them. -/
theorem typeHead_no {probe : Probe}
    (hscan : env.stream.scanTypePrefix (env.stream.nameEnd p.index) ≠ .mayBe)
    (h : Goes env n b p q) : Goes env n (.ite (.typeHead probe) a b) p q := by
  rintro s rfl hd
  obtain ⟨memo, hdecide⟩ := Guard.decide_typeHead_no hscan
  rw [exec_ite, hdecide]
  exact h { s with memo } rfl hd

theorem stop (hu : u.holds env.stream p.index p.draft = false) :
    Goes env n (.loop (.test u) a) p p := by
  rintro s rfl hd
  rw [exec_loop, Guard.decide_test hu]
  exact ⟨s, rfl, rfl, hd, rfl⟩

theorem pass (hn : 0 < n) (hu : u.holds env.stream p.index p.draft = true)
    (h : Goes env (n - 1) (.seq a (.loop (.test u) a)) p q) :
    Goes env n (.loop (.test u) a) p q := by
  rintro s rfl hd
  obtain ⟨n, rfl⟩ := Nat.exists_eq_add_one.2 hn
  rw [exec_loop, Guard.decide_test hu]
  exact h s rfl hd

theorem stop_trial {sure possible : Test} {probe : Probe}
    (hu : (Guard.trial sure possible probe).query env.stream p = .known false) :
    Goes env n (.loop (.trial sure possible probe) a) p p := by
  rintro s rfl hd
  rw [exec_loop, Guard.decide_trial hu]
  exact ⟨s, rfl, rfl, hd, rfl⟩

theorem pass_trial {sure possible : Test} {probe : Probe} (hn : 0 < n)
    (hu : (Guard.trial sure possible probe).query env.stream p = .known true)
    (h : Goes env (n - 1) (.seq a (.loop (.trial sure possible probe) a)) p q) :
    Goes env n (.loop (.trial sure possible probe) a) p q := by
  rintro s rfl hd
  obtain ⟨n, rfl⟩ := Nat.exists_eq_add_one.2 hn
  rw [exec_loop, Guard.decide_trial hu]
  exact h s rfl hd

theorem call (hn : 0 < n) (h : Goes env (n - 1) r.body (env.stream.fresh p.index) q) :
    Goes env n (.call r) p ⟨q.index, p.draft.adopt q.draft⟩ := by
  rintro s rfl hd
  obtain ⟨n, rfl⟩ := Nat.exists_eq_add_one.2 hn
  obtain ⟨t, ht, rfl, htd, hts⟩ := h (s.fresh env) rfl hd
  refine ⟨{ t with draft := s.draft.adopt t.draft }, ?_, rfl, htd, hts⟩
  rw [Cmd.call, exec_nest]
  have hjump : (Cmd.jump r).exec env (Cmd.run env (n + 1)) (s.fresh env) = .done t := ht
  rw [hjump]
  rfl

theorem close (kind : NodeKind) :
    Goes env n (.close kind) p ⟨p.index, p.draft.close kind⟩ := by
  rintro s rfl hd
  exact ⟨_, rfl, rfl, hd, rfl⟩

theorem wrap (kind : NodeKind) : Goes env n (.wrap kind) p ⟨p.index, p.draft.wrap kind⟩ := by
  rintro s rfl hd
  exact ⟨_, rfl, rfl, hd, rfl⟩

theorem of_resolve (hv : v.Holds env.stream i p) (h : Goes env n (c.resolve v) p q) :
    Goes env n c p q := by
  induction c with
  | ite g a b iha ihb =>
    cases g with
    | test u =>
      rw [Cmd.resolve] at h
      split at h
      · rename_i hu
        exact ite_no (Test.holds_of_assume hu hv) (ihb h)
      · split at h
        · rename_i hu
          exact ite_yes (Test.holds_of_assume hu hv) (iha h)
        · exact h
    | _ => exact h
  | _ => exact h

theorem of_idle (hc : c.idle v = true) (hv : v.Holds env.stream i p) : Goes env n c p p := by
  induction c with
  | skip => exact skip
  | seq a b iha ihb =>
    rw [Cmd.idle, Bool.and_eq_true] at hc
    exact (iha hc.1).seq (ihb hc.2)
  | ite g a b iha ihb =>
    cases g with
    | test u =>
      simp only [Cmd.idle, Bool.or_eq_true, Bool.and_eq_true, List.isEmpty_iff] at hc
      rcases hc with ⟨hu, hb⟩ | ⟨hu, ha⟩
      · exact ite_no (Test.holds_of_assume hu hv) (ihb hb)
      · exact ite_yes (Test.holds_of_assume hu hv) (iha ha)
    | _ => cases hc
  | loop g body =>
    cases g with
    | test u =>
      rw [Cmd.idle, List.isEmpty_iff] at hc
      exact stop (Test.holds_of_assume hc hv)
    | _ => cases hc
  | _ => cases hc

theorem shifts {ts : List Token} (h : env.stream.Shows p.index ts) (hne : ∀ t ∈ ts, t.kind ≠ .eof) :
    Goes env n (Cmd.shifts ts.length) p
      ⟨p.index + ts.length,
        { p.draft with items := (ts.map Token.leaf).reverse ++ p.draft.items }⟩ := by
  induction ts generalizing p with
  | nil => exact skip
  | cons t ts ih =>
    obtain ⟨rfl, hts⟩ := h
    have hfirst := shift (n := n) (hne _ List.mem_cons_self)
    cases ts with
    | nil => exact hfirst
    | cons t ts =>
      have hrest := ih (p := ⟨p.index + 1, p.draft.push (env.stream.tokenAt p.index).leaf⟩) hts
        fun t ht => hne t (List.mem_cons_of_mem _ ht)
      change Goes env n (.seq .shift (Cmd.shifts (t :: ts).length)) p _
      simpa [Draft.push, Nat.add_assoc, Nat.add_comm 1] using hfirst.seq hrest

end Cmd.Goes

/-- With so many levels, the rule makes a tree of the tokens between two indices, and takes no
probe. -/
def Rule.Makes (env : Setting) (n : Nat) (r : Rule) (i j : Nat) (t : Tree) : Prop :=
  r.body.Goes env n (env.stream.fresh i) ⟨j, (env.stream.fresh i).draft.push t⟩

theorem Rule.Makes.call {env : Setting} {n : Nat} {r : Rule} {p : Place} {j : Nat} {t : Tree}
    (hn : 0 < n) (h : r.Makes env (n - 1) p.index j t) :
    (Cmd.call r).Goes env n p ⟨j, p.draft.push t⟩ :=
  Cmd.Goes.call hn h

/-- Up to the end of the source, a tree that is made is what the source is parsed to. No probe is
taken. -/
theorem Rule.Makes.parsed {e : Entry} {ts : TokenList} {options : ParseOptions} {j : Nat} {t : Tree}
    (h : e.rule.Makes ⟨.ofList ts, options⟩ ((Session.start ts options).levels - 1) 0 j t)
    (hend : ts.kindAt j = .eof) :
    parse e ts options = .ok t ∧ spent e ts options = 0 := by
  let p := Session.start ts options
  obtain ⟨s, hs, hplace, -, hspent⟩ := h (p.state.fresh p.env) rfl rfl
  have houtcome : p.outcome e.rule = .done s := hs
  have hindex : s.index = j := congrArg Place.index hplace
  have hitems : s.draft.items = [t] := congrArg (fun q => q.draft.items) hplace
  constructor
  · rw [parse_eq_ok]
    change (p.run e.rule).1 = .ok t ∧ (p.run e.rule).2.expectEnd = .ok ()
    rw [Session.run_outcome, houtcome]
    refine ⟨by simp [Outcome.reply, Session.treeOf, hitems], ?_⟩
    rw [Session.expectEnd, if_pos]
    change ts.kindAt s.index = .eof
    rw [hindex, hend]
  · change (p.run e.rule).2.speculated = 0
    rw [Session.run_outcome, houtcome]
    exact hspent

end JavaSyntax
