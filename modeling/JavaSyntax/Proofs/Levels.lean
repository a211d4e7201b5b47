import JavaSyntax.Proofs.Outlook

/-!
# Enough levels

On a list that ends with the end of the source no parse runs out of levels, and no probe loses
its way back. Between two tokens only a bounded number of rules follow each other, the rank of a
command, and each pass of a loop reads a token. So the levels that a run needs fall with the
tokens that are left.
-/

namespace JavaSyntax

/-- The faults that a parse of a closed list never has. -/
def ParseFault.isStuck : ParseFault → Bool
  | .stalled | .invalidCheckpoint => true
  | _ => false

/-- The last token is the end of the source. -/
def TokenStream.Closed (s : TokenStream) : Prop := (s.tokenAt s.lastIndex).kind = .eof

theorem Ending.Covers.le_lastIndex {s : TokenStream} {p : Place} {o : Ending} (h : o.Covers s p)
    (hs : s.Closed) (hp : p.index ≤ s.lastIndex) : o.index ≤ s.lastIndex :=
  Nat.le_of_not_lt fun hlt => h.kind_ne s.lastIndex hp hlt hs

/-- How many rules may follow each other from the rule on before a token is read, itself not
counted. -/
def Rule.rank : Rule → Nat
  | lambda | instanceInitializer | memberType | genericMember _
  | explicitConstructorInvocation => 1
  | type | classType _ | dims | typeArgument | typeParameter | modifiers | variableModifiers
  | packageDeclaration | enumConstant => 2
  | referenceType | localVariableDeclaration | resource | typeDeclaration | classDeclaration
  | interfaceDeclaration | fieldOrMethod _ | formalParameter _ => 3
  | primary | modifiedMember _ => 4
  | unary | compilationUnit => 5
  | binary _ => 6
  | conditional => 7
  | expression | elementValue => 8
  | expressionStatement => 9
  | statement => 10
  | blockStatement => 11
  | _ => 0

theorem Rule.rank_le (r : Rule) : r.rank ≤ 11 := by
  cases r <;> simp [rank]

/-- A guard may take a probe, whose fragment has rank 3 at most. -/
def Guard.rank (g : Guard) : Nat := if g.probe?.isSome then 4 else 0

namespace Cmd

/-- The levels that a command needs before a token is read. -/
def rank : Cmd → Nat
  | seq a b => max a.rank (if a.moves then b.rank - 128 else b.rank)
  | ite g a b => max g.rank (max a.rank b.rank)
  | loop g body => max g.rank body.rank + 1
  | nest body => body.rank
  | jump r => r.rank + 1
  | dispatch t => t.rules.foldr (fun r n => max r.rank n) 0 + 1
  | _ => 0

/-- Each pass of each loop reads a token. -/
def paced : Cmd → Bool
  | seq a b | ite _ a b => a.paced && b.paced
  | loop g body => body.paced && passMoves g body && decide ((loop g body).rank ≤ 128)
  | nest body => body.paced
  | _ => true

end Cmd

def Rule.paced (r : Rule) : Bool := r.body.paced && decide (r.body.rank ≤ r.rank)

theorem Rule.paced_all (r : Rule) : r.paced = true := by
  revert r
  decide +kernel

theorem Rule.paced_body (r : Rule) : r.body.paced = true :=
  (Bool.and_eq_true_iff.1 r.paced_all).1

theorem Rule.rank_body_le (r : Rule) : r.body.rank ≤ r.rank :=
  of_decide_eq_true (Bool.and_eq_true_iff.1 r.paced_all).2

theorem Probe.paced_fragment (p : Probe) : p.fragment.paced = true ∧ p.fragment.rank ≤ 3 := by
  cases p <;> decide

section
variable {s : TokenStream} {strict : Bool} {c body : Cmd} {g : Guard} {p q : Place}

theorem Cmd.Ends.lt_of_moves (hc : c.moves = true)
    (h : Cmd.Ends s strict (Rule.Ends s strict) c p (.done q)) : p.index < q.index := by
  have hany : Outlook.Any s p.index q (c.exits {}) :=
    h.exits (fun _ _ _ h => h.covers) (fun _ _ _ h => h.exits) (Outlook.holds_bottom p)
  exact hany.lt hc

theorem Cmd.Ends.lt_of_passMoves (hc : Cmd.passMoves g body = true) (hg : g.Allows s p true)
    (h : Cmd.Ends s strict (Rule.Ends s strict) body p (.done q)) : p.index < q.index := by
  have hany : Outlook.Any s p.index q ((g.assume true {}).flatMap body.exits) :=
    (Guard.any_assume (Outlook.holds_bottom p) hg).flatMap fun v hv =>
      h.exits (fun _ _ _ h => h.covers) (fun _ _ _ h => h.exits) hv
  exact hany.lt hc

end

def Outcome.Steady : Outcome → Prop
  | done _ => True
  | failed e _ => e.fault.isStuck = false

/-- The ruling does not end the parse for being stuck. -/
def Ruling.Steady : Ruling → Prop
  | answer _ _ => True
  | abort e _ => e.fault.isStuck = false

theorem ParseFault.isStuck_ofFound (expected : KindSet) (found : TokenKind) :
    (ofFound expected found).isStuck = false := by
  unfold ofFound
  split <;> rfl

theorem Table.isStuck_of_decide {t : Table} {s : TokenStream} {strict : Bool} {i : Nat}
    {e : ParseError} (h : t.decide s strict i = .error e) : e.fault.isStuck = false := by
  obtain ⟨labels, -, rfl⟩ | ⟨-, -, rfl⟩ := decide_error h
  · rfl
  · exact ParseFault.isStuck_ofFound _ _

theorem Guard.allows_of_answered {env : Setting} {g : Guard} {p : Place} {b : Bool}
    (h : (g.query env.stream p).Answered env p.index b) : g.Allows env.stream p b := by
  unfold Guard.Allows
  cases hq : g.query env.stream p with
  | known a =>
    rw [hq] at h
    exact h
  | ask probe => trivial

theorem Guard.probe?_of_query {s : TokenStream} {p : Place} {g : Guard} {probe : Probe}
    (h : g.query s p = .ask probe) : g.probe?.isSome := by
  cases g with
  | test t => cases h
  | trial sure possible probe => rfl
  | typeHead probe => rfl

section
variable {env : Setting} {c : Cmd} {g : Guard} {n : Nat} {s t : State}

theorem Cmd.reach_of_run (hm : env.Trusts s.memo) (h : c.run env n s = .done t) :
    env.Trusts t.memo ∧ env.Ends c s.place (.done t.place) := by
  have hd := derived_run env n c hm
  rw [h] at hd
  exact ⟨hd.memo, hd.ending rfl⟩

theorem Guard.reach_of_decide {answer : Bool} (hm : env.Trusts s.memo)
    (h : g.decide env (Cmd.run env n) s = .answer answer t) :
    env.Trusts t.memo ∧ t.place = s.place ∧ g.Allows env.stream s.place answer := by
  have hs := Cmd.settles_decide (fun c _ h => Cmd.derived_run env n c h) g hm
  rw [h] at hs
  exact ⟨hs.2.1, hs.1, allows_of_answered hs.2.2⟩

theorem State.steady_shift : (s.shift env).Steady := by
  obtain ⟨-, -, h⟩ | ⟨-, ⟨-, h⟩ | ⟨-, h⟩⟩ := s.shift_cases env <;> rw [h]
  · rfl
  · exact ParseFault.isStuck_ofFound _ _
  · trivial

/-- The levels suffice for a command at an index. -/
def Setting.Affords (env : Setting) (n rank i : Nat) : Prop :=
  rank + 128 * (env.stream.lastIndex - i) < n

/-- With so many levels all commands run steadily. -/
def Setting.SteadyAt (env : Setting) (n : Nat) : Prop :=
  ∀ (c : Cmd) (s : State), env.Trusts s.memo → s.index ≤ env.stream.lastIndex →
    c.paced = true → env.Affords n c.rank s.index → (c.run env n s).Steady

/-- With so many levels the passes of all loops run steadily. -/
def Setting.SteadyPass (env : Setting) (n : Nat) : Prop :=
  ∀ (g : Guard) (body : Cmd) (s : State), env.Trusts s.memo → s.index ≤ env.stream.lastIndex →
    (Cmd.loop g body).paced = true → g.Allows env.stream s.place true →
    env.Affords n body.rank s.index → (Cmd.run env n (.seq body (.loop g body)) s).Steady

theorem Guard.steady_decide (ih : env.SteadyAt n) {g : Guard} (hm : env.Trusts s.memo)
    (hi : s.index ≤ env.stream.lastIndex) (ha : env.Affords (n + 1) g.rank s.index) :
    (g.decide env (Cmd.run env n) s).Steady := by
  have hs := Guard.settles_settle hm g
  unfold Guard.decide
  cases hg : g.settle env s with
  | known b s' => trivial
  | ask probe s' =>
    rw [hg] at hs
    obtain ⟨hp, hm', hq⟩ := hs
    have hi' : s'.index = s.index := congrArg Place.index hp
    have hrank : g.rank = 4 := by rw [Guard.rank, if_pos (Guard.probe?_of_query hq)]
    obtain ⟨hpaced, hfrag⟩ := probe.paced_fragment
    have hsteady : (probe.fragment.run env n (s'.enterProbe env)).Steady := by
      refine ih probe.fragment (s'.enterProbe env) hm' ?_ hpaced ?_
      · exact hi' ▸ hi
      · change env.Affords n probe.fragment.rank s'.index
        rw [Setting.Affords, hrank] at ha
        rw [Setting.Affords, hi']
        omega
    simp only [State.conclude, if_neg (Nat.not_lt.2 hi)]
    split
    · trivial
    · rename_i e t ho
      rw [ho] at hsteady
      split
      · exact hsteady
      · trivial

theorem Rule.le_foldr_rank {r : Rule} {rs : List Rule} (h : r ∈ rs) :
    r.rank ≤ rs.foldr (fun r n => max r.rank n) 0 := by
  induction rs with
  | nil => cases h
  | cons a rs ih =>
    rw [List.foldr_cons]
    rcases List.mem_cons.1 h with rfl | h
    · exact Nat.le_max_left _ _
    · exact Nat.le_trans (ih h) (Nat.le_max_right _ _)

namespace Cmd

/-- Steady runs on the deeper levels make for steady runs of a command. -/
theorem steady_exec (hs : env.stream.Closed) (ih : env.SteadyAt n) (ihPass : env.SteadyPass n)
    (c : Cmd) (hm : env.Trusts s.memo) (hi : s.index ≤ env.stream.lastIndex)
    (hc : c.paced = true) (ha : env.Affords (n + 1) c.rank s.index) :
    (c.exec env (run env n) s).Steady := by
  induction c generalizing s with
  | skip => trivial
  | shift => exact State.steady_shift
  | fail expected remark => exact ParseFault.isStuck_ofFound _ _
  | seq a b iha ihb =>
    rw [paced, Bool.and_eq_true] at hc
    rw [rank, Setting.Affords] at ha
    have hsa := iha hm hi hc.1 (by rw [Setting.Affords]; omega)
    rw [exec]
    split
    · rename_i t ht
      obtain ⟨hmt, hends⟩ := reach_of_run (n := n + 1) hm ht
      have hcov := hends.covers fun _ _ _ h => h.covers
      have hle : s.index ≤ t.index := hcov.index_le
      have hlast : t.index ≤ env.stream.lastIndex := hcov.le_lastIndex hs hi
      refine ihb hmt hlast hc.2 ?_
      rw [Setting.Affords]
      split at ha
      · have hlt : s.index < t.index := hends.lt_of_moves ‹_›
        omega
      · omega
    · rename_i e t ht
      rwa [ht] at hsa
  | ite g a b iha ihb =>
    rw [paced, Bool.and_eq_true] at hc
    rw [rank, Setting.Affords] at ha
    have hg := Guard.steady_decide (g := g) ih hm hi (by rw [Setting.Affords]; omega)
    rw [exec]
    split
    · rename_i t ht
      obtain ⟨hmt, hp, -⟩ := Guard.reach_of_decide hm ht
      have hit : t.index = s.index := congrArg Place.index hp
      exact iha hmt (hit ▸ hi) hc.1 (by rw [Setting.Affords, hit]; omega)
    · rename_i t ht
      obtain ⟨hmt, hp, -⟩ := Guard.reach_of_decide hm ht
      have hit : t.index = s.index := congrArg Place.index hp
      exact ihb hmt (hit ▸ hi) hc.2 (by rw [Setting.Affords, hit]; omega)
    · rename_i e t ht
      rwa [ht] at hg
  | loop g body _ =>
    rw [rank, Setting.Affords] at ha
    have hg := Guard.steady_decide (g := g) ih hm hi (by rw [Setting.Affords]; omega)
    rw [exec]
    split
    · rename_i t ht
      obtain ⟨hmt, hp, hallows⟩ := Guard.reach_of_decide hm ht
      have hit : t.index = s.index := congrArg Place.index hp
      refine ihPass g body t hmt (hit ▸ hi) hc ?_ (by rw [Setting.Affords, hit]; omega)
      rwa [hp]
    · trivial
    · rename_i e t ht
      rwa [ht] at hg
  | nest body ihb =>
    have hsb := ihb (s := s.fresh env) hm hi hc ha
    rw [exec]
    split
    · trivial
    · rename_i e t ht
      rwa [ht] at hsb
  | jump r =>
    have hrank := r.rank_body_le
    refine ih r.body s hm hi r.paced_body ?_
    rw [rank, Setting.Affords] at ha
    rw [Setting.Affords]
    omega
  | dispatch t =>
    rw [exec]
    split
    · rename_i r hdec
      have hrank := r.rank_body_le
      have hmax : r.rank ≤ t.rules.foldr (fun r n => max r.rank n) 0 :=
        Rule.le_foldr_rank (Table.mem_rules_of_decide hdec)
      refine ih r.body s hm hi r.paced_body ?_
      rw [rank, Setting.Affords] at ha
      rw [Setting.Affords]
      omega
    · rename_i e hdec
      exact Table.isStuck_of_decide hdec
  | close kind => trivial
  | wrap kind => trivial

/-- Enough levels keep runs steady. A pass of a loop reads a token, and pays with it for the
level that the next one takes. -/
theorem steady_run (hs : env.stream.Closed) (n : Nat) : env.SteadyAt n ∧ env.SteadyPass n := by
  induction n with
  | zero =>
    constructor
    · intro c s _ _ _ ha
      exact absurd ha (Nat.not_lt_zero _)
    · intro g body s _ _ _ _ ha
      exact absurd ha (Nat.not_lt_zero _)
  | succ n ih =>
    have hexec {c : Cmd} {s : State} := steady_exec (s := s) hs ih.1 ih.2 c
    constructor
    · intro c s hm hi hc ha
      exact hexec hm hi hc ha
    · intro g body s hm hi hc hg ha
      have hcl := hc
      rw [paced, Bool.and_eq_true, Bool.and_eq_true, decide_eq_true_eq] at hc
      have hbody := hexec hm hi hc.1.1 ha
      rw [run, exec]
      split
      · rename_i t ht
        obtain ⟨hmt, hends⟩ := reach_of_run (n := n + 1) hm ht
        have hcov := hends.covers fun _ _ _ h => h.covers
        have hlt : s.index < t.index := hends.lt_of_passMoves hc.1.2 hg
        have hlast : t.index ≤ env.stream.lastIndex := hcov.le_lastIndex hs hi
        refine hexec hmt hlast hcl ?_
        rw [Setting.Affords] at ha ⊢
        omega
      · rename_i e t ht
        rwa [ht] at hbody

end Cmd
end

end JavaSyntax
