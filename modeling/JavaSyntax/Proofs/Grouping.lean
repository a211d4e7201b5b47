import JavaSyntax.Proofs.Nodes

/-!
# Grouping by precedence

The climbing loop keeps its left operand on top of the draft. No operator that binds more tightly
than that operand's own one stands behind it, since the right operand has taken all of those. A
type test has no such right operand, so a tighter operator may follow it.
-/

namespace JavaSyntax

/-- The level of precedence of the infix nodes. -/
def NodeKind.infixLevel? : NodeKind → Option Nat
  | binary op => some op.level
  | instanceOf => some 7
  | _ => none

namespace Tree

def infixLevel? (t : Tree) : Option Nat := t.nodeKind?.bind NodeKind.infixLevel?

/-- An infix node does not hold on to its left operand more tightly than that to its own, nor to
its right operand as tightly. -/
def Ordered (n : Tree) : Prop :=
  ∀ level, n.infixLevel? = some level →
    (∀ left l, n.children.head? = some left → left.infixLevel? = some l → level ≤ l) ∧
      ∀ right op, n.children.getLast? = some right → right.nodeKind? = some (.binary op) →
        level < op.level

/-- An infix node has two nodes as operands and only tokens between them. -/
def Infixed (n : Tree) : Prop :=
  ∀ level, n.infixLevel? = some level →
    ∃ left tokens right, n.children = left :: tokens ++ [right] ∧
      (∀ t ∈ tokens, t.nodeKind? = none) ∧ left.nodeKind?.isSome ∧ right.nodeKind?.isSome

/-- A type test is the left operand of an operator that binds more tightly. -/
def AbsorbsTest (n : Tree) : Prop :=
  ∃ op left, n.nodeKind? = some (.binary op) ∧ n.children.head? = some left ∧
    left.nodeKind? = some .instanceOf ∧ 8 ≤ op.level

/-- What the climbing loop guarantees of each node that it makes. -/
def Climbed (n : Tree) : Prop :=
  ∀ level, n.infixLevel? = some level →
    ∃ left tokens right, n.children = left :: tokens ++ [right] ∧
      (∀ t ∈ tokens, t.nodeKind? = none) ∧ left.nodeKind?.isSome ∧ right.nodeKind?.isSome ∧
      (∀ op, left.nodeKind? = some (.binary op) → level ≤ op.level) ∧
      ∀ op, right.nodeKind? = some (.binary op) → level < op.level

theorem Climbed.infixed {n : Tree} (h : n.Climbed) : n.Infixed := by
  intro level hl
  obtain ⟨left, tokens, right, hc, ht, hleft, hright, -⟩ := h level hl
  exact ⟨left, tokens, right, hc, ht, hleft, hright⟩

theorem Climbed.ordered_iff {n : Tree} (h : n.Climbed) : n.Ordered ↔ ¬ n.AbsorbsTest := by
  constructor
  · rintro ho ⟨op, left, hn, hleft, hk, hlevel⟩
    have hl : n.infixLevel? = some op.level := by simp [infixLevel?, hn, NodeKind.infixLevel?]
    have := (ho _ hl).1 left 7 hleft (by simp [infixLevel?, hk, NodeKind.infixLevel?])
    omega
  · intro hs level hl
    obtain ⟨left, tokens, right, hc, -, -, -, hleft, hright⟩ := h level hl
    rw [hc]
    constructor
    · rintro left' l heq hl'
      cases (Option.some.inj heq : left = left')
      obtain ⟨k, hk, hkl⟩ := Option.bind_eq_some_iff.1 hl'
      cases k <;> simp only [NodeKind.infixLevel?, Option.some.injEq, reduceCtorEq] at hkl
      case binary op =>
        rw [← hkl]
        exact hleft op hk
      case instanceOf =>
        rw [← hkl]
        refine Nat.le_of_not_lt fun hlt => hs ?_
        obtain ⟨k, hn, hnl⟩ := Option.bind_eq_some_iff.1 hl
        cases k <;> simp only [NodeKind.infixLevel?, Option.some.injEq, reduceCtorEq] at hnl
        case binary op => exact ⟨op, left, hn, by rw [hc]; rfl, hk, by omega⟩
        case instanceOf => omega
    · intro right' op heq hop
      simp only [List.cons_append, List.getLast?_cons, List.getLast?_append] at heq
      cases (Option.some.inj heq : right = right')
      exact hright op hop

/-- All nodes of the tree are as the climbing loop leaves them. -/
def Grouped (t : Tree) : Prop := ∀ n ∈ t.nodes, n.Climbed

theorem climbed_of_kind {n : Tree} {kind : NodeKind} (hk : n.nodeKind? = some kind)
    (hi : kind.infixLevel?.isSome = false) : n.Climbed := by
  intro level hl
  rw [infixLevel?, hk, Option.bind_some] at hl
  rw [hl] at hi
  cases hi

end Tree

namespace Draft
variable {d : Draft}

def Grouped (d : Draft) : Prop := ∀ t ∈ d.items, t.Grouped

theorem wrap_infix {k : NodeKind} {left right : Tree} {tokens : Forest} {level : Nat}
    (hd : d.items = right :: (tokens ++ [left])) (hk : k.infixLevel? = some level)
    (htokens : ∀ t ∈ tokens, t.nodeKind? = none ∧ t.Grouped)
    (hleft : left.nodeKind?.isSome) (hright : right.nodeKind?.isSome)
    (hgl : left.Grouped) (hgr : right.Grouped)
    (hl : ∀ op, left.nodeKind? = some (.binary op) → level ≤ op.level)
    (hr : ∀ op, right.nodeKind? = some (.binary op) → level < op.level) :
    ∃ t, (d.wrap k).items = [t] ∧ t.nodeKind? = some k ∧ t.Grouped := by
  have hforest : d.forest = left :: tokens.reverse ++ [right] := by simp [forest, hd]
  refine ⟨_, rfl, rfl, Tree.each_node ?_ ?_⟩
  · intro l hl'
    cases hk.symm.trans hl'
    refine ⟨left, tokens.reverse, right, hforest, ?_, hleft, hright, hl, hr⟩
    intro t ht
    exact (htokens t (List.mem_reverse.1 ht)).1
  · intro t ht
    rw [hforest, List.cons_append, List.mem_cons, List.mem_append, List.mem_reverse,
      List.mem_singleton] at ht
    rcases ht with rfl | ht | rfl
    · exact hgl
    · exact (htokens t ht).2
    · exact hgr

end Draft

namespace Grammar
variable {s : TokenStream} {i : Nat} {d : Draft}

theorem holds_spelled (d e : Draft) (k : Nat) (ks : List TokenKind) :
    (spelled k ks).holds s i d = (spelled k ks).holds s i e := by
  fun_induction spelled k ks with
  | case1 => rfl
  | case2 => rfl
  | case3 k a ks hne ih => simp [Test.holds, ih]

theorem holds_anyOf (ts : List Test) :
    (Test.anyOf ts).holds s i d = ts.any fun t => t.holds s i d := by
  fun_induction Test.anyOf ts with
  | case1 => rfl
  | case2 t => simp
  | case3 t ts hne ih => simp [Test.holds, ih]

end Grammar

/-- The operator's tokens stand at the index, side by side. -/
def InfixOperator.StandsAt (s : TokenStream) (i : Nat) (o : InfixOperator) : Prop :=
  (Grammar.spelled 0 o.spelling).holds s i default = true

/-- No operator of the level or of a tighter one stands at the index. -/
def TokenStream.Free (s : TokenStream) (i level : Nat) : Prop :=
  ∀ o ∈ InfixOperator.all, level ≤ o.level.val → ¬ o.StandsAt s i

theorem Grammar.operatorAhead_of_standsAt {s : TokenStream} {i : Nat} {d : Draft}
    {ops : List InfixOperator} {o : InfixOperator} (ho : o ∈ ops) (hs : o.StandsAt s i) :
    (operatorAhead ops).holds s i d = true := by
  have hd : (spelled 0 o.spelling).holds s i d = true := by
    rw [holds_spelled d default]
    exact hs
  rw [operatorAhead, Test.holds, Bool.or_eq_true]
  by_cases hlen : o.spelling.length = 1
  · left
    obtain ⟨k, hk⟩ := List.length_eq_one_iff.1 hlen
    rw [hk, spelled, Test.holds, KindSet.contains_single, decide_eq_true_eq] at hd
    rw [Test.hereAny, Test.holds, KindSet.contains_ofList, hd, List.contains_iff_mem,
      List.mem_flatMap]
    exact ⟨o, by simp [ho, hlen], by simp [hk]⟩
  · right
    rw [holds_anyOf, List.any_map, List.any_eq_true]
    exact ⟨o, by simp [ho, hlen], hd⟩

def InfixKind.level : InfixKind → Nat
  | binary op => op.level
  | instanceOf => 7

theorem InfixOperator.level_of_mem : ∀ o ∈ all, o.level.val = o.builds.level := by decide

/-- The least level of the operators that a rule reads, if it reads any. -/
def Rule.level? : Rule → Option (Fin 12)
  | binary least => some least
  | _ => none

/-- Infix nodes, and the rules that climb. -/
def Concern.infixes : Concern := ⟨(·.infixLevel?.isSome), (·.level?.isSome)⟩

theorem Rule.spares_infixes {r : Rule} (h : Concern.infixes.makes r = false) :
    r.body.spares .infixes = true := by
  revert r
  decide

/-- The rule keeps drafts grouped, and one that climbs leaves none of its operators behind. -/
def Rule.Groups (s : TokenStream) (r : Rule) (p : Place) (o : Ending) : Prop :=
  ∀ q, o = .done q → p.draft.Grouped → (r.level? = none ∨ p.draft.items = []) →
    q.draft.Grouped ∧ ∀ least, r.level? = some least → s.Free q.index least

section
variable {s : TokenStream} {strict : Bool} {calls : Rule → Place → Ending → Prop} {c : Cmd}
  {p q : Place}

/-- A rule that climbs on a draft of its own keeps that one grouped, too. -/
theorem Rule.Groups.keeps {r : Rule} {o : Ending} (h : r.Groups s p o) :
    r.Keeps s .infixes Tree.Climbed p o := by
  intro q hq hp hfresh
  refine (h q hq hp ?_).1
  cases hl : r.level? with
  | none => exact .inl rfl
  | some least =>
    right
    rw [hfresh (by simp [Concern.infixes, hl])]
    rfl

theorem Cmd.Ends.grouped (hcalls : ∀ r p o, calls r p o → r.Groups s p o)
    (hc : c.spares .infixes = true) (h : Cmd.Ends s strict calls c p (.done q))
    (hp : p.draft.Grouped) : q.draft.Grouped :=
  h.each (fun _ _ hk hi => Tree.climbed_of_kind hk hi) (fun r p o h => (hcalls r p o h).keeps) hc hp

theorem Cmd.Ends.shifts {n : Nat} (h : Cmd.Ends s strict calls (.shifts n) p (.done q)) :
    ∃ tokens, q.draft.items = tokens ++ p.draft.items ∧
      ∀ t ∈ tokens, t.nodeKind? = none ∧ t.Grouped := by
  have one {p q} (h : Cmd.Ends s strict calls .shift p (.done q)) :
      ∃ t, q.draft.items = t :: p.draft.items ∧ t.nodeKind? = none ∧ t.Grouped := by
    cases h
    exact ⟨_, rfl, rfl, Tree.each_leaf _ _⟩
  induction n using Cmd.shifts.induct generalizing p with
  | case1 =>
    cases h
    exact ⟨[], rfl, by simp⟩
  | case2 =>
    obtain ⟨t, hq, ht⟩ := one h
    exact ⟨[t], hq, by simpa using ht⟩
  | case3 n hn ih =>
    rw [Cmd.shifts.eq_3 n hn] at h
    obtain ⟨m, ha, hb⟩ := h.seq_done
    obtain ⟨t, hm, ht⟩ := one ha
    obtain ⟨tokens, hq, htokens⟩ := ih hb
    refine ⟨tokens ++ [t], by simp [hq, hm], ?_⟩
    intro u hu
    rcases List.mem_append.1 hu with hu | hu
    · exact htokens u hu
    · rw [List.mem_singleton.1 hu]
      exact ht

/-- What the loop of a chain of operators does in one pass. -/
theorem Cmd.Ends.chain {ops : List InfixOperator}
    (h : Cmd.Ends s strict calls
      (ops.foldr (fun o rest => .ite (Grammar.spelled 0 o.spelling) (Grammar.operation o) rest)
        .skip) p (.done q)) :
    q = p ∨ ∃ o ∈ ops, o.StandsAt s p.index ∧
      Cmd.Ends s strict calls (Grammar.operation o) p (.done q) := by
  induction ops with
  | nil =>
    cases h
    exact .inl rfl
  | cons o ops ih =>
    obtain ⟨answer, hg, h⟩ := h.ite_done
    rw [Guard.allows_test] at hg
    cases answer with
    | true =>
      refine .inr ⟨o, List.mem_cons_self, ?_, h⟩
      rwa [InfixOperator.StandsAt, Grammar.holds_spelled default p.draft]
    | false =>
      obtain hq | ⟨o', ho', h⟩ := ih h
      · exact .inl hq
      · exact .inr ⟨o', List.mem_cons_of_mem _ ho', h⟩

/-- One node is on the draft. If it is an operation, no tighter operator stands behind it. -/
def Place.Climbs (s : TokenStream) (p : Place) : Prop :=
  ∃ t kind, p.draft.items = [t] ∧ t.nodeKind? = some kind ∧ t.Grouped ∧
    ∀ op, kind = .binary op → s.Free p.index (op.level + 1)

end

section
variable {s : TokenStream} {strict : Bool} {p q : Place} {o : InfixOperator} {r : Rule}

theorem Cmd.Ends.call_grouped (hr : r ≠ .emptyMember)
    (h : Cmd.Ends s strict (fun r p o => Rule.Ends s strict r p o ∧ r.Groups s p o)
      (.call r) p (.done q)) :
    ∃ t kind, q.draft.items = t :: p.draft.items ∧ t.nodeKind? = some kind ∧
      r.strength ≤ kind.strength ∧ t.Grouped ∧
      ∀ least, r.level? = some least → s.Free q.index least := by
  cases h with
  | @nest _ _ m h =>
    cases h with
    | jump h =>
      obtain ⟨t, kind, hm, ht, hk⟩ := h.1.single hr rfl
      have hfresh : (s.fresh p.index).draft.Grouped := by
        intro t ht
        cases ht
      obtain ⟨hg, hfree⟩ := h.2 m rfl hfresh (.inr rfl)
      refine ⟨t, kind, by simp [Draft.adopt, hm], ht, hk, hg t (by simp [hm]), hfree⟩

theorem NodeKind.strength_binary {op : BinaryOp} : (binary op).strength = op.level + 1 := rfl

/-- An operator takes the node on the draft as its left operand. No tighter operator than that
node's own has been left for it, and its right operand leaves none but looser ones. -/
theorem Cmd.Ends.operation (ho : o ∈ InfixOperator.all) (hs : o.StandsAt s p.index)
    (hp : p.Climbs s)
    (h : Cmd.Ends s strict (fun r p o => Rule.Ends s strict r p o ∧ r.Groups s p o)
      (Grammar.operation o) p (.done q)) : q.Climbs s := by
  obtain ⟨left, kind, hleft, hkind, hgleft, hfree⟩ := hp
  have hlevel := InfixOperator.level_of_mem o ho
  have hbehind : ∀ op, left.nodeKind? = some (.binary op) → o.level.val ≤ op.level := by
    intro op hop
    cases hkind.symm.trans hop
    exact Nat.le_of_not_lt fun hlt => hfree op rfl o ho hlt hs
  obtain ⟨m, hshift, h⟩ := h.seq_done
  obtain ⟨tokens, hm, htokens⟩ := hshift.shifts
  rw [hleft] at hm
  cases hb : o.builds with
  | instanceOf =>
    rw [hb] at h hlevel
    obtain ⟨m', hcall, h⟩ := h.seq_done
    obtain ⟨right, rk, hm', hrk, hstrong, hgr, -⟩ := hcall.call_grouped (by simp)
    have hright : ∀ op, right.nodeKind? = some (.binary op) → o.level.val < op.level := by
      intro op hop
      cases hrk.symm.trans hop
      cases op <;> simp [Rule.strength, NodeKind.strength, BinaryOp.level] at hstrong
    cases h
    obtain ⟨t, ht, hk, hg⟩ := Draft.wrap_infix (k := .instanceOf) (hm'.trans (by rw [hm]))
      (by rw [hlevel]; rfl) htokens (by simp [hkind]) (by simp [hrk]) hgleft hgr hbehind hright
    exact ⟨t, _, ht, hk, hg, by simp⟩
  | binary op =>
    rw [hb] at h hlevel
    obtain ⟨m', hcall, h⟩ := h.seq_done
    obtain ⟨right, rk, hm', hrk, hstrong, hgr, hfree'⟩ := hcall.call_grouped (by simp)
    have hright : ∀ op, right.nodeKind? = some (.binary op) → o.level.val < op.level := by
      intro op' hop
      cases hrk.symm.trans hop
      simp only [Rule.strength, Fin.val_succ, NodeKind.strength_binary] at hstrong
      omega
    cases h
    obtain ⟨t, ht, hk, hg⟩ := Draft.wrap_infix (k := .binary op) (hm'.trans (by rw [hm]))
      (by rw [hlevel]; rfl) htokens (by simp [hkind]) (by simp [hrk]) hgleft hgr hbehind hright
    refine ⟨t, _, ht, hk, hg, ?_⟩
    rintro op' heq
    cases heq
    have := hfree' _ rfl
    rwa [Fin.val_succ, hlevel] at this

theorem Rule.groups_binary {least : Fin 12}
    (h : Cmd.Ends s strict (fun r p o => Rule.Ends s strict r p o ∧ r.Groups s p o)
      (Grammar.binary least) p (.done q)) (hp : p.draft.items = []) :
    q.draft.Grouped ∧ s.Free q.index least := by
  obtain ⟨m, hunary, hloop⟩ := h.seq_done
  obtain ⟨t, kind, hm, hk, hstrong, hg, -⟩ := hunary.call_grouped (by simp)
  have hclimbs : m.Climbs s := by
    refine ⟨t, kind, by rw [hm, hp], hk, hg, ?_⟩
    rintro op rfl
    cases op <;> simp [Rule.strength, NodeKind.strength, BinaryOp.level] at hstrong
  obtain ⟨⟨u, -, hu, -, hgu, -⟩, hend⟩ := hloop.loop_done (I := fun m => m.Climbs s)
    (fun m m' hm _ hbody => by
      obtain rfl | ⟨o, ho, hs, hbody⟩ := hbody.chain
      · exact hm
      · exact hbody.operation (List.mem_filter.1 ho).1 hs hm) hclimbs
  constructor
  · intro t ht
    rw [hu] at ht
    rwa [List.mem_singleton.1 ht]
  · intro o ho hle hs
    have hmem : o ∈ Grammar.operatorsFrom least := List.mem_filter.2 ⟨ho, by simpa using hle⟩
    rw [Guard.allows_test, Grammar.operatorAhead_of_standsAt hmem hs] at hend
    cases hend

/-- Every rule groups. -/
theorem Rule.Ends.groups {o : Ending} (h : Rule.Ends s strict r p o) : r.Groups s p o := by
  refine h.induct ?_
  rintro r p _ h q rfl hp hr
  cases hl : r.level? with
  | none =>
    exact ⟨h.grouped (fun _ _ _ h => h.2) (Rule.spares_infixes (by simp [Concern.infixes, hl])) hp,
      by simp⟩
  | some least =>
    cases r <;> simp only [Rule.level?, reduceCtorEq, Option.some.injEq] at hl
    subst hl
    rw [Rule.body_binary] at h
    obtain ⟨hg, hfree⟩ := Rule.groups_binary h (by simpa [Rule.level?] using hr)
    exact ⟨hg, by simpa using hfree⟩

end

/-- In the tree of any parse, an infix node stands between its operands as the levels of
precedence ask, unless it has a type test to its left and binds more tightly. -/
theorem ordered_iff_not_absorbsTest (ts : TokenList) (options : ParseOptions) (e : Entry)
    (t : Tree) (h : parse e ts options = .ok t) :
    ∀ n ∈ t.nodes, n.Infixed ∧ (n.Ordered ↔ ¬ n.AbsorbsTest) := by
  have hs : (Session.start ts options).Sound := Session.sound_startAt ts options 0
  have hrun := (parse_eq_ok.1 h).1
  obtain ⟨o, ho, -, hgives⟩ := hs.gives e (by simp [hrun])
  rw [hrun] at hgives
  have hg : t.Grouped := by
    cases o with
    | failed err i => cases hgives
    | done q =>
      obtain ⟨u, hu, heq⟩ := hgives
      cases heq
      have hfresh : (TokenStream.fresh (.ofList ts) 0).draft.Grouped := by
        intro t ht
        cases ht
      exact (ho.groups q rfl hfresh (.inr rfl)).1 t (by simp [hu])
  intro n hn
  exact ⟨(hg n hn).infixed, (hg n hn).ordered_iff⟩

/-- `a instanceof T + b` -/
def testSum : TokenList where
  source := "a instanceof T + b"
  tokens := #[⟨.ident, ⟨0, 1⟩, ⟨1, 1⟩⟩, ⟨.kwInstanceof, ⟨2, 12⟩, ⟨1, 3⟩⟩,
    ⟨.ident, ⟨13, 14⟩, ⟨1, 14⟩⟩, ⟨.plus, ⟨15, 16⟩, ⟨1, 16⟩⟩, ⟨.ident, ⟨17, 18⟩, ⟨1, 18⟩⟩,
    ⟨.eof, ⟨18, 18⟩, ⟨1, 19⟩⟩]

/-- `a instanceof T` -/
def testSumLeft : Tree :=
  .node .instanceOf ⟨0, 14⟩
    [.node .name ⟨0, 1⟩ [.leaf .ident ⟨0, 1⟩], .leaf .kwInstanceof ⟨2, 12⟩,
      .node .classType ⟨13, 14⟩ [.leaf .ident ⟨13, 14⟩]]

def testSumTree : Tree :=
  .node (.binary .add) ⟨0, 18⟩
    [testSumLeft, .leaf .plus ⟨15, 16⟩, .node .name ⟨17, 18⟩ [.leaf .ident ⟨17, 18⟩]]

theorem parse_testSum : parse .expression testSum = .ok testSumTree := by
  rw [parse_eq_ok, Session.run_eq]
  decide +kernel

/-- A sum takes a whole type test as its left operand, although it binds more tightly. -/
theorem not_ordered_testSum :
    parse .expression testSum = .ok testSumTree ∧ testSumTree ∈ testSumTree.nodes ∧
      ¬ testSumTree.Ordered := by
  refine ⟨parse_testSum, ?_, ?_⟩
  · rw [Tree.nodes_eq]
    exact List.mem_cons_self
  · intro h
    have := (h 9 rfl).1 testSumLeft 7 rfl rfl
    omega

/-- The type test in that sum is in order, and the sum is not. -/
theorem ordered_testSum :
    parse .expression testSum = .ok testSumTree ∧ testSumLeft.Ordered ∧
      testSumTree.AbsorbsTest ∧ ¬ testSumTree.Ordered := by
  have h := ordered_iff_not_absorbsTest testSum {} .expression testSumTree parse_testSum
  have habsorbs : testSumTree.AbsorbsTest := ⟨.add, testSumLeft, rfl, rfl, rfl, by decide⟩
  have hwhole : testSumTree ∈ testSumTree.nodes := by
    rw [Tree.nodes_eq]
    exact List.mem_cons_self
  have hleft : testSumLeft ∈ testSumTree.nodes := by
    rw [Tree.nodes_eq]
    exact List.mem_cons_of_mem _ List.mem_cons_self
  refine ⟨parse_testSum, (h _ hleft).2.2 ?_, habsorbs, fun ho => (h _ hwhole).2.1 ho habsorbs⟩
  rintro ⟨op, left, hop, -⟩
  cases hop

end JavaSyntax
