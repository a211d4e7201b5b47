import JavaSyntax.Proofs.Reparse

/-!
# Branches

An `else` belongs to the last `if` before it that has none. A statement that ends with an if
statement without an `else` has looked for one, so no `else` stands behind it, and what stands
before an `else` is no such statement.
-/

namespace JavaSyntax

namespace NodeKind

def isStatement : NodeKind → Bool
  | block | emptyStatement | labeledStatement | expressionStatement | ifStatement
  | assertStatement | switchStatement | whileStatement | doStatement | forStatement
  | enhancedForStatement | breakStatement | continueStatement | returnStatement
  | throwStatement | synchronizedStatement | tryStatement => true
  | _ => false

/-- The statements that end with another statement. -/
def isTailed : NodeKind → Bool
  | labeledStatement | whileStatement | forStatement | enhancedForStatement | ifStatement => true
  | _ => false

end NodeKind

namespace Tree

def isStatement (t : Tree) : Bool := t.nodeKind?.any NodeKind.isStatement

/-- The last of the children that are statements. -/
def lastStatement? (t : Tree) : Option Tree := (t.children.filter isStatement).getLast?

/-- What is done under the condition: of the nodes in an if statement the one behind the first. -/
def thenBranch? (t : Tree) : Option Tree := t.childNodes[1]?

/-- The second statement stands at the end of the first one, or is the same. -/
inductive EndsWith : Tree → Tree → Prop
  | refl (t : Tree) : EndsWith t t
  | last {t u v : Tree} {kind : NodeKind} (hkind : t.nodeKind? = some kind)
      (htailed : kind.isTailed = true) (hlast : t.lastStatement? = some u) (h : EndsWith u v) :
      EndsWith t v

/-- An if statement without an `else` stands at the end. -/
def Dangles (t : Tree) : Prop :=
  ∃ v, t.EndsWith v ∧ v.nodeKind? = some .ifStatement ∧ v.hasToken .kwElse = false

/-- An if statement that has an `else` has a then-branch, and every if statement at the end of
that has an `else` as well. -/
def Bound (n : Tree) : Prop :=
  n.nodeKind? = some .ifStatement → n.hasToken .kwElse = true →
    ∃ branch, n.thenBranch? = some branch ∧
      ∀ v, branch.EndsWith v → v.nodeKind? = some .ifStatement → v.hasToken .kwElse = true

variable {t : Tree} {kind : NodeKind}

theorem not_dangles_of_kind (hkind : t.nodeKind? = some kind) (h : kind.isTailed = false) :
    ¬ t.Dangles := by
  rintro ⟨v, hends, hif, -⟩
  cases hends with
  | refl =>
    cases hkind.symm.trans hif
    cases h
  | last hkind' htailed =>
    cases hkind.symm.trans hkind'
    cases h.symm.trans htailed

theorem not_dangles_iff :
    ¬ t.Dangles ↔
      ∀ v, t.EndsWith v → v.nodeKind? = some .ifStatement → v.hasToken .kwElse = true := by
  simp [Dangles]

theorem Dangles.part (h : t.Dangles) {u : Tree} (hlast : t.lastStatement? = some u) :
    (t.nodeKind? = some .ifStatement ∧ t.hasToken .kwElse = false) ∨ u.Dangles := by
  obtain ⟨v, hends, hif⟩ := h
  cases hends with
  | refl => exact .inl hif
  | last _ _ hlast' hends =>
    cases hlast.symm.trans hlast'
    exact .inr ⟨v, hends, hif⟩

theorem nodeKind?_isSome (h : t.isStatement = true) : t.nodeKind?.isSome = true :=
  Option.isSome_of_any h

theorem exists_node (h : t.nodeKind?.isSome = true) : ∃ kind span children,
    t = node kind span children := by
  cases t with
  | leaf => cases h
  | node kind span children => exact ⟨kind, span, children, rfl⟩

theorem lastStatement?_build {start : Nat} {items : Forest} {u : Tree} (hu : u.isStatement = true) :
    (build kind start (u :: items).reverse).lastStatement? = some u := by
  simp [lastStatement?, build, children, List.filter_append, hu]

end Tree

def Rule.makesStatement (r : Rule) : Bool :=
  r == .statement || Grammar.statementTable.rules.contains r

/-- The command ends by making the draft one node, of a kind that has the property. -/
def Cmd.closesWith (K : NodeKind → Bool) : Cmd → Bool
  | seq _ b => b.closesWith K
  | ite _ a b => a.closesWith K && b.closesWith K
  | close kind => K kind
  | _ => false

/-- On a draft of its own the rule makes one statement. If that lacks an `else`, none follows. -/
def Rule.Binds (s : TokenStream) (r : Rule) (p : Place) (o : Ending) : Prop :=
  ∀ q, o = .done q → r.makesStatement = true → p = s.fresh p.index →
    ∃ t, q.draft.items = [t] ∧ t.isStatement = true ∧ (t.Dangles → s.kindAt q.index ≠ .kwElse)

section
variable {s : TokenStream} {strict : Bool} {calls : Rule → Place → Ending → Prop} {c : Cmd}
  {r : Rule} {p q : Place} {o : Ending} {kind : NodeKind}

theorem Cmd.Ends.of_closesWith {K : NodeKind → Bool} (hc : c.closesWith K = true)
    (h : Cmd.Ends s strict calls c p (.done q)) :
    ∃ t kind, q.draft.items = [t] ∧ t.nodeKind? = some kind ∧ K kind = true := by
  induction c generalizing p with
  | seq a b _ ihb =>
    obtain ⟨m, -, hb⟩ := h.seq_done
    exact ihb hc hb
  | ite g a b iha ihb =>
    rw [closesWith, Bool.and_eq_true] at hc
    obtain ⟨answer, -, h⟩ := h.ite_done
    cases answer with
    | true => exact iha hc.1 h
    | false => exact ihb hc.2 h
  | close kind =>
    obtain rfl := h.of_close
    exact ⟨_, kind, rfl, rfl, hc⟩
  | _ => cases hc

theorem Cmd.Ends.called_rule (h : Cmd.Ends s strict calls (.call r) p (.done q)) :
    ∃ m, calls r (s.fresh p.index) (.done m) ∧ q = ⟨m.index, p.draft.adopt m.draft⟩ := by
  obtain ⟨m, hjump, hq⟩ := h.of_nest
  cases hjump with
  | jump h => exact ⟨m, h, hq⟩

theorem Cmd.Ends.called_statement (hcalls : ∀ r p o, calls r p o → r.Binds s p o)
    (h : Cmd.Ends s strict calls (.call .statement) p (.done q)) :
    ∃ t, q.draft.items = t :: p.draft.items ∧ t.isStatement = true ∧
      (t.Dangles → s.kindAt q.index ≠ .kwElse) := by
  obtain ⟨m, hrule, rfl⟩ := h.called_rule
  obtain ⟨t, hitems, ht⟩ := hcalls _ _ _ hrule m rfl rfl rfl
  exact ⟨t, by simp [Draft.adopt, hitems], ht⟩

/-- A statement that ends with another one dangles only if that does. -/
theorem Cmd.Ends.binds_tail (hcalls : ∀ r p o, calls r p o → r.Binds s p o)
    (hkind : kind.isStatement = true) (hif : kind ≠ .ifStatement)
    (h : Cmd.Ends s strict calls (c ++ .call .statement ++ .close kind) p (.done q)) :
    ∃ t, q.draft.items = [t] ∧ t.isStatement = true ∧
      (t.Dangles → s.kindAt q.index ≠ .kwElse) := by
  obtain ⟨m₂, h, hclose⟩ := h.seq_done
  obtain ⟨m₁, -, hcall⟩ := h.seq_done
  obtain ⟨u, hitems, hu, hbinds⟩ := hcall.called_statement hcalls
  obtain rfl := hclose.of_close
  refine ⟨_, rfl, hkind, fun hdangles => ?_⟩
  rw [Draft.forest, hitems] at hdangles
  obtain ⟨hkind, -⟩ | hdangles := hdangles.part (Tree.lastStatement?_build hu)
  · exact absurd (Option.some.inj hkind) hif
  · exact hbinds hdangles

theorem Cmd.Ends.expect_items {k : TokenKind} (hs : ∀ i, (s.tokenAt i).kind = s.kindAt i)
    (h : Cmd.Ends s strict calls (.expect k) p (.done q)) :
    ∃ span, q.draft.items = .leaf k span :: p.draft.items := by
  obtain ⟨hkind, rfl⟩ := h.of_expect
  exact ⟨_, by rw [← hkind, ← hs]; rfl⟩

theorem Grammar.ifHead_items (hs : ∀ i, (s.tokenAt i).kind = s.kindAt i)
    (hcalls : ∀ r p o, calls r p o → Rule.Ends s strict r p o)
    (hbinds : ∀ r p o, calls r p o → r.Binds s p o)
    (h : Cmd.Ends s strict calls (.expect .kwIf ++ condition ++ .call .statement) p (.done q)) :
    ∃ branch test close op word, q.draft.items =
        branch :: .leaf .rparen close :: test :: .leaf .lparen op :: .leaf .kwIf word ::
          p.draft.items ∧
      branch.isStatement = true ∧ test.nodeKind?.isSome = true ∧
      (branch.Dangles → s.kindAt q.index ≠ .kwElse) := by
  obtain ⟨m₄, h, hbranch⟩ := h.seq_done
  obtain ⟨m₁, hword, hcondition⟩ := h.seq_done
  obtain ⟨m₃, hcondition, hclose⟩ := hcondition.seq_done
  obtain ⟨m₂, hopen, htest⟩ := hcondition.seq_done
  obtain ⟨word, hword⟩ := hword.expect_items hs
  obtain ⟨op, hopen⟩ := hopen.expect_items hs
  obtain ⟨m, test, kind, -, hitems, hkind, -, rfl⟩ := htest.of_call hcalls (by simp)
  obtain ⟨close, hclose⟩ := hclose.expect_items hs
  obtain ⟨branch, hbranch, hstatement, hdangles⟩ := hbranch.called_statement hbinds
  refine ⟨branch, test, close, op, word, ?_, hstatement, by simp [hkind], hdangles⟩
  simp [hbranch, hclose, hopen, hword, Draft.adopt, hitems]

theorem Grammar.ifStatement_ends (hs : ∀ i, (s.tokenAt i).kind = s.kindAt i)
    (hcalls : ∀ r p o, calls r p o → Rule.Ends s strict r p o)
    (hbinds : ∀ r p o, calls r p o → r.Binds s p o) (hp : p.draft.items = [])
    (h : Cmd.Ends s strict calls ifStatement p (.done q)) :
    ∃ t, q.draft.items = [t] ∧ t.nodeKind? = some .ifStatement ∧ t.Bound ∧
      (t.Dangles → s.kindAt q.index ≠ .kwElse) := by
  obtain ⟨m₂, h, hclose⟩ := h.seq_done
  obtain ⟨m₁, hhead, hrest⟩ := h.seq_done
  obtain ⟨branch, test, close, op, word, hhead, hbranch, htest, hfree⟩ :=
    ifHead_items hs hcalls hbinds hhead
  obtain rfl := hclose.of_close
  rw [hp] at hhead
  obtain ⟨testKind, testSpan, testItems, rfl⟩ := Tree.exists_node htest
  obtain ⟨branchKind, branchSpan, branchItems, rfl⟩ :=
    Tree.exists_node (Tree.nodeKind?_isSome hbranch)
  obtain ⟨answer, helse, hrest⟩ := hrest.ite_done
  rw [Guard.allows_test, Test.here, Test.holds, KindSet.contains_single] at helse
  cases answer with
  | false =>
    -- There is no `else`, and none stands behind.
    obtain rfl := hrest.of_skip
    refine ⟨_, rfl, rfl, fun _ htoken => ?_, fun _ => of_decide_eq_false helse⟩
    simp [Tree.hasToken, Tree.build, Tree.children, Draft.forest, hhead, Tree.tokenKind?] at htoken
  | true =>
    have helse : s.kindAt m₁.index = .kwElse := of_decide_eq_true helse
    obtain ⟨m, hword, hother⟩ := hrest.seq_done
    obtain ⟨-, rfl⟩ := hword.of_shift
    obtain ⟨other, hitems, hother, hdangles⟩ := hother.called_statement hbinds
    have hword : (s.tokenAt m₁.index).kind = .kwElse := (hs _).trans helse
    simp only [Draft.push, hhead, hword] at hitems
    refine ⟨_, rfl, rfl, fun _ _ => ⟨_, ?_, Tree.not_dangles_iff.1 fun h => hfree h helse⟩, ?_⟩
    · simp [Tree.thenBranch?, Tree.childNodes, Tree.build, Tree.children, Draft.forest, hitems,
        Tree.nodeKind?]
    · intro h
      rw [Draft.forest, hitems] at h
      obtain ⟨-, hnone⟩ | h := h.part (Tree.lastStatement?_build hother)
      · simp [Tree.hasToken, Tree.build, Tree.children, Tree.tokenKind?] at hnone
      · exact hdangles h

theorem Rule.statement_cases (hr : r.makesStatement = true) :
    r = .statement ∨ r = .labeledStatement ∨ r = .ifStatement ∨ r = .whileStatement ∨
      r = .forStatement ∨
      r.body.closesWith (fun kind => kind.isStatement && !kind.isTailed) = true := by
  rw [makesStatement, Bool.or_eq_true, beq_iff_eq, List.contains_iff_mem] at hr
  obtain rfl | hr := hr
  · exact .inl rfl
  · revert r
    decide

theorem Cmd.Ends.binds_plain
    (hc : c.closesWith (fun kind => kind.isStatement && !kind.isTailed) = true)
    (h : Cmd.Ends s strict calls c p (.done q)) :
    ∃ t, q.draft.items = [t] ∧ t.isStatement = true ∧
      (t.Dangles → s.kindAt q.index ≠ .kwElse) := by
  obtain ⟨t, kind, hitems, hkind, hplain⟩ := h.of_closesWith hc
  rw [Bool.and_eq_true, Bool.not_eq_true'] at hplain
  exact ⟨t, hitems, by simp [Tree.isStatement, hkind, hplain.1],
    fun hdangles => absurd hdangles (Tree.not_dangles_of_kind hkind hplain.2)⟩

/-- Every statement binds. -/
theorem Rule.Ends.binds (hs : ∀ i, (s.tokenAt i).kind = s.kindAt i)
    (h : Rule.Ends s strict r p o) : r.Binds s p o := by
  refine h.induct (R := Rule.Binds s) ?_
  rintro r p _ h q rfl hr hp
  obtain rfl | rfl | rfl | rfl | rfl | hplain := Rule.statement_cases hr
  · obtain ⟨r, hdecide, hcall⟩ := h.of_dispatch
    have hmem := Table.mem_rules_of_decide hdecide
    exact hcall.2 q rfl (by simp [makesStatement, hmem]) hp
  · exact h.binds_tail (fun _ _ _ h => h.2) rfl (by simp)
  · obtain ⟨t, hitems, hkind, -, hdangles⟩ := Grammar.ifStatement_ends hs
      (fun _ _ _ h => h.1) (fun _ _ _ h => h.2) (by rw [hp]; rfl) h
    exact ⟨t, hitems, by simp [Tree.isStatement, hkind, NodeKind.isStatement], hdangles⟩
  · exact h.binds_tail (fun _ _ _ h => h.2) rfl (by simp)
  · obtain ⟨m, -, h⟩ := h.seq_done
    obtain ⟨answer, -, h⟩ := h.ite_done
    cases answer with
    | true => exact h.binds_tail (fun _ _ _ h => h.2) rfl (by simp)
    | false => exact h.binds_tail (fun _ _ _ h => h.2) rfl (by simp)
  · exact h.binds_plain hplain

end

/-- If statements are made by their rule, and by those that leave the draft to it. -/
def Concern.ifStatements : Concern :=
  ⟨(· == .ifStatement), ([.ifStatement, .statement, .blockStatement] : List Rule).contains⟩

theorem Rule.spares_ifStatements {r : Rule} (h : Concern.ifStatements.makes r = false) :
    r.body.spares .ifStatements = true := by
  revert r
  decide

theorem Tree.bound_of_kind {n : Tree} {kind : NodeKind} (hn : n.nodeKind? = some kind)
    (hkind : Concern.ifStatements.concerns kind = false) : n.Bound := by
  intro hif
  cases hn.symm.trans hif
  cases hkind

section
variable {s : TokenStream} {strict : Bool} {i : Nat} {q : Place} {r : Rule}

theorem Rule.each_bound (hs : ∀ i, (s.tokenAt i).kind = s.kindAt i)
    (hr : Concern.ifStatements.makes r = true)
    (h : Cmd.Ends s strict (fun r p o => Rule.Ends s strict r p o ∧
      r.Keeps s .ifStatements Tree.Bound p o) r.body (s.fresh i) (.done q)) :
    q.draft.Each Tree.Bound := by
  have hempty : (s.fresh i).draft.Each Tree.Bound := Draft.each_empty _
  have hkeeps (r : Rule) (h : Rule.Ends s strict r (s.fresh i) (.done q) ∧
      r.Keeps s .ifStatements Tree.Bound (s.fresh i) (.done q)) : q.draft.Each Tree.Bound :=
    h.2 q rfl hempty fun _ => rfl
  have hspared {c : Cmd} (hc : c.spares .ifStatements = true)
      (h : Cmd.Ends s strict (fun r p o => Rule.Ends s strict r p o ∧
        r.Keeps s .ifStatements Tree.Bound p o) c (s.fresh i) (.done q)) :
      q.draft.Each Tree.Bound :=
    h.each (fun _ _ => Tree.bound_of_kind) (fun _ _ _ h => h.2) hc hempty
  have hr : r ∈ [ifStatement, statement, blockStatement] := List.contains_iff_mem.1 hr
  simp only [List.mem_cons, List.not_mem_nil, or_false] at hr
  obtain rfl | rfl | rfl := hr
  · refine h.each_of_roots (fun _ _ => Tree.bound_of_kind) (fun _ _ _ h => h.2) (by decide)
      hempty fun t ht => ?_
    obtain ⟨u, hitems, -, hbound, -⟩ := Grammar.ifStatement_ends hs (fun _ _ _ h => h.1)
      (fun _ _ _ h => h.1.binds hs) rfl h
    rw [hitems, List.mem_singleton] at ht
    exact ht ▸ hbound
  · obtain ⟨r, -, h⟩ := h.of_dispatch
    exact hkeeps r h
  · obtain ⟨answer, -, h⟩ := h.ite_done
    cases answer with
    | true => exact hspared (by decide) h
    | false =>
      obtain ⟨answer, -, h⟩ := h.ite_done
      cases answer with
      | true => exact hspared (by decide) h
      | false =>
        cases h with
        | jump h => exact hkeeps _ h

end

/-- In the tree of any parse an `else` belongs to the last if statement before it that can have it:
the then-branch in front of it ends with no if statement that has none. -/
theorem bound_of_parse {ts : TokenList} {options : ParseOptions} {e : Entry} {t : Tree}
    (h : parse e ts options = .ok t) : ∀ n ∈ t.nodes, n.Bound :=
  parse_each (c := .ifStatements) (fun _ _ => Tree.bound_of_kind)
    (fun _ => Rule.spares_ifStatements)
    (fun _ _ _ hr h => Rule.each_bound (TokenStream.kind_tokenAt_ofList ts) hr h) h

/-- `if (a) l: while (b) if (c) ; else ; else ;` -/
def buriedElse : TokenList where
  source := "if (a) l: while (b) if (c) ; else ; else ;"
  tokens := #[⟨.kwIf, ⟨0, 2⟩, ⟨1, 1⟩⟩, ⟨.lparen, ⟨3, 4⟩, ⟨1, 4⟩⟩, ⟨.ident, ⟨4, 5⟩, ⟨1, 5⟩⟩,
    ⟨.rparen, ⟨5, 6⟩, ⟨1, 6⟩⟩, ⟨.ident, ⟨7, 8⟩, ⟨1, 8⟩⟩, ⟨.colon, ⟨8, 9⟩, ⟨1, 9⟩⟩,
    ⟨.kwWhile, ⟨10, 15⟩, ⟨1, 11⟩⟩, ⟨.lparen, ⟨16, 17⟩, ⟨1, 17⟩⟩, ⟨.ident, ⟨17, 18⟩, ⟨1, 18⟩⟩,
    ⟨.rparen, ⟨18, 19⟩, ⟨1, 19⟩⟩, ⟨.kwIf, ⟨20, 22⟩, ⟨1, 21⟩⟩, ⟨.lparen, ⟨23, 24⟩, ⟨1, 24⟩⟩,
    ⟨.ident, ⟨24, 25⟩, ⟨1, 25⟩⟩, ⟨.rparen, ⟨25, 26⟩, ⟨1, 26⟩⟩, ⟨.semi, ⟨27, 28⟩, ⟨1, 28⟩⟩,
    ⟨.kwElse, ⟨29, 33⟩, ⟨1, 30⟩⟩, ⟨.semi, ⟨34, 35⟩, ⟨1, 35⟩⟩, ⟨.kwElse, ⟨36, 40⟩, ⟨1, 37⟩⟩,
    ⟨.semi, ⟨41, 42⟩, ⟨1, 42⟩⟩, ⟨.eof, ⟨42, 42⟩, ⟨1, 43⟩⟩]

/-- `if (c) ; else ;` -/
def buriedIf : Tree :=
  .node .ifStatement ⟨20, 35⟩
    [.leaf .kwIf ⟨20, 22⟩, .leaf .lparen ⟨23, 24⟩, .node .name ⟨24, 25⟩ [.leaf .ident ⟨24, 25⟩],
      .leaf .rparen ⟨25, 26⟩, .node .emptyStatement ⟨27, 28⟩ [.leaf .semi ⟨27, 28⟩],
      .leaf .kwElse ⟨29, 33⟩, .node .emptyStatement ⟨34, 35⟩ [.leaf .semi ⟨34, 35⟩]]

def buriedLoop : Tree :=
  .node .whileStatement ⟨10, 35⟩
    [.leaf .kwWhile ⟨10, 15⟩, .leaf .lparen ⟨16, 17⟩,
      .node .name ⟨17, 18⟩ [.leaf .ident ⟨17, 18⟩], .leaf .rparen ⟨18, 19⟩, buriedIf]

def buriedLabel : Tree :=
  .node .labeledStatement ⟨7, 35⟩ [.leaf .ident ⟨7, 8⟩, .leaf .colon ⟨8, 9⟩, buriedLoop]

def buriedElseTree : Tree :=
  .node .ifStatement ⟨0, 42⟩
    [.leaf .kwIf ⟨0, 2⟩, .leaf .lparen ⟨3, 4⟩, .node .name ⟨4, 5⟩ [.leaf .ident ⟨4, 5⟩],
      .leaf .rparen ⟨5, 6⟩, buriedLabel, .leaf .kwElse ⟨36, 40⟩,
      .node .emptyStatement ⟨41, 42⟩ [.leaf .semi ⟨41, 42⟩]]

/-- The first `else` belongs to the inner if statement, at the end of a labeled loop, and so the
second one is left for the outer one. -/
theorem bound_buriedElse :
    parse .statement buriedElse = .ok buriedElseTree ∧ buriedElseTree ∈ buriedElseTree.nodes ∧
      buriedElseTree.hasToken .kwElse = true ∧ buriedElseTree.thenBranch? = some buriedLabel ∧
      buriedLabel.EndsWith buriedIf ∧ buriedElseTree.Bound := by
  have hparse : parse .statement buriedElse = .ok buriedElseTree := by
    rw [parse_eq_ok, Session.run_eq]
    decide +kernel
  have hroot : buriedElseTree ∈ buriedElseTree.nodes := by
    rw [Tree.nodes_eq]
    exact List.mem_cons_self
  exact ⟨hparse, hroot, rfl, rfl, .last rfl rfl rfl (.last rfl rfl rfl (.refl _)),
    bound_of_parse hparse _ hroot⟩

end JavaSyntax
