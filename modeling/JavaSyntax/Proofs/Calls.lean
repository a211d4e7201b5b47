import JavaSyntax.Proofs.Items

/-!
# Calls

Expressions become the arguments of a call as they are: between the commas of a call each of them
is parsed to what it is parsed to by itself.
-/

namespace JavaSyntax

/-- Where the name of a call, its parentheses and its commas stand in the source. A comma is known
by the number of arguments behind it. -/
structure Call where
  name : Span
  lparen : Span
  rparen : Span
  commas : Nat → Span

namespace Call

def argumentTokens (c : Call) (parts : List (List (TokenKind × Span))) : List (TokenKind × Span) :=
  separatedBy (fun k => (.comma, c.commas k)) parts

def tokens (c : Call) (parts : List (List (TokenKind × Span))) : List (TokenKind × Span) :=
  (.ident, c.name) :: (.lparen, c.lparen) :: (c.argumentTokens parts ++ [(.rparen, c.rparen)])

/-- The arguments with the leaves of the commas between them. -/
def items (c : Call) (arguments : List Tree) : Forest :=
  separatedBy (fun k => .leaf .comma (c.commas k)) (arguments.map ([·]))

def argumentList (c : Call) (arguments : List Tree) : Tree :=
  .build .argumentList c.lparen.start
    (.leaf .lparen c.lparen :: (c.items arguments ++ [.leaf .rparen c.rparen]))

def nameNode (c : Call) : Tree := .build .name c.name.start [.leaf .ident c.name]

def tree (c : Call) (arguments : List Tree) : Tree :=
  .build .methodInvocation c.name.start [c.nameNode, c.argumentList arguments]

end Call

/-- The tokens, with the end of the source behind them, are parsed to the tree as an expression. -/
def ParsedAlone (es : List (TokenKind × Span)) (u : Tree) : Prop :=
  (∀ e ∈ es, e.1 ≠ .eof) ∧
    ∃ ts options, TokenList.Lists ts es ∧ parse .expression ts options = .ok u

namespace TokenStream
variable {t : TokenStream} {c : Call} {b e : Nat} {us : List Tree}

/-- From index `b` on up to a closing parenthesis at `e` arguments with commas between them stand
in the stream. -/
def Arguments (t : TokenStream) (c : Call) (us : List Tree) (b e : Nat) : Prop :=
  t.kindAt e = .rparen ∧ (us = [] ∧ e = b ∨ t.Items [.expression] c.commas us b e)

theorem Items.separated (ht : t.Regular) (h : t.Items [.expression] c.commas us b e)
    (hclose : t.kindAt e = .rparen) (d : Draft) :
    Cmd.Ends t false (Rule.Ends t false) (.separated .comma (.call .expression)) ⟨b, d⟩
      (.done ⟨e, d.append (c.items us)⟩) := by
  refine h.read ht (by simp [Rule.isItem_expression]) ?_ ?_ (.inl (by rw [hclose]; rfl)) ?_ d
  · intro r hr b n u h hend d
    obtain rfl := List.mem_singleton.1 hr
    exact h.call Rule.isItem_expression hend d
  · intro r hr b n u hcomma _ d
    simp [Test.here, Test.holds, hcomma]
  · intro d
    simp [Test.here, Test.holds, hclose]

theorem Arguments.argumentList (ht : t.Regular) (h : t.Arguments c us (b + 1) e)
    (hopen : (t.tokenAt b).entry = (.lparen, c.lparen))
    (hclose : (t.tokenAt e).entry = (.rparen, c.rparen)) :
    Rule.Ends t false .argumentList (t.fresh b)
      (.done ⟨e + 1, { start := c.lparen.start, items := [c.argumentList us] }⟩) := by
  have hstart : t.fresh b = ⟨b, { start := c.lparen.start }⟩ := by
    rw [fresh, show (t.tokenAt b).span = c.lparen from congrArg Prod.snd hopen]
  rw [hstart]
  let d : Draft := { start := c.lparen.start, items := [.leaf .lparen c.lparen] }
  have hitems : Cmd.Ends t false (Rule.Ends t false)
      (.opt (.test (.neg (.here .rparen))) (.separated .comma (.call .expression))) ⟨b + 1, d⟩
      (.done ⟨e, d.append (c.items us)⟩) := by
    obtain ⟨hkind, ⟨rfl, rfl⟩ | h⟩ := h
    · exact (Cmd.Ends.ite_no (by simp [Test.here, Test.holds, hkind])).2 .skip
    · refine (Cmd.Ends.ite_yes ?_).2 (h.separated ht hkind d)
      obtain ⟨r, hr, n, u, hfirst⟩ := h.exists_first
      obtain rfl := List.mem_singleton.1 hr
      have hne : t.kindAt (b + 1) ≠ .rparen := fun hkind => by
        have hopen := hfirst.start_open Rule.isItem_expression
        rw [hkind] at hopen
        cases hopen
      simpa [Test.here, Test.holds] using hne
  have hclosed : ((d.append (c.items us)).push (.leaf .rparen c.rparen)).close .argumentList =
      { start := c.lparen.start, items := [c.argumentList us] } := by
    simp [d, Draft.close, Draft.append, Draft.forest, Call.argumentList]
  rw [← hclosed]
  exact .body (.seq (.seq (.seq (.expect_entry ht hopen (by decide)) hitems)
    (.expect_entry ht hclose (by decide))) .close)

end TokenStream

section
variable {t : TokenStream} {c : Call} {b e : Nat} {us : List Tree}
  {parts : List (List (TokenKind × Span))}

theorem Rule.Ends.name_of_call (ht : t.Regular) (hname : (t.tokenAt 0).entry = (.ident, c.name))
    (hopen : t.kindAt 1 = .lparen) :
    Rule.Ends t false .name (t.fresh 0)
      (.done ⟨1, { start := c.name.start, items := [c.nameNode] }⟩) := by
  have hstart : t.fresh 0 = ⟨0, { start := c.name.start }⟩ := by
    rw [TokenStream.fresh, show (t.tokenAt 0).span = c.name from congrArg Prod.snd hname]
  rw [hstart]
  exact .body (.seq (.seq (.expect_entry ht hname (by decide))
    (.of_idle (v := { ahead := [.single .lparen] }) (by decide)
      (Outlook.holds_ahead_one (by simp [hopen])))) .close)

/-- A name with arguments in parentheses behind it is a primary. -/
theorem Rule.Fills.primary_of_call (ht : t.Regular) (hargs : t.Arguments c us 2 e)
    (hname : (t.tokenAt 0).entry = (.ident, c.name))
    (hopen : (t.tokenAt 1).entry = (.lparen, c.lparen))
    (hclose : (t.tokenAt e).entry = (.rparen, c.rparen)) (hend : t.kindAt (e + 1) = .eof) :
    Rule.primary.Fills t (e + 1) (c.tree us) := by
  have hlparen := ht.kindAt_eq hopen
  have hread := Rule.Ends.name_of_call ht hname hlparen
  have hlist := hargs.argumentList (b := 1) ht hopen hclose
  have hrest : Grammar.nameRest.Fills t (e + 1) (c.tree us) := by
    refine ⟨ht.closed, hend, _, .seq (.nest (.jump hread)) ((Cmd.Ends.ite_yes ?_).2
      (.seq (.nest (.jump hlist)) .wrap)), rfl⟩
    simp [Test.here, Test.holds, hlparen]
  refine Rule.Fills.primary_of_nameRest hrest (ht.kindAt_eq hname) ?_
  have hname : t.nameEnd 0 = 1 := hread.nameEnd_eq.2
  rw [hname, hlparen]
  decide

theorem ParsedAlone.accepts {es : List (TokenKind × Span)} {u : Tree} (h : ParsedAlone es u) :
    Rule.expression.Accepts es u :=
  h

theorem ParsedAlone.nodes (h : List.Forall₂ ParsedAlone parts us) :
    ∀ u ∈ us, u.nodeKind?.isSome = true := by
  induction h with
  | nil => simp
  | cons h _ ih => exact List.forall_mem_cons.2 ⟨h.accepts.node (by simp), ih⟩

theorem Call.childNodes_argumentList (c : Call) (hus : ∀ u ∈ us, u.nodeKind?.isSome = true) :
    (c.argumentList us).childNodes = us := by
  change (Tree.leaf .lparen c.lparen :: (itemForest c.commas us ++ [.leaf .rparen c.rparen])).filter
    (fun u => u.nodeKind?.isSome) = us
  rw [List.filter_cons_of_neg (by simp [Tree.nodeKind?]), List.filter_append,
    filter_itemForest hus]
  exact List.append_nil us

/-- Tokens of expressions with commas between them are arguments before a parenthesis. -/
theorem TokenStream.arguments_of_parts (ht : t.Regular)
    (hparts : List.Forall₂ ParsedAlone parts us)
    (hread : t.reading b (c.argumentTokens parts).length = c.argumentTokens parts)
    (hclose : t.kindAt (b + (c.argumentTokens parts).length) = .rparen) :
    t.Arguments c us b (b + (c.argumentTokens parts).length) := by
  refine ⟨hclose, ?_⟩
  cases hparts with
  | nil => exact .inl ⟨rfl, rfl⟩
  | cons h hrest =>
    refine .inr (.of_parts ht (by simp [Rule.isItem_expression])
      ((List.Forall₂.cons h hrest).imp fun _ _ h => ⟨_, List.mem_singleton_self _, h.accepts⟩)
      (by simp) hread ?_)
    have hlt := TokenStream.lt_length_of_kindAt (by rw [hclose]; simp)
    rw [TokenStream.lastIndex]
    exact Nat.le_sub_one_of_lt hlt

end

/-- Expressions make a call: where tokens are parsed as expressions by themselves, they are parsed
as the arguments of a call, and to the same trees, if the budget is enough. -/
theorem parse_call (c : Call) {parts : List (List (TokenKind × Span))} {us : List Tree}
    {ts : TokenList} {options : ParseOptions} (hparts : List.Forall₂ ParsedAlone parts us)
    (hts : ts.Lists (c.tokens parts))
    (hin : ∀ err, parse .expression ts options = .error err → err.InBudget) :
    parse .expression ts options = .ok (c.tree us) ∧ (c.argumentList us).childNodes = us ∧
      (c.tree us).tokens = c.tokens parts := by
  have ht := hts.regular
  have hread := hts.reading
  obtain ⟨hname, hread⟩ := TokenStream.reading_eq_cons.1 hread
  obtain ⟨hopen, hread⟩ := TokenStream.reading_eq_cons.1 hread
  obtain ⟨hargs, hread⟩ := TokenStream.reading_eq_append.1 hread
  obtain ⟨hclose, -⟩ := TokenStream.reading_eq_cons.1 hread
  have hlength : 0 + 1 + 1 + (c.argumentTokens parts).length + 1 = (c.tokens parts).length := by
    simp [Call.tokens]
    omega
  have harguments := TokenStream.arguments_of_parts ht hparts hargs (ht.kindAt_eq hclose)
  have hprimary := Rule.Fills.primary_of_call ht harguments hname hopen hclose
    (hts.kindAt_end (Nat.le_of_eq hlength.symm))
  rw [hlength] at hprimary
  refine ⟨parse_of_fills (e := .expression) hprimary.expression_of_primary hin,
    c.childNodes_argumentList (ParsedAlone.nodes hparts), ?_⟩
  rw [hprimary.tokens_eq, hts.reading]

/-- `a < b` and `c > d` as arguments. -/
def lessArgument : List (TokenKind × Span) :=
  [(.ident, ⟨2, 3⟩), (.less, ⟨4, 5⟩), (.ident, ⟨6, 7⟩)]

def lessArgumentTree : Tree :=
  .node (.binary .less) ⟨2, 7⟩ [.node .name ⟨2, 3⟩ [.leaf .ident ⟨2, 3⟩], .leaf .less ⟨4, 5⟩,
    .node .name ⟨6, 7⟩ [.leaf .ident ⟨6, 7⟩]]

def greaterArgument : List (TokenKind × Span) :=
  [(.ident, ⟨9, 10⟩), (.greater, ⟨11, 12⟩), (.ident, ⟨13, 14⟩)]

def greaterArgumentTree : Tree :=
  .node (.binary .greater) ⟨9, 14⟩ [.node .name ⟨9, 10⟩ [.leaf .ident ⟨9, 10⟩],
    .leaf .greater ⟨11, 12⟩, .node .name ⟨13, 14⟩ [.leaf .ident ⟨13, 14⟩]]

def relationsCall : TokenList where
  source := "f(a < b, c > d)"
  tokens := #[⟨.ident, ⟨0, 1⟩, ⟨1, 1⟩⟩, ⟨.lparen, ⟨1, 2⟩, ⟨1, 2⟩⟩, ⟨.ident, ⟨2, 3⟩, ⟨1, 3⟩⟩,
    ⟨.less, ⟨4, 5⟩, ⟨1, 5⟩⟩, ⟨.ident, ⟨6, 7⟩, ⟨1, 7⟩⟩, ⟨.comma, ⟨7, 8⟩, ⟨1, 8⟩⟩,
    ⟨.ident, ⟨9, 10⟩, ⟨1, 10⟩⟩, ⟨.greater, ⟨11, 12⟩, ⟨1, 12⟩⟩, ⟨.ident, ⟨13, 14⟩, ⟨1, 14⟩⟩,
    ⟨.rparen, ⟨14, 15⟩, ⟨1, 15⟩⟩, ⟨.eof, ⟨15, 15⟩, ⟨1, 16⟩⟩]

def relationsCallTree : Tree :=
  .node .methodInvocation ⟨0, 15⟩
    [.node .name ⟨0, 1⟩ [.leaf .ident ⟨0, 1⟩], .node .argumentList ⟨1, 15⟩
      [.leaf .lparen ⟨1, 2⟩, lessArgumentTree, .leaf .comma ⟨7, 8⟩, greaterArgumentTree,
        .leaf .rparen ⟨14, 15⟩]]

/-- The relations are two arguments, and no type arguments. -/
theorem parse_call_relations :
    ParsedAlone lessArgument lessArgumentTree ∧ ParsedAlone greaterArgument greaterArgumentTree ∧
      parse .expression relationsCall = .ok relationsCallTree := by
  let c : Call := ⟨⟨0, 1⟩, ⟨1, 2⟩, ⟨14, 15⟩, fun _ => ⟨7, 8⟩⟩
  have hless : Rule.expression.Accepts lessArgument lessArgumentTree := by
    refine .of_reads (by decide) ?_
    rw [Session.run_eq]
    decide +kernel
  have hgreater : Rule.expression.Accepts greaterArgument greaterArgumentTree := by
    refine .of_reads (by decide) ?_
    rw [Session.run_eq]
    decide +kernel
  have hok : ((Session.start relationsCall {}).run Entry.expression.rule).1.toBool = true ∧
      ((Session.start relationsCall {}).run Entry.expression.rule).2.expectEnd = .ok () := by
    rw [Session.run_eq]
    decide +kernel
  have hlists : relationsCall.Lists (c.tokens [lessArgument, greaterArgument]) := ⟨⟨15, 15⟩, rfl⟩
  exact ⟨hless, hgreater, (parse_call c (.cons hless (.cons hgreater .nil)) hlists
    (parse_inBudget_of_reads hok)).1⟩

end JavaSyntax
