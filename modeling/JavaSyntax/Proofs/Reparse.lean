import JavaSyntax.Proofs.Whole

/-!
# Reparsing

The tokens of an expression, with the end of the source behind them, make the same expression
again. It has been read by a rule or by some passes of a loop. These are firm, so they read as
much in the shorter source, and what longer expressions look for is not there.
-/

namespace JavaSyntax

/-- The tokens of the list have these kinds and spans, up to the end of the source. -/
def TokenList.Lists (ts : TokenList) (es : List (TokenKind × Span)) : Prop :=
  ∃ span, ts.tokens.toList.map Token.entry = es ++ [(.eof, span)]

namespace TokenList.Lists
variable {ts : TokenList} {es : List (TokenKind × Span)} {k : Nat}

theorem size (h : ts.Lists es) : ts.tokens.size = es.length + 1 := by
  obtain ⟨span, h⟩ := h
  simpa using congrArg List.length h

theorem entry (h : ts.Lists es) (hk : k < es.length) :
    ((TokenStream.ofList ts).tokenAt k).entry = es[k] := by
  have hsize := h.size
  obtain ⟨span, h⟩ := h
  have hin : k < ts.tokens.size := by omega
  have hentry := congrArg (fun entries => entries[k]?) h
  simpa [TokenStream.tokenAt, hin, hk, List.getElem?_append_left] using hentry

theorem kindAt_end (h : ts.Lists es) (hk : es.length ≤ k) :
    (TokenStream.ofList ts).kindAt k = .eof := by
  have hsize := h.size
  rcases Nat.lt_or_eq_of_le hk with hlt | rfl
  · refine TokenStream.kindAt_of_length_le ?_
    change ts.tokens.size ≤ k
    omega
  · obtain ⟨span, h⟩ := h
    have hin : es.length < ts.tokens.size := by omega
    have hentry := congrArg (fun entries => entries[es.length]?.map Prod.fst) h
    rw [← TokenStream.kind_tokenAt_ofList]
    simpa [TokenStream.tokenAt, hin, Token.entry] using hentry

theorem regular (h : ts.Lists es) : (TokenStream.ofList ts).Regular := by
  refine TokenStream.regular_ofList ?_
  have hsize := h.size
  have hend := h.kindAt_end (Nat.le_refl _)
  have hin : es.length < ts.tokens.size := by omega
  rw [← TokenStream.kind_tokenAt_ofList] at hend
  rw [Array.back?_eq_getElem?, hsize, Nat.add_sub_cancel]
  simpa [TokenStream.tokenAt, hin] using hend

theorem lastIndex (h : ts.Lists es) : (TokenStream.ofList ts).lastIndex = es.length := by
  change ts.tokens.size - 1 = es.length
  rw [h.size, Nat.add_sub_cancel]

end TokenList.Lists

/-- The tokens of the list are those of the tree, up to the end of the source. -/
def TokenList.Spells (ts : TokenList) (t : Tree) : Prop :=
  ∃ span, ts.tokens.toList.map Token.entry = t.tokens ++ [(.eof, span)]

theorem TokenList.Spells.lists {ts : TokenList} {t : Tree} (h : ts.Spells t) :
    ts.Lists t.tokens := h

section
variable {s : TokenStream} {c : Cmd} {i : Nat} {q : Place} {t : Tree} {ts : TokenList}

/-- The command has read the tokens from the index on, and made one tree of them. -/
structure Cmd.Made (s : TokenStream) (c : Cmd) (i : Nat) (q : Place) (t : Tree) : Prop where
  ends : Cmd.Ends s false (Rule.Ends s false) c (s.fresh i) (.done q)
  items : q.draft.items = [t]
  lt : i < q.index
  reading : ({} : Reading).Holds s i q.index

namespace Cmd.Made

theorem tokens_eq (h : c.Made s i q t) : t.tokens = s.reading i (q.index - i) := by
  have hleaves := (h.ends.covers fun _ _ _ h => h.covers).leaves q rfl
  rw [Tree.tokens_eq_leaves]
  simpa [Draft.forest, h.items, Tree.forestLeaves, TokenStream.fresh] using hleaves

theorem index_eq (h : c.Made s i q t) : q.index = i + t.tokens.length := by
  have hlt := h.lt
  rw [h.tokens_eq]
  simp only [TokenStream.reading, List.length_map, List.length_range']
  omega

theorem window (h : c.Made s i q t) (hs : s.Regular) (hts : ts.Spells t) :
    Window s (.ofList ts) i 0 t.tokens.length where
  left := hs
  right := hts.lists.regular
  left_le := by
    have hindex := h.index_eq
    have hcovers := h.ends.covers fun _ _ _ h => h.covers
    have hstart : i ≤ s.lastIndex := by
      have hkind := hcovers.kind_ne i (Nat.le_refl i) h.lt
      rw [hs.kind_eq] at hkind
      refine Nat.le_of_not_lt fun hlt => hkind (TokenStream.kindAt_of_length_le ?_)
      rw [TokenStream.lastIndex] at hlt
      omega
    rw [← hindex]
    exact hcovers.le_lastIndex hs.closed hstart
  right_le := Nat.le_of_eq (by rw [hts.lists.lastIndex, Nat.zero_add])
  entry_eq := by
    intro k hk
    rw [Nat.zero_add, hts.lists.entry hk]
    simp [h.tokens_eq, TokenStream.reading]
  settled := by
    intro k hk
    have hplain := h.reading.settled rfl h.lt
    have hlast : q.index - 1 = i + k := by
      have hindex := h.index_eq
      omega
    rwa [hlast] at hplain

/-- A firm command makes the same tree of a list that spells it. -/
theorem fills (h : c.Made s i q t) (hs : s.Regular) (hpaced : c.paced = true)
    (hfirm : c.firm .ended {} 0 = true) (hts : ts.Spells t) :
    c.Fills (.ofList ts) t.tokens.length t := by
  have w := h.window hs hts
  have hindex := h.index_eq
  have hq : q = ⟨i + t.tokens.length, q.draft⟩ := by rw [← hindex]
  have hends := h.ends
  rw [hq] at hends
  have hend : ∀ m, t.tokens.length ≤ m → (TokenStream.ofList ts).kindAt (0 + m) = .eof := by
    intro m hm
    rw [Nat.zero_add]
    exact hts.lists.kindAt_end hm
  have hruns : w.Runs .ended 0 c 0 t.tokens.length (s.fresh i).draft q.draft :=
    ⟨Nat.le_refl _, fun _ _ _ => hend, fun h => absurd h (by simp), hends⟩
  have hpos : 0 < t.tokens.length := by
    have hlt := h.lt
    omega
  have hfilled := Cmd.carriesBelow _ w (Nat.lt_succ_self _) hpaced hfirm
    (Outlook.holds_bottom _) hruns
  have hfresh : (TokenStream.ofList ts).fresh 0 = ⟨0 + 0, (s.fresh i).draft⟩ :=
    w.fresh_eq (k := 0) hpos
  rw [← hfresh, Nat.zero_add] at hfilled
  exact ⟨hts.lists.regular.closed, hts.lists.kindAt_end (Nat.le_refl _), q.draft, hfilled, h.items⟩

end Cmd.Made

end

/-- An expression is read again from its own tokens. -/
def Tree.Reparses (t : Tree) : Prop :=
  ∀ kind, t.nodeKind? = some kind → kind.isExpression = true → ∀ ts : TokenList, ts.Spells t →
    Rule.expression.Fills (.ofList ts) t.tokens.length t

def Rule.makesExpression : Rule → Bool
  | name | elementValue | expression | conditional | binary _ | unary | primary | lambda => true
  | _ => false

def Concern.expressions : Concern := ⟨NodeKind.isExpression, Rule.makesExpression⟩

theorem Rule.spares_expressions {r : Rule} (h : r.makesExpression = false) :
    r.body.spares .expressions = true := by
  revert r
  decide

/-- The command makes a node of concern at most once, of all that it has read. -/
def Cmd.tails (c : Concern) : Cmd → Bool
  | close _ | wrap _ => true
  | seq a b => a.spares c && b.tails c
  | ite _ a b => a.tails c && b.tails c
  | a => a.spares c

section
variable {s : TokenStream} {strict : Bool} {calls : Rule → Place → Ending → Prop} {a : Cmd}
  {p q : Place} {c : Concern} {N : Tree → Prop} {t : Tree}

theorem Tree.Each.child (h : t.Each N) {u : Tree} (hu : u ∈ t.children) : u.Each N := by
  cases t with
  | leaf => cases hu
  | node kind span cs =>
    intro n hn
    refine h n ?_
    rw [Tree.nodes_eq]
    refine List.mem_cons_of_mem _ ?_
    rw [List.filterMap_append]
    exact List.mem_append_left _ (Tree.mem_forestNodes.2 ⟨u, hu, hn⟩)

theorem Tree.each_of_children (h : N t) (hchildren : ∀ u ∈ t.children, u.Each N) : t.Each N := by
  cases t with
  | leaf => exact Tree.each_leaf _ _
  | node => exact Tree.each_node h hchildren

theorem Draft.Each.below_build {d : Draft} (h : d.Each N) {kind : NodeKind} {start : Nat} :
    ∀ t ∈ [Tree.build kind start d.forest], ∀ u ∈ t.children, u.Each N := by
  intro t ht u hu
  rw [List.mem_singleton.1 ht] at hu
  exact h u (List.mem_reverse.1 hu)

theorem Cmd.Ends.each_below
    (hN : ∀ n kind, n.nodeKind? = some kind → c.concerns kind = false → N n)
    (hcalls : ∀ r p o, calls r p o → r.Keeps s c N p o) (ha : a.tails c = true)
    (h : Cmd.Ends s strict calls a p (.done q)) (hp : p.draft.Each N) :
    ∀ t ∈ q.draft.items, ∀ u ∈ t.children, u.Each N := by
  induction a generalizing p with
  | seq a b _ ihb =>
    rw [Cmd.tails, Bool.and_eq_true] at ha
    obtain ⟨m, hfirst, hsecond⟩ := h.seq_done
    exact ihb ha.2 hsecond (hfirst.each hN hcalls ha.1 hp)
  | ite g a b iha ihb =>
    rw [Cmd.tails, Bool.and_eq_true] at ha
    obtain ⟨answer, -, h⟩ := h.ite_done
    cases answer with
    | true => exact iha ha.1 h hp
    | false => exact ihb ha.2 h hp
  | close kind =>
    cases h
    exact hp.below_build
  | wrap kind =>
    cases h
    exact hp.below_build
  | _ =>
    have hq := h.each hN hcalls ha hp
    exact fun t ht u hu => (hq t ht).child hu

theorem Cmd.Ends.each_of_roots
    (hN : ∀ n kind, n.nodeKind? = some kind → c.concerns kind = false → N n)
    (hcalls : ∀ r p o, calls r p o → r.Keeps s c N p o) (ha : a.tails c = true)
    (h : Cmd.Ends s strict calls a p (.done q)) (hp : p.draft.Each N)
    (hroots : ∀ t ∈ q.draft.items, N t) : q.draft.Each N := by
  intro t ht
  exact Tree.each_of_children (hroots t ht) (h.each_below hN hcalls ha hp t ht)

end

theorem Tree.reparses_of_spared {n : Tree} {kind : NodeKind} (hn : n.nodeKind? = some kind)
    (hkind : kind.isExpression = false) : n.Reparses := by
  intro kind' hn' hkind'
  cases hn.symm.trans hn'
  cases hkind.symm.trans hkind'

/-- A derivation of which the rules that are called make expressions that are read again. -/
abbrev Cmd.Yields (s : TokenStream) (strict : Bool) (c : Cmd) (p q : Place) : Prop :=
  Cmd.Ends s strict (fun r p o => Rule.Ends s strict r p o ∧
    r.Keeps s .expressions Tree.Reparses p o) c p (.done q)

section
variable {s : TokenStream} {strict : Bool} {i : Nat} {p q : Place} {c : Cmd} {r : Rule}
  {t : Tree}

namespace Cmd.Yields

theorem relax (h : c.Yields s strict p q) (hc : c.exclusive = true) :
    Cmd.Ends s false (Rule.Ends s false) c p (.done q) :=
  (h.mono fun _ _ _ h => h.1).relax (fun _ _ _ h => h.relax false) hc false

theorem each (h : c.Yields s strict p q) (hc : c.tails .expressions = true)
    (hp : p.draft.Each Tree.Reparses) (hroots : ∀ t ∈ q.draft.items, t.Reparses) :
    q.draft.Each Tree.Reparses :=
  h.each_of_roots (fun _ _ => Tree.reparses_of_spared) (fun _ _ _ h => h.2) hc hp hroots

theorem each_jump (h : Yields s strict (.jump r) (s.fresh i) q) :
    q.draft.Each Tree.Reparses := by
  cases h with
  | jump h => exact h.2 q rfl (Draft.each_empty _) fun _ => rfl

end Cmd.Yields

theorem Rule.firm_ended (hr : r ≠ .compilationUnit) : r.firm .ended = true := by
  have hfirm := r.firmWhereAdmitted_all .ended
  have hadmits : Border.ended.admits r = true := bne_iff_ne.2 hr
  rw [Rule.firmWhereAdmitted, hadmits] at hfirm
  simpa [Border.encloses] using (Bool.and_eq_true_iff.1 hfirm).1

theorem Rule.makesExpression_starts (hr : r.makesExpression = true) :
    r.starts = [] ∧ r.room = 0 ∧ 1 ≤ r.least {} := by
  cases r with
  | name | elementValue | expression | conditional | binary | unary | primary | lambda =>
    decide +revert
  | _ => cases hr

/-- What a rule for expressions leaves is read again, if what it makes is an expression where it is
all of the source. -/
theorem Rule.reparses (hs : s.Regular) (hr : r.makesExpression = true)
    (hlift : ∀ {s n t}, r.Fills s n t → Rule.expression.Fills s n t)
    (h : r.body.Yields s strict (s.fresh i) q) : ∀ t ∈ q.draft.items, t.Reparses := by
  have hends : Rule.Ends s false r (s.fresh i) (.done q) := .body (h.relax r.exclusive_body)
  obtain ⟨hstarts, hroom, hleast⟩ := r.makesExpression_starts hr
  obtain ⟨t, kind, hitems, -, -⟩ := hends.single (by rintro rfl; cases hr) rfl
  have hread : i + r.least {} ≤ q.index := hends.least_le (Outlook.holds_bottom _)
  have hmade : r.body.Made s i q t :=
    ⟨h.relax r.exclusive_body, hitems, by omega,
      hends.reads (fun k ks hk => by simp [hstarts] at hk)⟩
  have hpaced := r.paced_body
  have hfirm := r.firm_ended (by rintro rfl; cases hr)
  rw [Rule.firm, hstarts] at hfirm
  intro u hu
  rw [hitems, List.mem_singleton] at hu
  subst hu
  intro kind' _ _ ts hts
  refine hlift (hmade.fills hs hpaced ?_ hts)
  simpa [Border.room, hroom] using hfirm

end

/-- A loop that a first command and any number of its passes may be cut off from. -/
structure Cmd.Growing (first : Cmd) (u : Test) (body : Cmd) : Prop where
  first_firm : first.firm .ended {} 0 = true
  pass_firm : (ite (.test u) body skip).firm .ended {} 0 = true
  pass_least : (ite (.test u) body skip).least {} = 0
  paced : first.paced = true ∧ body.paced = true
  exclusive : first.exclusive = true ∧ body.exclusive = true
  first_shape : (first.shape .empty).all (·.le (.single 0)) = true
  body_shape : (body.shape (.single 0)).all (·.le (.single 0)) = true
  first_reads : first.reads {} {} = some [{}]
  body_reads : (ite (.test u) body skip).reads {} {} = some [{}]
  first_least : 1 ≤ first.least {}
  tails : first.tails .expressions = true ∧ body.tails .expressions = true

section
variable {s : TokenStream} {strict : Bool} {i : Nat} {m m' q : Place} {first body : Cmd} {u : Test}
  {n : Nat}

namespace Cmd.Growing

theorem passes_firm (h : Growing first u body) (n : Nat) :
    (first.passes u body n).firm .ended {} 0 = true := by
  induction n with
  | zero => exact h.first_firm
  | succ n ih =>
    change (Cmd.seq (first.passes u body n) (.ite (.test u) body .skip)).firm .ended {} 0 = true
    rw [Cmd.firm, h.pass_least, ih, h.pass_firm]
    rfl

theorem passes_paced (h : Growing first u body) (n : Nat) :
    (first.passes u body n).paced = true := by
  induction n with
  | zero => exact h.paced.1
  | succ n ih =>
    change (Cmd.seq (first.passes u body n) (.ite (.test u) body .skip)).paced = true
    rw [Cmd.paced, ih, Cmd.paced, h.paced.2]
    rfl

end Cmd.Growing

/-- Some passes of the loop have come to the place, and made one tree. -/
def Place.Grown (s : TokenStream) (i : Nat) (first : Cmd) (u : Test) (body : Cmd) (m : Place) :
    Prop :=
  ∃ n t, (first.passes u body n).Made s i m t ∧ t.nodeKind?.isSome

namespace Place.Grown

theorem start (hg : Cmd.Growing first u body) (h : first.Yields s strict (s.fresh i) m) :
    m.Grown s i first u body := by
  have hends := h.relax hg.exclusive.1
  obtain ⟨b, hb, hfits⟩ := hends.fits (fun _ _ _ h _ hp => h.fits hp)
    (show (s.fresh i).draft.Fits .empty from rfl)
  have hshape := hg.first_shape
  rw [hb, Option.all_some] at hshape
  obtain ⟨t, kind, ht, hk, -⟩ := hfits.le hshape
  have hlt : i + first.least {} ≤ m.index := hends.count (Outlook.holds_bottom _)
  have hleast := hg.first_least
  obtain ⟨r, hr, hread⟩ := hends.reading (Outlook.holds_bottom _) (Reading.holds_start s i)
    hg.first_reads
  rw [List.mem_singleton.1 hr] at hread
  exact ⟨0, t, ⟨hends, ht, by omega, hread⟩, by simp [hk]⟩

theorem pass (hg : Cmd.Growing first u body) (hm : m.Grown s i first u body)
    (hu : u.holds s m.index m.draft = true) (h : body.Yields s strict m m') :
    m'.Grown s i first u body := by
  obtain ⟨n, t, hmade, hkind⟩ := hm
  obtain ⟨kind, hkind⟩ := Option.isSome_iff_exists.1 hkind
  have hbody := h.relax hg.exclusive.2
  have hends := (Cmd.Ends.ite_yes (b := .skip) hu).2 hbody
  obtain ⟨b, hb, hfits⟩ := hbody.fits (fun _ _ _ h _ hp => h.fits hp)
    (show m.draft.Fits (.single 0) from ⟨t, kind, hmade.items, hkind, Nat.zero_le _⟩)
  have hshape := hg.body_shape
  rw [hb, Option.all_some] at hshape
  obtain ⟨t', kind', ht', hk', -⟩ := hfits.le hshape
  have hle : m.index ≤ m'.index := hends.index_le
  have hlt := hmade.lt
  have htop : ({} : Outlook).Holds s i m := Outlook.holds_top (Nat.le_of_lt hlt) (by simp)
  obtain ⟨r, hr, hread⟩ := hends.reading htop hmade.reading hg.body_reads
  rw [List.mem_singleton.1 hr] at hread
  exact ⟨n + 1, t', ⟨.seq hmade.ends hends, ht', by omega, hread⟩, by simp [hk']⟩

theorem reparses (hs : s.Regular) (hg : Cmd.Growing first u body)
    (hlift : ∀ {s n j t}, (first.passes u body j).Fills s n t → Rule.expression.Fills s n t)
    (hm : m.Grown s i first u body) : ∀ t ∈ m.draft.items, t.Reparses := by
  obtain ⟨n, t, hmade, -⟩ := hm
  intro u hu
  rw [hmade.items, List.mem_singleton] at hu
  subst hu
  intro kind _ _ ts hts
  exact hlift (hmade.fills hs (hg.passes_paced n) (hg.passes_firm n) hts)

end Place.Grown

/-- Behind each pass of a loop stands an expression that is read again. -/
theorem Cmd.Yields.each_loop (hs : s.Regular) (hg : Cmd.Growing first u body)
    (hlift : ∀ {s n j t}, (first.passes u body j).Fills s n t → Rule.expression.Fills s n t)
    (h : (Cmd.seq first (.loop (.test u) body)).Yields s strict (s.fresh i) q) :
    q.draft.Each Tree.Reparses := by
  obtain ⟨m, hfirst, hloop⟩ := h.seq_done
  have hstart := Place.Grown.start hg hfirst
  have heach : m.draft.Each Tree.Reparses :=
    Cmd.Yields.each hfirst hg.tails.1 (Draft.each_empty _) (hstart.reparses hs hg hlift)
  refine (hloop.loop_done
    (I := fun m => m.draft.Each Tree.Reparses ∧ m.Grown s i first u body) ?_ ⟨heach, hstart⟩).1.1
  rintro m m' ⟨heach, hm⟩ hu hbody
  have hm' := hm.pass hg (by simpa using hu) hbody
  exact ⟨Cmd.Yields.each hbody hg.tails.2 heach (hm'.reparses hs hg hlift), hm'⟩

end

open Grammar Test in
theorem Grammar.growing_primary : Cmd.Growing primaryFirst
    (either (hereAny (.ofList [.dot, .colonColon]))
      (both (here .lbracket) (neg (latestIs [.arrayCreation]))))
    (Cmd.select
      [(.dot, .ite (next .kwNew) qualifiedCreation memberSuffix), (.colonColon, methodReference)]
      arrayAccess) := by
  constructor <;> decide +kernel

open Grammar Test in
theorem Grammar.growing_postfixed : Cmd.Growing (.call .primary)
    (hereAny (.ofList (PostfixOp.all.map PostfixOp.token)))
    (Cmd.select (PostfixOp.all.map fun op => (op.token, .shift ++ .wrap (.postfixed op)))
      .skip) := by
  constructor <;> decide

open Grammar in
theorem Grammar.growing_binary (least : Fin 12) : Cmd.Growing (.call .unary)
    (operatorAhead (operatorsFrom least))
    ((operatorsFrom least).foldr
      (fun o rest => .ite (spelled 0 o.spelling) (operation o) rest) .skip) := by
  constructor <;> decide +kernel +revert

open Grammar in
theorem Grammar.stops_binary (least : Fin 12) :
    (operatorAhead (operatorsFrom least)).assume true .atEnd = [] := by
  decide +revert

namespace Rule.Fills
variable {s : TokenStream} {n : Nat} {t : Tree}

theorem expression_of_binary {least : Fin 12} (h : (binary least).Fills s n t) :
    expression.Fills s n t :=
  expression_of_conditional (conditional_of_binary (binary_one h))

theorem expression_of_unary (h : unary.Fills s n t) : expression.Fills s n t :=
  expression_of_binary (binary_of_unary h)

theorem expression_of_primary (h : primary.Fills s n t) : expression.Fills s n t :=
  expression_of_unary (unary_of_primary h)

end Rule.Fills

section
variable {s : TokenStream} {strict : Bool} {i : Nat} {q : Place} {r : Rule}

theorem Rule.each_of_tails (hs : s.Regular) (hr : r.makesExpression = true)
    (htails : r.body.tails .expressions = true)
    (hlift : ∀ {s n t}, r.Fills s n t → Rule.expression.Fills s n t)
    (h : r.body.Yields s strict (s.fresh i) q) : q.draft.Each Tree.Reparses :=
  h.each htails (Draft.each_empty _) (reparses hs hr hlift h)

theorem Rule.each_expression (hs : s.Regular)
    (h : expression.body.Yields s strict (s.fresh i) q) : q.draft.Each Tree.Reparses := by
  have hroots := reparses hs rfl id h
  obtain ⟨answer, -, h⟩ := h.ite_done
  cases answer with
  | true => exact Cmd.Yields.each_jump h
  | false => exact Cmd.Yields.each h (by decide) (Draft.each_empty _) hroots

theorem Rule.each_elementValue (h : elementValue.body.Yields s strict (s.fresh i) q) :
    q.draft.Each Tree.Reparses := by
  rcases h.of_select with ⟨c, hc, -, h⟩ | h
  · rcases List.mem_pair.1 hc with rfl | rfl <;> exact Cmd.Yields.each_jump h
  · exact Cmd.Yields.each_jump h

theorem Rule.each_primary (hs : s.Regular) (h : primary.body.Yields s strict (s.fresh i) q) :
    q.draft.Each Tree.Reparses :=
  Cmd.Yields.each_loop hs Grammar.growing_primary
    (fun h => Fills.expression_of_primary (Cmd.Fills.loop h (by decide))) h

theorem Grammar.each_postfixed (hs : s.Regular) (h : postfixed.Yields s strict (s.fresh i) q) :
    q.draft.Each Tree.Reparses :=
  Cmd.Yields.each_loop hs growing_postfixed
    (fun h => Rule.Fills.expression_of_unary
      (Rule.Fills.unary_of_postfixed (Cmd.Fills.loop h (by decide)))) h

theorem Rule.each_binary (hs : s.Regular) {least : Fin 12}
    (h : (binary least).body.Yields s strict (s.fresh i) q) : q.draft.Each Tree.Reparses := by
  rw [body_binary] at h
  refine Cmd.Yields.each_loop hs (Grammar.growing_binary least) (fun {s n j t} h => ?_) h
  have hbinary : (binary least).Fills s n t := by
    rw [Fills, body_binary]
    exact Cmd.Fills.loop h (Grammar.stops_binary least)
  exact hbinary.expression_of_binary

theorem Rule.each_unary (hs : s.Regular) (h : unary.body.Yields s strict (s.fresh i) q) :
    q.draft.Each Tree.Reparses := by
  have hroots := reparses hs rfl Fills.expression_of_unary h
  have htails {c : Cmd} (hc : c.tails .expressions = true) (h : c.Yields s strict (s.fresh i) q) :
      q.draft.Each Tree.Reparses :=
    h.each hc (Draft.each_empty _) hroots
  rcases h.of_select with ⟨c, hc, -, h⟩ | h
  · obtain ⟨op, -, rfl⟩ := List.mem_map.1 hc
    exact htails (by cases op <;> decide) h
  · obtain ⟨answer, -, h⟩ := h.ite_done
    cases answer with
    | false => exact Grammar.each_postfixed hs h
    | true =>
      obtain ⟨answer, -, h⟩ := h.ite_done
      cases answer with
      | true => exact htails (c := Grammar.primitiveCast) (by decide) h
      | false =>
        obtain ⟨answer, -, h⟩ := h.ite_done
        cases answer with
        | true => exact htails (c := Grammar.referenceCast) (by decide) h
        | false => exact Grammar.each_postfixed hs h

/-- All rules that make expressions make ones that are read again. -/
theorem Rule.each_reparses (hs : s.Regular) (hr : r.makesExpression = true)
    (h : r.body.Yields s strict (s.fresh i) q) : q.draft.Each Tree.Reparses := by
  cases r with
  | name =>
    exact each_of_tails hs hr (by decide)
      (fun h => Fills.expression_of_primary (Fills.primary_of_name h)) h
  | elementValue => exact each_elementValue h
  | expression => exact each_expression hs h
  | conditional => exact each_of_tails hs hr (by decide) Fills.expression_of_conditional h
  | binary least => exact each_binary hs h
  | unary => exact each_unary hs h
  | primary => exact each_primary hs h
  | lambda => exact each_of_tails hs hr (by decide) Fills.expression_of_lambda h
  | _ => cases hr

end

theorem Rule.ends_of_parseAll {r : Rule} {ts : TokenList} {options : ParseOptions} {t : Tree}
    (hr : r ≠ .emptyMember) (h : r.parseAll ts options = .ok t) :
    ∃ q, r.Ends (.ofList ts) false (TokenStream.fresh (.ofList ts) 0) (.done q) ∧
      q.draft.items = [t] ∧ ts.kindAt q.index = .eof := by
  have hs : (Session.start ts options).Sound := Session.sound_startAt ts options 0
  obtain ⟨hrun, hend⟩ := parseAll_eq_ok.1 h
  obtain ⟨q, hends, hindex, hitems⟩ := hs.ends_of_ok hr hrun
  have hkind := Session.kindAt_of_expectEnd hend
  rw [Session.env_run] at hkind
  refine ⟨q, hends.relax false, hitems, ?_⟩
  change ts.kindAt ((Session.start ts options).run r).2.index = .eof at hkind
  rw [← hindex] at hkind
  exact hkind

theorem ends_of_parse {e : Entry} {ts : TokenList} {options : ParseOptions} {t : Tree}
    (h : parse e ts options = .ok t) :
    ∃ q, e.rule.Ends (.ofList ts) false (TokenStream.fresh (.ofList ts) 0) (.done q) ∧
      q.draft.items = [t] ∧ ts.kindAt q.index = .eof :=
  Rule.ends_of_parseAll e.rule_ne_emptyMember h

theorem Rule.fills_of_parseAll {r : Rule} {ts : TokenList} {options : ParseOptions} {t : Tree}
    (hr : r ≠ .emptyMember) (hts : (TokenStream.ofList ts).Closed)
    (h : r.parseAll ts options = .ok t) : ∃ n, r.Fills (.ofList ts) n t := by
  obtain ⟨q, hends, hitems, hend⟩ := ends_of_parseAll hr h
  cases hends with
  | body hends => exact ⟨q.index, hts, hend, q.draft, hends, hitems⟩

/-- Within the budget, what fills the source is what its rule makes of it. -/
theorem Rule.parseAll_of_fills {r : Rule} {ts : TokenList} {options : ParseOptions} {n : Nat}
    {t : Tree} (hr : r ≠ .emptyMember) (h : r.Fills (.ofList ts) n t)
    (hin : ∀ err, r.parseAll ts options = .error err → err.InBudget) :
    r.parseAll ts options = .ok t := by
  obtain ⟨hclosed, hend, d, hends, ht⟩ := h
  have hs : (Session.start ts options).Sound := Session.sound_startAt ts options 0
  obtain ⟨o, ho, hindex, hgives⟩ := hs.gives_rule hr fun err he =>
    ParseFault.isCutoff_eq_false (hs.isStuck_rule hclosed (Nat.zero_le _) hr he)
      (hin err (parseAll_of_error he))
  cases ho.unique ((Rule.Ends.body hends).relax options.detectAmbiguity)
  obtain ⟨u, hu, hrun⟩ := hgives
  rw [ht, List.cons.injEq] at hu
  rw [← hu.1] at hrun
  refine parseAll_eq_ok.2 ⟨hrun, ?_⟩
  have hkind : (TokenStream.ofList ts).kindAt
      ((Session.start ts options).run r).2.state.index = .eof := by
    change (TokenStream.ofList ts).kindAt ((Session.start ts options).run r).2.index = .eof
    rw [← hindex]
    exact hend
  rw [Session.expectEnd, Session.env_run]
  exact if_pos hkind

theorem parse_of_fills {e : Entry} {ts : TokenList} {options : ParseOptions} {n : Nat} {t : Tree}
    (h : e.rule.Fills (.ofList ts) n t)
    (hin : ∀ err, parse e ts options = .error err → err.InBudget) :
    parse e ts options = .ok t :=
  Rule.parseAll_of_fills e.rule_ne_emptyMember h hin

/-- Every expression in the tree of any parse is what its own tokens, and the end of the source
behind them, are parsed to as an expression, if the budget is enough for that. -/
theorem parse_subexpression {ts ts' : TokenList} {options options' : ParseOptions} {e : Entry}
    {t n : Tree} {kind : NodeKind} (hend : ts.tokens.back?.map Token.kind = some .eof)
    (h : parse e ts options = .ok t) (hn : n ∈ t.nodes) (hk : n.nodeKind? = some kind)
    (hkind : kind.isExpression = true) (hts : ts'.Spells n)
    (hin : ∀ err, parse .expression ts' options' = .error err → err.InBudget) :
    parse .expression ts' options' = .ok n := by
  have hs : (TokenStream.ofList ts).Regular := TokenStream.regular_ofList hend
  have heach : t.Each Tree.Reparses :=
    parse_each (c := .expressions) (fun _ _ => Tree.reparses_of_spared)
      (fun _ => Rule.spares_expressions) (fun _ _ _ hr h => Rule.each_reparses hs hr h) h
  exact parse_of_fills (heach n hn kind hk hkind ts' hts) hin

/-- `f((a) - b);` -/
def callStatement : TokenList where
  source := "f((a) - b);"
  tokens := #[⟨.ident, ⟨0, 1⟩, ⟨1, 1⟩⟩, ⟨.lparen, ⟨1, 2⟩, ⟨1, 2⟩⟩, ⟨.lparen, ⟨2, 3⟩, ⟨1, 3⟩⟩,
    ⟨.ident, ⟨3, 4⟩, ⟨1, 4⟩⟩, ⟨.rparen, ⟨4, 5⟩, ⟨1, 5⟩⟩, ⟨.minus, ⟨6, 7⟩, ⟨1, 7⟩⟩,
    ⟨.ident, ⟨8, 9⟩, ⟨1, 9⟩⟩, ⟨.rparen, ⟨9, 10⟩, ⟨1, 10⟩⟩, ⟨.semi, ⟨10, 11⟩, ⟨1, 11⟩⟩,
    ⟨.eof, ⟨11, 11⟩, ⟨1, 12⟩⟩]

/-- `(a) - b` where it stands in the call. -/
def callArgument : TokenList where
  source := "f((a) - b);"
  tokens := #[⟨.lparen, ⟨2, 3⟩, ⟨1, 3⟩⟩, ⟨.ident, ⟨3, 4⟩, ⟨1, 4⟩⟩, ⟨.rparen, ⟨4, 5⟩, ⟨1, 5⟩⟩,
    ⟨.minus, ⟨6, 7⟩, ⟨1, 7⟩⟩, ⟨.ident, ⟨8, 9⟩, ⟨1, 9⟩⟩, ⟨.eof, ⟨9, 9⟩, ⟨1, 10⟩⟩]

def callArgumentTree : Tree :=
  .node (.binary .sub) ⟨2, 9⟩
    [.node .parenthesized ⟨2, 5⟩
      [.leaf .lparen ⟨2, 3⟩, .node .name ⟨3, 4⟩ [.leaf .ident ⟨3, 4⟩], .leaf .rparen ⟨4, 5⟩],
     .leaf .minus ⟨6, 7⟩, .node .name ⟨8, 9⟩ [.leaf .ident ⟨8, 9⟩]]

def callStatementTree : Tree :=
  .node .expressionStatement ⟨0, 11⟩
    [.node .methodInvocation ⟨0, 10⟩
      [.node .name ⟨0, 1⟩ [.leaf .ident ⟨0, 1⟩],
       .node .argumentList ⟨1, 10⟩
        [.leaf .lparen ⟨1, 2⟩, callArgumentTree, .leaf .rparen ⟨9, 10⟩]],
     .leaf .semi ⟨10, 11⟩]

/-- The argument of a call is parsed from its own tokens. A parenthesis and a sign make no cast of
it, neither there nor in the statement. -/
theorem parse_callArgument :
    parse .statement callStatement = .ok callStatementTree ∧
      callArgumentTree ∈ callStatementTree.nodes ∧ callArgument.Spells callArgumentTree ∧
      parse .expression callArgument = .ok callArgumentTree := by
  have hparse : parse .statement callStatement = .ok callStatementTree := by
    rw [parse_eq_ok, Session.run_eq]
    decide +kernel
  have hmem : callArgumentTree ∈ callStatementTree.nodes := by
    rw [Tree.nodes_eq]
    exact .tail _ (.tail _ (.tail _ (.tail _ (.head _))))
  have hspells : callArgument.Spells callArgumentTree := ⟨⟨9, 9⟩, by decide +kernel⟩
  have hok : ((Session.start callArgument {}).run Entry.expression.rule).1.toBool = true ∧
      ((Session.start callArgument {}).run Entry.expression.rule).2.expectEnd = .ok () := by
    rw [Session.run_eq]
    decide +kernel
  exact ⟨hparse, hmem, hspells, parse_subexpression (by decide) hparse hmem rfl rfl hspells
    (parse_inBudget_of_reads hok)⟩

end JavaSyntax
