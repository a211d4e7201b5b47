import JavaSyntax.Proofs.Items

/-!
# New arrays

The dimensions of a new array may start with annotations. Whether an array or an instance is made is
told by the element type and the one token behind it: a primitive type or a bracket calls for an
array. So annotated dimensions are read behind a primitive type, and behind the name of a class only
if the first of them has no annotation.
-/

namespace JavaSyntax

/-- The type of the elements of an array: a keyword, or the name of a class, of which the spans of
the other segments are given with those of the dots before them. -/
inductive ElementType where
  | primitive (keyword : TokenKind) (h : TokenKind.primitives.contains keyword = true) (span : Span)
  | named (first : Span) (others : List (Span × Span))

namespace ElementType

def isPrimitive : ElementType → Bool
  | primitive .. => true
  | named .. => false

def segments (others : List (Span × Span)) : List (TokenKind × Span) :=
  others.flatMap fun (dot, name) => [(.dot, dot), (.ident, name)]

def tokens : ElementType → List (TokenKind × Span)
  | primitive keyword _ span => [(keyword, span)]
  | named first others => (.ident, first) :: segments others

def leaves (es : List (TokenKind × Span)) : Forest := es.map fun e => .leaf e.1 e.2

def tree : ElementType → Tree
  | primitive keyword _ span => .build .primitiveType span.start [.leaf keyword span]
  | named first others =>
    .build .classType first.start (.leaf .ident first :: leaves (segments others))

end ElementType

/-- Where an array is created, its element type, and the trees of its dimensions and elements. -/
def newArray (new : Span) (e : ElementType) (dims elements : Tree) : Tree :=
  .build .arrayCreation new.start [.leaf .kwNew new, e.tree, dims, elements]

section
variable {s t : TokenStream} {b n : Nat} {u : Tree} {p q : Place}

theorem Grammar.dim_start (h : Cmd.Ends s false (Rule.Ends s false) dim p (.done q)) :
    s.kindAt p.index = .atSign ∨
      s.kindAt p.index = .lbracket ∧ s.kindAt (p.index + 1) = .rbracket := by
  obtain ⟨m₂, h, hright⟩ := h.seq_done
  obtain ⟨m₁, hannotations, hleft⟩ := h.seq_done
  obtain ⟨hopen, rfl⟩ := hleft.of_expect
  cases hannotations.passes with
  | stop => exact .inr ⟨hopen, hright.of_expect.1⟩
  | pass hat =>
    rw [Guard.allows_test, annotationAhead, Test.holds, Bool.and_eq_true] at hat
    exact .inl (by simpa [Test.here, Test.holds] using hat.1)

/-- Wherever dimensions are read they have been seen ahead. -/
theorem Grammar.dimsAhead_of_dim (h : Cmd.Ends s false (Rule.Ends s false) dim p (.done q)) :
    dimsAhead.Answers s false p true := by
  rcases dim_start h with hat | ⟨hopen, hclose⟩
  · have hask : dimsAhead.query s p = .ask .annotatedDims := by
      simp [dimsAhead, Guard.query, Test.here, Test.next, Test.holds, hat]
    obtain ⟨d, hprobe⟩ := h.redraft (by decide) (s.fresh p.index).draft
    exact .of_done hask hprobe
  · refine .known ?_
    simp [dimsAhead, Guard.query, Test.here, Test.next, Test.holds, hopen, hclose]

theorem Grammar.not_dimsAhead
    (hstop : (KindSet.ofList [.lbracket, .atSign]).contains (s.kindAt p.index) = false) :
    dimsAhead.query s p = .known false := by
  have hbracket : s.kindAt p.index ≠ .lbracket := fun hkind => by rw [hkind] at hstop; cases hstop
  have hat : s.kindAt p.index ≠ .atSign := fun hkind => by rw [hkind] at hstop; cases hstop
  simp [dimsAhead, Guard.query, Test.here, Test.holds, hbracket, hat]

theorem Window.dim (w : Window s t 0 b n) (hq : q.index ≤ n)
    (h : Cmd.Ends s false (Rule.Ends s false) Grammar.dim p (.done q)) :
    Cmd.Ends t false (Rule.Ends t false) Grammar.dim ⟨b + p.index, p.draft⟩
      (.done ⟨b + q.index, q.draft⟩) := by
  have hcarries : Grammar.dim.Carries s t 0 b n 0 p.index :=
    Cmd.CarriesBelow.fragment (Cmd.carriesBelow (4 + 128 * n)) w (p := .annotatedDims) (by simp)
      (by omega)
  refine hcarries p.draft q.index q.draft hq ?_
  rw [Nat.zero_add, Nat.zero_add]
  exact h

theorem Window.dims_loop (w : Window s t 0 b n)
    (hstop : (KindSet.ofList [.lbracket, .atSign]).contains (t.kindAt (b + n)) = false)
    (h : Cmd.Passes s false (Rule.Ends s false) Grammar.dimsAhead Grammar.dim p q)
    (hq : q.index = n) :
    p.index ≤ n ∧ Cmd.Ends t false (Rule.Ends t false) (.loop Grammar.dimsAhead Grammar.dim)
      ⟨b + p.index, p.draft⟩ (.done ⟨b + n, q.draft⟩) := by
  induction h with
  | @stop p _ =>
    subst hq
    exact ⟨Nat.le_refl _, .loop (.known (Grammar.not_dimsAhead hstop) .skip)⟩
  | @pass p m q _ hdim _ ih =>
    obtain ⟨hm, hrest⟩ := ih hq
    have hle : p.index ≤ m.index := hdim.index_le
    have hfirst := w.dim hm hdim
    exact ⟨by omega, .loop ((Grammar.dimsAhead_of_dim hfirst).ite (.seq hfirst hrest))⟩

/-- Dimensions are read as they are by themselves, where no others follow them. -/
theorem TokenStream.Stands.dims (h : t.Stands .dims b n u)
    (hstop : (KindSet.ofList [.lbracket, .atSign]).contains (t.kindAt (b + n)) = false)
    (d : Draft) :
    (∃ q, Cmd.Ends t false (Rule.Ends t false) Grammar.dim ⟨b, d⟩ (.done q)) ∧
      Cmd.Ends t false (Rule.Ends t false) (.call .dims) ⟨b, d⟩ (.done ⟨b + n, d.push u⟩) := by
  have hpos := h.pos (by decide)
  obtain ⟨s, w, -, -, e, hends, hitems⟩ := h
  obtain ⟨p₂, h, hclose⟩ := Cmd.Ends.seq_done hends
  obtain ⟨p₁, hfirst, hloop⟩ := h.seq_done
  obtain ⟨hn, rfl⟩ := Place.mk.inj hclose.of_close
  obtain ⟨hp₁, hrest⟩ := w.dims_loop hstop hloop.passes hn.symm
  have hfirst := w.dim hp₁ hfirst
  have hfresh : t.fresh b = ⟨b + 0, (s.fresh 0).draft⟩ := w.fresh_eq (k := 0) hpos
  have hrule : Rule.Ends t false .dims (t.fresh b) (.done ⟨b + n, p₂.draft.close .dims⟩) := by
    rw [hfresh]
    exact .body (.seq (.seq hfirst hrest) .close)
  obtain ⟨d', hfirst'⟩ := hfirst.redraft (by decide) d
  refine ⟨⟨_, hfirst'⟩, ?_⟩
  have hadopt : d.push u = d.adopt (p₂.draft.close .dims) := by
    rw [Draft.push, Draft.adopt, hitems]
    rfl
  rw [hadopt]
  exact .nest (p := ⟨b, d⟩) (q := ⟨b + n, p₂.draft.close .dims⟩) (.jump hrule)

/-- At the end of the source an item is read as it is by itself. -/
theorem TokenStream.Stands.call_at_end {r : Rule} (h : t.Stands r b n u) (hr : r.IsItem)
    (hfirm : r.body.firm .ended {} 0 = true) (hend : ∀ m, b + n ≤ m → t.kindAt m = .eof)
    (d : Draft) :
    Cmd.Ends t false (Rule.Ends t false) (.call r) ⟨b, d⟩ (.done ⟨b + n, d.push u⟩) := by
  have hpos := h.pos hr.least
  obtain ⟨s, w, -, -, e, hends, hitems⟩ := h
  have hbody : Cmd.Ends s false (Rule.Ends s false) r.body ⟨0 + 0, (s.fresh 0).draft⟩
      (.done ⟨0 + n, e⟩) := by
    rw [Nat.zero_add n]
    exact hends
  have hruns : w.Runs .ended 0 r.body 0 n (s.fresh 0).draft e :=
    ⟨Nat.le_refl n, fun _ _ _ m hm => hend (b + m) (by omega),
      fun hbare => absurd hbare (by simp), hbody⟩
  have hends := Cmd.carriesBelow _ w (Nat.lt_succ_self _) r.paced_body
    hfirm (Outlook.holds_bottom _) hruns
  have hfresh : t.fresh b = ⟨b + 0, (s.fresh 0).draft⟩ := w.fresh_eq (k := 0) hpos
  rw [← hfresh] at hends
  have hadopt : d.push u = d.adopt e := by rw [Draft.push, Draft.adopt, hitems]; rfl
  rw [hadopt]
  exact .nest (p := ⟨b, d⟩) (q := ⟨b + n, e⟩) (.jump (.body hends))

end

namespace ElementType
open Grammar

def starts : KindSet := TokenKind.primitives.insert .ident

/-- The kinds that stand behind a name of a class or behind a segment of it. -/
def stops : KindSet := .ofList [.dot, .lbracket, .atSign]

section
variable {t : TokenStream} {i : Nat} {first : Span} {others : List (Span × Span)}

theorem stops_of_segments (ht : t.Regular)
    (hread : t.reading i (segments others).length = segments others)
    (hnext : stops.contains (t.kindAt (i + (segments others).length)) = true) :
    stops.contains (t.kindAt i) = true := by
  cases others with
  | nil => exact hnext
  | cons other others =>
    rw [ht.kindAt_eq (TokenStream.reading_eq_cons.1 hread).1]
    decide

theorem segment_ends (ht : t.Regular) (hname : (t.tokenAt i).entry = (.ident, first))
    (hnext : stops.contains (t.kindAt (i + 1)) = true) (d : Draft) :
    Cmd.Ends t false (Rule.Ends t false) (segment true) ⟨i, d⟩
      (.done ⟨i + 1, d.append [.leaf .ident first]⟩) := by
  refine .seq (.expect_entry ht hname (by decide)) ?_
  exact .of_idle (v := { ahead := [stops] }) (by decide) (Outlook.holds_ahead_one hnext)

theorem segments_ends (ht : t.Regular)
    (hread : t.reading i (segments others).length = segments others)
    (hnext : (KindSet.ofList [.lbracket, .atSign]).contains
      (t.kindAt (i + (segments others).length)) = true) (d : Draft) :
    Cmd.Ends t false (Rule.Ends t false)
      (.loop (.test (.both (.here .dot) (.ahead 1 (.ofList [.ident, .atSign]))))
        (.shift ++ annotations ++ segment true)) ⟨i, d⟩
      (.done ⟨i + (segments others).length, d.append (leaves (segments others))⟩) := by
  induction others generalizing i d with
  | nil =>
    exact .of_idle (v := { ahead := [.ofList [.lbracket, .atSign]] }) (by decide)
      (Outlook.holds_ahead_one hnext)
  | cons other others ih =>
    obtain ⟨dot, name⟩ := other
    obtain ⟨hdot, hread⟩ := TokenStream.reading_eq_cons.1 hread
    obtain ⟨hname, hread⟩ := TokenStream.reading_eq_cons.1 hread
    have hindex : i + (segments ((dot, name) :: others)).length =
        i + 1 + 1 + (segments others).length := by
      simp [segments]
      omega
    rw [hindex] at hnext ⊢
    have hstop : stops.contains (t.kindAt (i + 1 + 1)) = true :=
      stops_of_segments ht hread (KindSet.contains_of_subset (by decide) hnext)
    have hkind := ht.kindAt_eq hname
    have hannotations (d : Draft) :
        Cmd.Ends t false (Rule.Ends t false) annotations ⟨i + 1, d⟩ (.done ⟨i + 1, d⟩) :=
      .of_idle (v := { ahead := [.single .ident] }) (by decide)
        (Outlook.holds_ahead_one (by simp [hkind]))
    refine .loop ((Cmd.Ends.ite_yes ?_).2 (.seq (.seq (.seq (.shift_entry hdot (by decide))
      (hannotations _)) (segment_ends ht hname hstop _)) ?_))
    · simp [Test.here, Test.holds, ht.kindAt_eq hdot, hkind]
      decide
    · have hrest := ih hread hnext ((d.push (.leaf .dot dot)).append [.leaf .ident name])
      simpa [segments, leaves] using hrest

variable {e : ElementType}

theorem start_mem (ht : t.Regular) (hread : t.reading i e.tokens.length = e.tokens) :
    starts.contains (t.kindAt i) = true := by
  cases e with
  | primitive keyword h span =>
    rw [ht.kindAt_eq (TokenStream.reading_eq_cons.1 hread).1]
    exact KindSet.contains_of_subset (by decide) h
  | named first others =>
    rw [ht.kindAt_eq (TokenStream.reading_eq_cons.1 hread).1]
    decide

theorem ends (ht : t.Regular) (hread : t.reading i e.tokens.length = e.tokens)
    (hnext : (KindSet.ofList [.lbracket, .atSign]).contains
      (t.kindAt (i + e.tokens.length)) = true) (d : Draft) :
    Cmd.Ends t false (Rule.Ends t false) (.nest (annotations ++ bareType true)) ⟨i, d⟩
      (.done ⟨i + e.tokens.length, d.push e.tree⟩) := by
  have hannotations (d : Draft) :
      Cmd.Ends t false (Rule.Ends t false) annotations ⟨i, d⟩ (.done ⟨i, d⟩) :=
    .of_idle (v := { ahead := [starts] }) (by decide)
      (Outlook.holds_ahead_one (start_mem ht hread))
  cases e with
  | primitive keyword h span =>
    have hentry := (TokenStream.reading_eq_cons.1 hread).1
    have hbare : Cmd.Ends t false (Rule.Ends t false) (annotations ++ bareType true) (t.fresh i)
        (.done ⟨i + 1, { start := span.start, items := [tree (primitive keyword h span)] }⟩) := by
      rw [TokenStream.fresh_of_entry hentry]
      refine .seq (hannotations _) ((Cmd.Ends.ite_yes ?_).2 (.seq (.shift_entry hentry ?_) .close))
      · simpa [Test.hereAny, Test.holds, ht.kindAt_eq hentry] using h
      · rintro rfl
        cases h
    exact .nest (p := ⟨i, d⟩) hbare
  | named first others =>
    obtain ⟨hentry, hread⟩ := TokenStream.reading_eq_cons.1 hread
    have hindex : i + (tokens (named first others)).length =
        i + 1 + (segments others).length := by
      simp [tokens]
      omega
    rw [hindex] at hnext ⊢
    have hstop : stops.contains (t.kindAt (i + 1)) = true :=
      stops_of_segments ht hread (KindSet.contains_of_subset (by decide) hnext)
    have hkind := ht.kindAt_eq hentry
    have hbare : Cmd.Ends t false (Rule.Ends t false) (annotations ++ bareType true) (t.fresh i)
        (.done ⟨i + 1 + (segments others).length,
          { start := first.start, items := [tree (named first others)] }⟩) := by
      have hclosed : (((({ start := first.start } : Draft).append [.leaf .ident first]).append
          (leaves (segments others))).close .classType) =
            { start := first.start, items := [tree (named first others)] } := by
        simp [Draft.close, tree]
      rw [TokenStream.fresh_of_entry hentry, ← hclosed]
      refine .seq (hannotations _) ((Cmd.Ends.ite_no ?_).2 ((Cmd.Ends.ite_yes ?_).2
        (.seq (.seq (segment_ends ht hentry hstop _) (segments_ends ht hread hnext _)) .close)))
      · simp [Test.hereAny, Test.holds, hkind]
        decide
      · simp [Test.here, Test.holds, hkind]
    exact .nest (p := ⟨i, d⟩) hbare

end

end ElementType

section
variable {t : TokenStream} {strict : Bool} {calls : Rule → Place → Ending → Prop} {p : Place}
  {o : Ending} {new : Span} {e : ElementType} {ds es : List (TokenKind × Span)}
  {dims elements : Tree} {ts : TokenList} {options : ParseOptions} {x y : Nat}

open Grammar Cmd

/-- What stands before the dimensions of a new array. -/
def Grammar.creationHead : Cmd :=
  expect .kwNew ++ optTypeArguments ++ nest (annotations ++ bareType true)

theorem Grammar.creation_ends (hnew : t.kindAt p.index = .kwNew) :
    Cmd.Ends t strict calls primaryFirst p o ↔ Cmd.Ends t strict calls creation p o := by
  have hresolve : primaryFirst.resolve { ahead := [.single .kwNew] } = creation := by decide
  rw [← hresolve]
  exact (Cmd.Ends.resolve_iff (Outlook.holds_ahead_one (a := .single .kwNew)
    (by simp [hnew]))).symm

/-- A new array of the element type stands in the stream up to index `z`. The dimensions start at
index `x`, and the elements follow them. -/
structure NewArrayAt (t : TokenStream) (new : Span) (e : ElementType) (dims elements : Tree)
    (x z : Nat) : Prop where
  keyword : t.kindAt 0 = .kwNew
  head : Cmd.Ends t false (Rule.Ends t false) Grammar.creationHead (t.fresh 0)
    (.done ⟨x, { start := new.start, items := [e.tree, .leaf .kwNew new] }⟩)
  dim : ∀ d, ∃ q, Cmd.Ends t false (Rule.Ends t false) Grammar.dim ⟨x, d⟩ (.done q)
  rest : ∀ d, Cmd.Ends t false (Rule.Ends t false) (.call .dims ++ .call .arrayInitializer) ⟨x, d⟩
    (.done ⟨z, d.append [dims, elements]⟩)

namespace NewArrayAt

/-- Dimensions and elements stand behind an element type as they do by themselves. -/
theorem of_accepts (hdims : Rule.dims.Accepts ds dims)
    (helements : Rule.arrayInitializer.Accepts es elements)
    (hts : ts.Lists ((.kwNew, new) :: (e.tokens ++ (ds ++ es)))) :
    NewArrayAt (.ofList ts) new e dims elements (0 + 1 + e.tokens.length)
      (0 + 1 + e.tokens.length + ds.length + es.length) := by
  have ht := hts.regular
  have hlast := hts.lastIndex
  have hlength : ((TokenKind.kwNew, new) :: (e.tokens ++ (ds ++ es))).length =
      0 + 1 + e.tokens.length + ds.length + es.length := by
    simp
    omega
  rw [hlength] at hlast
  obtain ⟨hnew, hread⟩ := TokenStream.reading_eq_cons.1 hts.reading
  obtain ⟨htype, hread⟩ := TokenStream.reading_eq_append.1 hread
  obtain ⟨hdimsRead, hread⟩ := TokenStream.reading_eq_append.1 hread
  have hinitializer := (helements.stands rfl ht hread (by omega)).call_at_end
    Rule.isItem_arrayInitializer (by decide) (fun m hm => hts.kindAt_end (by omega))
  have hbrace : (KindSet.single .lbrace).contains ((TokenStream.ofList ts).kindAt
      (0 + 1 + e.tokens.length + ds.length)) = true := by
    obtain ⟨_, hrule, -⟩ := (hinitializer (TokenStream.fresh (.ofList ts) 0).draft).called
    exact hrule.contains_start (by decide)
  have hstop : (KindSet.ofList [.lbracket, .atSign]).contains ((TokenStream.ofList ts).kindAt
      (0 + 1 + e.tokens.length + ds.length)) = false :=
    KindSet.not_contains_of_disjoint (by decide) hbrace
  have hread := fun d => (hdims.stands rfl ht hdimsRead (by omega)).dims hstop d
  have hnext : (KindSet.ofList [.lbracket, .atSign]).contains ((TokenStream.ofList ts).kindAt
      (0 + 1 + e.tokens.length)) = true := by
    obtain ⟨_, hdim⟩ := (hread (TokenStream.fresh (.ofList ts) 0).draft).1
    rcases Grammar.dim_start hdim with hkind | ⟨hkind, -⟩ <;> rw [hkind] <;> decide
  refine ⟨ht.kindAt_eq hnew, ?_, fun d => (hread d).1, fun d => .seq (hread d).2 ?_⟩
  · have harguments (d : Draft) : Cmd.Ends (.ofList ts) false (Rule.Ends (.ofList ts) false)
        optTypeArguments ⟨0 + 1, d⟩ (.done ⟨0 + 1, d⟩) :=
      .of_idle (v := { ahead := [ElementType.starts] }) (by decide)
        (Outlook.holds_ahead_one (ElementType.start_mem ht htype))
    rw [TokenStream.fresh_of_entry hnew]
    exact .seq (.seq (.expect_entry ht hnew (by decide)) (harguments _))
      (ElementType.ends ht htype hnext _)
  · exact hinitializer _

theorem dims_start (h : NewArrayAt t new e dims elements x y) :
    t.kindAt x = .atSign ∨ t.kindAt x = .lbracket := by
  obtain ⟨_, hdim⟩ := h.dim { start := 0 }
  exact (Grammar.dim_start hdim).imp id And.left

/-- The test between an array and an instance. -/
theorem holds_array (h : NewArrayAt t new e dims elements x y) :
    (Test.either (.latestIs [.primitiveType]) (.here .lbracket)).holds t x
      { start := new.start, items := [e.tree, .leaf .kwNew new] } =
        (e.isPrimitive || (KindSet.single .lbracket).contains (t.kindAt x)) := by
  cases e <;> rfl

theorem fills (h : NewArrayAt t new e dims elements x y)
    (harray : (e.isPrimitive || (KindSet.single .lbracket).contains (t.kindAt x)) = true)
    (hclosed : t.Closed) (hend : t.kindAt y = .eof) :
    Rule.expression.Fills t y (newArray new e dims elements) := by
  obtain ⟨_, hdim⟩ := h.dim { start := new.start, items := [e.tree, .leaf .kwNew new] }
  have hcreation : Cmd.Ends t false (Rule.Ends t false) creation (t.fresh 0)
      (.done ⟨y, { start := new.start, items := [newArray new e dims elements] }⟩) :=
    .seq h.head ((Cmd.Ends.ite_yes (h.holds_array.trans harray)).2
      (.seq ((Grammar.dimsAhead_of_dim hdim).ite (h.rest _)) .close))
  have hfirst := (Grammar.creation_ends h.keyword).2 hcreation
  have hprimary : Rule.primary.Fills t y (newArray new e dims elements) :=
    Cmd.Fills.seq ⟨hclosed, hend, _, hfirst, rfl⟩ (by decide)
  exact hprimary.expression_of_primary

/-- If the test calls for an instance, no expression is read: dimensions are no arguments. -/
theorem not_ends (h : NewArrayAt t new e dims elements x y)
    (hinstance : (e.isPrimitive || (KindSet.single .lbracket).contains (t.kindAt x)) = false)
    {q : Place} : ¬Rule.Ends t false .expression (t.fresh 0) (.done q) := by
  intro hexpression
  have hother : (KindSet.full.diff ((UnaryOp.starts.insert .lparen).insert .ident)).contains
      (t.kindAt 0) = true := by
    rw [h.keyword]
    decide
  obtain ⟨_, hprimary⟩ := hexpression.primary_of_expression hother
  cases hprimary with
  | body hprimary =>
    obtain ⟨_, hfirst, -⟩ := hprimary.seq_done
    obtain ⟨_, hhead, hrest⟩ := ((Grammar.creation_ends h.keyword).1 hfirst).seq_done
    cases h.head.eq hhead
    obtain ⟨_, hrest, -⟩ := ((Cmd.Ends.ite_no (h.holds_array.trans hinstance)).1 hrest).seq_done
    obtain ⟨_, hcall, -⟩ := hrest.seq_done
    obtain ⟨_, harguments, -⟩ := hcall.called
    have hopen : (KindSet.single .lparen).contains (t.kindAt x) = true :=
      harguments.contains_start (by decide)
    rcases h.dims_start with hkind | hkind <;> cases (congrArg _ hkind).symm.trans hopen

end NewArrayAt

/-- The first dimension has no annotation, so a bracket stands behind the element type. -/
def startsWithBracket (ds : List (TokenKind × Span)) : Bool :=
  ds.head?.any fun d => d.1 == .lbracket

theorem startsWithBracket_eq (hdims : Rule.dims.Accepts ds dims) (ht : t.Regular)
    (hread : t.reading x ds.length = ds) :
    startsWithBracket ds = (KindSet.single .lbracket).contains (t.kindAt x) := by
  have hpos := hdims.length_pos rfl (by decide)
  obtain ⟨⟨kind, span⟩, rest, rfl⟩ := List.exists_cons_of_length_pos hpos
  rw [ht.kindAt_eq (TokenStream.reading_eq_cons.1 hread).1]
  simp [startsWithBracket, Bool.beq_eq_decide_eq]

/-- Dimensions and an initializer, which are accepted by themselves, make a new array behind the
keyword and an element type, if that is primitive or the first dimension has no annotation and the
budget is enough. Else they are refused. -/
theorem parse_newArray (hdims : Rule.dims.Accepts ds dims)
    (helements : Rule.arrayInitializer.Accepts es elements)
    (hts : ts.Lists ((.kwNew, new) :: (e.tokens ++ (ds ++ es)))) :
    ((e.isPrimitive || startsWithBracket ds) = true →
        (∀ err, parse .expression ts options = .error err → err.InBudget) →
          parse .expression ts options = .ok (newArray new e dims elements)) ∧
      ((e.isPrimitive || startsWithBracket ds) = false →
        ∀ u, parse .expression ts options ≠ .ok u) := by
  have h := NewArrayAt.of_accepts hdims helements hts
  have hread := (TokenStream.reading_eq_cons.1 hts.reading).2
  have hread := (TokenStream.reading_eq_append.1 hread).2
  rw [startsWithBracket_eq hdims hts.regular (TokenStream.reading_eq_append.1 hread).1]
  refine ⟨fun harray hin => ?_, fun hinstance u hu => ?_⟩
  · exact parse_of_fills (h.fills harray hts.regular.closed (hts.kindAt_end (by simp; omega))) hin
  · obtain ⟨q, hends, -, -⟩ := ends_of_parse hu
    exact h.not_ends hinstance hends

end

/-- `@A[]` -/
def annotatedBrackets : List (TokenKind × Span) :=
  [(.atSign, ⟨9, 10⟩), (.ident, ⟨10, 11⟩), (.lbracket, ⟨11, 12⟩), (.rbracket, ⟨12, 13⟩)]

def annotatedForest : Forest :=
  [.node .annotationUse ⟨9, 11⟩
      [.leaf .atSign ⟨9, 10⟩, .node .name ⟨10, 11⟩ [.leaf .ident ⟨10, 11⟩]],
    .leaf .lbracket ⟨11, 12⟩, .leaf .rbracket ⟨12, 13⟩]

/-- `[]` in front of them. -/
def plainBrackets : List (TokenKind × Span) := [(.lbracket, ⟨7, 8⟩), (.rbracket, ⟨8, 9⟩)]

/-- `{}` behind them. -/
def emptyElements : List (TokenKind × Span) := [(.lbrace, ⟨13, 14⟩), (.rbrace, ⟨14, 15⟩)]

def emptyElementsTree : Tree :=
  .node .arrayInitializer ⟨13, 15⟩ [.leaf .lbrace ⟨13, 14⟩, .leaf .rbrace ⟨14, 15⟩]

theorem accepts_annotatedBrackets :
    Rule.dims.Accepts annotatedBrackets (.node .dims ⟨9, 13⟩ annotatedForest) := by
  refine .of_reads (by decide) ?_
  rw [Session.run_eq]
  decide +kernel

theorem accepts_emptyElements : Rule.arrayInitializer.Accepts emptyElements emptyElementsTree := by
  refine .of_reads (by decide) ?_
  rw [Session.run_eq]
  decide +kernel

def floatArray : TokenList where
  source := "new float@A[]\x7b\x7d"
  tokens := #[⟨.kwNew, ⟨0, 3⟩, ⟨1, 1⟩⟩, ⟨.kwFloat, ⟨4, 9⟩, ⟨1, 5⟩⟩, ⟨.atSign, ⟨9, 10⟩, ⟨1, 10⟩⟩,
    ⟨.ident, ⟨10, 11⟩, ⟨1, 11⟩⟩, ⟨.lbracket, ⟨11, 12⟩, ⟨1, 12⟩⟩, ⟨.rbracket, ⟨12, 13⟩, ⟨1, 13⟩⟩,
    ⟨.lbrace, ⟨13, 14⟩, ⟨1, 14⟩⟩, ⟨.rbrace, ⟨14, 15⟩, ⟨1, 15⟩⟩, ⟨.eof, ⟨15, 15⟩, ⟨1, 16⟩⟩]

def floatArrayTree : Tree :=
  .node .arrayCreation ⟨0, 15⟩ [.leaf .kwNew ⟨0, 3⟩,
    .node .primitiveType ⟨4, 9⟩ [.leaf .kwFloat ⟨4, 9⟩],
    .node .dims ⟨9, 13⟩ annotatedForest, emptyElementsTree]

def qualifiedArray : TokenList where
  source := "new a.T[]@A[]\x7b\x7d"
  tokens := #[⟨.kwNew, ⟨0, 3⟩, ⟨1, 1⟩⟩, ⟨.ident, ⟨4, 5⟩, ⟨1, 5⟩⟩, ⟨.dot, ⟨5, 6⟩, ⟨1, 6⟩⟩,
    ⟨.ident, ⟨6, 7⟩, ⟨1, 7⟩⟩, ⟨.lbracket, ⟨7, 8⟩, ⟨1, 8⟩⟩, ⟨.rbracket, ⟨8, 9⟩, ⟨1, 9⟩⟩,
    ⟨.atSign, ⟨9, 10⟩, ⟨1, 10⟩⟩, ⟨.ident, ⟨10, 11⟩, ⟨1, 11⟩⟩, ⟨.lbracket, ⟨11, 12⟩, ⟨1, 12⟩⟩,
    ⟨.rbracket, ⟨12, 13⟩, ⟨1, 13⟩⟩, ⟨.lbrace, ⟨13, 14⟩, ⟨1, 14⟩⟩, ⟨.rbrace, ⟨14, 15⟩, ⟨1, 15⟩⟩,
    ⟨.eof, ⟨15, 15⟩, ⟨1, 16⟩⟩]

def qualifiedArrayTree : Tree :=
  .node .arrayCreation ⟨0, 15⟩ [.leaf .kwNew ⟨0, 3⟩,
    .node .classType ⟨4, 7⟩ [.leaf .ident ⟨4, 5⟩, .leaf .dot ⟨5, 6⟩, .leaf .ident ⟨6, 7⟩],
    .node .dims ⟨7, 13⟩ (.leaf .lbracket ⟨7, 8⟩ :: .leaf .rbracket ⟨8, 9⟩ :: annotatedForest),
    emptyElementsTree]

/-- The name of a class in place of the primitive type. -/
def annotatedClass : TokenList where
  source := "new Float@A[]\x7b\x7d"
  tokens := floatArray.tokens.set! 1 ⟨.ident, ⟨4, 9⟩, ⟨1, 5⟩⟩

theorem lists_annotatedClass : annotatedClass.Lists ((.kwNew, ⟨0, 3⟩) ::
    ((ElementType.named ⟨4, 9⟩ []).tokens ++ (annotatedBrackets ++ emptyElements))) :=
  ⟨⟨15, 15⟩, rfl⟩

/-- Annotated dimensions behind a primitive type make an array, and so do those of a class with a
qualified name if brackets come first. -/
theorem parse_newArray_annotated :
    parse .expression floatArray = .ok floatArrayTree ∧
      parse .expression qualifiedArray = .ok qualifiedArrayTree ∧
      ∀ u, parse .expression annotatedClass ≠ .ok u := by
  have hdims : Rule.dims.Accepts (plainBrackets ++ annotatedBrackets) (.node .dims ⟨7, 13⟩
      (.leaf .lbracket ⟨7, 8⟩ :: .leaf .rbracket ⟨8, 9⟩ :: annotatedForest)) := by
    refine .of_reads (by decide) ?_
    rw [Session.run_eq]
    decide +kernel
  have hfloat : ((Session.start floatArray {}).run Entry.expression.rule).1.toBool = true ∧
      ((Session.start floatArray {}).run Entry.expression.rule).2.expectEnd = .ok () := by
    rw [Session.run_eq]
    decide +kernel
  have hqualified : ((Session.start qualifiedArray {}).run Entry.expression.rule).1.toBool = true ∧
      ((Session.start qualifiedArray {}).run Entry.expression.rule).2.expectEnd = .ok () := by
    rw [Session.run_eq]
    decide +kernel
  have hlistsFloat : floatArray.Lists ((.kwNew, ⟨0, 3⟩) ::
      ((ElementType.primitive .kwFloat rfl ⟨4, 9⟩).tokens ++
        (annotatedBrackets ++ emptyElements))) :=
    ⟨⟨15, 15⟩, rfl⟩
  have hlistsQualified : qualifiedArray.Lists ((.kwNew, ⟨0, 3⟩) ::
      ((ElementType.named ⟨4, 5⟩ [(⟨5, 6⟩, ⟨6, 7⟩)]).tokens ++
        (plainBrackets ++ annotatedBrackets ++ emptyElements))) :=
    ⟨⟨15, 15⟩, rfl⟩
  have hprimitive := (parse_newArray accepts_annotatedBrackets accepts_emptyElements hlistsFloat).1
    rfl (parse_inBudget_of_reads hfloat)
  have hnamed := (parse_newArray hdims accepts_emptyElements hlistsQualified).1 rfl
    (parse_inBudget_of_reads hqualified)
  exact ⟨hprimitive, hnamed, (parse_newArray accepts_annotatedBrackets accepts_emptyElements
    lists_annotatedClass).2 rfl⟩

/-- Annotated dimensions behind the name of a class make no array, although they do behind a
primitive type. -/
theorem not_parse_newArray_annotated :
    ¬∀ (new : Span) (e : ElementType) (ds es : List (TokenKind × Span)) (dims elements : Tree)
        (ts : TokenList) (options : ParseOptions),
      Rule.dims.Accepts ds dims → Rule.arrayInitializer.Accepts es elements →
        ts.Lists ((.kwNew, new) :: (e.tokens ++ (ds ++ es))) →
        (∀ err, parse .expression ts options = .error err → err.InBudget) →
        parse .expression ts options = .ok (newArray new e dims elements) := by
  intro h
  have herror : ((Session.start annotatedClass {}).run Entry.expression.rule).1 =
      .error (.unexpected (.single .lparen) ⟨.atSign, ⟨9, 10⟩, ⟨1, 10⟩⟩ 2) := by
    rw [Session.run_eq]
    decide +kernel
  have herror := parse_eq_error.2 (.inl herror)
  have hparse := h ⟨0, 3⟩ (.named ⟨4, 9⟩ []) _ _ _ _ annotatedClass {} accepts_annotatedBrackets
    accepts_emptyElements lists_annotatedClass fun err he budget => by
      cases herror.symm.trans he
      simp [ParseError.unexpected, ParseFault.ofFound]
  cases herror.symm.trans hparse

end JavaSyntax
