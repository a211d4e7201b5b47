import JavaSyntax.Proofs.Calls
import JavaSyntax.Proofs.Straight

/-!
# A grammar of types

The types without annotations as phrases of a grammar, each with the trees that stand for it. What
the rules for types read is such a phrase, and they read every one of them up to a token that goes
on with none.
-/

namespace JavaSyntax

/-- The phrases that types are made of. -/
inductive TypePhrase where
  | primitive | segment | segments | classType | brackets | dims
  | type | reference | argument | argumentList | arguments
  deriving DecidableEq

namespace TypePhrase

/-- `Prim | Class` -/
def isBase (base : TypePhrase) : Bool := base == primitive || base == classType

def array (u v : Tree) : Tree := .build .arrayType u.span.start [u, v]

/-- The tokens are the phrase, and the trees tell how. -/
inductive Derives : TypePhrase → List (TokenKind × Span) → Forest → Prop
  /-- `Prim` is one of the keywords. -/
  | primitive {k : TokenKind} {s : Span} (hk : TokenKind.primitives.contains k = true) :
      Derives primitive [(k, s)] [.build .primitiveType s.start [.leaf k s]]
  /-- `Ident Args?` -/
  | ident {s : Span} : Derives segment [(.ident, s)] [.leaf .ident s]
  | generic {s : Span} {es : List (TokenKind × Span)} {f : Forest} (h : Derives arguments es f) :
      Derives segment ((.ident, s) :: es) (.leaf .ident s :: f)
  /-- `Ident Args? (. Ident Args?)*` -/
  | last {es : List (TokenKind × Span)} {f : Forest} (h : Derives segment es f) :
      Derives segments es f
  | dot {s : Span} {es es' : List (TokenKind × Span)} {f f' : Forest} (h : Derives segment es f)
      (h' : Derives segments es' f') :
      Derives segments (es ++ (.dot, s) :: es') (f ++ .leaf .dot s :: f')
  | classType {s : Span} {es : List (TokenKind × Span)} {f : Forest}
      (h : Derives segments ((.ident, s) :: es) f) :
      Derives classType ((.ident, s) :: es) [.build .classType s.start f]
  /-- `([ ])*` -/
  | nil : Derives brackets [] []
  | pair {s s' : Span} {es : List (TokenKind × Span)} {f : Forest} (h : Derives brackets es f) :
      Derives brackets ((.lbracket, s) :: (.rbracket, s') :: es)
        (.leaf .lbracket s :: .leaf .rbracket s' :: f)
  /-- `([ ])+` -/
  | dims {s s' : Span} {es : List (TokenKind × Span)} {f : Forest} (h : Derives brackets es f) :
      Derives dims ((.lbracket, s) :: (.rbracket, s') :: es)
        [.build .dims s.start (.leaf .lbracket s :: .leaf .rbracket s' :: f)]
  /-- `(Prim | Class) ([ ])*` -/
  | base {base : TypePhrase} {es : List (TokenKind × Span)} {u : Tree}
      (hbase : base.isBase = true) (h : Derives base es [u]) : Derives type es [u]
  | array {base : TypePhrase} {es ds : List (TokenKind × Span)} {u v : Tree}
      (hbase : base.isBase = true) (h : Derives base es [u]) (h' : Derives dims ds [v]) :
      Derives type (es ++ ds) [array u v]
  /-- `Class ([ ])* | Prim ([ ])+` -/
  | plain {es : List (TokenKind × Span)} {f : Forest} (h : Derives classType es f) :
      Derives reference es f
  | arrayReference {base : TypePhrase} {es ds : List (TokenKind × Span)} {u v : Tree}
      (hbase : base.isBase = true) (h : Derives base es [u]) (h' : Derives dims ds [v]) :
      Derives reference (es ++ ds) [array u v]
  /-- `Ref | ? ((extends | super) Ref)?` -/
  | argument {es : List (TokenKind × Span)} {f : Forest} (h : Derives reference es f) :
      Derives argument es f
  | wildcard {s : Span} :
      Derives argument [(.question, s)] [.build .wildcard s.start [.leaf .question s]]
  | bounded {k : TokenKind} {s s' : Span} {es : List (TokenKind × Span)} {f : Forest}
      (hk : k = .kwExtends ∨ k = .kwSuper) (h : Derives reference es f) :
      Derives argument ((.question, s) :: (k, s') :: es)
        [.build .wildcard s.start (.leaf .question s :: .leaf k s' :: f)]
  /-- `Arg (, Arg)*` -/
  | one {es : List (TokenKind × Span)} {f : Forest} (h : Derives argument es f) :
      Derives argumentList es f
  | comma {s : Span} {es es' : List (TokenKind × Span)} {f f' : Forest} (h : Derives argument es f)
      (h' : Derives argumentList es' f') :
      Derives argumentList (es ++ (.comma, s) :: es') (f ++ .leaf .comma s :: f')
  /-- `< Arg (, Arg)* >` -/
  | arguments {s s' : Span} {es : List (TokenKind × Span)} {f : Forest}
      (h : Derives argumentList es f) :
      Derives arguments ((.less, s) :: es ++ [(.greater, s')])
        [.build .typeArguments s.start (.leaf .less s :: f ++ [.leaf .greater s'])]

theorem Derives.exists_ident {phrase : TypePhrase} {es : List (TokenKind × Span)} {f : Forest}
    (h : Derives phrase es f) (hphrase : phrase = segment ∨ phrase = segments) :
    ∃ span rest, es = (.ident, span) :: rest := by
  induction h with
  | ident => exact ⟨_, _, rfl⟩
  | generic => exact ⟨_, _, rfl⟩
  | last _ ih => exact ih (.inl rfl)
  | dot _ _ ih _ =>
    obtain ⟨span, rest, rfl⟩ := ih (.inl rfl)
    exact ⟨span, _, rfl⟩
  | _ => simp at hphrase

end TypePhrase

/-- The phrase that the rule for a part of types reads. -/
def Rule.phrase? : Rule → Option TypePhrase
  | dims => some .dims
  | type => some .type
  | referenceType => some .reference
  | typeArgument => some .argument
  | typeArguments => some .arguments
  | _ => none

/-- No annotation stands in the stream, and its kinds are those of its tokens. -/
structure TokenStream.Unannotated (s : TokenStream) : Prop where
  kind_eq : ∀ i, (s.tokenAt i).kind = s.kindAt i
  kind_ne : ∀ i, s.kindAt i ≠ .atSign

/-- The place behind more tokens, with more trees in the draft. -/
def Place.add (p : Place) (es : List (TokenKind × Span)) (f : Forest) : Place :=
  ⟨p.index + es.length, { p.draft with items := f.reverse ++ p.draft.items }⟩

namespace Place
variable {p : Place} {es es' : List (TokenKind × Span)} {f f' : Forest}

@[simp] theorem add_index : (p.add es f).index = p.index + es.length := rfl

@[simp] theorem add_nil : p.add [] [] = p := rfl

theorem add_add : (p.add es f).add es' f' = p.add (es ++ es') (f ++ f') := by
  simp [add, Nat.add_assoc]

end Place

/-- These tokens are read from one place to the other, and these trees made of them. -/
structure TokenStream.Adds (s : TokenStream) (p q : Place) (es : List (TokenKind × Span))
    (f : Forest) : Prop where
  reads : s.reading p.index es.length = es
  eq : q = p.add es f

namespace TokenStream.Adds
variable {s : TokenStream} {p q m : Place} {es es' : List (TokenKind × Span)} {f f' : Forest}
  {k : TokenKind} {span : Span}

theorem refl (s : TokenStream) (p : Place) : s.Adds p p [] [] := ⟨rfl, rfl⟩

theorem trans (h : s.Adds p m es f) (h' : s.Adds m q es' f') :
    s.Adds p q (es ++ es') (f ++ f') := by
  obtain ⟨hreads, rfl⟩ := h
  obtain ⟨hreads', rfl⟩ := h'
  exact ⟨reading_eq_append.2 ⟨hreads, hreads'⟩, Place.add_add⟩

theorem adopt (h : s.Adds (s.fresh p.index) q es f) :
    s.Adds p ⟨q.index, p.draft.adopt q.draft⟩ es f := by
  obtain ⟨hreads, rfl⟩ := h
  exact ⟨hreads, by simp [Place.add, Draft.adopt]⟩

theorem close (h : s.Adds p q es f) (hp : p.draft.items = []) (kind : NodeKind) :
    s.Adds p ⟨q.index, q.draft.close kind⟩ es [.build kind p.draft.start f] := by
  obtain ⟨hreads, rfl⟩ := h
  exact ⟨hreads, by simp [Place.add, Draft.close, Draft.forest, hp]⟩

theorem start_eq (h : s.Adds (s.fresh p.index) q ((k, span) :: es) f) :
    (s.fresh p.index).draft.start = span.start := by
  have hentry := (reading_eq_cons.1 h.reads).1
  exact congrArg (fun e => e.2.start) hentry

end TokenStream.Adds

section
variable {s : TokenStream} {strict : Bool} {calls : Rule → Place → Ending → Prop} {p q : Place}
  {k : TokenKind}

theorem Cmd.Ends.adds_shift (hs : s.Unannotated) (h : Cmd.Ends s strict calls .shift p (.done q)) :
    ∃ span, s.Adds p q [(s.kindAt p.index, span)] [.leaf (s.kindAt p.index) span] := by
  obtain ⟨-, rfl⟩ := h.of_shift
  rw [← hs.kind_eq]
  exact ⟨_, rfl, rfl⟩

theorem Cmd.Ends.adds_expect (hs : s.Unannotated)
    (h : Cmd.Ends s strict calls (.expect k) p (.done q)) :
    ∃ span, s.Adds p q [(k, span)] [.leaf k span] := by
  obtain ⟨hkind, rfl⟩ := h.of_expect
  rw [← hkind, ← hs.kind_eq]
  exact ⟨_, rfl, rfl⟩

theorem Grammar.annotations_eq (hs : s.Unannotated)
    (h : Cmd.Ends s strict calls annotations p (.done q)) : p = q := by
  cases h.passes with
  | stop => rfl
  | pass hg =>
    simp [Test.holds, annotationAhead, Test.here, hs.kind_ne] at hg

theorem Grammar.adds_dim (hs : s.Unannotated) (h : Cmd.Ends s strict calls dim p (.done q)) :
    ∃ l r, s.Adds p q [(.lbracket, l), (.rbracket, r)] [.leaf .lbracket l, .leaf .rbracket r] := by
  obtain ⟨m, h, hright⟩ := h.seq_done
  obtain ⟨m', hannotations, hleft⟩ := h.seq_done
  obtain rfl := annotations_eq hs hannotations
  obtain ⟨l, hleft⟩ := hleft.adds_expect hs
  obtain ⟨r, hright⟩ := hright.adds_expect hs
  exact ⟨l, r, hleft.trans hright⟩

theorem Grammar.adds_brackets (hs : s.Unannotated)
    (h : Cmd.Ends s strict calls (.loop dimsAhead dim) p (.done q)) :
    ∃ es f, TypePhrase.brackets.Derives es f ∧ s.Adds p q es f := by
  have hpasses := h.passes
  clear h
  induction hpasses with
  | stop => exact ⟨[], [], .nil, .refl s _⟩
  | pass _ hdim _ ih =>
    obtain ⟨l, r, hdim⟩ := adds_dim hs hdim
    obtain ⟨es, f, hderives, hrest⟩ := ih
    exact ⟨_, _, .pair hderives, hdim.trans hrest⟩

theorem Grammar.adds_dims (hs : s.Unannotated) (hp : p = s.fresh p.index)
    (h : Cmd.Ends s strict calls dims p (.done q)) :
    ∃ es f, TypePhrase.dims.Derives es f ∧ s.Adds p q es f := by
  obtain ⟨m, h, hclose⟩ := h.seq_done
  obtain ⟨m', hdim, hloop⟩ := h.seq_done
  obtain ⟨l, r, hdim⟩ := adds_dim hs hdim
  obtain ⟨es, f, hderives, hloop⟩ := adds_brackets hs hloop
  obtain rfl := hclose.of_close
  have hadds := hdim.trans hloop
  rw [hp] at hadds
  have hstart := hadds.start_eq
  have hclosed := hadds.close rfl .dims
  rw [hstart, ← hp] at hclosed
  exact ⟨_, _, .dims hderives, hclosed⟩

end

/-- On a draft of its own the rule reads its phrase. -/
def Rule.Phrased (s : TokenStream) (r : Rule) (p : Place) (o : Ending) : Prop :=
  ∀ q, o = .done q → p = s.fresh p.index → ∀ phrase, r.phrase? = some phrase →
    ∃ es f, phrase.Derives es f ∧ s.Adds p q es f

section
variable {s : TokenStream} {strict : Bool} {calls : Rule → Place → Ending → Prop} {p q m : Place}
  {r : Rule} {phrase item list : TypePhrase}

theorem Cmd.Ends.adds_call (hcalls : ∀ r p o, calls r p o → r.Phrased s p o)
    (hr : r.phrase? = some phrase) (h : Cmd.Ends s strict calls (.call r) p (.done q)) :
    ∃ es f, phrase.Derives es f ∧ s.Adds p q es f := by
  obtain ⟨m, hrule, hq⟩ := h.of_nest
  cases hrule with
  | jump hrule =>
    obtain ⟨es, f, hderives, hadds⟩ := hcalls _ _ _ hrule m rfl rfl phrase hr
    rw [hq]
    exact ⟨es, f, hderives, hadds.adopt⟩

/-- Behind a first item, a loop that reads a separator and an item in each pass reads a list. -/
theorem Cmd.Ends.adds_list {separator : TokenKind} {g : Guard} {body : Cmd}
    (hone : ∀ {es f}, item.Derives es f → list.Derives es f)
    (hmore : ∀ {span es f es' f'}, item.Derives es f → list.Derives es' f' →
      list.Derives (es ++ (separator, span) :: es') (f ++ .leaf separator span :: f'))
    (hbody : ∀ {p q}, g.Allows s p true → Cmd.Ends s strict calls body p (.done q) →
      ∃ m span es f, s.Adds p m [(separator, span)] [.leaf separator span] ∧
        item.Derives es f ∧ s.Adds m q es f)
    (h : Cmd.Ends s strict calls (.loop g body) m (.done q)) {es : List (TokenKind × Span)}
    {f : Forest} (hfirst : item.Derives es f) (hadds : s.Adds p m es f) :
    ∃ es f, list.Derives es f ∧ s.Adds p q es f := by
  have hpasses := h.passes
  clear h
  induction hpasses generalizing p es f with
  | stop => exact ⟨es, f, hone hfirst, hadds⟩
  | pass hg hpass _ ih =>
    obtain ⟨m', span, es', f', hseparator, hitem, hadds'⟩ := hbody hg hpass
    obtain ⟨es'', f'', hlist, hrest⟩ := ih hitem hadds'
    exact ⟨_, _, hmore hfirst hlist, hadds.trans (hseparator.trans hrest)⟩

theorem Grammar.adds_segment (hs : s.Unannotated) (hcalls : ∀ r p o, calls r p o → r.Phrased s p o)
    (h : Cmd.Ends s strict calls (segment false) p (.done q)) :
    ∃ es f, TypePhrase.segment.Derives es f ∧ s.Adds p q es f := by
  obtain ⟨m, hident, harguments⟩ := h.seq_done
  obtain ⟨span, hident⟩ := hident.adds_expect hs
  obtain ⟨answer, -, harguments⟩ := harguments.ite_done
  cases answer with
  | false =>
    obtain rfl := harguments.of_skip
    exact ⟨_, _, .ident, hident⟩
  | true =>
    obtain ⟨es, f, hderives, hadds⟩ := harguments.adds_call hcalls rfl
    exact ⟨_, _, .generic hderives, hident.trans hadds⟩

theorem Grammar.adds_segments (hs : s.Unannotated)
    (hcalls : ∀ r p o, calls r p o → r.Phrased s p o)
    (h : Cmd.Ends s strict calls (segments false) p (.done q)) :
    ∃ es f, TypePhrase.segments.Derives es f ∧ s.Adds p q es f := by
  obtain ⟨m, hfirst, hloop⟩ := h.seq_done
  obtain ⟨es, f, hderives, hadds⟩ := adds_segment hs hcalls hfirst
  refine hloop.adds_list .last .dot ?_ hderives hadds
  intro p q hg hpass
  obtain ⟨m₂, hpass, hsegment⟩ := hpass.seq_done
  obtain ⟨m₁, hshift, hannotations⟩ := hpass.seq_done
  obtain rfl := annotations_eq hs hannotations
  obtain ⟨span, hshift⟩ := hshift.adds_shift hs
  have hdot : s.kindAt p.index = .dot := by
    simp [Test.holds, Test.here] at hg
    exact hg.1
  rw [hdot] at hshift
  obtain ⟨es, f, hderives, hadds⟩ := adds_segment hs hcalls hsegment
  exact ⟨_, span, es, f, hshift, hderives, hadds⟩

theorem Grammar.adds_bareType (hs : s.Unannotated)
    (hcalls : ∀ r p o, calls r p o → r.Phrased s p o) (hp : p = s.fresh p.index)
    (h : Cmd.Ends s strict calls (bareType false) p (.done q)) :
    ∃ (base : TypePhrase) (es : _) (u : Tree), base.isBase = true ∧ base.Derives es [u] ∧
      s.Adds p q es [u] := by
  obtain ⟨answer, hprimitive, h⟩ := h.ite_done
  cases answer with
  | true =>
    obtain ⟨m, hshift, hclose⟩ := h.seq_done
    obtain rfl := hclose.of_close
    obtain ⟨span, hshift⟩ := hshift.adds_shift hs
    rw [hp] at hshift
    have hstart := hshift.start_eq
    have hadds := hshift.close rfl .primitiveType
    rw [hstart, ← hp] at hadds
    exact ⟨.primitive, _, _, rfl, .primitive hprimitive, hadds⟩
  | false =>
    obtain ⟨answer, -, h⟩ := h.ite_done
    cases answer with
    | false => cases h
    | true =>
      obtain ⟨m, hsegments, hclose⟩ := h.seq_done
      obtain rfl := hclose.of_close
      obtain ⟨es, f, hderives, hadds⟩ := adds_segments hs hcalls hsegments
      obtain ⟨span, rest, rfl⟩ := hderives.exists_ident (.inr rfl)
      rw [hp] at hadds
      have hstart := hadds.start_eq
      have hadds := hadds.close rfl .classType
      rw [hstart, ← hp] at hadds
      exact ⟨.classType, _, _, rfl, .classType hderives, hadds⟩

theorem Grammar.adds_type (hs : s.Unannotated)
    (hcalls : ∀ r p o, calls r p o → r.Phrased s p o) (hp : p = s.fresh p.index)
    (h : Cmd.Ends s strict calls (bareType false ++ arraySuffix) p (.done q)) :
    ∃ es u, TypePhrase.type.Derives es [u] ∧ s.Adds p q es [u] := by
  obtain ⟨m, hbare, hsuffix⟩ := h.seq_done
  obtain ⟨base, es, u, hbase, hderives, hadds⟩ := adds_bareType hs hcalls hp hbare
  obtain ⟨answer, -, hsuffix⟩ := hsuffix.ite_done
  cases answer with
  | false =>
    obtain rfl := hsuffix.of_skip
    exact ⟨es, u, .base hbase hderives, hadds⟩
  | true =>
    obtain ⟨m', hcall, hwrap⟩ := hsuffix.seq_done
    obtain rfl := hwrap.of_wrap
    obtain ⟨ds, f, hdims, hadds'⟩ := hcall.adds_call hcalls rfl
    obtain ⟨hreads, rfl⟩ := hadds.trans hadds'
    cases hdims with
    | dims hbrackets =>
      refine ⟨_, _, .array hbase hderives (.dims hbrackets), hreads, ?_⟩
      rw [hp]
      rfl

theorem TypePhrase.Derives.reference {es : List (TokenKind × Span)} {u : Tree}
    (h : TypePhrase.type.Derives es [u]) (hu : u.nodeKind? ≠ some .primitiveType) :
    TypePhrase.reference.Derives es [u] := by
  cases h with
  | array hbase h h' => exact .arrayReference hbase h h'
  | base hbase h =>
    generalize hf : [u] = f at h
    cases h with
    | primitive =>
      cases hf
      exact absurd rfl hu
    | classType h => exact .plain (.classType h)
    | _ => cases hbase

theorem TypePhrase.Derives.exists_eq {es : List (TokenKind × Span)} {f : Forest}
    (h : TypePhrase.type.Derives es f) : ∃ u, f = [u] := by
  cases h with
  | base => exact ⟨_, rfl⟩
  | array => exact ⟨_, rfl⟩

theorem Grammar.adds_reference {es : List (TokenKind × Span)} {u : Tree}
    (hderives : TypePhrase.type.Derives es [u]) (hadds : s.Adds p m es [u])
    (h : Cmd.Ends s strict calls refusePrimitive m (.done q)) :
    TypePhrase.reference.Derives es [u] ∧ s.Adds p q es [u] := by
  obtain ⟨answer, hlatest, h⟩ := h.ite_done
  cases answer with
  | true => cases h
  | false =>
    obtain rfl := h.of_skip
    refine ⟨hderives.reference fun hu => ?_, hadds⟩
    rw [hadds.eq] at hlatest
    simp [Test.holds, Place.add, Draft.lastIs, hu] at hlatest

theorem Grammar.adds_typeArgument (hs : s.Unannotated)
    (hcalls : ∀ r p o, calls r p o → r.Phrased s p o) (hp : p = s.fresh p.index)
    (h : Cmd.Ends s strict calls typeArgument p (.done q)) :
    ∃ es f, TypePhrase.argument.Derives es f ∧ s.Adds p q es f := by
  obtain ⟨m, hannotations, hargument⟩ := h.seq_done
  obtain rfl := annotations_eq hs hannotations
  obtain ⟨answer, hquestion, h⟩ := hargument.ite_done
  cases answer with
  | false =>
    obtain ⟨m, htype, hrefuse⟩ := h.seq_done
    obtain ⟨es, u, hderives, hadds⟩ := adds_type hs hcalls hp htype
    obtain ⟨hreference, hadds⟩ := adds_reference hderives hadds hrefuse
    exact ⟨es, [u], .argument hreference, hadds⟩
  | true =>
    have hquestion : s.kindAt p.index = .question := by
      simpa [Test.here, Test.holds] using hquestion
    obtain ⟨m', h, hclose⟩ := h.seq_done
    obtain ⟨m, hshift, hbound⟩ := h.seq_done
    obtain rfl := hclose.of_close
    obtain ⟨span, hshift⟩ := hshift.adds_shift hs
    rw [hquestion, hp] at hshift
    have hstart := hshift.start_eq
    obtain ⟨answer, hbounded, hbound⟩ := hbound.ite_done
    cases answer with
    | false =>
      obtain rfl := hbound.of_skip
      have hadds := hshift.close rfl .wildcard
      rw [hstart, ← hp] at hadds
      exact ⟨_, _, .wildcard, hadds⟩
    | true =>
      obtain ⟨m₂, hkeyword, hcall⟩ := hbound.seq_done
      obtain ⟨span', hkeyword⟩ := hkeyword.adds_shift hs
      obtain ⟨es, f, hderives, hreference⟩ := hcall.adds_call hcalls rfl
      have hadds := ((hshift.trans hkeyword).trans hreference).close rfl .wildcard
      rw [hstart, ← hp] at hadds
      refine ⟨_, _, .bounded ?_ hderives, hadds⟩
      simpa [Test.hereAny, Test.holds, KindSet.contains_ofList] using hbounded

theorem Grammar.adds_typeArguments (hs : s.Unannotated)
    (hcalls : ∀ r p o, calls r p o → r.Phrased s p o) (hp : p = s.fresh p.index)
    (h : Cmd.Ends s strict calls typeArguments p (.done q)) :
    ∃ es f, TypePhrase.arguments.Derives es f ∧ s.Adds p q es f := by
  obtain ⟨m₃, h, hclose⟩ := h.seq_done
  obtain ⟨m₂, h, hgreater⟩ := h.seq_done
  obtain ⟨m₁, hless, hlist⟩ := h.seq_done
  obtain ⟨m, hfirst, hloop⟩ := hlist.seq_done
  obtain rfl := hclose.of_close
  obtain ⟨span, hless⟩ := hless.adds_expect hs
  obtain ⟨span', hgreater⟩ := hgreater.adds_expect hs
  obtain ⟨es, f, hderives, hfirst⟩ := hfirst.adds_call hcalls rfl
  have hlist : ∃ es f, TypePhrase.argumentList.Derives es f ∧ s.Adds m₁ m₂ es f := by
    refine hloop.adds_list .one .comma ?_ hderives hfirst
    intro p q hcomma hpass
    obtain ⟨m, hshift, hcall⟩ := hpass.seq_done
    obtain ⟨span, hshift⟩ := hshift.adds_shift hs
    obtain ⟨es, f, hderives, hadds⟩ := hcall.adds_call hcalls rfl
    have hcomma : s.kindAt p.index = .comma := by
      simpa [Test.here, Test.holds] using hcomma
    rw [hcomma] at hshift
    exact ⟨m, span, es, f, hshift, hderives, hadds⟩
  obtain ⟨es, f, hderives, hlist⟩ := hlist
  have hadds := (hless.trans hlist).trans hgreater
  rw [hp] at hadds
  have hstart := hadds.start_eq
  have hadds := hadds.close rfl .typeArguments
  rw [hstart, ← hp] at hadds
  exact ⟨_, _, .arguments hderives, hadds⟩

end

/-- What the rules for types read on drafts of their own are phrases. -/
theorem Rule.Ends.phrased {s : TokenStream} {strict : Bool} {r : Rule} {p : Place} {o : Ending}
    (hs : s.Unannotated) (h : r.Ends s strict p o) : r.Phrased s p o := by
  refine h.induct ?_
  rintro r p o h q rfl hp phrase hr
  have hcalls : ∀ r p o, Rule.Ends s strict r p o ∧ r.Phrased s p o → r.Phrased s p o :=
    fun _ _ _ h => h.2
  cases r with
  | dims =>
    cases hr
    exact Grammar.adds_dims hs hp h
  | type =>
    cases hr
    obtain ⟨m, h, hsuffix⟩ := h.seq_done
    obtain ⟨m', hannotations, hbare⟩ := h.seq_done
    obtain rfl := Grammar.annotations_eq hs hannotations
    obtain ⟨es, u, hderives, hadds⟩ := Grammar.adds_type hs hcalls hp (.seq hbare hsuffix)
    exact ⟨es, [u], hderives, hadds⟩
  | referenceType =>
    cases hr
    obtain ⟨m, hcall, hrefuse⟩ := h.seq_done
    obtain ⟨es, f, htype, hadds⟩ := hcall.adds_call hcalls rfl
    obtain ⟨u, rfl⟩ := htype.exists_eq
    obtain ⟨hreference, hadds⟩ := Grammar.adds_reference htype hadds hrefuse
    exact ⟨es, [u], hreference, hadds⟩
  | typeArgument =>
    cases hr
    exact Grammar.adds_typeArgument hs hcalls hp h
  | typeArguments =>
    cases hr
    exact Grammar.adds_typeArguments hs hcalls hp h
  | _ => cases hr

end JavaSyntax
