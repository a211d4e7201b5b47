import JavaSyntax.Proofs.Lexing
import JavaSyntax.Proofs.Trailing

/-!
# Spans of nodes

The span of a node covers its children that are not empty. Over tokens that stand in order this
comes to the start of the first leaf and the end of the last one.
-/

namespace JavaSyntax

open Text (byteLength)

namespace TokenStream
variable {s : TokenStream} {i j n : Nat}

/-- The span of `n` tokens from index `i` on, or the point in front of the next one. -/
def extent (s : TokenStream) (i n : Nat) : Span :=
  if n = 0 then Span.point (s.tokenAt i).span.start
  else ⟨(s.tokenAt i).span.start, (s.tokenAt (i + n - 1)).span.stop⟩

@[simp] theorem extent_zero : s.extent i 0 = Span.point (s.tokenAt i).span.start := rfl

theorem extent_succ : s.extent i (n + 1) =
    ⟨(s.tokenAt i).span.start, (s.tokenAt (i + n)).span.stop⟩ := rfl

@[simp] theorem start_extent : (s.extent i n).start = (s.tokenAt i).span.start := by
  unfold extent
  split <;> rfl

theorem stop_extent_add {m : Nat} (hm : 0 < m) :
    (s.extent (i + n) m).stop = (s.extent i (n + m)).stop := by
  obtain ⟨m, rfl⟩ := Nat.exists_eq_succ_of_ne_zero (Nat.ne_of_gt hm)
  rw [Nat.succ_eq_add_one, extent_succ, ← Nat.add_assoc, extent_succ, Nat.add_assoc]

namespace Ordered

theorem start_mono (h : s.Ordered) (hij : i ≤ j) :
    (s.tokenAt i).span.start ≤ (s.tokenAt j).span.start := by
  induction hij with
  | refl => exact Nat.le_refl _
  | @step j _ ih => exact Nat.le_trans ih (Nat.le_trans (h.start_le j) (h.stop_le j))

theorem stop_mono (h : s.Ordered) (hij : i ≤ j) :
    (s.tokenAt i).span.stop ≤ (s.tokenAt j).span.stop := by
  induction hij with
  | refl => exact Nat.le_refl _
  | @step j _ ih => exact Nat.le_trans ih (Nat.le_trans (h.stop_le j) (h.start_le (j + 1)))

theorem stop_le_start (h : s.Ordered) (hij : i < j) :
    (s.tokenAt i).span.stop ≤ (s.tokenAt j).span.start :=
  Nat.le_trans (h.stop_le i) (h.start_mono hij)

theorem start_le_stop (h : s.Ordered) (hij : i ≤ j) :
    (s.tokenAt i).span.start ≤ (s.tokenAt j).span.stop :=
  Nat.le_trans (h.start_le i) (h.stop_mono hij)

theorem stop_extent_le (h : s.Ordered) (hij : i + n ≤ j) :
    (s.extent i n).stop ≤ (s.tokenAt j).span.start := by
  cases n with
  | zero => exact h.start_mono hij
  | succ n => exact h.stop_le_start (Nat.lt_of_lt_of_le (Nat.lt_succ_self _) hij)

theorem start_le_stop_extent (h : s.Ordered) (i n : Nat) :
    (s.tokenAt i).span.start ≤ (s.extent i n).stop := by
  cases n with
  | zero => exact Nat.le_refl _
  | succ n => exact h.start_le_stop (Nat.le_add_right _ _)

theorem cover_extent (h : s.Ordered) {m : Nat} (hn : 0 < n) (hm : 0 < m) :
    (s.extent i n).cover (s.extent (i + n) m) = s.extent i (n + m) := by
  obtain ⟨n, rfl⟩ := Nat.exists_eq_succ_of_ne_zero (Nat.ne_of_gt hn)
  obtain ⟨m, rfl⟩ := Nat.exists_eq_succ_of_ne_zero (Nat.ne_of_gt hm)
  have hstart := h.start_mono (Nat.le_add_right i (n + 1))
  have hstop := h.stop_mono (show i + n ≤ i + (n + 1) + m by omega)
  have hindex : i + (n + 1 + (m + 1)) - 1 = i + (n + 1) + m := by omega
  rw [extent_succ, extent_succ, Span.cover, extent, if_neg (by omega), hindex]
  exact congr (congrArg Span.mk (Nat.min_eq_left hstart)) (Nat.max_eq_right hstop)

end Ordered
end TokenStream

namespace Tree
variable {s : TokenStream} {i : Nat}

/-- The spans of trees side by side are those of their leaves, and only trees without leaves do not
count for the span of their parent. -/
def SpansFrom (s : TokenStream) : Forest → Nat → Prop
  | [], _ => True
  | t :: ts, i =>
    t.span = s.extent i t.leaves.length ∧ (t.contributes = true ↔ t.leaves ≠ []) ∧
      SpansFrom s ts (i + t.leaves.length)

theorem fold_extent (hs : s.Ordered) {ts : Forest} {n : Nat} (h : SpansFrom s ts (i + n))
    (hn : 0 < n) : ((ts.filter contributes).map span).foldl Span.cover (s.extent i n) =
      s.extent i (n + (forestLeaves ts).length) := by
  induction ts generalizing n with
  | nil => rfl
  | cons t ts ih =>
    obtain ⟨hspan, hcontributes, hrest⟩ := h
    rw [forestLeaves, List.length_append, ← Nat.add_assoc]
    rw [Nat.add_assoc] at hrest
    by_cases hleaves : t.leaves = []
    · rw [List.filter_cons_of_neg (by simp [hcontributes, hleaves])]
      rw [hleaves] at hrest ⊢
      exact ih hrest hn
    · have hpos : 0 < t.leaves.length := List.length_pos_iff.2 hleaves
      rw [List.filter_cons_of_pos (hcontributes.2 hleaves), List.map_cons, List.foldl_cons, hspan,
        hs.cover_extent hn hpos]
      exact ih hrest (Nat.add_pos_left hn _)

/-- The span of a node over trees side by side is that of their leaves. -/
theorem SpansFrom.extent_eq (hs : s.Ordered) {ts : Forest} (h : SpansFrom s ts i) {start : Nat}
    (hstart : forestLeaves ts = [] → start = (s.tokenAt i).span.start) :
    extent start ts = s.extent i (forestLeaves ts).length := by
  induction ts with
  | nil =>
    rw [hstart rfl]
    rfl
  | cons t ts ih =>
    obtain ⟨hspan, hcontributes, hrest⟩ := h
    by_cases hleaves : t.leaves = []
    · have hsame : extent start (t :: ts) = extent start ts := by
        rw [extent, extent, List.filter_cons_of_neg (by simp [hcontributes, hleaves])]
      have hforest : forestLeaves (t :: ts) = forestLeaves ts := by
        rw [forestLeaves, hleaves, List.nil_append]
      rw [hleaves] at hrest
      rw [hforest] at hstart ⊢
      rw [hsame]
      exact ih hrest hstart
    · rw [extent, List.filter_cons_of_pos (hcontributes.2 hleaves), List.map_cons, hspan,
        forestLeaves, List.length_append]
      exact fold_extent hs hrest (List.length_pos_iff.2 hleaves)

theorem SpansFrom.le_start (hs : s.Ordered) {ts : Forest} {j : Nat} (h : SpansFrom s ts i)
    (hji : j ≤ i) : ∀ t ∈ ts, (s.tokenAt j).span.start ≤ t.span.start := by
  induction ts generalizing i with
  | nil => simp
  | cons u ts ih =>
    obtain ⟨hspan, -, hrest⟩ := h
    intro t ht
    rcases List.mem_cons.1 ht with rfl | ht
    · rw [hspan, TokenStream.start_extent]
      exact hs.start_mono hji
    · exact ih hrest (Nat.le_trans hji (Nat.le_add_right _ _)) t ht

theorem SpansFrom.pairwise (hs : s.Ordered) {ts : Forest} (h : SpansFrom s ts i) :
    ts.Pairwise fun t u => t.span.stop ≤ u.span.start := by
  induction ts generalizing i with
  | nil => exact .nil
  | cons t ts ih =>
    obtain ⟨hspan, -, hrest⟩ := h
    refine .cons (fun u hu => ?_) (ih hrest)
    rw [hspan]
    exact Nat.le_trans (hs.stop_extent_le (Nat.le_refl _))
      (hrest.le_start hs (Nat.le_refl _) u hu)

theorem forestLeaves_ne_nil {ts : Forest} {t : Tree} (ht : t ∈ ts) (hleaves : t.leaves ≠ []) :
    forestLeaves ts ≠ [] := by
  obtain ⟨as, bs, rfl⟩ := List.append_of_mem ht
  simp [forestLeaves, hleaves]

theorem SpansFrom.stop_le (hs : s.Ordered) {ts : Forest} (h : SpansFrom s ts i)
    (hlast : ∀ c, ts.getLast? = some c → c.leaves ≠ []) :
    ∀ t ∈ ts, t.span.stop ≤ (s.extent i (forestLeaves ts).length).stop := by
  induction ts generalizing i with
  | nil => simp
  | cons t ts ih =>
    obtain ⟨hspan, -, hrest⟩ := h
    cases ts with
    | nil =>
      intro u hu
      refine Nat.le_of_eq ?_
      rw [List.mem_singleton.1 hu, hspan, forestLeaves, forestLeaves, List.append_nil]
    | cons u us =>
      have hlast' : ∀ c, (u :: us).getLast? = some c → c.leaves ≠ [] := by
        intro c hc
        exact hlast c (by rw [List.getLast?_cons_cons, hc])
      have hpos : 0 < (forestLeaves (u :: us)).length := by
        obtain ⟨c, hc⟩ :=
          Option.isSome_iff_exists.1 (List.getLast?_isSome.2 (List.cons_ne_nil u us))
        exact List.length_pos_iff.2 (forestLeaves_ne_nil (List.mem_of_getLast? hc) (hlast' c hc))
      have hstop : (s.extent (i + t.leaves.length) (forestLeaves (u :: us)).length).stop ≤
          (s.extent i (forestLeaves (t :: u :: us)).length).stop := by
        have hleaves : forestLeaves (t :: u :: us) = t.leaves ++ forestLeaves (u :: us) := rfl
        rw [hleaves, List.length_append]
        exact Nat.le_of_eq (TokenStream.stop_extent_add hpos)
      have hfirst : (s.extent i t.leaves.length).stop ≤
          (s.extent (i + t.leaves.length) (forestLeaves (u :: us)).length).stop :=
        Nat.le_trans (hs.stop_extent_le (Nat.le_refl _)) (hs.start_le_stop_extent _ _)
      intro v hv
      rcases List.mem_cons.1 hv with rfl | hv
      · rw [hspan]
        exact Nat.le_trans hfirst hstop
      · exact Nat.le_trans (ih hrest hlast' v hv) hstop

theorem Laid.fst_ne {t : Tree} (h : t.Laid s i) (hleaves : t.leaves ≠ []) :
    (s.tokenAt i).kind ≠ .eof := by
  have hpos : 0 < t.leaves.length := List.length_pos_iff.2 hleaves
  refine h.kind_ne (s.tokenAt i).entry ?_
  rw [h.leaves_eq]
  exact List.mem_map.2 ⟨i, List.mem_range'_1.2 ⟨Nat.le_refl i, Nat.lt_add_of_pos_right hpos⟩, rfl⟩

mutual

/-- The span of a tree is that of its leaves. -/
theorem Laid.spans (hs : s.Ordered) {t : Tree} {i : Nat} (h : t.Laid s i) :
    t.span = s.extent i t.leaves.length ∧ (t.contributes = true ↔ t.leaves ≠ []) := by
  cases t with
  | leaf k span =>
    refine ⟨?_, by simp [contributes, leaves]⟩
    exact congrArg Prod.snd h.1
  | node k span cs =>
    obtain ⟨start, hspan, hstart⟩ := h.1.span
    have hcs := ForestLaid.spans hs h.2
    have hextent : span = s.extent i (forestLeaves cs).length := by
      refine hspan.trans (hcs.extent_eq hs fun _ => ?_)
      rcases hstart with hstart | ⟨first, hfirst, hstart⟩
      · exact hstart
      · obtain ⟨rest, rfl⟩ := List.head?_eq_some_iff.1 hfirst
        rw [hstart, hcs.1, TokenStream.start_extent]
    refine ⟨hextent, ?_⟩
    have hempty : (node k span cs).contributes = !span.isEmpty := rfl
    have hleaves : (node k span cs).leaves = forestLeaves cs := rfl
    rw [hempty, hleaves, hextent]
    cases hn : (forestLeaves cs).length with
    | zero => simp [List.length_eq_zero_iff.1 hn]
    | succ n =>
      have hne : forestLeaves cs ≠ [] := List.ne_nil_of_length_eq_add_one hn
      have hfilled := hs.filled i (h.fst_ne hne)
      have hstop := hs.stop_mono (Nat.le_add_right i n)
      have hlt := Nat.ne_of_lt (Nat.lt_of_lt_of_le hfilled hstop)
      simp [TokenStream.extent_succ, Span.isEmpty, hlt, hne]

theorem ForestLaid.spans (hs : s.Ordered) {ts : Forest} {i : Nat} (h : ForestLaid s ts i) :
    SpansFrom s ts i := by
  cases ts with
  | nil => trivial
  | cons t ts =>
    obtain ⟨hspan, hcontributes⟩ := Laid.spans hs h.2.1
    exact ⟨hspan, hcontributes, ForestLaid.spans hs h.2.2⟩

end

end Tree

namespace TokenStream
variable {source : String} {ts : TokenList}

theorem prefix_of_byteLength_le {as bs cs : List Char} (ha : as <+: cs) (hb : bs <+: cs)
    (h : byteLength as ≤ byteLength bs) : as <+: bs := by
  rcases List.prefix_or_prefix_of_prefix ha hb with hab | ⟨more, rfl⟩
  · exact hab
  · cases more with
    | nil => simp
    | cons c more =>
      rw [Text.byteLength_append] at h
      have := Text.byteLength_pos (List.cons_ne_nil c more)
      omega

/-- The span of some tokens cuts the source. -/
theorem cut_extent (h : lex source = .ok ts) (i n : Nat) : ∃ before inside after,
    source.toList = before ++ inside ++ after ∧
      (ofList ts).extent i n = ⟨byteLength before, byteLength before + byteLength inside⟩ := by
  obtain ⟨before, inside, after, htext, hspan, -⟩ := cut_of_lex h i
  cases n with
  | zero => exact ⟨before, [], inside ++ after, by simp [htext], by simp [hspan, Span.point]⟩
  | succ n =>
    obtain ⟨front, last, rest, htext', hspan', -⟩ := cut_of_lex h (i + n)
    have hstart : before <+: source.toList := ⟨inside ++ after, by simp [htext]⟩
    have hstop : front ++ last <+: source.toList := ⟨rest, htext'.symm⟩
    have hle := (ordered_of_lex h).start_le_stop (Nat.le_add_right i n)
    rw [hspan, hspan'] at hle
    obtain ⟨covered, hcovered⟩ := prefix_of_byteLength_le hstart hstop
      (by rwa [Text.byteLength_append])
    refine ⟨before, covered, rest, by rw [hcovered, htext'], ?_⟩
    have hlength : byteLength before + byteLength covered = byteLength front + byteLength last := by
      rw [← Text.byteLength_append, hcovered, Text.byteLength_append]
    rw [extent_succ, hspan, hspan', hlength]

end TokenStream

/-- The law of spans for a node, where `next` is the token that stands where it does. -/
structure Tree.Spanned (source : String) (next : Token) (n : Tree) : Prop where
  filled : ∀ first last, n.leaves.head? = some first → n.leaves.getLast? = some last →
    n.span = ⟨first.2.start, last.2.stop⟩ ∧
      ∃ before inside after, source.toList = before ++ inside ++ after ∧
        n.span = ⟨byteLength before, byteLength before + byteLength inside⟩ ∧
        n.text source = String.ofList inside
  empty : n.leaves = [] →
    (n.nodeKind? = some .modifiers ∨ n.nodeKind? = some .compilationUnit) ∧
      n.span = Span.point next.span.start
  within : ∀ c ∈ n.children, n.span.start ≤ c.span.start ∧ c.span.stop ≤ n.span.stop
  ordered : n.children.Pairwise fun c d => c.span.stop ≤ d.span.start

theorem TokenStream.ends_reading {s : TokenStream} {i n : Nat} {first last : TokenKind × Span}
    (hfirst : (s.reading i n).head? = some first) (hlast : (s.reading i n).getLast? = some last) :
    s.extent i n = ⟨first.2.start, last.2.stop⟩ := by
  cases n with
  | zero => cases hfirst
  | succ n =>
    have hhead : first = (s.tokenAt i).entry := (Option.some.inj hfirst).symm
    have htail : last = (s.tokenAt (i + n)).entry := by
      rw [← reading_append, List.getLast?_append] at hlast
      exact (Option.some.inj hlast).symm
    rw [hhead, htail]
    rfl

theorem Tree.Laid.spanned {source : String} {ts : TokenList} {n : Tree} {i : Nat}
    (hlex : lex source = .ok ts) (h : n.Laid (.ofList ts) i) (hplaced : n.Placed (.ofList ts) i)
    (htrim : n.Trim) : n.Spanned source ((TokenStream.ofList ts).tokenAt i) := by
  have hs := TokenStream.ordered_of_lex hlex
  have hspan := (h.spans hs).1
  refine ⟨fun first last hfirst hlast => ?_, fun hleaves => ?_, ?_, ?_⟩
  · rw [h.leaves_eq] at hfirst hlast
    refine ⟨hspan.trans (TokenStream.ends_reading hfirst hlast), ?_⟩
    obtain ⟨before, inside, after, htext, hcut⟩ := TokenStream.cut_extent hlex i n.leaves.length
    refine ⟨before, inside, after, htext, hspan.trans hcut, ?_⟩
    rw [text, hspan, hcut, Text.sliceOr, htext, Text.slice?_append]
    rfl
  · refine ⟨?_, by rw [hspan, hleaves, List.length_nil, TokenStream.extent_zero]⟩
    obtain ⟨kind, hkind, hempty⟩ := hplaced.filled.resolve_left fun hne => hne hleaves
    rw [hkind]
    cases kind with
    | modifiers => exact .inl rfl
    | compilationUnit => exact .inr rfl
    | _ => cases hempty
  · cases n with
    | leaf => exact fun c hc => nomatch hc
    | node kind span cs =>
      have hcs := ForestLaid.spans hs h.2
      intro c hc
      rw [hspan, TokenStream.start_extent]
      exact ⟨hcs.le_start hs (Nat.le_refl i) c hc, hcs.stop_le hs htrim c hc⟩
  · cases n with
    | leaf => exact .nil
    | node kind span cs => exact (ForestLaid.spans hs h.2).pairwise hs

/-- The spans of a tree that has been parsed from a source: a node with leaves spans the source
from the first leaf to the last one, only modifiers and the whole source may have none and are
then the point where the next token starts, and children lie in their parent in order. -/
theorem spanned_of_parse {source : String} {ts : TokenList} {options : ParseOptions} {e : Entry}
    {t : Tree} (hlex : lex source = .ok ts) (h : parse e ts options = .ok t) :
    (t.places 0).map Prod.snd = t.nodes ∧
      ∀ p ∈ t.places 0, (p.2 = t ∨ p.2.nodeKind? ≠ some .compilationUnit) ∧
        p.2.Spanned source ((TokenStream.ofList ts).tokenAt p.1) := by
  have hnodes : (t.places 0).map Prod.snd = t.nodes := by rw [t.map_places, Tree.nodes_eq]
  refine ⟨hnodes, fun p hp => ?_⟩
  obtain ⟨hroot, hplaced, hlaid⟩ := (parse_laid h).places p hp
  have hmem : p.2 ∈ t.nodes := by
    rw [← hnodes]
    exact List.mem_map_of_mem hp
  exact ⟨hroot, hlaid.spanned hlex hplaced (parse_trim h p.2 hmem)⟩

/-- The tokens of `class A { }` -/
def emptyClass : TokenList where
  source := "class A { }"
  tokens := #[⟨.kwClass, ⟨0, 5⟩, ⟨1, 1⟩⟩, ⟨.ident, ⟨6, 7⟩, ⟨1, 7⟩⟩, ⟨.lbrace, ⟨8, 9⟩, ⟨1, 9⟩⟩,
    ⟨.rbrace, ⟨10, 11⟩, ⟨1, 11⟩⟩, ⟨.eof, ⟨11, 11⟩, ⟨1, 12⟩⟩]

def emptyClassTree : Tree :=
  .node .compilationUnit ⟨0, 11⟩
    [.node .classDeclaration ⟨0, 11⟩
      [.node .modifiers ⟨0, 0⟩ [], .leaf .kwClass ⟨0, 5⟩, .leaf .ident ⟨6, 7⟩,
        .node .classBody ⟨8, 11⟩ [.leaf .lbrace ⟨8, 9⟩, .leaf .rbrace ⟨10, 11⟩]]]

/-- The modifiers in front of `class A { }` have no leaves and are a point. -/
theorem spanned_emptyClass :
    lex "class A { }" = .ok emptyClass ∧
      parse .compilationUnit emptyClass = .ok emptyClassTree ∧
      ∀ p ∈ emptyClassTree.places 0,
        p.2.Spanned "class A { }" ((TokenStream.ofList emptyClass).tokenAt p.1) := by
  have hlex : lex "class A { }" = .ok emptyClass := rfl
  have hparse : parse .compilationUnit emptyClass = .ok emptyClassTree := by
    rw [parse_eq_ok, Session.run_eq]
    decide +kernel
  exact ⟨hlex, hparse, fun p hp => ((spanned_of_parse hlex hparse).2 p hp).2⟩

end JavaSyntax
