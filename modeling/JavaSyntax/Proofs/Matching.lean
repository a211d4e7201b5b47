import JavaSyntax.Proofs.Placement

/-!
# Matching delimiters in a tree

The table of delimiters is filled in one pass that knows nothing of the grammar. On what has been
parsed it says what the tree does: the leaves of each node are balanced, and each opening one is
matched by the leaf that closes it there.
-/

namespace JavaSyntax

namespace Delimiters

/-- Each closing delimiter matches the innermost open one, and none is left open. -/
inductive Balanced : List TokenKind → Prop
  | nil : Balanced []
  | plain {k : TokenKind} {ks : List TokenKind} (hk : k ∉ TokenKind.brackets)
      (h : Balanced ks) : Balanced (k :: ks)
  | pair {k c : TokenKind} {us vs : List TokenKind} (hk : k.closer? = some c)
      (hu : Balanced us) (hv : Balanced vs) : Balanced (k :: us ++ c :: vs)

namespace Balanced
variable {ks : List TokenKind} {k c : TokenKind}

theorem scan_eq (h : Balanced ks) : scan [] ks = some [] := by
  induction h with
  | nil => rfl
  | plain hk _ ih =>
    rw [scan, Reading.step_of_plain hk]
    exact ih
  | @pair k c us vs hk _ _ ihu ihv =>
    have hinner : scan [c] us = some [c] := scan_frame ihu
    rw [List.cons_append, scan, step_opener hk, Option.bind_some, scan_append, hinner,
      Option.bind_some, scan, step_closer (TokenKind.isCloser_of_closer? hk), if_pos rfl]
    exact ihv

theorem not_mem_brackets (hk : k.closer? = none) (hc : k.isCloser = false) :
    k ∉ TokenKind.brackets := by
  cases k <;> first | decide | exact absurd hk (by decide) | exact absurd hc (by decide)

/-- The scan for closers accepts balanced kinds. -/
theorem of_scan (h : scan [] ks = some []) : Balanced ks := by
  generalize hn : ks.length = n
  induction n using Nat.strongRecOn generalizing ks with
  | ind n ih =>
    cases ks with
    | nil => exact .nil
    | cons k ks =>
      subst hn
      rw [scan] at h
      cases hk : k.closer? with
      | none =>
        cases hcloser : k.isCloser with
        | true =>
          rw [step_nil hcloser] at h
          cases h
        | false =>
          rw [step_plain hk hcloser, Option.bind_some] at h
          exact .plain (not_mem_brackets hk hcloser) (ih _ (Nat.lt_succ_self _) h rfl)
      | some c =>
        rw [step_opener hk, Option.bind_some] at h
        obtain ⟨us, vs, rfl, hus, hvs⟩ := exists_close [] h
        refine .pair hk (ih _ ?_ hus rfl) (ih _ ?_ hvs rfl)
        · simp only [List.length_cons, List.length_append]
          omega
        · simp only [List.length_cons, List.length_append]
          omega

theorem iff_scan : Balanced ks ↔ scan [] ks = some [] := ⟨scan_eq, of_scan⟩

instance : DecidablePred Balanced := fun _ => decidable_of_iff' _ iff_scan

theorem exists_closer {us vs : List TokenKind} (h : Balanced (us ++ k :: vs))
    (hk : k.closer? = some c) : ∃ inner rest, vs = inner ++ c :: rest ∧ Balanced inner := by
  have hscan := h.scan_eq
  rw [scan_append] at hscan
  obtain ⟨waiting, -, hscan⟩ := Option.bind_eq_some_iff.1 hscan
  rw [scan, step_opener hk, Option.bind_some] at hscan
  obtain ⟨inner, rest, hvs, hinner, -⟩ := exists_close [] hscan
  exact ⟨inner, rest, hvs, of_scan hinner⟩

end Balanced
end Delimiters

open Delimiters (Balanced)

/-- The node stands at the index with balanced leaves, and the table of delimiters says of each
opening leaf where the one is that closes it. -/
structure Tree.Matched (ts : TokenList) (i : Nat) (n : Tree) : Prop where
  leaves : n.leaves = ts.between i (i + n.leaves.length)
  balanced : Balanced (n.leaves.map Prod.fst)
  closes : ∀ us k c vs, n.leaves.map Prod.fst = us ++ k :: vs → k.closer? = some c →
    ∃ inner rest, vs = inner ++ c :: rest ∧ Balanced inner ∧
      (TokenStream.ofList ts).matchingClose? (i + us.length) =
        some (i + us.length + inner.length + 1)

theorem TokenStream.map_reading (ts : TokenList) (i n : Nat) :
    ((ofList ts).reading i n).map Prod.fst = (ofList ts).kindsFrom i (i + n) := by
  simp [reading, kindsFrom, Token.entry, Function.comp_def, kind_tokenAt_ofList]

/-- A node that stands where it does is matched. -/
theorem Tree.Laid.matched {ts : TokenList} {n : Tree} {i : Nat} (h : n.Laid (.ofList ts) i)
    (hplaced : n.Placed (.ofList ts) i) : n.Matched ts i := by
  have hleaves := h.leaves_eq
  have hmap : n.leaves.map Prod.fst =
      (TokenStream.ofList ts).kindsFrom i (i + n.leaves.length) := by
    rw [← TokenStream.map_reading, ← hleaves]
  have hbalanced : Balanced (n.leaves.map Prod.fst) := by
    rw [hmap]
    exact .of_scan hplaced.balanced
  refine ⟨?_, hbalanced, ?_⟩
  · refine hleaves.trans (TokenStream.reading_ofList ?_).1
    intro k hik hki heof
    refine h.kind_ne ((TokenStream.ofList ts).tokenAt k).entry ?_ heof
    rw [hleaves]
    exact List.mem_map.2 ⟨k, List.mem_range'_1.2 ⟨hik, hki⟩, rfl⟩
  · intro us k c vs hsplit hk
    rw [hsplit] at hbalanced
    obtain ⟨inner, rest, rfl, hinner⟩ := hbalanced.exists_closer hk
    refine ⟨inner, rest, rfl, hinner, ?_⟩
    rw [hmap] at hsplit
    obtain ⟨hle, -, hright⟩ := TokenStream.kindsFrom_split (Nat.le_add_right _ _) hsplit
    obtain ⟨-, hencloses⟩ := TokenStream.encloses_of_kinds hle hk hinner.scan_eq hright
    exact hencloses.matchingClose?

/-- The table of delimiters agrees with the tree: each node of a parsed tree, in the place where it
stands, has balanced leaves, and the table matches each opening one with the leaf that closes
it. -/
theorem matched_of_parse {ts : TokenList} {options : ParseOptions} {e : Entry} {t : Tree}
    (h : parse e ts options = .ok t) :
    (t.places 0).map Prod.snd = t.nodes ∧ ∀ p ∈ t.places 0, p.2.Matched ts p.1 := by
  refine ⟨by rw [t.map_places, Tree.nodes_eq], fun p hp => ?_⟩
  obtain ⟨-, hplaced, hlaid⟩ := (parse_laid h).places p hp
  exact hlaid.matched hplaced

/-- `f(a[0])` -/
def indexArgument : TokenList where
  source := "f(a[0])"
  tokens := #[⟨.ident, ⟨0, 1⟩, ⟨1, 1⟩⟩, ⟨.lparen, ⟨1, 2⟩, ⟨1, 2⟩⟩, ⟨.ident, ⟨2, 3⟩, ⟨1, 3⟩⟩,
    ⟨.lbracket, ⟨3, 4⟩, ⟨1, 4⟩⟩, ⟨.intLiteral, ⟨4, 5⟩, ⟨1, 5⟩⟩, ⟨.rbracket, ⟨5, 6⟩, ⟨1, 6⟩⟩,
    ⟨.rparen, ⟨6, 7⟩, ⟨1, 7⟩⟩, ⟨.eof, ⟨7, 7⟩, ⟨1, 8⟩⟩]

def indexArgumentTree : Tree :=
  .node .methodInvocation ⟨0, 7⟩
    [.node .name ⟨0, 1⟩ [.leaf .ident ⟨0, 1⟩],
      .node .argumentList ⟨1, 7⟩
        [.leaf .lparen ⟨1, 2⟩,
          .node .arrayAccess ⟨2, 6⟩
            [.node .name ⟨2, 3⟩ [.leaf .ident ⟨2, 3⟩], .leaf .lbracket ⟨3, 4⟩,
              .node (.literal .integer) ⟨4, 5⟩ [.leaf .intLiteral ⟨4, 5⟩],
              .leaf .rbracket ⟨5, 6⟩],
          .leaf .rparen ⟨6, 7⟩]]

/-- In `f(a[0])` the parenthesis at 1 closes at 6, and the bracket at 3 closes at 5. -/
theorem matched_indexArgument :
    parse .expression indexArgument = .ok indexArgumentTree ∧
      (∀ p ∈ indexArgumentTree.places 0, p.2.Matched indexArgument p.1) ∧
      (TokenStream.ofList indexArgument).matchingClose? 1 = some 6 ∧
      (TokenStream.ofList indexArgument).matchingClose? 3 = some 5 := by
  have hparse : parse .expression indexArgument = .ok indexArgumentTree := by
    rw [parse_eq_ok, Session.run_eq]
    decide +kernel
  exact ⟨hparse, (matched_of_parse hparse).2, by decide, by decide⟩

end JavaSyntax
