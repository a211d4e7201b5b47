import Mathlib.Order.Bounds.Basic
import JavaSyntax.Proofs.Brackets

/-!
# Delimiters in any tokens

The pass that fills the table of delimiters is made for tokens that need not be balanced: it
passes over closers that do not fit and leaves open what nothing closes. Still the table is a
matching. An opening delimiter is closed by the first closer of its kind before which all
delimiters opened since are closed, and by nothing if there is none. From this alone it follows
that the pairs are nested or apart. The pass keeps it of the tokens behind it, together with
the fact that what still waits has met no such closer.
-/

namespace JavaSyntax

namespace TokenStream

/-- Token `j` is a closer for token `i`, and each delimiter opened between the two is closed
between them, as `close` tells it. -/
structure MayClose (s : TokenStream) (close : Nat → Option Nat) (i j : Nat) : Prop where
  lt : i < j
  closer : (s.kindAt i).closer? = some (s.kindAt j)
  settled : ∀ m, i < m → m < j → (s.kindAt m).closer? ≠ none →
    ∃ c, close m = some c ∧ i < c ∧ c < j

/-- What the pass knows behind the first `n` tokens. -/
structure Filled (s : TokenStream) (n : Nat) (waiting : List (Nat × TokenKind))
    (close : Nat → Option Nat) : Prop where
  waits : ∀ p ∈ waiting, p.1 < n ∧ (s.kindAt p.1).closer? = some p.2 ∧ close p.1 = none
  /-- The innermost delimiter waits in front. -/
  sorted : waiting.Pairwise fun p q => q.1 < p.1
  met : ∀ i < n, (s.kindAt i).closer? ≠ none → close i = none → ∃ p ∈ waiting, p.1 = i
  closes : ∀ i j, close i = some j → j < n ∧ IsLeast {j | s.MayClose close i j} j
  missed : ∀ p ∈ waiting, ∀ j < n, ¬ s.MayClose close p.1 j

namespace Filled
variable {s : TokenStream} {n i j : Nat} {waiting : List (Nat × TokenKind)}
  {close : Nat → Option Nat} {p : Nat × TokenKind} {c : TokenKind}

theorem lt (h : s.Filled n waiting close) (hi : close i = some j) : i < j :=
  ((h.closes i j hi).2.1).lt

theorem eq_none (h : s.Filled n waiting close) (hi : n ≤ i) : close i = none := by
  cases hclose : close i with
  | none => rfl
  | some j =>
    have hij := h.lt hclose
    have hj := (h.closes i j hclose).1
    omega

/-- Behind the innermost delimiter that waits, all that has been opened is closed. -/
theorem exists_close (h : s.Filled n (p :: waiting) close) (hpi : p.1 < i) (hi : i < n)
    (hopen : (s.kindAt i).closer? ≠ none) : ∃ j, close i = some j := by
  cases hclose : close i with
  | some j => exact ⟨j, rfl⟩
  | none =>
    obtain ⟨q, hq, rfl⟩ := h.met i hi hopen hclose
    rcases List.mem_cons.1 hq with rfl | hq
    · exact absurd hpi (Nat.lt_irrefl _)
    · exact absurd hpi (Nat.lt_asymm (List.rel_of_pairwise_cons h.sorted hq))

/-- A delimiter that waits further out is not closed at `j` before the inner one is. -/
theorem not_mayClose (h : s.Filled n (p :: waiting) close) {close' : Nat → Option Nat}
    {q : Nat × TokenKind} (hq : q ∈ waiting) (hj : p.1 < j)
    (hp : ∀ c, close' p.1 = some c → j ≤ c) : ¬ s.MayClose close' q.1 j := by
  intro hmay
  have hopen : (s.kindAt p.1).closer? ≠ none := by
    rw [(h.waits p List.mem_cons_self).2.1]
    exact Option.some_ne_none _
  obtain ⟨c, hc, -, hcj⟩ :=
    hmay.settled p.1 (List.rel_of_pairwise_cons h.sorted hq) hj hopen
  exact absurd hcj (Nat.not_lt.2 (hp c hc))

theorem opener (h : s.Filled n waiting close) (hc : (s.kindAt n).closer? = some c) :
    s.Filled (n + 1) ((n, c) :: waiting) close where
  waits := by
    intro p hp
    rcases List.mem_cons.1 hp with rfl | hp
    · exact ⟨Nat.lt_succ_self n, hc, h.eq_none (Nat.le_refl n)⟩
    · exact ⟨Nat.lt_succ_of_lt (h.waits p hp).1, (h.waits p hp).2⟩
  sorted := List.pairwise_cons.2 ⟨fun p hp => (h.waits p hp).1, h.sorted⟩
  met := by
    intro i hi hopen hnone
    rcases Nat.lt_succ_iff_lt_or_eq.1 hi with hi | rfl
    · obtain ⟨p, hp, rfl⟩ := h.met i hi hopen hnone
      exact ⟨p, List.mem_cons_of_mem _ hp, rfl⟩
    · exact ⟨(i, c), List.mem_cons_self, rfl⟩
  closes i j hi := ⟨Nat.lt_succ_of_lt (h.closes i j hi).1, (h.closes i j hi).2⟩
  missed := by
    intro p hp j hj hmay
    rcases List.mem_cons.1 hp with rfl | hp
    · exact absurd hmay.lt (Nat.not_lt.2 (Nat.le_of_lt_succ hj))
    · rcases Nat.lt_succ_iff_lt_or_eq.1 hj with hj | rfl
      · exact h.missed p hp j hj hmay
      · -- An opening delimiter closes nothing.
        have hnone := TokenKind.closer?_of_isCloser (TokenKind.isCloser_of_closer? hmay.closer)
        rw [hc] at hnone
        cases hnone

theorem other (h : s.Filled n waiting close) (hc : (s.kindAt n).closer? = none)
    (hhead : ∀ p ∈ waiting.head?, p.2 ≠ s.kindAt n) : s.Filled (n + 1) waiting close where
  waits p hp := ⟨Nat.lt_succ_of_lt (h.waits p hp).1, (h.waits p hp).2⟩
  sorted := h.sorted
  met := by
    intro i hi hopen hnone
    rcases Nat.lt_succ_iff_lt_or_eq.1 hi with hi | rfl
    · exact h.met i hi hopen hnone
    · exact absurd hc hopen
  closes i j hi := ⟨Nat.lt_succ_of_lt (h.closes i j hi).1, (h.closes i j hi).2⟩
  missed := by
    intro p hp j hj hmay
    rcases Nat.lt_succ_iff_lt_or_eq.1 hj with hj | rfl
    · exact h.missed p hp j hj hmay
    cases waiting with
    | nil => cases hp
    | cons q waiting =>
      rcases List.mem_cons.1 hp with rfl | hp
      · have hclose := hmay.closer.symm.trans (h.waits p List.mem_cons_self).2.1
        exact hhead p rfl (Option.some.inj hclose).symm
      · obtain ⟨hlt, -, hnone⟩ := h.waits q List.mem_cons_self
        exact h.not_mayClose hp hlt (by simp [hnone]) hmay

section
variable (h : s.Filled n (p :: waiting) close)
include h

/-- What a delimiter may be closed by up to now does not depend on what the next token closes. -/
theorem mayClose_update (hj : j ≤ n) :
    s.MayClose (Function.update close p.1 (some n)) i j ↔ s.MayClose close i j := by
  have hnone := (h.waits p List.mem_cons_self).2.2
  have hsame (m c : Nat) (hc : c < j) :
      Function.update close p.1 (some n) m = some c ↔ close m = some c := by
    by_cases hm : m = p.1
    · subst hm
      simp only [Function.update_self, hnone, Option.some.injEq, reduceCtorEq, iff_false]
      omega
    · rw [Function.update_of_ne hm]
  constructor
  · rintro ⟨hlt, hcloser, hsettled⟩
    refine ⟨hlt, hcloser, fun m him hmj hopen => ?_⟩
    obtain ⟨c, hc, hic, hcj⟩ := hsettled m him hmj hopen
    exact ⟨c, (hsame m c hcj).1 hc, hic, hcj⟩
  · rintro ⟨hlt, hcloser, hsettled⟩
    refine ⟨hlt, hcloser, fun m him hmj hopen => ?_⟩
    obtain ⟨c, hc, hic, hcj⟩ := hsettled m him hmj hopen
    exact ⟨c, (hsame m c hcj).2 hc, hic, hcj⟩

theorem isLeast_update (hj : j ≤ n) (hmay : s.MayClose close i j)
    (hfirst : ∀ k < j, ¬ s.MayClose close i k) :
    IsLeast {j | s.MayClose (Function.update close p.1 (some n)) i j} j := by
  refine ⟨(h.mayClose_update hj).2 hmay, fun k hk => Nat.le_of_not_lt fun hkj => ?_⟩
  exact hfirst k hkj ((h.mayClose_update (by omega)).1 hk)

theorem closer (hk : p.2 = s.kindAt n) :
    s.Filled (n + 1) waiting (Function.update close p.1 (some n)) where
  waits := by
    intro q hq
    obtain ⟨hlt, hopen, hnone⟩ := h.waits q (List.mem_cons_of_mem _ hq)
    refine ⟨Nat.lt_succ_of_lt hlt, hopen, ?_⟩
    rw [Function.update_of_ne (Nat.ne_of_lt (List.rel_of_pairwise_cons h.sorted hq)), hnone]
  sorted := h.sorted.of_cons
  met := by
    intro i hi hopen hnone
    have hip : i ≠ p.1 := by
      rintro rfl
      rw [Function.update_self] at hnone
      cases hnone
    rw [Function.update_of_ne hip] at hnone
    rcases Nat.lt_succ_iff_lt_or_eq.1 hi with hi | rfl
    · obtain ⟨q, hq, rfl⟩ := h.met i hi hopen hnone
      rcases List.mem_cons.1 hq with rfl | hq
      · exact absurd rfl hip
      · exact ⟨q, hq, rfl⟩
    · rw [← hk] at hopen
      obtain ⟨-, hcloser, -⟩ := h.waits p List.mem_cons_self
      exact absurd (TokenKind.closer?_of_isCloser (TokenKind.isCloser_of_closer? hcloser)) hopen
  closes := by
    intro i j hi
    obtain ⟨hlt, hopen, -⟩ := h.waits p List.mem_cons_self
    by_cases hip : i = p.1
    · subst hip
      rw [Function.update_self] at hi
      cases hi
      refine ⟨Nat.lt_succ_self n, h.isLeast_update (Nat.le_refl n) ⟨hlt, hk ▸ hopen, ?_⟩
        (h.missed p List.mem_cons_self)⟩
      intro m hpm hmn hm
      obtain ⟨c, hc⟩ := h.exists_close hpm hmn hm
      exact ⟨c, hc, Nat.lt_trans hpm (h.lt hc), (h.closes m c hc).1⟩
    · rw [Function.update_of_ne hip] at hi
      obtain ⟨hj, hmay, hleast⟩ := h.closes i j hi
      refine ⟨Nat.lt_succ_of_lt hj, h.isLeast_update (Nat.le_of_lt hj) hmay ?_⟩
      exact fun k hkj hk => absurd (hleast hk) (Nat.not_le.2 hkj)
  missed := by
    intro q hq j hj hmay
    rcases Nat.lt_succ_iff_lt_or_eq.1 hj with hj | rfl
    · exact h.missed q (List.mem_cons_of_mem _ hq) j hj
        ((h.mayClose_update (Nat.le_of_lt hj)).1 hmay)
    · refine h.not_mayClose hq (h.waits p List.mem_cons_self).1 ?_ hmay
      simp [Function.update_self]

end

/-- Behind the last token, the table tells the first closer of each delimiter that has one. -/
theorem close_eq_some_iff (h : s.Filled s.length waiting close) :
    close i = some j ↔ IsLeast {j | s.MayClose close i j} j := by
  refine ⟨fun hi => (h.closes i j hi).2, fun hleast => ?_⟩
  cases hclose : close i with
  | some k => rw [(h.closes i k hclose).2.unique hleast]
  | none =>
    have hmay : s.MayClose close i j := hleast.1
    have hopen : (s.kindAt i).closer? ≠ none := by
      rw [hmay.closer]
      exact Option.some_ne_none _
    have hj : j < s.length := by
      refine lt_length_of_kindAt fun heof => ?_
      have hcloser := TokenKind.isCloser_of_closer? hmay.closer
      rw [heof] at hcloser
      cases hcloser
    obtain ⟨p, hp, rfl⟩ := h.met i (Nat.lt_trans hmay.lt hj) hopen hclose
    exact absurd hmay (h.missed p hp j hj)

end Filled
end TokenStream

namespace Delimiters
variable {s : TokenStream} {n : Nat} {waiting : List (Nat × TokenKind)}
  {table : Array (Option Nat)}

def entry (table : Array (Option Nat)) (i : Nat) : Option Nat := (table[i]?).join

theorem entry_replicate (n : Nat) : entry (Array.replicate n none) = fun _ => none := by
  funext i
  rw [entry, Array.getElem?_replicate]
  split <;> rfl

theorem entry_setIfInBounds {i : Nat} (hi : i < table.size) (j : Option Nat) :
    entry (table.setIfInBounds i j) = Function.update (entry table) i j := by
  funext m
  by_cases hm : m = i
  · subst hm
    rw [entry, Array.getElem?_setIfInBounds_self_of_lt hi, Function.update_self, Option.join_some]
  · rw [entry, Array.getElem?_setIfInBounds_ne (Ne.symm hm), Function.update_of_ne hm, entry]

theorem exists_filled (h : s.Filled n waiting (entry table)) (hn : n ≤ s.length)
    (hsize : table.size = s.length) :
    ∃ rest, s.Filled s.length rest (entry (fill n waiting table (s.kindsFrom n s.length))) := by
  obtain ⟨left, hleft⟩ := Nat.exists_eq_add_of_le hn
  induction left generalizing n waiting table with
  | zero =>
    obtain rfl : s.length = n := hleft
    refine ⟨waiting, ?_⟩
    rw [TokenStream.kindsFrom, Nat.sub_self]
    exact h
  | succ left ih =>
    have hlt : n < s.length := by omega
    rw [TokenStream.kindsFrom_cons hlt]
    cases hc : (s.kindAt n).closer? with
    | some c =>
      rw [fill_opener hc]
      exact ih (h.opener hc) hlt hsize (by omega)
    | none =>
      by_cases hhead : ∀ p ∈ waiting.head?, p.2 ≠ s.kindAt n
      · rw [fill_other hc hhead]
        exact ih (h.other hc hhead) hlt hsize (by omega)
      · cases waiting with
        | nil => simp at hhead
        | cons p waiting =>
          have hk : p.2 = s.kindAt n := by simpa using hhead
          have hp : p.1 < table.size := by
            rw [hsize]
            exact Nat.lt_trans (h.waits p List.mem_cons_self).1 hlt
          rw [fill_closer hc hk]
          refine ih ?_ hlt (by rw [Array.size_setIfInBounds, hsize]) (by omega)
          rw [entry_setIfInBounds hp]
          exact h.closer hk

end Delimiters

namespace TokenStream
variable {s : TokenStream} {i j m k : Nat}

theorem matchingClose?_eq_some_iff :
    s.matchingClose? i = some j ↔ IsLeast {j | s.MayClose s.matchingClose? i j} j := by
  have hempty : s.Filled 0 [] (Delimiters.entry (Array.replicate s.length none)) := by
    rw [Delimiters.entry_replicate]
    exact ⟨by simp, .nil, by simp, by simp, by simp⟩
  obtain ⟨rest, h⟩ := Delimiters.exists_filled hempty (Nat.zero_le _) (by simp)
  have htable : s.closers = Delimiters.fill 0 [] (Array.replicate s.length none)
      (s.kindsFrom 0 s.length) := by
    rw [s.closers_eq, Delimiters.table, kinds_eq, length_kindsFrom, Nat.sub_zero]
  rw [← htable] at h
  exact h.close_eq_some_iff

theorem mayClose_of_matchingClose? (h : s.matchingClose? i = some j) :
    s.MayClose s.matchingClose? i j :=
  (matchingClose?_eq_some_iff.1 h).1

theorem matchingClose?_lt (hi : s.matchingClose? i = some j) (hm : s.matchingClose? m = some k)
    (him : i < m) (hmj : m < j) : k < j := by
  have hopen : (s.kindAt m).closer? ≠ none := by
    rw [(mayClose_of_matchingClose? hm).closer]
    exact Option.some_ne_none _
  obtain ⟨c, hc, -, hcj⟩ := (mayClose_of_matchingClose? hi).settled m him hmj hopen
  rw [hm] at hc
  cases hc
  exact hcj

/-- Of two pairs one is inside the other or behind it. -/
theorem matchingClose?_nested (hi : s.matchingClose? i = some j)
    (hm : s.matchingClose? m = some k) (him : i < m) : k < j ∨ j < m := by
  rcases Nat.lt_trichotomy m j with hmj | rfl | hmj
  · exact .inl (matchingClose?_lt hi hm him hmj)
  · -- The closer of the one pair would open the other.
    have hnone := TokenKind.closer?_of_isCloser
      (TokenKind.isCloser_of_closer? (mayClose_of_matchingClose? hi).closer)
    rw [(mayClose_of_matchingClose? hm).closer] at hnone
    cases hnone
  · exact .inr hmj

theorem matchingClose?_injective (hi : s.matchingClose? i = some j)
    (hm : s.matchingClose? m = some j) : i = m := by
  have hnot {i m : Nat} (hi : s.matchingClose? i = some j) (hm : s.matchingClose? m = some j) :
      ¬ i < m := fun him =>
    Nat.lt_irrefl j (matchingClose?_lt hi hm him (mayClose_of_matchingClose? hm).lt)
  exact Nat.le_antisymm (Nat.not_lt.1 (hnot hm hi)) (Nat.not_lt.1 (hnot hi hm))

end TokenStream

/-- Balanced or not, the tokens of a list are matched properly. A delimiter is closed behind it
and by its closer, no token closes two, and any two pairs are nested or apart. The closer is the
first one of its kind before which all that has been opened since is closed, and where there is
none, the delimiter stays open. -/
theorem matchingClose?_proper (ts : TokenList) :
    let s := TokenStream.ofList ts
    (∀ i j, s.matchingClose? i = some j →
        i < j ∧ (s.kindAt i).closer? = some (s.kindAt j)) ∧
      (∀ i m j, s.matchingClose? i = some j → s.matchingClose? m = some j → i = m) ∧
      (∀ i j m k, s.matchingClose? i = some j → s.matchingClose? m = some k → i < m →
        k < j ∨ j < m) ∧
      ∀ i j, s.matchingClose? i = some j ↔
        IsLeast {j | i < j ∧ (s.kindAt i).closer? = some (s.kindAt j) ∧
          ∀ m, i < m → m < j → (s.kindAt m).closer? ≠ none →
            ∃ c, s.matchingClose? m = some c ∧ i < c ∧ c < j} j := by
  intro s
  refine ⟨fun i j hi => ?_, fun i m j => TokenStream.matchingClose?_injective,
    fun i j m k => TokenStream.matchingClose?_nested, fun i j => ?_⟩
  · have hmay := TokenStream.mayClose_of_matchingClose? hi
    exact ⟨hmay.lt, hmay.closer⟩
  · have hset (j : Nat) : s.MayClose s.matchingClose? i j ↔
        i < j ∧ (s.kindAt i).closer? = some (s.kindAt j) ∧
          ∀ m, i < m → m < j → (s.kindAt m).closer? ≠ none →
            ∃ c, s.matchingClose? m = some c ∧ i < c ∧ c < j :=
      ⟨fun h => ⟨h.lt, h.closer, h.settled⟩, fun h => ⟨h.1, h.2.1, h.2.2⟩⟩
    simp only [← hset]
    exact TokenStream.matchingClose?_eq_some_iff

/-- In `( [ ) { ] } ]` the closers at 2 and 4 are passed over, and the parenthesis stays open. -/
example : Delimiters.table [.lparen, .lbracket, .rparen, .lbrace, .rbracket, .rbrace, .rbracket] =
    #[none, some 6, none, some 5, none, none, none] := by
  decide

end JavaSyntax
