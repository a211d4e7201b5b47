import Mathlib.Algebra.Group.Nat.Defs
import Mathlib.Data.List.Sort
import JavaSyntax.Token.KindSet

/-!
# Members of sets of kinds

A set is a field of bits, and its members are read off by clearing the lowest bit over and over,
up to a bit that no kind has. On sets that are put together by the operations there is no such
bit, so that nothing is cut off and the count of bits is the count of members. A field says of each
kind whether it was put in, and nothing else, and so sets of the same kinds are equal.
-/

namespace JavaSyntax

namespace TokenKind
variable {i : Nat} {k : TokenKind}

theorem map_index_all : all.map index = List.range 106 := by decide

theorem ofIndex?_eq_some_iff : ofIndex? i = some k ↔ k.index = i := by
  constructor
  · intro h
    have hmap : (all.map index)[i]? = some k.index := by
      rw [List.getElem?_map]
      exact congrArg (Option.map index) h
    rw [map_index_all, List.getElem?_eq_some_iff] at hmap
    obtain ⟨hi, hk⟩ := hmap
    rw [← hk, List.getElem_range]
  · rintro rfl
    exact ofIndex?_index k

theorem ofIndex?_eq_none_iff : ofIndex? i = none ↔ 106 ≤ i := by
  rw [ofIndex?, List.getElem?_eq_none_iff, length_all]

end TokenKind

namespace KindSet
variable {bits i j : Nat} {k : TokenKind} {s t : KindSet}

/-! ### The lowest bit -/

theorem testBit_of_lt_lowestBit (h : j < lowestBit bits) : bits.testBit j = false := by
  rw [lowestBit] at h
  cases hfind : (List.range width).find? bits.testBit with
  | some i =>
    rw [hfind, Option.getD_some] at h
    simpa using (List.find?_range_eq_some.1 hfind).2.2 j h
  | none =>
    rw [hfind, Option.getD_none] at h
    simpa using List.find?_eq_none.1 hfind j (List.mem_range.2 h)

theorem testBit_lowestBit (h : lowestBit bits < width) : bits.testBit (lowestBit bits) = true := by
  rw [lowestBit] at h ⊢
  cases hfind : (List.range width).find? bits.testBit with
  | some i => exact (List.find?_range_eq_some.1 hfind).1
  | none =>
    rw [hfind, Option.getD_none] at h
    exact absurd h (Nat.lt_irrefl width)

/-- Above its lowest bit `i` a number is a multiple of the next power. -/
theorem eq_add_two_pow (hi : bits.testBit i = true) (hlow : ∀ j < i, bits.testBit j = false) :
    bits = 2 ^ (i + 1) * (bits / 2 ^ (i + 1)) + 2 ^ i := by
  have hmod : bits % 2 ^ (i + 1) = 2 ^ i := by
    refine Nat.eq_of_testBit_eq fun j => ?_
    rw [Nat.testBit_mod_two_pow, Nat.testBit_two_pow]
    rcases Nat.lt_trichotomy j i with hj | rfl | hj
    · rw [hlow j hj, Bool.and_false, decide_eq_false (Nat.ne_of_gt hj)]
    · rw [hi, Bool.and_true, decide_eq_true (Nat.lt_succ_self j), decide_eq_true rfl]
    · rw [decide_eq_false (by omega), Bool.false_and, decide_eq_false (Nat.ne_of_lt hj)]
  rw [← hmod, Nat.div_add_mod]

/-- The number and its predecessor have the same bits above the lowest one, and share none up
to there. -/
theorem testBit_and_pred (hi : bits.testBit i = true) (hlow : ∀ j < i, bits.testBit j = false) :
    (bits &&& (bits - 1)).testBit j = (bits.testBit j && decide (j ≠ i)) := by
  have hpos : 0 < 2 ^ i := Nat.two_pow_pos i
  have hpow : 2 ^ i < 2 ^ (i + 1) := Nat.pow_lt_pow_succ (by decide)
  have hpred : bits - 1 = 2 ^ (i + 1) * (bits / 2 ^ (i + 1)) + (2 ^ i - 1) := by
    have heq := eq_add_two_pow hi hlow
    omega
  rw [Nat.testBit_and, hpred, Nat.testBit_two_pow_mul_add _ (by omega),
    Nat.testBit_two_pow_sub_one]
  rcases Nat.lt_trichotomy j i with hj | rfl | hj
  · rw [hlow j hj, Bool.false_and, Bool.false_and]
  · rw [if_pos (Nat.lt_succ_self j), decide_eq_false (Nat.lt_irrefl j), Bool.and_false]
    simp
  · rw [if_neg (by omega), Nat.testBit_div_two_pow, Nat.sub_add_cancel (by omega), Bool.and_self,
      decide_eq_true (Nat.ne_of_gt hj), Bool.and_true]

/-! ### Reading the members -/

theorem testBit_clear (hk : TokenKind.ofIndex? (lowestBit bits) = some k) :
    bits.testBit k.index = true ∧
      ((bits &&& (bits - 1)).testBit j = true ↔ bits.testBit j = true ∧ k.index < j) := by
  have hindex := TokenKind.ofIndex?_eq_some_iff.1 hk
  have hlt : lowestBit bits < width := by
    rw [← hindex]
    exact Nat.lt_trans k.index_lt (by decide)
  rw [hindex]
  have hset := testBit_lowestBit hlt
  refine ⟨hset, ?_⟩
  rw [testBit_and_pred hset fun _ => testBit_of_lt_lowestBit, Bool.and_eq_true,
    decide_eq_true_eq]
  refine and_congr_right fun hj => ⟨fun hne => ?_, Nat.ne_of_gt⟩
  refine Nat.lt_of_le_of_ne (Nat.not_lt.1 fun hlt => ?_) (Ne.symm hne)
  rw [testBit_of_lt_lowestBit hlt] at hj
  cases hj

theorem mem_drain : k ∈ drain bits ↔ bits.testBit k.index = true := by
  fun_induction drain bits with
  | case1 => simp
  | case2 bits _ low hlow ih =>
    obtain ⟨hset, hclear⟩ := testBit_clear (j := k.index) hlow
    rw [List.mem_cons, ih, hclear]
    constructor
    · rintro (rfl | ⟨hk, -⟩)
      · exact hset
      · exact hk
    · intro hk
      rcases Nat.lt_trichotomy k.index low.index with hlt | heq | hgt
      · rw [TokenKind.ofIndex?_eq_some_iff.1 hlow] at hlt
        rw [testBit_of_lt_lowestBit hlt] at hk
        cases hk
      · exact .inl (TokenKind.index_injective heq)
      · exact .inr ⟨hk, hgt⟩
  | case3 bits _ hlow =>
    have hlt := Nat.lt_of_lt_of_le k.index_lt (TokenKind.ofIndex?_eq_none_iff.1 hlow)
    simp [testBit_of_lt_lowestBit hlt]

theorem pairwise_drain : (drain bits).Pairwise fun a b => a.index < b.index := by
  fun_induction drain bits with
  | case1 => exact .nil
  | case2 bits _ low hlow ih =>
    refine List.pairwise_cons.2 ⟨fun k hk => ?_, ih⟩
    exact ((testBit_clear hlow).2.1 (mem_drain.1 hk)).2
  | case3 => exact .nil

theorem mem_toList : k ∈ s.toList ↔ s.contains k = true := mem_drain

/-! ### Fields without other bits -/

/-- Each bit that is set stands for a kind. -/
def Proper (s : KindSet) : Prop := s.bits < 2 ^ TokenKind.all.length

theorem proper_empty : empty.Proper := Nat.two_pow_pos _

theorem proper_single (k : TokenKind) : (single k).Proper := by
  rw [Proper, single, Nat.one_shiftLeft, TokenKind.length_all]
  exact Nat.pow_lt_pow_right (by decide) k.index_lt

theorem Proper.union (hs : s.Proper) (ht : t.Proper) : (s.union t).Proper :=
  Nat.or_lt_two_pow hs ht

theorem Proper.insert (hs : s.Proper) (k : TokenKind) : (s.insert k).Proper :=
  hs.union (proper_single k)

theorem proper_ofList (ks : List TokenKind) : (ofList ks).Proper := by
  suffices h : ∀ s : KindSet, s.Proper → (ks.foldl (fun s k => s.insert k) s).Proper from
    h empty proper_empty
  induction ks with
  | nil => exact fun _ hs => hs
  | cons k ks ih => exact fun s hs => ih _ (hs.insert k)

/-- The numbers of the members are the bits that are set. -/
theorem Proper.map_index_toList (h : s.Proper) :
    s.toList.map TokenKind.index = (List.range width).filter s.bits.testBit := by
  refine List.Pairwise.eq_of_mem_iff (r := (· < ·)) (List.pairwise_map.2 pairwise_drain)
    (List.pairwise_lt_range.filter _) fun i => ?_
  simp only [List.mem_map, mem_toList, List.mem_filter, List.mem_range, contains]
  constructor
  · rintro ⟨k, hk, rfl⟩
    exact ⟨Nat.lt_trans k.index_lt (by decide), hk⟩
  · rintro ⟨-, hi⟩
    have hlt : i < 106 := by
      refine Nat.not_le.1 fun hle => ?_
      rw [Nat.testBit_lt_two_pow (Nat.lt_of_lt_of_le h (Nat.pow_le_pow_right (by decide) hle))]
        at hi
      cases hi
    cases hk : TokenKind.ofIndex? i with
    | none => exact absurd hlt (Nat.not_lt.2 (TokenKind.ofIndex?_eq_none_iff.1 hk))
    | some k =>
      obtain rfl := TokenKind.ofIndex?_eq_some_iff.1 hk
      exact ⟨k, hi, rfl⟩

theorem Proper.size_eq (h : s.Proper) : s.size = s.toList.length := by
  rw [size, List.countP_eq_length_filter, ← h.map_index_toList, List.length_map]

theorem Proper.eq_of_contains (hs : s.Proper) (ht : t.Proper)
    (h : ∀ k, s.contains k = t.contains k) : s = t := by
  have hbits : s.bits = t.bits := by
    refine Nat.eq_of_testBit_eq fun i => ?_
    cases hk : TokenKind.ofIndex? i with
    | some k =>
      obtain rfl := TokenKind.ofIndex?_eq_some_iff.1 hk
      exact h k
    | none =>
      have hpow : 2 ^ TokenKind.all.length ≤ 2 ^ i :=
        Nat.pow_le_pow_right (by decide) (TokenKind.ofIndex?_eq_none_iff.1 hk)
      rw [Nat.testBit_lt_two_pow (Nat.lt_of_lt_of_le hs hpow),
        Nat.testBit_lt_two_pow (Nat.lt_of_lt_of_le ht hpow)]
  cases s
  cases t
  exact congrArg KindSet.mk hbits

theorem Proper.isEmpty_iff (h : s.Proper) : s.isEmpty = true ↔ s.toList = [] := by
  rw [isEmpty, beq_iff_eq, List.eq_nil_iff_forall_not_mem]
  constructor
  · intro hbits k hk
    rw [mem_toList, contains, hbits, Nat.zero_testBit] at hk
    cases hk
  · intro hnone
    have hempty : s = empty := by
      refine h.eq_of_contains proper_empty fun k => ?_
      rw [contains_empty, Bool.eq_false_iff]
      exact fun hk => hnone k (mem_toList.2 hk)
    rw [hempty, empty]

/-! ### Operations one after the other -/

/-- How a set has been put together. -/
inductive Construction where
  | empty
  | single (k : TokenKind)
  | ofList (ks : List TokenKind)
  | insert (k : TokenKind) (c : Construction)
  | union (c d : Construction)

namespace Construction

def build : Construction → KindSet
  | empty => KindSet.empty
  | single k => KindSet.single k
  | ofList ks => KindSet.ofList ks
  | insert k c => c.build.insert k
  | union c d => c.build.union d.build

def kinds : Construction → List TokenKind
  | empty => []
  | single k => [k]
  | ofList ks => ks
  | insert k c => k :: c.kinds
  | union c d => c.kinds ++ d.kinds

theorem proper_build (c : Construction) : c.build.Proper := by
  induction c with
  | empty => exact proper_empty
  | single k => exact proper_single k
  | ofList ks => exact proper_ofList ks
  | insert k c ih => exact ih.insert k
  | union c d ihc ihd => exact ihc.union ihd

theorem contains_build (c : Construction) : c.build.contains k = true ↔ k ∈ c.kinds := by
  induction c with
  | empty => simp [build, kinds]
  | single a => simp [build, kinds]
  | ofList ks => simp [build, kinds, contains_ofList]
  | insert a c ih => simp [build, kinds, ih, or_comm]
  | union c d ihc ihd => simp [build, kinds, ihc, ihd]

end Construction
end KindSet

/-- A set put together by any operations is the set of the kinds put in. It holds these and no
others, lists them in the order of the vocabulary and each once, counts as many as it lists, is
empty if it lists none, and equals each set of the same kinds. It has no bit that stands for no
kind. -/
theorem KindSet.build_refines (c : Construction) :
    (∀ k, c.build.contains k = true ↔ k ∈ c.kinds) ∧
      (∀ k, k ∈ c.build.toList ↔ k ∈ c.kinds) ∧
      (c.build.toList.Pairwise fun a b => a.index < b.index) ∧
      c.build.size = c.build.toList.length ∧
      (c.build.isEmpty = true ↔ c.build.toList = []) ∧
      c.build.bits < 2 ^ TokenKind.all.length ∧
      ∀ d : Construction, c.build = d.build ↔ ∀ k, k ∈ c.kinds ↔ k ∈ d.kinds := by
  refine ⟨fun k => c.contains_build, fun k => mem_toList.trans c.contains_build, pairwise_drain,
    c.proper_build.size_eq, c.proper_build.isEmpty_iff, c.proper_build, fun d => ⟨?_, ?_⟩⟩
  · intro h k
    rw [← c.contains_build, h, d.contains_build]
  · intro h
    refine c.proper_build.eq_of_contains d.proper_build fun k => ?_
    rw [Bool.eq_iff_iff, c.contains_build, d.contains_build, h]

example : (KindSet.ofList [.eof, .semi, .ident, .semi]).toList = [.ident, .semi, .eof] := by
  decide +kernel

end JavaSyntax
