import JavaSyntax.Lexer.Lexicon

/-!
# Longest matches

The derivative of an expression by a character matches what may follow that character, so the
length that `longest?` finds is the greatest of those that the expression matches at the start of
a text. The lexicon takes the greatest length of all its entries.
-/

namespace JavaSyntax

namespace Regex
variable {a b r : Regex} {s : CharClass} {c : Char} {w cs : List Char} {n m : Nat}

theorem not_matches_empty (w : List Char) : ¬ empty.Matches w :=
  nofun

theorem matches_epsilon : epsilon.Matches w ↔ w = [] := by
  constructor
  · rintro ⟨⟩
    rfl
  · rintro rfl
    exact .epsilon

theorem matches_one : (one s).Matches w ↔ ∃ c, s.contains c = true ∧ w = [c] := by
  constructor
  · intro h
    cases h with
    | one hc => exact ⟨_, hc, rfl⟩
  · rintro ⟨c, hc, rfl⟩
    exact .one hc

theorem matches_alt : (alt a b).Matches w ↔ a.Matches w ∨ b.Matches w := by
  constructor
  · intro h
    cases h with
    | altLeft h => exact .inl h
    | altRight h => exact .inr h
  · rintro (h | h)
    · exact .altLeft h
    · exact .altRight h

theorem matches_seq :
    (seq a b).Matches w ↔ ∃ u v, w = u ++ v ∧ a.Matches u ∧ b.Matches v := by
  constructor
  · intro h
    cases h with
    | seq hu hv => exact ⟨_, _, rfl, hu, hv⟩
  · rintro ⟨u, v, rfl, hu, hv⟩
    exact .seq hu hv

theorem matches_nil : r.Matches [] ↔ r.nullable = true := by
  induction r with
  | empty => simp [nullable, not_matches_empty]
  | epsilon => simp [nullable, matches_epsilon]
  | one s => simp [nullable, matches_one]
  | alt a b iha ihb => rw [matches_alt, nullable, Bool.or_eq_true, iha, ihb]
  | seq a b iha ihb =>
    rw [matches_seq, nullable, Bool.and_eq_true, ← iha, ← ihb]
    constructor
    · rintro ⟨u, v, huv, hu, hv⟩
      obtain ⟨rfl, rfl⟩ := List.append_eq_nil_iff.1 huv.symm
      exact ⟨hu, hv⟩
    · rintro ⟨hu, hv⟩
      exact ⟨[], [], rfl, hu, hv⟩
  | star a _ => exact ⟨fun _ => rfl, fun _ => .starNil⟩

theorem matches_star_cons : (star a).Matches (c :: w) ↔
    ∃ u v, w = u ++ v ∧ a.Matches (c :: u) ∧ (star a).Matches v := by
  constructor
  · intro h
    generalize hr : star a = r, hx : c :: w = x at h
    induction h with
    | @starCons a' u v hu hv _ ihv =>
      cases hr
      cases u with
      | nil => exact ihv rfl hx
      | cons d u =>
        obtain ⟨rfl, rfl⟩ := List.cons.inj hx
        exact ⟨u, v, rfl, hu, hv⟩
    | starNil => cases hx
    | _ => cases hr
  · rintro ⟨u, v, rfl, hu, hv⟩
    exact .starCons hu hv

theorem matches_join : (join a b).Matches w ↔ a.Matches w ∨ b.Matches w := by
  unfold join
  split
  · simp [not_matches_empty]
  · simp [not_matches_empty]
  · split
    · rename_i heq
      subst heq
      simp [matches_alt]
    · exact matches_alt
  · split
    · rename_i heq
      subst heq
      exact (or_self_iff).symm
    · exact matches_alt

theorem matches_chain : (chain a b).Matches w ↔ (seq a b).Matches w := by
  rw [matches_seq]
  unfold chain
  split
  · simp [not_matches_empty]
  · constructor
    · exact fun h => ⟨[], w, rfl, .epsilon, h⟩
    · rintro ⟨u, v, rfl, hu, hv⟩
      rwa [matches_epsilon.1 hu, List.nil_append]
  · rw [matches_seq]

/-- The derivative matches what may follow the character. -/
theorem matches_derive : (r.derive c).Matches w ↔ r.Matches (c :: w) := by
  induction r generalizing w with
  | empty => simp [derive, not_matches_empty]
  | epsilon => simp [derive, not_matches_empty, matches_epsilon]
  | one s =>
    rw [matches_one, derive]
    split
    · rename_i hc
      rw [matches_epsilon]
      constructor
      · rintro rfl
        exact ⟨c, hc, rfl⟩
      · rintro ⟨d, -, hd⟩
        exact (List.cons.inj hd).2
    · rename_i hc
      constructor
      · exact fun h => absurd h (not_matches_empty w)
      · rintro ⟨d, hd, heq⟩
        rw [(List.cons.inj heq).1] at hc
        exact absurd hd hc
  | alt a b iha ihb => rw [derive, matches_join, matches_alt, iha, ihb]
  | seq a b iha ihb =>
    have hfirst : (chain (a.derive c) b).Matches w ↔
        ∃ u v, w = u ++ v ∧ a.Matches (c :: u) ∧ b.Matches v := by
      simp only [matches_chain, matches_seq, iha]
    have hsplit : (seq a b).Matches (c :: w) ↔
        (∃ u v, w = u ++ v ∧ a.Matches (c :: u) ∧ b.Matches v) ∨
          a.nullable = true ∧ b.Matches (c :: w) := by
      rw [matches_seq, ← matches_nil]
      constructor
      · rintro ⟨u, v, huv, hu, hv⟩
        cases u with
        | nil => exact .inr ⟨hu, huv ▸ hv⟩
        | cons d u =>
          obtain ⟨rfl, rfl⟩ := List.cons.inj huv
          exact .inl ⟨u, v, rfl, hu, hv⟩
      · rintro (⟨u, v, rfl, hu, hv⟩ | ⟨hnil, hb⟩)
        · exact ⟨c :: u, v, rfl, hu, hv⟩
        · exact ⟨[], c :: w, rfl, hnil, hb⟩
    rw [hsplit, derive]
    split
    · rename_i hnull
      rw [matches_join, hfirst, ihb]
      simp [hnull]
    · rename_i hnull
      rw [hfirst]
      simp [hnull]
  | star a ih =>
    rw [derive, matches_chain, matches_seq, matches_star_cons]
    simp only [ih]

/-- The expression matches the first `n` characters of the text. -/
def Begins (r : Regex) (cs : List Char) (n : Nat) : Prop := n ≤ cs.length ∧ r.Matches (cs.take n)

theorem begins_zero : r.Begins cs 0 ↔ r.nullable = true := by
  simp [Begins, matches_nil]

theorem begins_succ : r.Begins (c :: cs) (n + 1) ↔ (r.derive c).Begins cs n := by
  simp [Begins, matches_derive]

theorem begins_of_prefix (hw : w <+: cs) (h : r.Matches w) : r.Begins cs w.length := by
  refine ⟨hw.length_le, ?_⟩
  rwa [← List.prefix_iff_eq_take.1 hw]

theorem longest?_empty (cs : List Char) : empty.longest? cs = none := by
  cases cs <;> simp [longest?, longestFrom, nullable]

/-- The count and the best so far only matter for the answer at its ends. -/
theorem longestFrom_eq (count : Nat) (best : Option Nat) :
    longestFrom count best r cs = ((r.longest? cs).map (count + ·)).or best := by
  unfold longest?
  induction cs generalizing count best r with
  | nil =>
    rw [longestFrom, longestFrom]
    split <;> simp
  | cons c cs ih =>
    rw [longestFrom, longestFrom]
    split
    · split <;> simp
    · rw [ih, ih (0 + 1)]
      cases longestFrom 0 none (r.derive c) cs with
      | some n => simp [Nat.add_assoc]
      | none => split <;> simp

theorem longest?_nil (r : Regex) :
    r.longest? [] = if r.nullable then some 0 else none := rfl

theorem longest?_cons (r : Regex) (c : Char) (cs : List Char) :
    r.longest? (c :: cs) =
      (((r.derive c).longest? cs).map (· + 1)).or (if r.nullable then some 0 else none) := by
  by_cases hr : r = empty
  · rw [hr, longest?_empty, derive, longest?_empty]
    rfl
  · rw [longest?, longestFrom, if_neg hr, longestFrom_eq]
    simp only [Nat.zero_add, Nat.add_comm]

theorem begins_of_longest? (h : r.longest? cs = some n) : r.Begins cs n := by
  induction cs generalizing r n with
  | nil =>
    rw [longest?_nil] at h
    split at h
    · cases h
      exact begins_zero.2 ‹_›
    · cases h
  | cons c cs ih =>
    rw [longest?_cons, Option.or_eq_some_iff] at h
    obtain h | ⟨-, h⟩ := h
    · obtain ⟨m, hm, rfl⟩ := Option.map_eq_some_iff.1 h
      exact begins_succ.2 (ih hm)
    · split at h
      · cases h
        exact begins_zero.2 ‹_›
      · cases h

/-- No length that is matched is greater than the one that is found. -/
theorem exists_longest? (h : r.Begins cs m) : ∃ n, r.longest? cs = some n ∧ m ≤ n := by
  induction cs generalizing r m with
  | nil =>
    obtain rfl := Nat.le_zero.1 h.1
    rw [longest?_nil, if_pos (begins_zero.1 h)]
    exact ⟨0, rfl, Nat.le_refl 0⟩
  | cons c cs ih =>
    rw [longest?_cons]
    cases m with
    | succ m =>
      obtain ⟨n, hn, hle⟩ := ih (begins_succ.1 h)
      exact ⟨n + 1, by rw [hn]; rfl, Nat.succ_le_succ hle⟩
    | zero =>
      rw [if_pos (begins_zero.1 h)]
      cases (r.derive c).longest? cs with
      | some n => exact ⟨n + 1, rfl, Nat.zero_le _⟩
      | none => exact ⟨0, rfl, Nat.le_refl 0⟩

theorem pos_of_begins (hr : r.nullable = false) (h : r.Begins cs n) : 0 < n := by
  refine Nat.pos_of_ne_zero ?_
  rintro rfl
  rw [begins_zero, hr] at h
  cases h

end Regex

namespace Lexicon
variable {cs : List Char} {es : List (Regex × LexemeSort)} {best : Option (Nat × LexemeSort)}
  {r : Regex} {sort : LexemeSort} {n m : Nat}

/-- The match of an entry, if it is longer than the best one so far. -/
def longer (cs : List Char) (best : Option (Nat × LexemeSort)) (entry : Regex × LexemeSort) :
    Option (Nat × LexemeSort) :=
  match entry.1.longest? cs, best with
  | none, _ => best
  | some n, none => some (n, entry.2)
  | some n, some (m, sort) => if m < n then some (n, entry.2) else some (m, sort)

theorem best?_eq (cs : List Char) : best? cs = entries.foldl (longer cs) none := rfl

theorem longer_cases (cs : List Char) (best : Option (Nat × LexemeSort))
    (entry : Regex × LexemeSort) : longer cs best entry = best ∨
      ∃ n, entry.1.longest? cs = some n ∧ longer cs best entry = some (n, entry.2) := by
  unfold longer
  split
  · exact .inl rfl
  · exact .inr ⟨_, ‹_›, rfl⟩
  · split
    · exact .inr ⟨_, ‹_›, rfl⟩
    · exact .inl rfl

theorem le_longer (entry : Regex × LexemeSort)
    (h : (∃ sort, best = some (m, sort)) ∨ entry.1.longest? cs = some m) :
    ∃ n sort, longer cs best entry = some (n, sort) ∧ m ≤ n := by
  unfold longer
  split
  · rename_i hnone
    rw [hnone] at h
    obtain ⟨sort, h⟩ | h := h
    · exact ⟨m, sort, h, Nat.le_refl m⟩
    · cases h
  · rename_i n hn
    rw [hn] at h
    obtain ⟨sort, h⟩ | h := h
    · cases h
    · cases h
      exact ⟨m, _, rfl, Nat.le_refl m⟩
  · rename_i n k sort hn
    rw [hn] at h
    have hle : m ≤ k ∨ m ≤ n := by
      obtain ⟨sort', h⟩ | h := h
      · cases h
        exact .inl (Nat.le_refl m)
      · cases h
        exact .inr (Nat.le_refl m)
    split
    · exact ⟨n, _, rfl, by omega⟩
    · exact ⟨k, sort, rfl, by omega⟩

theorem mem_of_foldl_longer (h : es.foldl (longer cs) best = some (n, sort)) :
    best = some (n, sort) ∨ ∃ r, (r, sort) ∈ es ∧ r.longest? cs = some n := by
  induction es generalizing best with
  | nil => exact .inl h
  | cons e es ih =>
    obtain hnext | ⟨r, hr, hn⟩ := ih h
    · obtain hsame | ⟨k, hk, hlonger⟩ := longer_cases cs best e
      · exact .inl (hsame.symm.trans hnext)
      · cases hlonger.symm.trans hnext
        exact .inr ⟨e.1, List.mem_cons_self, hk⟩
    · exact .inr ⟨r, List.mem_cons_of_mem _ hr, hn⟩

theorem le_foldl_longer
    (h : (∃ sort, best = some (m, sort)) ∨ ∃ e ∈ es, e.1.longest? cs = some m) :
    ∃ n sort, es.foldl (longer cs) best = some (n, sort) ∧ m ≤ n := by
  induction es generalizing best m with
  | nil =>
    obtain ⟨sort, h⟩ | ⟨e, he, -⟩ := h
    · exact ⟨m, sort, h, Nat.le_refl m⟩
    · cases he
  | cons e es ih =>
    have hnow (h : (∃ sort, best = some (m, sort)) ∨ e.1.longest? cs = some m) :
        ∃ n sort, (e :: es).foldl (longer cs) best = some (n, sort) ∧ m ≤ n := by
      obtain ⟨k, sort, hk, hmk⟩ := le_longer e h
      obtain ⟨n, sort', hn, hkn⟩ := ih (.inl ⟨sort, hk⟩)
      exact ⟨n, sort', hn, Nat.le_trans hmk hkn⟩
    obtain h | ⟨e', he', hm⟩ := h
    · exact hnow (.inl h)
    · rcases List.mem_cons.1 he' with rfl | he'
      · exact hnow (.inr hm)
      · exact ih (.inr ⟨e', he', hm⟩)

theorem begins_of_best? (h : best? cs = some (n, sort)) :
    ∃ r, (r, sort) ∈ entries ∧ r.Begins cs n := by
  rw [best?_eq] at h
  obtain hnone | ⟨r, hr, hn⟩ := mem_of_foldl_longer h
  · cases hnone
  · exact ⟨r, hr, Regex.begins_of_longest? hn⟩

/-- No entry matches more than the best match. -/
theorem exists_best? (hr : (r, sort) ∈ entries) (h : r.Begins cs m) :
    ∃ n sort', best? cs = some (n, sort') ∧ m ≤ n := by
  obtain ⟨k, hk, hmk⟩ := Regex.exists_longest? h
  rw [best?_eq]
  obtain ⟨n, sort', hn, hkn⟩ := @le_foldl_longer cs entries none k (.inr ⟨_, hr, hk⟩)
  exact ⟨n, sort', hn, Nat.le_trans hmk hkn⟩

end Lexicon

end JavaSyntax
