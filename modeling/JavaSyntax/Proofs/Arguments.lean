import JavaSyntax.Proofs.Crossing

/-!
# Arguments

What stands behind an argument ends it as the end of the source would: no operator starts with a
comma or a closing parenthesis, and type arguments that reach over the comma would be closed by a
`>` before a suffix. In the arguments behind the comma such a `>` closes what has been opened there.
The items of other lists in delimiters end like that, also before a semicolon.
-/

namespace JavaSyntax

namespace TokenStream
variable {s : TokenStream} {i k j m : Nat} {rest : List TokenKind}

theorem scan_behind (hik : i ≤ k) (hkj : k ≤ j) (h : s.scan i j [] = some [])
    (hrest : s.scan k j [] = some rest) : rest = [] := by
  rw [scan_trans hik hkj] at h
  obtain ⟨waiting, -, h⟩ := Option.bind_eq_some_iff.1 h
  have hframe : s.scan k j ([] ++ waiting) = some (rest ++ waiting) := scan_frame hrest
  exact (List.append_eq_nil_iff.1 (Option.some.inj (hframe.symm.trans h))).1

theorem le_of_closer (hclose : (s.kindAt m).isCloser = true) (him : i ≤ m)
    (hscan : s.scan i m [] = some []) (h : s.scan i j [] = some []) : j ≤ m := by
  refine Nat.le_of_not_lt fun hmj => ?_
  rw [scan_trans him (Nat.le_of_lt hmj), hscan, Option.bind_some,
    scan_trans (Nat.le_succ m) hmj, scan_succ, Delimiters.step_nil hclose] at h
  cases h

end TokenStream

namespace Window
variable {s t : TokenStream} {a b n k m : Nat}

theorem level (w : Window s t a b n) (hm : m ≤ n) (h : s.Level (a + k) (a + m)) :
    t.Level (b + k) (b + m) := by
  have hle := h.le
  refine ⟨by omega, ?_⟩
  rw [w.kindsFrom_eq hm]
  exact h.scan_eq

theorem angled (w : Window s t a b n) (hm : m < n) (h : s.Angled (a + k) (a + m)) :
    t.Angled (b + k) (b + m) := by
  have hlt := h.lt
  refine ⟨by omega, ?_, ?_, w.level (k := k + 1) (Nat.le_of_lt hm) h.inner⟩
  · rw [w.kindAt_eq (by omega)]
    exact h.opens
  · rw [w.kindAt_eq hm]
    exact h.closes

/-- Before what is no suffix, brackets in the window are paired in both streams. -/
theorem paired (w : Window s t a b n) (hm : m ≤ n)
    (hnext : KindSet.suffixes.contains (t.kindAt (b + m)) = false)
    (h : s.Paired (a + k) (a + m)) : t.Paired (b + k) (b + m) := by
  intro l hkl hlm hkind hsuffix
  obtain ⟨l, rfl⟩ : ∃ l', l = b + l' := ⟨l - b, by omega⟩
  have hl : l + 1 < m := by
    refine Nat.lt_of_le_of_ne (by omega) fun hlast => ?_
    rw [Nat.add_assoc, hlast, hnext] at hsuffix
    cases hsuffix
  rw [w.kindAt_eq (by omega)] at hkind
  rw [Nat.add_assoc, w.kindAt_eq (by omega)] at hsuffix
  obtain ⟨j, hj, hangled⟩ := h (a + l) (by omega) (by omega) hkind hsuffix
  obtain ⟨j, rfl⟩ : ∃ j', j = a + j' := ⟨j - a, by omega⟩
  exact ⟨b + j, by omega, w.angled (by omega) hangled⟩

end Window

/-- At whatever tokens the rule is called, it reads some of them, and delimiters in pairs. Before
what divides a list it can be told what it reads there. -/
structure Rule.IsItem (r : Rule) : Prop where
  starts : r.starts = []
  least : 1 ≤ r.body.least {}
  balanced : r.body.balanced = true
  firm : r.body.firm .parted {} 0 = true

theorem Rule.IsItem.ne_emptyMember {r : Rule} (h : r.IsItem) : r ≠ .emptyMember := by
  rintro rfl
  cases h.starts

theorem Rule.isItem_expression : IsItem .expression :=
  ⟨rfl, by decide, by decide, by decide⟩

theorem Rule.isItem_arrayInitializer : IsItem .arrayInitializer :=
  ⟨rfl, by decide, by decide, by decide⟩

theorem KindSet.not_suffix_of_separator {k : TokenKind} (hk : separators.contains k = true) :
    suffixes.contains k = false := by
  revert hk
  cases k <;> decide

theorem KindSet.separator_of_closer {k : TokenKind} (hk : k.isCloser = true) :
    separators.contains k = true := by
  revert hk
  cases k <;> decide

namespace TokenStream
variable {t : TokenStream} {b n m e : Nat} {r : Rule} {u : Tree}

/-- Where `n` tokens are all of a source, the rule makes the tree of them. They stand here from
index `b` on. -/
def Stands (t : TokenStream) (r : Rule) (b n : Nat) (u : Tree) : Prop :=
  ∃ s, Window s t 0 b n ∧ r.Fills s n u

/-- From index `b` up to a closing delimiter at `e` the tokens are balanced, and so are the angle
brackets before suffixes. -/
structure Sealed (t : TokenStream) (b e : Nat) : Prop where
  le : b ≤ e
  closes : (t.kindAt e).isCloser = true
  balanced : t.scan b e [] = some []
  paired : t.Paired b e

/-- The list ends here, or it is divided here and goes on with sealed tokens. -/
def Divides (t : TokenStream) (m : Nat) : Prop :=
  (t.kindAt m).isCloser = true ∨
    KindSet.dividers.contains (t.kindAt m) = true ∧ ∃ e, t.Sealed (m + 1) e

namespace Divides

theorem separator (h : t.Divides m) : KindSet.separators.contains (t.kindAt m) = true := by
  rcases h with hclose | ⟨hdivider, -⟩
  · exact KindSet.separator_of_closer hclose
  · exact KindSet.contains_of_subset (by decide) hdivider

theorem level (h : KindSet.dividers.contains (t.kindAt m) = true) : t.Level m (m + 1) := by
  refine .token ?_
  rcases KindSet.divider_cases h with hkind | hkind <;> rw [hkind] <;> decide

theorem sealed (h : t.Divides m) : ∃ e, t.Sealed m e := by
  rcases h with hclose | ⟨hdivider, e, h⟩
  · exact ⟨m, Nat.le_refl m, hclose, scan_self m, .refl t m⟩
  · have hle := h.le
    have htoken : t.Paired m (m + 1) := .token fun hkind => by
      rw [hkind] at hdivider
      cases hdivider
    refine ⟨e, by omega, h.closes, ?_, htoken.trans (Nat.le_succ m) h.paired⟩
    rw [scan_trans (Nat.le_succ m) hle, (level hdivider).balanced, Option.bind_some]
    exact h.balanced

end Divides

namespace Stands

theorem pos (h : t.Stands r b n u) (hr : 1 ≤ r.body.least {}) : 0 < n := by
  obtain ⟨s, -, -, -, d, hends, -⟩ := h
  have hread : 0 + r.body.least {} ≤ n := hends.count (Outlook.holds_bottom _)
  omega

theorem balanced (h : t.Stands r b n u) (hr : r.IsItem) :
    t.scan b (b + n) [] = some [] := by
  obtain ⟨s, w, -, -, d, hends, -⟩ := h
  have hscan : s.scan 0 n [] = some [] := hends.balanced hr.balanced
  have heq := w.scan_eq (k := 0) (Nat.le_refl n) []
  rw [Nat.add_zero, Nat.zero_add, Nat.zero_add, hscan] at heq
  exact heq

theorem paired (h : t.Stands r b n u) (hr : r.IsItem)
    (hnext : KindSet.suffixes.contains (t.kindAt (b + n)) = false) : t.Paired b (b + n) := by
  obtain ⟨s, w, -, -, d, hends, -⟩ := h
  have hs := (Rule.Ends.body hends).paired.2
    (fun _ _ hk => by rw [hr.starts] at hk; cases hk) _ rfl
  have hs : s.Paired (0 + 0) (0 + n) := by
    rw [Nat.zero_add n]
    exact hs
  exact w.paired (k := 0) (Nat.le_refl n) hnext hs

theorem start_open (h : t.Stands r b n u) (hr : r.IsItem) :
    (t.kindAt b).isCloser = false := by
  refine Bool.eq_false_iff.2 fun hclose => ?_
  have hle := le_of_closer hclose (Nat.le_refl b) (scan_self b) (h.balanced hr)
  have hpos := h.pos hr.least
  omega

/-- Before a divider or the end of the list, an item is sealed like what is behind it. -/
theorem sealed (h : t.Stands r b n u) (hr : r.IsItem) (hnext : t.Divides (b + n)) :
    ∃ e, t.Sealed b e := by
  obtain ⟨e, hrest⟩ := hnext.sealed
  have hle := hrest.le
  refine ⟨e, by omega, hrest.closes, ?_, ?_⟩
  · rw [scan_trans (show b ≤ b + n by omega) hle, h.balanced hr, Option.bind_some]
    exact hrest.balanced
  · refine (h.paired hr ?_).trans (by omega) hrest.paired
    exact KindSet.not_suffix_of_separator hnext.separator

/-- No probe that is tried in an item reads over its end. -/
theorem parts (h : t.Stands r b n u) (hr : r.IsItem) (hnext : t.Divides (b + n)) :
    t.Parts b n := by
  refine ⟨hnext.separator, ?_⟩
  intro k hk probe hprobe q hq
  have hstrung : t.Strung (b + k) q.index := Probe.strung hprobe hq
  have hlevel := hstrung.level.balanced
  refine Nat.le_of_not_lt fun hlt => ?_
  -- What the probe reads up to the end of the item is balanced.
  have hscan : t.scan (b + k) (b + n) [] = some [] := by
    rw [scan_trans (show b + k ≤ b + n by omega) (Nat.le_of_lt hlt)] at hlevel
    obtain ⟨rest, hrest, -⟩ := Option.bind_eq_some_iff.1 hlevel
    have hnil := scan_behind (show b ≤ b + k by omega) (by omega) (h.balanced hr) hrest
    rw [hrest, hnil]
  rcases hnext with hclose | ⟨hdivider, e, hsealed⟩
  · have hle := le_of_closer hclose (by omega) hscan hlevel
    omega
  · obtain ⟨l, m, hkl, hln, hnm, hmq, hangled, hsuffix⟩ :=
      hstrung.exists_angled (by omega) hlt hdivider hscan
    have hbehind : t.scan (b + n + 1) q.index [] = some [] := by
      rw [scan_trans (show b + k ≤ b + n by omega) (by omega), hscan, Option.bind_some,
        scan_trans (show b + n ≤ b + n + 1 by omega) hlt,
        (Divides.level hdivider).balanced, Option.bind_some] at hlevel
      exact hlevel
    have hqe := le_of_closer hsealed.closes hsealed.le hsealed.balanced hbehind
    -- The `>` before a suffix closes what is opened behind the divider.
    obtain ⟨l', hl', hangled'⟩ :=
      hsealed.paired m (by omega) (by omega) hangled.closes hsuffix
    have heq := hangled.unique hangled'
    omega

theorem ends (h : t.Stands r b n u) (hr : r.IsItem) (hnext : t.Divides (b + n)) :
    ∃ d : Draft, Rule.Ends t false r (t.fresh b) (.done ⟨b + n, d⟩) ∧ d.items = [u] := by
  have hpos := h.pos hr.least
  have hparts := h.parts hr hnext
  obtain ⟨s, w, -, -, d, hends, hitems⟩ := h
  have hbody : Cmd.Ends s false (Rule.Ends s false) r.body ⟨0 + 0, (s.fresh 0).draft⟩
      (.done ⟨0 + n, d⟩) := by
    rw [Nat.zero_add n]
    exact hends
  have hruns : w.Runs .parted 0 r.body 0 n (s.fresh 0).draft d :=
    ⟨Nat.le_refl n, fun _ _ _ => hparts, fun hbare => absurd hbare (by simp), hbody⟩
  have hends := Cmd.carriesBelow _ w (Nat.lt_succ_self _) r.paced_body
    hr.firm (Outlook.holds_bottom _) hruns
  have hfresh : t.fresh b = ⟨b + 0, (s.fresh 0).draft⟩ := w.fresh_eq (k := 0) hpos
  rw [← hfresh] at hends
  exact ⟨d, .body hends, hitems⟩

theorem call (h : t.Stands r b n u) (hr : r.IsItem) (hnext : t.Divides (b + n)) (d : Draft) :
    Cmd.Ends t false (Rule.Ends t false) (.call r) ⟨b, d⟩ (.done ⟨b + n, d.push u⟩) := by
  obtain ⟨d', hends, hitems⟩ := h.ends hr hnext
  have hadopt : d.push u = d.adopt d' := by rw [Draft.push, Draft.adopt, hitems]; rfl
  rw [hadopt]
  exact .nest (p := ⟨b, d⟩) (q := ⟨b + n, d'⟩) (.jump hends)

end Stands
end TokenStream

end JavaSyntax
