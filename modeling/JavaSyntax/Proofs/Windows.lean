import JavaSyntax.Proofs.Reading
import JavaSyntax.Proofs.Speculation

/-!
# Windows

The same tokens in a row in two streams. A test that looks past them may have different answers
there. It has one answer if enough of the tokens that it looks at lie in the window, or if it is
known of the others that they cannot matter.
-/

namespace JavaSyntax

/-- What keeps a command that runs inside the window of a stream from running out of it. -/
inductive Border where
  /-- The stream ends behind the window. -/
  | ended
  /-- A delimiter opened before is closed in the window. -/
  | enclosed
  /-- An argument ends with the window. -/
  | parted
  /-- Nothing that is known. -/
  | bare
  deriving DecidableEq, Repr

/-- The stream ends with the end of the source, of which it has no other kind than its token. -/
structure TokenStream.Regular (s : TokenStream) : Prop where
  closed : s.Closed
  kind_eq : ∀ i, (s.tokenAt i).kind = s.kindAt i

theorem TokenStream.regular_ofList {ts : TokenList}
    (h : ts.tokens.back?.map Token.kind = some .eof) : (ofList ts).Regular :=
  ⟨closed_ofList h, kind_tokenAt_ofList ts⟩

/-- The kinds that stand behind an argument, or behind an item of another list in delimiters. -/
def KindSet.separators : KindSet := .ofList [.comma, .semi, .rparen, .rbracket, .rbrace]

/-- The probes that may be tried in an operand outside of all delimiters, but for that of a cast. -/
def Probe.isOuter : Probe → Bool
  | genericMethodRef | annotatedDims => true
  | _ => false

/-- An argument ends behind `n` tokens from index `b` on, and no probe that is tried there reads
over its end. -/
structure TokenStream.Parts (t : TokenStream) (b n : Nat) : Prop where
  separator : KindSet.separators.contains (t.kindAt (b + n)) = true
  stays : ∀ k ≤ n, ∀ p : Probe, p.isOuter = true → ∀ q,
    Cmd.Ends t false (Rule.Ends t false) p.fragment (t.fresh (b + k)) (.done q) →
      q.index ≤ b + n

/-- `n` tokens from index `a` on in one stream and from `b` on in the other are the same, and the
last of them does not dangle. -/
structure Window (s t : TokenStream) (a b n : Nat) : Prop where
  left : s.Regular
  right : t.Regular
  left_le : a + n ≤ s.lastIndex
  right_le : b + n ≤ t.lastIndex
  entry_eq : ∀ k < n, (t.tokenAt (b + k)).entry = (s.tokenAt (a + k)).entry
  settled : ∀ k, k + 1 = n → KindSet.dangling.contains (s.kindAt (a + k)) = false

namespace Window
variable {s t : TokenStream} {a b n k m : Nat}

theorem kindAt_eq (w : Window s t a b n) (hk : k < n) :
    t.kindAt (b + k) = s.kindAt (a + k) := by
  rw [← w.left.kind_eq, ← w.right.kind_eq]
  exact congrArg Prod.fst (w.entry_eq k hk)

theorem span_eq (w : Window s t a b n) (hk : k < n) :
    (t.tokenAt (b + k)).span = (s.tokenAt (a + k)).span :=
  congrArg Prod.snd (w.entry_eq k hk)

theorem symm (w : Window s t a b n) : Window t s b a n where
  left := w.right
  right := w.left
  left_le := w.right_le
  right_le := w.left_le
  entry_eq := fun k hk => (w.entry_eq k hk).symm
  settled := by
    intro k hk
    rw [w.kindAt_eq (by omega)]
    exact w.settled k hk

theorem touching_eq (w : Window s t a b n) (hk : k + 1 < n) :
    t.touching (b + k) = s.touching (a + k) := by
  rw [TokenStream.touching, TokenStream.touching, w.span_eq (by omega), Nat.add_assoc,
    w.span_eq hk, Nat.add_assoc]

theorem kindsFrom_eq (w : Window s t a b n) (hm : m ≤ n) :
    t.kindsFrom (b + k) (b + m) = s.kindsFrom (a + k) (a + m) := by
  have hb : b + m - (b + k) = m - k := by omega
  have ha : a + m - (a + k) = m - k := by omega
  rw [TokenStream.kindsFrom, TokenStream.kindsFrom, hb, ha]
  refine List.ext_getElem (by simp) ?_
  intro i hi hi'
  simp only [List.length_map, List.length_range'] at hi
  simp only [List.getElem_map, List.getElem_range', Nat.one_mul, Nat.add_assoc]
  exact w.kindAt_eq (by omega)

theorem scan_eq (w : Window s t a b n) (hm : m ≤ n) (waiting : List TokenKind) :
    t.scan (b + k) (b + m) waiting = s.scan (a + k) (a + m) waiting := by
  rw [TokenStream.scan, TokenStream.scan, w.kindsFrom_eq hm]

/-- Delimiters in the window match in both streams. -/
theorem encloses (w : Window s t a b n) (hm : m < n) (h : s.Encloses (a + k) (a + m)) :
    t.Encloses (b + k) (b + m) := by
  have hlt := h.lt
  refine ⟨by omega, ?_, ?_⟩
  · rw [w.kindAt_eq hm, w.kindAt_eq (by omega)]
    exact h.closer
  · rw [Nat.add_assoc, w.scan_eq (Nat.le_of_lt hm), ← Nat.add_assoc]
    exact h.inner

theorem fresh_eq (w : Window s t a b n) (hk : k < n) :
    t.fresh (b + k) = ⟨b + k, (s.fresh (a + k)).draft⟩ := by
  rw [TokenStream.fresh, TokenStream.fresh, w.span_eq hk]

/-- The border is where it has to be, seen from a token of the window in the second stream. -/
def Held (_ : Window s t a b n) (border : Border) (k : Nat) : Prop :=
  match border with
  | .ended => ∀ m, n ≤ m → t.kindAt (b + m) = .eof
  | .enclosed => t.scan (b + k) (b + n) [] = none
  | .parted => t.Parts b n
  | .bare => True

variable {border : Border}

theorem Held.le {w : Window s t a b n} (h : w.Held border k) (hb : border ≠ .bare)
    (hparted : border ≠ .parted) (hk : k ≤ n) {d : Draft} {o : Ending}
    (ho : o.Covers t ⟨b + k, d⟩) {waiting : List TokenKind}
    (hscan : t.scan (b + k) o.index [] = some waiting) : o.index ≤ b + n := by
  refine Nat.le_of_not_lt fun hlt => ?_
  cases border with
  | ended =>
    refine ho.kind_ne (b + n) (Nat.add_le_add_left hk b) hlt ?_
    rw [w.right.kind_eq]
    exact h n (Nat.le_refl n)
  | enclosed =>
    have hnone : t.scan (b + k) (b + n) [] = none := h
    rw [TokenStream.scan_trans (Nat.add_le_add_left hk b) (Nat.le_of_lt hlt), hnone] at hscan
    cases hscan
  | parted => exact hparted rfl
  | bare => exact hb rfl

theorem Held.mono {w : Window s t a b n} (h : w.Held border k) (hkm : k ≤ m) (hm : m ≤ n)
    {waiting : List TokenKind} (hscan : t.scan (b + k) (b + m) [] = some waiting) :
    w.Held border m := by
  cases border with
  | ended => exact h
  | enclosed =>
    have hnone : t.scan (b + k) (b + n) [] = none := h
    rw [TokenStream.scan_trans (Nat.add_le_add_left hkm b) (Nat.add_le_add_left hm b), hscan,
      Option.bind_some] at hnone
    change t.scan (b + m) (b + n) [] = none
    by_contra hsome
    obtain ⟨rest, hrest⟩ := Option.ne_none_iff_exists'.1 hsome
    have hframe : t.scan (b + m) (b + n) ([] ++ waiting) = some (rest ++ waiting) :=
      TokenStream.scan_frame hrest
    rw [List.nil_append, hnone] at hframe
    cases hframe
  | parted => exact h
  | bare => trivial

end Window

def KindSet.closers : KindSet := .ofList [.rparen, .rbracket, .rbrace]

/-- A token that `skip` others precede, of which `n` are known to lie in the window, is of none of
the kinds unless it lies there as well. -/
def Border.bars (border : Border) (skip n : Nat) (ks : KindSet) : Bool :=
  match border with
  | .ended => !ks.contains .eof
  | .parted => decide (skip ≤ n) && KindSet.separators.disjoint ks
  | .enclosed | .bare => false

theorem Window.Held.not_contains {s t : TokenStream} {a b n k m j : Nat} {border : Border}
    {w : Window s t a b n} (h : w.Held border k) (hm : k + m ≤ n) {ks : KindSet}
    (hks : border.bars j m ks = true) (hj : n ≤ k + j) :
    ks.contains (t.kindAt (b + k + j)) = false := by
  rw [Nat.add_assoc]
  cases border with
  | ended =>
    have hend : t.kindAt (b + (k + j)) = .eof := h (k + j) hj
    rw [hend]
    simpa [Border.bars] using hks
  | parted =>
    rw [Border.bars, Bool.and_eq_true, decide_eq_true_eq] at hks
    obtain rfl : n = k + j := by omega
    exact KindSet.not_contains_of_disjoint hks.2 h.separator
  | enclosed => cases hks
  | bare => cases hks

namespace Test

/-- The tests of which one holds if the test does. -/
def disjuncts : Test → List Test
  | either t u => t.disjuncts ++ u.disjuncts
  | t => [t]

/-- The tests that hold together if the test does. -/
def conjuncts : Test → List Test
  | both t u => t.conjuncts ++ u.conjuncts
  | t => [t]

/-- How many tokens lie in the window if `n` do and the test holds. A token that dangles is not
the last one there, and neither is one that closes nothing, if the window closes a delimiter. -/
def reach (border : Border) : Test → Nat → Nat
  | ahead k ks, n =>
    if k < n ∨ border.bars k n ks = true then
      max n (if ks.subset .dangling ∨ border = .enclosed ∧ k = 0 ∧ ks.disjoint .closers
        then k + 2 else k + 1)
    else n
  | both t u, n => u.reach border (t.reach border n)
  | either t u, n => min (t.reach border n) (u.reach border n)
  | _, n => n

/-- If `n` tokens lie in the window and the test has the answer in the first stream, it is the
answer in the second stream too. -/
def keeps (border : Border) : Test → Nat → Bool → Bool
  | ahead k ks, n, answer =>
    decide (k < n) || (!answer && border.bars k n ks)
  | touching k, n, _ => decide (k + 1 < n)
  | neg t, n, answer => t.keeps border n (!answer)
  | both t u, n, true => t.keeps border n true && u.keeps border n true
  | both t u, n, false =>
    let n' := (both t u).reach border n
    t.keeps border n' false && u.keeps border n' false
  | either t u, n, true => t.keeps border n true && u.keeps border n true
  | either t u, n, false =>
    (u.conjuncts.all t.conjuncts.contains || t.keeps border n false) && u.keeps border n false
  | afterName _ _, _, _ | lambdaHead, _, _ => false
  | _, _, _ => true

variable {s t : TokenStream} {a b n k m i : Nat} {border : Border} {u v : Test} {d : Draft}
  {answer : Bool}

theorem holds_conjuncts : u.holds s i d = true ↔ ∀ c ∈ u.conjuncts, c.holds s i d = true := by
  induction u with
  | both t u iht ihu =>
    rw [holds, Bool.and_eq_true, iht, ihu, conjuncts]
    simp only [List.mem_append, or_imp, forall_and]
  | _ => simp [conjuncts]

theorem exists_disjunct (h : u.holds s i d = true) : ∃ c ∈ u.disjuncts, c.holds s i d = true := by
  induction u with
  | either t u iht ihu =>
    rw [holds, Bool.or_eq_true] at h
    rcases h with h | h
    · obtain ⟨c, hc, h⟩ := iht h
      exact ⟨c, List.mem_append_left _ hc, h⟩
    · obtain ⟨c, hc, h⟩ := ihu h
      exact ⟨c, List.mem_append_right _ hc, h⟩
  | _ => exact ⟨_, List.mem_singleton_self _, h⟩

theorem holds_of_disjunct {c : Test} (hc : c ∈ u.disjuncts) (h : c.holds s i d = true) :
    u.holds s i d = true := by
  induction u with
  | either t u iht ihu =>
    rw [holds, Bool.or_eq_true]
    rcases List.mem_append.1 hc with hc | hc
    · exact .inl (iht hc)
    · exact .inr (ihu hc)
  | _ => exact List.mem_singleton.1 hc ▸ h

/-- A token that a test finds in the window is not the last one there if it dangles, or if it
closes nothing and the window closes a delimiter. -/
theorem succ_lt_of_contains (w : Window s t a b n) (hheld : w.Held border k) {j : Nat}
    {ks : KindSet} (hj : k + j < n) (hks : ks.contains (t.kindAt (b + k + j)) = true)
    (h : ks.subset .dangling = true ∨ border = .enclosed ∧ j = 0 ∧ ks.disjoint .closers = true) :
    k + j + 1 < n := by
  refine Nat.lt_of_le_of_ne hj fun hlast => ?_
  rcases h with hsub | ⟨rfl, rfl, hdis⟩
  · have hdangles := KindSet.contains_of_subset hsub hks
    rw [Nat.add_assoc, w.kindAt_eq hj] at hdangles
    cases (w.settled (k + j) hlast).symm.trans hdangles
  · have hnone : t.scan (b + k) (b + n) [] = none := hheld
    rw [← hlast, Nat.add_zero, ← Nat.add_assoc, TokenStream.scan_succ] at hnone
    have hplain := KindSet.not_contains_of_disjoint hdis hks
    rw [Nat.add_zero] at hplain
    cases hc : (t.kindAt (b + k)).closer? with
    | some c =>
      rw [Delimiters.step_opener hc] at hnone
      cases hnone
    | none =>
      rw [Delimiters.step_plain hc] at hnone
      · cases hnone
      · revert hplain
        generalize t.kindAt (b + k) = kind
        cases kind <;> decide

theorem reach_le (w : Window s t a b n) (hheld : w.Held border k) (hm : k + m ≤ n)
    (h : u.holds t (b + k) d = true) : k + u.reach border m ≤ n := by
  induction u generalizing m with
  | ahead j ks =>
    rw [reach]
    rw [holds] at h
    split
    · rename_i hin
      have hj : k + j < n := by
        rcases hin with hlt | hbars
        · omega
        · refine Nat.lt_of_not_le fun hle => ?_
          cases (hheld.not_contains hm hbars hle).symm.trans h
      split
      · rename_i hmore
        have hlt := succ_lt_of_contains w hheld hj h hmore
        omega
      · omega
    · exact hm
  | both t u iht ihu =>
    rw [holds, Bool.and_eq_true] at h
    exact ihu (iht hm h.1) h.2
  | either t u iht ihu =>
    rw [holds, Bool.or_eq_true] at h
    rw [reach]
    rcases h with h | h
    · have := iht hm h
      omega
    · have := ihu hm h
      omega
  | _ => exact hm

/-- A test keeps its answer in the other stream. -/
theorem holds_eq (w : Window s t a b n) (hheld : w.Held border k) (hm : k + m ≤ n)
    (hk : u.keeps border m answer = true) (h : u.holds s (a + k) d = answer) :
    u.holds t (b + k) d = answer := by
  induction u generalizing m answer with
  | ahead j ks =>
    rw [keeps, Bool.or_eq_true, decide_eq_true_eq] at hk
    by_cases hj : k + j < n
    · rw [holds, Nat.add_assoc, w.kindAt_eq hj, ← Nat.add_assoc]
      exact h
    · rcases hk with hlt | hk
      · omega
      · rw [Bool.and_eq_true, Bool.not_eq_true'] at hk
        rw [holds, hheld.not_contains hm hk.2 (Nat.le_of_not_lt hj), hk.1]
  | touching j =>
    rw [keeps, decide_eq_true_eq] at hk
    rw [holds] at h ⊢
    rw [Nat.add_assoc, w.touching_eq (by omega), ← Nat.add_assoc]
    exact h
  | neg u ih =>
    rw [holds, ih hm hk (by rw [← h, holds, Bool.not_not]), Bool.not_not]
  | both u v ihu ihv =>
    cases answer with
    | true =>
      rw [keeps, Bool.and_eq_true] at hk
      rw [holds, Bool.and_eq_true] at h ⊢
      exact ⟨ihu hm hk.1 h.1, ihv hm hk.2 h.2⟩
    | false =>
      -- If it held in the second stream, more tokens would lie in the window.
      refine Bool.eq_false_iff.2 fun hboth => ?_
      have hreach := reach_le w hheld hm hboth
      rw [keeps, Bool.and_eq_true] at hk
      rw [holds, Bool.and_eq_true] at hboth
      rw [holds, Bool.and_eq_false_iff] at h
      rcases h with h | h
      · cases (ihu hreach hk.1 h).symm.trans hboth.1
      · cases (ihv hreach hk.2 h).symm.trans hboth.2
  | either u v ihu ihv =>
    cases answer with
    | true =>
      rw [keeps, Bool.and_eq_true] at hk
      rw [holds, Bool.or_eq_true] at h ⊢
      exact h.imp (ihu hm hk.1) (ihv hm hk.2)
    | false =>
      rw [keeps, Bool.and_eq_true, Bool.or_eq_true, List.all_eq_true] at hk
      rw [holds, Bool.or_eq_false_iff] at h ⊢
      have hv := ihv hm hk.2 h.2
      refine ⟨?_, hv⟩
      rcases hk.1 with hsub | hku
      · refine Bool.eq_false_iff.2 fun hu => ?_
        have hvtrue : v.holds t (b + k) d = true := by
          refine holds_conjuncts.2 fun c hc => ?_
          exact holds_conjuncts.1 hu c (List.contains_iff_mem.1 (hsub c hc))
        cases hv.symm.trans hvtrue
      · exact ihu hm hku h.1
  | afterName => cases hk
  | lambdaHead => cases hk
  | _ => exact h

end Test

section
variable {s t : TokenStream} {a b n k m : Nat}

theorem Row.fits_eq (w : Window s t a b n) {pattern : List KindSet}
    (h : k + pattern.length ≤ n) : fits t (b + k) pattern = fits s (a + k) pattern := by
  induction pattern generalizing k with
  | nil => rfl
  | cons ks pattern ih =>
    rw [List.length_cons] at h
    rw [fits, fits, w.kindAt_eq (by omega), Nat.add_assoc b, Nat.add_assoc a, ih (by omega)]

theorem Table.choose?_eq (w : Window s t a b n) {rows : List Row}
    (h : ∀ row ∈ rows, k + row.pattern.length ≤ n) :
    choose? t (b + k) rows = choose? s (a + k) rows := by
  induction rows with
  | nil => rfl
  | cons row rows ih =>
    rw [choose?, choose?, Row.matchesAt, Row.matchesAt,
      Row.fits_eq w (h row List.mem_cons_self), ih fun r hr => h r (List.mem_cons_of_mem _ hr)]

/-- A table calls for the same rule in both streams. -/
theorem Table.decide_eq (w : Window s t a b n) {table : Table} {rule : Rule}
    (h : ∀ row ∈ table.rows, k + row.pattern.length ≤ n)
    (hd : table.decide s false (a + k) = .ok rule) :
    table.decide t false (b + k) = .ok rule := by
  unfold decide at hd ⊢
  rw [choose?_eq w h]
  split at hd
  · split at hd
    · exact hd
    · cases hd
  · exact hd

end

namespace TokenStream
variable {s t : TokenStream} {a b n k m i e e' y : Nat}

/-- The name segments from `i` on end before `e`. -/
inductive Segments (s : TokenStream) : Nat → Nat → Prop
  | stop {j : Nat} (h : ¬(s.kindAt j = .dot ∧ s.kindAt (j + 1) = .ident)) : Segments s j j
  | next {j l : Nat} (hdot : s.kindAt j = .dot) (hident : s.kindAt (j + 1) = .ident)
      (h : Segments s (j + 2) l) : Segments s j l

theorem segments_skip {fuel : Nat} (h : s.length ≤ i + fuel) :
    s.Segments i (s.skipSegments fuel i) := by
  induction fuel generalizing i with
  | zero =>
    refine .stop ?_
    rintro ⟨hdot, -⟩
    cases (kindAt_of_length_le h).symm.trans hdot
  | succ fuel ih =>
    rw [skipSegments]
    split
    · rename_i hboth
      rw [Bool.and_eq_true, beq_iff_eq, beq_iff_eq] at hboth
      exact .next hboth.1 hboth.2 (ih (by omega))
    · rename_i hboth
      rw [Bool.and_eq_true, beq_iff_eq, beq_iff_eq] at hboth
      exact .stop hboth

theorem segments_nameEnd (s : TokenStream) (i : Nat) : s.Segments (i + 1) (s.nameEnd i) :=
  segments_skip (by omega)

theorem Segments.unique (h : s.Segments i e) (h' : s.Segments i e') : e' = e := by
  induction h with
  | stop hstop =>
    cases h' with
    | stop => rfl
    | next hdot hident => exact absurd ⟨hdot, hident⟩ hstop
  | next hdot hident _ ih =>
    cases h' with
    | stop hstop => exact absurd ⟨hdot, hident⟩ hstop
    | next _ _ h' => exact ih h'

theorem Segments.nameEnd_eq (h : s.Segments (i + 1) e) : s.nameEnd i = e :=
  h.unique (s.segments_nameEnd i)

theorem Segments.le (h : s.Segments i e) : i ≤ e := by
  induction h with
  | stop => exact Nat.le_refl _
  | next _ _ _ ih => omega

theorem Segments.window (w : Window s t a b n) (h : s.Segments (a + k) (a + e))
    (he : e ≤ n) (hend : e = n → t.kindAt (b + n) ≠ .dot) : t.Segments (b + k) (b + e) := by
  generalize hi : a + k = i at h
  generalize hj : a + e = j at h
  induction h generalizing k with
  | @stop i hstop =>
    obtain rfl : k = e := by omega
    refine .stop ?_
    rintro ⟨hdot, hident⟩
    rcases Nat.lt_or_eq_of_le he with hlt | rfl
    · have hin : k + 1 < n := by
        refine Nat.lt_of_le_of_ne hlt fun hlast => ?_
        have hplain := w.settled k hlast
        rw [← w.kindAt_eq hlt, hdot] at hplain
        cases hplain
      rw [w.kindAt_eq hlt, hi] at hdot
      rw [Nat.add_assoc, w.kindAt_eq hin, ← Nat.add_assoc, hi] at hident
      exact hstop ⟨hdot, hident⟩
    · exact hend rfl hdot
  | @next i j hdot hident hrest ih =>
    have hle := hrest.le
    subst hi hj
    refine .next ?_ ?_ ?_
    · rw [w.kindAt_eq (by omega)]
      exact hdot
    · rw [Nat.add_assoc, w.kindAt_eq (by omega), ← Nat.add_assoc]
      exact hident
    · rw [Nat.add_assoc]
      exact ih (by omega) rfl

/-- The scan over type arguments comes to a method reference in both streams or in neither, if
there is one in the window. -/
theorem scanFrom_eq (w : Window s t a b n) (hy : y < n) (hcolon : s.kindAt (a + y) = .colonColon)
    {fuel fuel' depth : Nat} (hk : k ≤ y) (hfuel : y < k + fuel) (hfuel' : y < k + fuel') :
    s.scanFrom fuel depth (a + k) = .mayBe ↔ t.scanFrom fuel' depth (b + k) = .mayBe := by
  induction fuel generalizing fuel' depth k with
  | zero => omega
  | succ fuel ih =>
    cases fuel' with
    | zero => omega
    | succ fuel' =>
      have hnext (hne : s.kindAt (a + k) ≠ .colonColon) (depth : Nat) :
          s.scanFrom fuel depth (a + k + 1) = .mayBe ↔
            t.scanFrom fuel' depth (b + k + 1) = .mayBe := by
        have hlt : k ≠ y := by
          rintro rfl
          exact hne hcolon
        exact ih (k := k + 1) (by omega) (by omega) (by omega)
      rw [scanFrom, scanFrom, w.kindAt_eq (by omega)]
      generalize hkind : s.kindAt (a + k) = kind at hnext
      split
      · exact hnext (by decide) _
      · split
        · rfl
        · exact hnext (by decide) _
      · rfl
      · rfl
      · rename_i hless hgreater hcol hparen
        split
        · exact hnext hcol _
        · simp

end TokenStream

end JavaSyntax
