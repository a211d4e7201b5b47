import JavaSyntax.Proofs.Windows

/-!
# Far decisions

The guards that look past a fixed number of tokens: for an arrow behind a parenthesis, for what
follows a type in parentheses, and for what follows a dotted name. What the branches read bounds
how far the answers depend on the tokens ahead.
-/

namespace JavaSyntax

/-- The guard has the answer at the place, by a derivation of its probe if it takes one. -/
inductive Guard.Answers (s : TokenStream) (strict : Bool) (g : Guard) (p : Place)
    (answer : Bool) : Prop
  | known (h : g.query s p = .known answer)
  | asked {probe : Probe} {o : Ending} (h : g.query s p = .ask probe)
      (ho : Cmd.Ends s strict (Rule.Ends s strict) probe.fragment (s.fresh p.index) o)
      (hv : o.verdict = .ok answer)

section
variable {s : TokenStream} {strict : Bool} {g : Guard} {a b c : Cmd} {p q : Place} {o : Ending}
  {answer answer' : Bool}

theorem Ending.verdict_done (h : o.verdict = .ok true) : ∃ q, o = .done q := by
  cases o with
  | done q => exact ⟨q, rfl⟩
  | failed e i =>
    rw [verdict] at h
    split at h <;> cases h

theorem Cmd.Ends.ite_answers
    (h : Cmd.Ends s strict (Rule.Ends s strict) (.ite g a b) p (.done q)) :
    ∃ answer, g.Answers s strict p answer ∧
      Cmd.Ends s strict (Rule.Ends s strict) (if answer then a else b) p (.done q) := by
  cases h with
  | known hg h => exact ⟨_, .known hg, h⟩
  | asked hg ho hv h => exact ⟨_, .asked hg ho hv, h⟩

namespace Guard.Answers

theorem ite (h : g.Answers s strict p answer)
    (hbranch : Cmd.Ends s strict (Rule.Ends s strict) (if answer then a else b) p o) :
    Cmd.Ends s strict (Rule.Ends s strict) (.ite g a b) p o := by
  cases h with
  | known h => exact .known h hbranch
  | asked h ho hv => exact .asked h ho hv hbranch

theorem unique (h : g.Answers s strict p answer) (h' : g.Answers s strict p answer') :
    answer' = answer := by
  cases h with
  | known h =>
    cases h' with
    | known h' =>
      cases h.symm.trans h'
      rfl
    | asked h' => cases h.symm.trans h'
  | asked h ho hv =>
    cases h' with
    | known h' => cases h.symm.trans h'
    | asked h' ho' hv' =>
      cases h.symm.trans h'
      cases ho.eq ho'
      cases hv.symm.trans hv'
      rfl

theorem of_test {u : Test} (h : Answers s strict (.test u) p answer) :
    u.holds s p.index p.draft = answer := by
  cases h with
  | known h =>
    cases h
    rfl
  | asked h => cases h

theorem of_asked {probe : Probe} (h : g.Answers s strict p true)
    (hq : g.query s p = .ask probe) :
    ∃ q, Cmd.Ends s strict (Rule.Ends s strict) probe.fragment (s.fresh p.index) (.done q) := by
  cases h with
  | known h => cases h.symm.trans hq
  | asked h ho hv =>
    cases h.symm.trans hq
    obtain ⟨q, rfl⟩ := Ending.verdict_done hv
    exact ⟨q, ho⟩

theorem of_done {probe : Probe} (hq : g.query s p = .ask probe)
    (h : Cmd.Ends s strict (Rule.Ends s strict) probe.fragment (s.fresh p.index) (.done q)) :
    g.Answers s strict p true :=
  .asked hq h rfl

end Guard.Answers

theorem Guard.exists_answers (hs : s.Closed) (hp : p.index ≤ s.lastIndex) (g : Guard) :
    ∃ answer, g.Answers s strict p answer := by
  cases hq : g.query s p with
  | known answer => exact ⟨answer, .known hq⟩
  | ask probe =>
    obtain ⟨o, ho⟩ := Cmd.exists_ends (p := s.fresh p.index) hs hp probe.paced_fragment.1 strict
    obtain ⟨answer, hv⟩ :=
      (ho.mild (fun _ _ _ h => h.mild) probe.exclusive_fragment).verdict
    exact ⟨answer, .asked hq ho hv⟩

theorem Guard.answers_of_ne (hs : s.Closed) (hp : p.index ≤ s.lastIndex)
    (h : ∀ x, g.Answers s strict p x → x ≠ !answer) : g.Answers s strict p answer := by
  obtain ⟨x, hx⟩ : ∃ x, g.Answers s strict p x := g.exists_answers hs hp
  have hne := h x hx
  obtain rfl : x = answer := by
    cases x <;> cases answer <;> simp_all
  exact hx

end

section
variable {s : TokenStream} {strict : Bool} {p q m : Place} {i j : Nat} {d : Draft} {r : Rule}

theorem Cmd.Ends.called (h : Cmd.Ends s strict (Rule.Ends s strict) (.call r) p (.done q)) :
    ∃ m, Rule.Ends s strict r (s.fresh p.index) (.done m) ∧
      q = ⟨m.index, p.draft.adopt m.draft⟩ := by
  cases h with
  | nest h =>
    cases h with
    | jump h => exact ⟨_, h, rfl⟩

/-- The tokens between two parentheses that are read are balanced, so the latter closes the
former. -/
theorem TokenStream.encloses_of_parens (hopen : s.kindAt i = .lparen)
    (hclose : s.kindAt j = .rparen) (hij : i < j) (h : s.scan (i + 1) j [] = some []) :
    s.Encloses i j :=
  ⟨hij, by rw [hopen, hclose]; rfl, h⟩

theorem TokenStream.Encloses.isLambdaHead (h : s.Encloses i j) (hopen : s.kindAt i = .lparen) :
    s.isLambdaHead i = (s.kindAt (j + 1) == .arrow) := by
  rw [TokenStream.isLambdaHead, h.matchingClose?, hopen]
  rfl

theorem TokenStream.kindAt_of_isLambdaHead (h : s.isLambdaHead i = true) :
    s.kindAt i = .lparen := by
  rw [isLambdaHead, Bool.and_eq_true, beq_iff_eq] at h
  exact h.1

theorem Test.holds_lambdaAhead : Test.lambdaAhead.holds s i d = true ↔
    (s.kindAt i = .ident ∧ s.kindAt (i + 1) = .arrow) ∨ s.isLambdaHead i = true := by
  simp [lambdaAhead, here, next, holds]

theorem Rule.Ends.lambdaParameters_ends (h : Rule.Ends s strict .lambdaParameters p (.done q)) :
    (s.kindAt p.index = .ident ∧ q.index = p.index + 1) ∨
      ∃ j, s.kindAt p.index = .lparen ∧ s.Encloses p.index j ∧ q.index = j + 1 := by
  cases h with
  | body h =>
    obtain ⟨m, hm, hwrap⟩ := h.seq_done
    have hq : q.index = m.index := by
      cases hwrap
      rfl
    rw [hq]
    obtain ⟨answer, hident, hm⟩ := hm.ite_done
    cases answer with
    | true =>
      refine .inl ⟨by simpa [Test.here, Test.holds] using hident, ?_⟩
      cases hm
      rfl
    | false =>
      obtain ⟨m₂, hm, hr⟩ := hm.seq_done
      obtain ⟨m₁, hl, hinner⟩ := hm.seq_done
      obtain ⟨hopen, rfl⟩ := hl.of_expect
      obtain ⟨hclose, rfl⟩ := hr.of_expect
      have hle := (hinner.covers fun _ _ _ h => h.covers).index_le
      have hinner := hinner.balanced (by decide)
      refine .inr ⟨m₂.index, hopen, ?_, rfl⟩
      exact TokenStream.encloses_of_parens hopen hclose hle hinner

theorem Rule.Ends.lambda_arrow (h : Rule.Ends s strict .lambda p (.done q)) :
    ∃ i, s.kindAt i = .arrow ∧ i < q.index ∧
      (s.kindAt p.index = .ident ∧ i = p.index + 1 ∨
        ∃ j, s.kindAt p.index = .lparen ∧ s.Encloses p.index j ∧ i = j + 1) := by
  cases h with
  | body h =>
    obtain ⟨m₃, h, hclose⟩ := h.seq_done
    obtain ⟨m₂, h, hbody⟩ := h.seq_done
    obtain ⟨m₁, h, harrow⟩ := h.seq_done
    obtain ⟨m, hparams, hm⟩ := h.called
    obtain ⟨hkind, hm₂⟩ := harrow.of_expect
    have hle : m₂.index ≤ m₃.index := (hbody.covers fun _ _ _ h => h.covers).index_le
    have hread : m₂.index = m₁.index + 1 := by rw [hm₂]
    have hle' : m₃.index ≤ q.index := (hclose.covers fun _ _ _ h => h.covers).index_le
    refine ⟨m₁.index, hkind, by omega, ?_⟩
    rw [show m₁.index = m.index by rw [hm]]
    exact hparams.lambdaParameters_ends

/-- Wherever a lambda is read, one has been seen ahead. -/
theorem Rule.Ends.lambda_ahead (h : Rule.Ends s strict .lambda p (.done q)) :
    Test.lambdaAhead.holds s p.index d = true := by
  rw [Test.holds_lambdaAhead]
  obtain ⟨i, harrow, -, ⟨hident, rfl⟩ | ⟨j, hopen, hj, rfl⟩⟩ := h.lambda_arrow
  · exact .inl ⟨hident, harrow⟩
  · exact .inr ((hj.isLambdaHead hopen).trans (by rw [harrow]; rfl))

end

/-- The kinds that stand behind an expression that is the whole source or an argument. -/
def KindSet.stops : KindSet := .insert .eof .separators

/-- What a command reads from a token of the window it reads in the other stream as well, if at
least `room` tokens of the window follow. -/
def Cmd.Carries (s t : TokenStream) (a b n room : Nat) (c : Cmd) (k : Nat) : Prop :=
  ∀ d m d', m + room ≤ n → Cmd.Ends s false (Rule.Ends s false) c ⟨a + k, d⟩ (.done ⟨a + m, d'⟩) →
    Cmd.Ends t false (Rule.Ends t false) c ⟨b + k, d⟩ (.done ⟨b + m, d'⟩)

section
variable {s t : TokenStream} {a b n k m : Nat} {d d' : Draft} {p q : Place} {x y : Bool}

theorem Window.exists_close (w : Window s t a b n) (hkm : k < m) (hm : m ≤ n)
    (hscan : s.scan (a + k) (a + m) [] = some []) (hopen : s.kindAt (a + k) = .lparen) :
    ∃ j, k < j ∧ j < m ∧ s.Encloses (a + k) (a + j) ∧ t.Encloses (b + k) (b + j) := by
  have hc : (s.kindAt (a + k)).closer? = some .rparen := by rw [hopen]; rfl
  obtain ⟨i, hi, h⟩ := TokenStream.exists_encloses (by omega) hc hscan
  have hlt := h.lt
  obtain ⟨j, rfl⟩ : ∃ j, i = a + j := ⟨i - a, by omega⟩
  exact ⟨j, by omega, by omega, h, w.encloses (by omega) h⟩

/-- A lambda is seen ahead in the second stream only if it is in the first, where balanced tokens
are read from there. -/
theorem Window.lambdaAhead_of_right (w : Window s t a b n) (hkm : k < m) (hm : m ≤ n)
    (hend : m = n → KindSet.stops.contains (t.kindAt (b + n)) = true)
    (hscan : s.scan (a + k) (a + m) [] = some [])
    (h : Test.lambdaAhead.holds t (b + k) d = true) :
    Test.lambdaAhead.holds s (a + k) d = true := by
  rw [Test.holds_lambdaAhead] at h ⊢
  -- The arrow is none of what may stand behind the window, so it lies in it.
  have harrow {j : Nat} (hj : j < m) (h : t.kindAt (b + j + 1) = .arrow) :
      s.kindAt (a + j + 1) = .arrow := by
    have hin : j + 1 < n := by
      refine Nat.lt_of_not_le fun hle => ?_
      have hmn : m = n := by omega
      have hjn : j + 1 = n := by omega
      have hstop := hend hmn
      rw [Nat.add_assoc, hjn] at h
      rw [h] at hstop
      cases hstop
    rw [Nat.add_assoc, ← w.kindAt_eq hin, ← Nat.add_assoc]
    exact h
  rcases h with ⟨hident, h⟩ | h
  · rw [w.kindAt_eq (by omega)] at hident
    exact .inl ⟨hident, harrow hkm h⟩
  · have hopen : t.kindAt (b + k) = .lparen := by
      rw [TokenStream.isLambdaHead, Bool.and_eq_true, beq_iff_eq] at h
      exact h.1
    have hopen' : s.kindAt (a + k) = .lparen := by rw [← w.kindAt_eq (by omega), hopen]
    obtain ⟨j, -, hj, hs, ht⟩ := w.exists_close hkm hm hscan hopen'
    rw [ht.isLambdaHead hopen, beq_iff_eq] at h
    exact .inr (by rw [hs.isLambdaHead hopen', harrow hj h]; rfl)

theorem Grammar.castHead_ends {strict : Bool}
    (h : Cmd.Ends s strict (Rule.Ends s strict) Grammar.castHead p (.done q)) :
    ∃ j, s.kindAt p.index = .lparen ∧ s.Encloses p.index j ∧ q.index = j + 1 := by
  obtain ⟨m₃, h, hr⟩ := h.seq_done
  obtain ⟨m₂, h, hbounds⟩ := h.seq_done
  obtain ⟨m₁, hl, htype⟩ := h.seq_done
  obtain ⟨hopen, rfl⟩ := hl.of_expect
  obtain ⟨hclose, rfl⟩ := hr.of_expect
  have hle : p.index + 1 ≤ m₂.index := (htype.covers fun _ _ _ h => h.covers).index_le
  have hle' : m₂.index ≤ m₃.index := (hbounds.covers fun _ _ _ h => h.covers).index_le
  have hscan : s.scan (p.index + 1) m₃.index [] = some [] := by
    have htype : s.scan (p.index + 1) m₂.index [] = some [] := htype.balanced (by decide)
    rw [TokenStream.scan_trans hle hle', htype, Option.bind_some]
    exact hbounds.balanced (by decide)
  exact ⟨m₃.index, hopen,
    TokenStream.encloses_of_parens hopen hclose (Nat.le_trans hle hle') hscan, rfl⟩

/-- A type may stand in the parenthesis, as far as two tokens tell. -/
def Grammar.typeInParentheses : Test :=
  .either (.ahead 1 (.ofList [.ident, .atSign]))
    (.both (.ahead 1 TokenKind.primitives) (.ahead 2 (.single .lbracket)))

theorem Grammar.query_castAhead (s : TokenStream) (p : Place) :
    referenceCastAhead.query s p =
      if typeInParentheses.holds s p.index p.draft = true ∧ s.isLambdaHead p.index = false then
        .ask .referenceCast
      else .known false := by
  rw [referenceCastAhead, Guard.query, if_neg (by simp [Test.holds])]
  simp only [Test.holds, Bool.and_eq_true, Bool.not_eq_true']
  rfl

theorem TokenKind.operandStart_of_lambdaAhead {i : Nat}
    (h : Test.lambdaAhead.holds s i d = true) :
    castOperandStart.contains (s.kindAt i) = true := by
  rw [Test.holds_lambdaAhead] at h
  rcases h with ⟨hident, -⟩ | h
  · rw [hident]
    decide
  · rw [TokenStream.isLambdaHead, Bool.and_eq_true, beq_iff_eq] at h
    rw [h.1]
    decide

theorem Grammar.answers_castAhead {strict : Bool} :
    referenceCastAhead.Answers s strict p true ↔
      (typeInParentheses.holds s p.index p.draft = true ∧ s.isLambdaHead p.index = false) ∧
        ∃ q, Cmd.Ends s strict (Rule.Ends s strict) castHead (s.fresh p.index) (.done q) ∧
          TokenKind.castOperandStart.contains (s.kindAt q.index) = true := by
  constructor
  · intro h
    cases h with
    | known hq =>
      rw [query_castAhead] at hq
      split at hq <;> cases hq
    | asked hq ho hv =>
      rw [query_castAhead] at hq
      split at hq
      · rename_i hahead
        cases hq
        obtain ⟨q, hhead, hoperand⟩ := (Probe.referenceCast_accepts ho hv).1 rfl
        exact ⟨hahead, q, hhead, hoperand.elim id TokenKind.operandStart_of_lambdaAhead⟩
      · cases hq
  · rintro ⟨hahead, q, hhead, hoperand⟩
    have hq : referenceCastAhead.query s p = .ask .referenceCast := by
      rw [query_castAhead, if_pos hahead]
    have htest : (Guard.test (.either (.hereAny TokenKind.castOperandStart)
        .lambdaAhead)).query s q = .known true := by
      rw [Guard.query, Test.holds]
      exact congrArg Query.known (by rw [Bool.or_eq_true]; exact .inl hoperand)
    exact .of_done hq (.seq hhead (.known htest .skip))

/-- A cast is seen ahead in both streams or in neither, if the parentheses and the token behind
them lie in the window. -/
theorem Window.answers_castAhead (w : Window s t a b n) {j : Nat} (hkj : k < j) (hj : j + 1 < n)
    (hs : s.Encloses (a + k) (a + j)) (ht : t.Encloses (b + k) (b + j))
    (hcarry : Grammar.castHead.Carries s t a b n 1 k)
    (h : Grammar.referenceCastAhead.Answers s false ⟨a + k, d⟩ true) :
    Grammar.referenceCastAhead.Answers t false ⟨b + k, d'⟩ true := by
  rw [Grammar.answers_castAhead] at h ⊢
  obtain ⟨⟨htype, hlambda⟩, q, hhead, hoperand⟩ := h
  obtain ⟨i, hopen, hi, hq⟩ := Grammar.castHead_ends hhead
  obtain rfl : i = a + j := hs.unique hi
  have hopen' : t.kindAt (b + k) = .lparen := by
    rw [w.kindAt_eq (by omega)]
    exact hopen
  have hbehind : s.kindAt q.index = t.kindAt (b + j + 1) := by
    rw [hq, Nat.add_assoc, Nat.add_assoc, w.kindAt_eq hj]
  rw [hbehind] at hoperand
  have htail := hcarry (s.fresh (a + k)).draft (j + 1) q.draft (by omega) (by
    rw [← Nat.add_assoc, ← hq]
    exact hhead)
  refine ⟨⟨?_, ?_⟩, ⟨b + (j + 1), q.draft⟩, ?_, ?_⟩
  · simp only [Grammar.typeInParentheses, Test.holds, Nat.add_assoc] at htype ⊢
    rw [w.kindAt_eq (by omega), w.kindAt_eq (by omega)]
    exact htype
  · rw [ht.isLambdaHead hopen']
    refine Bool.eq_false_iff.2 fun harrow => ?_
    rw [beq_iff_eq] at harrow
    rw [harrow] at hoperand
    exact absurd hoperand (by decide)
  · rw [w.fresh_eq (by omega)]
    exact htail
  · exact hoperand

end

section
variable {s : TokenStream} {strict : Bool} {p q m : Place} {i e : Nat} {d : Draft}

theorem Cmd.Ends.loop_idle {g : Test} {body : Cmd}
    (h : Cmd.Ends s strict (Rule.Ends s strict) (.loop g body) p (.done q))
    (hg : g.holds s p.index p.draft = false) : q = p := by
  have hstop := Cmd.Ends.loop_stop (g := .test g) (by rw [Guard.query, hg]) h
  cases hstop
  rfl

theorem Cmd.Ends.index_le {c : Cmd}
    (h : Cmd.Ends s strict (Rule.Ends s strict) c p (.done q)) : p.index ≤ q.index :=
  (h.covers fun _ _ _ h => h.covers).index_le

/-- The name segments have been left behind, or go on from the place. -/
def Place.AlongName (s : TokenStream) (e : Nat) (p : Place) : Prop :=
  e ≤ p.index ∨ s.Segments p.index e

theorem Grammar.segment_along {allowDiamond : Bool}
    (h : Cmd.Ends s strict (Rule.Ends s strict) (segment allowDiamond) p (.done q))
    (hsegments : s.Segments (p.index + 1) e) : q.AlongName s e := by
  obtain ⟨m, hident, h⟩ := h.seq_done
  obtain ⟨-, rfl⟩ := hident.of_expect
  obtain ⟨answer, hless, h⟩ := h.ite_done
  cases answer with
  | true =>
    rw [Guard.allows_test, Test.here, Test.holds, KindSet.contains_single,
      decide_eq_true_eq] at hless
    have hle := h.index_le
    cases hsegments with
    | stop => exact .inl hle
    | next hdot =>
      have hless : s.kindAt (p.index + 1) = .less := hless
      cases hless.symm.trans hdot
  | false =>
    cases h
    exact .inr hsegments

theorem Grammar.segments_along {allowDiamond : Bool}
    (h : Cmd.Ends s strict (Rule.Ends s strict) (segments allowDiamond) p (.done q)) :
    s.nameEnd p.index ≤ q.index := by
  obtain ⟨e, he⟩ : ∃ e, e = s.nameEnd p.index := ⟨_, rfl⟩
  have hsegments := s.segments_nameEnd p.index
  rw [← he] at hsegments ⊢
  obtain ⟨m, hfirst, hloop⟩ := h.seq_done
  obtain ⟨halong, hstop⟩ := hloop.loop_done (I := fun m => m.AlongName s e) (by
    intro m m' hm hg hbody
    rw [Guard.allows_test, Test.holds, Bool.and_eq_true] at hg
    obtain ⟨m₂, hbody, hsegment⟩ := hbody.seq_done
    obtain ⟨m₁, hshift, hannotations⟩ := hbody.seq_done
    have hle := hannotations.index_le
    have hle' := hsegment.index_le
    rcases hm with hm | hm
    · refine .inl (Nat.le_trans hm ?_)
      have := hshift.index_le
      omega
    · cases hm with
      | stop =>
        refine .inl ?_
        have := hshift.index_le
        omega
      | next hdot hident hrest =>
        cases hshift
        have hidle := hannotations.loop_idle (by
          simp [annotationAhead, Test.holds, Test.here, hident])
        subst hidle
        exact segment_along hsegment hrest) (segment_along hfirst hsegments)
  rcases halong with halong | halong
  · exact halong
  · cases halong with
    | stop => exact Nat.le_refl _
    | next hdot hident =>
      rw [Guard.allows_test, Test.holds] at hstop
      simp [Test.here, Test.holds, hdot, hident, KindSet.contains_ofList] at hstop

/-- A type that starts with an identifier goes at least as far as the name. -/
theorem Rule.Ends.nameEnd_le_type (h : Rule.Ends s strict .type p (.done q))
    (hident : s.kindAt p.index = .ident) : s.nameEnd p.index ≤ q.index := by
  cases h with
  | body h =>
    obtain ⟨m₂, h, hsuffix⟩ := h.seq_done
    obtain ⟨m₁, hannotations, htype⟩ := h.seq_done
    have hidle := hannotations.loop_idle (by
      simp [Grammar.annotationAhead, Test.holds, Test.here, hident])
    subst hidle
    refine Nat.le_trans ?_ hsuffix.index_le
    obtain ⟨answer, hprim, htype⟩ := htype.ite_done
    cases answer with
    | true =>
      rw [Guard.allows_test, Test.hereAny, Test.holds, Nat.add_zero, hident] at hprim
      cases hprim
    | false =>
      obtain ⟨answer, -, htype⟩ := htype.ite_done
      cases answer with
      | true =>
        obtain ⟨m, hsegments, hclose⟩ := htype.seq_done
        exact Nat.le_trans (Grammar.segments_along hsegments) hclose.index_le
      | false => cases htype

theorem Rule.Ends.nameEnd_le_classType {allowDiamond : Bool}
    (h : Rule.Ends s strict (.classType allowDiamond) p (.done q))
    (hident : s.kindAt p.index = .ident) : s.nameEnd p.index ≤ q.index := by
  cases h with
  | body h =>
    obtain ⟨m₂, h, hclose⟩ := h.seq_done
    obtain ⟨m₁, hannotations, hsegments⟩ := h.seq_done
    have hidle := hannotations.loop_idle (by
      simp [Grammar.annotationAhead, Test.holds, Test.here, hident])
    subst hidle
    exact Nat.le_trans (Grammar.segments_along hsegments) hclose.index_le

theorem Rule.Ends.nameEnd_eq (h : Rule.Ends s strict .name p (.done q)) :
    s.kindAt p.index = .ident ∧ s.nameEnd p.index = q.index := by
  obtain ⟨e, he⟩ : ∃ e, e = s.nameEnd p.index := ⟨_, rfl⟩
  have hsegments := s.segments_nameEnd p.index
  rw [← he] at hsegments ⊢
  cases h with
  | body h =>
    obtain ⟨m₂, h, hclose⟩ := h.seq_done
    have hq : q.index = m₂.index := by
      cases hclose
      rfl
    obtain ⟨m₁, hfirst, hloop⟩ := h.seq_done
    obtain ⟨hident, rfl⟩ := hfirst.of_expect
    obtain ⟨hall, hstop⟩ := hloop.loop_done (I := fun m => s.Segments m.index e) (by
      intro m m' hm hg hbody
      rw [Guard.allows_test, Test.holds, Bool.and_eq_true] at hg
      obtain ⟨m'', hfirst, hsecond⟩ := hbody.seq_done
      cases hfirst
      cases hsecond
      cases hm with
      | stop hstop =>
        refine absurd ?_ hstop
        simpa [Test.here, Test.next, Test.holds] using hg
      | next _ _ hrest => exact hrest) hsegments
    refine ⟨hident, ?_⟩
    rw [hq]
    cases hall with
    | stop => rfl
    | next hdot hnext =>
      rw [Guard.allows_test, Test.holds] at hstop
      simp [Test.here, Test.next, Test.holds, hdot, hnext] at hstop

theorem Cmd.Ends.contains_start {c : Cmd} {ks : KindSet}
    (hc : c.exits { ahead := [KindSet.full.diff ks] } = [])
    (h : Cmd.Ends s strict (Rule.Ends s strict) c p (.done q)) :
    ks.contains (s.kindAt p.index) = true := by
  by_contra hks
  refine Cmd.Ends.not_done (Outlook.holds_ahead_one ?_) hc h
  simpa using hks

end

namespace Grammar
open Cmd Test

/-- The two kinds stand behind a dotted name. -/
def behindName (first second : TokenKind) : Test :=
  both (afterName 0 (.single first)) (afterName 1 (.single second))

/-- A primary that starts with a name which is no array type. -/
def nameOrClass : Cmd :=
  ite (behindName .dot .kwClass) (call (.classType false) ++ typeSuffix) nameRest

/-- A primary that starts with a name without type arguments. -/
def nameOrType : Cmd :=
  ite (behindName .lbracket .rbracket) (call .type ++ typeSuffix) nameOrClass

theorem nameFirst_eq :
    nameFirst = ite (.typeHead .genericMethodRef) (call .type ++ methodReference) nameOrType :=
  rfl

end Grammar

section
variable {s t : TokenStream} {strict : Bool} {p q : Place} {a b n k m e : Nat} {d d' : Draft}
  {first second : TokenKind} {c : Cmd} {r : Rule}

theorem Cmd.Ends.nameEnd_le_call (hr : r = .type ∨ r = .classType false ∨ r = .name)
    (h : Cmd.Ends s strict (Rule.Ends s strict) (.call r ++ c) p (.done q))
    (hident : s.kindAt p.index = .ident) : s.nameEnd p.index + c.least {} ≤ q.index := by
  obtain ⟨m, hcall, hc⟩ := h.seq_done
  obtain ⟨m', hrule, rfl⟩ := hcall.called
  have hle : s.nameEnd p.index ≤ m'.index := by
    rcases hr with rfl | rfl | rfl
    · exact hrule.nameEnd_le_type hident
    · exact hrule.nameEnd_le_classType hident
    · exact Nat.le_of_eq hrule.nameEnd_eq.2
  have hcount := hc.count (Outlook.holds_bottom _)
  exact Nat.le_trans (Nat.add_le_add_right hle _) hcount

theorem Grammar.nameEnd_le_nameOrClass
    (h : Cmd.Ends s strict (Rule.Ends s strict) nameOrClass p (.done q))
    (hident : s.kindAt p.index = .ident) : s.nameEnd p.index ≤ q.index := by
  obtain ⟨answer, -, h⟩ := h.ite_done
  cases answer with
  | true => exact Nat.le_trans (Nat.le_add_right _ _) (h.nameEnd_le_call (.inr (.inl rfl)) hident)
  | false => exact Nat.le_trans (Nat.le_add_right _ _) (h.nameEnd_le_call (.inr (.inr rfl)) hident)

theorem Grammar.nameEnd_le_nameOrType
    (h : Cmd.Ends s strict (Rule.Ends s strict) nameOrType p (.done q))
    (hident : s.kindAt p.index = .ident) : s.nameEnd p.index ≤ q.index := by
  obtain ⟨answer, -, h⟩ := h.ite_done
  cases answer with
  | true => exact Nat.le_trans (Nat.le_add_right _ _) (h.nameEnd_le_call (.inl rfl) hident)
  | false => exact nameEnd_le_nameOrClass h hident

namespace Window

theorem nameEnd_eq (w : Window s t a b n) (h : s.nameEnd (a + k) = a + e) (he : e ≤ n)
    (hend : e = n → KindSet.stops.contains (t.kindAt (b + n)) = true) :
    t.nameEnd (b + k) = b + e := by
  have hsegments := s.segments_nameEnd (a + k)
  rw [h] at hsegments
  refine (hsegments.window (k := k + 1) w he fun hen hdot => ?_).nameEnd_eq
  have hstop := hend hen
  rw [hdot] at hstop
  cases hstop

theorem behindName_eq (w : Window s t a b n) (hs : s.nameEnd (a + k) = a + e)
    (ht : t.nameEnd (b + k) = b + e) (he : e + 1 < n) :
    (Grammar.behindName first second).holds t (b + k) d' =
      (Grammar.behindName first second).holds s (a + k) d := by
  simp only [Grammar.behindName, Test.holds, hs, ht, Nat.add_zero, Nat.add_assoc]
  rw [w.kindAt_eq (by omega), w.kindAt_eq he]

/-- Behind a name at the border of the window nothing is found in the second stream that is not
in the first. -/
theorem behindName_of_right (w : Window s t a b n) (hs : s.nameEnd (a + k) = a + e)
    (he : e ≤ n) (hend : e = n → KindSet.stops.contains (t.kindAt (b + n)) = true)
    (hfirst : (KindSet.dangling.diff .stops).contains first = true)
    (h : (Grammar.behindName first second).holds t (b + k) d' = true) :
    (Grammar.behindName first second).holds s (a + k) d = true := by
  have ht := w.nameEnd_eq hs he hend
  have hkind : t.kindAt (b + e) = first := by
    simp only [Grammar.behindName, Test.holds, ht, Nat.add_zero, Bool.and_eq_true,
      KindSet.contains_single, decide_eq_true_eq] at h
    exact h.1
  have hlt : e < n := by
    refine Nat.lt_of_le_of_ne he fun hen => ?_
    have hstop := hend hen
    rw [← hen, hkind] at hstop
    rw [KindSet.contains_diff, hstop] at hfirst
    simp at hfirst
  have hnext : e + 1 < n := by
    refine Nat.lt_of_le_of_ne hlt fun hlast => ?_
    have hplain := w.settled e hlast
    rw [← w.kindAt_eq hlt, hkind] at hplain
    rw [KindSet.contains_diff, hplain] at hfirst
    cases hfirst
  rw [← w.behindName_eq hs ht hnext]
  exact h

/-- The probe for a method reference on a type says yes in both streams, if what it reads in the
first lies in the window. -/
theorem answers_typeHead (w : Window s t a b n) (hident : s.kindAt (a + k) = .ident)
    (hs : s.nameEnd (a + k) = a + e) (ht : t.nameEnd (b + k) = b + e)
    (hcarry : (Probe.fragment .genericMethodRef).Carries s t a b n 0 k)
    (hend : ∀ q, Cmd.Ends s false (Rule.Ends s false) (Probe.fragment .genericMethodRef)
      (s.fresh (a + k)) (.done q) → q.index ≤ a + n)
    (h : (Guard.typeHead .genericMethodRef).Answers s false ⟨a + k, d⟩ true) :
    (Guard.typeHead .genericMethodRef).Answers t false ⟨b + k, d'⟩ true := by
  have hquery : (Guard.typeHead .genericMethodRef).query s ⟨a + k, d⟩ = .ask .genericMethodRef ∧
      s.kindAt (a + e) = .less ∧ s.scanTypePrefix (a + e) = .mayBe := by
    cases h with
    | known hq =>
      rw [Guard.query] at hq
      split at hq <;> cases hq
    | asked hq =>
      rw [Guard.query, hs] at hq
      split at hq
      · rename_i hhead
        refine ⟨?_, hhead⟩
        rw [Guard.query, hs, if_pos hhead]
      · cases hq
  obtain ⟨hask, hless, hscan⟩ := hquery
  obtain ⟨q, hq⟩ := h.of_asked hask
  have hqn := hend q hq
  obtain ⟨m, htype, hlast⟩ := hq.seq_done
  obtain ⟨m', hrule, hm⟩ := htype.called
  obtain ⟨hcolon, hbehind⟩ := hlast.of_expect
  have hqm : q.index = m.index + 1 := by rw [hbehind]
  have hle := hrule.nameEnd_le_type hident
  rw [← show m.index = m'.index by rw [hm]] at hle
  change s.nameEnd (a + k) ≤ m.index at hle
  rw [hs] at hle
  rw [hqm] at hqn
  obtain ⟨y, hy⟩ : ∃ y, m.index = a + y := ⟨m.index - a, by omega⟩
  rw [hy] at hcolon
  have hlength : a + y < s.length := TokenStream.lt_length_of_kindAt (by rw [hcolon]; decide)
  have hcolon' : t.kindAt (b + y) = .colonColon := by rw [w.kindAt_eq (by omega), hcolon]
  have hlength' : b + y < t.length := TokenStream.lt_length_of_kindAt (by rw [hcolon']; decide)
  have hne : e ≠ y := by
    rintro rfl
    cases hcolon.symm.trans hless
  have hask' : (Guard.typeHead .genericMethodRef).query t ⟨b + k, d'⟩ = .ask .genericMethodRef := by
    rw [Guard.query, ht, if_pos]
    refine ⟨by rw [w.kindAt_eq (by omega), hless], ?_⟩
    exact (TokenStream.scanFrom_eq w (by omega) hcolon (by omega) (by omega) (by omega)).1 hscan
  have hkn : k < n := by
    have := hrule.least_le (Outlook.holds_bottom _)
    have hone : Rule.type.least {} = 1 := rfl
    change a + k + _ ≤ m'.index at this
    rw [← show m.index = m'.index by rw [hm], hone] at this
    omega
  refine .of_done (q := ⟨b + (y + 1), q.draft⟩) hask' ?_
  rw [w.fresh_eq hkn]
  refine hcarry _ (y + 1) _ (by omega) ?_
  rw [← Nat.add_assoc, ← hy, ← hqm]
  exact hq

end Window
end

end JavaSyntax
