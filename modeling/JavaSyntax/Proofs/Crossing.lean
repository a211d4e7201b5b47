import JavaSyntax.Proofs.Pairing

/-!
# Commas in types

A type reads a comma outside of delimiters only in type arguments. Before `::` something that
goes on with the type, or the `::` itself, stands behind them. The same is told of semicolons, which
divide lists as well.
-/

namespace JavaSyntax

def KindSet.dividers : KindSet := .ofList [.comma, .semi]

theorem KindSet.divider_cases {k : TokenKind} (hk : dividers.contains k = true) :
    k = .comma ∨ k = .semi := by
  simpa [dividers, contains_ofList] using hk

/-- The kinds that do not stand for themselves where a type has no type arguments. -/
def KindSet.unstrung : KindSet := .union .dividers .bracketing

namespace TokenStream
variable {s : TokenStream} {i j m n : Nat}

/-- The tokens from index `i` up to `j` stand for themselves, but for delimiters and for angle
brackets before a suffix, with what is in them. -/
inductive Strung (s : TokenStream) : Nat → Nat → Prop
  | nil (i : Nat) : Strung s i i
  | token {i j : Nat} (hk : KindSet.unstrung.contains (s.kindAt i) = false)
      (h : Strung s (i + 1) j) : Strung s i j
  | group {i m j : Nat} (hm : s.Encloses i m) (h : Strung s (m + 1) j) : Strung s i j
  | angles {i m j : Nat} (hm : s.Angled i m)
      (hnext : KindSet.suffixes.contains (s.kindAt (m + 1)) = true)
      (h : Strung s (m + 1) j) : Strung s i j

namespace Strung

theorem trans (h : s.Strung i j) (h' : s.Strung j m) : s.Strung i m := by
  induction h with
  | nil => exact h'
  | token hk _ ih => exact .token hk (ih h')
  | group hm _ ih => exact .group hm (ih h')
  | angles hm hnext _ ih => exact .angles hm hnext (ih h')

theorem one (hk : KindSet.unstrung.contains (s.kindAt i) = false) : s.Strung i (i + 1) :=
  .token hk (.nil _)

theorem level (h : s.Strung i j) : s.Level i j := by
  induction h with
  | nil i => exact .refl s i
  | token hk _ ih =>
    refine .trans (.token ?_) ih
    rw [KindSet.unstrung, KindSet.contains_union, Bool.or_eq_false_iff] at hk
    exact hk.2
  | group hm _ ih => exact .trans hm.level ih
  | angles hm _ _ ih => exact .trans hm.level ih

/-- A divider outside of delimiters stands between angle brackets. -/
theorem exists_angled (h : s.Strung i j) (hin : i ≤ n) (hnj : n < j)
    (hdivider : KindSet.dividers.contains (s.kindAt n) = true) (hscan : s.scan i n [] = some []) :
    ∃ l m, i ≤ l ∧ l < n ∧ n < m ∧ m < j ∧ s.Angled l m ∧
      KindSet.suffixes.contains (s.kindAt (m + 1)) = true := by
  -- Behind what is balanced the rest is still outside of delimiters.
  have hrest {i m : Nat} (hlevel : s.Level i m) (hmn : m ≤ n)
      (hscan : s.scan i n [] = some []) : s.scan m n [] = some [] := by
    rw [scan_trans hlevel.le hmn, hlevel.balanced] at hscan
    exact hscan
  induction h with
  | nil => omega
  | @token i j hk _ ih =>
    rw [KindSet.unstrung, KindSet.contains_union, Bool.or_eq_false_iff] at hk
    have hne : i ≠ n := by
      rintro rfl
      cases hk.1.symm.trans hdivider
    obtain ⟨l, m, hl, hmore⟩ := ih (by omega) hnj (hrest (.token hk.2) (by omega) hscan)
    exact ⟨l, m, by omega, hmore⟩
  | @group i m j hm _ ih =>
    have hmn : m < n := by
      refine Nat.lt_of_not_le fun hnm => ?_
      have hcloser := hm.closer
      rcases Nat.lt_or_eq_of_le hnm with hnm | rfl
      · have hne : i ≠ n := by
          rintro rfl
          rcases KindSet.divider_cases hdivider with hkind | hkind <;>
            rw [hkind] at hcloser <;> cases hcloser
        -- The delimiter at `i` would still be open at the divider.
        have hinner := hm.inner
        rw [scan_trans (show i + 1 ≤ n by omega) (Nat.le_of_lt hnm)] at hinner
        obtain ⟨waiting, hwaiting, -⟩ := Option.bind_eq_some_iff.1 hinner
        have hopen : s.scan (i + 1) n ([] ++ [s.kindAt m]) = some (waiting ++ [s.kindAt m]) :=
          scan_frame hwaiting
        rw [scan_trans (Nat.le_succ i) (show i + 1 ≤ n by omega), scan_succ,
          Delimiters.step_opener hcloser, Option.bind_some] at hscan
        have heq := hopen.symm.trans hscan
        simp at heq
      · have hclosing := TokenKind.isCloser_of_closer? hcloser
        rcases KindSet.divider_cases hdivider with hkind | hkind <;>
          rw [hkind] at hclosing <;> cases hclosing
    obtain ⟨l, m', hl, hmore⟩ := ih (by omega) hnj (hrest hm.level hmn hscan)
    have hlt := hm.lt
    exact ⟨l, m', by omega, hmore⟩
  | @angles i m j hm hnext h ih =>
    have hlt := hm.lt
    have hmj := h.level.le
    rcases Nat.lt_trichotomy n m with hnm | rfl | hmn
    · have hne : i ≠ n := by
        rintro rfl
        rcases KindSet.divider_cases hdivider with hkind | hkind <;>
          cases hm.opens.symm.trans hkind
      exact ⟨i, m, Nat.le_refl i, by omega, hnm, hmj, hm, hnext⟩
    · rcases KindSet.divider_cases hdivider with hkind | hkind <;>
        cases hm.closes.symm.trans hkind
    · obtain ⟨l, m', hl, hmore⟩ := ih hmn hnj (hrest hm.level hmn hscan)
      exact ⟨l, m', by omega, hmore⟩

end Strung
end TokenStream

section
variable {s : TokenStream} {strict : Bool} {c : Cmd} {p q : Place} {kind : NodeKind} {r : Rule}

/-- The rules for parts of types that have no type arguments. -/
def Rule.isStrung : Rule → Bool
  | name | annotationUse | dims => true
  | _ => false

theorem Cmd.Ends.strung_of_rules (rules : Rule → Bool)
    (hrules : ∀ r p q, rules r = true → Rule.Ends s strict r p (.done q) →
      s.Strung p.index q.index)
    (hc : c.avoids .unstrung rules {} = true)
    (h : Cmd.Ends s strict (Rule.Ends s strict) c p (.done q)) : s.Strung p.index q.index :=
  h.joins .nil (fun _ _ _ => .trans) (fun _ => .one) hrules (fun _ _ _ h => h) hc
    (Outlook.holds_bottom p)

theorem Rule.Ends.strung_name (h : Rule.Ends s strict .name p (.done q)) :
    s.Strung p.index q.index := by
  cases h with
  | body h => exact h.strung_of_rules (fun _ => false) (by simp) (by decide)

theorem Rule.Ends.strung_annotationUse (h : Rule.Ends s strict .annotationUse p (.done q)) :
    s.Strung p.index q.index := by
  cases h with
  | body h =>
    obtain ⟨m, hhead, hcases⟩ := Grammar.annotationUse_cases h
    have hstrung : s.Strung p.index m.index :=
      hhead.strung_of_rules (· == .name)
        (fun r p q hr h => Rule.Ends.strung_name (beq_iff_eq.1 hr ▸ h)) (by decide)
    rcases hcases with heq | ⟨j, heq, hencloses⟩
    · rw [heq]
      exact hstrung
    · rw [heq]
      exact hstrung.trans (.group hencloses (.nil _))

theorem Grammar.strung_dim
    (h : Cmd.Ends s strict (Rule.Ends s strict) dim p (.done q)) : s.Strung p.index q.index := by
  obtain ⟨m₂, h, hright⟩ := h.seq_done
  obtain ⟨m₁, hannotations, hleft⟩ := h.seq_done
  obtain ⟨hopen, rfl⟩ := hleft.of_expect
  obtain ⟨hclose, rfl⟩ := hright.of_expect
  refine (hannotations.strung_of_rules (· == .annotationUse)
    (fun r p q hr h => Rule.Ends.strung_annotationUse (beq_iff_eq.1 hr ▸ h)) (by decide)).trans ?_
  exact .group ⟨Nat.lt_succ_self _, by rw [hopen, hclose]; rfl, TokenStream.scan_self _⟩ (.nil _)

theorem Rule.Ends.strung_dims (h : Rule.Ends s strict .dims p (.done q)) :
    s.Strung p.index q.index := by
  cases h with
  | body h =>
    obtain ⟨m₂, h, hclose⟩ := h.seq_done
    obtain ⟨m₁, hfirst, hloop⟩ := h.seq_done
    rw [hclose.of_close]
    exact (hloop.loop_done (I := fun m => s.Strung p.index m.index)
      (fun m m' hm _ hbody => hm.trans (Grammar.strung_dim hbody)) (Grammar.strung_dim hfirst)).1

theorem Cmd.Ends.strung (hc : c.avoids .unstrung Rule.isStrung {} = true)
    (h : Cmd.Ends s strict (Rule.Ends s strict) c p (.done q)) : s.Strung p.index q.index := by
  refine h.strung_of_rules Rule.isStrung (fun r p q hr h => ?_) hc
  cases r with
  | name => exact h.strung_name
  | annotationUse => exact h.strung_annotationUse
  | dims => exact h.strung_dims
  | _ => cases hr

theorem Grammar.strung_segment
    (h : Cmd.Ends s strict (Rule.Ends s strict) (segment false) p (.done q))
    (hnext : KindSet.suffixes.contains (s.kindAt q.index) = true) : s.Strung p.index q.index := by
  obtain ⟨m, hident, hopt⟩ := h.seq_done
  have hident : s.Strung p.index m.index := hident.strung (by decide)
  obtain ⟨answer, -, hopt⟩ := hopt.ite_done
  cases answer with
  | false =>
    rw [hopt.of_skip]
    exact hident
  | true =>
    obtain ⟨q', htypes, rfl⟩ := Cmd.Ends.called hopt
    cases htypes with
    | body htypes =>
      obtain ⟨j, hj, hangled⟩ := (htypes.mono fun _ _ _ h => h.level).angled (by decide)
      rw [TokenStream.fresh_index] at hangled
      change KindSet.suffixes.contains (s.kindAt q'.index) = true at hnext
      change s.Strung p.index q'.index
      rw [hj] at hnext ⊢
      exact hident.trans (.angles hangled hnext (.nil _))

/-- Before a suffix the segments of a type are strung, since a dot is a suffix. -/
theorem Grammar.strung_segments
    (h : Cmd.Ends s strict (Rule.Ends s strict) (segments false) p (.done q))
    (hnext : KindSet.suffixes.contains (s.kindAt q.index) = true) : s.Strung p.index q.index := by
  obtain ⟨m, hfirst, hloop⟩ := h.seq_done
  refine (hloop.loop_done (I := fun m => KindSet.suffixes.contains (s.kindAt m.index) = true →
    s.Strung p.index m.index) ?_ (strung_segment hfirst)).1 hnext
  intro m m' hm hg hbody hnext
  have hdot : s.kindAt m.index = .dot := by
    rw [Guard.allows_test, Test.holds, Bool.and_eq_true] at hg
    simpa [Test.here, Test.holds] using hg.1
  obtain ⟨m₁, hhead, hsegment⟩ := hbody.seq_done
  have hhead : s.Strung m.index m₁.index := by
    obtain ⟨m₀, hshift, hannotations⟩ := hhead.seq_done
    have hm₀ : m₀.index = m.index + 1 := congrArg Place.index hshift.of_shift.2
    refine .token (by rw [hdot]; decide) ?_
    rw [← hm₀]
    exact hannotations.strung (by decide)
  exact (hm (by rw [hdot]; decide)).trans (hhead.trans (strung_segment hsegment hnext))

theorem Rule.Ends.strung_type (h : Rule.Ends s strict .type p (.done q))
    (hnext : KindSet.suffixes.contains (s.kindAt q.index) = true) : s.Strung p.index q.index := by
  cases h with
  | body h =>
    obtain ⟨m₂, h, hsuffix⟩ := h.seq_done
    obtain ⟨m₁, hannotations, hbare⟩ := h.seq_done
    have hannotations : s.Strung p.index m₁.index := hannotations.strung (by decide)
    have hdims : s.Strung m₂.index q.index := hsuffix.strung (by decide)
    -- Dimensions start with a suffix.
    have hnext : KindSet.suffixes.contains (s.kindAt m₂.index) = true := by
      by_contra hno
      have hidle := hsuffix.still (v := { ahead := [KindSet.full.diff .suffixes] }) (by decide)
        (Outlook.holds_ahead_one (by simpa using hno))
      rw [hidle] at hnext
      exact hno hnext
    refine hannotations.trans (.trans ?_ hdims)
    obtain ⟨answer, hprimitive, hbare⟩ := hbare.ite_answers
    cases answer with
    | true =>
      obtain ⟨m, hshift, hclose⟩ := hbare.seq_done
      have hm : m.index = m₁.index + 1 := congrArg Place.index hshift.of_shift.2
      have hprimitive : TokenKind.primitives.contains (s.kindAt m₁.index) = true :=
        hprimitive.of_test
      rw [hclose.of_close, hm]
      refine .one (KindSet.not_contains_of_disjoint ?_ hprimitive)
      decide
    | false =>
      obtain ⟨answer, -, hbare⟩ := hbare.ite_done
      cases answer with
      | false => cases hbare
      | true =>
        obtain ⟨m, hsegments, hclose⟩ := hbare.seq_done
        rw [hclose.of_close] at hnext ⊢
        exact Grammar.strung_segments (q := m) hsegments hnext

/-- What a probe reads that may be tried in an operand is strung. -/
theorem Probe.strung {probe : Probe} (hprobe : probe.isOuter = true)
    (h : Cmd.Ends s strict (Rule.Ends s strict) probe.fragment p (.done q)) :
    s.Strung p.index q.index := by
  cases probe with
  | genericMethodRef =>
    obtain ⟨m, htype, hcolon⟩ := h.seq_done
    obtain ⟨hkind, hq⟩ := hcolon.of_expect
    obtain ⟨m', hrule, rfl⟩ := htype.called
    change s.kindAt m'.index = .colonColon at hkind
    have hstrung : s.Strung p.index m'.index := hrule.strung_type (by rw [hkind]; decide)
    rw [hq]
    exact hstrung.trans (.one (by rw [hkind]; decide))
  | annotatedDims => exact Grammar.strung_dim h
  | _ => cases hprobe

end

end JavaSyntax
