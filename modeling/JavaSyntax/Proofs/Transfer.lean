import JavaSyntax.Proofs.Firmness

/-!
# Transfer

What a firm command reads in a window of one stream it reads in the other stream as well.
-/

namespace JavaSyntax

section
variable {s t : TokenStream} {a b n k m room : Nat} {border : Border} {u : Test} {c : Cmd}
  {d d' : Draft} {i : Nat} {v : Outlook} {answer : Bool}

/-- A test that keeps its answer before a command has it in the other stream too, if what the
command reads lies in the window. -/
theorem Test.holds_of_kept (w : Window s t a b n) (hheld : w.Held border k)
    (hv : v.Holds s i ⟨a + k, d⟩) (hkept : u.kept border v c room answer = true)
    (hc : Cmd.Ends s false (Rule.Ends s false) c ⟨a + k, d⟩ (.done ⟨a + m, d'⟩))
    (hroom : m + room ≤ n) (h : u.holds s (a + k) d = answer) :
    u.holds t (b + k) d = answer := by
  have hcount {u : Test} {answer : Bool} (h : u.holds s (a + k) d = answer) :
      k + (Outlook.fewest (u.assume answer v) c.least + room) ≤ n := by
    obtain ⟨x, hx, hvx⟩ := any_assume hv h
    have hread : a + k + c.least x ≤ a + m := hc.count hvx
    have hfew := Outlook.fewest_le hx c.least
    omega
  cases answer with
  | true =>
    obtain ⟨e, he, hholds⟩ := exists_disjunct h
    rw [kept, if_pos rfl, List.all_eq_true] at hkept
    exact holds_of_disjunct he (holds_eq w hheld (hcount hholds) (hkept e he) hholds)
  | false =>
    rw [kept, if_neg (by simp)] at hkept
    exact holds_eq w hheld (hcount h) hkept h

end

section
variable {s t : TokenStream} {a b n k m room : Nat} {border : Border}

/-- A command runs in a window of the first stream. Room is left behind it, and it cannot run out
of the window in the second stream. -/
structure Window.Runs (w : Window s t a b n) (border : Border) (room : Nat) (c : Cmd) (k m : Nat)
    (d d' : Draft) : Prop where
  room_le : m + room ≤ n
  held : ∀ x, k ≤ x → x ≤ m → w.Held border x
  /-- At the end no annotation may be taken for a part of dimensions. -/
  calm : border = .bare → c.asks = true → s.kindAt (a + m) ≠ .atSign
  ends : Cmd.Ends s false (Rule.Ends s false) c ⟨a + k, d⟩ (.done ⟨a + m, d'⟩)

/-- Firm commands of a measure below the bound read in the second stream what they do in the
first. -/
def Cmd.CarriesBelow (N : Nat) : Prop :=
  ∀ {s t : TokenStream} {a b n : Nat} (w : Window s t a b n) {border : Border} {c : Cmd}
    {v : Outlook} {room k m i : Nat} {d d' : Draft},
    c.rank + 128 * (n - k) < N → c.paced = true → c.firm border v room = true →
    v.Holds s i ⟨a + k, d⟩ → w.Runs border room c k m d d' →
    Cmd.Ends t false (Rule.Ends t false) c ⟨b + k, d⟩ (.done ⟨b + m, d'⟩)

namespace Window.Runs
variable {w : Window s t a b n} {c c' : Cmd} {d d' : Draft}

theorem le (h : w.Runs border room c k m d d') : k ≤ m := by
  have hle : a + k ≤ a + m := h.ends.index_le
  omega

theorem le_right (h : w.Runs border room c k m d d') : m ≤ n :=
  Nat.le_trans (Nat.le_add_right m room) h.room_le

theorem stops (h : w.Runs border room c k m d d') (hb : border ≠ .bare) (hm : m = n) :
    KindSet.stops.contains (t.kindAt (b + n)) = true := by
  have hheld := h.held m h.le (Nat.le_refl m)
  cases border with
  | ended =>
    have hend : t.kindAt (b + n) = .eof := hheld n (Nat.le_refl n)
    rw [hend]
    decide
  | parted => exact KindSet.contains_of_subset (by decide) hheld.separator
  | enclosed =>
    have hnone : t.scan (b + m) (b + n) [] = none := hheld
    rw [hm, TokenStream.scan_self] at hnone
    cases hnone
  | bare => exact absurd rfl hb

end Window.Runs

section
variable {N : Nat} {w : Window s t a b n} {v : Outlook} {c x y : Cmd} {d d' : Draft} {i : Nat}
  {answer : Bool} {g : Guard}

theorem Cmd.CarriesBelow.carries (ih : CarriesBelow N) (w : Window s t a b n)
    (hN : c.rank + 128 * (n - k) < N) (hpaced : c.paced = true)
    (hfirm : c.firm .bare {} room = true) (hasks : c.asks = false) :
    c.Carries s t a b n room k := by
  intro d m d' hm h
  exact ih w hN hpaced hfirm (Outlook.holds_bottom _)
    ⟨hm, fun _ _ _ => trivial, fun _ h => absurd (hasks.symm.trans h) (by simp), h⟩

theorem Probe.firm_fragment {p : Probe} (hp : p ≠ .referenceCast) :
    p.fragment.firm .bare {} 0 = true ∧ p.fragment.asks = false := by
  cases p with
  | referenceCast => exact absurd rfl hp
  | _ => decide

theorem Cmd.CarriesBelow.fragment (ih : CarriesBelow N) (w : Window s t a b n) {p : Probe}
    (hp : p ≠ .referenceCast) (hN : 3 + 128 * (n - k) < N) :
    p.fragment.Carries s t a b n 0 k := by
  have hrank := p.paced_fragment.2
  exact ih.carries w (by omega) p.paced_fragment.1 (Probe.firm_fragment hp).1
    (Probe.firm_fragment hp).2

theorem Window.Runs.lambdaAhead {r : Cmd} (hr : [Cmd.jump .lambda, .call .lambda].contains r = true)
    (h : w.Runs border room r k m d d') : Test.lambdaAhead.holds t (b + k) d = true := by
  obtain ⟨p, q, hp, hq, hlambda⟩ : ∃ p q : Place, p.index = a + k ∧ q.index = a + m ∧
      Rule.Ends s false .lambda p (.done q) := by
    have hends := h.ends
    rw [List.contains_iff_mem, List.mem_pair] at hr
    rcases hr with rfl | rfl
    · cases hends with
      | jump hends => exact ⟨_, _, rfl, rfl, hends⟩
    · obtain ⟨q, hends, hq⟩ := hends.called
      exact ⟨_, q, rfl, (congrArg Place.index hq).symm, hends⟩
  obtain ⟨y, harrow, hym, hparams⟩ := hlambda.lambda_arrow
  have hmn := h.le_right
  rw [Test.holds_lambdaAhead]
  rw [hp] at hparams
  rw [hq] at hym
  obtain ⟨hident, rfl⟩ | ⟨j, hopen, hj, rfl⟩ := hparams
  · refine .inl ⟨?_, ?_⟩
    · rw [w.kindAt_eq (by omega)]
      exact hident
    · rw [Nat.add_assoc, w.kindAt_eq (by omega)]
      exact harrow
  · have hlt := hj.lt
    obtain ⟨j, rfl⟩ : ∃ j', j = a + j' := ⟨j - a, by omega⟩
    have ht := w.encloses (by omega) hj
    have hopen' : t.kindAt (b + k) = .lparen := by rw [w.kindAt_eq (by omega), hopen]
    right
    rw [ht.isLambdaHead hopen', Nat.add_assoc, w.kindAt_eq (by omega), ← Nat.add_assoc, harrow]
    rfl

theorem Window.Runs.scan (h : w.Runs border room c k m d d') (hc : c.balanced = true) :
    s.scan (a + k) (a + m) [] = some [] :=
  h.ends.balanced hc

theorem Window.Runs.lt (h : w.Runs border room c k m d d') (hc : 1 ≤ c.least {}) : k < m := by
  have hcount : a + k + c.least {} ≤ a + m := h.ends.count (Outlook.holds_bottom _)
  omega

theorem Guard.answers_test {u : Test} {s : TokenStream} {strict : Bool} {p : Place} {answer : Bool}
    (h : u.holds s p.index p.draft = answer) : (Guard.test u).Answers s strict p answer :=
  .known (congrArg Query.known h)

theorem Window.Runs.answers_lambda (hb : border ≠ .bare)
    (hx : [Cmd.jump .lambda, .call .lambda].contains x = true) (hy : y.balanced = true)
    (hleast : 1 ≤ y.least {}) (hr : w.Runs border room (if answer then x else y) k m d d')
    (h : (Guard.test .lambdaAhead).Answers s false ⟨a + k, d⟩ answer) :
    (Guard.test .lambdaAhead).Answers t false ⟨b + k, d⟩ answer := by
  refine Guard.answers_test ?_
  cases answer with
  | true => exact hr.lambdaAhead hx
  | false =>
    refine Bool.eq_false_iff.2 fun hahead => ?_
    have hs := w.lambdaAhead_of_right (d := d) (hr.lt hleast) hr.le_right (hr.stops hb)
      (hr.scan hy) hahead
    cases h.of_test.symm.trans hs

theorem Cmd.CarriesBelow.castHead (ih : CarriesBelow N) (w : Window s t a b n)
    (hN : 4 + 128 * (n - k) ≤ N) : Grammar.castHead.Carries s t a b n 1 k := by
  have hrank : Grammar.castHead.rank ≤ 3 := by decide
  exact ih.carries w (by omega) (by decide) (by decide) (by decide)

theorem Window.Runs.answers_cast (ih : Cmd.CarriesBelow N) (hN : 4 + 128 * (n - k) ≤ N)
    (hb : border ≠ .bare)
    (hr : w.Runs border room (if answer then Grammar.referenceCast else Grammar.postfixed) k m d d')
    (h : Grammar.referenceCastAhead.Answers s false ⟨a + k, d⟩ answer) :
    Grammar.referenceCastAhead.Answers t false ⟨b + k, d⟩ answer := by
  cases answer with
  | true =>
    obtain ⟨p₂, hcast, hclose⟩ := hr.ends.seq_done
    obtain ⟨p₁, hhead, hoperand⟩ := hcast.seq_done
    obtain ⟨j, hopen, hj, hp₁⟩ := Grammar.castHead_ends hhead
    have hlt := hj.lt
    have hoperand : p₁.index + 1 ≤ p₂.index := hoperand.count (Outlook.holds_bottom p₁)
    have hclose : p₂.index ≤ a + m := hclose.index_le
    have hmn := hr.le_right
    change a + k < j at hlt
    obtain ⟨j, rfl⟩ : ∃ j', j = a + j' := ⟨j - a, by omega⟩
    exact w.answers_castAhead (by omega) (by omega) hj (w.encloses (by omega) hj)
      (ih.castHead w hN) h
  | false =>
    -- In the second stream it would be seen behind the same parenthesis.
    refine Guard.answers_of_ne w.right.closed ?_ fun answer ht => ?_
    · have := hr.le
      have := hr.le_right
      have := w.right_le
      change b + k ≤ _
      omega
    rintro rfl
    have hkm : k < m := hr.lt (by decide)
    obtain ⟨⟨htype, hlambda⟩, q, hhead, hoperand⟩ := Grammar.answers_castAhead.1 ht
    obtain ⟨j', hopen, hj', hq⟩ := Grammar.castHead_ends hhead
    have hmn := hr.le_right
    have hopen' : s.kindAt (a + k) = .lparen := by
      rw [← w.kindAt_eq (by omega)]
      exact hopen
    obtain ⟨j, hkj, hjm, hs, hjt⟩ := w.exists_close hkm hmn (hr.scan (by decide)) hopen'
    obtain rfl := hjt.unique hj'
    have hj : j + 1 < n := by
      refine Nat.lt_of_le_of_ne (by omega) fun hjn => ?_
      rw [hq, Nat.add_assoc, hjn] at hoperand
      cases (KindSet.not_contains_of_disjoint (by decide) (hr.stops hb (by omega))).symm.trans
        hoperand
    have hyes : Grammar.referenceCastAhead.Answers s false ⟨a + k, d⟩ true :=
      w.symm.answers_castAhead hkj hj hjt hs (ih.castHead w.symm hN) ht
    cases h.unique hyes

theorem Window.Runs.exists_nameEnd (hb : border ≠ .bare) (hr : w.Runs border room c k m d d')
    (hle : s.nameEnd (a + k) ≤ a + m) :
    ∃ e, s.nameEnd (a + k) = a + e ∧ t.nameEnd (b + k) = b + e ∧ e ≤ m := by
  obtain ⟨e, he⟩ : ∃ e, s.nameEnd (a + k) = a + e := by
    have hstart := (s.segments_nameEnd (a + k)).le
    exact ⟨s.nameEnd (a + k) - a, by omega⟩
  have hmn := hr.le_right
  exact ⟨e, he, w.nameEnd_eq he (by omega) fun hen => hr.stops hb (by omega), by omega⟩

theorem Window.Runs.answers_behindName {first second : TokenKind} {r : Rule} {x y : Cmd}
    (hb : border ≠ .bare) (hfirst : (KindSet.dangling.diff .stops).contains first = true)
    (hrule : r = .type ∨ r = .classType false ∨ r = .name) (hx : 2 ≤ x.least {})
    (hy : s.nameEnd (a + k) ≤ a + m)
    (hident : s.kindAt (a + k) = .ident)
    (hr : w.Runs border room (if answer then .call r ++ x else y) k m d d')
    (h : (Guard.test (Grammar.behindName first second)).Answers s false ⟨a + k, d⟩ answer) :
    (Guard.test (Grammar.behindName first second)).Answers t false ⟨b + k, d⟩ answer := by
  refine Guard.answers_test ?_
  obtain ⟨e, hs, ht, hem⟩ := hr.exists_nameEnd hb hy
  have hmn := hr.le_right
  cases answer with
  | true =>
    have hle := hr.ends.nameEnd_le_call hrule hident
    change s.nameEnd (a + k) + _ ≤ a + m at hle
    rw [w.behindName_eq hs ht (by omega)]
    exact h.of_test
  | false =>
    refine Bool.eq_false_iff.2 fun hbehind => ?_
    have hs := w.behindName_of_right (d := d) hs (by omega) (fun hen => hr.stops hb (by omega))
      hfirst hbehind
    cases h.of_test.symm.trans hs

theorem Probe.reads_fragment (p : Probe) : (p.fragment.reads {} {}).isSome = true := by
  cases p <;> decide

/-- What a probe tries in the second stream does not run out of the window. -/
theorem Window.Runs.fragment_le {p : Probe} {q : Place} (hr : w.Runs border room c k m d d')
    (hb : border ≠ .bare) (hp : border = .parted → p.isOuter = true)
    (hq : Cmd.Ends t false (Rule.Ends t false) p.fragment (t.fresh (b + k)) (.done q)) :
    q.index ≤ b + n := by
  have hheld := hr.held k (Nat.le_refl k) hr.le
  have hkn := Nat.le_trans hr.le hr.le_right
  by_cases hparted : border = .parted
  · subst hparted
    exact hheld.stays k hkn p (hp rfl) q hq
  · obtain ⟨rs, hrs⟩ := Option.isSome_iff_exists.1 p.reads_fragment
    obtain ⟨r, -, hscan⟩ := hq.reading (Outlook.holds_bottom _) (Reading.holds_start t _) hrs
    exact hheld.le hb hparted hkn (hq.covers fun _ _ _ h => h.covers) hscan.scan

theorem Window.Runs.answers_typeHead (ih : Cmd.CarriesBelow N) (hN : 4 + 128 * (n - k) ≤ N)
    (hb : border ≠ .bare) (hident : s.kindAt (a + k) = .ident)
    (hr : w.Runs border room (if answer then .call .type ++ Grammar.methodReference
      else Grammar.nameOrType) k m d d')
    (h : (Guard.typeHead .genericMethodRef).Answers s false ⟨a + k, d⟩ answer) :
    (Guard.typeHead .genericMethodRef).Answers t false ⟨b + k, d⟩ answer := by
  have hmn := hr.le_right
  cases answer with
  | true =>
    have hle := hr.ends.nameEnd_le_call (.inl rfl) hident
    change s.nameEnd (a + k) + 2 ≤ a + m at hle
    obtain ⟨e, hs, ht, -⟩ := hr.exists_nameEnd hb (by omega)
    refine w.answers_typeHead hident hs ht (ih.fragment w (by simp) (by omega)) ?_ h
    intro q hq
    obtain ⟨p₁, htype, hreference⟩ := hr.ends.seq_done
    obtain ⟨p₂, htype', hcolon⟩ := hq.seq_done
    have hreference : p₁.index + 2 ≤ a + m := hreference.count (Outlook.holds_bottom p₁)
    obtain ⟨_, htype⟩ := htype.redraft rfl (s.fresh (a + k)).draft
    cases htype'.eq htype
    rw [hcolon.of_expect.2]
    change p₁.index + 1 ≤ a + n
    omega
  | false =>
    have hle := Grammar.nameEnd_le_nameOrType hr.ends hident
    obtain ⟨e, hs, ht, -⟩ := hr.exists_nameEnd hb hle
    have hkm : k < m := by
      have hstart := (s.segments_nameEnd (a + k)).le
      change s.nameEnd (a + k) ≤ a + m at hle
      omega
    have hident' : t.kindAt (b + k) = .ident := by rw [w.kindAt_eq (by omega), hident]
    refine Guard.answers_of_ne w.right.closed ?_ fun answer hanswer => ?_
    · have := w.right_le
      change b + k ≤ _
      omega
    rintro rfl
    have hyes : (Guard.typeHead .genericMethodRef).Answers s false ⟨a + k, d⟩ true :=
      w.symm.answers_typeHead hident' ht hs (ih.fragment w.symm (by simp) (by omega))
        (fun _ hq => hr.fragment_le hb (fun _ => rfl) hq) hanswer
    cases h.unique hyes

theorem Window.Runs.answers_far (ih : Cmd.CarriesBelow N) (hN : g.rank + 128 * (n - k) ≤ N)
    (hb : border ≠ .bare) (hfar : g.far v x y = true) (hv : v.Holds s i ⟨a + k, d⟩)
    (hr : w.Runs border room (if answer then x else y) k m d d')
    (h : g.Answers s false ⟨a + k, d⟩ answer) : g.Answers t false ⟨b + k, d⟩ answer := by
  simp only [Guard.far, Bool.or_eq_true, Bool.and_eq_true, beq_iff_eq, decide_eq_true_eq,
    List.contains_iff_mem, List.mem_cons, List.not_mem_nil, or_false, Prod.mk.injEq] at hfar
  rcases hfar with (⟨⟨⟨rfl, hx⟩, hy⟩, hleast⟩ | ⟨⟨rfl, rfl⟩, rfl⟩) | ⟨hkinds, hname⟩
  · exact hr.answers_lambda hb (by simpa using hx) hy hleast h
  · exact hr.answers_cast ih hN hb h
  · have hident : s.kindAt (a + k) = .ident := by
      simpa using KindSet.contains_of_subset hkinds (hv.contains_kinds 0)
    have hend {r : Rule} {x y : Cmd} (hrule : r = .type ∨ r = .classType false ∨ r = .name)
        (hr : w.Runs border room (if answer then .call r ++ x else y) k m d d')
        (hy : answer = false → s.nameEnd (a + k) ≤ a + m) : s.nameEnd (a + k) ≤ a + m := by
      cases answer with
      | true => exact Nat.le_trans (Nat.le_add_right _ _) (hr.ends.nameEnd_le_call hrule hident)
      | false => exact hy rfl
    rcases hname with ⟨rfl, rfl, rfl⟩ | ⟨rfl, rfl, rfl⟩ | ⟨rfl, rfl, rfl⟩
    · exact hr.answers_typeHead ih hN hb hident h
    · refine hr.answers_behindName hb (by decide) (.inl rfl) (by decide) ?_ hident h
      refine hend (.inl rfl) hr fun hanswer => ?_
      subst hanswer
      exact Grammar.nameEnd_le_nameOrClass hr.ends hident
    · refine hr.answers_behindName hb (by decide) (.inr (.inl rfl)) (by decide) ?_ hident h
      refine hend (.inr (.inl rfl)) hr fun hanswer => ?_
      subst hanswer
      exact Nat.le_trans (Nat.le_add_right _ _) (hr.ends.nameEnd_le_call (.inr (.inr rfl)) hident)

theorem Probe.least_fragment (p : Probe) : 1 ≤ p.fragment.least {} := by
  cases p <;> decide

/-- A probe that says yes in the first stream does so in the second, if it stays in the window. -/
theorem Cmd.CarriesBelow.asked (ih : CarriesBelow N) (w : Window s t a b n)
    (hN : 4 + 128 * (n - k) ≤ N) {p : Probe} (hp : p ≠ .referenceCast) {q : Place}
    (hq : Cmd.Ends s false (Rule.Ends s false) p.fragment (s.fresh (a + k)) (.done q))
    (hqn : q.index ≤ a + n) :
    ∃ q', Cmd.Ends t false (Rule.Ends t false) p.fragment (t.fresh (b + k)) (.done q') := by
  have hone := p.least_fragment
  have hread : a + k + p.fragment.least {} ≤ q.index := hq.count (Outlook.holds_bottom _)
  obtain ⟨e, he⟩ : ∃ e, q.index = a + e := ⟨q.index - a, by omega⟩
  refine ⟨⟨b + e, q.draft⟩, ?_⟩
  rw [w.fresh_eq (by omega)]
  refine ih.fragment w hp (by omega) _ e _ (by omega) ?_
  rw [← he]
  exact hq

theorem Window.Runs.answers_trial (ih : Cmd.CarriesBelow N) (hN : 4 + 128 * (n - k) ≤ N)
    {sure possible : Test} {p : Probe}
    (hfirm : (Guard.trial sure possible p).firm border v x y room = true)
    (hfar : (border != .bare && (Guard.trial sure possible p).far v x y) = false)
    (hv : v.Holds s i ⟨a + k, d⟩) (hr : w.Runs border room (if answer then x else y) k m d d')
    (hcalm : border = .bare → answer = false → s.kindAt (a + m) ≠ .atSign)
    (h : (Guard.trial sure possible p).Answers s false ⟨a + k, d⟩ answer) :
    (Guard.trial sure possible p).Answers t false ⟨b + k, d⟩ answer := by
  rw [Guard.firm, hfar, Bool.false_or] at hfirm
  simp only [Bool.and_eq_true, Bool.or_eq_true, bne_iff_ne, beq_iff_eq] at hfirm
  obtain ⟨⟨⟨⟨⟨⟨⟨hsure, hsure'⟩, hpossible⟩, hpossible'⟩, hp⟩, hleads⟩, hborder⟩, houter⟩ := hfirm
  have hheld := hr.held k (Nat.le_refl k) hr.le
  -- What the two tests have to do with the query in either stream.
  have hquery (s : TokenStream) (i : Nat) : (Guard.trial sure possible p).query s ⟨i, d⟩ =
      if sure.holds s i d then .known true
      else if possible.holds s i d then .ask p else .known false := rfl
  cases answer with
  | true =>
    have hyes {u : Test} (hu : u.kept border v x room true = true)
        (h : u.holds s (a + k) d = true) : u.holds t (b + k) d = true :=
      u.holds_of_kept w hheld hv hu hr.ends hr.room_le h
    cases hst : sure.holds t (b + k) d with
    | true => exact .known (by rw [hquery, if_pos hst])
    | false =>
      have hss : sure.holds s (a + k) d ≠ true := by
        intro hss
        cases hst.symm.trans (hyes hsure hss)
      have hps : possible.holds s (a + k) d = true := by
        by_contra hps
        cases h with
        | known hq =>
          rw [hquery, if_neg hss, if_neg hps] at hq
          cases hq
        | asked hq =>
          rw [hquery, if_neg hss, if_neg hps] at hq
          cases hq
      obtain ⟨f, hf⟩ := h.of_asked (by rw [hquery, if_neg hss, if_pos hps])
      have hle : f.index ≤ a + m := Probe.le_of_leads hleads hf hr.ends
      have hmn := hr.le_right
      obtain ⟨f', hf'⟩ := ih.asked w hN hp hf (by omega)
      refine .of_done ?_ hf'
      rw [hquery, if_neg (by simp [hst]), if_pos (hyes hpossible hps)]
  | false =>
    have hno {u : Test} (hu : u.kept border v y room false = true)
        (h : u.holds s (a + k) d = false) : u.holds t (b + k) d = false :=
      u.holds_of_kept w hheld hv hu hr.ends hr.room_le h
    have hss : sure.holds s (a + k) d = false := by
      refine Bool.eq_false_iff.2 fun hss => ?_
      cases h.unique (.known (by rw [hquery, if_pos hss]))
    have hst := hno hsure' hss
    cases hpt : possible.holds t (b + k) d with
    | false => exact .known (by rw [hquery, if_neg (by simp [hst]), if_neg (by simp [hpt])])
    | true =>
      have hps : possible.holds s (a + k) d = true := by
        by_contra hps
        cases hpt.symm.trans (hno hpossible' (by simpa using hps))
      by_cases hb : border = .bare
      · obtain hb' | ⟨rfl, rfl⟩ := hborder
        · exact absurd hb hb'
        · have hstill : a + m = a + k := hr.ends.still rfl (Outlook.holds_bottom _)
          rw [Test.here, Test.holds, KindSet.contains_single, decide_eq_true_eq, Nat.add_zero,
            ← hstill] at hps
          exact absurd hps (hcalm hb rfl)
      · -- A probe that ends in the second stream ends in the first one as well.
        refine Guard.answers_of_ne w.right.closed ?_ fun answer hanswer => ?_
        · have := hr.le
          have := hr.le_right
          have := w.right_le
          change b + k ≤ _
          omega
        rintro rfl
        obtain ⟨f, hf⟩ := hanswer.of_asked
          (by rw [hquery, if_neg (by simp [hst]), if_pos hpt])
        obtain ⟨f', hf'⟩ := ih.asked w.symm hN hp hf
          (hr.fragment_le hb (fun h => houter.resolve_left fun hne => hne h) hf)
        cases h.unique (.of_done (by rw [hquery, if_neg (by simp [hss]), if_pos hps]) hf')

/-- A firm guard has one answer in both streams. -/
theorem Window.Runs.answers (ih : Cmd.CarriesBelow N) (hN : g.rank + 128 * (n - k) ≤ N)
    (hfirm : g.firm border v x y room = true) (hv : v.Holds s i ⟨a + k, d⟩)
    (hr : w.Runs border room (if answer then x else y) k m d d')
    (hcalm : border = .bare → g.probe?.isSome = true → answer = false →
      s.kindAt (a + m) ≠ .atSign)
    (h : g.Answers s false ⟨a + k, d⟩ answer) : g.Answers t false ⟨b + k, d⟩ answer := by
  cases hfar : (border != .bare && g.far v x y) with
  | true =>
    rw [Bool.and_eq_true, bne_iff_ne] at hfar
    exact hr.answers_far ih hN hfar.1 hfar.2 hv h
  | false =>
    cases g with
    | test u =>
      rw [Guard.firm, hfar, Bool.false_or, Bool.and_eq_true] at hfirm
      have hheld := hr.held k (Nat.le_refl k) hr.le
      refine Guard.answers_test ?_
      cases answer with
      | true => exact u.holds_of_kept w hheld hv hfirm.1 hr.ends hr.room_le h.of_test
      | false => exact u.holds_of_kept w hheld hv hfirm.2 hr.ends hr.room_le h.of_test
    | trial sure possible p =>
      exact hr.answers_trial ih hN hfirm hfar hv (fun hb => hcalm hb rfl) h
    | typeHead p =>
      rw [Guard.firm, hfar] at hfirm
      cases hfirm

end
end

section
variable {s t : TokenStream} {strict : Bool} {calls : Rule → Place → Ending → Prop}
  {a b n k m room : Nat} {border : Border} {w : Window s t a b n} {x y : Cmd} {p q : Place}
  {d d' : Draft} {g : Guard} {answer : Bool} {kind : TokenKind}

theorem Guard.Answers.allows (h : g.Answers s strict p answer) : g.Allows s p answer := by
  cases h with
  | known h => simp [Guard.Allows, h]
  | asked h => simp [Guard.Allows, h]

namespace Cmd.Ends

theorem of_skip (h : Cmd.Ends s strict calls .skip p (.done q)) : q = p := by
  cases h
  rfl

theorem of_shift (h : Cmd.Ends s strict calls .shift p (.done q)) :
    (s.tokenAt p.index).kind ≠ .eof ∧ q = ⟨p.index + 1,
      p.draft.push (.leaf (s.tokenAt p.index).kind (s.tokenAt p.index).span)⟩ := by
  cases h with
  | shift h => exact ⟨h, rfl⟩

theorem of_close {kind : NodeKind} (h : Cmd.Ends s strict calls (.close kind) p (.done q)) :
    q = ⟨p.index, p.draft.close kind⟩ := by
  cases h
  rfl

theorem of_wrap {kind : NodeKind} (h : Cmd.Ends s strict calls (.wrap kind) p (.done q)) :
    q = ⟨p.index, p.draft.wrap kind⟩ := by
  cases h
  rfl

theorem of_nest {body : Cmd} (h : Cmd.Ends s strict calls (.nest body) p (.done q)) :
    ∃ m, Cmd.Ends s strict calls body (s.fresh p.index) (.done m) ∧
      q = ⟨m.index, p.draft.adopt m.draft⟩ := by
  cases h with
  | nest h => exact ⟨_, h, rfl⟩

theorem of_dispatch {table : Table} (h : Cmd.Ends s strict calls (.dispatch table) p (.done q)) :
    ∃ r, table.decide s strict p.index = .ok r ∧ calls r p (.done q) := by
  cases h with
  | dispatch ht h => exact ⟨_, ht, h⟩

end Cmd.Ends

theorem Place.exists_eq {p : Place} (h : a + k ≤ p.index) :
    ∃ m, k ≤ m ∧ p = ⟨a + m, p.draft⟩ := by
  refine ⟨p.index - a, by omega, ?_⟩
  have hp : p.index = a + (p.index - a) := by omega
  rw [← hp]

theorem Window.Runs.split (hr : w.Runs border room (.seq x y) k m d d')
    (hcalm : (border != .bare || !x.asks || y.still { ahead := [.single .atSign] }) = true) :
    ∃ l d₁, w.Runs border (y.least {} + room) x k l d d₁ ∧ w.Runs border room y l m d₁ d' := by
  obtain ⟨p, hx, hy⟩ := hr.ends.seq_done
  obtain ⟨l, hkl, hp⟩ := Place.exists_eq (show a + k ≤ p.index from hx.index_le)
  rw [hp] at hx hy
  have hread : a + l + y.least {} ≤ a + m := hy.count (Outlook.holds_bottom _)
  have hroom := hr.room_le
  refine ⟨l, p.draft, ⟨by omega, fun z hkz hz => hr.held z hkz (by omega), ?_, hx⟩, hroom,
    fun z hlz hz => hr.held z (by omega) hz,
    fun hb hasks => hr.calm hb (by simp [Cmd.asks, hasks]), hy⟩
  -- At an annotation the second part would read nothing, and so the annotation is at the end.
  intro hb hasks hat
  have hstill : y.still { ahead := [.single .atSign] } = true := by
    simpa [hb, hasks] using hcalm
  have hml : a + m = a + l := hy.still hstill (Outlook.holds_ahead_one (by simp [hat]))
  refine hr.calm hb ?_ (hml ▸ hat)
  have hmoves : y.moves = false := by
    refine Bool.eq_false_iff.2 fun hmoves => ?_
    have hlt : a + l < a + m := hy.lt_of_moves hmoves
    omega
  simp [Cmd.asks, hasks, hmoves]

theorem Window.shift (w : Window s t a b n) (hk : k < n)
    (h : Cmd.Ends s strict (Rule.Ends s strict) .shift ⟨a + k, d⟩ (.done ⟨a + m, d'⟩)) :
    Cmd.Ends t strict (Rule.Ends t strict) .shift ⟨b + k, d⟩ (.done ⟨b + m, d'⟩) := by
  obtain ⟨hkind, hq⟩ := h.of_shift
  obtain ⟨hm, rfl⟩ := Place.mk.inj hq
  obtain rfl : m = k + 1 := Nat.add_left_cancel hm
  have hkind' : (t.tokenAt (b + k)).kind = (s.tokenAt (a + k)).kind :=
    congrArg Prod.fst (w.entry_eq k hk)
  have hshift : Cmd.Ends t strict (Rule.Ends t strict) .shift ⟨b + k, d⟩ (.done ⟨b + k + 1,
      d.push (.leaf (t.tokenAt (b + k)).kind (t.tokenAt (b + k)).span)⟩) :=
    .shift (hkind' ▸ hkind)
  rw [hkind', w.span_eq hk] at hshift
  exact hshift

theorem Window.answers_here (w : Window s t a b n) (hk : k < n)
    (h : (Guard.test (.here kind)).Answers s strict ⟨a + k, d⟩ answer) :
    (Guard.test (.here kind)).Answers t strict ⟨b + k, d⟩ answer := by
  refine Guard.answers_test ?_
  rw [← h.of_test]
  simp only [Test.here, Test.holds, Nat.add_zero, w.kindAt_eq hk]

theorem Window.expect (w : Window s t a b n) (hk : k < n)
    (h : Cmd.Ends s strict (Rule.Ends s strict) (.expect kind) ⟨a + k, d⟩ (.done ⟨a + m, d'⟩)) :
    Cmd.Ends t strict (Rule.Ends t strict) (.expect kind) ⟨b + k, d⟩ (.done ⟨b + m, d'⟩) := by
  obtain ⟨answer, hanswer, hshift⟩ := h.ite_answers
  refine (w.answers_here hk hanswer).ite ?_
  cases answer with
  | true => exact w.shift hk hshift
  | false => cases hshift

/-- Before a delimiter that is closed the border is seen from each token in it. -/
theorem Window.held_of_closer (w : Window s t a b n) (hkm : k ≤ m) (hm : m < n)
    (hscan : s.scan (a + k) (a + m) [] = some []) (hclose : (s.kindAt (a + m)).isCloser = true)
    {l : Nat} (hkl : k ≤ l) (hlm : l ≤ m) : w.Held .enclosed l := by
  have hle := Nat.add_le_add_left hkm b
  have hscan' : t.scan (b + k) (b + m) [] = some [] := by
    rw [w.scan_eq (Nat.le_of_lt hm), hscan]
  have hk : w.Held .enclosed k := by
    change t.scan (b + k) (b + n) [] = none
    rw [TokenStream.scan_trans hle (Nat.add_le_add_left (Nat.le_of_lt hm) b), hscan',
      Option.bind_some, TokenStream.scan_trans (Nat.le_succ (b + m)) (by omega),
      TokenStream.scan_succ, w.kindAt_eq hm, Delimiters.step_nil hclose]
    rfl
  rw [TokenStream.scan_trans (Nat.add_le_add_left hkl b) (Nat.add_le_add_left hlm b)] at hscan'
  obtain ⟨waiting, hwaiting, -⟩ := Option.bind_eq_some_iff.1 hscan'
  exact hk.mono hkl (by omega) hwaiting

theorem Window.Runs.of_closer {c : Cmd} (w : Window s t a b n) (hbalanced : c.balanced = true)
    (hroom : m + room ≤ n) (hm : m < n) (hclose : (s.kindAt (a + m)).isCloser = true)
    (h : Cmd.Ends s false (Rule.Ends s false) c ⟨a + k, d⟩ (.done ⟨a + m, d'⟩)) :
    w.Runs .enclosed room c k m d d' := by
  have hle : a + k ≤ a + m := h.index_le
  have hscan := h.balanced hbalanced
  exact ⟨hroom, fun x hkx hxm => w.held_of_closer (by omega) hm hscan hclose hkx hxm,
    fun h => absurd h (by simp), h⟩

end

section
variable {s t : TokenStream} {a b n k m room N : Nat} {border : Border} {w : Window s t a b n}
  {v : Outlook} {d d' : Draft} {i : Nat}

open Cmd in
/-- What stands in delimiters needs nothing else to hold the border. -/
theorem Cmd.CarriesBelow.delimited {c opens : Cmd} {kind : TokenKind} (ih : CarriesBelow N)
    (more : Nat) (w : Window s t a b n) (hopens : opens = shift ∨ ∃ k, opens = expect k)
    (hkind : kind.isCloser = true) (hN : c.rank + 128 * (n - (k + 1)) < N)
    (hpaced : c.paced = true) (hfirm : c.firm .enclosed {} (more + 1) = true)
    (hbalanced : c.balanced = true) (hmn : m + more ≤ n)
    (h : Cmd.Ends s false (Rule.Ends s false) (opens ++ c ++ expect kind) ⟨a + k, d⟩
      (.done ⟨a + m, d'⟩)) :
    Cmd.Ends t false (Rule.Ends t false) (opens ++ c ++ expect kind) ⟨b + k, d⟩
      (.done ⟨b + m, d'⟩) := by
  obtain ⟨p₂, h, hright⟩ := h.seq_done
  obtain ⟨p₁, hleft, hinner⟩ := h.seq_done
  obtain ⟨hclose, hm⟩ := hright.of_expect
  have hm : a + m = p₂.index + 1 := congrArg Place.index hm
  have hp₁ : p₁.index = a + k + 1 := by
    rcases hopens with rfl | ⟨kind', rfl⟩
    · exact congrArg Place.index hleft.of_shift.2
    · exact congrArg Place.index hleft.of_expect.2
  have hp₁ : p₁ = ⟨a + (k + 1), p₁.draft⟩ := by rw [← Nat.add_assoc, ← hp₁]
  rw [hp₁] at hleft hinner
  obtain ⟨l, hkl, hp₂⟩ := Place.exists_eq (show a + (k + 1) ≤ p₂.index from hinner.index_le)
  rw [hp₂] at hinner hright hclose hm
  obtain rfl : m = l + 1 := by
    change a + m = a + l + 1 at hm
    omega
  have hcloser : (s.kindAt (a + l)).isCloser = true := by
    rw [show s.kindAt (a + l) = kind from hclose]
    exact hkind
  have hruns : w.Runs .enclosed (more + 1) c (k + 1) l p₁.draft p₂.draft :=
    .of_closer w hbalanced (by omega) (by omega) hcloser hinner
  have hopened : Cmd.Ends t false (Rule.Ends t false) opens ⟨b + k, d⟩
      (.done ⟨b + (k + 1), p₁.draft⟩) := by
    rcases hopens with rfl | ⟨kind', rfl⟩
    · exact w.shift (by omega) hleft
    · exact w.expect (by omega) hleft
  exact .seq (.seq hopened (ih w hN hpaced hfirm (Outlook.holds_bottom _) hruns))
    (w.expect (by omega) hright)

open Grammar Cmd Test in
/-- What an annotation may have in its parentheses. -/
def Grammar.annotationContents : Cmd :=
  ite (both (here .ident) (next .assign)) (separated .comma elementValuePair)
    (opt (neg (here .rparen)) (call .elementValue))

open Cmd in
theorem Cmd.CarriesBelow.annotationUse (ih : CarriesBelow N) (w : Window s t a b n)
    (hN : Rule.annotationUse.rank + 128 * (n - k) < N) (hmn : m < n)
    (h : Cmd.Ends s false (Rule.Ends s false) Grammar.annotationUse ⟨a + k, d⟩
      (.done ⟨a + m, d'⟩)) :
    Cmd.Ends t false (Rule.Ends t false) Grammar.annotationUse ⟨b + k, d⟩
      (.done ⟨b + m, d'⟩) := by
  obtain ⟨p₂, h, hclose⟩ := h.seq_done
  obtain ⟨p₁, hhead, hcontents⟩ := h.seq_done
  obtain ⟨hm, rfl⟩ := Place.mk.inj hclose.of_close
  have hread : a + k + 2 ≤ p₁.index := hhead.count (Outlook.holds_bottom _)
  have hle : p₁.index ≤ p₂.index := hcontents.index_le
  obtain ⟨l, -, hp₁⟩ := Place.exists_eq (show a + k ≤ p₁.index by omega)
  have hp₂ : p₂ = ⟨a + m, p₂.draft⟩ := by rw [hm]
  rw [hp₁] at hhead hcontents
  rw [hp₂] at hcontents
  have hl : p₁.index = a + l := congrArg Place.index hp₁
  have hrank : (expect .atSign ++ call .name).rank ≤ Rule.annotationUse.rank := by decide
  have hhead := ih.carries (c := expect .atSign ++ call .name) w
    (Nat.lt_of_le_of_lt (Nat.add_le_add_right hrank _) hN) (by decide) (by decide)
    (by decide) d l p₁.draft (show l + 1 ≤ n by omega) hhead
  refine .seq (q := ⟨b + m, p₂.draft⟩) (.seq (q := ⟨b + l, p₁.draft⟩) hhead ?_) .close
  obtain ⟨answer, hopen, hbranch⟩ := hcontents.ite_answers
  refine (w.answers_here (by omega) hopen).ite ?_
  cases answer with
  | false =>
    obtain ⟨hm, hd⟩ := Place.mk.inj hbranch.of_skip
    obtain rfl : m = l := Nat.add_left_cancel hm
    rw [hd]
    exact .skip
  | true =>
    have hrank : Grammar.annotationContents.rank ≤ 128 := by decide
    exact ih.delimited (c := Grammar.annotationContents) 1 w (.inl rfl) rfl (by omega) (by decide)
      (by decide) (by decide) hmn hbranch

theorem Cmd.CarriesBelow.closed {c opens : Cmd} {kind : TokenKind} {node : NodeKind}
    (ih : CarriesBelow N) (w : Window s t a b n) (hopens : opens = .shift ∨ ∃ k, opens = .expect k)
    (hkind : kind.isCloser = true) (hN : c.rank + 128 * (n - (k + 1)) < N)
    (hpaced : c.paced = true) (hfirm : c.firm .enclosed {} 1 = true)
    (hbalanced : c.balanced = true) (hmn : m ≤ n)
    (h : Cmd.Ends s false (Rule.Ends s false) (opens ++ c ++ .expect kind ++ .close node)
      ⟨a + k, d⟩ (.done ⟨a + m, d'⟩)) :
    Cmd.Ends t false (Rule.Ends t false) (opens ++ c ++ .expect kind ++ .close node) ⟨b + k, d⟩
      (.done ⟨b + m, d'⟩) := by
  obtain ⟨p, hread, hclose⟩ := h.seq_done
  obtain ⟨hm, rfl⟩ := Place.mk.inj hclose.of_close
  rw [show p = ⟨a + m, p.draft⟩ by rw [hm]] at hread
  exact .seq (q := ⟨b + m, p.draft⟩)
    (ih.delimited 0 w hopens hkind hN hpaced hfirm hbalanced hmn hread) .close

open Grammar Cmd Test in
/-- What the parameters of a lambda may have in their parentheses. -/
def Grammar.parameterContents : Cmd :=
  ite (both (here .ident) (ahead 1 (.ofList [.comma, .rparen])))
    (separated .comma (expect .ident)) (opt (neg (here .rparen)) formalParameterList)

theorem Cmd.CarriesBelow.lambdaParameters (ih : CarriesBelow N) (w : Window s t a b n)
    (hN : Rule.lambdaParameters.rank + 128 * (n - k) < N) (hmn : m ≤ n)
    (h : Cmd.Ends s false (Rule.Ends s false) Grammar.lambdaParameters ⟨a + k, d⟩
      (.done ⟨a + m, d'⟩)) :
    Cmd.Ends t false (Rule.Ends t false) Grammar.lambdaParameters ⟨b + k, d⟩
      (.done ⟨b + m, d'⟩) := by
  have hlt : a + k + 1 ≤ a + m := h.count (Outlook.holds_bottom _)
  obtain ⟨p, hread, hclose⟩ := h.seq_done
  obtain ⟨hm, rfl⟩ := Place.mk.inj hclose.of_close
  rw [show p = ⟨a + m, p.draft⟩ by rw [hm]] at hread
  refine .seq (q := ⟨b + m, p.draft⟩) ?_ .close
  obtain ⟨answer, hident, hbranch⟩ := hread.ite_answers
  refine (w.answers_here (by omega) hident).ite ?_
  cases answer with
  | true => exact w.shift (by omega) hbranch
  | false =>
    have hrank : Grammar.parameterContents.rank ≤ 128 := by decide
    exact ih.delimited (c := Grammar.parameterContents) 0 w (.inr ⟨_, rfl⟩) rfl
      (by omega) (by decide) (by decide) (by decide) hmn hbranch

theorem Cmd.CarriesBelow.enclosed (ih : CarriesBelow N) (w : Window s t a b n) {r : Rule}
    (hN : r.rank + 128 * (n - k) < N) (hr : border.encloses r = true)
    (hmn : m + border.room r ≤ n)
    (h : Cmd.Ends s false (Rule.Ends s false) r.body ⟨a + k, d⟩ (.done ⟨a + m, d'⟩)) :
    Cmd.Ends t false (Rule.Ends t false) r.body ⟨b + k, d⟩ (.done ⟨b + m, d'⟩) := by
  have hlt {c : Cmd} (hc : 1 ≤ c.least {})
      (h : Cmd.Ends s false (Rule.Ends s false) c ⟨a + k, d⟩ (.done ⟨a + m, d'⟩)) : k < m := by
    have hcount : a + k + c.least {} ≤ a + m := h.count (Outlook.holds_bottom _)
    omega
  have hle : m ≤ n := Nat.le_trans (Nat.le_add_right _ _) hmn
  cases border with
  | bare =>
    cases r with
    | annotationUse => exact ih.annotationUse w (by omega) hmn h
    | _ => cases hr
  | parted =>
    cases r with
    | lambdaParameters => exact ih.lambdaParameters w (by omega) hle h
    | block =>
      have hkm := hlt (by decide) h
      have hrank : Grammar.blockStatements.rank ≤ 128 := by decide
      exact ih.closed (c := Grammar.blockStatements) w (.inr ⟨_, rfl⟩) rfl (by omega) (by decide)
        (by decide) (by decide) hle h
    | typeBody kind =>
      have hkm := hlt (by cases kind <;> decide) h
      have hrank : (Grammar.members kind).rank ≤ 128 := by cases kind <;> decide
      exact ih.closed (c := Grammar.members kind) w (.inr ⟨_, rfl⟩) rfl (by omega)
        (by cases kind <;> decide) (by cases kind <;> decide) (by cases kind <;> decide) hle h
    | _ => cases hr
  | ended => cases r <;> cases hr
  | enclosed => cases r <;> cases hr

/-- A rule is entered in the second stream where it is in the first. -/
theorem Cmd.CarriesBelow.rule (ih : CarriesBelow N) (w : Window s t a b n) {r : Rule}
    (hN : r.rank + 128 * (n - k) < N) (hadmits : border.admits r = true)
    (hroom : border.room r ≤ room) (henters : r.Enters s (a + k))
    (hr : w.Runs border room (.jump r) k m d d') :
    Rule.Ends t false r ⟨b + k, d⟩ (.done ⟨b + m, d'⟩) := by
  have hrank := r.rank_body_le
  have hfirm := r.firmWhereAdmitted_all border
  have hle := hr.room_le
  have hends := hr.ends
  cases hends with
  | jump hends =>
    cases hends with
    | body hends =>
      simp only [Rule.firmWhereAdmitted, hadmits, Bool.not_true, Bool.false_or, Bool.and_eq_true,
        Bool.or_eq_true, Bool.not_eq_true', bne_iff_ne] at hfirm
      obtain ⟨hencloses | hfirm, hasks⟩ := hfirm
      · exact .body (ih.enclosed w (by omega) hencloses (by omega) hends)
      · refine .body (ih w (by omega) r.paced_body hfirm (Outlook.holds_ahead henters)
          ⟨by omega, hr.held, ?_, hends⟩)
        intro hb hbody
        refine hr.calm hb ?_
        rcases hasks with (hno | hyes) | hne
        · cases hno.symm.trans hbody
        · exact hyes
        · exact absurd hb hne

theorem Cmd.CarriesBelow.dispatch (ih : CarriesBelow N) {table : Table}
    (hN : (Cmd.dispatch table).rank + 128 * (n - k) ≤ N)
    (hfirm : (Cmd.dispatch table).firm border v room = true)
    (hr : w.Runs border room (.dispatch table) k m d d') :
    Cmd.Ends t false (Rule.Ends t false) (.dispatch table) ⟨b + k, d⟩ (.done ⟨b + m, d'⟩) := by
  rw [Cmd.firm, Bool.and_eq_true, Bool.and_eq_true, bne_iff_ne, List.all_eq_true] at hfirm
  obtain ⟨⟨hb, htable⟩, hrules⟩ := hfirm
  rw [Table.firm, Bool.and_eq_true, List.all_eq_true] at htable
  obtain ⟨hadmits, hrows⟩ := htable
  obtain ⟨r, hdecide, hrule⟩ := hr.ends.of_dispatch
  have hmem := Table.mem_rules_of_decide hdecide
  have hread : a + k + r.least {} ≤ a + m := hrule.least_le (Outlook.holds_bottom _)
  have hroom := hr.room_le
  have hrank := Rule.le_foldr_rank hmem
  have hr' := hrules r hmem
  rw [Bool.and_eq_true, decide_eq_true_eq] at hr'
  rw [Cmd.rank] at hN
  refine .dispatch (Table.decide_eq w (fun row hrow => ?_) hdecide)
    (ih.rule w (by omega) hr'.2 hr'.1 (Table.enters_of_decide hadmits hdecide)
      ⟨hr.room_le, hr.held, fun h => absurd h hb, .jump hrule⟩)
  have hlength := of_decide_eq_true (List.all_eq_true.1 (hrows r hmem) row hrow)
  omega

theorem Cmd.CarriesBelow.loop (ih : CarriesBelow N) {g : Guard} {body : Cmd}
    (hN : (Cmd.loop g body).rank + 128 * (n - k) ≤ N) (hpaced : (Cmd.loop g body).paced = true)
    (hfirm : (Cmd.loop g body).firm border v room = true)
    (hr : w.Runs border room (.loop g body) k m d d') :
    Cmd.Ends t false (Rule.Ends t false) (.loop g body) ⟨b + k, d⟩ (.done ⟨b + m, d'⟩) := by
  have hwhole : (Cmd.loop g body).firm border {} room = true := hfirm
  have hloop := hpaced
  rw [Cmd.paced, Bool.and_eq_true, Bool.and_eq_true, decide_eq_true_eq] at hpaced
  obtain ⟨⟨hbody, hmoves⟩, hrank⟩ := hpaced
  rw [Cmd.firm, Bool.and_eq_true, Bool.and_eq_true, List.all_eq_true] at hfirm
  obtain ⟨⟨hg, hpass⟩, hcalm⟩ := hfirm
  rw [Cmd.rank] at hN
  have hends := hr.ends
  cases hends with
  | loop hends =>
    obtain ⟨answer, hanswer, hbranch⟩ := hends.ite_answers
    refine .loop ?_
    cases answer with
    | false =>
      have hstop : w.Runs border room .skip k m d d' :=
        ⟨hr.room_le, hr.held, fun _ h => absurd h (by simp [Cmd.asks]), hbranch⟩
      have hno : g.Answers t false ⟨b + k, d⟩ false :=
        hstop.answers (x := body) ih (by omega) hg (Outlook.holds_bottom _)
          (fun hb hprobe _ => hr.calm hb (by simp [Cmd.asks, hprobe])) hanswer
      refine hno.ite ?_
      obtain ⟨hm, rfl⟩ := Place.mk.inj hbranch.of_skip
      obtain rfl : m = k := Nat.add_left_cancel hm
      exact .skip
    | true =>
      have hseq : w.Runs border room (.seq body (.loop g body)) k m d d' := by
        refine ⟨hr.room_le, hr.held, fun hb hasks => hr.calm hb ?_, hbranch⟩
        simp only [Cmd.asks, Bool.or_eq_true, Bool.and_eq_true] at hasks ⊢
        exact hasks.elim id fun h => .inr h.1
      obtain ⟨l, d₁, hfirst, hrest⟩ := hseq.split hcalm
      have hlt : a + k < a + l := hfirst.ends.lt_of_passMoves hmoves hanswer.allows
      have hle := hrest.le
      have hln := hrest.le_right
      have hfirst : w.Runs border (0 + room) body k l d d₁ := hfirst
      rw [Nat.zero_add] at hfirst
      have hyes : g.Answers t false ⟨b + k, d⟩ true :=
        hfirst.answers (y := .skip) ih (by omega) hg (Outlook.holds_bottom _)
          (fun _ _ h => by cases h) hanswer
      obtain ⟨u, hu, hvu⟩ := Guard.any_assume (Outlook.holds_bottom _) hanswer.allows
      exact hyes.ite (.seq (ih w (by omega) hbody (hpass u hu) hvu hfirst)
        (ih w (by rw [Cmd.rank]; omega) hloop hwhole (Outlook.holds_bottom _) hrest))

/-- Firm commands read in the second stream what they do in the first. -/
theorem Cmd.carriesBelow (N : Nat) : CarriesBelow N := by
  induction N with
  | zero =>
    intro s t a b n w border c v room k m i d d' hN
    omega
  | succ N ih =>
    intro s t a b n w border c v room k m i d d' hN hpaced hfirm hv hr
    -- A rule has a lower rank than the jump to it, and a part of a command no higher one.
    induction c generalizing v room k m i d d' with
    | skip =>
      obtain ⟨hm, rfl⟩ := Place.mk.inj hr.ends.of_skip
      obtain rfl : m = k := Nat.add_left_cancel hm
      exact .skip
    | shift =>
      have hm : a + m = a + k + 1 := congrArg Place.index hr.ends.of_shift.2
      have hmn := hr.le_right
      exact w.shift (by omega) hr.ends
    | fail =>
      have hends := hr.ends
      cases hends
    | close kind =>
      obtain ⟨hm, rfl⟩ := Place.mk.inj hr.ends.of_close
      obtain rfl : m = k := Nat.add_left_cancel hm
      exact .close
    | wrap kind =>
      obtain ⟨hm, rfl⟩ := Place.mk.inj hr.ends.of_wrap
      obtain rfl : m = k := Nat.add_left_cancel hm
      exact .wrap
    | seq x y ihx ihy =>
      rw [Cmd.rank] at hN
      rw [Cmd.paced, Bool.and_eq_true] at hpaced
      rw [Cmd.firm, Bool.and_eq_true, Bool.and_eq_true] at hfirm
      obtain ⟨⟨hx, hy⟩, hcalm⟩ := hfirm
      obtain ⟨l, d₁, hfirst, hsecond⟩ := hr.split hcalm
      have hkl := hfirst.le
      have hln := hfirst.le_right
      refine .seq (ihx (by omega) hpaced.1 hx hv hfirst)
        (ihy ?_ hpaced.2 hy (Outlook.holds_bottom _) hsecond)
      split at hN
      · rename_i hmoves
        have hlt : a + k < a + l := hfirst.ends.lt_of_moves hmoves
        omega
      · omega
    | ite g x y ihx ihy =>
      rw [Cmd.rank] at hN
      rw [Cmd.paced, Bool.and_eq_true] at hpaced
      rw [Cmd.firm, Bool.and_eq_true, Bool.and_eq_true, List.all_eq_true, List.all_eq_true] at hfirm
      obtain ⟨⟨hg, hx⟩, hy⟩ := hfirm
      obtain ⟨answer, hanswer, hbranch⟩ := hr.ends.ite_answers
      have hruns : w.Runs border room (if answer then x else y) k m d d' := by
        refine ⟨hr.room_le, hr.held, fun hb hasks => hr.calm hb ?_, hbranch⟩
        cases answer <;> simp_all [Cmd.asks]
      refine (hruns.answers ih (by omega) hg hv (fun hb hprobe _ => hr.calm hb ?_) hanswer).ite ?_
      · simp [Cmd.asks, hprobe]
      · obtain ⟨u, hu, hvu⟩ := Guard.any_assume hv hanswer.allows
        cases answer with
        | true => exact ihx (by omega) hpaced.1 (hx u hu) hvu hruns
        | false => exact ihy (by omega) hpaced.2 (hy u hu) hvu hruns
    | loop g body => exact ih.loop (Nat.le_of_lt_succ hN) hpaced hfirm hr
    | nest body ihb =>
      rw [Cmd.firm, Bool.and_eq_true, decide_eq_true_eq] at hfirm
      obtain ⟨hleast, hfirm⟩ := hfirm
      obtain ⟨q, hbody, hq⟩ := hr.ends.of_nest
      obtain ⟨hm, rfl⟩ := Place.mk.inj hq
      have hq : q = ⟨a + m, q.draft⟩ := by rw [hm]
      rw [hq] at hbody
      have hfresh : ({ v with latest := none } : Outlook).Holds s i (s.fresh (a + k)) :=
        hv.forget rfl
      have hread : a + k + body.least { v with latest := none } ≤ a + m := hbody.count hfresh
      have hroom := hr.room_le
      have hinner := ihb hN hpaced hfirm hfresh ⟨hr.room_le, hr.held, hr.calm, hbody⟩
      have hnest := Cmd.Ends.nest (p := ⟨b + k, d⟩) (q := ⟨b + m, q.draft⟩) (by
        rw [w.fresh_eq (by omega)]
        exact hinner)
      exact hnest
    | jump r =>
      rw [Cmd.firm, Bool.and_eq_true, Bool.and_eq_true, decide_eq_true_eq] at hfirm
      obtain ⟨⟨hroom, hadmits⟩, hle⟩ := hfirm
      rw [Cmd.rank] at hN
      exact .jump (ih.rule w (by omega) hadmits hroom (Rule.enters_of_leKinds hv.ahead hle) hr)
    | dispatch table => exact ih.dispatch (Nat.le_of_lt_succ hN) hfirm hr

end

end JavaSyntax
