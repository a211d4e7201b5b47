import JavaSyntax.Proofs.Angles
import JavaSyntax.Proofs.Whole

/-!
# Pairs of angle brackets

A `>` that is read as an operator stands before an operand, or before a token that continues the
operator. Before anything that goes on with a type it closes type arguments. It is computed from
the commands that they read no other `>` there.
-/

namespace JavaSyntax

/-- The kinds that stand behind type arguments where more of a type or a method reference
follows. -/
def KindSet.suffixes : KindSet := .ofList [.dot, .lbracket, .atSign, .colonColon]

/-- Each `>` from index `i` up to `j` that stands before such a kind closes an angle bracket that
has been opened there. -/
def TokenStream.Paired (s : TokenStream) (i j : Nat) : Prop :=
  ∀ m, i ≤ m → m < j → s.kindAt m = .greater →
    KindSet.suffixes.contains (s.kindAt (m + 1)) = true → ∃ l, i ≤ l ∧ s.Angled l m

namespace TokenStream.Paired
variable {s : TokenStream} {i j m : Nat}

theorem refl (s : TokenStream) (i : Nat) : s.Paired i i :=
  fun _ him hmi => absurd him (Nat.not_le_of_lt hmi)

theorem trans (hij : i ≤ j) (h : s.Paired i j) (h' : s.Paired j m) : s.Paired i m := by
  intro l hil hlm hkind hnext
  by_cases hlj : l < j
  · exact h l hil hlj hkind hnext
  · obtain ⟨k, hjk, hk⟩ := h' l (Nat.le_of_not_lt hlj) hlm hkind hnext
    exact ⟨k, Nat.le_trans hij hjk, hk⟩

theorem token (h : s.kindAt i = .greater →
    KindSet.suffixes.contains (s.kindAt (i + 1)) = false) : s.Paired i (i + 1) := by
  intro m him hmi hkind hnext
  obtain rfl : m = i := by omega
  cases (h hkind).symm.trans hnext

theorem succ (h : s.Paired i j) (hangled : s.Angled i j) : s.Paired i (j + 1) := by
  intro m him hmj hkind hnext
  rcases Nat.lt_or_eq_of_le (Nat.le_of_lt_succ hmj) with hmj | rfl
  · exact h m him hmj hkind hnext
  · exact ⟨i, Nat.le_refl i, hangled⟩

end TokenStream.Paired

/-- The command starts with an operand. -/
def Cmd.startsOperand : Cmd → Bool
  | seq a _ => a.startsOperand
  | nest body => body.startsOperand
  | jump (.binary _) | jump .unary => true
  | _ => false

open Cmd in
/-- A `>` that the command reads and no rule that it calls stands before no suffix. `calm` tells
that none follows the command. -/
def Cmd.pairs (calm : Bool) : Cmd → Outlook → Bool
  | shift, v =>
    calm || !(v.kinds 0).contains .greater || KindSet.suffixes.disjoint (v.kinds 1)
  | seq a b, v =>
    a.pairs b.startsOperand v && (Outlook.merge (a.exits v)).all (b.pairs calm)
  | ite g a b, v => (g.assume true v).all (a.pairs calm) && (g.assume false v).all (b.pairs calm)
  | loop g body, _ => (g.assume true {}).all (body.pairs false)
  | nest body, v =>
    body == shift ++ shift ++ close .diamond && (v.kinds 0).subset (.single .less) &&
        (v.kinds 1).subset (.single .greater) ||
      body.pairs calm { v with latest := none }
  | jump r, v => Outlook.leKinds v.ahead r.starts
  | dispatch t, _ => t.admits
  | _, _ => true

def Rule.angles : Rule → Bool
  | typeArguments | typeParameters => true
  | _ => false

theorem Rule.pairs_all (r : Rule) :
    (r.angles || r.body.pairs false { ahead := r.starts }) = true := by
  revert r
  decide +kernel

section
variable {s : TokenStream} {strict : Bool} {c : Cmd} {p q : Place} {i : Nat} {v : Outlook}
  {r : Rule} {calm : Bool} {kind : NodeKind}

/-- No operand starts with a suffix. -/
theorem Rule.Ends.not_suffix_unary (h : Rule.Ends s strict .unary p (.done q)) :
    KindSet.suffixes.contains (s.kindAt p.index) = false := by
  refine Bool.eq_false_iff.2 fun hsuffix => ?_
  obtain ⟨m, hprimary⟩ := h.primary_of_unary (KindSet.contains_of_subset (by decide) hsuffix)
  have hexits : Rule.primary.body.exits { ahead := [.suffixes] } = [] := by decide
  cases hsuffix.symm.trans (hprimary.not_contains_start hexits)

theorem Cmd.Ends.not_suffix (h : Cmd.Ends s strict (Rule.Ends s strict) c p (.done q))
    (hc : c.startsOperand = true) : KindSet.suffixes.contains (s.kindAt p.index) = false := by
  induction c generalizing p q with
  | seq a b iha _ =>
    obtain ⟨m, ha, -⟩ := h.seq_done
    exact iha ha hc
  | nest body ih =>
    obtain ⟨m, h, -⟩ := h.of_nest
    exact ih (p := s.fresh p.index) h hc
  | jump r =>
    cases h with
    | jump h =>
      cases r with
      | unary => exact h.not_suffix_unary
      | binary least =>
        cases h with
        | body h =>
          rw [Rule.body_binary] at h
          obtain ⟨m, hcall, -⟩ := h.seq_done
          obtain ⟨m', hunary, -⟩ := hcall.called
          exact hunary.not_suffix_unary
      | _ => cases hc
  | _ => cases hc

/-- The rule ends so, and what it reads is paired where it is entered. -/
def Rule.Pairs (s : TokenStream) (strict : Bool) (r : Rule) (p : Place) (o : Ending) : Prop :=
  Rule.Ends s strict r p o ∧
    (r.Enters s p.index → ∀ q, o = .done q → s.Paired p.index q.index)

theorem Cmd.Ends.paired (hc : c.pairs calm v = true) (hv : v.Holds s i p)
    (h : Cmd.Ends s strict (Rule.Pairs s strict) c p (.done q))
    (hcalm : calm = true → KindSet.suffixes.contains (s.kindAt q.index) = false) :
    s.Paired p.index q.index := by
  have hmono {c : Cmd} {p : Place} {o : Ending}
      (h : Cmd.Ends s strict (Rule.Pairs s strict) c p o) :
      Cmd.Ends s strict (Rule.Ends s strict) c p o := h.mono fun _ _ _ h => h.1
  induction c generalizing p q v i calm with
  | skip =>
    cases h
    exact .refl s _
  | shift =>
    cases h
    refine .token fun hkind => ?_
    simp only [Cmd.pairs, Bool.or_eq_true, Bool.not_eq_true'] at hc
    rcases hc with (hc | hc) | hc
    · exact hcalm hc
    · have hzero := hv.contains_kinds 0
      rw [Nat.add_zero, hkind, hc] at hzero
      cases hzero
    · refine Bool.eq_false_iff.2 fun hnext => ?_
      cases (KindSet.not_contains_of_disjoint hc hnext).symm.trans (hv.contains_kinds 1)
  | fail => cases h
  | seq a b iha ihb =>
    rw [Cmd.pairs, Bool.and_eq_true] at hc
    obtain ⟨m, ha, hb⟩ := h.seq_done
    obtain ⟨w, hw, hvm⟩ := ((hmono ha).exits (fun _ _ _ h => h.covers) (fun _ _ _ h => h.exits)
      hv).merge
    exact .trans (hmono ha).index_le (iha hc.1 hv ha (hmono hb).not_suffix)
      (ihb (List.all_eq_true.1 hc.2 w hw) hvm hb hcalm)
  | ite g a b iha ihb =>
    rw [Cmd.pairs, Bool.and_eq_true, List.all_eq_true, List.all_eq_true] at hc
    obtain ⟨answer, hg, h⟩ := h.ite_done
    obtain ⟨w, hw, hvw⟩ := Guard.any_assume hv hg
    cases answer with
    | true => exact iha (hc.1 w hw) hvw h hcalm
    | false => exact ihb (hc.2 w hw) hvw h hcalm
  | loop g body ih =>
    rw [Cmd.pairs, List.all_eq_true] at hc
    refine (h.loop_done (I := fun m => p.index ≤ m.index ∧ s.Paired p.index m.index) ?_
      ⟨Nat.le_refl _, .refl s _⟩).1.2
    rintro m m' ⟨hle, hm⟩ hg hbody
    obtain ⟨w, hw, hvw⟩ := Guard.any_assume (Outlook.holds_bottom m) hg
    exact ⟨Nat.le_trans hle (hmono hbody).index_le,
      .trans hle hm (ih (hc w hw) hvw hbody (by simp))⟩
  | nest body ih =>
    rw [Cmd.pairs, Bool.or_eq_true, Bool.and_eq_true, Bool.and_eq_true, beq_iff_eq] at hc
    cases h with
    | @nest _ _ m h =>
      rcases hc with ⟨⟨rfl, hless⟩, hgreater⟩ | hc
      · have hless := KindSet.contains_of_subset hless (hv.contains_kinds 0)
        have hgreater := KindSet.contains_of_subset hgreater (hv.contains_kinds 1)
        simp only [KindSet.contains_single, decide_eq_true_eq, Nat.add_zero] at hless hgreater
        obtain ⟨m₂, h, hclose⟩ := h.seq_done
        obtain ⟨m₁, hleft, hright⟩ := h.seq_done
        have hm₁ : m₁.index = p.index + 1 := congrArg Place.index hleft.of_shift.2
        have hm₂ : m₂.index = m₁.index + 1 := congrArg Place.index hright.of_shift.2
        have hm : m.index = p.index + 1 + 1 := by rw [hclose.of_close, hm₂, hm₁]
        change s.Paired p.index m.index
        rw [hm]
        refine .succ (.token fun hkind => ?_) ⟨Nat.lt_succ_self _, hless, hgreater, .refl s _⟩
        cases hless.symm.trans hkind
      · exact ih (p := s.fresh p.index) (q := m) hc (hv.forget rfl) h hcalm
  | jump r =>
    cases h with
    | jump h => exact h.2 (Rule.enters_of_leKinds hv.ahead hc) q rfl
  | dispatch t =>
    cases h with
    | @dispatch _ r _ _ ht h => exact h.2 (Table.enters_of_decide hc ht) q rfl
  | close kind =>
    cases h
    exact .refl s _
  | wrap kind =>
    cases h
    exact .refl s _

/-- What stands between angle brackets is paired, and so are these. -/
theorem Cmd.Ends.paired_angles (hlevels : c.avoids .bracketing Rule.isTypal {} = true)
    (hpairs : c.pairs true {} = true)
    (h : Cmd.Ends s strict (Rule.Pairs s strict)
      (.expect .less ++ c ++ .expect .greater ++ .close kind) p (.done q)) :
    s.Paired p.index q.index := by
  obtain ⟨j, hq, hangled⟩ := (h.mono fun _ _ _ h => h.1.level).angled hlevels
  obtain ⟨m₃, h, hclose⟩ := h.seq_done
  obtain ⟨m₂, h, hright⟩ := h.seq_done
  obtain ⟨m₁, hleft, hinner⟩ := h.seq_done
  have hm₁ : m₁.index = p.index + 1 := congrArg Place.index hleft.of_expect.2
  obtain ⟨hgreater, hm₃⟩ := hright.of_expect
  rw [hclose.of_close, hm₃] at hq ⊢
  obtain rfl : m₂.index = j := Nat.succ.inj hq
  have hpaired := hinner.paired hpairs (Outlook.holds_bottom m₁) fun _ => by
    rw [hgreater]
    decide
  rw [hm₁] at hpaired
  refine .succ (.trans (Nat.le_succ _) (.token fun hkind => ?_) hpaired) hangled
  cases hangled.opens.symm.trans hkind

/-- What a rule reads is paired. -/
theorem Rule.Ends.paired {o : Ending} (h : Rule.Ends s strict r p o) : r.Pairs s strict p o := by
  refine ⟨h, h.induct (R := fun r p o => r.Enters s p.index → ∀ q, o = .done q →
    s.Paired p.index q.index) ?_⟩
  rintro r p _ h henters q rfl
  have hpairs := r.pairs_all
  rw [Bool.or_eq_true] at hpairs
  rcases hpairs with hangles | hpairs
  · cases r with
    | typeArguments => exact h.paired_angles (by decide) (by decide)
    | typeParameters => exact h.paired_angles (by decide) (by decide)
    | _ => cases hangles
  · exact h.paired hpairs (Outlook.holds_ahead henters) (by simp)

end

end JavaSyntax
