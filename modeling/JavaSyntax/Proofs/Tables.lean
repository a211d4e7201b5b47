import JavaSyntax.Proofs.Derivation

/-!
# Decision tables are exclusive

No two rows of a table of the grammar match at one index, are equally specific and call for
different rules. So the check for ambiguity changes nothing, and no derivation ends in a fatal
error.
-/

namespace JavaSyntax

namespace KindSet

def disjoint (s t : KindSet) : Bool := s.bits &&& t.bits == 0

theorem not_contains_of_disjoint {s t : KindSet} {k : TokenKind} (h : s.disjoint t = true)
    (hs : s.contains k = true) : t.contains k = false := by
  have hbit : (s.bits &&& t.bits).testBit k.index = false := by
    rw [disjoint, beq_iff_eq] at h
    rw [h, Nat.zero_testBit]
  rw [contains] at hs ⊢
  rw [Nat.testBit_and, hs, Bool.true_and] at hbit
  exact hbit

end KindSet

namespace Row

/-- Some place of the patterns tells them apart. -/
def apart : List KindSet → List KindSet → Bool
  | a :: as, b :: bs => a.disjoint b || apart as bs
  | _, _ => false

theorem not_fits_of_apart {s : TokenStream} {i : Nat} {as bs : List KindSet}
    (h : apart as bs = true) (ha : fits s i as = true) : fits s i bs = false := by
  induction as generalizing bs i with
  | nil => simp [apart] at h
  | cons a as ih =>
    cases bs with
    | nil => simp [apart] at h
    | cons b bs =>
      rw [fits, Bool.and_eq_true] at ha
      rw [apart, Bool.or_eq_true] at h
      rw [fits]
      rcases h with h | h
      · rw [KindSet.not_contains_of_disjoint h ha.1, Bool.false_and]
      · rw [ih h ha.2, Bool.and_false]

/-- The second row is no rival of the first. -/
def yields (chosen r : Row) : Bool :=
  r.rule == chosen.rule || r.pattern.length != chosen.pattern.length ||
    apart chosen.pattern r.pattern

end Row

namespace Table
variable {s : TokenStream} {i : Nat} {rows : List Row} {t : Table}

/-- No row has a rival behind it. -/
def Exclusive (rows : List Row) : Prop := rows.Pairwise fun r r' => r.yields r' = true

instance (rows : List Row) : Decidable (Exclusive rows) :=
  inferInstanceAs (Decidable (List.Pairwise _ _))

theorem rival?_eq_none {chosen : Row} {rest : List Row}
    (h : ∀ r ∈ rest, chosen.yields r = true) (hm : chosen.matchesAt s i = true) :
    rival? s i chosen rest = none := by
  rw [rival?, List.find?_eq_none]
  intro r hr
  have hy := h r hr
  rw [Row.yields, Bool.or_eq_true, Bool.or_eq_true] at hy
  rcases hy with (hrule | hlength) | hapart
  · simp_all
  · simp_all
  · have hno : r.matchesAt s i = false := Row.not_fits_of_apart hapart hm
    simp [hno]

theorem no_rival {chosen : Row} {rest : List Row} (h : Exclusive rows)
    (hc : choose? s i rows = some (chosen, rest)) : rival? s i chosen rest = none := by
  induction rows with
  | nil => cases hc
  | cons r rs ih =>
    rw [Exclusive, List.pairwise_cons] at h
    rw [choose?] at hc
    split at hc
    · rename_i hm
      cases hc
      exact rival?_eq_none h.1 hm
    · exact ih h.2 hc

theorem decide_strict (h : Exclusive t.rows) (strict : Bool) :
    t.decide s strict i = t.decide s false i := by
  cases strict with
  | false => rfl
  | true =>
    unfold decide
    cases hc : choose? s i t.rows with
    | none => rfl
    | some c =>
      obtain ⟨chosen, rest⟩ := c
      simp only [no_rival h hc]

theorem isFatal_ofFound (expected : KindSet) (found : TokenKind) :
    (ParseFault.ofFound expected found).isFatal = false := by
  unfold ParseFault.ofFound
  split <;> rfl

theorem isFatal_of_decide {strict : Bool} {e : ParseError} (h : Exclusive t.rows)
    (he : t.decide s strict i = .error e) : e.isFatal = false := by
  rw [decide_strict h] at he
  obtain ⟨labels, hstrict, -⟩ | ⟨-, -, rfl⟩ := decide_error he
  · cases hstrict
  · exact isFatal_ofFound _ _

end Table

def Cmd.exclusive : Cmd → Bool
  | seq a b | ite _ a b => a.exclusive && b.exclusive
  | loop _ body | nest body => body.exclusive
  | dispatch t => Decidable.decide (Table.Exclusive t.rows)
  | _ => true

theorem Rule.exclusive_body (r : Rule) : r.body.exclusive = true := by
  revert r
  decide

theorem Probe.exclusive_fragment (p : Probe) : p.fragment.exclusive = true := by
  cases p <;> decide

/-- The ending is no fatal error. -/
def Ending.Mild : Ending → Prop
  | done _ => True
  | failed e _ => e.isFatal = false

theorem Ending.Mild.verdict {o : Ending} (h : o.Mild) : ∃ answer, o.verdict = .ok answer := by
  cases o with
  | done q => exact ⟨true, rfl⟩
  | failed e i =>
    have he : e.isFatal = false := h
    exact ⟨false, by rw [Ending.verdict, he]; rfl⟩

section
variable {s : TokenStream} {strict : Bool} {calls : Rule → Place → Ending → Prop} {c : Cmd}
  {p : Place} {o : Ending}

theorem Cmd.Ends.mild (hcalls : ∀ r p o, calls r p o → o.Mild) (hc : c.exclusive = true)
    (h : Cmd.Ends s strict calls c p o) : o.Mild := by
  induction h with
  | skip => trivial
  | shift => trivial
  | shiftEnd => exact Table.isFatal_ofFound _ _
  | fail => exact Table.isFatal_ofFound _ _
  | seq _ _ _ ihb =>
    rw [exclusive, Bool.and_eq_true] at hc
    exact ihb hc.2
  | seqFail _ ih =>
    rw [exclusive, Bool.and_eq_true] at hc
    exact ih hc.1
  | @known _ _ _ _ _ answer _ _ ih =>
    rw [exclusive, Bool.and_eq_true] at hc
    cases answer with
    | true => exact ih hc.1
    | false => exact ih hc.2
  | @asked _ _ _ _ _ _ _ answer _ _ _ _ _ ih =>
    rw [exclusive, Bool.and_eq_true] at hc
    cases answer with
    | true => exact ih hc.1
    | false => exact ih hc.2
  | @aborted _ _ _ _ probe _ _ _ _ hv iht =>
    obtain ⟨answer, ha⟩ := (iht probe.exclusive_fragment).verdict
    cases ha.symm.trans hv
  | @loop g body _ _ _ ih =>
    rw [exclusive] at hc
    apply ih
    rw [exclusive, exclusive, exclusive, hc]
    rfl
  | nest => trivial
  | nestFail _ ih => exact ih hc
  | jump h => exact hcalls _ _ _ h
  | dispatch _ h => exact hcalls _ _ _ h
  | dispatchFail ht => exact Table.isFatal_of_decide (of_decide_eq_true hc) ht
  | close => trivial
  | wrap => trivial

/-- No rule ends in a fatal error. -/
theorem Rule.Ends.mild {r : Rule} (h : Rule.Ends s strict r p o) : o.Mild :=
  h.induct fun r _ _ h => Cmd.Ends.mild (fun _ _ _ h => h.2) r.exclusive_body h

/-- A derivation holds with and without the check for ambiguity. -/
theorem Cmd.Ends.relax {calls' : Rule → Place → Ending → Prop}
    (hcalls : ∀ r p o, calls r p o → calls' r p o) (hc : c.exclusive = true) (strict' : Bool)
    (h : Cmd.Ends s strict calls c p o) : Cmd.Ends s strict' calls' c p o := by
  have hdecide {t : Table} {i : Nat} (ht : (Cmd.dispatch t).exclusive = true) :
      t.decide s strict' i = t.decide s strict i := by
    have ht := of_decide_eq_true ht
    rw [Table.decide_strict ht strict', Table.decide_strict ht strict]
  induction h with
  | skip => exact .skip
  | shift h => exact .shift h
  | shiftEnd h => exact .shiftEnd h
  | fail => exact .fail
  | seq _ _ iha ihb =>
    rw [exclusive, Bool.and_eq_true] at hc
    exact .seq (iha hc.1) (ihb hc.2)
  | seqFail _ ih =>
    rw [exclusive, Bool.and_eq_true] at hc
    exact .seqFail (ih hc.1)
  | @known _ _ _ _ _ answer hg _ ih =>
    rw [exclusive, Bool.and_eq_true] at hc
    refine .known hg ?_
    cases answer with
    | true => exact ih hc.1
    | false => exact ih hc.2
  | @asked _ _ _ _ _ probe _ answer hg _ hv _ iht ih =>
    rw [exclusive, Bool.and_eq_true] at hc
    refine .asked hg (iht probe.exclusive_fragment) hv ?_
    cases answer with
    | true => exact ih hc.1
    | false => exact ih hc.2
  | @aborted _ _ _ _ probe _ _ hg _ hv iht =>
    exact .aborted hg (iht probe.exclusive_fragment) hv
  | @loop g body _ _ _ ih =>
    refine .loop (ih ?_)
    rw [exclusive] at hc
    rw [exclusive, exclusive, exclusive, hc]
    rfl
  | nest _ ih => exact .nest (ih hc)
  | nestFail _ ih => exact .nestFail (ih hc)
  | jump h => exact .jump (hcalls _ _ _ h)
  | dispatch ht h => exact .dispatch ((hdecide hc).trans ht) (hcalls _ _ _ h)
  | dispatchFail ht => exact .dispatchFail ((hdecide hc).trans ht)
  | close => exact .close
  | wrap => exact .wrap

theorem Rule.Ends.relax {r : Rule} (h : Rule.Ends s strict r p o) (strict' : Bool) :
    Rule.Ends s strict' r p o :=
  h.induct fun r _ _ h => .body (h.relax (fun _ _ _ h => h.2) r.exclusive_body strict')

end

end JavaSyntax
