import JavaSyntax.Proofs.Angles
import JavaSyntax.Proofs.Termination

/-!
# Scans that find nothing

An index is barren if the scan from it finds no method reference behind type arguments. The scan
passes all tokens that types are made of, and it counts angle brackets, which are balanced in a
type. So from a barren index no type leads to an index that is not, whatever number of brackets
are open, and no type before a double colon stands there.
-/

namespace JavaSyntax

open Relation (ReflTransGen)

namespace TokenStream
variable {s : TokenStream} {d i j k : Nat} {a b : Nat × Nat}

/-- With so many angle brackets open, the scan from the index finds no method reference. -/
def Barren (s : TokenStream) (d i : Nat) : Prop := s.scanFrom (s.length - i) d i ≠ .mayBe

theorem ArgumentStep.scanFrom_eq (h : s.ArgumentStep a b) :
    s.scanFrom (s.length - a.2) a.1 a.2 = s.scanFrom (s.length - b.2) b.1 b.2 := by
  have hlt := h.lt
  have hnext : b.2 = a.2 + 1 := by cases h <;> rfl
  obtain ⟨fuel, hfuel⟩ : ∃ fuel, s.length - a.2 = fuel + 1 :=
    ⟨s.length - a.2 - 1, by omega⟩
  rw [hfuel, show s.length - b.2 = fuel by omega, scanFrom]
  cases h with
  | less h => simp only [h]
  | greater h => simp [h]
  | argument h hless hgreater =>
    split
    · exact absurd ‹_› hless
    · exact absurd ‹_› hgreater
    · rename_i hkind
      rw [hkind] at h
      cases h
    · rename_i hkind
      rw [hkind] at h
      cases h
    · rw [if_pos h]

theorem ArgumentStep.barren_iff (h : s.ArgumentStep a b) :
    s.Barren a.1 a.2 ↔ s.Barren b.1 b.2 := by
  rw [Barren, Barren, h.scanFrom_eq]

namespace Barren

theorem of_mayBeTypePrefix (h : (({} : PredictionMemo).mayBeTypePrefix s i).1 = false) :
    s.Barren 0 i := by
  have hempty : ({} : PredictionMemo).Barred s := by simp [PredictionMemo.Barred]
  intro hscan
  rw [(PredictionMemo.mayBeTypePrefix_iff hempty i).2 hscan] at h
  cases h

theorem argument (h : s.Barren d i)
    (hk : TokenKind.typeArgumentTokens.contains (s.kindAt i) = true) : s.Barren d (i + 1) := by
  refine (ArgumentStep.argument hk ?_ ?_).barren_iff.1 h
  · intro hless
    rw [hless] at hk
    cases hk
  · intro hgreater
    rw [hgreater] at hk
    cases hk

theorem less (h : s.Barren d i) (hk : s.kindAt i = .less) : s.Barren (d + 1) (i + 1) :=
  (ArgumentStep.less hk).barren_iff.1 h

theorem greater (h : s.Barren (d + 1) i) (hk : s.kindAt i = .greater) : s.Barren d (i + 1) :=
  (ArgumentStep.greater hk).barren_iff.1 h

theorem kindAt_ne_lparen (h : s.Barren d i) : s.kindAt i ≠ .lparen := by
  intro hk
  have hlt := lt_length_of_kindAt (show s.kindAt i ≠ .eof by rw [hk]; decide)
  refine h ?_
  rw [show s.length - i = s.length - i - 1 + 1 by omega, scanFrom, hk]

theorem kindAt_ne_colonColon (h : s.Barren 0 i) : s.kindAt i ≠ .colonColon := by
  intro hk
  have hlt := lt_length_of_kindAt (show s.kindAt i ≠ .eof by rw [hk]; decide)
  refine h ?_
  rw [show s.length - i = s.length - i - 1 + 1 by omega, scanFrom, hk]
  rfl

theorem of_nameEnd (h : s.Barren d (s.nameEnd i)) (hident : s.kindAt i = .ident) :
    s.Barren d i := by
  have hstep {j : Nat} (hk : TokenKind.typeArgumentTokens.contains (s.kindAt j) = true)
      (hless : s.kindAt j ≠ .less) (hgreater : s.kindAt j ≠ .greater)
      (h : s.Barren d (j + 1)) : s.Barren d j :=
    (ArgumentStep.argument hk hless hgreater).barren_iff.2 h
  have hname {j : Nat} (hsteps : ReflTransGen s.SegmentStep j (s.nameEnd i)) : s.Barren d j := by
    induction hsteps using ReflTransGen.head_induction_on with
    | refl => exact h
    | head hsegment _ ih =>
      obtain ⟨hdot, hnext, rfl⟩ := hsegment
      refine hstep (by rw [hdot]; rfl) (by rw [hdot]; decide) (by rw [hdot]; decide) ?_
      exact hstep (by rw [hnext]; rfl) (by rw [hnext]; decide) (by rw [hnext]; decide) ih
  refine hstep (by rw [hident]; rfl) (by rw [hident]; decide) (by rw [hident]; decide) ?_
  exact hname (s.nameEnd_steps i).1

end Barren

/-- What is barren at the one index is so at the other, whatever number of brackets are open. -/
def Spreads (s : TokenStream) (i j : Nat) : Prop := ∀ d, s.Barren d i → s.Barren d j

theorem Spreads.refl (s : TokenStream) (i : Nat) : s.Spreads i i := fun _ h => h

theorem Spreads.trans (h : s.Spreads i j) (h' : s.Spreads j k) : s.Spreads i k :=
  fun d hd => h' d (h d hd)

end TokenStream

/-- The kinds that no type is made of, and angle brackets. -/
def KindSet.untypal : KindSet := .diff .full TokenKind.typeArgumentTokens

theorem TokenStream.Spreads.token {s : TokenStream} {i : Nat}
    (h : KindSet.untypal.contains (s.kindAt i) = false) : s.Spreads i (i + 1) := by
  refine fun d hd => hd.argument ?_
  rw [KindSet.untypal, KindSet.contains_diff] at h
  simpa using h

/-- The rules that a type is made of. -/
def Rule.isArgument : Rule → Bool
  | name | type | referenceType | dims | typeArguments | typeArgument | annotationUse => true
  | _ => false

/-- The rules of these that read angle brackets or parentheses themselves. -/
def Rule.isBracketed : Rule → Bool
  | typeArguments | annotationUse => true
  | _ => false

theorem Rule.avoids_all (r : Rule) :
    (!r.isArgument || r.isBracketed || r.body.avoids .untypal isArgument {}) = true := by
  cases r with
  | name | type | referenceType | dims | typeArgument => decide
  | _ => rfl

section
variable {s : TokenStream} {strict : Bool} {c : Cmd} {p q : Place} {r : Rule} {v : Outlook}
  {i : Nat}

/-- The rule ends so, and what it reads spreads if it is part of a type. -/
def Rule.EndsSpread (s : TokenStream) (strict : Bool) (r : Rule) (p : Place) (o : Ending) : Prop :=
  Rule.Ends s strict r p o ∧
    (r.isArgument = true → ∀ q, o = .done q → s.Spreads p.index q.index)

theorem Cmd.Ends.spreads (hc : c.avoids .untypal Rule.isArgument v = true) (hv : v.Holds s i p)
    (h : Cmd.Ends s strict (Rule.EndsSpread s strict) c p (.done q)) :
    s.Spreads p.index q.index :=
  h.joins (.refl s) (fun _ _ _ => .trans) (fun _ => .token) (fun _ _ q hr h => h.2 hr q rfl)
    (fun _ _ _ h => h.1) hc hv

theorem Grammar.spreads_typeArguments
    (h : Cmd.Ends s strict (Rule.EndsSpread s strict) typeArguments p (.done q)) :
    s.Spreads p.index q.index := by
  obtain ⟨m₃, h, hclose⟩ := h.seq_done
  obtain ⟨m₂, h, hright⟩ := h.seq_done
  obtain ⟨m₁, hleft, hinner⟩ := h.seq_done
  obtain ⟨hless, rfl⟩ := hleft.of_expect
  obtain ⟨hgreater, rfl⟩ := hright.of_expect
  have hspreads := hinner.spreads (by decide) (Outlook.holds_bottom _)
  intro d hd
  rw [hclose.of_close]
  exact (hspreads (d + 1) (hd.less hless)).greater hgreater

theorem Grammar.spreads_annotationUse
    (h : Cmd.Ends s strict (Rule.EndsSpread s strict) annotationUse p (.done q)) :
    s.Spreads p.index q.index := by
  obtain ⟨m₂, h, hclose⟩ := h.seq_done
  obtain ⟨m, hhead, hopt⟩ := h.seq_done
  have hspreads := hhead.spreads (by decide) (Outlook.holds_bottom _)
  intro d hd
  have hm := hspreads d hd
  rw [hclose.of_close]
  obtain ⟨answer, hopen, hopt⟩ := hopt.ite_done
  cases answer with
  | false =>
    obtain rfl := hopt.of_skip
    exact hm
  | true =>
    rw [Guard.allows_test, Test.here, Test.holds, KindSet.contains_single,
      decide_eq_true_eq] at hopen
    exact absurd hopen hm.kindAt_ne_lparen

/-- What a rule for a part of a type reads spreads. -/
theorem Rule.Ends.spreads {o : Ending} (h : Rule.Ends s strict r p o) :
    r.EndsSpread s strict p o := by
  refine ⟨h, h.induct (R := fun r p o => r.isArgument = true → ∀ q, o = .done q →
    s.Spreads p.index q.index) ?_⟩
  rintro r p _ h hargument q rfl
  have havoids := r.avoids_all
  rw [hargument, Bool.not_true, Bool.false_or, Bool.or_eq_true] at havoids
  rcases havoids with hbracketed | havoids
  · cases r with
    | typeArguments => exact Grammar.spreads_typeArguments h
    | annotationUse => exact Grammar.spreads_annotationUse h
    | _ => cases hbracketed
  · exact h.spreads havoids (Outlook.holds_bottom p)

theorem Probe.not_genericMethodRef (hbarren : s.Barren 0 p.index) :
    ¬ Cmd.Ends s strict (Rule.Ends s strict) (fragment .genericMethodRef) p (.done q) := by
  intro h
  obtain ⟨m, htype, hcolons⟩ := h.seq_done
  obtain ⟨m', hrule, rfl⟩ := htype.called
  have hm : s.Barren 0 m'.index := hrule.spreads.2 rfl m' rfl 0 hbarren
  exact hm.kindAt_ne_colonColon hcolons.of_expect.1

/-- At a barren index the probe for a method reference on a type answers no. -/
theorem Probe.verdict_genericMethodRef (hbarren : s.Barren 0 i) {o : Ending}
    (h : Cmd.Ends s strict (Rule.Ends s strict) (fragment .genericMethodRef) (s.fresh i) o) :
    o.verdict = .ok false := by
  cases o with
  | done q => exact absurd h (not_genericMethodRef (p := s.fresh i) hbarren)
  | failed e i =>
    have hmild : e.isFatal = false := h.mild (fun _ _ _ h => h.mild) (exclusive_fragment _)
    rw [Ending.verdict, hmild]
    rfl

end
end JavaSyntax
