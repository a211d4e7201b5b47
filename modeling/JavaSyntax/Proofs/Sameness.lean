import JavaSyntax.Tree.Equality

/-!
# Structural equality

Trees are compared with a list of pairs that wait, of which the latest is taken first. That this
is the recursive comparison of kinds, spans and children does not depend on the order: a pair may
be taken from anywhere. Whatever is taken, the pairs left are all the same exactly if the pairs
before were, and the trees on their left sides get smaller.
-/

namespace JavaSyntax.Tree

mutual

/-- The same kind, span and number of children, and alike children in the same places. -/
def Alike : Tree → Tree → Prop
  | leaf k s, leaf l t => k = l ∧ s = t
  | node k s cs, node l t ds => k = l ∧ s = t ∧ cs.length = ds.length ∧ ForestAlike cs ds
  | leaf .., node .. | node .., leaf .. => False

def ForestAlike : Forest → Forest → Prop
  | a :: as, b :: bs => a.Alike b ∧ ForestAlike as bs
  | [], _ | _ :: _, [] => True

end

mutual

theorem alike_iff (a b : Tree) : a.Alike b ↔ a = b := by
  cases a with
  | leaf k s => cases b <;> simp [Alike]
  | node k s cs =>
    cases b with
    | leaf l t => simp [Alike]
    | node l t ds =>
      rw [Alike, forestAlike_iff cs ds, node.injEq]

theorem forestAlike_iff (as bs : Forest) :
    as.length = bs.length ∧ ForestAlike as bs ↔ as = bs := by
  cases as with
  | nil => cases bs <;> simp [ForestAlike]
  | cons a as =>
    cases bs with
    | nil => simp
    | cons b bs =>
      rw [ForestAlike, alike_iff a b, List.cons.injEq, ← forestAlike_iff as bs, List.length_cons,
        List.length_cons, Nat.succ_inj, and_left_comm]

end

/-- Some pair is taken and examined, and the pairs that come of it join the others. -/
inductive Step : List (Inner × Inner) → List (Inner × Inner) → Prop
  | take {before after qs : List (Inner × Inner)} {a b : Inner}
      (h : examine a b (before ++ after) = some qs) : Step (before ++ (a, b) :: after) qs

/-- What a comparison may come to that takes the pairs in any order. -/
inductive Verdict : List (Inner × Inner) → Bool → Prop
  | equal : Verdict [] true
  | differ {before after : List (Inner × Inner)} {a b : Inner}
      (h : examine a b (before ++ after) = none) : Verdict (before ++ (a, b) :: after) false
  | step {ps qs : List (Inner × Inner)} {r : Bool} (h : Step ps qs) (hr : Verdict qs r) :
      Verdict ps r

variable {ps qs before after : List (Inner × Inner)} {a b : Inner} {r : Bool}

theorem allSame_middle :
    AllSame (before ++ (a, b) :: after) ↔ a = b ∧ AllSame (before ++ after) := by
  simp only [AllSame, List.mem_append, List.mem_cons, or_imp, forall_and, forall_eq]
  exact and_left_comm

/-- A step takes no difference away and brings none in. -/
theorem Step.allSame_iff (h : Step ps qs) : AllSame qs ↔ AllSame ps := by
  obtain ⟨h⟩ := h
  rw [allSame_middle, ← exists_examine_iff]
  simp [h]

theorem Step.pendingSize_lt (h : Step ps qs) : pendingSize qs < pendingSize ps := by
  obtain ⟨h⟩ := h
  have hlt := pendingSize_examine h
  rw [pendingSize_append] at hlt ⊢
  simp only [pendingSize]
  omega

/-- No order of taking pairs goes on forever. -/
theorem wellFounded_step : WellFounded fun qs ps => Step ps qs :=
  Subrelation.wf Step.pendingSize_lt (measure pendingSize).wf

theorem Verdict.eq_true_iff (h : Verdict ps r) : r = true ↔ AllSame ps := by
  induction h with
  | equal => simp
  | differ h =>
    rw [allSame_middle, ← exists_examine_iff]
    simp [h]
  | step h _ ih => rw [ih, h.allSame_iff]

/-- To take the latest pair is one of the orders. -/
theorem verdict_sameAll (ps : List (Inner × Inner)) : Verdict ps (sameAll ps) := by
  fun_induction sameAll ps with
  | case1 => exact .equal
  | case2 a b rest pairs h ih =>
    have hstep : Step ([] ++ (a, b) :: rest) pairs := .take h
    exact .step hstep ih
  | case3 a b rest h =>
    have hdiffer : Verdict ([] ++ (a, b) :: rest) false := .differ h
    exact hdiffer

theorem verdict_iff : Verdict ps r ↔ r = sameAll ps := by
  constructor
  · intro h
    rw [Bool.eq_iff_iff, h.eq_true_iff, sameAll_iff]
  · rintro rfl
    exact verdict_sameAll ps

/-- The comparison of trees is structural: leaves are the same by kind and span, and inner nodes
by kind, span, number of children and the children in order. In whatever order the pairs of
inner nodes are taken, the comparison ends, and with the same answer. -/
theorem same_iff_alike :
    (∀ a b : Tree, a.same b = true ↔ a.Alike b) ∧
      (∀ a b : Inner, ∀ r, Verdict [(a, b)] r ↔ r = a.tree.same b.tree) ∧
      WellFounded fun qs ps => Step ps qs :=
  ⟨fun a b => (same_iff a b).trans (alike_iff a b).symm, fun _ _ _ => verdict_iff,
    wellFounded_step⟩

end JavaSyntax.Tree
