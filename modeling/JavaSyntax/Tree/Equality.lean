import JavaSyntax.Tree.Basic

/-!
# Equality of trees

`Tree.same` compares two trees with a list of pairs of inner nodes still to be compared, so that a
deep tree needs no deep recursion. `Tree.same_iff` says that it decides equality.
-/

namespace JavaSyntax.Tree

structure Inner where
  kind : NodeKind
  span : Span
  children : Forest

def Inner.tree (n : Inner) : Tree := node n.kind n.span n.children

/-- Compares leaves that stand side by side, and puts the inner nodes that do in front of the pairs
at hand. What one side has more than the other is not looked at. -/
def matchUp : Forest → Forest → List (Inner × Inner) → Option (List (Inner × Inner))
  | leaf k s :: as, leaf l t :: bs, pairs => if k = l ∧ s = t then matchUp as bs pairs else none
  | node k s cs :: as, node l t ds :: bs, pairs =>
    matchUp as bs ((⟨k, s, cs⟩, ⟨l, t, ds⟩) :: pairs)
  | _ :: _, _ :: _, _ => none
  | [], _, pairs | _ :: _, [], pairs => some pairs

/-- Compares two inner nodes up to the inner nodes among their children, which join the pairs at
hand. -/
def examine (a b : Inner) (pairs : List (Inner × Inner)) : Option (List (Inner × Inner)) :=
  if a.kind = b.kind ∧ a.span = b.span ∧ a.children.length = b.children.length then
    matchUp a.children b.children pairs
  else none

def pendingSize : List (Inner × Inner) → Nat
  | [] => 0
  | p :: ps => p.1.tree.size + pendingSize ps

theorem pendingSize_append (ps qs : List (Inner × Inner)) :
    pendingSize (ps ++ qs) = pendingSize ps + pendingSize qs := by
  induction ps with
  | nil => simp [pendingSize]
  | cons p ps ih => simp [pendingSize, ih, Nat.add_assoc]

theorem pendingSize_matchUp {as bs : Forest} {pairs qs : List (Inner × Inner)}
    (h : matchUp as bs pairs = some qs) : pendingSize qs ≤ forestSize as + pendingSize pairs := by
  fun_induction matchUp as bs pairs with
  | case1 k s as l t bs pairs _ ih =>
    have hle := ih h
    simp only [forestSize]
    omega
  | case2 => cases h
  | case3 k s cs as l t ds bs pairs ih =>
    have hle := ih h
    simp only [pendingSize, Inner.tree, forestSize] at hle ⊢
    omega
  | case4 => cases h
  | case5 | case6 =>
    cases h
    exact Nat.le_add_left _ _

theorem pendingSize_examine {a b : Inner} {pairs qs : List (Inner × Inner)}
    (h : examine a b pairs = some qs) : pendingSize qs < a.tree.size + pendingSize pairs := by
  unfold examine at h
  split at h
  · have hle := pendingSize_matchUp h
    simp only [Inner.tree, size]
    omega
  · cases h

/-- All pending pairs are pairs of equal nodes. The latest of them comes first. -/
def sameAll : List (Inner × Inner) → Bool
  | [] => true
  | (a, b) :: rest =>
    match _h : examine a b rest with
    | some pairs => sameAll pairs
    | none => false
  termination_by ps => pendingSize ps
  decreasing_by exact pendingSize_examine _h

def same : Tree → Tree → Bool
  | leaf k s, leaf l t => k = l ∧ s = t
  | node k s cs, node l t ds => sameAll [(⟨k, s, cs⟩, ⟨l, t, ds⟩)]
  | _, _ => false

/-- The two sides of each pair are the same node. -/
def AllSame (ps : List (Inner × Inner)) : Prop := ∀ p ∈ ps, p.1 = p.2

@[simp] theorem allSame_nil : AllSame [] := by simp [AllSame]

@[simp] theorem allSame_cons {a b : Inner} {ps : List (Inner × Inner)} :
    AllSame ((a, b) :: ps) ↔ a = b ∧ AllSame ps := by
  simp [AllSame]

theorem exists_matchUp_iff {as bs : Forest} {pairs : List (Inner × Inner)}
    (hlen : as.length = bs.length) :
    (∃ qs, matchUp as bs pairs = some qs ∧ AllSame qs) ↔ as = bs ∧ AllSame pairs := by
  fun_induction matchUp as bs pairs with
  | case1 k s as l t bs pairs heq ih =>
    rw [ih (Nat.succ.inj hlen), heq.1, heq.2]
    simp
  | case2 k s as l t bs pairs hne => simp [hne]
  | case3 k s cs as l t ds bs pairs ih =>
    rw [ih (Nat.succ.inj hlen)]
    simp only [allSame_cons, Inner.mk.injEq, List.cons.injEq, node.injEq]
    rw [← and_assoc, and_comm (a := as = bs)]
  | case4 a as b bs pairs hleaf hnode =>
    cases a <;> cases b
    case leaf.leaf => exact (hleaf _ _ _ _ rfl rfl).elim
    case node.node => exact (hnode _ _ _ _ _ _ rfl rfl).elim
    all_goals simp
  | case5 bs pairs => simp [List.eq_nil_of_length_eq_zero hlen.symm]
  | case6 => cases hlen

/-- A step keeps it open whether all pairs are the same, or tells that they are not. -/
theorem exists_examine_iff {a b : Inner} {pairs : List (Inner × Inner)} :
    (∃ qs, examine a b pairs = some qs ∧ AllSame qs) ↔ a = b ∧ AllSame pairs := by
  obtain ⟨k, s, cs⟩ := a
  obtain ⟨l, t, ds⟩ := b
  unfold examine
  split
  · rename_i h
    obtain ⟨rfl, rfl, hlen⟩ := h
    rw [exists_matchUp_iff hlen]
    simp
  · rename_i h
    simp only [reduceCtorEq, false_and, exists_false, Inner.mk.injEq, false_iff]
    rintro ⟨⟨rfl, rfl, rfl⟩, -⟩
    exact h ⟨rfl, rfl, rfl⟩

theorem sameAll_iff (ps : List (Inner × Inner)) : sameAll ps = true ↔ AllSame ps := by
  fun_induction sameAll ps with
  | case1 => simp
  | case2 a b rest pairs h ih =>
    rw [ih, allSame_cons, ← exists_examine_iff]
    simp [h]
  | case3 a b rest h =>
    rw [allSame_cons, ← exists_examine_iff]
    simp [h]

theorem same_iff (a b : Tree) : same a b = true ↔ a = b := by
  cases a <;> cases b <;> simp [same, sameAll_iff]

instance : DecidableEq Tree := fun a b => decidable_of_iff _ (same_iff a b)

end JavaSyntax.Tree
