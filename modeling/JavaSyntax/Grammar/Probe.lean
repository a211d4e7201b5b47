/-!
# Probes

The questions that fixed lookahead cannot answer. Each is answered by trying a fragment of the
grammar and going back.
-/

namespace JavaSyntax

inductive Probe where
  /-- Modifiers, a type and a name: a local variable. -/
  | localVariable
  /-- Modifiers and `class`. -/
  | localClass
  /-- A type in parentheses before an operand. -/
  | referenceCast
  /-- The head of a loop over a collection. -/
  | enhancedFor
  /-- A type before `::`. -/
  | genericMethodRef
  /-- Annotations before `package`. -/
  | annotatedPackage
  /-- A qualified `super` call at the start of a constructor. -/
  | explicitConstructor
  /-- Annotations before `[ ]`. -/
  | annotatedDims
  deriving DecidableEq, Repr, Inhabited

namespace Probe

def all : List Probe :=
  [.localVariable, .localClass, .referenceCast, .enhancedFor, .genericMethodRef,
    .annotatedPackage, .explicitConstructor, .annotatedDims]

def index (p : Probe) : Nat := p.ctorIdx

theorem getElem?_index (p : Probe) : all[p.index]? = some p := by cases p <;> rfl

theorem mem_all (p : Probe) : p ∈ all := List.mem_of_getElem? p.getElem?_index

theorem index_lt (p : Probe) : p.index < 8 :=
  (List.getElem?_eq_some_iff.1 p.getElem?_index).1

theorem index_injective {p q : Probe} (h : p.index = q.index) : p = q := by
  have hq := q.getElem?_index
  rw [← h, p.getElem?_index] at hq
  exact Option.some.inj hq

end Probe
end JavaSyntax
