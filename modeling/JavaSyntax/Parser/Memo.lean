import JavaSyntax.Grammar.Probe
import JavaSyntax.Stream.Basic
import Std.Data.TreeMap

/-!
# Prediction memo

What probes have found out, each once for a token index, and the range of tokens that cannot
hold type arguments before a method reference.
-/

namespace JavaSyntax

structure ProbeResult where
  accepted : Bool
  stop : Nat
  deriving DecidableEq, Repr, Inhabited

structure PredictionMemo where
  results : Std.TreeMap Nat ProbeResult := ∅
  hits : Nat := 0
  /-- A scan from the first index was blocked at the second one. -/
  deadEnd : Nat × Nat := (0, 0)

namespace PredictionMemo

/-- One number for a probe and an index. -/
def key (p : Probe) (index : Nat) : Nat := 8 * index + p.index

theorem key_injective {p q : Probe} {i j : Nat} (h : key p i = key q j) : p = q ∧ i = j := by
  have hp := p.index_lt
  have hq := q.index_lt
  simp only [key] at h
  exact ⟨Probe.index_injective (by omega), by omega⟩

def find? (m : PredictionMemo) (p : Probe) (index : Nat) : Option ProbeResult :=
  m.results[key p index]?

/-- Looks a result up and counts it if there is one. -/
def get (m : PredictionMemo) (p : Probe) (index : Nat) : Option ProbeResult × PredictionMemo :=
  match m.find? p index with
  | some r => (some r, { m with hits := m.hits + 1 })
  | none => (none, m)

def insert (m : PredictionMemo) (p : Probe) (index : Nat) (r : ProbeResult) : PredictionMemo :=
  { m with results := m.results.insert (key p index) r }

def size (m : PredictionMemo) : Nat := m.results.size

def isEmpty (m : PredictionMemo) : Bool := m.results.isEmpty

def clear (_ : PredictionMemo) : PredictionMemo := {}

/-- Whether the bracket at an index may open type arguments before a method reference. A scan
that was blocked is remembered: one that starts on its way is blocked at the same token. -/
def mayBeTypePrefix (m : PredictionMemo) (s : TokenStream) (index : Nat) :
    Bool × PredictionMemo :=
  if m.deadEnd.1 ≤ index && index < m.deadEnd.2 then (false, m)
  else match s.scanTypePrefix index with
    | .mayBe => (true, m)
    | .cannot => (false, m)
    | .blocked stop => (false, { m with deadEnd := (index, stop) })

theorem find?_insert (m : PredictionMemo) (p q : Probe) (i j : Nat) (r : ProbeResult) :
    (m.insert p i r).find? q j = if p = q ∧ i = j then some r else m.find? q j := by
  simp only [find?, insert, Std.TreeMap.getElem?_insert, Nat.compare_eq_eq]
  by_cases h : key p i = key q j
  · rw [if_pos h, if_pos (key_injective h)]
  · rw [if_neg h, if_neg]
    rintro ⟨rfl, rfl⟩
    exact h rfl

end PredictionMemo
end JavaSyntax
