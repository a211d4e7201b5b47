/-!
# Spans

Half-open byte ranges of a source text.
-/

namespace JavaSyntax

structure Span where
  start : Nat
  stop : Nat
  deriving DecidableEq, Repr, Inhabited

namespace Span

def point (offset : Nat) : Span := ⟨offset, offset⟩

def length (s : Span) : Nat := s.stop - s.start

def isEmpty (s : Span) : Bool := s.start == s.stop

def cover (a b : Span) : Span := ⟨min a.start b.start, max a.stop b.stop⟩

/-- The first span ends where the second one starts. -/
def touches (a b : Span) : Bool := a.stop == b.start

def order (a b : Span) : Ordering := (compare a.start b.start).then (compare a.stop b.stop)

instance : ToString Span := ⟨fun s => s!"{s.start}..{s.stop}"⟩

@[simp] theorem isEmpty_point (offset : Nat) : (point offset).isEmpty = true := by
  simp [point, isEmpty]

@[simp] theorem isEmpty_iff (s : Span) : s.isEmpty = true ↔ s.start = s.stop := by
  simp [isEmpty]

theorem cover_start_le (a b : Span) : (a.cover b).start ≤ a.start := Nat.min_le_left _ _

theorem le_cover_stop (a b : Span) : a.stop ≤ (a.cover b).stop := Nat.le_max_left _ _

theorem cover_assoc (a b c : Span) : (a.cover b).cover c = a.cover (b.cover c) := by
  simp only [cover, Span.mk.injEq]
  omega

end Span
end JavaSyntax
