import JavaSyntax.Text.Span

/-!
# Byte offsets in a text

A text is a list of characters, and offsets count the bytes of its UTF-8 form. A span has a
slice only if both its ends lie where a character starts or the text stops.
-/

namespace JavaSyntax.Text

/-- The bytes that UTF-8 spends on the characters. -/
def byteLength (cs : List Char) : Nat := cs.foldl (fun n c => n + c.utf8Size) 0

def dropBytes? : Nat → List Char → Option (List Char)
  | 0, cs => some cs
  | _ + 1, [] => none
  | n + 1, c :: cs =>
    if c.utf8Size ≤ n + 1 then dropBytes? (n + 1 - c.utf8Size) cs else none

def takeBytes? : Nat → List Char → Option (List Char)
  | 0, _ => some []
  | _ + 1, [] => none
  | n + 1, c :: cs =>
    if c.utf8Size ≤ n + 1 then (takeBytes? (n + 1 - c.utf8Size) cs).map (c :: ·) else none

def slice? (cs : List Char) (s : Span) : Option (List Char) :=
  if s.start ≤ s.stop then (dropBytes? s.start cs).bind (takeBytes? (s.stop - s.start))
  else none

/-- The slice as a string, `missing` where there is none. -/
def sliceOr (missing : String) (cs : List Char) (s : Span) : String :=
  ((slice? cs s).map String.ofList).getD missing

@[simp] theorem byteLength_nil : byteLength [] = 0 := rfl

theorem foldl_utf8Size (cs : List Char) (n : Nat) :
    cs.foldl (fun n c => n + c.utf8Size) n = n + byteLength cs := by
  unfold byteLength
  induction cs generalizing n with
  | nil => rfl
  | cons c cs ih => rw [List.foldl_cons, List.foldl_cons, ih, ih (0 + _)]; omega

@[simp] theorem byteLength_cons (c : Char) (cs : List Char) :
    byteLength (c :: cs) = c.utf8Size + byteLength cs := by
  rw [byteLength, List.foldl_cons, foldl_utf8Size, Nat.zero_add]

@[simp] theorem byteLength_append (as bs : List Char) :
    byteLength (as ++ bs) = byteLength as + byteLength bs := by
  induction as with
  | nil => simp
  | cons a as ih => rw [List.cons_append, byteLength_cons, byteLength_cons, ih]; omega

theorem length_le_byteLength (cs : List Char) : cs.length ≤ byteLength cs := by
  induction cs with
  | nil => exact Nat.le_refl 0
  | cons c cs ih =>
    have hc := Char.utf8Size_pos c
    rw [List.length_cons, byteLength_cons]
    omega

theorem byteLength_pos {cs : List Char} (h : cs ≠ []) : 0 < byteLength cs :=
  Nat.lt_of_lt_of_le (List.length_pos_iff.2 h) (length_le_byteLength cs)

@[simp] theorem dropBytes?_zero (cs : List Char) : dropBytes? 0 cs = some cs := by
  unfold dropBytes?; rfl

@[simp] theorem takeBytes?_zero (cs : List Char) : takeBytes? 0 cs = some [] := by
  unfold takeBytes?; rfl

theorem dropBytes?_append (as bs : List Char) :
    dropBytes? (byteLength as) (as ++ bs) = some bs := by
  induction as with
  | nil => simp
  | cons a as ih =>
    have ha := Char.utf8Size_pos a
    rw [byteLength_cons, show a.utf8Size + byteLength as
      = a.utf8Size + byteLength as - 1 + 1 by omega, List.cons_append, dropBytes?,
      if_pos (by omega)]
    rw [show a.utf8Size + byteLength as - 1 + 1 - a.utf8Size = byteLength as by omega, ih]

theorem takeBytes?_append (as bs : List Char) :
    takeBytes? (byteLength as) (as ++ bs) = some as := by
  induction as with
  | nil => simp
  | cons a as ih =>
    have ha := Char.utf8Size_pos a
    rw [byteLength_cons, show a.utf8Size + byteLength as
      = a.utf8Size + byteLength as - 1 + 1 by omega, List.cons_append, takeBytes?,
      if_pos (by omega)]
    rw [show a.utf8Size + byteLength as - 1 + 1 - a.utf8Size = byteLength as by omega, ih]
    rfl

/-- The slice between two offsets that split the text is what lies between them. -/
theorem slice?_append (before inside after : List Char) :
    slice? (before ++ inside ++ after)
      ⟨byteLength before, byteLength before + byteLength inside⟩ = some inside := by
  rw [slice?, if_pos (Nat.le_add_right _ _), List.append_assoc, dropBytes?_append,
    Option.bind_some, show byteLength before + byteLength inside - byteLength before
      = byteLength inside by omega, takeBytes?_append]

end JavaSyntax.Text
