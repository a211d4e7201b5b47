/-!
# Regular expressions

Patterns over characters, run by derivatives: the derivative by a character matches what may
follow it.
-/

namespace JavaSyntax

/-- The characters in some range, or those in none of them. -/
structure CharClass where
  ranges : List (Char × Char)
  negated : Bool := false
  deriving DecidableEq, Repr

namespace CharClass

def contains (s : CharClass) (c : Char) : Bool :=
  (s.ranges.any fun r => r.1 ≤ c && c ≤ r.2) != s.negated

end CharClass

inductive Regex where
  | empty
  | epsilon
  | one (s : CharClass)
  | alt (a b : Regex)
  | seq (a b : Regex)
  | star (a : Regex)
  deriving DecidableEq, Repr

namespace Regex

/-- A text that the expression stands for. -/
inductive Matches : Regex → List Char → Prop where
  | epsilon : Matches epsilon []
  | one {s : CharClass} {c : Char} : s.contains c = true → Matches (one s) [c]
  | altLeft {a b : Regex} {w : List Char} : Matches a w → Matches (alt a b) w
  | altRight {a b : Regex} {w : List Char} : Matches b w → Matches (alt a b) w
  | seq {a b : Regex} {v w : List Char} : Matches a v → Matches b w → Matches (seq a b) (v ++ w)
  | starNil {a : Regex} : Matches (star a) []
  | starCons {a : Regex} {v w : List Char} :
    Matches a v → Matches (star a) w → Matches (star a) (v ++ w)

def ofRanges (ranges : List (Char × Char)) : Regex := one { ranges }

def oneOf (cs : List Char) : Regex := ofRanges (cs.map fun c => (c, c))

def noneOf (cs : List Char) : Regex := one { ranges := cs.map fun c => (c, c), negated := true }

def plus (a : Regex) : Regex := seq a (star a)

def opt (a : Regex) : Regex := alt epsilon a

def concat : List Regex → Regex
  | [] => epsilon
  | [a] => a
  | a :: as => seq a (concat as)

def either : List Regex → Regex
  | [] => empty
  | [a] => a
  | a :: as => alt a (either as)

def literally (text : String) : Regex := concat (text.toList.map fun c => oneOf [c])

def nullable : Regex → Bool
  | empty => false
  | epsilon => true
  | one _ => false
  | alt a b => a.nullable || b.nullable
  | seq a b => a.nullable && b.nullable
  | star _ => true

/-- An alternative without parts that cannot match or that repeat the last one. -/
def join (a b : Regex) : Regex :=
  match a, b with
  | empty, b => b
  | a, empty => a
  | alt a b', b => if b' = b then alt a b else alt (alt a b') b
  | a, b => if a = b then a else alt a b

/-- A sequence, simplified where its first part matches nothing or only the empty text. -/
def chain (a b : Regex) : Regex :=
  match a with
  | empty => empty
  | epsilon => b
  | a => seq a b

/-- What may follow the character. -/
def derive (c : Char) : Regex → Regex
  | empty => empty
  | epsilon => empty
  | one s => if s.contains c then epsilon else empty
  | alt a b => join (a.derive c) (b.derive c)
  | seq a b =>
    if a.nullable then join (chain (a.derive c) b) (b.derive c) else chain (a.derive c) b
  | star a => chain (a.derive c) (star a)

/-- The longest accepted length, given the best so far and the count of characters read. -/
def longestFrom (count : Nat) (best : Option Nat) (r : Regex) : List Char → Option Nat
  | [] => if r.nullable then some count else best
  | c :: cs =>
    let best := if r.nullable then some count else best
    if r = empty then best else longestFrom (count + 1) best (r.derive c) cs

def longest? (r : Regex) (cs : List Char) : Option Nat := longestFrom 0 none r cs

end Regex
end JavaSyntax
