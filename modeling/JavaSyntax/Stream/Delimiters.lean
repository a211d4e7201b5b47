import JavaSyntax.Token.Kind

/-!
# Matching delimiters

One pass over the kinds pairs each closing delimiter with the innermost open one if it closes
that, and passes over it if not.
-/

namespace JavaSyntax.Delimiters

/-- Enters the pairs into the table. `waiting` holds the open delimiters, innermost first, each
with the kind that closes it. -/
def fill (index : Nat) (waiting : List (Nat × TokenKind)) (table : Array (Option Nat)) :
    List TokenKind → Array (Option Nat)
  | [] => table
  | k :: ks =>
    match k.closer? with
    | some closer => fill (index + 1) ((index, closer) :: waiting) table ks
    | none =>
      match waiting with
      | [] => fill (index + 1) [] table ks
      | (opener, closer) :: rest =>
        if closer = k then fill (index + 1) rest (table.setIfInBounds opener (some index)) ks
        else fill (index + 1) ((opener, closer) :: rest) table ks

/-- The index of the closing delimiter at the index of each opening one. -/
def table (kinds : List TokenKind) : Array (Option Nat) :=
  fill 0 [] (Array.replicate kinds.length none) kinds

end JavaSyntax.Delimiters
