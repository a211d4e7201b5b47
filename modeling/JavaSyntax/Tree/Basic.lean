import JavaSyntax.Token.List
import JavaSyntax.Tree.Kind

/-!
# Concrete syntax trees

A leaf is a consumed token and an inner node has a kind, a span and children in source order.
-/

namespace JavaSyntax

inductive Tree where
  | leaf (kind : TokenKind) (span : Span)
  | node (kind : NodeKind) (span : Span) (children : List Tree)
  deriving Repr, Inhabited

/-- Trees side by side. -/
abbrev Forest := List Tree

namespace Tree

def span : Tree → Span
  | leaf _ s => s
  | node _ s _ => s

def children : Tree → Forest
  | leaf .. => []
  | node _ _ cs => cs

def nodeKind? : Tree → Option NodeKind
  | leaf .. => none
  | node k .. => some k

def tokenKind? : Tree → Option TokenKind
  | leaf k _ => some k
  | node .. => none

def childNodes (t : Tree) : Forest := t.children.filter fun c => c.nodeKind?.isSome

def childTokens (t : Tree) : Forest := t.children.filter fun c => c.tokenKind?.isSome

def findChild? (t : Tree) (k : NodeKind) : Option Tree :=
  t.children.find? fun c => c.nodeKind? == some k

def hasToken (t : Tree) (k : TokenKind) : Bool :=
  t.children.any fun c => c.tokenKind? == some k

def isEmpty (t : Tree) : Bool := t.span.isEmpty

def text (t : Tree) (source : String) : String := Text.sliceOr "" source.toList t.span

mutual

def leaves : Tree → List (TokenKind × Span)
  | leaf k s => [(k, s)]
  | node _ _ cs => forestLeaves cs

def forestLeaves : Forest → List (TokenKind × Span)
  | [] => []
  | t :: ts => t.leaves ++ forestLeaves ts

end

mutual

def size : Tree → Nat
  | leaf .. => 1
  | node _ _ cs => forestSize cs + 1

def forestSize : Forest → Nat
  | [] => 0
  | t :: ts => t.size + forestSize ts

end

mutual

/-- The number of nodes on the longest way down, leaves not counted. -/
def depth : Tree → Nat
  | leaf .. => 0
  | node _ _ cs => forestDepth cs + 1

def forestDepth : Forest → Nat
  | [] => 0
  | t :: ts => max t.depth (forestDepth ts)

end

@[simp] theorem forestLeaves_append (as bs : Forest) :
    forestLeaves (as ++ bs) = forestLeaves as ++ forestLeaves bs := by
  induction as with
  | nil => rfl
  | cons a as ih => simp [forestLeaves, ih]

@[simp] theorem forestSize_append (as bs : Forest) :
    forestSize (as ++ bs) = forestSize as + forestSize bs := by
  induction as with
  | nil => simp [forestSize]
  | cons a as ih => simp [forestSize, ih, Nat.add_assoc]

end Tree
end JavaSyntax
