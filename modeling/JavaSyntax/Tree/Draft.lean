import JavaSyntax.Tree.Basic

/-!
# Drafts of nodes

A draft collects the children of a node whose kind may still be open. The span of the finished
node covers its leaves and the inner nodes that are not empty; where there are none, it is the
point at which the draft was started.
-/

namespace JavaSyntax

namespace Tree

/-- The child counts for the span of its parent. -/
def contributes : Tree → Bool
  | leaf .. => true
  | node _ s _ => !s.isEmpty

/-- The span of a node with the given children, started at `start`. -/
def extent (start : Nat) (children : Forest) : Span :=
  match (children.filter contributes).map span with
  | [] => Span.point start
  | s :: ss => ss.foldl Span.cover s

def build (kind : NodeKind) (start : Nat) (children : Forest) : Tree :=
  node kind (extent start children) children

end Tree

/-- The children are held latest first. -/
structure Draft where
  start : Nat
  items : Forest := []
  deriving Inhabited

namespace Draft

def push (d : Draft) (t : Tree) : Draft := { d with items := t :: d.items }

/-- All of another draft's children, after the ones at hand. -/
def adopt (d inner : Draft) : Draft := { d with items := inner.items ++ d.items }

def forest (d : Draft) : Forest := d.items.reverse

def lastIs (d : Draft) (kinds : List NodeKind) : Bool :=
  match d.items.head?.bind Tree.nodeKind? with
  | some k => kinds.contains k
  | none => false

/-- The latest child has a leaf of the kind among its own children. -/
def lastHas (d : Draft) (k : TokenKind) : Bool :=
  match d.items.head? with
  | some t => t.hasToken k
  | none => false

/-- Makes all children one node that starts where the draft does. -/
def close (d : Draft) (kind : NodeKind) : Draft :=
  { d with items := [Tree.build kind d.start d.forest] }

/-- Makes all children one node that starts where the first of them does. -/
def wrap (d : Draft) (kind : NodeKind) : Draft :=
  let start := match d.items.getLast? with
    | some first => first.span.start
    | none => d.start
  { d with items := [Tree.build kind start d.forest] }

@[simp] theorem forest_push (d : Draft) (t : Tree) : (d.push t).forest = d.forest ++ [t] := by
  simp [push, forest]

@[simp] theorem forest_adopt (d inner : Draft) :
    (d.adopt inner).forest = d.forest ++ inner.forest := by
  simp [adopt, forest]

theorem leaves_close (d : Draft) (kind : NodeKind) :
    Tree.forestLeaves (d.close kind).forest = Tree.forestLeaves d.forest := by
  simp [close, forest, Tree.forestLeaves, Tree.leaves, Tree.build]

theorem leaves_wrap (d : Draft) (kind : NodeKind) :
    Tree.forestLeaves (d.wrap kind).forest = Tree.forestLeaves d.forest := by
  simp [wrap, forest, Tree.forestLeaves, Tree.leaves, Tree.build]

end Draft

/-- A draft together with the kind that it is meant for. -/
structure NodeBuilder where
  kind : NodeKind
  draft : Draft

namespace NodeBuilder

def new (kind : NodeKind) (start : Nat) : NodeBuilder := ⟨kind, { start }⟩

/-- A builder whose first child is a finished tree, and which starts where that does. -/
def wrapping (kind : NodeKind) (first : Tree) : NodeBuilder :=
  ⟨kind, ⟨first.span.start, [first]⟩⟩

def setKind (b : NodeBuilder) (kind : NodeKind) : NodeBuilder := { b with kind }

def push (b : NodeBuilder) (t : Tree) : NodeBuilder := { b with draft := b.draft.push t }

def isEmpty (b : NodeBuilder) : Bool := b.draft.items.isEmpty

def finish (b : NodeBuilder) : Tree := Tree.build b.kind b.draft.start b.draft.forest

end NodeBuilder
end JavaSyntax
