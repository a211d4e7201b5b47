import JavaSyntax.Tree.Walk

/-!
# Walks and structure

A walk goes from event to event with a list of visits, and the symbolic expression is written
from its events with a mark for the first. Both are what recursion over the tree gives: the events
are those of the structure, the nodes entered and the tokens met are found among them in order,
and the text is that of a recursive rendering, whatever is empty and whatever the spans are.
-/

namespace JavaSyntax

namespace Tree

mutual

/-- The kind of a node and the renderings of its children in parentheses; the source text of a
leaf. -/
def rendering (source : List Char) : Tree → String
  | leaf _ s =>
    match Text.slice? source s with
    | some cs => String.ofList cs
    | none => "?"
  | node k _ cs => "(" ++ k.label ++ forestRendering source cs ++ ")"

/-- One blank before each tree. -/
def forestRendering (source : List Char) : Forest → String
  | [] => ""
  | t :: ts => " " ++ t.rendering source ++ forestRendering source ts

end

variable {source : List Char}

theorem rendering_leaf (k : TokenKind) (s : Span) :
    (leaf k s).rendering source = Text.sliceOr "?" source s := by
  rw [rendering, Text.sliceOr]
  cases Text.slice? source s <;> rfl

mutual

/-- Behind other text, the events of a tree write a blank and the tree. -/
theorem foldl_sexpStep (t : Tree) (text : String) :
    t.events.foldl (sexpStep source) ⟨text, false⟩ =
      ⟨text ++ " " ++ t.rendering source, false⟩ := by
  cases t with
  | leaf k s => simp [events, sexpStep, rendering_leaf]
  | node k s cs =>
    rw [events, List.foldl_cons, List.foldl_append]
    simp only [sexpStep, nodeKind?, Option.elim_some, Bool.false_eq_true, if_false]
    rw [foldl_sexpStep_forest cs, List.foldl_cons, List.foldl_nil, sexpStep, rendering]
    simp only [String.append_assoc]

theorem foldl_sexpStep_forest (ts : Forest) (text : String) :
    (forestEvents ts).foldl (sexpStep source) ⟨text, false⟩ =
      ⟨text ++ forestRendering source ts, false⟩ := by
  cases ts with
  | nil => simp [forestEvents, forestRendering]
  | cons t ts =>
    rw [forestEvents, List.foldl_append, foldl_sexpStep t, foldl_sexpStep_forest ts,
      forestRendering]
    simp only [String.append_assoc]

end

theorem sexp_node (k : NodeKind) (s : Span) (cs : Forest) (source : String) :
    (node k s cs).sexp source = (node k s cs).rendering source.toList := by
  rw [sexp, preorder_eq, events, List.foldl_cons, List.foldl_append]
  simp only [sexpStep, nodeKind?, Option.elim_some, if_true]
  rw [foldl_sexpStep_forest, List.foldl_cons, List.foldl_nil, sexpStep, rendering]
  simp

/-- The walk over a node is the recursion over its structure: it enters the node, goes through the
events of each child in order, and leaves the node. The nodes and the tokens of the tree are those
of the events, in their order, and the symbolic expression is the recursive rendering. -/
theorem walk_node (k : NodeKind) (s : Span) (cs : Forest) (source : String) :
    let t := node k s cs
    t.preorder = t.events ∧
      t.nodes = t.events.filterMap Event.node? ∧
      t.tokens = t.events.filterMap Event.entry? ∧
      t.sexp source = t.rendering source.toList := by
  intro t
  refine ⟨t.preorder_eq, t.nodes_eq, ?_, sexp_node k s cs source⟩
  rw [tokens, preorder_eq]

end Tree
end JavaSyntax
