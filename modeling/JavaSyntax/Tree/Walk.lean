import JavaSyntax.Tree.Basic

/-!
# Walks

The preorder of a tree as a list of events, and the symbolic expression written from it. A walk
holds the nodes that it is in, each with the children that come next, and so needs no deep
recursion on a deep tree. `Tree.preorder_eq` says that it runs through the events of the
structure.
-/

namespace JavaSyntax

inductive Event where
  | enter (node : Tree)
  | token (kind : TokenKind) (span : Span)
  | leave (node : Tree)
  deriving Inhabited

namespace Event

def node? : Event → Option Tree
  | enter n => some n
  | _ => none

def entry? : Event → Option (TokenKind × Span)
  | token k s => some (k, s)
  | _ => none

end Event

/-- A node that a walk is in, and the children that it has still to come to. -/
structure Visit where
  node : Tree
  rest : Forest
  suffix : rest <:+ node.children

namespace Tree

mutual

/-- The events of a tree, read off its structure. -/
def events : Tree → List Event
  | leaf k s => [.token k s]
  | node k s cs => .enter (node k s cs) :: (forestEvents cs ++ [.leave (node k s cs)])

def forestEvents : Forest → List Event
  | [] => []
  | t :: ts => t.events ++ forestEvents ts

end

end Tree

namespace Visit

/-- At least as many as the events that are left of the visits. -/
def pending : List Visit → Nat
  | [] => 0
  | v :: visits => 2 * Tree.forestSize v.rest + 1 + pending visits

/-- The events that are left of the visit. -/
def events (v : Visit) : List Event := Tree.forestEvents v.rest ++ [.leave v.node]

end Visit

structure Walker where
  /-- The tree that is walked, until the walk has come to it. -/
  root : Option Tree
  /-- The nodes that the walk is in, innermost first. -/
  visits : List Visit

namespace Walker

def start (t : Tree) : Walker := ⟨some t, []⟩

/-- Comes to a tree from within the nodes that are visited. -/
def meet (visits : List Visit) : Tree → Event × Walker
  | .leaf k s => (.token k s, ⟨none, visits⟩)
  | .node k s cs => (.enter (.node k s cs), ⟨none, ⟨.node k s cs, cs, List.suffix_rfl⟩ :: visits⟩)

/-- The next event, and the walk behind it. -/
def next (w : Walker) : Option (Event × Walker) :=
  match w.root, w.visits with
  | some t, visits => some (meet visits t)
  | none, [] => none
  | none, ⟨n, c :: rest, h⟩ :: visits =>
    some (meet (⟨n, rest, (List.suffix_cons c rest).trans h⟩ :: visits) c)
  | none, ⟨n, [], _⟩ :: visits => some (.leave n, ⟨none, visits⟩)

def pending (w : Walker) : Nat :=
  (w.root.elim 0 fun t => 2 * t.size) + Visit.pending w.visits

def events (w : Walker) : List Event :=
  w.root.elim [] Tree.events ++ w.visits.flatMap Visit.events

variable {w v : Walker} {visits : List Visit} {t n : Tree} {e : Event}

theorem pending_meet (visits : List Visit) (t : Tree) :
    (meet visits t).2.pending < 2 * t.size + Visit.pending visits := by
  cases t with
  | leaf => simp [meet, pending, Tree.size]
  | node => simp [meet, pending, Visit.pending, Tree.size]; omega

theorem events_meet (visits : List Visit) (t : Tree) :
    (meet visits t).1 :: (meet visits t).2.events = t.events ++ visits.flatMap Visit.events := by
  cases t with
  | leaf => simp [meet, events, Tree.events]
  | node => simp [meet, events, Visit.events, Tree.events]

theorem next_eq (w : Walker) :
    (w.next = none ∧ w.events = []) ∨
      ∃ e v, w.next = some (e, v) ∧ w.events = e :: v.events ∧ v.pending < w.pending := by
  match w with
  | ⟨some t, visits⟩ =>
    exact .inr ⟨_, _, rfl, (events_meet visits t).symm, pending_meet visits t⟩
  | ⟨none, []⟩ => exact .inl ⟨rfl, rfl⟩
  | ⟨none, ⟨n, c :: rest, h⟩ :: visits⟩ =>
    let visits' : List Visit := ⟨n, rest, (List.suffix_cons c rest).trans h⟩ :: visits
    refine .inr ⟨(meet visits' c).1, (meet visits' c).2, rfl, ?_, ?_⟩
    · rw [events_meet]
      simp [events, Visit.events, Tree.forestEvents, visits']
    · have hlt := pending_meet visits' c
      simp only [pending, Option.elim_none, Visit.pending, Tree.forestSize, visits'] at hlt ⊢
      omega
  | ⟨none, ⟨n, [], _⟩ :: visits⟩ =>
    refine .inr ⟨_, _, rfl, ?_, ?_⟩
    · simp [events, Visit.events, Tree.forestEvents]
    · simp [pending, Visit.pending]

theorem events_of_next_eq_none (h : w.next = none) : w.events = [] := by
  obtain ⟨-, hevents⟩ | ⟨e, v, hnext, -⟩ := w.next_eq
  · exact hevents
  · cases h.symm.trans hnext

theorem events_of_next (h : w.next = some (e, v)) : w.events = e :: v.events := by
  obtain ⟨hnone, -⟩ | ⟨e', v', hnext, hevents, -⟩ := w.next_eq
  · cases h.symm.trans hnone
  · cases h.symm.trans hnext
    exact hevents

theorem pending_next (h : w.next = some (e, v)) : v.pending < w.pending := by
  obtain ⟨hnone, -⟩ | ⟨e', v', hnext, -, hlt⟩ := w.next_eq
  · cases h.symm.trans hnone
  · cases h.symm.trans hnext
    exact hlt

/-- The next node that is entered, and the walk behind that. -/
def nextNode (w : Walker) : Option (Tree × Walker) :=
  match _h : w.next with
  | none => none
  | some (e, v) =>
    match e.node? with
    | some n => some (n, v)
    | none => v.nextNode
  termination_by w.pending
  decreasing_by exact pending_next _h

theorem pending_nextNode (h : w.nextNode = some (n, v)) : v.pending < w.pending := by
  fun_induction nextNode w with
  | case1 => cases h
  | case2 w e u hnext m hm =>
    cases h
    exact pending_next hnext
  | case3 w e u hnext hm ih => exact Nat.lt_trans (ih h) (pending_next hnext)

theorem nodes_of_nextNode_eq_none (h : w.nextNode = none) :
    w.events.filterMap Event.node? = [] := by
  fun_induction nextNode w with
  | case1 w hnext => rw [events_of_next_eq_none hnext, List.filterMap_nil]
  | case2 => cases h
  | case3 w e u hnext hm ih =>
    rw [events_of_next hnext, List.filterMap_cons_none hm]
    exact ih h

theorem nodes_of_nextNode (h : w.nextNode = some (n, v)) :
    w.events.filterMap Event.node? = n :: v.events.filterMap Event.node? := by
  fun_induction nextNode w with
  | case1 => cases h
  | case2 w e u hnext m hm =>
    cases h
    rw [events_of_next hnext, List.filterMap_cons_some hm]
  | case3 w e u hnext hm ih =>
    rw [events_of_next hnext, List.filterMap_cons_none hm]
    exact ih h

section
variable {α : Type} {next : Walker → Option (α × Walker)}

/-- All that a walk comes to, where `next` tells the next thing. -/
def drain (next : Walker → Option (α × Walker))
    (hnext : ∀ {w a v}, next w = some (a, v) → v.pending < w.pending) (w : Walker)
    (found : Array α) : Array α :=
  match _h : next w with
  | none => found
  | some (a, v) => drain next hnext v (found.push a)
  termination_by w.pending
  decreasing_by exact hnext _h

/-- What is found is what is there to find at first. -/
theorem toList_drain {hnext : ∀ {w a v}, next w = some (a, v) → v.pending < w.pending}
    (view : Walker → List α) (hnone : ∀ {w}, next w = none → view w = [])
    (hsome : ∀ {w a v}, next w = some (a, v) → view w = a :: view v) (w : Walker)
    (found : Array α) : (drain next hnext w found).toList = found.toList ++ view w := by
  fun_induction drain next hnext w found with
  | case1 w found h => rw [hnone h, List.append_nil]
  | case2 w found a v h ih =>
    rw [ih, hsome h, Array.toList_push, List.append_assoc, List.singleton_append]

end
end Walker

namespace Tree

def preorder (t : Tree) : List Event :=
  (Walker.drain Walker.next Walker.pending_next (.start t) #[]).toList

def nodes (t : Tree) : Forest :=
  (Walker.drain Walker.nextNode Walker.pending_nextNode (.start t) #[]).toList

def tokens (t : Tree) : List (TokenKind × Span) := t.preorder.filterMap Event.entry?

/-- The deepest nesting of nodes that the events reach, counted from `level`. -/
def deepest (level best : Nat) : List Event → Nat
  | [] => best
  | .enter _ :: es => deepest (level + 1) (max best (level + 1)) es
  | .token .. :: es => deepest level best es
  | .leave _ :: es => deepest (level - 1) best es

/-- A symbolic expression as far as it has been written. -/
structure Sexp where
  text : String := ""
  /-- No node has been entered yet. -/
  first : Bool := true

/-- What an event adds to a symbolic expression, with tokens spelled from `source`. -/
def sexpStep (source : List Char) (out : Sexp) : Event → Sexp
  | .enter n =>
    let text := if out.first then out.text else out.text ++ " "
    ⟨text ++ "(" ++ n.nodeKind?.elim "" NodeKind.label, false⟩
  | .token _ s => { out with text := out.text ++ " " ++ Text.sliceOr "?" source s }
  | .leave _ => { out with text := out.text ++ ")" }

/-- The tree as a symbolic expression with its tokens spelled from the source, and a question
mark for a token that the source has no text for. -/
def sexp (t : Tree) (source : String) : String :=
  (t.preorder.foldl (sexpStep source.toList) {}).text

theorem events_start (t : Tree) : (Walker.start t).events = t.events := by
  simp [Walker.start, Walker.events]

theorem preorder_eq (t : Tree) : t.preorder = t.events := by
  rw [preorder, Walker.toList_drain Walker.events Walker.events_of_next_eq_none
    Walker.events_of_next, events_start]
  rfl

theorem nodes_eq (t : Tree) : t.nodes = t.events.filterMap Event.node? := by
  rw [nodes, Walker.toList_drain (fun w => w.events.filterMap Event.node?)
    Walker.nodes_of_nextNode_eq_none Walker.nodes_of_nextNode, events_start]
  rfl

end Tree
end JavaSyntax
