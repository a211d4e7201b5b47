import JavaSyntax.Proofs.Nodes
import JavaSyntax.Proofs.Placement

/-!
# Last children

A node whose last child has no leaves would stop before that child does. Only modifiers may have
no leaves, and something is always read behind them.
-/

namespace JavaSyntax

/-- What the latest child of a draft is. -/
inductive Tail where
  | none
  | filled
  /-- A node without leaves. -/
  | hollow
  deriving DecidableEq, Repr

namespace Draft

def tail (d : Draft) : Tail :=
  match d.items.head? with
  | some t => if t.leaves = [] then .hollow else .filled
  | none => .none

variable {d e : Draft}

theorem tail_adopt (d e : Draft) :
    (d.adopt e).tail = if e.tail = .none then d.tail else e.tail := by
  cases he : e.items with
  | nil => simp [tail, adopt, he]
  | cons t ts =>
    by_cases ht : t.leaves = [] <;> simp [tail, adopt, he, ht]

theorem leaves_eq_nil_of_tail (h : d.tail = .none) : Tree.forestLeaves d.forest = [] := by
  cases hd : d.items with
  | nil => simp [forest, hd, Tree.forestLeaves]
  | cons t ts => by_cases ht : t.leaves = [] <;> simp [tail, hd, ht] at h

theorem leaves_ne_nil_of_tail (h : d.tail = .filled) : Tree.forestLeaves d.forest ≠ [] := by
  cases hd : d.items with
  | nil => simp [tail, hd] at h
  | cons t ts =>
    by_cases ht : t.leaves = []
    · simp [tail, hd, ht] at h
    · simp [forest, hd, Tree.forestLeaves, ht]

theorem tail_build (h : d.tail ≠ .hollow) (start start' : Nat) (kind : NodeKind) :
    ({ start, items := [Tree.build kind start' d.forest] } : Draft).tail =
      if d.tail = .none then .hollow else .filled := by
  have hleaves : (Tree.build kind start' d.forest).leaves = Tree.forestLeaves d.forest := rfl
  cases ht : d.tail with
  | none => simp [tail, hleaves, leaves_eq_nil_of_tail ht]
  | filled => simp [tail, hleaves, leaves_ne_nil_of_tail ht]
  | hollow => exact absurd ht h

end Draft

/-- The last child of the node has leaves, if there is one. -/
def Tree.Trim (n : Tree) : Prop := ∀ c, n.children.getLast? = some c → c.leaves ≠ []

theorem Draft.trim_build {d : Draft} (h : d.tail ≠ .hollow) (kind : NodeKind) (start : Nat) :
    (Tree.build kind start d.forest).Trim := by
  intro c hc hleaves
  have hc : d.items.head? = some c := by
    rw [← hc]
    simp [Tree.build, Tree.children, Draft.forest]
  exact h (by simp [Draft.tail, hc, hleaves])

/-- What the latest child may be behind a rule. -/
def Rule.behind : Rule → List Tail
  | modifiers | variableModifiers | compilationUnit => [.filled, .hollow]
  | _ => [.filled]

/-- The rule may be called on a draft with such a child: those that make a node of all that has
been read, and those that put a member into a body, behind any. -/
def Rule.follows (r : Rule) (x : Tail) : Bool := x == .none || r.folds || !r.closes

/-- What the latest child may be behind a command. -/
def Cmd.behind : Cmd → Tail → List Tail
  | skip, x => [x]
  | shift, _ => [.filled]
  | fail _ _, _ => []
  | seq a b, x => (a.behind x).eraseDups.flatMap b.behind
  | ite _ a b, x => a.behind x ++ b.behind x
  | loop _ body, x =>
    if [x, .filled].all fun y => (body.behind y).all [x, .filled].contains then [x, .filled]
    else [.none, .filled, .hollow]
  | nest body, x => (body.behind .none).map fun y => if y = .none then x else y
  | jump r, _ => r.behind
  | dispatch t, _ => t.rules.flatMap Rule.behind
  | close _, x | wrap _, x => [if x = .none then .hollow else .filled]

/-- No node is made whose last child has no leaves. -/
def Cmd.trims : Cmd → Tail → Bool
  | seq a b, x => a.trims x && (a.behind x).eraseDups.all b.trims
  | ite _ a b, x => a.trims x && b.trims x
  | loop g body, x => ((loop g body).behind x).all body.trims
  | nest body, _ => body.trims .none
  | jump r, x => r.follows x
  | dispatch t, x => t.rules.all (·.follows x)
  | close _, x | wrap _, x => x != .hollow
  | _, _ => true

def Rule.trims (r : Rule) : Bool :=
  [Tail.none, .filled, .hollow].all fun x =>
    !r.follows x || r.body.trims x && (r.body.behind x).all r.behind.contains

theorem Rule.trims_all (r : Rule) : r.trims = true := by
  revert r
  decide

section
variable {s : TokenStream} {strict : Bool} {calls : Rule → Place → Ending → Prop} {c : Cmd}
  {r : Rule} {p q : Place}

/-- The rule makes no node whose last child has no leaves, where it may be called. -/
def Rule.Trims (r : Rule) (p : Place) (o : Ending) : Prop :=
  ∀ q, o = .done q → r.follows p.draft.tail = true →
    q.draft.tail ∈ r.behind ∧ (p.draft.Each Tree.Trim → q.draft.Each Tree.Trim)

/-- What may be behind a loop is kept by its passes. -/
theorem Cmd.behind_loop (g : Guard) (body : Cmd) (x : Tail) :
    x ∈ (loop g body).behind x ∧
      ∀ y ∈ (loop g body).behind x, ∀ z ∈ body.behind y, z ∈ (loop g body).behind x := by
  have hall (z : Tail) : z ∈ [Tail.none, .filled, .hollow] := by cases z <;> decide
  rw [behind]
  split
  · rename_i hclosed
    refine ⟨List.mem_cons_self, fun y hy z hz => ?_⟩
    exact List.contains_iff_mem.1 (List.all_eq_true.1 (List.all_eq_true.1 hclosed y hy) z hz)
  · exact ⟨hall x, fun _ _ z _ => hall z⟩

theorem Cmd.Ends.trims (hcalls : ∀ r p o, calls r p o → r.Trims p o)
    (h : Cmd.Ends s strict calls c p (.done q)) (hc : c.trims p.draft.tail = true) :
    q.draft.tail ∈ c.behind p.draft.tail ∧
      (p.draft.Each Tree.Trim → q.draft.Each Tree.Trim) := by
  induction c generalizing p q with
  | skip =>
    cases h
    exact ⟨List.mem_singleton_self _, id⟩
  | shift =>
    cases h
    exact ⟨List.mem_singleton_self _, fun hp => hp.push (Tree.each_leaf _ _)⟩
  | fail => cases h
  | seq a b iha ihb =>
    rw [Cmd.trims, Bool.and_eq_true] at hc
    obtain ⟨m, ha, hb⟩ := h.seq_done
    obtain ⟨hm, hkeep⟩ := iha ha hc.1
    have hm := List.mem_eraseDups.2 hm
    obtain ⟨hq, hkeep'⟩ := ihb hb (List.all_eq_true.1 hc.2 _ hm)
    exact ⟨List.mem_flatMap.2 ⟨_, hm, hq⟩, hkeep' ∘ hkeep⟩
  | ite g a b iha ihb =>
    rw [Cmd.trims, Bool.and_eq_true] at hc
    obtain ⟨answer, -, h⟩ := h.ite_done
    cases answer with
    | true => exact (iha h hc.1).imp_left (List.mem_append_left _)
    | false => exact (ihb h hc.2).imp_left (List.mem_append_right _)
  | loop g body ih =>
    obtain ⟨hstart, hpass⟩ := Cmd.behind_loop g body p.draft.tail
    refine (h.loop_done (I := fun m => m.draft.tail ∈ (Cmd.loop g body).behind p.draft.tail ∧
      (p.draft.Each Tree.Trim → m.draft.Each Tree.Trim)) ?_ ⟨hstart, id⟩).1
    intro m m' hm _ hbody
    obtain ⟨hm', hkeep⟩ := ih hbody (List.all_eq_true.1 hc _ hm.1)
    exact ⟨hpass _ hm.1 _ hm', hkeep ∘ hm.2⟩
  | nest body ih =>
    cases h with
    | @nest _ _ m h =>
      obtain ⟨hm, hkeep⟩ := ih h hc
      refine ⟨?_, fun hp => hp.adopt (hkeep (Draft.each_empty _))⟩
      rw [Draft.tail_adopt]
      exact List.mem_map.2 ⟨_, hm, rfl⟩
  | jump r =>
    cases h with
    | jump h => exact hcalls _ _ _ h q rfl hc
  | dispatch t =>
    cases h with
    | @dispatch _ r _ _ ht h =>
      have hr := Table.mem_rules_of_decide ht
      obtain ⟨hq, hkeep⟩ := hcalls _ _ _ h q rfl (List.all_eq_true.1 hc r hr)
      exact ⟨List.mem_flatMap.2 ⟨r, hr, hq⟩, hkeep⟩
  | close kind =>
    cases h
    have htail : p.draft.tail ≠ .hollow := by simpa [Cmd.trims] using hc
    refine ⟨?_, fun hp => hp.close (Draft.trim_build htail _ _)⟩
    rw [Draft.close, Draft.tail_build htail]
    exact List.mem_singleton_self _
  | wrap kind =>
    cases h
    have htail : p.draft.tail ≠ .hollow := by simpa [Cmd.trims] using hc
    refine ⟨?_, fun hp => hp.wrap fun start => Draft.trim_build htail _ start⟩
    rw [Draft.wrap, Draft.tail_build htail]
    exact List.mem_singleton_self _

theorem Rule.Ends.trims {o : Ending} (h : Rule.Ends s strict r p o) : r.Trims p o := by
  refine h.induct ?_
  rintro r p _ h q rfl hfollows
  have hr := r.trims_all
  have hmem : p.draft.tail ∈ [Tail.none, .filled, .hollow] := by
    cases p.draft.tail <;> decide
  have hbody := List.all_eq_true.1 hr _ hmem
  rw [hfollows, Bool.not_true, Bool.false_or, Bool.and_eq_true] at hbody
  obtain ⟨hq, hkeep⟩ := h.trims (fun _ _ _ h => h.2) hbody.1
  exact ⟨List.contains_iff_mem.1 (List.all_eq_true.1 hbody.2 _ hq), hkeep⟩

end

/-- No node of a parsed tree ends with a child without leaves. -/
theorem parse_trim {ts : TokenList} {options : ParseOptions} {e : Entry} {t : Tree}
    (h : parse e ts options = .ok t) : t.Each Tree.Trim := by
  obtain ⟨q, hends, hq⟩ := parse_ends h
  exact (hends.trims q rfl rfl).2 (Draft.each_empty _) t (by simp [hq])

end JavaSyntax
