import JavaSyntax.Proofs.Sessions
import JavaSyntax.Tree.Walk

/-!
# Laws of nodes

A property of nodes that only a few kinds can lack holds of all trees if the rules that make
those kinds of nodes establish it. All others keep it: they add tokens and join what they are
given.
-/

namespace JavaSyntax

namespace Tree

/-- All nodes of the tree have the property. -/
def Each (N : Tree → Prop) (t : Tree) : Prop := ∀ n ∈ t.nodes, N n

variable {N : Tree → Prop}

theorem mem_forestNodes {n : Tree} {ts : Forest} :
    n ∈ (forestEvents ts).filterMap Event.node? ↔ ∃ t ∈ ts, n ∈ t.nodes := by
  induction ts with
  | nil => simp [forestEvents]
  | cons t ts ih => simp [forestEvents, ih, nodes_eq]

theorem each_leaf (k : TokenKind) (s : Span) : (leaf k s).Each N := by
  intro n hn
  rw [nodes_eq] at hn
  cases hn

theorem each_node {k : NodeKind} {s : Span} {cs : Forest} (h : N (node k s cs))
    (hcs : ∀ t ∈ cs, t.Each N) : (node k s cs).Each N := by
  intro n hn
  rw [nodes_eq] at hn
  have hn : n ∈ node k s cs ::
      (forestEvents cs ++ [Event.leave (node k s cs)]).filterMap Event.node? := hn
  rw [List.filterMap_append] at hn
  rcases List.mem_cons.1 hn with rfl | hn
  · exact h
  · rcases List.mem_append.1 hn with hn | hn
    · obtain ⟨t, ht, hn⟩ := mem_forestNodes.1 hn
      exact hcs t ht n hn
    · cases hn

end Tree

namespace Draft

def Each (N : Tree → Prop) (d : Draft) : Prop := ∀ t ∈ d.items, t.Each N

variable {N : Tree → Prop} {d e : Draft} {kind : NodeKind}

theorem each_empty (start : Nat) : Each N { start } := by
  intro t ht
  cases ht

theorem Each.push (h : d.Each N) {t : Tree} (ht : t.Each N) : (d.push t).Each N := by
  intro u hu
  rcases List.mem_cons.1 hu with rfl | hu
  · exact ht
  · exact h u hu

theorem Each.adopt (h : d.Each N) (he : e.Each N) : (d.adopt e).Each N := by
  intro t ht
  rcases List.mem_append.1 ht with ht | ht
  · exact he t ht
  · exact h t ht

theorem Each.build (h : d.Each N) {start : Nat} (hn : N (Tree.build kind start d.forest)) :
    (Tree.build kind start d.forest).Each N := by
  refine Tree.each_node hn ?_
  intro t ht
  exact h t (List.mem_reverse.1 ht)

theorem Each.close (h : d.Each N) (hn : N (Tree.build kind d.start d.forest)) :
    (d.close kind).Each N := by
  intro t ht
  rw [List.mem_singleton.1 ht]
  exact h.build hn

theorem Each.wrap (h : d.Each N) (hn : ∀ start, N (Tree.build kind start d.forest)) :
    (d.wrap kind).Each N := by
  intro t ht
  rw [List.mem_singleton.1 ht]
  exact h.build (hn _)

end Draft

/-- A class of nodes, and the rules that make them. -/
structure Concern where
  concerns : NodeKind → Bool
  makes : Rule → Bool

/-- The command makes no node that is of concern, and calls the rules that do only on drafts of
their own. -/
def Cmd.spares (c : Concern) : Cmd → Bool
  | close kind | wrap kind => !c.concerns kind
  | seq a b | ite _ a b => a.spares c && b.spares c
  | loop _ body => body.spares c
  | nest (jump _) => true
  | nest body => body.spares c
  | jump r => !c.makes r
  | dispatch t => t.rules.all fun r => !c.makes r
  | _ => true

/-- The rule keeps the property. One that makes nodes of concern is on a draft of its own. -/
def Rule.Keeps (s : TokenStream) (c : Concern) (N : Tree → Prop) (r : Rule) (p : Place)
    (o : Ending) : Prop :=
  ∀ q, o = .done q → p.draft.Each N → (c.makes r = true → p = s.fresh p.index) → q.draft.Each N

section
variable {s : TokenStream} {strict : Bool} {calls : Rule → Place → Ending → Prop} {a : Cmd}
  {r : Rule} {p q : Place} {o : Ending} {c : Concern} {N : Tree → Prop}

theorem Cmd.Ends.each (hN : ∀ n kind, n.nodeKind? = some kind → c.concerns kind = false → N n)
    (hcalls : ∀ r p o, calls r p o → r.Keeps s c N p o) (ha : a.spares c = true)
    (h : Cmd.Ends s strict calls a p (.done q)) (hp : p.draft.Each N) : q.draft.Each N := by
  induction a generalizing p q with
  | skip =>
    cases h
    exact hp
  | shift =>
    cases h
    exact hp.push (Tree.each_leaf _ _)
  | fail => cases h
  | seq a b iha ihb =>
    rw [Cmd.spares, Bool.and_eq_true] at ha
    obtain ⟨m, h, hb⟩ := h.seq_done
    exact ihb ha.2 hb (iha ha.1 h hp)
  | ite g a b iha ihb =>
    rw [Cmd.spares, Bool.and_eq_true] at ha
    obtain ⟨answer, -, h⟩ := h.ite_done
    cases answer with
    | true => exact iha ha.1 h hp
    | false => exact ihb ha.2 h hp
  | loop g body ih =>
    refine (h.loop_done (I := fun m => m.draft.Each N) ?_ hp).1
    intro m m' hm _ hbody
    exact ih ha hbody hm
  | nest body ih =>
    cases h with
    | @nest _ _ m h =>
      refine hp.adopt ?_
      cases body with
      | jump r =>
        cases h with
        | jump h => exact hcalls _ _ _ h m rfl (Draft.each_empty _) fun _ => rfl
      | _ => exact ih ha h (Draft.each_empty _)
  | jump r =>
    cases h with
    | jump h =>
      refine hcalls _ _ _ h q rfl hp fun hr => ?_
      rw [Cmd.spares, hr] at ha
      cases ha
  | dispatch t =>
    cases h with
    | @dispatch _ r _ _ ht h =>
      have hr := List.all_eq_true.1 ha r (Table.mem_rules_of_decide ht)
      refine hcalls _ _ _ h q rfl hp fun hm => ?_
      rw [hm] at hr
      cases hr
  | close kind =>
    cases h
    exact hp.close (hN _ kind rfl (by simpa [Cmd.spares] using ha))
  | wrap kind =>
    cases h
    exact hp.wrap fun start => hN _ kind rfl (by simpa [Cmd.spares] using ha)

/-- The property holds of all nodes if it does so of those that are made where they are of
concern. -/
theorem Rule.Ends.keeps (hN : ∀ n kind, n.nodeKind? = some kind → c.concerns kind = false → N n)
    (hspares : ∀ r, c.makes r = false → r.body.spares c = true)
    (hmakes : ∀ r i q, c.makes r = true →
      Cmd.Ends s strict (fun r p o => Rule.Ends s strict r p o ∧ r.Keeps s c N p o) r.body
        (s.fresh i) (.done q) → q.draft.Each N)
    (h : Rule.Ends s strict r p o) : r.Keeps s c N p o := by
  refine h.induct ?_
  rintro r p _ h q rfl hp hr
  cases hm : c.makes r with
  | false => exact h.each hN (fun _ _ _ h => h.2) (hspares r hm) hp
  | true =>
    rw [hr hm] at h
    exact hmakes r p.index q hm h

theorem parse_each {ts : TokenList} {options : ParseOptions} {e : Entry} {t : Tree}
    (hN : ∀ n kind, n.nodeKind? = some kind → c.concerns kind = false → N n)
    (hspares : ∀ r, c.makes r = false → r.body.spares c = true)
    (hmakes : ∀ r i q, c.makes r = true →
      Cmd.Ends (.ofList ts) options.detectAmbiguity (fun r p o =>
        Rule.Ends (.ofList ts) options.detectAmbiguity r p o ∧ r.Keeps (.ofList ts) c N p o) r.body
        (TokenStream.fresh (.ofList ts) i) (.done q) → q.draft.Each N)
    (h : parse e ts options = .ok t) : t.Each N := by
  obtain ⟨q, hends, hq⟩ := parse_ends h
  exact hends.keeps hN hspares hmakes q rfl (Draft.each_empty _) (fun _ => rfl) t (by simp [hq])

end

end JavaSyntax
