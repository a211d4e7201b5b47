import JavaSyntax.Proofs.Reading

/-!
# Where nodes stand

The leaves of a node are tokens side by side, so a node stands at the index of the first of them,
or where it would be. It is computed from the commands that a draft is balanced when it becomes a
node, and has a leaf unless the node may have none.
-/

namespace JavaSyntax

/-- A node of the kind may have no leaves. -/
def NodeKind.mayBeEmpty : NodeKind → Bool
  | modifiers | compilationUnit => true
  | _ => false

namespace Tree

mutual

/-- The inner nodes in preorder, each with the index of its first leaf, where the leaves are
counted from `i`. -/
def places : Tree → Nat → List (Nat × Tree)
  | leaf .., _ => []
  | node k s cs, i => (i, node k s cs) :: forestPlaces cs i

def forestPlaces : Forest → Nat → List (Nat × Tree)
  | [], _ => []
  | t :: ts, i => t.places i ++ forestPlaces ts (i + t.leaves.length)

end

mutual

theorem map_places (t : Tree) (i : Nat) :
    (t.places i).map Prod.snd = t.events.filterMap Event.node? := by
  cases t with
  | leaf k s => rfl
  | node k s cs =>
    rw [places, events, List.map_cons, map_forestPlaces cs i]
    simp [Event.node?]

theorem map_forestPlaces (ts : Forest) (i : Nat) :
    (forestPlaces ts i).map Prod.snd = (forestEvents ts).filterMap Event.node? := by
  cases ts with
  | nil => rfl
  | cons t ts =>
    rw [forestPlaces, forestEvents, List.map_append, List.filterMap_append, map_places t,
      map_forestPlaces ts]

end

/-- What holds of a node that stands at an index. -/
structure Placed (s : TokenStream) (n : Tree) (i : Nat) : Prop where
  balanced : s.scan i (i + n.leaves.length) [] = some []
  filled : n.leaves ≠ [] ∨ ∃ kind, n.nodeKind? = some kind ∧ kind.mayBeEmpty = true
  span : ∃ start, n.span = extent start n.children ∧
    (start = (s.tokenAt i).span.start ∨
      ∃ first, n.children.head? = some first ∧ start = first.span.start)

mutual

/-- The leaves of the tree are tokens from the index on, and its nodes stand where they do. -/
def Laid (s : TokenStream) : Tree → Nat → Prop
  | leaf k span, i => (k, span) = (s.tokenAt i).entry ∧ k ≠ .eof
  | node k span cs, i => Placed s (node k span cs) i ∧ ForestLaid s cs i

/-- The same for trees side by side, none of which is a whole source. -/
def ForestLaid (s : TokenStream) : Forest → Nat → Prop
  | [], _ => True
  | t :: ts, i =>
    t.nodeKind? ≠ some .compilationUnit ∧ t.Laid s i ∧ ForestLaid s ts (i + t.leaves.length)

end

variable {s : TokenStream} {i : Nat}

theorem forestLaid_append {as bs : Forest} : ForestLaid s (as ++ bs) i ↔
    ForestLaid s as i ∧ ForestLaid s bs (i + (forestLeaves as).length) := by
  induction as generalizing i with
  | nil => simp [ForestLaid, forestLeaves]
  | cons a as ih => simp [ForestLaid, forestLeaves, ih, and_assoc, Nat.add_assoc]

theorem forestLaid_singleton {t : Tree} :
    ForestLaid s [t] i ↔ t.nodeKind? ≠ some .compilationUnit ∧ t.Laid s i := by
  simp [ForestLaid]

mutual

theorem Laid.leaves_eq {t : Tree} {i : Nat} (h : t.Laid s i) :
    t.leaves = s.reading i t.leaves.length := by
  cases t with
  | leaf k span =>
    simp [leaves, TokenStream.reading, h.1]
  | node k span cs => exact ForestLaid.leaves_eq h.2

theorem ForestLaid.leaves_eq {ts : Forest} {i : Nat} (h : ForestLaid s ts i) :
    forestLeaves ts = s.reading i (forestLeaves ts).length := by
  cases ts with
  | nil => rfl
  | cons t ts =>
    rw [forestLeaves, List.length_append, ← TokenStream.reading_append, ← Laid.leaves_eq h.2.1,
      ← ForestLaid.leaves_eq h.2.2]

end

mutual

theorem Laid.kind_ne {t : Tree} {i : Nat} (h : t.Laid s i) : ∀ l ∈ t.leaves, l.1 ≠ .eof := by
  cases t with
  | leaf k span =>
    intro l hl
    rw [List.mem_singleton.1 hl]
    exact h.2
  | node k span cs => exact ForestLaid.kind_ne h.2

theorem ForestLaid.kind_ne {ts : Forest} {i : Nat} (h : ForestLaid s ts i) :
    ∀ l ∈ forestLeaves ts, l.1 ≠ .eof := by
  intro l hl
  cases ts with
  | nil => cases hl
  | cons t ts =>
    rcases List.mem_append.1 hl with hl | hl
    · exact Laid.kind_ne h.2.1 l hl
    · exact ForestLaid.kind_ne h.2.2 l hl

end

mutual

/-- What holds of a tree holds of each node at its place. Only the tree itself may be a whole
source. -/
theorem Laid.places {t : Tree} {i : Nat} (h : t.Laid s i) : ∀ p ∈ t.places i,
    (p.2 = t ∨ p.2.nodeKind? ≠ some .compilationUnit) ∧ p.2.Placed s p.1 ∧ p.2.Laid s p.1 := by
  intro p hp
  cases t with
  | leaf k span => cases hp
  | node k span cs =>
    rcases List.mem_cons.1 hp with rfl | hp
    · exact ⟨.inl rfl, h.1, h⟩
    · exact (ForestLaid.places h.2 p hp).imp_left .inr

theorem ForestLaid.places {ts : Forest} {i : Nat} (h : ForestLaid s ts i) :
    ∀ p ∈ forestPlaces ts i,
      p.2.nodeKind? ≠ some .compilationUnit ∧ p.2.Placed s p.1 ∧ p.2.Laid s p.1 := by
  intro p hp
  cases ts with
  | nil => cases hp
  | cons t ts =>
    rcases List.mem_append.1 hp with hp | hp
    · obtain ⟨hroot, hplace⟩ := Laid.places h.2.1 p hp
      refine ⟨?_, hplace⟩
      rcases hroot with heq | hne
      · rw [heq]
        exact h.1
      · exact hne
    · exact ForestLaid.places h.2.2 p hp

end

end Tree

/-- The children of the draft are laid from an index on, where the draft has been started. -/
structure Place.Laid (s : TokenStream) (d : Nat) (p : Place) : Prop where
  forest : Tree.ForestLaid s p.draft.forest d
  index : d + (Tree.forestLeaves p.draft.forest).length = p.index
  start : p.draft.start = (s.tokenAt d).span.start

namespace Place.Laid
variable {s : TokenStream} {p q : Place} {d i : Nat} {kind : NodeKind}

theorem fresh (s : TokenStream) (i : Nat) : Laid s i (s.fresh i) := ⟨trivial, rfl, rfl⟩

theorem le (h : p.Laid s d) : d ≤ p.index := by
  rw [← h.index]
  exact Nat.le_add_right _ _

theorem shift (h : p.Laid s d) (hkind : (s.tokenAt p.index).kind ≠ .eof) :
    Laid s d ⟨p.index + 1,
      p.draft.push (.leaf (s.tokenAt p.index).kind (s.tokenAt p.index).span)⟩ where
  forest := by
    rw [Draft.forest_push, Tree.forestLaid_append, h.index]
    exact ⟨h.forest, by simp [Tree.ForestLaid, Tree.nodeKind?, Tree.Laid, Token.entry, hkind]⟩
  index := by
    rw [Draft.forest_push, Tree.forestLeaves_append, List.length_append, ← Nat.add_assoc, h.index]
    rfl
  start := h.start

theorem adopt (h : p.Laid s d) (hq : q.Laid s p.index) :
    Laid s d ⟨q.index, p.draft.adopt q.draft⟩ where
  forest := by
    rw [Draft.forest_adopt, Tree.forestLaid_append, h.index]
    exact ⟨h.forest, hq.forest⟩
  index := by
    rw [Draft.forest_adopt, Tree.forestLeaves_append, List.length_append, ← Nat.add_assoc, h.index]
    exact hq.index
  start := h.start

theorem build (h : p.Laid s d) (hscan : s.scan d p.index [] = some [])
    (hfilled : d < p.index ∨ kind.mayBeEmpty = true) {start : Nat}
    (hstart : start = p.draft.start ∨
      ∃ first, p.draft.forest.head? = some first ∧ start = first.span.start) :
    (Tree.build kind start p.draft.forest).Laid s d := by
  refine ⟨⟨?_, ?_, start, rfl, ?_⟩, h.forest⟩
  · have hindex : d + (Tree.build kind start p.draft.forest).leaves.length = p.index := h.index
    rw [← Tree.build, hindex]
    exact hscan
  · refine hfilled.imp (fun hlt => ?_) fun hkind => ⟨kind, rfl, hkind⟩
    intro hnil
    have hnil : Tree.forestLeaves p.draft.forest = [] := hnil
    have hindex := h.index
    rw [hnil] at hindex
    exact absurd hlt (by simp [← hindex])
  · exact hstart.imp_left fun hs => hs.trans h.start

theorem close (h : p.Laid s d) (hkind : kind ≠ .compilationUnit)
    (hscan : s.scan d p.index [] = some []) (hfilled : d < p.index ∨ kind.mayBeEmpty = true) :
    Laid s d { p with draft := p.draft.close kind } where
  forest := by
    refine Tree.forestLaid_singleton.2 ⟨?_, h.build hscan hfilled (.inl rfl)⟩
    intro heq
    exact hkind (Option.some.inj heq)
  index := by
    rw [Draft.leaves_close]
    exact h.index
  start := h.start

theorem wrap (h : p.Laid s d) (hkind : kind ≠ .compilationUnit)
    (hscan : s.scan d p.index [] = some []) (hfilled : d < p.index ∨ kind.mayBeEmpty = true) :
    Laid s d { p with draft := p.draft.wrap kind } where
  forest := by
    refine Tree.forestLaid_singleton.2 ⟨?_, h.build hscan hfilled ?_⟩
    · intro heq
      exact hkind (Option.some.inj heq)
    · rw [Draft.forest, List.head?_reverse]
      cases p.draft.items.getLast? with
      | none => exact .inl rfl
      | some first => exact .inr ⟨first, rfl, rfl⟩
  index := by
    rw [Draft.leaves_wrap]
    exact h.index
  start := h.start

end Place.Laid

/-- The rule makes a node of the draft that it is called on, which so has to be balanced. The
others put a member into a body that is still open. -/
def Rule.closes : Rule → Bool
  | staticInitializer | instanceInitializer | emptyMember | modifiedMember _ => false
  | _ => true

open Outlook in
/-- The command makes nodes only of balanced drafts that have leaves. `free` tells that nothing
was open in the draft before it. -/
def Cmd.lays (free : Bool) : Cmd → Outlook → Reading → Bool
  | seq a b, v, r =>
    a.lays free v r &&
      (a.reads v r).any fun rs => (merge (a.exits v)).all fun w => rs.all fun r' => b.lays free w r'
  | ite g a b, v, r =>
    ((g.assume true v).all fun w => a.lays free w r) &&
      (g.assume false v).all fun w => b.lays free w r
  | loop g body, _, r =>
    (g.assume true {}).all fun w => body.lays free w r && (body.reads w r).any (·.all r.le)
  | nest body, v, _ => body.lays true { v with latest := none, moved := false } {}
  | jump q, v, r =>
    leKinds v.ahead q.starts && q != .compilationUnit &&
      (!q.closes || free && r.waiting.isEmpty)
  | dispatch t, _, r =>
    t.admits && t.rules.all fun q =>
      q != .compilationUnit && (!q.closes || free && r.waiting.isEmpty)
  | close kind, v, r | wrap kind, v, r =>
    kind != .compilationUnit && free && r.waiting.isEmpty && (v.moved || kind.mayBeEmpty)
  | _, _, _ => true

def Rule.lays (r : Rule) : Bool :=
  r == .compilationUnit || r.body.lays r.closes { ahead := r.starts } {}

theorem Rule.lays_all (r : Rule) : r.lays = true := by
  revert r
  decide +kernel

section
variable {s : TokenStream} {strict : Bool} {c : Cmd} {rule : Rule} {i d : Nat} {p q : Place}
  {v : Outlook} {r : Reading} {base : List TokenKind} {free : Bool}

/-- The rule keeps a draft laid. If it makes a node of it, that has been balanced. -/
def Rule.Lays (s : TokenStream) (rule : Rule) (p q : Place) : Prop :=
  ∀ d base, rule.Enters s p.index → p.Laid s d → s.scan d p.index [] = some base →
    (rule.closes = true → base = []) → q.Laid s d

/-- The rule ends so, and keeps a draft laid if it does not fail. -/
def Rule.Layout (s : TokenStream) (strict : Bool) (rule : Rule) (p : Place) (o : Ending) : Prop :=
  Rule.Ends s strict rule p o ∧
    (rule ≠ .compilationUnit → ∀ q, o = .done q → rule.Lays s p q)

/-- What is open at a place, if something has been open before the tokens read. -/
theorem Reading.Holds.scan_base (h : r.Holds s i p.index) (hdi : d ≤ i) (hip : i ≤ p.index)
    (hbase : s.scan d i [] = some base) :
    s.scan d p.index [] = some (r.waiting ++ base) := by
  rw [TokenStream.scan_trans hdi hip, hbase]
  exact TokenStream.scan_frame h.scan

theorem Reading.closed {closes : Bool}
    (h : (!closes || free && r.waiting.isEmpty) = true) (hfree : free = true → base = [])
    (hcloses : closes = true) : r.waiting ++ base = [] := by
  rw [hcloses, Bool.not_true, Bool.false_or, Bool.and_eq_true, List.isEmpty_iff] at h
  rw [h.2, hfree h.1, List.nil_append]

theorem Cmd.closable {kind : NodeKind}
    (hc : (kind != .compilationUnit && free && r.waiting.isEmpty &&
      (v.moved || kind.mayBeEmpty)) = true)
    (hv : v.Holds s i p) (hr : r.Holds s i p.index) (hdi : d ≤ i)
    (hbase : s.scan d i [] = some base) (hfree : free = true → base = []) :
    kind ≠ .compilationUnit ∧ s.scan d p.index [] = some [] ∧
      (d < p.index ∨ kind.mayBeEmpty = true) := by
  simp only [Bool.and_eq_true, bne_iff_ne, List.isEmpty_iff, Bool.or_eq_true] at hc
  obtain ⟨⟨⟨hkind, hf⟩, hwaiting⟩, hfilled⟩ := hc
  refine ⟨hkind, ?_, hfilled.imp_left fun hm => Nat.lt_of_le_of_lt hdi (hv.moved hm)⟩
  have hscan := hr.scan_base hdi hv.start_le hbase
  rwa [hwaiting, hfree hf, List.nil_append] at hscan

theorem Cmd.Ends.laid (hc : c.lays free v r = true)
    (h : Cmd.Ends s strict (Rule.Layout s strict) c p (.done q))
    (hv : v.Holds s i p) (hr : r.Holds s i p.index) (hp : p.Laid s d) (hdi : d ≤ i)
    (hbase : s.scan d i [] = some base) (hfree : free = true → base = []) : q.Laid s d := by
  have hmono {c : Cmd} {p : Place} {o : Ending}
      (h : Cmd.Ends s strict (Rule.Layout s strict) c p o) :
      Cmd.Ends s strict (Rule.Ends s strict) c p o := h.mono fun _ _ _ h => h.1
  induction c generalizing p q v r i d base free with
  | skip =>
    cases h
    exact hp
  | shift =>
    cases h with
    | shift hkind => exact hp.shift hkind
  | fail => cases h
  | seq a b iha ihb =>
    rw [Cmd.lays, Bool.and_eq_true] at hc
    obtain ⟨ha, hb⟩ := hc
    obtain ⟨m, h, hrest⟩ := h.seq_done
    have hm := iha ha h hv hr hp hdi hbase hfree
    obtain ⟨rs, hrs, hall⟩ := (Option.any_eq_true _ _).1 hb
    obtain ⟨r', hr', hrm⟩ := (hmono h).reading hv hr hrs
    obtain ⟨w, hw, hvm⟩ := ((hmono h).exits (fun _ _ _ h => h.covers) (fun _ _ _ h => h.exits)
      hv).merge
    have hb := List.all_eq_true.1 (List.all_eq_true.1 hall w hw) r' hr'
    exact ihb hb hrest hvm hrm hm hdi hbase hfree
  | ite g a b iha ihb =>
    rw [Cmd.lays, Bool.and_eq_true] at hc
    obtain ⟨answer, hg, h⟩ := h.ite_done
    obtain ⟨w, hw, hvw⟩ := Guard.any_assume hv hg
    cases answer with
    | true => exact iha (List.all_eq_true.1 hc.1 w hw) h hvw hr hp hdi hbase hfree
    | false => exact ihb (List.all_eq_true.1 hc.2 w hw) h hvw hr hp hdi hbase hfree
  | loop g body ih =>
    refine (h.loop_done (I := fun m => i ≤ m.index ∧ r.Holds s i m.index ∧ m.Laid s d) ?_
      ⟨hv.start_le, hr, hp⟩).1.2.2
    rintro m m' ⟨him, hrm, hm⟩ hg hbody
    have htop : ({} : Outlook).Holds s i m := Outlook.holds_top him (by simp)
    obtain ⟨w, hw, hvw⟩ := Guard.any_assume htop hg
    have hpass := List.all_eq_true.1 hc w hw
    rw [Bool.and_eq_true] at hpass
    obtain ⟨rs, hrs, hle⟩ := (Option.any_eq_true _ _).1 hpass.2
    obtain ⟨r', hr', hrm'⟩ := (hmono hbody).reading hvw hrm hrs
    have hindex := (hmono hbody).covers fun _ _ _ h => h.covers
    exact ⟨Nat.le_trans him hindex.index_le, hrm'.le (List.all_eq_true.1 hle r' hr'),
      ih hpass.1 hbody hvw hrm hm hdi hbase hfree⟩
  | nest body ih =>
    cases h with
    | @nest _ _ m h =>
      refine hp.adopt ?_
      have hfresh : ({ v with latest := none, moved := false } : Outlook).Holds s p.index
          (s.fresh p.index) := ⟨Nat.le_refl _, hv.past, hv.ahead, hv.touch, by simp, by simp⟩
      exact ih hc h hfresh (Reading.holds_start s _) (.fresh s _) (Nat.le_refl _)
        (TokenStream.scan_self _) fun _ => rfl
  | jump rule =>
    cases h with
    | jump h =>
      simp only [Cmd.lays, Bool.and_eq_true, bne_iff_ne] at hc
      exact h.2 hc.1.2 q rfl d _ (Rule.enters_of_leKinds hv.ahead hc.1.1) hp
        (hr.scan_base hdi hv.start_le hbase) (Reading.closed hc.2 hfree)
  | dispatch t =>
    cases h with
    | @dispatch _ rule _ _ ht h =>
      simp only [Cmd.lays, Bool.and_eq_true] at hc
      have hrule := List.all_eq_true.1 hc.2 rule (Table.mem_rules_of_decide ht)
      rw [Bool.and_eq_true, bne_iff_ne] at hrule
      exact h.2 hrule.1 q rfl d _ (Table.enters_of_decide hc.1 ht) hp
        (hr.scan_base hdi hv.start_le hbase) (Reading.closed hrule.2 hfree)
  | close kind =>
    cases h
    obtain ⟨hkind, hscan, hfilled⟩ := Cmd.closable hc hv hr hdi hbase hfree
    exact hp.close hkind hscan hfilled
  | wrap kind =>
    cases h
    obtain ⟨hkind, hscan, hfilled⟩ := Cmd.closable hc hv hr hdi hbase hfree
    exact hp.wrap hkind hscan hfilled

theorem Rule.Ends.layout {o : Ending} (h : Rule.Ends s strict rule p o) :
    rule.Layout s strict p o := by
  refine ⟨h, h.induct (R := fun rule p o => rule ≠ .compilationUnit → ∀ q, o = .done q →
    rule.Lays s p q) ?_⟩
  rintro rule p _ h hrule q rfl d base henters hp hscan hbase
  have hlays := rule.lays_all
  rw [Rule.lays, Bool.or_eq_true, beq_iff_eq] at hlays
  exact h.laid (hlays.resolve_left hrule) (Outlook.holds_ahead henters)
    (Reading.holds_start s p.index) hp hp.le hscan hbase

end

open Cmd Test in
def Grammar.unitItems : Cmd :=
  opt packageAhead (call .packageDeclaration) ++
    loop (here .kwImport) (call .importDeclaration) ++
    loop (neg (here .eof)) (ite (here .semi) shift (call .typeDeclaration))

theorem Grammar.unitItems_closable :
    unitItems.lays true {} {} = true ∧ unitItems.balanced = true := by
  decide

theorem Grammar.laid_compilationUnit {s : TokenStream} {strict : Bool} {q : Place} {t : Tree}
    {i : Nat} (h : Rule.Ends s strict .compilationUnit (s.fresh i) (.done q))
    (ht : q.draft.items = [t]) : t.Laid s i := by
  cases h with
  | body h =>
    have h : Cmd.Ends s strict (Rule.Ends s strict) (unitItems ++ .close .compilationUnit)
      (s.fresh i) (.done q) := h
    obtain ⟨m, hitems, hclose⟩ := h.seq_done
    cases hclose
    cases ht
    have hm : m.Laid s i := (hitems.mono fun _ _ _ h => h.layout).laid unitItems_closable.1
      (Outlook.holds_bottom _) (Reading.holds_start s i) (.fresh s i) (Nat.le_refl i)
      (TokenStream.scan_self i) fun _ => rfl
    exact hm.build (hitems.balanced unitItems_closable.2) (.inr rfl) (.inl rfl)

/-- A tree that has been parsed stands at the start of the tokens. -/
theorem parse_laid {ts : TokenList} {options : ParseOptions} {e : Entry} {t : Tree}
    (h : parse e ts options = .ok t) : t.Laid (.ofList ts) 0 := by
  obtain ⟨q, hends, hq⟩ := parse_ends h
  by_cases hunit : e.rule = .compilationUnit
  · rw [hunit] at hends
    exact Grammar.laid_compilationUnit hends hq
  · have henters : e.rule.Enters (.ofList ts) 0 := by
      have hnil : e.rule.starts = [] := by cases e <;> rfl
      intro k ks hk
      rw [hnil] at hk
      cases hk
    have hlaid := hends.layout.2 hunit q rfl 0 [] henters (.fresh _ 0) (TokenStream.scan_self 0)
      fun _ => rfl
    have hforest := hlaid.forest
    rw [Draft.forest, hq] at hforest
    exact (Tree.forestLaid_singleton.1 hforest).2

end JavaSyntax
