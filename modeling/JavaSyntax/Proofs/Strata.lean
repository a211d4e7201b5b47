import JavaSyntax.Proofs.Derivation

/-!
# Strata of expressions

What the operands of an expression node may be, and what can be known of the children of a draft
that is to become one: the strata of the first and of the last of them, and of all.
-/

namespace JavaSyntax

/-- The node kinds by how loosely they hold their operands. -/
inductive Stratum where
  | assignment | lambda | conditional
  /-- Binary operations and type tests. -/
  | infixed
  /-- Prefix operations and casts. -/
  | prefixed
  | postfixed | name
  /-- What else may be assigned to. -/
  | variable
  /-- All other nodes. -/
  | basic
  deriving DecidableEq, Repr

namespace NodeKind

def stratum : NodeKind → Stratum
  | assign _ => .assignment
  | lambda => .lambda
  | conditional => .conditional
  | binary _ | instanceOf => .infixed
  | unary _ | cast => .prefixed
  | postfixed _ => .postfixed
  | name => .name
  | fieldAccess | arrayAccess => .variable
  | _ => .basic

/-- The strata that the first child of such a node is never of. -/
def notFirst : NodeKind → List Stratum
  | binary _ | instanceOf | conditional => [.assignment, .lambda, .conditional]
  | postfixed _ | arrayAccess | methodInvocation | methodReference =>
    [.assignment, .lambda, .conditional, .infixed, .prefixed]
  | fieldAccess => [.assignment, .lambda, .conditional, .infixed, .prefixed, .name]
  | assign _ => [.assignment, .lambda, .conditional, .infixed, .prefixed, .postfixed, .basic]
  | _ => []

/-- The strata that the last child of such a node is never of. -/
def notLast : NodeKind → List Stratum
  | binary _ => [.assignment, .lambda, .conditional]
  | unary _ => [.assignment, .lambda, .conditional, .infixed]
  | cast => [.assignment, .conditional, .infixed]
  | conditional => [.assignment]
  | _ => []

/-- The strata that no child of such a node is of. -/
def notAny : NodeKind → List Stratum
  | binary _ => [.assignment, .lambda, .conditional]
  | unary _ => [.assignment, .lambda, .conditional, .infixed]
  | cast => [.assignment, .conditional, .infixed]
  | postfixed _ => [.assignment, .lambda, .conditional, .infixed, .prefixed]
  | _ => []

end NodeKind

namespace Tree

def IsOf (t : Tree) (strata : List Stratum) : Prop :=
  ∃ kind, t.nodeKind? = some kind ∧ kind.stratum ∈ strata

/-- The tree is an inner node of none of the strata. -/
def Avoids (t : Tree) (strata : List Stratum) : Prop :=
  ∃ kind, t.nodeKind? = some kind ∧ kind.stratum ∉ strata

/-- The children of the node may stand where they do. -/
structure Layered (n : Tree) : Prop where
  first : ∀ kind, n.nodeKind? = some kind → kind.notFirst ≠ [] →
    ∃ c, n.children.head? = some c ∧ c.Avoids kind.notFirst
  last : ∀ kind, n.nodeKind? = some kind → kind.notLast ≠ [] →
    ∃ c, n.children.getLast? = some c ∧ c.Avoids kind.notLast
  any : ∀ kind, n.nodeKind? = some kind → ∀ c ∈ n.childNodes, c.Avoids kind.notAny

theorem IsOf.avoids {t : Tree} {as bs : List Stratum} (h : t.IsOf as)
    (hab : as.all (fun a => !bs.contains a) = true) : t.Avoids bs := by
  obtain ⟨kind, hkind, hmem⟩ := h
  have hno := List.all_eq_true.1 hab _ hmem
  exact ⟨kind, hkind, by simpa using hno⟩

theorem IsOf.mono {t : Tree} {as bs : List Stratum} (h : t.IsOf as) (hab : as ⊆ bs) :
    t.IsOf bs := by
  obtain ⟨kind, hkind, hmem⟩ := h
  exact ⟨kind, hkind, hab hmem⟩

end Tree

/-- What is known of the children of a draft. -/
inductive Profile where
  /-- Nothing has been done yet. -/
  | empty
  /-- One node of these strata. -/
  | one (strata : List Stratum)
  /-- The strata of the first and of the last child and those of all nodes, if they are known. -/
  | many (first last any : Option (List Stratum))
  deriving DecidableEq, Repr

namespace Profile

def unknown : Profile := many none none none

def first? : Profile → Option (List Stratum)
  | empty => none
  | one ks => some ks
  | many first _ _ => first

def last? : Profile → Option (List Stratum)
  | empty => none
  | one ks => some ks
  | many _ last _ => last

def any? : Profile → Option (List Stratum)
  | empty => some []
  | one ks => some ks
  | many _ _ any => any

/-- A child at an end of the draft is of the strata, if these are known. -/
def AtEnd (child : Option Tree) (strata : Option (List Stratum)) : Prop :=
  ∀ ks, strata = some ks → ∃ t, child = some t ∧ t.IsOf ks

/-- All nodes among the children are of the strata, if these are known. -/
def Among (children : Forest) (strata : Option (List Stratum)) : Prop :=
  ∀ ks, strata = some ks → ∀ t ∈ children, t.nodeKind?.isSome → t.IsOf ks

def Holds (s : TokenStream) (p : Place) : Profile → Prop
  | empty => p = s.fresh p.index
  | one ks => ∃ t, p.draft.items = [t] ∧ t.IsOf ks
  | many first last any =>
    AtEnd p.draft.items.getLast? first ∧ AtEnd p.draft.items.head? last ∧
      Among p.draft.items any

def leStrata : Option (List Stratum) → Option (List Stratum) → Bool
  | _, none => true
  | none, some _ => false
  | some as, some bs => as.all bs.contains

/-- The first profile tells at least what the second one does. -/
def le : Profile → Profile → Bool
  | empty, empty => true
  | one as, one bs => as.all bs.contains
  | a, many first last any =>
    leStrata a.first? first && leStrata a.last? last && leStrata a.any? any
  | _, _ => false

def joinStrata : Option (List Stratum) → Option (List Stratum) → Option (List Stratum)
  | some as, some bs => some (as ++ bs).eraseDups
  | _, _ => none

def join : Profile → Profile → Profile
  | empty, empty => empty
  | one as, one bs => one (as ++ bs).eraseDups
  | a, b =>
    many (joinStrata a.first? b.first?) (joinStrata a.last? b.last?) (joinStrata a.any? b.any?)

/-- The profile behind two branches, where a branch may never be left. -/
def join? : Option Profile → Option Profile → Option Profile
  | none, b => b
  | a, none => a
  | some a, some b => some (a.join b)

/-- The profile with the children of the second one behind those of the first. -/
def append : Profile → Profile → Profile
  | empty, empty => unknown
  | empty, b => b
  | a, empty => a
  | a, b => many a.first? b.last? (joinStrata a.any? b.any?)

def read (a : Profile) : Profile := many a.first? none a.any?

def assume : Guard → Profile → Profile
  | .test (.latestIs kinds), one ks => one (ks.filter (kinds.map NodeKind.stratum).contains)
  | _, a => a

/-- The children may become a node of the kind. -/
def permits (a : Profile) (kind : NodeKind) : Bool :=
  (kind.notFirst.isEmpty || a.first?.any (·.all fun k => !kind.notFirst.contains k)) &&
    (kind.notLast.isEmpty || a.last?.any (·.all fun k => !kind.notLast.contains k)) &&
    (kind.notAny.isEmpty || a.any?.any (·.all fun k => !kind.notAny.contains k))

variable {s : TokenStream} {p q : Place} {a b : Profile}

theorem AtEnd.none (child : Option Tree) : AtEnd child none := by
  rintro ks ⟨⟩

theorem AtEnd.le {child : Option Tree} {x y : Option (List Stratum)} (h : AtEnd child x)
    (hxy : leStrata x y = true) : AtEnd child y := by
  rintro ks rfl
  cases x with
  | none => cases hxy
  | some js =>
    obtain ⟨t, ht, hof⟩ := h js rfl
    exact ⟨t, ht, hof.mono fun k hk => List.contains_iff_mem.1 (List.all_eq_true.1 hxy k hk)⟩

theorem Among.none (children : Forest) : Among children none := by
  rintro ks ⟨⟩

theorem Among.le {children : Forest} {x y : Option (List Stratum)} (h : Among children x)
    (hxy : leStrata x y = true) : Among children y := by
  rintro ks rfl
  cases x with
  | none => cases hxy
  | some js =>
    intro t ht hnode
    exact (h js rfl t ht hnode).mono fun k hk =>
      List.contains_iff_mem.1 (List.all_eq_true.1 hxy k hk)

theorem leStrata_joinStrata (x y : Option (List Stratum)) :
    leStrata x (joinStrata x y) = true ∧ leStrata y (joinStrata x y) = true := by
  cases x <;> cases y <;>
    simp +contextual [joinStrata, leStrata, List.all_eq_true, List.mem_eraseDups]

theorem Holds.first (h : a.Holds s p) : AtEnd p.draft.items.getLast? a.first? := by
  cases a with
  | empty => exact .none _
  | one ks =>
    obtain ⟨t, ht, hof⟩ := h
    rintro js ⟨⟩
    exact ⟨t, by simp [ht], hof⟩
  | many => exact h.1

theorem Holds.last (h : a.Holds s p) : AtEnd p.draft.items.head? a.last? := by
  cases a with
  | empty => exact .none _
  | one ks =>
    obtain ⟨t, ht, hof⟩ := h
    rintro js ⟨⟩
    exact ⟨t, by simp [ht], hof⟩
  | many => exact h.2.1

theorem Holds.among (h : a.Holds s p) : Among p.draft.items a.any? := by
  cases a with
  | empty =>
    have h : p = s.fresh p.index := h
    rintro ks - t ht
    rw [h] at ht
    cases ht
  | one ks =>
    obtain ⟨u, hu, hof⟩ := h
    rintro js ⟨⟩ t ht -
    rw [hu, List.mem_singleton] at ht
    exact ht ▸ hof
  | many => exact h.2.2

theorem Holds.le (h : a.Holds s p) (hab : a.le b = true) : b.Holds s p := by
  cases b with
  | empty =>
    cases a with
    | empty => exact h
    | _ => cases hab
  | one ks =>
    cases a with
    | one js =>
      obtain ⟨t, ht, hof⟩ := h
      exact ⟨t, ht, hof.mono fun k hk => List.contains_iff_mem.1 (List.all_eq_true.1 hab k hk)⟩
    | _ => cases hab
  | many first last any =>
    have hends : (leStrata a.first? first && leStrata a.last? last && leStrata a.any? any) =
        true := by
      cases a <;> exact hab
    rw [Bool.and_eq_true, Bool.and_eq_true] at hends
    exact ⟨h.first.le hends.1.1, h.last.le hends.1.2, h.among.le hends.2⟩

theorem le_join (a b : Profile) : a.le (a.join b) = true ∧ b.le (a.join b) = true := by
  have hfirst := leStrata_joinStrata a.first? b.first?
  have hlast := leStrata_joinStrata a.last? b.last?
  have hany := leStrata_joinStrata a.any? b.any?
  cases a <;> cases b <;>
    simp_all +contextual [join, Profile.le, List.all_eq_true, List.mem_eraseDups]

theorem Holds.join? {x y : Option Profile} (h : ∃ a, (x = some a ∨ y = some a) ∧ a.Holds s p) :
    ∃ c, Profile.join? x y = some c ∧ c.Holds s p := by
  obtain ⟨a, rfl | rfl, ha⟩ := h
  · cases y with
    | none => exact ⟨a, rfl, ha⟩
    | some b => exact ⟨_, rfl, ha.le (le_join a b).1⟩
  · cases x with
    | none => exact ⟨a, rfl, ha⟩
    | some b => exact ⟨_, rfl, ha.le (le_join b a).2⟩

theorem holds_unknown (s : TokenStream) (p : Place) : unknown.Holds s p :=
  ⟨.none _, .none _, .none _⟩

theorem Holds.read (h : a.Holds s p) (i : Nat) (k : TokenKind) (span : Span) :
    a.read.Holds s ⟨i, p.draft.push (.leaf k span)⟩ := by
  refine ⟨?_, .none _, ?_⟩
  · intro ks hks
    obtain ⟨t, ht, hof⟩ := h.first ks hks
    exact ⟨t, by simp [Draft.push, List.getLast?_cons, ht], hof⟩
  · intro ks hks t ht hnode
    rcases List.mem_cons.1 ht with rfl | ht
    · cases hnode
    · exact h.among ks hks t ht hnode

theorem Holds.adopt (h : a.Holds s p) (hq : b.Holds s q) :
    (a.append b).Holds s ⟨q.index, p.draft.adopt q.draft⟩ := by
  have hmany : (Profile.many a.first? b.last? (joinStrata a.any? b.any?)).Holds s
      ⟨q.index, p.draft.adopt q.draft⟩ := by
    refine ⟨?_, ?_, ?_⟩
    · intro ks hks
      obtain ⟨t, ht, hof⟩ := h.first ks hks
      exact ⟨t, by simp [Draft.adopt, List.getLast?_append, ht], hof⟩
    · intro ks hks
      obtain ⟨t, ht, hof⟩ := hq.last ks hks
      exact ⟨t, by simp [Draft.adopt, List.head?_append, ht], hof⟩
    · intro ks hks t ht
      have hle := leStrata_joinStrata a.any? b.any?
      rcases List.mem_append.1 ht with ht | ht
      · exact hq.among.le hle.2 ks hks t ht
      · exact h.among.le hle.1 ks hks t ht
  have hnone {p : Place} (h : p = s.fresh p.index) : p.draft.items = [] := by rw [h]; rfl
  have hleft (h : empty.Holds s p) : (p.draft.adopt q.draft).items = q.draft.items := by
    simp [Draft.adopt, hnone h]
  have hright (h : empty.Holds s q) : (p.draft.adopt q.draft).items = p.draft.items := by
    simp [Draft.adopt, hnone h]
  cases a with
  | empty =>
    cases b with
    | empty => exact holds_unknown ..
    | _ => simpa only [append, Holds, hleft h] using hq
  | one ks =>
    cases b with
    | empty => simpa only [append, Holds, hright hq] using h
    | _ => exact hmany
  | many first last any =>
    cases b with
    | empty => simpa only [append, Holds, hright hq] using h
    | _ => exact hmany

theorem Holds.assume {g : Guard} (h : a.Holds s p) (hg : g.Allows s p true) :
    (a.assume g).Holds s p := by
  unfold Profile.assume
  split
  · rename_i kinds ks
    obtain ⟨t, ht, kind, hkind, hmem⟩ := h
    rw [Guard.allows_test, Test.holds, Draft.lastIs, ht] at hg
    simp only [List.head?_cons, Option.bind_some, hkind] at hg
    refine ⟨t, ht, kind, hkind, List.mem_filter.2 ⟨hmem, ?_⟩⟩
    exact List.contains_iff_mem.2 (List.mem_map_of_mem (List.contains_iff_mem.1 hg))
  · exact h

/-- A draft whose profile permits the kind becomes a node with the right operands. -/
theorem Holds.layered (h : a.Holds s p) {kind : NodeKind} (hk : a.permits kind = true)
    (start : Nat) : (Tree.build kind start p.draft.forest).Layered := by
  simp only [permits, Bool.and_eq_true, Bool.or_eq_true, List.isEmpty_iff, Option.any_eq_true] at hk
  obtain ⟨⟨hfirst, hlast⟩, hany⟩ := hk
  constructor
  · rintro kind' ⟨⟩ hne
    obtain ⟨ks, hks, hall⟩ := hfirst.resolve_left hne
    obtain ⟨t, ht, hof⟩ := h.first ks hks
    exact ⟨t, by simp [Tree.build, Tree.children, Draft.forest, ht], hof.avoids hall⟩
  · rintro kind' ⟨⟩ hne
    obtain ⟨ks, hks, hall⟩ := hlast.resolve_left hne
    obtain ⟨t, ht, hof⟩ := h.last ks hks
    exact ⟨t, by simp [Tree.build, Tree.children, Draft.forest, ht], hof.avoids hall⟩
  · rintro kind' ⟨⟩ t ht
    obtain ⟨ht, hnode⟩ := List.mem_filter.1 ht
    have ht : t ∈ p.draft.items := List.mem_reverse.1 ht
    rcases hany with hnone | ⟨ks, hks, hall⟩
    · obtain ⟨k, hk⟩ := Option.isSome_iff_exists.1 hnode
      exact ⟨k, hk, by simp [hnone]⟩
    · exact (h.among ks hks t ht hnode).avoids hall

theorem holds_build (i start start' : Nat) (kind : NodeKind) (cs : Forest) :
    Holds s ⟨i, { start, items := [Tree.build kind start' cs] }⟩ (one [kind.stratum]) :=
  ⟨_, rfl, kind, rfl, List.mem_singleton_self _⟩

end Profile

end JavaSyntax
