import JavaSyntax.Proofs.Decisions
import JavaSyntax.Proofs.Strata

/-!
# Operands

A rule makes nodes of few strata, so it is computed from the commands what the children of a
draft are when it becomes a node. Only the target of a field access takes a look at the tokens:
it is no name, since a name leaves no segment behind that could be a field.
-/

namespace JavaSyntax

/-- The strata of the node that a rule makes, if all that it makes is of few of them. -/
def Rule.strata? : Rule → Option (List Stratum)
  | expression => some [.assignment, .lambda, .conditional, .infixed, .prefixed, .postfixed, .name,
      .variable, .basic]
  | conditional =>
    some [.conditional, .infixed, .prefixed, .postfixed, .name, .variable, .basic]
  | binary _ => some [.infixed, .prefixed, .postfixed, .name, .variable, .basic]
  | unary => some [.prefixed, .postfixed, .name, .variable, .basic]
  | primary => some [.name, .variable, .basic]
  | lambda => some [.lambda]
  | name => some [.name]
  | type | referenceType | classType _ | additionalBound => some [.basic]
  | _ => none

/-- What a rule leaves in the draft. -/
def Rule.profile (r : Rule) (a : Profile) : Profile :=
  if a = .empty then (r.strata?.map Profile.one).getD .unknown else .unknown

/-- What a loop keeps of the profile. -/
def Profile.kept (a : Profile) (body : Profile → Option Profile) : Profile :=
  let b := (Profile.join? (some a) (body a)).getD .unknown
  if (body b).all (·.le b) then b else .unknown

/-- The profile that a command leaves, if it is ever left. -/
def Cmd.profile : Cmd → Profile → Option Profile
  | skip, a => some a
  | shift, a => some a.read
  | fail _ _, _ => none
  | seq c d, a => (c.profile a).bind d.profile
  | ite g c d, a => Profile.join? (c.profile (a.assume g)) (d.profile a)
  | loop _ body, a => some (a.kept body.profile)
  | nest body, a => (body.profile .empty).map a.append
  | jump r, a => some (r.profile a)
  | dispatch _, _ => some .unknown
  | close kind, _ | wrap kind, _ => some (.one [kind.stratum])

/-- The command makes no node without the operands that it has to have, and calls the rules of
concern on drafts of their own. -/
def Cmd.layers (c : Concern) : Cmd → Profile → Bool
  | seq a b, x => a.layers c x && (a.profile x).all (b.layers c)
  | ite g a b, x => a.layers c (x.assume g) && b.layers c x
  | loop _ body, x => body.layers c (x.kept body.profile)
  | nest (jump _), _ => true
  | nest body, _ => body.layers c .empty
  | jump r, x => x == .empty || !c.makes r
  | dispatch t, _ => t.rules.all fun r => !c.makes r
  | close kind, x | wrap kind, x => x.permits kind
  | _, _ => true

def Rule.makesLayers : Rule → Bool
  | elementValue | expression | conditional | binary _ | unary | primary => true
  | _ => false

/-- The nodes that have to have some operands. -/
def Concern.layers : Concern :=
  ⟨fun kind => !(kind.notFirst.isEmpty && kind.notLast.isEmpty && kind.notAny.isEmpty),
    Rule.makesLayers⟩

/-- The body leaves a node of the strata that the rule is said to make. -/
def Rule.profiled (r : Rule) : Bool :=
  r.strata?.all fun ks => (r.body.profile .empty).all (·.le (.one ks))

/-- The rule leaves what it is said to leave and, field accesses apart, makes its nodes in order,
as far as can be told without the tokens. -/
def Rule.ordered (r : Rule) : Bool :=
  r.profiled && (!r.makesLayers || r == .primary || r.body.layers .layers .empty)

theorem Rule.ordered_all (r : Rule) : r.ordered = true := by
  revert r
  decide +kernel

theorem Rule.spares_layers {r : Rule} (hr : r.makesLayers = false) :
    r.body.spares .layers = true := by
  revert r
  decide +kernel

section
variable {s : TokenStream} {strict : Bool} {calls : Rule → Place → Ending → Prop} {c : Cmd}
  {r : Rule} {p q : Place} {a : Profile} {o : Concern}

def Rule.Profiles (s : TokenStream) (r : Rule) (p q : Place) : Prop :=
  ∀ a : Profile, a.Holds s p → (r.profile a).Holds s q

theorem Cmd.Ends.profile_kept {body : Cmd}
    (ih : ∀ {p q} {a : Profile}, Cmd.Ends s strict calls body p (.done q) → a.Holds s p →
      ∃ b, body.profile a = some b ∧ b.Holds s q)
    (hp : a.Holds s p) :
    (a.kept body.profile).Holds s p ∧ ∀ m m', (a.kept body.profile).Holds s m →
      Cmd.Ends s strict calls body m (.done m') → (a.kept body.profile).Holds s m' := by
  unfold Profile.kept
  obtain ⟨b, hb, hpb⟩ := Profile.Holds.join? (y := body.profile a) ⟨a, .inl rfl, hp⟩
  simp only [hb, Option.getD_some]
  split
  · rename_i hinv
    refine ⟨hpb, fun m m' hm hbody => ?_⟩
    obtain ⟨b', hb', hm'⟩ := ih hbody hm
    rw [hb', Option.all_some] at hinv
    exact hm'.le hinv
  · exact ⟨Profile.holds_unknown .., fun m m' _ _ => Profile.holds_unknown ..⟩

/-- A command leaves what its profile says. -/
theorem Cmd.Ends.profile (hcalls : ∀ r p q, calls r p (.done q) → r.Profiles s p q)
    (h : Cmd.Ends s strict calls c p (.done q)) (hp : a.Holds s p) :
    ∃ b, c.profile a = some b ∧ b.Holds s q := by
  induction c generalizing p q a with
  | skip =>
    cases h
    exact ⟨a, rfl, hp⟩
  | shift =>
    cases h
    exact ⟨_, rfl, hp.read ..⟩
  | fail => cases h
  | seq c d ihc ihd =>
    obtain ⟨m, hc, hd⟩ := h.seq_done
    obtain ⟨b, hb, hm⟩ := ihc hc hp
    rw [Cmd.profile, hb]
    exact ihd hd hm
  | ite g c d ihc ihd =>
    obtain ⟨answer, hg, h⟩ := h.ite_done
    cases answer with
    | true =>
      obtain ⟨b, hb, hq⟩ := ihc h (hp.assume hg)
      exact Profile.Holds.join? ⟨b, .inl hb, hq⟩
    | false =>
      obtain ⟨b, hb, hq⟩ := ihd h hp
      exact Profile.Holds.join? ⟨b, .inr hb, hq⟩
  | loop g body ih =>
    obtain ⟨hkept, hpass⟩ := Cmd.Ends.profile_kept ih hp
    exact ⟨_, rfl, (h.loop_done (fun m m' hm _ hbody => hpass m m' hm hbody) hkept).1⟩
  | nest body ih =>
    cases h with
    | @nest _ _ m h =>
      obtain ⟨b, hb, hm⟩ := ih (a := .empty) h rfl
      rw [Cmd.profile, hb]
      exact ⟨_, rfl, hp.adopt hm⟩
  | jump r =>
    cases h with
    | jump h => exact ⟨_, rfl, hcalls _ _ _ h a hp⟩
  | dispatch t => exact ⟨_, rfl, Profile.holds_unknown ..⟩
  | close kind =>
    cases h
    exact ⟨_, rfl, Profile.holds_build ..⟩
  | wrap kind =>
    cases h
    exact ⟨_, rfl, Profile.holds_build ..⟩

theorem Rule.Ends.profiles (h : Rule.Ends s strict r p (.done q)) : r.Profiles s p q := by
  refine h.induct (R := fun r p o => ∀ q, o = .done q → r.Profiles s p q) ?_ q rfl
  rintro r p _ h q rfl a hp
  rw [Rule.profile]
  split
  · rename_i ha
    subst ha
    cases hks : r.strata? with
    | none => exact Profile.holds_unknown ..
    | some ks =>
      obtain ⟨b, hb, hq⟩ := h.profile (fun _ _ q h => h.2 q rfl) hp
      have hle := (Bool.and_eq_true_iff.1 r.ordered_all).1
      rw [Rule.profiled, hks, Option.all_some, hb, Option.all_some] at hle
      exact hq.le hle
  · exact Profile.holds_unknown ..

/-- The property of nodes is kept by the rules that are called. -/
def Rule.KeepsLayers (s : TokenStream) (strict : Bool) (r : Rule) (p : Place) (o : Ending) : Prop :=
  Rule.Ends s strict r p o ∧ r.Keeps s .layers Tree.Layered p o

theorem Tree.layered_of_spared {n : Tree} {kind : NodeKind} (hn : n.nodeKind? = some kind)
    (hkind : Concern.layers.concerns kind = false) : n.Layered := by
  simp only [Concern.layers, Bool.not_eq_false', Bool.and_eq_true, List.isEmpty_iff] at hkind
  obtain ⟨⟨hfirst, hlast⟩, hany⟩ := hkind
  constructor
  · intro k hk hne
    cases hn.symm.trans hk
    exact absurd hfirst hne
  · intro k hk hne
    cases hn.symm.trans hk
    exact absurd hlast hne
  · intro k hk t ht
    cases hn.symm.trans hk
    obtain ⟨-, hnode⟩ := List.mem_filter.1 ht
    obtain ⟨j, hj⟩ := Option.isSome_iff_exists.1 hnode
    exact ⟨j, hj, by simp [hany]⟩

/-- A command that has its profiles in order makes nodes that have their operands so. -/
theorem Cmd.Ends.layered (hc : c.layers .layers a = true)
    (h : Cmd.Ends s strict (Rule.KeepsLayers s strict) c p (.done q)) (hp : a.Holds s p)
    (hd : p.draft.Each Tree.Layered) : q.draft.Each Tree.Layered := by
  have hprofile {c : Cmd} {p q : Place} {a : Profile}
      (h : Cmd.Ends s strict (Rule.KeepsLayers s strict) c p (.done q)) (hp : a.Holds s p) :=
    h.profile (fun _ _ _ h => h.1.profiles) hp
  induction c generalizing p q a with
  | skip =>
    cases h
    exact hd
  | shift =>
    cases h
    exact hd.push (Tree.each_leaf _ _)
  | fail => cases h
  | seq c d ihc ihd =>
    rw [Cmd.layers, Bool.and_eq_true] at hc
    obtain ⟨m, h, hrest⟩ := h.seq_done
    obtain ⟨b, hb, hm⟩ := hprofile h hp
    rw [hb, Option.all_some] at hc
    exact ihd hc.2 hrest hm (ihc hc.1 h hp hd)
  | ite g c d ihc ihd =>
    rw [Cmd.layers, Bool.and_eq_true] at hc
    obtain ⟨answer, hg, h⟩ := h.ite_done
    cases answer with
    | true => exact ihc hc.1 h (hp.assume hg) hd
    | false => exact ihd hc.2 h hp hd
  | loop g body ih =>
    obtain ⟨hkept, hpass⟩ := Cmd.Ends.profile_kept (fun h hp => hprofile h hp) hp
    refine (h.loop_done (I := fun m => (a.kept body.profile).Holds s m ∧
      m.draft.Each Tree.Layered) ?_ ⟨hkept, hd⟩).1.2
    intro m m' hm _ hbody
    exact ⟨hpass m m' hm.1 hbody, ih hc hbody hm.1 hm.2⟩
  | nest body ih =>
    cases h with
    | @nest _ _ m h =>
      refine hd.adopt ?_
      cases body with
      | jump r =>
        cases h with
        | jump h => exact h.2 m rfl (Draft.each_empty _) fun _ => rfl
      | _ => exact ih hc h (a := .empty) rfl (Draft.each_empty _)
  | jump r =>
    cases h with
    | jump h =>
      refine h.2 q rfl hd fun hr => ?_
      rw [Cmd.layers, Bool.or_eq_true, beq_iff_eq] at hc
      rcases hc with rfl | hc
      · exact hp
      · rw [hr] at hc
        cases hc
  | dispatch t =>
    cases h with
    | @dispatch _ r _ _ ht h =>
      have hr := List.all_eq_true.1 hc r (Table.mem_rules_of_decide ht)
      refine h.2 q rfl hd fun hm => ?_
      rw [hm] at hr
      cases hr
  | close kind =>
    cases h
    exact hd.close (hp.layered hc _)
  | wrap kind =>
    cases h
    exact hd.wrap fun start => hp.layered hc start

end

theorem TokenStream.Segments.stops {s : TokenStream} {i e : Nat} (h : s.Segments i e) :
    ¬(s.kindAt e = .dot ∧ s.kindAt (e + 1) = .ident) := by
  induction h with
  | stop h => exact h
  | next _ _ _ ih => exact ih

namespace Grammar
open Cmd Test

/-- What may follow a primary. -/
def selector : Cmd :=
  select [(.dot, ite (next .kwNew) qualifiedCreation memberSuffix), (.colonColon, methodReference)]
    arrayAccess

/-- Selectors keep a draft in order whose node is no name. -/
structure SelectorsOrdered : Prop where
  first : primaryFirst.layers .layers .empty = true
  first_one :
    (primaryFirst.profile .empty).all (·.le (.one [.name, .variable, .basic])) = true
  again : selector.layers .layers (.one [.variable, .basic]) = true
  again_one :
    (selector.profile (.one [.name, .variable, .basic])).all (·.le (.one [.variable, .basic])) =
      true
  creation : qualifiedCreation.layers .layers (.one [.name]) = true
  generic :
    (call .typeArguments ++ expect .ident ++ call .argumentList ++
      wrap .methodInvocation).layers .layers (Profile.one [.name]).read = true
  reference : methodReference.layers .layers (.one [.name]) = true
  access : arrayAccess.layers .layers (.one [.name]) = true

theorem selectorsOrdered : SelectorsOrdered := by
  constructor <;> decide

theorem primary_eq :
    primary = primaryFirst ++ loop (either (hereAny (.ofList [.dot, .colonColon]))
      (both (here .lbracket) (neg (latestIs [.arrayCreation])))) selector := rfl

end Grammar

section
variable {s : TokenStream} {strict : Bool} {c : Cmd} {p q : Place}

/-- No name segment stands at the place. -/
def Place.NoSegment (s : TokenStream) (p : Place) : Prop :=
  ¬(s.kindAt p.index = .dot ∧ s.kindAt (p.index + 1) = .ident)

/-- A primary stands in the draft. If it is a name, it has taken its segments. -/
def Place.Selectable (s : TokenStream) (p : Place) : Prop :=
  (Profile.one [.variable, .basic]).Holds s p ∨
    (Profile.one [.name]).Holds s p ∧ p.NoSegment s

theorem Cmd.Ends.latest_ne_name
    (hc : ((c.exits {}).all fun v => v.latest.isSome && v.latest != some .name) = true)
    (h : Cmd.Ends s strict (Rule.Ends s strict) c p (.done q)) :
    q.draft.items.head?.bind Tree.nodeKind? ≠ some .name := by
  obtain ⟨v, hv, hq⟩ := h.any_exits (Outlook.holds_bottom p)
  have hv := List.all_eq_true.1 hc v hv
  rw [Bool.and_eq_true] at hv
  obtain ⟨k, hk⟩ := Option.isSome_iff_exists.1 hv.1
  rw [hq.latest k hk, ← hk]
  exact ne_of_beq_false (by simpa using hv.2)

theorem Grammar.noSegment_nameRest
    (h : Cmd.Ends s strict (Rule.Ends s strict) nameRest p (.done q))
    (hname : q.draft.items.head?.bind Tree.nodeKind? = some .name) : q.NoSegment s := by
  obtain ⟨m, hcall, h⟩ := h.seq_done
  obtain ⟨m', hrule, rfl⟩ := hcall.called
  have hend : m'.NoSegment s := by
    have hstops := (s.segments_nameEnd p.index).stops
    have hend : s.nameEnd p.index = m'.index := hrule.nameEnd_eq.2
    rwa [hend] at hstops
  obtain ⟨invocation, -, h⟩ := h.ite_done
  cases invocation with
  | true => exact absurd hname (h.latest_ne_name (by decide))
  | false =>
    obtain ⟨self, -, h⟩ := h.ite_done
    cases self with
    | true => exact absurd hname (h.latest_ne_name (by decide))
    | false =>
      obtain ⟨member, -, h⟩ := h.ite_done
      cases member with
      | true => exact absurd hname (h.latest_ne_name (by decide))
      | false =>
        cases h
        exact hend

theorem Grammar.noSegment_primaryFirst
    (h : Cmd.Ends s strict (Rule.Ends s strict) primaryFirst p (.done q))
    (hname : q.draft.items.head?.bind Tree.nodeKind? = some .name) : q.NoSegment s := by
  have hother (c : Cmd) (h : Cmd.Ends s strict (Rule.Ends s strict) c p (.done q)) :
      ¬((c.exits {}).all fun v => v.latest.isSome && v.latest != some .name) = true :=
    fun hc => h.latest_ne_name hc hname
  rcases h.of_select with ⟨c, hc, -, h⟩ | h
  · refine absurd ?_ (hother _ h)
    clear h
    revert c
    decide
  obtain ⟨primitive, -, h⟩ := h.ite_done
  cases primitive with
  | true => exact absurd (by decide) (hother _ h)
  | false =>
    rcases h.of_select with ⟨c, hc, -, h⟩ | h
    · rcases List.mem_cons.1 hc with rfl | hc
      · rw [nameFirst_eq] at h
        obtain ⟨generic, -, h⟩ := h.ite_done
        cases generic with
        | true => exact absurd (by decide) (hother _ h)
        | false =>
          obtain ⟨array, -, h⟩ := h.ite_done
          cases array with
          | true => exact absurd (by decide) (hother _ h)
          | false =>
            obtain ⟨literal, -, h⟩ := h.ite_done
            cases literal with
            | true => exact absurd (by decide) (hother _ h)
            | false => exact noSegment_nameRest h hname
      · refine absurd ?_ (hother _ h)
        clear h
        revert c
        decide
    · cases h

theorem Grammar.selectable_primaryFirst
    (h : Cmd.Ends s strict (Rule.KeepsLayers s strict) primaryFirst p (.done q))
    (hp : p = s.fresh p.index) : q.Selectable s := by
  obtain ⟨a, ha, hq⟩ := h.profile (a := .empty) (fun _ _ _ h => h.1.profiles) hp
  have hone := selectorsOrdered.first_one
  rw [ha, Option.all_some] at hone
  obtain ⟨t, ht, kind, hkind, hmem⟩ := hq.le hone
  by_cases hname : kind = .name
  · subst hname
    refine .inr ⟨⟨t, ht, .name, hkind, List.mem_singleton_self _⟩, ?_⟩
    exact noSegment_primaryFirst (h.mono fun _ _ _ h => h.1) (by simp [ht, hkind])
  · refine .inl ⟨t, ht, kind, hkind, (List.mem_cons.1 hmem).resolve_left ?_⟩
    intro hstratum
    cases kind <;> first | exact hname rfl | cases hstratum

/-- Behind a name a selector makes no field access. -/
theorem Grammar.layered_selector
    (h : Cmd.Ends s strict (Rule.KeepsLayers s strict) selector p (.done q))
    (hp : p.Selectable s) (hd : p.draft.Each Tree.Layered) : q.draft.Each Tree.Layered := by
  rcases hp with hp | ⟨hp, hno⟩
  · exact h.layered selectorsOrdered.again hp hd
  rcases h.of_select with ⟨c, hc, hdot, h⟩ | h
  · rcases List.mem_cons.1 hc with rfl | hc
    · obtain ⟨creates, -, h⟩ := h.ite_done
      cases creates with
      | true => exact h.layered selectorsOrdered.creation hp hd
      | false =>
        obtain ⟨m, hshift, h⟩ := h.seq_done
        obtain ⟨-, rfl⟩ := hshift.of_expect
        have hm := hp.read (p.index + 1) (s.tokenAt p.index).kind (s.tokenAt p.index).span
        rcases h.of_select with ⟨c, hc, hnext, h⟩ | h
        · rcases List.mem_cons.1 hc with rfl | hc
          · exact h.layered selectorsOrdered.generic hm (hd.push (Tree.each_leaf _ _))
          · rw [List.mem_singleton] at hc
            subst hc
            exact absurd ⟨hdot, hnext⟩ hno
        · cases h
    · rw [List.mem_singleton] at hc
      subst hc
      exact h.layered selectorsOrdered.reference hp hd
  · exact h.layered selectorsOrdered.access hp hd

theorem Grammar.selectable_selector
    (h : Cmd.Ends s strict (Rule.KeepsLayers s strict) selector p (.done q))
    (hp : p.Selectable s) : q.Selectable s := by
  have hone : (Profile.one [.name, .variable, .basic]).Holds s p := by
    rcases hp with hp | ⟨hp, -⟩ <;> exact hp.le (by decide)
  obtain ⟨a, ha, hq⟩ := h.profile (fun _ _ _ h => h.1.profiles) hone
  have hle := selectorsOrdered.again_one
  rw [ha, Option.all_some] at hle
  exact .inl (hq.le hle)

theorem Grammar.layered_primary
    (h : Cmd.Ends s strict (Rule.KeepsLayers s strict) primary p (.done q))
    (hp : p = s.fresh p.index) : q.draft.Each Tree.Layered := by
  rw [primary_eq] at h
  obtain ⟨m, hfirst, hloop⟩ := h.seq_done
  have hd : p.draft.Each Tree.Layered := by
    rw [hp]
    exact Draft.each_empty _
  refine (hloop.loop_done (I := fun m => m.Selectable s ∧ m.draft.Each Tree.Layered) ?_
    ⟨selectable_primaryFirst hfirst hp, hfirst.layered selectorsOrdered.first hp hd⟩).1.2
  intro m m' hm _ hbody
  exact ⟨selectable_selector hbody hm.1, layered_selector hbody hm.1 hm.2⟩

end

/-- All nodes of a parsed tree have their operands in order: no operand is held more loosely than
its operator allows, what is assigned to is a variable, and no name is the target of a field
access. -/
theorem layered_of_parse {ts : TokenList} {options : ParseOptions} {e : Entry} {t : Tree}
    (h : parse e ts options = .ok t) : ∀ n ∈ t.nodes, n.Layered := by
  refine parse_each (c := .layers) (fun _ _ hn hk => Tree.layered_of_spared hn hk)
    (fun r => Rule.spares_layers) ?_ h
  intro r i q hr h
  by_cases hprimary : r = .primary
  · subst hprimary
    exact Grammar.layered_primary h rfl
  · have hlayers := (Bool.and_eq_true_iff.1 r.ordered_all).2
    have hlayers : r.body.layers .layers .empty = true := by
      simpa [show r.makesLayers = true from hr, hprimary] using hlayers
    exact h.layered hlayers rfl (Draft.each_empty _)

/-- `x = -f().y` -/
def negatedField : TokenList where
  source := "x = -f().y"
  tokens := #[⟨.ident, ⟨0, 1⟩, ⟨1, 1⟩⟩, ⟨.assign, ⟨2, 3⟩, ⟨1, 3⟩⟩, ⟨.minus, ⟨4, 5⟩, ⟨1, 5⟩⟩,
    ⟨.ident, ⟨5, 6⟩, ⟨1, 6⟩⟩, ⟨.lparen, ⟨6, 7⟩, ⟨1, 7⟩⟩, ⟨.rparen, ⟨7, 8⟩, ⟨1, 8⟩⟩,
    ⟨.dot, ⟨8, 9⟩, ⟨1, 9⟩⟩, ⟨.ident, ⟨9, 10⟩, ⟨1, 10⟩⟩, ⟨.eof, ⟨10, 10⟩, ⟨1, 11⟩⟩]

def negatedFieldTree : Tree :=
  .node (.assign .assign) ⟨0, 10⟩
    [.node .name ⟨0, 1⟩ [.leaf .ident ⟨0, 1⟩], .leaf .assign ⟨2, 3⟩,
      .node (.unary .minus) ⟨4, 10⟩
        [.leaf .minus ⟨4, 5⟩,
          .node .fieldAccess ⟨5, 10⟩
            [.node .methodInvocation ⟨5, 8⟩
              [.node .name ⟨5, 6⟩ [.leaf .ident ⟨5, 6⟩],
                .node .argumentList ⟨6, 8⟩ [.leaf .lparen ⟨6, 7⟩, .leaf .rparen ⟨7, 8⟩]],
              .leaf .dot ⟨8, 9⟩, .leaf .ident ⟨9, 10⟩]]]

theorem layered_negatedField :
    parse .expression negatedField = .ok negatedFieldTree ∧
      ∀ n ∈ negatedFieldTree.nodes, n.Layered := by
  have hparse : parse .expression negatedField = .ok negatedFieldTree := by
    rw [parse_eq_ok, Session.run_eq]
    decide +kernel
  exact ⟨hparse, layered_of_parse hparse⟩

end JavaSyntax
