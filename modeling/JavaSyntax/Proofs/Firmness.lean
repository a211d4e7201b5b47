import JavaSyntax.Proofs.Decisions

/-!
# Firm commands

A command is firm if each of its decisions comes out the same wherever the tokens that it reads
stand in a row. It is computed from the outlooks how far each decision looks past the tokens that
are read for certain behind it, and how many more tokens have to follow.
-/

namespace JavaSyntax

/-- The test does not look at the draft. -/
def Test.draftless : Test → Bool
  | latestIs _ | latestHas _ => false
  | neg t => t.draftless
  | both t u | either t u => t.draftless && u.draftless
  | _ => true

def Guard.draftless : Guard → Bool
  | test t => t.draftless
  | trial sure possible _ => sure.draftless && possible.draftless
  | typeHead _ => true

/-- Where the command ends does not depend on the draft. -/
def Cmd.draftless : Cmd → Bool
  | seq a b => a.draftless && b.draftless
  | ite g a b => g.draftless && a.draftless && b.draftless
  | loop g body => g.draftless && body.draftless
  | jump _ | dispatch _ => false
  | _ => true

section
variable {s : TokenStream} {strict : Bool} {a b c : Cmd} {p q : Place} {i : Nat} {d d' : Draft}

theorem Test.holds_redraft {t : Test} (ht : t.draftless = true) (d d' : Draft) :
    t.holds s i d' = t.holds s i d := by
  induction t with
  | latestIs => cases ht
  | latestHas => cases ht
  | neg t ih => rw [holds, holds, ih ht]
  | both t u iht ihu =>
    rw [draftless, Bool.and_eq_true] at ht
    rw [holds, holds, iht ht.1, ihu ht.2]
  | either t u iht ihu =>
    rw [draftless, Bool.and_eq_true] at ht
    rw [holds, holds, iht ht.1, ihu ht.2]
  | _ => rfl

theorem Guard.query_redraft {g : Guard} (hg : g.draftless = true) (d d' : Draft) :
    g.query s ⟨i, d'⟩ = g.query s ⟨i, d⟩ := by
  cases g with
  | test t => rw [query, query, Test.holds_redraft hg d]
  | trial sure possible probe =>
    rw [draftless, Bool.and_eq_true] at hg
    simp only [query, Test.holds_redraft hg.1 d d', Test.holds_redraft hg.2 d d']
  | typeHead probe => rfl

theorem Cmd.Ends.redraft (hc : c.draftless = true)
    (h : Cmd.Ends s strict (Rule.Ends s strict) c p (.done q)) (d : Draft) :
    ∃ d', Cmd.Ends s strict (Rule.Ends s strict) c ⟨p.index, d⟩ (.done ⟨q.index, d'⟩) := by
  generalize ho : Ending.done q = o at h
  induction h generalizing q d with
  | skip =>
    cases ho
    exact ⟨_, .skip⟩
  | shift h =>
    cases ho
    exact ⟨_, .shift h⟩
  | @seq a b p m o _ _ iha ihb =>
    rw [draftless, Bool.and_eq_true] at hc
    obtain ⟨d₁, ha⟩ := iha hc.1 d rfl
    obtain ⟨d₂, hb⟩ := ihb hc.2 d₁ ho
    exact ⟨d₂, .seq ha hb⟩
  | @known g a b p o answer hg _ ih =>
    rw [draftless, Bool.and_eq_true, Bool.and_eq_true] at hc
    have hbranch : (if answer then a else b).draftless = true := by
      cases answer with
      | true => exact hc.1.2
      | false => exact hc.2
    obtain ⟨d', h⟩ := ih hbranch d ho
    exact ⟨d', .known ((Guard.query_redraft hc.1.1 p.draft d).trans hg) h⟩
  | @asked g a b p o probe t answer hg ht hv _ _ ih =>
    rw [draftless, Bool.and_eq_true, Bool.and_eq_true] at hc
    have hbranch : (if answer then a else b).draftless = true := by
      cases answer with
      | true => exact hc.1.2
      | false => exact hc.2
    obtain ⟨d', h⟩ := ih hbranch d ho
    exact ⟨d', .asked ((Guard.query_redraft hc.1.1 p.draft d).trans hg) ht hv h⟩
  | @loop g body p o _ ih =>
    rw [draftless, Bool.and_eq_true] at hc
    obtain ⟨d', h⟩ := ih (by simp [draftless, hc.1, hc.2]) d ho
    exact ⟨d', .loop h⟩
  | @nest body p m h =>
    cases ho
    exact ⟨_, .nest (p := ⟨p.index, d⟩) (q := m) h⟩
  | jump => cases hc
  | dispatch => cases hc
  | close =>
    cases ho
    exact ⟨_, .close⟩
  | wrap =>
    cases ho
    exact ⟨_, .wrap⟩
  | _ => cases ho

end

namespace Cmd

def parts? : Cmd → Option (Cmd × Cmd)
  | seq a b => some (a, b)
  | _ => none

/-- The second command starts as the first one does. Of the rules that it starts with `deeper`
tells the same. -/
def leads (deeper : Cmd → Rule → Bool) : Cmd → Cmd → Bool
  | c, seq a b =>
    c == seq a b || leads deeper c a || c.parts?.any fun (c₁, c₂) => c₁ == a && leads deeper c₂ b
  | c, nest body => leads deeper c body
  | c, jump r => deeper c r
  | c, a => c == a

end Cmd

def Probe.leads (p : Probe) (a : Cmd) : Bool :=
  p.fragment.leads (fun c r => c.leads (fun _ _ => false) r.body) a ||
    p == .explicitConstructor && a == .call .explicitConstructorInvocation

section
variable {s : TokenStream} {strict : Bool} {a b c : Cmd} {p f q : Place} {probe : Probe}

theorem Cmd.eq_of_parts (h : c.parts? = some (a, b)) : c = .seq a b := by
  cases c with
  | seq a' b' =>
    cases h
    rfl
  | _ => cases h

/-- A command that leads another one ends on the way of that. -/
theorem Cmd.Ends.of_leads {deeper : Cmd → Rule → Bool}
    (hdeeper : ∀ c r p q, deeper c r = true → c.draftless = true →
      Rule.Ends s strict r p (.done q) →
      ∃ m, Cmd.Ends s strict (Rule.Ends s strict) c p (.done m) ∧ m.index ≤ q.index)
    (hc : c.draftless = true) (hleads : c.leads deeper a = true)
    (h : Cmd.Ends s strict (Rule.Ends s strict) a p (.done q)) (d : Draft) :
    ∃ m, Cmd.Ends s strict (Rule.Ends s strict) c ⟨p.index, d⟩ (.done m) ∧ m.index ≤ q.index := by
  have hwhole {c : Cmd} {p q : Place} (hc : c.draftless = true)
      (h : Cmd.Ends s strict (Rule.Ends s strict) c p (.done q)) (d : Draft) :
      ∃ m, Cmd.Ends s strict (Rule.Ends s strict) c ⟨p.index, d⟩ (.done m) ∧
        m.index = q.index := by
    obtain ⟨d', h⟩ := h.redraft hc d
    exact ⟨_, h, rfl⟩
  induction a generalizing c p q d with
  | seq a b iha ihb =>
    rw [leads, Bool.or_eq_true, Bool.or_eq_true, beq_iff_eq] at hleads
    rcases hleads with (rfl | hleads) | hleads
    · obtain ⟨m, hm, hle⟩ := hwhole hc h d
      exact ⟨m, hm, Nat.le_of_eq hle⟩
    · obtain ⟨m, ha, hb⟩ := h.seq_done
      obtain ⟨m', hm', hle⟩ := iha hc hleads ha d
      exact ⟨m', hm', Nat.le_trans hle hb.index_le⟩
    · obtain ⟨⟨c₁, c₂⟩, hparts, hboth⟩ := (Option.any_eq_true _ _).1 hleads
      obtain rfl := Cmd.eq_of_parts hparts
      rw [Bool.and_eq_true, beq_iff_eq] at hboth
      rw [draftless, Bool.and_eq_true] at hc
      obtain ⟨rfl, hsecond⟩ := hboth
      obtain ⟨m, ha, hb⟩ := h.seq_done
      obtain ⟨⟨i, d₁⟩, hfirst, rfl⟩ := hwhole hc.1 ha d
      obtain ⟨m', hrest, hle⟩ := ihb hc.2 hsecond hb d₁
      exact ⟨m', .seq hfirst hrest, hle⟩
  | nest body ih =>
    rw [leads] at hleads
    cases h with
    | @nest _ _ m h => exact ih hc hleads h d
  | jump r =>
    rw [leads] at hleads
    cases h with
    | jump h =>
      obtain ⟨m, hm, hle⟩ := hdeeper c r _ _ hleads hc h
      obtain ⟨m', hm', heq⟩ := hwhole hc hm d
      exact ⟨m', hm', heq ▸ hle⟩
  | _ =>
    simp only [leads, beq_iff_eq] at hleads
    subst hleads
    obtain ⟨m, hm, hle⟩ := hwhole hc h d
    exact ⟨m, hm, Nat.le_of_eq hle⟩

theorem Probe.draftless_fragment (probe : Probe) : probe.fragment.draftless = true := by
  cases probe <;> decide

theorem Probe.explicitConstructor_le
    (hf : Cmd.Ends s strict (Rule.Ends s strict) (fragment .explicitConstructor)
      (s.fresh p.index) (.done f))
    (h : Cmd.Ends s strict (Rule.Ends s strict) (.call .explicitConstructorInvocation) p
      (.done q)) : f.index ≤ q.index := by
  obtain ⟨m₄, hf, hparen⟩ := hf.seq_done
  obtain ⟨m₃, hf, hsuper⟩ := hf.seq_done
  obtain ⟨m₂, hqualifier, htypes⟩ := hf.seq_done
  obtain ⟨-, hm₄⟩ := hsuper.of_expect
  obtain ⟨-, hf⟩ := hparen.of_expect
  obtain ⟨n₅, hcall, hq⟩ := h.called
  cases hcall with
  | body hcall =>
    obtain ⟨n₄, hcall, hclose⟩ := hcall.seq_done
    obtain ⟨n₃, hcall, hsemi⟩ := hcall.seq_done
    obtain ⟨n₂, hcall, harguments⟩ := hcall.seq_done
    obtain ⟨n₁, hcall, hword⟩ := hcall.seq_done
    -- The name and the type arguments are those that the probe has read.
    have hstart : n₁.index = m₃.index := by
      obtain ⟨n, hopt, htypes'⟩ := hcall.seq_done
      obtain ⟨answer, hident, hopt⟩ := hopt.ite_done
      cases answer with
      | false =>
        obtain ⟨m₁, hname, -⟩ := hqualifier.seq_done
        obtain ⟨m, hname, -⟩ := hname.called
        have hname := hname.nameEnd_eq.1
        rw [Guard.allows_test, Test.here, Test.holds, KindSet.contains_single,
          decide_eq_false_iff_not] at hident
        exact absurd hname hident
      | true =>
        cases hqualifier.eq hopt
        cases htypes.eq htypes'
        rfl
    have hword : n₁.index + 1 ≤ n₂.index := hword.count (Outlook.holds_bottom n₁)
    have harguments : n₂.index + 2 ≤ n₃.index := harguments.count (Outlook.holds_bottom n₂)
    have hsemi := hsemi.index_le
    have hclose := hclose.index_le
    rw [hf, hq, hm₄]
    change m₃.index + 1 + 1 ≤ n₅.index
    omega

/-- What a command starts with that a probe leads, the probe has read before. -/
theorem Probe.le_of_leads (hp : probe.leads a = true)
    (hf : Cmd.Ends s strict (Rule.Ends s strict) probe.fragment (s.fresh p.index) (.done f))
    (h : Cmd.Ends s strict (Rule.Ends s strict) a p (.done q)) : f.index ≤ q.index := by
  rw [leads, Bool.or_eq_true] at hp
  rcases hp with hp | hp
  · obtain ⟨m, hm, hle⟩ := h.of_leads (c := probe.fragment) (fun c r p q hc hdraft hr => by
      cases hr with
      | body hr =>
        exact hr.of_leads (fun _ _ _ _ hc => absurd hc (by simp)) hdraft hc p.draft)
      probe.draftless_fragment hp (s.fresh p.index).draft
    cases hf.eq hm
    exact hle
  · rw [Bool.and_eq_true, beq_iff_eq, beq_iff_eq] at hp
    obtain ⟨rfl, rfl⟩ := hp
    exact Probe.explicitConstructor_le hf h

end

/-- The command reads nothing from the outlook. -/
def Cmd.still : Cmd → Outlook → Bool
  | skip, _ | close _, _ | wrap _, _ | fail _ _, _ => true
  | seq a b, v => a.still v && b.still { v with latest := none }
  | ite g a b, v => (g.assume true v).all a.still && (g.assume false v).all b.still
  | loop g _, v => (g.assume true v).isEmpty
  | nest body, v => body.still { v with latest := none }
  | _, _ => false

section
variable {s : TokenStream} {strict : Bool} {c : Cmd} {p q : Place} {i : Nat} {v : Outlook}

theorem Outlook.Holds.forget (hv : v.Holds s i p) (hq : q.index = p.index) :
    ({ v with latest := none } : Outlook).Holds s i q :=
  ⟨hq ▸ hv.start_le, hq ▸ hv.past, hq ▸ hv.ahead, hq ▸ hv.touch, by simp, hq ▸ hv.moved⟩

theorem Cmd.Ends.still (hc : c.still v = true) (hv : v.Holds s i p)
    (h : Cmd.Ends s strict (Rule.Ends s strict) c p (.done q)) : q.index = p.index := by
  induction c generalizing p q v with
  | skip =>
    cases h
    rfl
  | fail => cases h
  | seq a b iha ihb =>
    rw [Cmd.still, Bool.and_eq_true] at hc
    obtain ⟨m, ha, hb⟩ := h.seq_done
    have hm := iha hc.1 hv ha
    exact (ihb hc.2 (hv.forget hm) hb).trans hm
  | ite g a b iha ihb =>
    rw [Cmd.still, Bool.and_eq_true, List.all_eq_true, List.all_eq_true] at hc
    obtain ⟨answer, hg, h⟩ := h.ite_done
    obtain ⟨w, hw, hvw⟩ := Guard.any_assume hv hg
    cases answer with
    | true => exact iha (hc.1 w hw) hvw h
    | false => exact ihb (hc.2 w hw) hvw h
  | loop g body =>
    rw [Cmd.still, List.isEmpty_iff] at hc
    cases h.passes with
    | stop => rfl
    | pass hg =>
      obtain ⟨w, hw, -⟩ := Guard.any_assume hv hg
      rw [hc] at hw
      cases hw
  | nest body ih =>
    cases h with
    | @nest _ _ m h => exact ih (p := s.fresh p.index) (q := m) hc (hv.forget rfl) h
  | close kind =>
    cases h
    rfl
  | wrap kind =>
    cases h
    rfl
  | _ => cases hc

end

/-- How many tokens of a window have to follow those that the rule reads there. A statement looks
for an `else` or a handler behind it. -/
def Rule.room : Rule → Nat
  | resourceSpecification => 2
  | tryStatement | statement | blockStatement | labeledStatement | ifStatement | whileStatement
  | forStatement => 1
  | _ => 0

def Border.room (border : Border) (r : Rule) : Nat :=
  match border with
  | .ended | .parted => r.room
  | .enclosed | .bare => max 1 r.room

/-- The rules that need nothing to hold the border. -/
def Rule.isLight : Rule → Bool
  | name | type | referenceType | classType false | dims | typeArguments | typeArgument
  | additionalBound | modifiers | variableModifiers | annotationUse => true
  | _ => false

/-- Rules behind which an annotation might be part of dimensions. -/
def Rule.asks : Rule → Bool
  | type | referenceType | dims | typeArgument => true
  | _ => false

/-- The rules that an operand is read by, up to the statements and declarations in it. -/
def Rule.isOperand : Rule → Bool
  | name | type | referenceType | classType _ | dims | typeArguments | typeArgument
  | additionalBound | annotationUse | elementValue | elementValueArray | expression | conditional
  | binary _ | unary | primary | lambda | lambdaParameters | argumentList | arrayInitializer
  | block | typeBody _ => true
  | _ => false

def Border.admits (border : Border) (r : Rule) : Bool :=
  match border with
  | .bare => r.isLight
  | .ended | .enclosed => r != .compilationUnit
  | .parted => r.isOperand

/-- What the command ends with may go on with dimensions, which annotations may precede. -/
def Cmd.asks : Cmd → Bool
  | seq a b => b.asks || (a.asks && !b.moves)
  | ite g a b => g.probe?.isSome || a.asks || b.asks
  | loop g body => g.probe?.isSome || body.asks
  | nest body => body.asks
  | jump r => r.asks
  | _ => false

/-- The test keeps the answer if the command is run on it. -/
def Test.kept (border : Border) (v : Outlook) (c : Cmd) (room : Nat) (u : Test) (answer : Bool) :
    Bool :=
  if answer then
    u.disjuncts.all fun d => d.keeps border (Outlook.fewest (d.assume true v) c.least + room) true
  else u.keeps border (Outlook.fewest (u.assume false v) c.least + room) false

namespace Guard

open Cmd Grammar in
def far (v : Outlook) (a b : Cmd) (g : Guard) : Bool :=
  (g == .test .lambdaAhead && [jump .lambda, call .lambda].contains a && b.balanced &&
      Decidable.decide (1 ≤ b.least {})) ||
    (g == referenceCastAhead && a == referenceCast && b == postfixed) ||
    ((v.kinds 0).subset (.single .ident) &&
      [(typeHead .genericMethodRef, call .type ++ methodReference, nameOrType),
        (.test (behindName .lbracket .rbracket), call .type ++ typeSuffix, nameOrClass),
        (.test (behindName .dot .kwClass), call (.classType false) ++ typeSuffix,
          nameRest)].contains (g, a, b))

def firm (border : Border) (v : Outlook) (a b : Cmd) (room : Nat) (g : Guard) : Bool :=
  border != .bare && g.far v a b ||
    match g with
    | test t => t.kept border v a room true && t.kept border v b room false
    | trial sure possible p =>
      sure.kept border v a room true && sure.kept border v b room false &&
        possible.kept border v a room true && possible.kept border v b room false &&
        p != .referenceCast && p.leads a &&
        (border != .bare || possible == .here .atSign && b == .skip) &&
        (border != .parted || p.isOuter)
    | typeHead _ => false

end Guard

def Table.firm (t : Table) (room : Nat) : Bool :=
  t.admits && t.rules.all fun r =>
    t.rows.all fun row => Decidable.decide (row.pattern.length ≤ r.least {} + room)

def Cmd.firm (border : Border) : Cmd → Outlook → Nat → Bool
  | seq a b, v, room =>
    a.firm border v (b.least {} + room) && b.firm border {} room &&
      (border != .bare || !a.asks || b.still { ahead := [.single .atSign] })
  | ite g a b, v, room =>
    g.firm border v a b room && (g.assume true v).all (a.firm border · room) &&
      (g.assume false v).all (b.firm border · room)
  | loop g body, _, room =>
    g.firm border {} body skip room && (g.assume true {}).all (body.firm border · room) &&
      (border != .bare || !body.asks || (g.assume true { ahead := [.single .atSign] }).isEmpty)
  | nest body, v, room =>
    Decidable.decide (1 ≤ body.least { v with latest := none } + room) &&
      body.firm border { v with latest := none } room
  | jump r, v, room =>
    Decidable.decide (border.room r ≤ room) && border.admits r && Outlook.leKinds v.ahead r.starts
  | dispatch t, _, room =>
    border != .bare && t.firm room &&
      t.rules.all fun r => Decidable.decide (border.room r ≤ room) && border.admits r
  | _, _, _ => true

/-- The rule is firm where it is entered, if it has the room that it needs. -/
def Rule.firm (border : Border) (r : Rule) : Bool :=
  r.body.firm border { ahead := r.starts } (border.room r)

/-- The rule is firm there only because what it reads stands in delimiters. -/
def Border.encloses : Border → Rule → Bool
  | .bare, .annotationUse | .parted, .lambdaParameters | .parted, .block
  | .parted, .typeBody _ => true
  | _, _ => false

/-- Wherever the rule is admitted it is firm, and no body of a light rule asks about annotations
behind it unless the rule is said to. -/
def Rule.firmWhereAdmitted (border : Border) (r : Rule) : Bool :=
  !border.admits r ||
    (border.encloses r || r.firm border) && (!r.body.asks || r.asks || border != .bare)

theorem Rule.firmWhereAdmitted_all (border : Border) (r : Rule) :
    r.firmWhereAdmitted border = true := by
  revert r
  cases border <;> decide +kernel

end JavaSyntax
