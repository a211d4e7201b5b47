import JavaSyntax.Proofs.Grouping
import JavaSyntax.Proofs.Transfer

/-!
# Whole sources

What a rule for operands reads up to the end of the source, the rules for longer expressions read
as well: where nothing follows they find no operator and no lambda.
-/

namespace JavaSyntax

namespace Cmd

/-- What is left of the command where the outlook decides its first tests. -/
def resolve (v : Outlook) : Cmd → Cmd
  | ite (.test u) a b =>
    if u.assume true v = [] then b.resolve v
    else if u.assume false v = [] then a.resolve v
    else ite (.test u) a b
  | c => c

/-- The command does nothing at the outlook. -/
def idle (v : Outlook) : Cmd → Bool
  | skip => true
  | seq a b => a.idle v && b.idle v
  | ite (.test u) a b =>
    (u.assume true v).isEmpty && b.idle v || (u.assume false v).isEmpty && a.idle v
  | loop (.test u) _ => (u.assume true v).isEmpty
  | _ => false

end Cmd

section
variable {s : TokenStream} {strict : Bool} {calls : Rule → Place → Ending → Prop} {n i : Nat}
  {a b c : Cmd} {p q : Place} {o : Ending} {v : Outlook} {u : Test} {r : Rule} {ks : KindSet}

theorem Test.holds_of_assume {answer : Bool} (hu : u.assume (!answer) v = [])
    (hv : v.Holds s i p) : u.holds s p.index p.draft = answer := by
  by_contra hne
  obtain ⟨w, hw, -⟩ := Test.any_assume hv (Bool.eq_not_of_ne hne)
  rw [hu] at hw
  cases hw

namespace Cmd.Ends

theorem of_test (h : Cmd.Ends s strict calls (.ite (.test u) a b) p o) :
    ∃ answer, u.holds s p.index p.draft = answer ∧
      Cmd.Ends s strict calls (if answer then a else b) p o := by
  cases h with
  | known hg h => exact ⟨_, Query.known.inj hg, h⟩
  | asked hg => cases hg
  | aborted hg => cases hg

theorem ite_yes (hu : u.holds s p.index p.draft = true) :
    Cmd.Ends s strict calls (.ite (.test u) a b) p o ↔ Cmd.Ends s strict calls a p o := by
  have hg : (Guard.test u).query s p = .known true := congrArg Query.known hu
  constructor
  · intro h
    obtain ⟨answer, hanswer, h⟩ := h.of_test
    cases hu.symm.trans hanswer
    exact h
  · exact fun h => .known hg h

theorem ite_no (hu : u.holds s p.index p.draft = false) :
    Cmd.Ends s strict calls (.ite (.test u) a b) p o ↔ Cmd.Ends s strict calls b p o := by
  have hg : (Guard.test u).query s p = .known false := congrArg Query.known hu
  constructor
  · intro h
    obtain ⟨answer, hanswer, h⟩ := h.of_test
    cases hu.symm.trans hanswer
    exact h
  · exact fun h => .known hg h

theorem resolve_iff (hv : v.Holds s i p) :
    Cmd.Ends s strict calls (c.resolve v) p o ↔ Cmd.Ends s strict calls c p o := by
  induction c with
  | ite g a b iha ihb =>
    cases g with
    | test u =>
      rw [Cmd.resolve]
      split
      · rename_i hu
        rw [ihb, ite_no (Test.holds_of_assume hu hv)]
      · split
        · rename_i hu
          rw [iha, ite_yes (Test.holds_of_assume hu hv)]
        · rfl
    | _ => rfl
  | _ => rfl

theorem of_idle (hc : c.idle v = true) (hv : v.Holds s i p) :
    Cmd.Ends s strict calls c p (.done p) := by
  induction c with
  | skip => exact .skip
  | seq a b iha ihb =>
    rw [Cmd.idle, Bool.and_eq_true] at hc
    exact .seq (iha hc.1) (ihb hc.2)
  | ite g a b iha ihb =>
    cases g with
    | test u =>
      rw [Cmd.idle, Bool.or_eq_true, Bool.and_eq_true, Bool.and_eq_true, List.isEmpty_iff,
        List.isEmpty_iff] at hc
      rcases hc with ⟨hu, hb⟩ | ⟨hu, ha⟩
      · exact (ite_no (Test.holds_of_assume hu hv)).2 (ihb hb)
      · exact (ite_yes (Test.holds_of_assume hu hv)).2 (iha ha)
    | _ => cases hc
  | loop g body =>
    cases g with
    | test u =>
      rw [Cmd.idle, List.isEmpty_iff] at hc
      exact .loop ((ite_no (Test.holds_of_assume hc hv)).2 .skip)
    | _ => cases hc
  | _ => cases hc

end Cmd.Ends

theorem Rule.Ends.contains_start (hr : r.body.exits { ahead := [KindSet.full.diff ks] } = [])
    (h : Rule.Ends s strict r p (.done q)) : ks.contains (s.kindAt p.index) = true := by
  cases h with
  | body h => exact h.contains_start hr

/-- A rule whose body has no exits from these kinds starts with none of them. -/
theorem Rule.Ends.not_contains_start (h : Rule.Ends s strict r p (.done q))
    (hr : r.body.exits { ahead := [ks] } = []) : ks.contains (s.kindAt p.index) = false := by
  refine Bool.eq_false_iff.2 fun hin => ?_
  cases h with
  | body h => exact Cmd.Ends.not_done (Outlook.holds_ahead_one hin) hr h

end

/-- Up to the index, at which the source ends, the command makes the tree of all tokens. -/
structure Cmd.Fills (s : TokenStream) (n : Nat) (c : Cmd) (t : Tree) : Prop where
  closed : s.Closed
  ended : s.kindAt n = .eof
  ends : ∃ d : Draft, Cmd.Ends s false (Rule.Ends s false) c (s.fresh 0) (.done ⟨n, d⟩) ∧
    d.items = [t]

/-- So does a rule. -/
def Rule.Fills (s : TokenStream) (n : Nat) (r : Rule) (t : Tree) : Prop := r.body.Fills s n t

def Outlook.atEnd : Outlook := { ahead := [.single .eof] }

section
variable {s : TokenStream} {n i : Nat} {a b c : Cmd} {t : Tree} {p q : Place} {d : Draft}
  {u : Test} {r : Rule} {strict : Bool} {calls : Rule → Place → Ending → Prop}

namespace Cmd.Fills

theorem seq (h : a.Fills s n t) (hb : b.idle .atEnd = true) : (Cmd.seq a b).Fills s n t := by
  obtain ⟨hclosed, hend, d, hq, ht⟩ := h
  exact ⟨hclosed, hend, d, .seq hq (.of_idle hb (Outlook.holds_ahead_one (by simp [hend]))), ht⟩

theorem call (h : r.Fills s n t) : (Cmd.call r).Fills s n t := by
  obtain ⟨hclosed, hend, d, hq, ht⟩ := h
  exact ⟨hclosed, hend, (s.fresh 0).draft.adopt d, .nest (q := ⟨n, d⟩) (.jump (.body hq)),
    by simp [Draft.adopt, ht]⟩

theorem imp (h : a.Fills s n t)
    (hab : ∀ q, s.kindAt q.index = .eof →
      Cmd.Ends s false (Rule.Ends s false) a (s.fresh 0) (.done q) →
      Cmd.Ends s false (Rule.Ends s false) b (s.fresh 0) (.done q)) : b.Fills s n t := by
  obtain ⟨hclosed, hend, d, hq, ht⟩ := h
  exact ⟨hclosed, hend, d, hab _ hend hq, ht⟩

end Cmd.Fills

open Grammar Cmd

theorem Grammar.nameFirst_ends {o : Ending} (hident : s.kindAt p.index = .ident) :
    Cmd.Ends s strict calls primaryFirst p o ↔ Cmd.Ends s strict calls nameFirst p o := by
  have hresolve : primaryFirst.resolve { ahead := [.single .ident] } = nameFirst := by
    decide
  rw [← hresolve]
  exact (Cmd.Ends.resolve_iff (Outlook.holds_ahead_one (a := .single .ident)
    (by simp [hident]))).symm

theorem Grammar.parenthesized_iff {o : Ending} (hopen : s.kindAt p.index = .lparen) :
    Cmd.Ends s strict calls primaryFirst p o ↔ Cmd.Ends s strict calls parenthesized p o := by
  have hresolve : primaryFirst.resolve { ahead := [.single .lparen] } = parenthesized := by
    decide
  rw [← hresolve]
  exact (Cmd.Ends.resolve_iff (Outlook.holds_ahead_one (a := .single .lparen)
    (by simp [hopen]))).symm

theorem Rule.Fills.primary_of_nameRest (h : nameRest.Fills s n t) (hident : s.kindAt 0 = .ident)
    (hnext : (KindSet.ofList [.less, .lbracket, .dot]).contains (s.kindAt (s.nameEnd 0)) = false) :
    Rule.primary.Fills s n t := by
  have hne {k : TokenKind} (hk : (KindSet.ofList [.less, .lbracket, .dot]).contains k = true) :
      s.kindAt (s.nameEnd 0) ≠ k := by
    rintro rfl
    cases hnext.symm.trans hk
  refine Cmd.Fills.seq (h.imp fun _ _ ho => ?_) (by decide)
  rw [Grammar.nameFirst_ends hident, nameFirst_eq]
  have hbehind {first second : TokenKind} (hfirst : s.kindAt (s.nameEnd 0) ≠ first) :
      (behindName first second).holds s 0 (s.fresh 0).draft = false := by
    simp [behindName, Test.holds, hfirst]
  have hhead : (Guard.typeHead .genericMethodRef).query s (s.fresh 0) = .known false := by
    rw [Guard.query, if_neg]
    exact fun hless => hne (by decide) hless.1
  exact .known hhead ((Cmd.Ends.ite_no (hbehind (hne (by decide)))).2
    ((Cmd.Ends.ite_no (hbehind (hne (by decide)))).2 ho))

theorem Rule.Fills.primary_of_name (h : Rule.name.Fills s n t) : Rule.primary.Fills s n t := by
  obtain ⟨-, hend, d, hq, ht⟩ := id h
  obtain ⟨hident, hname⟩ := (Rule.Ends.body hq).nameEnd_eq
  have hname : s.nameEnd 0 = n := hname
  refine primary_of_nameRest (Cmd.Fills.seq (Cmd.Fills.call h) (by decide)) hident ?_
  rw [hname, hend]
  decide

theorem Cmd.Ends.idle_eq {v : Outlook} (hc : c.idle v = true) (hv : v.Holds s i p)
    (h : Cmd.Ends s strict (Rule.Ends s strict) c p (.done q)) : q = p := by
  cases h.eq (.of_idle hc hv)
  rfl

theorem Grammar.parenthesized_ends
    (h : Cmd.Ends s strict (Rule.Ends s strict) parenthesized p (.done q)) :
    ∃ j, s.Encloses p.index j ∧ q.index = j + 1 ∧ p.index + 1 +
      Rule.expression.least { ahead := [.single (s.kindAt (p.index + 1))] } ≤ j := by
  obtain ⟨m₃, h, hclose⟩ := h.seq_done
  obtain ⟨m₂, h, hr⟩ := h.seq_done
  obtain ⟨m₁, hl, hexpression⟩ := h.seq_done
  obtain ⟨hopen, rfl⟩ := hl.of_expect
  obtain ⟨hright, rfl⟩ := hr.of_expect
  cases hclose
  have hle : p.index + 1 ≤ m₂.index := hexpression.index_le
  have hscan : s.scan (p.index + 1) m₂.index [] = some [] :=
    hexpression.balanced (by decide)
  refine ⟨m₂.index, TokenStream.encloses_of_parens hopen hright hle hscan, rfl, ?_⟩
  exact hexpression.count (Outlook.holds_ahead_one (by simp))

/-- A primary that starts where a lambda is seen ahead ends before the arrow. -/
theorem Rule.Ends.arrow_of_primary (h : Rule.Ends s strict .primary p (.done q))
    (hl : Test.lambdaAhead.holds s p.index d = true) : s.kindAt q.index = .arrow := by
  cases h with
  | body h =>
    obtain ⟨m, hfirst, hloop⟩ := h.seq_done
    have hm : s.kindAt m.index = .arrow := by
      rw [Test.holds_lambdaAhead] at hl
      rcases hl with ⟨hident, harrow⟩ | hl
      · rw [nameFirst_ends hident, nameFirst_eq] at hfirst
        have hname : s.nameEnd p.index = p.index + 1 :=
          (TokenStream.Segments.stop (by simp [harrow])).nameEnd_eq
        have hbehind {first second : TokenKind} (hne : first ≠ .arrow) :
            (behindName first second).holds s p.index p.draft = false := by
          simp [behindName, Test.holds, hname, harrow, hne.symm]
        obtain ⟨answer, hhead, hfirst⟩ := hfirst.ite_answers
        have hhead : answer = false := by
          refine Guard.Answers.unique (.known ?_) hhead
          rw [Guard.query, if_neg]
          simp [hname, harrow]
        subst hhead
        rw [if_neg (by simp), Grammar.nameOrType, Cmd.Ends.ite_no (hbehind (by decide)),
          Grammar.nameOrClass, Cmd.Ends.ite_no (hbehind (by decide))] at hfirst
        obtain ⟨m', hcall, hrest⟩ := hfirst.seq_done
        obtain ⟨m'', hread, rfl⟩ := hcall.called
        have hindex : p.index + 1 = m''.index := hname.symm.trans hread.nameEnd_eq.2
        rw [hrest.idle_eq (v := { ahead := [.single .arrow] }) (by decide)
          (Outlook.holds_ahead_one (by simp [← hindex, harrow]))]
        change s.kindAt m''.index = .arrow
        rw [← hindex, harrow]
      · have hopen := TokenStream.kindAt_of_isLambdaHead hl
        rw [parenthesized_iff hopen] at hfirst
        obtain ⟨j, hj, hm, -⟩ := parenthesized_ends hfirst
        rw [hj.isLambdaHead hopen, beq_iff_eq] at hl
        rw [hm, hl]
    rw [hloop.idle_eq (v := { ahead := [.single .arrow] }) (by decide)
      (Outlook.holds_ahead_one (by simp [hm])), hm]

def UnaryOp.starts : KindSet := .ofList (all.map token)

theorem Rule.Ends.primary_start (h : Rule.Ends s strict .primary p (.done q)) :
    (KindSet.full.diff (UnaryOp.starts.insert .arrow)).contains
      (s.kindAt p.index) = true :=
  h.contains_start (by decide)

/-- Where neither a parenthesis nor a prefix operator stands, a unary expression is a primary with
postfix operators. -/
theorem Grammar.postfixed_iff {o : Ending}
    (hother : (KindSet.full.diff (UnaryOp.starts.insert .lparen)).contains
      (s.kindAt p.index) = true) :
    Cmd.Ends s strict calls unary p o ↔ Cmd.Ends s strict calls postfixed p o := by
  have hresolve : unary.resolve { ahead := [KindSet.full.diff (UnaryOp.starts.insert .lparen)] } =
      postfixed := by
    decide
  rw [← hresolve]
  exact (Cmd.Ends.resolve_iff (Outlook.holds_ahead_one hother)).symm

/-- What a parenthesis starts. -/
def Grammar.headed : Cmd :=
  ite (.test (.both (.ahead 1 TokenKind.primitives) (.ahead 2 (.single .rparen)))) primitiveCast
    (ite referenceCastAhead referenceCast postfixed)

theorem Grammar.headed_iff {o : Ending} (hopen : s.kindAt p.index = .lparen) :
    Cmd.Ends s strict calls unary p o ↔ Cmd.Ends s strict calls headed p o := by
  have hresolve : unary.resolve { ahead := [.single .lparen] } = headed := by decide
  rw [← hresolve]
  exact (Cmd.Ends.resolve_iff (Outlook.holds_ahead_one (a := .single .lparen)
    (by simp [hopen]))).symm

theorem Grammar.arrow_of_postfixed
    (h : Cmd.Ends s strict (Rule.Ends s strict) postfixed p (.done q))
    (hl : Test.lambdaAhead.holds s p.index d = true) : s.kindAt q.index = .arrow := by
  obtain ⟨m, hcall, hloop⟩ := h.seq_done
  obtain ⟨m', hprimary, hm⟩ := hcall.called
  have harrow : s.kindAt m.index = .arrow := by
    rw [hm]
    change s.kindAt m'.index = .arrow
    exact hprimary.arrow_of_primary hl
  rw [hloop.idle_eq (v := { ahead := [.single .arrow] }) (by decide)
    (Outlook.holds_ahead_one (by simp [harrow])), harrow]

theorem Rule.Ends.primary_of_unary (h : Rule.Ends s strict .unary p (.done q))
    (hother : (KindSet.full.diff (UnaryOp.starts.insert .lparen)).contains
      (s.kindAt p.index) = true) :
    ∃ m, Rule.Ends s strict .primary (s.fresh p.index) (.done m) := by
  cases h with
  | body h =>
    have h : Cmd.Ends s strict (Rule.Ends s strict) Grammar.unary p (.done q) := h
    rw [Grammar.postfixed_iff hother] at h
    obtain ⟨_, hcall, -⟩ := h.seq_done
    obtain ⟨m, hprimary, -⟩ := hcall.called
    exact ⟨m, hprimary⟩

theorem Rule.Ends.primary_of_expression (h : Rule.Ends s strict .expression p (.done q))
    (hother : (KindSet.full.diff ((UnaryOp.starts.insert .lparen).insert .ident)).contains
      (s.kindAt p.index) = true) :
    ∃ m, Rule.Ends s strict .primary (s.fresh p.index) (.done m) := by
  cases h with
  | body h =>
    obtain ⟨answer, hahead, h⟩ := h.ite_answers
    cases answer with
    | true =>
      rcases Test.holds_lambdaAhead.1 hahead.of_test with ⟨hident, -⟩ | hhead
      · rw [hident] at hother
        cases hother
      · rw [TokenStream.kindAt_of_isLambdaHead hhead] at hother
        cases hother
    | false =>
      obtain ⟨_, hcall, -⟩ := h.seq_done
      obtain ⟨_, hconditional, -⟩ := hcall.called
      cases hconditional with
      | body h =>
        obtain ⟨_, hcall, -⟩ := h.seq_done
        obtain ⟨_, hbinary, -⟩ := hcall.called
        cases hbinary with
        | body h =>
          rw [Rule.body_binary] at h
          obtain ⟨_, hcall, -⟩ := h.seq_done
          obtain ⟨_, hunary, -⟩ := hcall.called
          exact hunary.primary_of_unary (KindSet.contains_of_subset (by decide) hother)

theorem Rule.Ends.unary_start (h : Rule.Ends s strict .unary p (.done q)) :
    s.kindAt p.index ≠ .arrow := by
  intro harrow
  obtain ⟨m, hprimary⟩ := h.primary_of_unary (by rw [harrow]; decide)
  have hstart := hprimary.primary_start
  rw [TokenStream.fresh_index, harrow] at hstart
  cases hstart

theorem TokenStream.encloses_primitive (hopen : s.kindAt i = .lparen)
    (h : (Test.both (.ahead 1 TokenKind.primitives) (.ahead 2 (.single .rparen))).holds s i d =
      true) : s.Encloses i (i + 2) := by
  simp only [Test.holds, Bool.and_eq_true, KindSet.contains_single, decide_eq_true_eq] at h
  refine encloses_of_parens hopen h.2 (by omega) ?_
  rw [scan_succ]
  have hprim := h.1
  revert hprim
  generalize s.kindAt (i + 1) = kind
  cases kind <;> decide

theorem Rule.Ends.arrow_of_unary (h : Rule.Ends s strict .unary p (.done q))
    (hl : Test.lambdaAhead.holds s p.index d = true) : s.kindAt q.index = .arrow := by
  cases h with
  | body h =>
    have h : Cmd.Ends s strict (Rule.Ends s strict) Grammar.unary p (.done q) := h
    have hcases := Test.holds_lambdaAhead.1 hl
    rcases hcases with ⟨hident, harrow⟩ | hcases
    · rw [Grammar.postfixed_iff (by rw [hident]; decide)] at h
      exact Grammar.arrow_of_postfixed h hl
    · have hopen := TokenStream.kindAt_of_isLambdaHead hcases
      rw [Grammar.headed_iff hopen] at h
      obtain ⟨answer, hg, h⟩ := h.ite_answers
      cases answer with
      | true =>
        have hclose := TokenStream.encloses_primitive hopen hg.of_test
        rw [hclose.isLambdaHead hopen, beq_iff_eq] at hcases
        obtain ⟨m₄, h, -⟩ := h.seq_done
        obtain ⟨m₃, h, hunary⟩ := h.seq_done
        obtain ⟨m₂, h, hright⟩ := h.seq_done
        obtain ⟨m₁, hleft, htype⟩ := h.seq_done
        obtain ⟨m, hunary, -⟩ := hunary.called
        have hstart := hunary.unary_start
        have hm₁ : m₁.index = p.index + 1 := congrArg Place.index hleft.of_expect.2
        have hm₃ : m₃.index = m₂.index + 1 := congrArg Place.index hright.of_expect.2
        have hm₂ : m₂.index = m₁.index + 1 := by
          cases htype with
          | nest htype =>
            obtain ⟨m, hshift, hclose⟩ := htype.seq_done
            cases hclose
            cases hshift
            rfl
        rw [TokenStream.fresh_index, hm₃, hm₂, hm₁] at hstart
        exact absurd hcases hstart
      | false =>
        obtain ⟨answer, hg, h⟩ := h.ite_answers
        cases answer with
        | true =>
          have hno := (Grammar.answers_castAhead.1 hg).1.2
          cases hno.symm.trans hcases
        | false => exact Grammar.arrow_of_postfixed h hl

theorem Rule.Ends.arrow_of_conditional (h : Rule.Ends s strict .conditional p (.done q))
    (hl : Test.lambdaAhead.holds s p.index d = true) : s.kindAt q.index = .arrow := by
  have hidle {c : Cmd} {p q : Place} (hc : c.idle { ahead := [.single .arrow] } = true)
      (hp : s.kindAt p.index = .arrow) (h : Cmd.Ends s strict (Rule.Ends s strict) c p (.done q)) :
      s.kindAt q.index = .arrow := by
    rw [h.idle_eq hc (Outlook.holds_ahead_one (by simp [hp])), hp]
  cases h with
  | body h =>
    obtain ⟨m, hcall, hrest⟩ := h.seq_done
    refine hidle ?_ ?_ hrest
    · decide
    obtain ⟨m', hbinary, rfl⟩ := hcall.called
    change s.kindAt m'.index = .arrow
    cases hbinary with
    | body hbinary =>
      rw [Rule.body_binary] at hbinary
      obtain ⟨m₁, hcall, hloop⟩ := hbinary.seq_done
      refine hidle ?_ ?_ hloop
      · decide
      obtain ⟨m₂, hunary, rfl⟩ := hcall.called
      exact hunary.arrow_of_unary hl

/-- A parenthesis that starts a primary with postfix operators starts no cast. -/
theorem Grammar.headed_postfixed (hs : s.Closed) (hp : p.index ≤ s.lastIndex)
    (hopen : s.kindAt p.index = .lparen) (hend : s.kindAt q.index = .eof)
    (h : Cmd.Ends s strict (Rule.Ends s strict) postfixed p (.done q)) :
    Cmd.Ends s strict (Rule.Ends s strict) headed p (.done q) := by
  obtain ⟨m, hcall, hloop⟩ := h.seq_done
  obtain ⟨m', hprimary, hm⟩ := hcall.called
  cases hprimary with
  | body hprimary =>
    obtain ⟨m₁, hfirst, hselectors⟩ := hprimary.seq_done
    have hopen' : s.kindAt (s.fresh p.index).index = .lparen := hopen
    rw [parenthesized_iff hopen'] at hfirst
    obtain ⟨j, hj, hm₁, hleast⟩ := parenthesized_ends hfirst
    rw [TokenStream.fresh_index] at hj hleast
    -- Behind the parenthesis stands no operand.
    have hbehind : TokenKind.castOperandStart.contains (s.kindAt (j + 1)) = false := by
      refine Bool.eq_false_iff.2 fun hoperand => ?_
      rw [← hm₁] at hoperand
      have hm' := hselectors.idle_eq (by decide) (Outlook.holds_ahead_one hoperand)
      rw [hm'] at hm
      have hq := hloop.idle_eq (by decide) (Outlook.holds_ahead_one
        (a := TokenKind.castOperandStart) (by rw [hm]; exact hoperand))
      rw [hq, hm] at hend
      change s.kindAt m₁.index = .eof at hend
      rw [hend] at hoperand
      exact absurd hoperand (by decide)
    have hprimitive : (Test.both (.ahead 1 TokenKind.primitives)
        (.ahead 2 (.single .rparen))).holds s p.index p.draft = false := by
      refine Bool.eq_false_iff.2 fun hprimitive => ?_
      have hclose := TokenStream.encloses_primitive hopen hprimitive
      have hleast' : Rule.expression.least { ahead := [.single (s.kindAt (p.index + 1))] } = 3 := by
        rw [Test.holds, Bool.and_eq_true] at hprimitive
        have hprim := hprimitive.1
        rw [Test.holds] at hprim
        revert hprim
        generalize s.kindAt (p.index + 1) = kind
        cases kind <;> decide
      have := hj.unique hclose
      omega
    have hcast : referenceCastAhead.Answers s strict p false := by
      refine Guard.answers_of_ne hs hp fun answer hanswer => ?_
      rintro rfl
      obtain ⟨-, q, hhead, hoperand⟩ := answers_castAhead.1 hanswer
      obtain ⟨j', -, hj', hq⟩ := castHead_ends hhead
      obtain rfl := hj.unique hj'
      rw [hq, hbehind] at hoperand
      cases hoperand
    exact (Cmd.Ends.ite_no hprimitive).2 (hcast.ite h)

namespace Rule.Fills

theorem expression_of_conditional (h : conditional.Fills s n t) : expression.Fills s n t := by
  obtain ⟨-, hend, d, hq, -⟩ := id h
  have hno : Test.lambdaAhead.holds s 0 (s.fresh 0).draft = false := by
    refine Bool.eq_false_iff.2 fun hl => ?_
    have harrow : s.kindAt n = .arrow := (Rule.Ends.body hq).arrow_of_conditional hl
    cases hend.symm.trans harrow
  have hseq : (Cmd.call conditional ++ assignment).Fills s n t :=
    Cmd.Fills.seq (Cmd.Fills.call h) (by decide)
  exact hseq.imp fun _ _ ho => (Cmd.Ends.ite_no hno).2 ho

theorem expression_of_lambda (h : lambda.Fills s n t) : expression.Fills s n t := by
  obtain ⟨-, -, d, hq, -⟩ := id h
  have hyes : Test.lambdaAhead.holds s 0 (s.fresh 0).draft = true :=
    (Rule.Ends.body hq).lambda_ahead
  exact Cmd.Fills.imp h fun _ _ ho => (Cmd.Ends.ite_yes hyes).2 (.jump (.body ho))

theorem conditional_of_binary (h : (binary 1).Fills s n t) : conditional.Fills s n t :=
  Cmd.Fills.seq (Cmd.Fills.call h) (by decide)

theorem unary_of_postfixed (h : postfixed.Fills s n t) : unary.Fills s n t := by
  obtain ⟨hclosed, hend, d, hq, ht⟩ := h
  refine ⟨hclosed, hend, d, ?_, ht⟩
  by_cases hopen : s.kindAt 0 = .lparen
  · exact (Grammar.headed_iff hopen).2
      (Grammar.headed_postfixed hclosed (Nat.zero_le _) hopen hend hq)
  · refine (Grammar.postfixed_iff ?_).2 hq
    obtain ⟨m, hcall, -⟩ := hq.seq_done
    obtain ⟨m', hprimary, -⟩ := hcall.called
    have hstart := hprimary.primary_start
    simp only [KindSet.contains_diff, KindSet.contains_full, KindSet.contains_insert,
      TokenStream.fresh_index, Bool.true_and, Bool.not_eq_true', Bool.or_eq_false_iff] at hstart ⊢
    exact ⟨hstart.1, by simpa using hopen⟩

theorem unary_of_primary (h : primary.Fills s n t) : unary.Fills s n t :=
  unary_of_postfixed (Cmd.Fills.seq (Cmd.Fills.call h) (by decide))

theorem binary_of_unary (h : unary.Fills s n t) : (binary 1).Fills s n t := by
  rw [Fills, Rule.body_binary]
  exact Cmd.Fills.seq (Cmd.Fills.call h) (by decide)

end Rule.Fills

end

/-- The command, and the other one so many times behind it. -/
def Cmd.after (c body : Cmd) : Nat → Cmd
  | 0 => c
  | n + 1 => seq (c.after body n) body

section
variable {s : TokenStream} {n : Nat} {c body : Cmd} {t : Tree} {p q : Place} {d : Draft}
  {u : Test} {strict : Bool} {calls : Rule → Place → Ending → Prop}

/-- Some passes of a loop, of which each is taken only if the test holds. -/
def Cmd.passes (c : Cmd) (u : Test) (body : Cmd) (n : Nat) : Cmd :=
  c.after (.ite (.test u) body .skip) n

theorem Cmd.Ends.loop_of_passes {o : Ending}
    (h : Cmd.Ends s strict calls (c.passes u body n) p (.done q))
    (hloop : Cmd.Ends s strict calls (.loop (.test u) body) q o) :
    Cmd.Ends s strict calls (.seq c (.loop (.test u) body)) p o := by
  induction n generalizing q with
  | zero => exact .seq h hloop
  | succ n ih =>
    obtain ⟨m, hfirst, hpass⟩ := h.seq_done
    refine ih hfirst ?_
    obtain ⟨answer, hu, hpass⟩ := hpass.of_test
    cases answer with
    | true => exact .loop ((ite_yes hu).2 (.seq hpass hloop))
    | false =>
      cases hpass
      exact hloop

theorem Cmd.Fills.loop {m : Nat} (h : (c.passes u body m).Fills s n t)
    (hu : u.assume true .atEnd = []) : (Cmd.seq c (.loop (.test u) body)).Fills s n t := by
  obtain ⟨hclosed, hend, d, hq, ht⟩ := h
  have hv : Outlook.atEnd.Holds s n ⟨n, d⟩ :=
    Outlook.holds_ahead_one (p := ⟨n, d⟩) (a := .single .eof) (by simp [hend])
  have hstop : (Cmd.loop (.test u) body).idle .atEnd = true := by
    rw [Cmd.idle, hu]
    rfl
  exact ⟨hclosed, hend, d, hq.loop_of_passes (.of_idle hstop hv), ht⟩

end

section
variable {s : TokenStream} {n i : Nat} {t : Tree} {p q : Place} {least : Fin 12} {o : Ending}
  {ops : List InfixOperator} {op : InfixOperator} {strict : Bool}
  {calls : Rule → Place → Ending → Prop}

/-- The operator that is read at an index, the first of those that stand there. -/
def InfixOperator.first? (s : TokenStream) (i : Nat) (ops : List InfixOperator) :
    Option InfixOperator :=
  ops.find? fun o => (Grammar.spelled 0 o.spelling).holds s i default

theorem InfixOperator.of_first? (h : first? s i ops = some op) : op ∈ ops ∧ op.StandsAt s i := by
  rw [first?] at h
  have hstands := List.find?_some h
  exact ⟨List.mem_of_find?_eq_some h, hstands⟩

/-- Of two operators that stand at one index the one that is tried first binds no less tightly. -/
theorem InfixOperator.pairwise_level : all.Pairwise fun a b =>
    a.spelling.head? = b.spelling.head? → b.level ≤ a.level := by
  decide

theorem InfixOperator.head?_eq (hop : op ∈ all) (hs : op.StandsAt s i) :
    op.spelling.head? = some (s.kindAt i) := by
  have hne : ∀ o ∈ all, o.spelling ≠ [] := by decide
  obtain ⟨k, ks, hspelling⟩ := List.exists_cons_of_ne_nil (hne op hop)
  rw [StandsAt, hspelling] at hs
  rw [hspelling, List.head?_cons]
  cases ks with
  | nil => simpa [Grammar.spelled, Test.holds, eq_comm] using hs
  | cons k' ks =>
    rw [Grammar.spelled.eq_3 _ _ _ (by simp), Test.holds, Bool.and_eq_true] at hs
    simpa [Test.holds, eq_comm] using hs.1

/-- The operator that is read does not depend on the level, if it binds tightly enough. -/
theorem InfixOperator.first?_mono {low : Fin 12} (hlow : low ≤ least)
    (h : first? s i (Grammar.operatorsFrom least) = some op) :
    first? s i (Grammar.operatorsFrom low) = some op := by
  rw [first?, Grammar.operatorsFrom, List.find?_filter] at h ⊢
  obtain ⟨hop, as, bs, hall, has⟩ := List.find?_eq_some_iff_append.1 h
  rw [decide_eq_true_eq, decide_eq_true_eq] at hop
  have hmem : op ∈ all := hall ▸ List.mem_append_right _ List.mem_cons_self
  refine List.find?_eq_some_iff_append.2 ⟨?_, as, bs, hall, fun a ha => ?_⟩
  · rw [decide_eq_true_eq, decide_eq_true_eq]
    exact ⟨Nat.le_trans hlow hop.1, hop.2⟩
  · have hno := has a ha
    have hpairs := pairwise_level
    rw [hall, List.pairwise_append] at hpairs
    have hle := hpairs.2.2 a ha op List.mem_cons_self
    have ha : a ∈ all := hall ▸ List.mem_append_left _ ha
    simp only [Bool.not_eq_true', decide_eq_false_iff_not, decide_eq_true_eq, not_and] at hno ⊢
    intro _ hs
    refine hno (Nat.le_trans hop.1 (hle ?_)) hs
    rw [head?_eq ha hs, head?_eq hmem hop.2]

theorem Grammar.chain_iff :
    Cmd.Ends s strict calls
      (ops.foldr (fun o rest => .ite (spelled 0 o.spelling) (operation o) rest) .skip) p o ↔
      Cmd.Ends s strict calls (((InfixOperator.first? s p.index ops).map operation).getD .skip) p
        o := by
  induction ops with
  | nil => rfl
  | cons a ops ih =>
    rw [List.foldr_cons, InfixOperator.first?, List.find?_cons]
    cases ha : (spelled 0 a.spelling).holds s p.index default with
    | true =>
      rw [Cmd.Ends.ite_yes (by rw [holds_spelled p.draft default, ha])]
      rfl
    | false =>
      rw [Cmd.Ends.ite_no (by rw [holds_spelled p.draft default, ha])]
      exact ih

/-- Up to the end of the source, a loop for all operators reads what one for the tighter ones
does. -/
theorem Grammar.loop_one (hleast : 1 ≤ least) (hend : s.kindAt q.index = .eof)
    (h : Cmd.Passes s strict calls (operatorAhead (operatorsFrom least))
      ((operatorsFrom least).foldr
        (fun o rest => .ite (spelled 0 o.spelling) (operation o) rest) .skip) p q) :
    Cmd.Ends s strict calls (.loop (operatorAhead (operatorsFrom 1))
      ((operatorsFrom 1).foldr
        (fun o rest => .ite (spelled 0 o.spelling) (operation o) rest) .skip)) p (.done q) := by
  induction h with
  | stop =>
    exact .of_idle (v := .atEnd) (by decide)
      (Outlook.holds_ahead_one (a := .single .eof) (by simp [hend]))
  | @pass p m q _ hb _ ih =>
    have ih := ih hend
    rw [chain_iff] at hb
    cases hfirst : InfixOperator.first? s p.index (operatorsFrom least) with
    | none =>
      rw [hfirst] at hb
      cases hb
      exact ih
    | some op =>
      have hone := InfixOperator.first?_mono hleast hfirst
      rw [hfirst] at hb
      obtain ⟨hmem, hstands⟩ := InfixOperator.of_first? hone
      refine .loop ((Cmd.Ends.ite_yes (operatorAhead_of_standsAt hmem hstands)).2
        (.seq (chain_iff.2 ?_) ih))
      rw [hone]
      exact hb

/-- An infix expression of any level that fills the source is one of the lowest level. -/
theorem Rule.Fills.binary_one (h : (Rule.binary least).Fills s n t) :
    (Rule.binary 1).Fills s n t := by
  by_cases hleast : 1 ≤ least
  · rw [Rule.Fills, Rule.body_binary] at h ⊢
    refine Cmd.Fills.imp h fun q hend hq => ?_
    obtain ⟨m, hunary, hloop⟩ := hq.seq_done
    exact .seq hunary (Grammar.loop_one hleast hend hloop.passes)
  · have hzero : least = 0 := by omega
    subst hzero
    have hsame : Grammar.binary 0 = Grammar.binary 1 := by decide
    rw [Rule.Fills, Rule.body_binary] at h ⊢
    exact hsame ▸ h

end

end JavaSyntax
