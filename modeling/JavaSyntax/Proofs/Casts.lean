import JavaSyntax.Proofs.Budget
import JavaSyntax.Proofs.Nodes
import JavaSyntax.Proofs.Tables

/-!
# Casts and parentheses

A parenthesis that opens neither a lambda nor a cast to a primitive type opens a reference cast
if a type in parentheses stands there and an operand behind it. Fixed lookahead rules out most
other cases before that is tried. It misses one kind of type: a primitive type whose dimensions
are annotated.
-/

namespace JavaSyntax

namespace Cmd.Ends
variable {s : TokenStream} {strict : Bool} {calls : Rule → Place → Ending → Prop}
  {body : Cmd} {g : Guard} {k : TokenKind} {p q : Place} {o : Ending}

theorem loop_stop (hg : g.query s p = .known false)
    (h : Cmd.Ends s strict calls (.loop g body) p o) : o = .done p := by
  cases h with
  | loop h =>
    cases h with
    | known hg' h =>
      cases hg.symm.trans hg'
      cases h
      rfl
    | asked hg' => cases hg.symm.trans hg'
    | aborted hg' => cases hg.symm.trans hg'

theorem of_expect (h : Cmd.Ends s strict calls (.expect k) p (.done q)) :
    s.kindAt p.index = k ∧ q = ⟨p.index + 1,
      p.draft.push (.leaf (s.tokenAt p.index).kind (s.tokenAt p.index).span)⟩ := by
  obtain ⟨answer, hg, h⟩ := h.ite_done
  cases answer with
  | true =>
    rw [Guard.allows_test, Test.here, Test.holds, KindSet.contains_single,
      decide_eq_true_eq] at hg
    cases h
    exact ⟨hg, rfl⟩
  | false => cases h

end Cmd.Ends

section
variable {s : TokenStream} {strict : Bool} {p q : Place} {i : Nat}

theorem Cmd.Ends.any_exits {c : Cmd} {v : Outlook}
    (h : Cmd.Ends s strict (Rule.Ends s strict) c p (.done q)) (hv : v.Holds s p.index p) :
    Outlook.Any s p.index q (c.exits v) :=
  h.exits (fun _ _ _ h => h.covers) (fun _ _ _ h => h.exits) hv

theorem Cmd.Ends.not_done {c : Cmd} {v : Outlook} (hv : v.Holds s p.index p)
    (hc : c.exits v = []) : ¬Cmd.Ends s strict (Rule.Ends s strict) c p (.done q) := by
  intro h
  obtain ⟨w, hw, -⟩ := h.any_exits hv
  rw [hc] at hw
  cases hw

theorem Outlook.holds_ahead {ks : List KindSet}
    (h : ∀ k (set : KindSet), ks[k]? = some set → set.contains (s.kindAt (p.index + k)) = true) :
    ({ ahead := ks } : Outlook).Holds s p.index p where
  start_le := Nat.le_refl _
  past := by simp
  ahead := h
  touch := by simp
  latest := by simp
  moved := by simp

theorem Outlook.holds_ahead_one {a : KindSet} (ha : a.contains (s.kindAt p.index) = true) :
    ({ ahead := [a] } : Outlook).Holds s p.index p := by
  apply holds_ahead
  intro k set hk
  cases k with
  | zero =>
    cases hk
    exact ha
  | succ k => cases hk

theorem Outlook.holds_ahead_two {a b : KindSet} (ha : a.contains (s.kindAt p.index) = true)
    (hb : b.contains (s.kindAt (p.index + 1)) = true) :
    ({ ahead := [a, b] } : Outlook).Holds s p.index p := by
  apply holds_ahead
  intro k set hk
  match k, hk with
  | 0, hk =>
    cases hk
    exact ha
  | 1, hk =>
    cases hk
    exact hb

/-- A type without annotations before it starts with a name or a primitive type, and the latter
is all of it unless a bracket or an annotation follows. -/
theorem Rule.Ends.type_start (h : Rule.Ends s strict .type p (.done q))
    (hat : s.kindAt p.index ≠ .atSign) :
    s.kindAt p.index = .ident ∨
      TokenKind.primitives.contains (s.kindAt p.index) = true ∧
        (s.kindAt (p.index + 1) = .lbracket ∨ s.kindAt (p.index + 1) = .atSign ∨
          q.draft.items.head?.bind Tree.nodeKind? = some .primitiveType) := by
  have hrest : Cmd.Ends s strict (Rule.Ends s strict)
      (.seq (Grammar.bareType false) Grammar.arraySuffix) p (.done q) := by
    cases h with
    | body h =>
      obtain ⟨m, h, hsuffix⟩ := h.seq_done
      obtain ⟨m', hannotations, hbare⟩ := h.seq_done
      have hnone : (Guard.test Grammar.annotationAhead).query s p = .known false := by
        simp [Guard.query, Grammar.annotationAhead, Test.here, Test.holds, hat]
      cases hannotations.loop_stop hnone
      exact .seq hbare hsuffix
  by_cases hident : s.kindAt p.index = .ident
  · exact .inl hident
  by_cases hprim : TokenKind.primitives.contains (s.kindAt p.index) = true
  · refine .inr ⟨hprim, ?_⟩
    by_cases hbracket : s.kindAt (p.index + 1) = .lbracket
    · exact .inl hbracket
    by_cases hnext : s.kindAt (p.index + 1) = .atSign
    · exact .inr (.inl hnext)
    right; right
    have hother : (KindSet.full.diff (.ofList [.lbracket, .atSign])).contains
        (s.kindAt (p.index + 1)) = true := by
      simp [KindSet.contains_ofList, hbracket, hnext]
    obtain ⟨v, hv, hq⟩ := hrest.any_exits (Outlook.holds_ahead_two hprim hother)
    have hall : ∀ v ∈ (Cmd.seq (Grammar.bareType false) Grammar.arraySuffix).exits
        { ahead := [TokenKind.primitives, KindSet.full.diff (.ofList [.lbracket, .atSign])] },
        v.latest = some .primitiveType := by
      decide
    exact hq.latest _ (hall v hv)
  · refine absurd hrest (Cmd.Ends.not_done (v := { ahead := [KindSet.full.diff
      (TokenKind.primitives ∪ .single .ident)] }) (Outlook.holds_ahead_one ?_) (by decide))
    change (KindSet.full.diff (TokenKind.primitives.union (.single .ident))).contains _ = true
    simp [hprim, hident]

theorem Rule.Ends.referenceType_start (h : Rule.Ends s strict .referenceType p (.done q))
    (hp : p.draft.items = []) (hat : s.kindAt p.index ≠ .atSign) :
    s.kindAt p.index = .ident ∨
      TokenKind.primitives.contains (s.kindAt p.index) = true ∧
        (s.kindAt (p.index + 1) = .lbracket ∨ s.kindAt (p.index + 1) = .atSign) := by
  cases h with
  | body h =>
    obtain ⟨m, htype, hrefuse⟩ := h.seq_done
    cases htype with
    | @nest _ _ m htype =>
      cases htype with
      | jump htype =>
        rcases htype.type_start hat with hident | ⟨hprim, hbracket | hnext | hlatest⟩
        · exact .inl hident
        · exact .inr ⟨hprim, .inl hbracket⟩
        · exact .inr ⟨hprim, .inr hnext⟩
        · -- A primitive type alone is refused.
          obtain ⟨answer, hg, hrefuse⟩ := hrefuse.ite_done
          cases answer with
          | true => cases hrefuse
          | false =>
            rw [Guard.allows_test, Test.holds, Draft.lastIs] at hg
            have hitems : (p.draft.adopt m.draft).items = m.draft.items := by
              simp [Draft.adopt, hp]
            simp [hitems, hlatest] at hg

end

namespace TokenStream
variable (s : TokenStream) (strict : Bool) (i : Nat)

/-- A parenthesis opens at the index, but no lambda and no cast to a primitive type. -/
structure OpensPlainly : Prop where
  lparen : s.kindAt i = .lparen
  not_lambda : s.isLambdaHead i = false
  not_primitive : ¬(TokenKind.primitives.contains (s.kindAt (i + 1)) = true ∧
    s.kindAt (i + 2) = .rparen)

/-- A type in parentheses stands at the index, and behind it what an operand starts with. -/
def CastAt : Prop :=
  ∃ q, Cmd.Ends s strict (Rule.Ends s strict) Grammar.castHead (s.fresh i) (.done q) ∧
    (TokenKind.castOperandStart.contains (s.kindAt q.index) = true ∨
      Test.lambdaAhead.holds s q.index q.draft = true)

/-- The type in the parentheses is a primitive type with an annotation behind it. -/
def AnnotatedPrimitiveAt : Prop :=
  TokenKind.primitives.contains (s.kindAt (i + 1)) = true ∧ s.kindAt (i + 2) = .atSign

end TokenStream

section
variable {s : TokenStream} {strict : Bool} {p q : Place} {i : Nat} {o : Ending}

theorem Grammar.castHead_start
    (h : Cmd.Ends s strict (Rule.Ends s strict) Grammar.castHead p (.done q)) :
    s.kindAt (p.index + 1) = .ident ∨ s.kindAt (p.index + 1) = .atSign ∨
      TokenKind.primitives.contains (s.kindAt (p.index + 1)) = true ∧
        (s.kindAt (p.index + 2) = .lbracket ∨ s.kindAt (p.index + 2) = .atSign) := by
  by_cases hat : s.kindAt (p.index + 1) = .atSign
  · exact .inr (.inl hat)
  obtain ⟨m, h, -⟩ := h.seq_done
  obtain ⟨m', h, -⟩ := h.seq_done
  obtain ⟨m'', hparen, htype⟩ := h.seq_done
  obtain ⟨-, rfl⟩ := hparen.of_expect
  cases htype with
  | nest htype =>
    cases htype with
    | jump htype =>
      rcases htype.referenceType_start rfl hat with hident | hprim
      · exact .inl hident
      · exact .inr (.inr hprim)

/-- The probe says yes if and only if a cast stands there. -/
theorem Probe.referenceCast_accepts
    (h : Cmd.Ends s strict (Rule.Ends s strict) (Probe.fragment .referenceCast) (s.fresh i) o)
    {answer : Bool} (hv : o.verdict = .ok answer) : answer = true ↔ s.CastAt strict i := by
  constructor
  · rintro rfl
    cases o with
    | failed e j =>
      rw [Ending.verdict] at hv
      split at hv <;> cases hv
    | done q =>
      obtain ⟨m, hhead, hoperand⟩ := h.seq_done
      obtain ⟨found, hg, hoperand⟩ := hoperand.ite_done
      cases found with
      | true =>
        rw [Guard.allows_test, Test.holds, Bool.or_eq_true] at hg
        exact ⟨m, hhead, hg⟩
      | false => cases hoperand
  · rintro ⟨q, hhead, hoperand⟩
    have htest : (Guard.test (.either (.hereAny TokenKind.castOperandStart)
        .lambdaAhead)).query s q = .known true := by
      rw [Guard.query, Test.holds]
      exact congrArg Query.known (by rw [Bool.or_eq_true]; exact hoperand)
    have hdone : Cmd.Ends s strict (Rule.Ends s strict) (Probe.fragment .referenceCast)
        (s.fresh i) (.done q) := .seq hhead (.known htest .skip)
    cases h.eq hdone
    cases hv
    rfl

theorem Grammar.query_referenceCastAhead (s : TokenStream) (p : Place) :
    referenceCastAhead.query s p = .known false ∨
      referenceCastAhead.query s p = .ask .referenceCast := by
  rw [referenceCastAhead, Guard.query, if_neg (by simp [Test.holds])]
  split
  · exact .inr rfl
  · exact .inl rfl

theorem Grammar.referenceCastAhead_answered {env : Setting} {answer : Bool}
    (hopen : env.stream.OpensPlainly p.index)
    (h : (Grammar.referenceCastAhead.query env.stream p).Answered env p.index answer) :
    answer = true ↔ env.stream.CastAt env.options.detectAmbiguity p.index ∧
      ¬env.stream.AnnotatedPrimitiveAt p.index := by
  have hlambda := hopen.not_lambda
  simp only [Grammar.referenceCastAhead, Guard.query, Test.holds, Bool.false_eq_true, ↓reduceIte,
    hlambda, Bool.not_false, Bool.and_true, Bool.or_eq_true, Bool.and_eq_true,
    KindSet.contains_ofList, KindSet.contains_single, decide_eq_true_eq] at h
  split at h
  · rename_i hahead
    obtain ⟨o, ho, hv⟩ := h
    rw [Probe.referenceCast_accepts ho hv]
    refine ⟨fun hcast => ⟨hcast, ?_⟩, And.left⟩
    rintro ⟨hprim, hat⟩
    rcases hahead with hfirst | ⟨-, hbracket⟩
    · rcases List.mem_cons.1 (List.contains_iff_mem.1 hfirst) with hk | hk
      · rw [hk] at hprim
        cases hprim
      · rw [List.mem_singleton.1 hk] at hprim
        cases hprim
    · cases hat.symm.trans hbracket
  · rename_i hnone
    change false = answer at h
    subst h
    refine ⟨fun hfalse => absurd hfalse (by simp), ?_⟩
    rintro ⟨⟨q, hhead, -⟩, hslip⟩
    exfalso
    have hstart := Grammar.castHead_start hhead
    rw [TokenStream.fresh_index] at hstart
    rcases hstart with hident | hat | ⟨hprim, hbracket | hat⟩
    · exact hnone (.inl (by rw [hident]; rfl))
    · exact hnone (.inl (by rw [hat]; rfl))
    · exact hnone (.inr ⟨hprim, hbracket⟩)
    · exact hslip ⟨hprim, hat⟩

/-- At a parenthesis that opens plainly the operand is a reference cast or starts with what is in
the parentheses. -/
theorem Grammar.exec_unary {env : Setting} {deeper : Cmd → State → Outcome} {s : State}
    (h : env.stream.OpensPlainly s.index) :
    Rule.unary.body.exec env deeper s =
      (Cmd.ite Grammar.referenceCastAhead Grammar.referenceCast Grammar.postfixed).exec env
        deeper s := by
  have hparen := h.lparen
  have htest (t : Test) (a b : Cmd) (answer : Bool)
      (ht : t.holds env.stream s.index s.draft = answer) :
      (Cmd.ite (.test t) a b).exec env deeper s =
        if answer then a.exec env deeper s else b.exec env deeper s := by
    rw [Cmd.exec_ite]
    simp only [Guard.decide, Guard.settle, Ruling.andThen, ht]
  have hother (k : TokenKind) (a b : Cmd) (hk : k ≠ .lparen) :
      (Cmd.ite (Test.here k) a b).exec env deeper s = b.exec env deeper s := by
    rw [htest _ a b false]
    · rfl
    · simp [Test.here, Test.holds, hparen, hk.symm]
  have hprim : (Test.both (.ahead 1 TokenKind.primitives) (.ahead 2 (.single .rparen))).holds
      env.stream s.index s.draft = false := by
    have := h.not_primitive
    simpa [Test.holds] using this
  simp only [Rule.body, Grammar.unary, Cmd.select, UnaryOp.all, List.map, List.foldr,
    UnaryOp.token]
  rw [hother _ _ _ (by decide), hother _ _ _ (by decide), hother _ _ _ (by decide),
    hother _ _ _ (by decide), hother _ _ _ (by decide), hother _ _ _ (by decide)]
  rw [htest _ _ _ true, htest _ _ _ false hprim]
  · rfl
  · simp [Test.here, Test.holds, hparen]

end

namespace Cmd.Ends
variable {s : TokenStream} {strict : Bool} {calls : Rule → Place → Ending → Prop} {p q : Place}

theorem of_select {cases : List (TokenKind × Cmd)} {otherwise : Cmd}
    (h : Cmd.Ends s strict calls (.select cases otherwise) p (.done q)) :
    (∃ c ∈ cases, s.kindAt p.index = c.1 ∧ Cmd.Ends s strict calls c.2 p (.done q)) ∨
      Cmd.Ends s strict calls otherwise p (.done q) := by
  induction cases with
  | nil => exact .inr h
  | cons c cs ih =>
    obtain ⟨answer, hg, h⟩ := h.ite_done
    cases answer with
    | true =>
      rw [Guard.allows_test, Test.here, Test.holds, KindSet.contains_single,
        decide_eq_true_eq] at hg
      exact .inl ⟨c, List.mem_cons_self, hg, h⟩
    | false =>
      rcases ih h with ⟨c', hc', h⟩ | h
      · exact .inl ⟨c', List.mem_cons_of_mem _ hc', h⟩
      · exact .inr h

theorem of_call {r : Rule} (hcalls : ∀ r p o, calls r p o → Rule.Ends s strict r p o)
    (hr : r ≠ .emptyMember) (h : Cmd.Ends s strict calls (.call r) p (.done q)) :
    ∃ m t kind, Rule.Ends s strict r (s.fresh p.index) (.done m) ∧ m.draft.items = [t] ∧
      t.nodeKind? = some kind ∧ r.strength ≤ kind.strength ∧
      q = ⟨m.index, p.draft.adopt m.draft⟩ := by
  cases h with
  | @nest _ _ m h =>
    cases h with
    | jump h =>
      have hrule := hcalls _ _ _ h
      obtain ⟨t, kind, hm, ht, hk⟩ := hrule.single hr rfl
      exact ⟨m, t, kind, hrule, hm, ht, hk, rfl⟩

end Cmd.Ends

/-- The prefix operators that are signs, and could be infix operators as well. -/
def UnaryOp.signs : List UnaryOp := [.plus, .minus, .preIncrement, .preDecrement]

namespace Tree

/-- A cast whose type is no primitive type. -/
def IsReferenceCast (n : Tree) : Prop :=
  n.nodeKind? = some .cast ∧ ∀ c ∈ n.children, c.nodeKind? ≠ some .primitiveType

/-- A reference cast has no operand with a sign. -/
def UnsignedCast (n : Tree) : Prop :=
  n.IsReferenceCast → ∀ operand, n.children.getLast? = some operand →
    ∀ op ∈ UnaryOp.signs, operand.nodeKind? ≠ some (.unary op)

end Tree

def Concern.casts : Concern where
  concerns := (· == .cast)
  makes := (· == .unary)

theorem Tree.unsignedCast_of_spared {n : Tree} {kind : NodeKind} (hk : n.nodeKind? = some kind)
    (hc : Concern.casts.concerns kind = false) : n.UnsignedCast := by
  rintro ⟨hcast, -⟩
  cases hk.symm.trans hcast
  cases hc

theorem Rule.spares_casts {r : Rule} (h : Concern.casts.makes r = false) :
    r.body.spares .casts = true := by
  revert r
  decide

section
variable {s : TokenStream} {strict : Bool} {p q : Place} {i : Nat}

theorem Rule.Ends.kindAt_unary {t : Tree} {op : UnaryOp}
    (h : Rule.Ends s strict .unary (s.fresh i) (.done q)) (hq : q.draft.items = [t])
    (ht : t.nodeKind? = some (.unary op)) : s.kindAt i = op.token := by
  -- What starts otherwise is a cast or stronger than a prefix operator.
  have hcast (c : Cmd) (hc : ∀ v ∈ c.exits {}, v.latest = some .cast) :
      ¬Cmd.Ends s strict (Rule.Ends s strict) c (s.fresh i) (.done q) := by
    intro h
    obtain ⟨v, hv, hholds⟩ := h.any_exits (Outlook.holds_bottom _)
    have hlatest := hholds.latest _ (hc v hv)
    simp [hq, ht] at hlatest
  have hpostfixed : ¬Cmd.Ends s strict (Rule.Ends s strict) Grammar.postfixed (s.fresh i)
      (.done q) := by
    intro h
    obtain ⟨b, hb, hfits⟩ := h.fits (a := .empty) (fun _ _ _ h _ hp => h.fits hp) rfl
    have hshape : Grammar.postfixed.shape .empty = some (.single 13) := by decide
    rw [hshape] at hb
    cases hb
    obtain ⟨u, kind, hu, hk, hstrong⟩ := hfits
    rw [hq] at hu
    cases hu
    cases ht.symm.trans hk
    simp [NodeKind.strength] at hstrong
  cases h with
  | body h =>
    rcases h.of_select with ⟨c, hc, hk, h⟩ | h
    · obtain ⟨op', -, rfl⟩ := List.mem_map.1 hc
      obtain ⟨m, -, hclose⟩ := h.seq_done
      cases hclose
      cases hq
      cases ht
      exact hk
    · exfalso
      obtain ⟨answer, -, h⟩ := h.ite_done
      cases answer with
      | false => exact hpostfixed h
      | true =>
        obtain ⟨answer, -, h⟩ := h.ite_done
        cases answer with
        | true => exact hcast _ (by decide) h
        | false =>
          obtain ⟨answer, -, h⟩ := h.ite_done
          cases answer with
          | true => exact hcast _ (by decide) h
          | false => exact hpostfixed h

/-- No operand with a sign starts with a token that a cast may stand before. -/
theorem UnaryOp.not_castOperandStart :
    ∀ op ∈ signs, TokenKind.castOperandStart.contains op.token = false := by
  decide

theorem Grammar.operand_unsigned {calls : Rule → Place → Ending → Prop} {m : Place}
    (hcalls : ∀ r p o, calls r p o → Rule.Ends s strict r p o)
    (hstart : TokenKind.castOperandStart.contains (s.kindAt m.index) = true ∨
      Test.lambdaAhead.holds s m.index m.draft = true)
    (h : Cmd.Ends s strict calls (.ite Test.lambdaAhead (.call .lambda) (.call .unary)) m
      (.done q)) :
    ∃ t kind, q.draft.items = t :: m.draft.items ∧ t.nodeKind? = some kind ∧
      ∀ op ∈ UnaryOp.signs, kind ≠ .unary op := by
  obtain ⟨answer, hg, h⟩ := h.ite_done
  rw [Guard.allows_test] at hg
  cases answer with
  | true =>
    obtain ⟨m', t, kind, hlambda, hitems, hk, -, rfl⟩ := h.of_call hcalls (by simp)
    refine ⟨t, kind, by simp [Draft.adopt, hitems], hk, ?_⟩
    rintro op - rfl
    cases hlambda with
    | body hlambda =>
      obtain ⟨v, hv, hholds⟩ := hlambda.any_exits (Outlook.holds_bottom _)
      have hall : ∀ v ∈ Rule.lambda.body.exits {}, v.latest = some .lambda := by decide
      have hlatest := hholds.latest _ (hall v hv)
      simp [hitems, hk] at hlatest
  | false =>
    obtain ⟨m', t, kind, hunary, hitems, hk, -, rfl⟩ := h.of_call hcalls (by simp)
    refine ⟨t, kind, by simp [Draft.adopt, hitems], hk, ?_⟩
    rintro op hop rfl
    rcases hstart with hstart | hlambda
    · rw [hunary.kindAt_unary hitems hk, UnaryOp.not_castOperandStart op hop] at hstart
      cases hstart
    · cases hg.symm.trans hlambda

theorem Grammar.primitiveCast_each
    (h : Cmd.Ends s strict (fun r p o => Rule.Ends s strict r p o ∧
      r.Keeps s .casts Tree.UnsignedCast p o) Grammar.primitiveCast p (.done q))
    (hp : p.draft.Each Tree.UnsignedCast) : q.draft.Each Tree.UnsignedCast := by
  obtain ⟨m, h, hclose⟩ := h.seq_done
  have hm : m.draft.Each Tree.UnsignedCast :=
    h.each (fun _ _ => Tree.unsignedCast_of_spared) (fun _ _ _ h => h.2) (by decide) hp
  obtain ⟨m1, h, hoperand⟩ := h.seq_done
  obtain ⟨m2, h, hparen⟩ := h.seq_done
  obtain ⟨m3, -, htype⟩ := h.seq_done
  have hprim : ∃ t ∈ m.draft.items, t.nodeKind? = some .primitiveType := by
    obtain ⟨m', t, kind, -, -, -, -, rfl⟩ := hoperand.of_call (fun _ _ _ h => h.1) (by simp)
    obtain ⟨-, rfl⟩ := hparen.of_expect
    cases htype with
    | @nest _ _ m4 htype =>
      obtain ⟨m5, -, hmake⟩ := htype.seq_done
      cases hmake
      exact ⟨_, List.mem_append_right _ (List.mem_cons_of_mem _ List.mem_cons_self), rfl⟩
  cases hclose
  refine hm.close ?_
  rintro ⟨-, hnone⟩
  obtain ⟨t, ht, hk⟩ := hprim
  exact absurd hk (hnone t (List.mem_reverse.2 ht))

theorem Grammar.referenceCast_each (hcast : s.CastAt strict i)
    (h : Cmd.Ends s strict (fun r p o => Rule.Ends s strict r p o ∧
      r.Keeps s .casts Tree.UnsignedCast p o) Grammar.referenceCast (s.fresh i) (.done q)) :
    q.draft.Each Tree.UnsignedCast := by
  obtain ⟨m, h, hclose⟩ := h.seq_done
  have hm : m.draft.Each Tree.UnsignedCast :=
    h.each (fun _ _ => Tree.unsignedCast_of_spared) (fun _ _ _ h => h.2) (by decide)
      (Draft.each_empty _)
  obtain ⟨m', hhead, hoperand⟩ := h.seq_done
  obtain ⟨m'', hprobed, hstart⟩ := hcast
  have heq : m'' = m' := by
    cases hprobed.eq (hhead.mono fun _ _ _ h => h.1)
    rfl
  rw [heq] at hstart
  obtain ⟨operand, kind, hitems, hk, hunsigned⟩ :=
    operand_unsigned (fun _ _ _ h => h.1) hstart hoperand
  cases hclose
  refine hm.close ?_
  intro _ last hlast op hop hop'
  have hforest : m.draft.forest = m'.draft.forest ++ [operand] := by
    simp [Draft.forest, hitems]
  rw [Tree.build, Tree.children, hforest, List.getLast?_concat] at hlast
  cases hlast
  cases hk.symm.trans hop'
  exact hunsigned op hop rfl

theorem Rule.casts_unary
    (h : Cmd.Ends s strict (fun r p o => Rule.Ends s strict r p o ∧
      r.Keeps s .casts Tree.UnsignedCast p o) Rule.unary.body (s.fresh i) (.done q)) :
    q.draft.Each Tree.UnsignedCast := by
  have hspared (c : Cmd) (hc : c.spares .casts = true)
      (h : Cmd.Ends s strict (fun r p o => Rule.Ends s strict r p o ∧
        r.Keeps s .casts Tree.UnsignedCast p o) c (s.fresh i) (.done q)) :
      q.draft.Each Tree.UnsignedCast :=
    h.each (fun _ _ => Tree.unsignedCast_of_spared) (fun _ _ _ h => h.2) hc (Draft.each_empty _)
  rcases h.of_select with ⟨c, hc, -, h⟩ | h
  · obtain ⟨op, -, rfl⟩ := List.mem_map.1 hc
    exact hspared _ (by cases op <;> decide) h
  · obtain ⟨answer, -, h⟩ := h.ite_done
    cases answer with
    | false => exact hspared Grammar.postfixed (by decide) h
    | true =>
      obtain ⟨answer, -, h⟩ := h.ite_done
      cases answer with
      | true => exact Grammar.primitiveCast_each h (Draft.each_empty _)
      | false =>
        cases h with
        | known hg h =>
          rcases Grammar.query_referenceCastAhead s (s.fresh i) with hq | hq
          · cases hg.symm.trans hq
            exact hspared Grammar.postfixed (by decide) h
          · cases hg.symm.trans hq
        | @asked _ _ _ _ _ probe t answer hg ht hv h =>
          have hprobe : probe = .referenceCast := by
            rcases Grammar.query_referenceCastAhead s (s.fresh i) with hq | hq
            · cases hg.symm.trans hq
            · cases hg.symm.trans hq
              rfl
          subst hprobe
          cases answer with
          | false => exact hspared Grammar.postfixed (by decide) h
          | true =>
            have hcast := (Probe.referenceCast_accepts (ht.mono fun _ _ _ h => h.1) hv).1 rfl
            exact Grammar.referenceCast_each hcast h

end

/-- In the tree of any parse no reference cast has an operand with a sign. -/
theorem parse_unsignedCast {ts : TokenList} {options : ParseOptions} {e : Entry} {t : Tree}
    (h : parse e ts options = .ok t) : t.Each Tree.UnsignedCast := by
  refine parse_each (c := .casts) (fun _ _ => Tree.unsignedCast_of_spared)
    (fun _ => Rule.spares_casts) ?_ h
  intro r i q hr h
  cases eq_of_beq hr
  exact Rule.casts_unary h

/-- The question for a reference cast is left open only by a cut, and on a closed list with
levels enough only by the budget. -/
theorem Grammar.referenceCastAhead_abort {env : Setting} {n : Nat} {s t : State} {e : ParseError}
    (hm : env.Trusts s.memo)
    (h : referenceCastAhead.decide env (Cmd.run env n) s = .abort e t) :
    e.fault.isCutoff = true ∧
      (env.Ready s → env.Affords (n + 1) Rule.unary.rank s.index →
        e.fault = .budgetExceeded env.budget) := by
  have hset := Cmd.settles_decide (fun c _ h => Cmd.derived_run env n c h) referenceCastAhead hm
  rw [h] at hset
  have hcut : e.fault.isCutoff = true := by
    by_contra hno
    rw [Bool.not_eq_true] at hno
    obtain ⟨-, probe, o, -, ho, hv⟩ := hset.2 hno
    have hmild : o.Mild :=
      Cmd.Ends.mild (fun _ _ _ h => h.mild) probe.exclusive_fragment ho
    obtain ⟨answer, ha⟩ := hmild.verdict
    cases ha.symm.trans hv
  refine ⟨hcut, ?_⟩
  intro hready hlevels
  have hrank : env.Affords (n + 1) referenceCastAhead.rank s.index :=
    Nat.lt_of_le_of_lt (Nat.add_le_add_right (by decide) _) hlevels
  have hsteady := Guard.steady_decide (Cmd.steady_run hready.closed n).1 hm hready.index_le hrank
  rw [h] at hsteady
  have hcharged := env.charged_law.decide (fun c _ h => Cmd.charged_run n c h)
    referenceCastAhead hready
  rw [h] at hcharged
  have hfault : e.fault.isExhausted = true := by
    have hno : e.fault.isStuck = false := hsteady
    cases hf : e.fault <;> simp_all [ParseFault.isCutoff, ParseFault.isStuck,
      ParseFault.isExhausted]
  exact (hcharged.spent e t rfl hfault).1

/-- Where a parenthesis opens neither a lambda nor a cast to a primitive type, a reference cast is
taken if and only if one stands there, except for a primitive type whose dimensions are
annotated. What is in the parentheses is an operand otherwise. Only the budget can leave this
open on a list that ends with the end of the source. No tree has a reference cast of an operand
with a sign. -/
theorem referenceCast_iff (ts : TokenList) (options : ParseOptions) :
    let env : Setting := ⟨.ofList ts, options⟩
    (∀ (n : Nat) (s : State), env.Trusts s.memo → env.stream.OpensPlainly s.index →
      let ruling := Grammar.referenceCastAhead.decide env (Cmd.run env n) s
      (∀ taken t, ruling = .answer taken t →
        t.place = s.place ∧
        Rule.unary.body.run env (n + 1) s =
          (if taken then Grammar.referenceCast else Grammar.postfixed).exec env (Cmd.run env n) t ∧
        (taken = true ↔ env.stream.CastAt options.detectAmbiguity s.index ∧
          ¬env.stream.AnnotatedPrimitiveAt s.index)) ∧
      ∀ e t, ruling = .abort e t →
        Rule.unary.body.run env (n + 1) s = .failed e t ∧ e.fault.isCutoff = true ∧
        (ts.tokens.back?.map Token.kind = some .eof →
          env.Affords (n + 1) Rule.unary.rank s.index →
          e.fault = .budgetExceeded options.speculationBudget)) ∧
    ∀ (e : Entry) (t : Tree), parse e ts options = .ok t → ∀ c ∈ t.nodes, c.UnsignedCast := by
  intro env
  refine ⟨?_, fun e t h => parse_unsignedCast h⟩
  intro n s hm hopen ruling
  have hexec : Rule.unary.body.run env (n + 1) s = _ :=
    (Grammar.exec_unary hopen).trans (Cmd.exec_ite ..)
  constructor
  · intro taken t ht
    have hset := Cmd.settles_decide (fun c _ h => Cmd.derived_run env n c h)
      Grammar.referenceCastAhead hm
    change Ruling.Settles env s.place _ ruling at hset
    rw [ht] at hset
    obtain ⟨hplace, -, hanswered⟩ := hset
    refine ⟨hplace, ?_, Grammar.referenceCastAhead_answered hopen hanswered⟩
    rw [hexec]
    change Ruling.andThen _ ruling = _
    rw [ht]
    cases taken <;> rfl
  · intro e t ht
    obtain ⟨hcut, hbudget⟩ := Grammar.referenceCastAhead_abort hm ht
    refine ⟨?_, hcut, ?_⟩
    · rw [hexec]
      change Ruling.andThen _ ruling = _
      rw [ht]
      rfl
    · intro hend hlevels
      have hlt : s.index < env.stream.length := by
        apply TokenStream.lt_length_of_kindAt
        rw [hopen.lparen]
        simp
      exact hbudget ⟨TokenStream.closed_ofList hend, Nat.le_sub_one_of_lt hlt, hm⟩ hlevels

/-- The run ends before a token of one of these kinds. -/
def Outcome.stopsAt (s : TokenStream) (kinds : KindSet) : Outcome → Bool
  | done t => kinds.contains (s.kindAt t.index)
  | failed .. => false

/-- A run from the start of a list shows that a cast stands there. -/
theorem TokenStream.castAt_of_run {env : Setting} {n : Nat}
    (h : (Grammar.castHead.run env n (State.fresh {} env)).stopsAt env.stream
      TokenKind.castOperandStart = true) :
    env.stream.CastAt env.options.detectAmbiguity 0 := by
  have hd := Cmd.derived_run env n Grammar.castHead (s := State.fresh {} env) Setting.trusts_empty
  cases hrun : Grammar.castHead.run env n (State.fresh {} env) with
  | done t =>
    rw [hrun] at h hd
    exact ⟨t.place, hd.ending rfl, .inl h⟩
  | failed e t =>
    rw [hrun] at h
    cases h

def Ruling.isYes : Ruling → Bool
  | answer taken _ => taken
  | abort .. => false

theorem Ruling.exists_of_isYes {r : Ruling} (h : r.isYes = true) : ∃ t, r = .answer true t := by
  cases r with
  | answer taken t => exact ⟨t, congrArg (answer · t) h⟩
  | abort e t => cases h

/-- `(Foo) bar` -/
def fooCast : TokenList where
  source := "(Foo) bar"
  tokens := #[⟨.lparen, ⟨0, 1⟩, ⟨1, 1⟩⟩, ⟨.ident, ⟨1, 4⟩, ⟨1, 2⟩⟩, ⟨.rparen, ⟨4, 5⟩, ⟨1, 5⟩⟩,
    ⟨.ident, ⟨6, 9⟩, ⟨1, 7⟩⟩, ⟨.eof, ⟨9, 9⟩, ⟨1, 10⟩⟩]

def fooCastTree : Tree :=
  .node .cast ⟨0, 9⟩
    [.leaf .lparen ⟨0, 1⟩, .node .classType ⟨1, 4⟩ [.leaf .ident ⟨1, 4⟩], .leaf .rparen ⟨4, 5⟩,
      .node .name ⟨6, 9⟩ [.leaf .ident ⟨6, 9⟩]]

/-- A cast stands at the start of `(Foo) bar`, and its operand has no sign. -/
theorem referenceCast_foo :
    (TokenStream.ofList fooCast).CastAt true 0 ∧
      parse .expression fooCast = .ok fooCastTree ∧ fooCastTree.UnsignedCast := by
  obtain ⟨hiff, htree⟩ := referenceCast_iff fooCast {}
  have hopen : (TokenStream.ofList fooCast).OpensPlainly 0 := by
    constructor <;> decide
  obtain ⟨htaken, -⟩ := hiff 300 {} Setting.trusts_empty hopen
  have hruling : ∃ t, Grammar.referenceCastAhead.decide ⟨.ofList fooCast, {}⟩
      (Cmd.run ⟨.ofList fooCast, {}⟩ 300) {} = .answer true t :=
    Ruling.exists_of_isYes (by decide +kernel)
  obtain ⟨t, hruling⟩ := hruling
  have hparse : parse .expression fooCast = .ok fooCastTree := by
    rw [parse_eq_ok, Session.run_eq]
    decide +kernel
  refine ⟨((htaken true t hruling).2.2.1 rfl).1, hparse, htree .expression _ hparse _ ?_⟩
  rw [Tree.nodes_eq]
  exact List.mem_cons_self

/-- `(int @A []) x` -/
def annotatedCast : TokenList where
  source := "(int @A []) x"
  tokens := #[⟨.lparen, ⟨0, 1⟩, ⟨1, 1⟩⟩, ⟨.kwInt, ⟨1, 4⟩, ⟨1, 2⟩⟩, ⟨.atSign, ⟨5, 6⟩, ⟨1, 6⟩⟩,
    ⟨.ident, ⟨6, 7⟩, ⟨1, 7⟩⟩, ⟨.lbracket, ⟨8, 9⟩, ⟨1, 9⟩⟩, ⟨.rbracket, ⟨9, 10⟩, ⟨1, 10⟩⟩,
    ⟨.rparen, ⟨10, 11⟩, ⟨1, 11⟩⟩, ⟨.ident, ⟨12, 13⟩, ⟨1, 13⟩⟩, ⟨.eof, ⟨13, 13⟩, ⟨1, 14⟩⟩]

/-- Fixed lookahead rules the cast in `(int @A []) x` out, although it stands there. -/
theorem not_taken_iff_castAt :
    ¬∀ (ts : TokenList) (options : ParseOptions) (n : Nat) (s : State),
      let env : Setting := ⟨.ofList ts, options⟩
      env.Trusts s.memo → env.stream.OpensPlainly s.index → ∀ taken t,
        Grammar.referenceCastAhead.decide env (Cmd.run env n) s = .answer taken t →
        (taken = true ↔ env.stream.CastAt options.detectAmbiguity s.index) := by
  intro h
  have hopen : (TokenStream.ofList annotatedCast).OpensPlainly 0 := by
    constructor <;> decide
  have hcast : (TokenStream.ofList annotatedCast).CastAt true 0 := by
    let env : Setting := ⟨.ofList annotatedCast, {}⟩
    have hrun : (Grammar.castHead.run env 300 (State.fresh {} env)).stopsAt env.stream
        TokenKind.castOperandStart = true := by
      decide +kernel
    exact TokenStream.castAt_of_run hrun
  have hno : Grammar.referenceCastAhead.decide ⟨.ofList annotatedCast, {}⟩
      (Cmd.run ⟨.ofList annotatedCast, {}⟩ 300) {} = .answer false {} := by
    rfl
  have hyes := (h annotatedCast {} 300 {} Setting.trusts_empty hopen false {} hno).2 hcast
  cases hyes

end JavaSyntax
