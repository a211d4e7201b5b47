import JavaSyntax.Proofs.Outlook

/-!
# Expected sets

An error at a token names the kinds that could have stood there instead. Whether the kind that
was found is one of them depends on what the rule has looked at before it fails, so each failing
command is checked against all outlooks that lead to it. Three of them name what they have found.
-/

namespace JavaSyntax

namespace TokenStream

/-- The set that a rule expects at an index has the token there in it. -/
inductive Lapses (s : TokenStream) : KindSet → Nat → Prop
  /-- A type was expected at an at sign that belongs to an annotation type declaration. -/
  | atSign {i : Nat} (here : s.kindAt i = .atSign) (next : s.kindAt (i + 1) = .kwInterface) :
      Lapses s TokenKind.typeStart i
  /-- Brackets were expected behind a primitive type, and a bracket is there that is not closed
  at once. -/
  | bracket {i : Nat} (here : s.kindAt (i + 1) = .lbracket)
      (next : s.kindAt (i + 2) ≠ .rbracket)
      (past : TokenKind.primitives.contains (s.kindAt i) = true) :
      Lapses s (.single .lbracket) (i + 1)
  /-- A member was expected behind `super .` where an instance is to be created. -/
  | superNew {i : Nat} (here : s.kindAt (i + 2) = .kwNew) (dot : s.kindAt (i + 1) = .dot)
      (past : s.kindAt i = .kwSuper) : Lapses s (.ofList [.ident, .less, .kwNew]) (i + 2)

variable {s : TokenStream} {expected : KindSet} {i : Nat}

theorem Lapses.contains (h : s.Lapses expected i) : expected.contains (s.kindAt i) = true := by
  cases h with
  | atSign here next =>
    rw [here]
    decide
  | bracket here next past =>
    rw [here]
    decide
  | superNew here dot past =>
    rw [here]
    decide

end TokenStream

/-- An unexpected token is the one at the error, and it has been expected only in a lapse. -/
def ParseError.Honest (s : TokenStream) (e : ParseError) : Prop :=
  ∀ expected found, e.fault = .unexpectedToken expected found →
    found = s.kindAt e.tokenIndex ∧
      (expected.contains found = true → s.Lapses expected e.tokenIndex)

theorem ParseError.Honest.of_isFatal {s : TokenStream} {e : ParseError} (h : e.isFatal = true) :
    e.Honest s := by
  intro expected found hf
  rw [isFatal, hf] at h
  cases h

theorem ParseError.honest_unexpected {s : TokenStream}
    (hs : ∀ i, (s.tokenAt i).kind = s.kindAt i) {expected : KindSet} {i : Nat}
    (h : expected.contains (s.kindAt i) = true → s.Lapses expected i) :
    (ParseError.unexpected expected (s.tokenAt i) i).Honest s := by
  intro e found hf
  simp only [unexpected, ParseFault.ofFound, hs] at hf
  split at hf
  · cases hf
  · cases hf
    exact ⟨rfl, h⟩

open Outlook

namespace Outlook

/-- The token so many places before is known to be of one of the kinds. -/
def follows (v : Outlook) (k : Nat) (ks : KindSet) : Bool := v.past[k]?.any (·.subset ks)

/-- No kind of a set can stand at the place, or only in a lapse. -/
def excuses (v : Outlook) (expected : KindSet) : Bool :=
  let here := (v.kinds 0).inter expected
  here.isEmpty ||
    expected == TokenKind.typeStart && here.subset (.single .atSign) &&
      (v.kinds 1).subset (.single .kwInterface) ||
    expected == .single .lbracket && !(v.kinds 1).contains .rbracket &&
      v.follows 0 TokenKind.primitives ||
    expected == .ofList [.ident, .less, .kwNew] && here.subset (.single .kwNew) &&
      v.follows 0 (.single .dot) && v.follows 1 (.single .kwSuper)

variable {s : TokenStream} {i : Nat} {p : Place} {v : Outlook} {expected : KindSet}

theorem eq_of_subset_single {ks : KindSet} {a k : TokenKind} (h : ks.subset (.single a) = true)
    (hk : ks.contains k = true) : k = a := by
  have := KindSet.contains_of_subset h hk
  rwa [KindSet.contains_single, decide_eq_true_eq] at this

theorem Holds.follows (hv : v.Holds s i p) {k : Nat} {ks : KindSet}
    (h : v.follows k ks = true) :
    ∃ j, j + k + 1 = p.index ∧ ks.contains (s.kindAt j) = true := by
  obtain ⟨ls, hls, hsub⟩ := (Option.any_eq_true _ _).1 h
  obtain ⟨j, hj, hc⟩ := hv.past k ls hls
  exact ⟨j, hj, KindSet.contains_of_subset hsub hc⟩

theorem Holds.lapses (hv : v.Holds s i p) (h : v.excuses expected = true)
    (hc : expected.contains (s.kindAt p.index) = true) : s.Lapses expected p.index := by
  have hhere : ((v.kinds 0).inter expected).contains (s.kindAt p.index) = true := by
    rw [KindSet.contains_inter, hc, Bool.and_true]
    exact hv.contains_kinds 0
  simp only [excuses, Bool.or_eq_true, Bool.and_eq_true, beq_iff_eq, Bool.not_eq_true',
    KindSet.isEmpty_of_contains hhere, Bool.false_eq_true, false_or, and_assoc] at h
  obtain (⟨rfl, hat, hnext⟩ | ⟨rfl, hnext, hpast⟩) | ⟨rfl, hnew, hdot, hsuper⟩ := h
  · exact .atSign (eq_of_subset_single hat hhere)
      (eq_of_subset_single hnext (hv.contains_kinds 1))
  · obtain ⟨j, hj, hkj⟩ := hv.follows hpast
    rw [KindSet.contains_single, decide_eq_true_eq] at hc
    have hclosed := hv.contains_kinds 1
    rw [← hj] at hc hclosed ⊢
    refine .bracket hc ?_ hkj
    intro hk
    rw [hk, hnext] at hclosed
    cases hclosed
  · obtain ⟨j, hj, hkj⟩ := hv.follows hdot
    obtain ⟨l, hl, hkl⟩ := hv.follows hsuper
    have hlj : j = l + 1 := by omega
    subst hlj
    rw [KindSet.contains_single, decide_eq_true_eq] at hkj hkl
    have hnew := eq_of_subset_single hnew hhere
    rw [← hl] at hnew ⊢
    exact .superNew hnew hkj hkl

end Outlook

namespace Row

/-- The outlooks if the pattern fits behind so many tokens, or if it does not. -/
def assume : List KindSet → Nat → Bool → Outlook → List Outlook
  | [], _, b, v => if b then [v] else []
  | ks :: rest, k, b, v =>
    if b then (v.refine k ks).flatMap (assume rest (k + 1) true)
    else v.refine k (KindSet.full.diff ks) ++ (v.refine k ks).flatMap (assume rest (k + 1) false)

theorem any_assume {s : TokenStream} {i k : Nat} {p : Place} {v : Outlook}
    {pattern : List KindSet} {b : Bool} (hv : v.Holds s i p)
    (hb : fits s (p.index + k) pattern = b) : Any s i p (assume pattern k b v) := by
  induction pattern generalizing k v with
  | nil =>
    cases hb
    exact hv.any
  | cons ks rest ih =>
    rw [fits] at hb
    cases hk : ks.contains (s.kindAt (p.index + k)) with
    | false =>
      rw [hk, Bool.false_and] at hb
      cases hb
      exact (hv.refine (by simp [hk])).left _
    | true =>
      rw [hk, Bool.true_and] at hb
      rw [Nat.add_assoc] at hb
      have hrest := (hv.refine hk).flatMap fun w hw => ih hw hb
      cases b with
      | true => exact hrest
      | false => exact hrest.right _

end Row

namespace Table
variable {s : TokenStream} {i : Nat} {p : Place} {v : Outlook} {t : Table} {strict : Bool}

/-- The outlooks if no row fits. -/
def missed : List Row → Outlook → List Outlook
  | [], v => [v]
  | r :: rs, v => (Row.assume r.pattern 0 false v).flatMap (missed rs)

theorem any_missed {rows : List Row} (hv : v.Holds s i p)
    (h : choose? s p.index rows = none) : Any s i p (missed rows v) := by
  induction rows generalizing v with
  | nil => exact hv.any
  | cons r rs ih =>
    rw [choose?] at h
    split at h
    · cases h
    · rename_i hr
      have hfit : Row.fits s (p.index + 0) r.pattern = false := Bool.eq_false_iff.2 hr
      exact (Row.any_assume hv hfit).flatMap fun w hw => ih hw h

end Table

/-! ## Refusals -/

/-- A way to refuse tokens: the sets that may be expected at an outlook, and what is known wherever
a rule is called. -/
structure Policy where
  allows : KindSet → Outlook → Bool
  entry : Rule → List Outlook

namespace Policy
variable {m : Policy}

def admits (m : Policy) (r : Rule) (v : Outlook) : Bool := (m.entry r).any v.le

/-- The error refuses the token at the index, with a set that may be expected there. -/
def Refuses (m : Policy) (s : TokenStream) (e : ParseError) (j : Nat) : Prop :=
  ∃ expected remark i p v, v.Holds s i p ∧ p.index = j ∧ m.allows expected v = true ∧
    e = s.unexpectedAt expected remark j

end Policy

/-- At the outlook the command refuses tokens only as it may, the end of the source among them,
and calls rules only where they may be called. -/
def Cmd.obeys (m : Policy) : Cmd → Outlook → Bool
  | shift, v => (v.refine 0 (.single .eof)).all (m.allows ∅)
  | fail expected _, v => m.allows expected v
  | seq a b, v => a.obeys m v && (merge (a.exits v)).all (b.obeys m)
  | ite g a b, v => (g.assume true v).all (a.obeys m) && (g.assume false v).all (b.obeys m)
  | loop g body, _ => (g.assume true {}).all (body.obeys m)
  | nest body, v => body.obeys m { v with latest := none }
  | jump r, v => m.admits r v
  | dispatch t, v =>
    t.rows.all (fun row => (Row.assume row.pattern 0 true v).all (m.admits row.rule)) &&
      match t.fallback with
      | some r => m.admits r v
      | none => (Table.missed t.rows v).all (m.allows t.firstSet)
  | _, _ => true

section
variable {s : TokenStream} {strict : Bool} {calls : Rule → Place → Ending → Prop} {c : Cmd}
  {r : Rule} {i j : Nat} {p : Place} {v : Outlook} {e : ParseError} {m : Policy}

theorem Outlook.Any.of_all {vs : List Outlook} {f : Outlook → Bool} (h : Any s i p vs)
    (hf : vs.all f = true) : ∃ v, v.Holds s i p ∧ f v = true := by
  obtain ⟨v, hv, h⟩ := h
  exact ⟨v, h, List.all_eq_true.1 hf v hv⟩

theorem Outlook.Holds.admits (hv : v.Holds s i p) (h : m.admits r v = true) :
    Any s i p (m.entry r) := by
  obtain ⟨w, hw, hle⟩ := List.any_eq_true.1 h
  exact ⟨w, hw, hv.le hle⟩

theorem Outlook.Holds.refuses {expected : KindSet} (hv : v.Holds s i p)
    (h : m.allows expected v = true) (remark : Option Remark) :
    m.Refuses s (s.unexpectedAt expected remark p.index) p.index :=
  ⟨expected, remark, i, p, v, hv, rfl, h, rfl⟩

theorem Cmd.Ends.refuses_dispatch {t : Table}
    (hcalls : ∀ r p e j, calls r p (.failed e j) → ∀ i, Any s i p (m.entry r) →
      e.isFatal = true ∨ m.Refuses s e j)
    (hc : (Cmd.dispatch t).obeys m v = true)
    (h : Cmd.Ends s strict calls (.dispatch t) p (.failed e j)) (hv : v.Holds s i p) :
    e.isFatal = true ∨ m.Refuses s e j := by
  rw [Cmd.obeys, Bool.and_eq_true] at hc
  cases h with
  | dispatch ht h =>
    obtain ⟨row, hrow, rfl, hmatch⟩ | hfall := Table.decide_ok ht
    · have hfit : Row.fits s (p.index + 0) row.pattern = true := hmatch
      obtain ⟨w, hw, hadmits⟩ :=
        (Row.any_assume hv hfit).of_all (List.all_eq_true.1 hc.1 row hrow)
      exact hcalls _ _ _ _ h i (hw.admits hadmits)
    · rw [hfall] at hc
      exact hcalls _ _ _ _ h i (hv.admits hc.2)
  | dispatchFail ht =>
    obtain ⟨labels, -, rfl⟩ | ⟨hfall, hchoose, rfl⟩ := Table.decide_error ht
    · exact .inl rfl
    · rw [hfall] at hc
      obtain ⟨w, hw, hallows⟩ := (Table.any_missed hv hchoose).of_all hc.2
      exact .inr (hw.refuses hallows none)

theorem Cmd.Ends.refuses (hs : ∀ i, (s.tokenAt i).kind = s.kindAt i)
    (hcovers : ∀ r p o, calls r p o → o.Covers s p)
    (hexits : ∀ r p q, calls r p (.done q) → Any s p.index q r.exits)
    (hcalls : ∀ r p e j, calls r p (.failed e j) → ∀ i, Any s i p (m.entry r) →
      e.isFatal = true ∨ m.Refuses s e j)
    (hc : c.obeys m v = true) (h : Cmd.Ends s strict calls c p (.failed e j))
    (hv : v.Holds s i p) : e.isFatal = true ∨ m.Refuses s e j := by
  induction c generalizing p v i with
  | skip => cases h
  | shift =>
    cases h with
    | shiftEnd h =>
      have hend : (KindSet.single .eof).contains (s.kindAt (p.index + 0)) = true := by
        rw [Nat.add_zero, ← hs, h]
        rfl
      obtain ⟨w, hw, hallows⟩ := (hv.refine hend).of_all hc
      exact .inr (hw.refuses hallows none)
  | fail expected remark =>
    cases h
    exact .inr (hv.refuses hc remark)
  | seq a b iha ihb =>
    rw [Cmd.obeys, Bool.and_eq_true] at hc
    cases h with
    | seq ha hb =>
      obtain ⟨w, hw, hwb⟩ := (ha.exits hcovers hexits hv).merge.of_all hc.2
      exact ihb hwb hb hw
    | seqFail ha => exact iha hc.1 ha hv
  | ite g a b iha ihb =>
    rw [Cmd.obeys, Bool.and_eq_true] at hc
    obtain ⟨answer, hg, h⟩ | ⟨e', j', heq, hfatal⟩ := h.ite_cases
    · cases answer with
      | true =>
        obtain ⟨w, hw, hwa⟩ := (Guard.any_assume hv hg).of_all hc.1
        exact iha hwa h hw
      | false =>
        obtain ⟨w, hw, hwb⟩ := (Guard.any_assume hv hg).of_all hc.2
        exact ihb hwb h hw
    · cases heq
      exact .inl hfatal
  | loop g body ih =>
    obtain hfatal | ⟨q, -, hg, hbody⟩ :=
      h.loop_failed (I := fun _ => True) (fun _ _ _ _ _ => trivial) trivial
    · exact .inl hfatal
    · obtain ⟨w, hw, hwb⟩ := (Guard.any_assume (holds_bottom q) hg).of_all hc
      exact ih hwb hbody hw
  | nest body ih =>
    cases h with
    | nestFail h =>
      have hfresh : ({ v with latest := none } : Outlook).Holds s i (s.fresh p.index) :=
        ⟨hv.start_le, hv.past, hv.ahead, hv.touch, by simp, hv.moved⟩
      exact ih hc h hfresh
  | jump r =>
    cases h with
    | jump h => exact hcalls _ _ _ _ h i (hv.admits hc)
  | dispatch t => exact h.refuses_dispatch hcalls hc hv
  | close kind => cases h
  | wrap kind => cases h

/-- Where all rules obey, and a rule may be called, it fails fatally or refuses a token as it may,
at the place where it ends. -/
theorem Rule.Ends.refuses (hs : ∀ i, (s.tokenAt i).kind = s.kindAt i)
    (hm : ∀ r, (m.entry r).all (r.body.obeys m) = true)
    (h : Rule.Ends s strict r p (.failed e j)) (hp : Any s i p (m.entry r)) :
    e.isFatal = true ∨ m.Refuses s e j := by
  refine h.induct (R := fun r p o => ∀ e j, o = .failed e j → ∀ i, Any s i p (m.entry r) →
    e.isFatal = true ∨ m.Refuses s e j) ?_ e j rfl i hp
  rintro r p _ h e j rfl i hp
  obtain ⟨v, hv, hobeys⟩ := hp.of_all (hm r)
  exact h.refuses hs (fun _ _ _ h => h.1.covers) (fun _ _ _ h => h.1.exits)
    (fun _ _ e j h => h.2 e j rfl) hobeys hv

end

/-! ## Honest errors -/

def Rule.entry : Rule → List Outlook
  | primary => [{ ahead := [KindSet.full.diff (.ofList (UnaryOp.all.map UnaryOp.token))] }]
  | memberType =>
    [{ ahead := [.ofList [.kwClass, .kwEnum, .kwInterface]] },
      { ahead := [.single .atSign, .single .kwInterface] }]
  | _ => [{}]

def Rule.admits (r : Rule) (v : Outlook) : Bool := r.entry.any v.le

/-- At the outlook the command fails only as it should or in a lapse, and calls rules only where
they may be called. -/
def Cmd.honest : Cmd → Outlook → Bool
  | fail expected _, v => v.excuses expected
  | seq a b, v => a.honest v && (merge (a.exits v)).all b.honest
  | ite g a b, v => (g.assume true v).all a.honest && (g.assume false v).all b.honest
  | loop g body, _ => (g.assume true {}).all body.honest
  | nest body, v => body.honest { v with latest := none }
  | jump r, v => r.admits v
  | dispatch t, v =>
    t.rows.all (fun row => (Row.assume row.pattern 0 true v).all row.rule.admits) &&
      match t.fallback with
      | some r => r.admits v
      | none => (Table.missed t.rows v).all (·.excuses t.firstSet)
  | _, _ => true

def Rule.honest (r : Rule) : Bool := r.entry.all r.body.honest

theorem Rule.honest_all (r : Rule) : r.honest = true := by
  revert r
  decide +kernel

/-- Tokens are refused with sets that they are not in, but for lapses. -/
def Policy.honest : Policy := ⟨fun expected v => v.excuses expected, Rule.entry⟩

theorem Cmd.obeys_honest (c : Cmd) : c.obeys .honest = c.honest := by
  have hnothing (v : Outlook) : Policy.honest.allows ∅ v = true := by
    have hempty : ((v.kinds 0).inter ∅).isEmpty = true :=
      beq_iff_eq.2 (Nat.and_zero (v.kinds 0).bits)
    simp [Policy.honest, excuses, hempty]
  induction c with
  | shift =>
    funext v
    exact List.all_eq_true.2 fun w _ => hnothing w
  | seq a b iha ihb =>
    funext v
    rw [obeys, honest, iha, ihb]
  | ite g a b iha ihb =>
    funext v
    rw [obeys, honest, iha, ihb]
  | loop g body ih =>
    funext v
    rw [obeys, honest, ih]
  | nest body ih =>
    funext v
    rw [obeys, honest, ih]
  | _ => rfl

/-- Where a rule may be called, its errors are honest. -/
theorem Rule.Ends.honest {s : TokenStream} {strict : Bool} {r : Rule} {i j : Nat} {p : Place}
    {e : ParseError} (hs : ∀ i, (s.tokenAt i).kind = s.kindAt i)
    (h : Rule.Ends s strict r p (.failed e j)) (hp : Any s i p r.entry) : e.Honest s := by
  have hobeys (r : Rule) : (Policy.honest.entry r).all (r.body.obeys .honest) = true := by
    rw [Cmd.obeys_honest]
    exact r.honest_all
  obtain hfatal | ⟨expected, remark, i, p, v, hv, rfl, hexcuses, rfl⟩ := h.refuses hs hobeys hp
  · exact .of_isFatal hfatal
  · exact ParseError.honest_unexpected hs (hv.lapses hexcuses)

theorem Entry.any_entry (e : Entry) {s : TokenStream} {p : Place} :
    Any s p.index p e.rule.entry := by
  have htop : ({} : Outlook).Holds s p.index p := holds_top (Nat.le_refl _) (by simp)
  cases e <;> exact htop.any

theorem Session.honest_expectEnd {p : Session}
    (hs : ∀ i, (p.env.stream.tokenAt i).kind = p.env.stream.kindAt i) {err : ParseError}
    (h : p.expectEnd = .error err) : err.Honest p.env.stream := by
  unfold expectEnd at h
  split at h
  · cases h
  · rename_i hend
    cases h
    refine ParseError.honest_unexpected hs fun hc => ?_
    rw [KindSet.contains_single, decide_eq_true_eq] at hc
    exact absurd hc hend

theorem parse_honest {ts : TokenList} {options : ParseOptions} {e : Entry} {err : ParseError}
    (h : parse e ts options = .error err) (hc : err.fault.isCutoff = false) :
    err.Honest (.ofList ts) := by
  have hs := TokenStream.kind_tokenAt_ofList ts
  obtain hrun | ⟨-, hend⟩ := parse_eq_error.1 h
  · have hsound : (Session.start ts options).Sound := Session.sound_startAt ts options 0
    have hends := hsound.ends_of_error e.rule_ne_emptyMember hrun hc
    exact hends.honest hs e.any_entry
  · have hhonest := Session.honest_expectEnd (by rw [Session.env_run]; exact hs) hend
    rwa [Session.env_run] at hhonest

/-- The token that a parse fails at is among those that were expected there in three situations,
and in no other. -/
theorem contains_found_iff_lapses (ts : TokenList) (options : ParseOptions) (e : Entry)
    (err : ParseError) (expected : KindSet) (found : TokenKind)
    (h : parse e ts options = .error err) (hf : err.fault = .unexpectedToken expected found) :
    found = ts.kindAt err.tokenIndex ∧
      (expected.contains found = true ↔
        (TokenStream.ofList ts).Lapses expected err.tokenIndex) := by
  obtain ⟨hfound, hlapses⟩ := parse_honest h (by rw [hf]; rfl) expected found hf
  refine ⟨hfound, hlapses, fun hl => ?_⟩
  rw [hfound]
  exact hl.contains

/-- `super.new X()` fails at `new`, and a member or `new` was expected. -/
theorem contains_found_superNew :
    let ts : TokenList :=
      { source := "super.new X()"
        tokens := #[⟨.kwSuper, ⟨0, 5⟩, ⟨1, 1⟩⟩, ⟨.dot, ⟨5, 6⟩, ⟨1, 6⟩⟩, ⟨.kwNew, ⟨6, 9⟩, ⟨1, 7⟩⟩,
          ⟨.ident, ⟨10, 11⟩, ⟨1, 11⟩⟩, ⟨.lparen, ⟨11, 12⟩, ⟨1, 12⟩⟩, ⟨.rparen, ⟨12, 13⟩, ⟨1, 13⟩⟩,
          ⟨.eof, ⟨13, 13⟩, ⟨1, 14⟩⟩] }
    let expected : KindSet := .ofList [.ident, .less, .kwNew]
    parse .expression ts = .error
        { fault := .unexpectedToken expected .kwNew, span := ⟨6, 9⟩, tokenIndex := 2 } ∧
      expected.contains .kwNew = true := by
  intro ts expected
  refine ⟨parse_eq_error.2 (.inl ?_), by decide⟩
  rw [Session.run_eq]
  decide

/-- `@interface` is no type, although an at sign may start one, and the length in
`a instanceof int[3]` is refused where a bracket is missed. -/
theorem lapses_atSign_bracket :
    let ts : TokenList :=
      { source := "@interface"
        tokens := #[⟨.atSign, ⟨0, 1⟩, ⟨1, 1⟩⟩, ⟨.kwInterface, ⟨1, 10⟩, ⟨1, 2⟩⟩,
          ⟨.eof, ⟨10, 10⟩, ⟨1, 11⟩⟩] }
    let us : TokenList :=
      { source := "a instanceof int[3]"
        tokens := #[⟨.ident, ⟨0, 1⟩, ⟨1, 1⟩⟩, ⟨.kwInstanceof, ⟨2, 12⟩, ⟨1, 3⟩⟩,
          ⟨.kwInt, ⟨13, 16⟩, ⟨1, 14⟩⟩, ⟨.lbracket, ⟨16, 17⟩, ⟨1, 17⟩⟩,
          ⟨.intLiteral, ⟨17, 18⟩, ⟨1, 18⟩⟩, ⟨.rbracket, ⟨18, 19⟩, ⟨1, 19⟩⟩,
          ⟨.eof, ⟨19, 19⟩, ⟨1, 20⟩⟩] }
    TokenKind.typeStart.contains .atSign = true ∧
      (TokenStream.ofList ts).Lapses TokenKind.typeStart 0 ∧
      (KindSet.single .lbracket).contains .lbracket = true ∧
      (TokenStream.ofList us).Lapses (.single .lbracket) 3 := by
  intro ts us
  have hts : parse .type ts = .error
      { fault := .unexpectedToken TokenKind.typeStart .atSign, span := ⟨0, 1⟩,
        tokenIndex := 0 } := by
    refine parse_eq_error.2 (.inl ?_)
    rw [Session.run_eq]
    decide
  have hus : parse .expression us = .error
      { fault := .unexpectedToken (.single .lbracket) .lbracket, span := ⟨16, 17⟩,
        tokenIndex := 3 } := by
    refine parse_eq_error.2 (.inl ?_)
    rw [Session.run_eq]
    decide
  have hat : TokenKind.typeStart.contains .atSign = true := by decide
  have hbracket : (KindSet.single .lbracket).contains .lbracket = true := by decide
  obtain ⟨-, hatSign⟩ := contains_found_iff_lapses ts {} .type _ _ _ hts rfl
  obtain ⟨-, hdims⟩ := contains_found_iff_lapses us {} .expression _ _ _ hus rfl
  exact ⟨hat, hatSign.1 hat, hbracket, hdims.1 hbracket⟩

end JavaSyntax
