import JavaSyntax.Proofs.Items

/-!
# Lists in braces

Array initializers and the bodies of enums are lists in braces, and a comma may stand behind the
last item. It is read behind an item only, so braces that hold nothing but a comma are refused. All
other lists of items are read, whatever the items are, and each item as it is by itself.
-/

namespace JavaSyntax

/-- The children between the first and the last. -/
def Tree.inner (t : Tree) : Forest := t.children.tail.dropLast

/-- The lists in braces that a comma may end. -/
inductive BraceList where
  | initializer | enumBody
  deriving DecidableEq, Repr

namespace BraceList

def rule : BraceList → Rule
  | initializer => .arrayInitializer
  | enumBody => .enumBody

def node : BraceList → NodeKind
  | initializer => .arrayInitializer
  | enumBody => .enumBody

/-- The rules that read the items by themselves. -/
def items : BraceList → List Rule
  | initializer => [.expression, .arrayInitializer]
  | enumBody => [.enumConstant]

/-- What may stand behind the items, before a closing brace with the span. Members are what a class
body with that brace has in its own braces. -/
inductive Follows (rbrace : Span) : BraceList → List (TokenKind × Span) → Forest → Prop
  | nothing (k : BraceList) : Follows rbrace k [] []
  | members {ms : List (TokenKind × Span)} {u : Tree} (semi lbrace : Span)
      (h : (Rule.typeBody .classBody).Accepts
        ((.lbrace, lbrace) :: (ms ++ [(.rbrace, rbrace)])) u) :
      Follows rbrace enumBody ((.semi, semi) :: ms) (.leaf .semi semi :: u.inner)

end BraceList

/-- Where the braces of a list and its commas stand in the source. A comma is known by the number of
items behind it, and there may be one behind the last item. -/
structure Braces where
  lbrace : Span
  rbrace : Span
  commas : Nat → Span
  trails : Bool

namespace Braces

def lastTokens (b : Braces) : List (TokenKind × Span) :=
  if b.trails then [(.comma, b.commas 0)] else []

def lastForest (b : Braces) : Forest := if b.trails then [.leaf .comma (b.commas 0)] else []

/-- The tokens of the items with commas between them and perhaps one behind them. -/
def listTokens (b : Braces) (parts : List (List (TokenKind × Span))) :
    List (TokenKind × Span) :=
  itemTokens b.commas parts ++ b.lastTokens

def listForest (b : Braces) (us : List Tree) : Forest := itemForest b.commas us ++ b.lastForest

def tokens (b : Braces) (parts : List (List (TokenKind × Span)))
    (rest : List (TokenKind × Span)) : List (TokenKind × Span) :=
  (.lbrace, b.lbrace) :: (b.listTokens parts ++ (rest ++ [(.rbrace, b.rbrace)]))

def tree (b : Braces) (k : BraceList) (us : List Tree) (rest : Forest) : Tree :=
  .build k.node b.lbrace.start
    (.leaf .lbrace b.lbrace :: (b.listForest us ++ (rest ++ [.leaf .rbrace b.rbrace])))

variable {b : Braces}

theorem last_of_trails (h : b.trails = true) :
    b.lastTokens = [(.comma, b.commas 0)] ∧ b.lastForest = [.leaf .comma (b.commas 0)] := by
  simp [lastTokens, lastForest, h]

theorem last_of_not_trails (h : b.trails = false) : b.lastTokens = [] ∧ b.lastForest = [] := by
  simp [lastTokens, lastForest, h]

end Braces

namespace BraceList
open Cmd Test

def item : BraceList → Cmd
  | initializer => Grammar.variableInitializer
  | enumBody => .call .enumConstant

/-- The kinds that a list goes on with. -/
def starts : BraceList → KindSet
  | initializer => KindSet.full.diff (.single .rbrace)
  | enumBody => .ofList [.ident, .atSign]

/-- The kinds that stand behind a list and its last comma. -/
def stops : BraceList → KindSet
  | initializer => .single .rbrace
  | enumBody => .ofList [.semi, .rbrace]

def some : BraceList → Test
  | initializer => .neg (.here .rbrace)
  | enumBody => .hereAny (.ofList [.ident, .atSign])

def more : BraceList → Test
  | initializer => .neg (.next .rbrace)
  | enumBody => .ahead 1 (.ofList [.ident, .atSign])

def rest : BraceList → Cmd
  | initializer => .skip
  | enumBody => .opt (Test.here .semi) (.shift ++ Grammar.members .classBody)

section
variable {s : TokenStream} {strict : Bool} {calls : Rule → Place → Ending → Prop} {k : BraceList}
  {i : Nat} {d : Draft} {r : Rule} {p p₁ p₂ p₃ p₄ : Place}

theorem some_holds : k.some.holds s i d = k.starts.contains (s.kindAt i) := by
  cases k <;> simp [some, starts, Test.here, Test.hereAny, Test.holds]

theorem more_holds : k.more.holds s i d = k.starts.contains (s.kindAt (i + 1)) := by
  cases k <;> simp [more, starts, Test.next, Test.holds]

theorem not_starts {kind : TokenKind} (hkind : k.stops.contains kind = true) :
    k.starts.contains kind = false := by
  cases k <;> revert hkind <;> cases kind <;> decide

theorem not_comma {kind : TokenKind} (hkind : k.stops.contains kind = true) : kind ≠ .comma := by
  rintro rfl
  cases k <;> cases hkind

theorem isItem (hr : r ∈ k.items) : r.IsItem := by
  cases k with
  | initializer =>
    rcases List.mem_pair.1 hr with rfl | rfl
    · exact Rule.isItem_expression
    · exact Rule.isItem_arrayInitializer
  | enumBody =>
    obtain rfl := List.mem_singleton.1 hr
    exact ⟨rfl, by decide, by decide, by decide⟩

theorem ends_body (hopen : Cmd.Ends s strict calls (.expect .lbrace) p (.done p₁))
    (hitems : Cmd.Ends s strict calls (.opt k.some (.trailing .comma k.more k.item)) p₁ (.done p₂))
    (hrest : Cmd.Ends s strict calls k.rest p₂ (.done p₃))
    (hclose : Cmd.Ends s strict calls (.expect .rbrace) p₃ (.done p₄)) :
    Cmd.Ends s strict calls k.rule.body p (.done ⟨p₄.index, p₄.draft.close k.node⟩) := by
  cases k with
  | initializer =>
    obtain rfl := hrest.of_skip
    exact .seq (.seq (.seq hopen hitems) hclose) .close
  | enumBody => exact .seq (.seq (.seq (.seq hopen hitems) hrest) hclose) .close

end

end BraceList

section
variable {s : TokenStream} {strict : Bool} {p q : Place}

theorem Rule.Ends.enumConstant_start (h : Rule.Ends s strict .enumConstant p (.done q)) :
    (KindSet.ofList [.ident, .atSign]).contains (s.kindAt p.index) = true := by
  cases h with
  | body h =>
    obtain ⟨_, h, -⟩ := h.seq_done
    obtain ⟨_, h, -⟩ := h.seq_done
    obtain ⟨_, h, -⟩ := h.seq_done
    obtain ⟨m, hannotations, hname⟩ := h.seq_done
    cases hannotations.passes with
    | stop =>
      rw [hname.of_expect.1]
      decide
    | pass hat =>
      rw [Guard.allows_test, Grammar.annotationAhead, Test.holds, Bool.and_eq_true] at hat
      exact KindSet.contains_of_subset (by decide) hat.1

theorem Rule.Ends.expression_start (h : Rule.Ends s strict .expression p (.done q)) :
    (KindSet.ofList [.lbrace, .comma]).contains (s.kindAt p.index) = false := by
  refine Bool.eq_false_iff.2 fun hkind => ?_
  obtain ⟨m, hprimary⟩ := h.primary_of_expression (KindSet.contains_of_subset (by decide) hkind)
  have hexits : Rule.primary.body.exits { ahead := [.ofList [.lbrace, .comma]] } = [] := by decide
  cases hkind.symm.trans (hprimary.not_contains_start hexits)

end

namespace TokenStream
variable {t : TokenStream} {k : BraceList} {r : Rule} {b : Braces} {i n e : Nat} {u : Tree}
  {us : List Tree}

theorem Stands.starts_item (h : t.Stands r i n u) (hr : r ∈ k.items) :
    k.starts.contains (t.kindAt i) = true := by
  cases k with
  | initializer =>
    have hopen := h.start_open (BraceList.isItem hr)
    revert hopen
    generalize t.kindAt i = kind
    cases kind <;> decide
  | enumBody =>
    have hpos := h.pos (BraceList.isItem hr).least
    obtain rfl := List.mem_singleton.1 hr
    obtain ⟨s, w, -, -, d, hends, -⟩ := h
    rw [← Nat.add_zero i, w.kindAt_eq hpos]
    exact (Rule.Ends.body hends).enumConstant_start

/-- Items are told apart by their first token, and read as they are by themselves. -/
theorem Stands.item (h : t.Stands r i n u) (hr : r ∈ k.items) (hnext : t.Divides (i + n))
    (d : Draft) :
    Cmd.Ends t false (Rule.Ends t false) k.item ⟨i, d⟩ (.done ⟨i + n, d.push u⟩) := by
  have hcall := h.call (BraceList.isItem hr) hnext d
  cases k with
  | initializer =>
    rcases List.mem_pair.1 hr with rfl | rfl
    · refine (Cmd.Ends.ite_no (Bool.eq_false_iff.2 fun hbrace => ?_)).2 hcall
      obtain ⟨q, hexpression, -⟩ := hcall.called
      have hstart := hexpression.expression_start
      cases hstart.symm.trans (KindSet.contains_of_subset (by decide) hbrace)
    · refine (Cmd.Ends.ite_yes ?_).2 hcall
      obtain ⟨q, hinitializer, -⟩ := hcall.called
      have hstart : (KindSet.single .lbrace).contains (t.kindAt i) = true :=
        hinitializer.contains_start (by decide)
      exact hstart
  | enumBody =>
    obtain rfl := List.mem_singleton.1 hr
    exact hcall

theorem Items.trailing (ht : t.Regular) (h : t.Items k.items b.commas us i e)
    (hlast : t.reading e b.lastTokens.length = b.lastTokens)
    (hstop : k.stops.contains (t.kindAt (e + b.lastTokens.length)) = true)
    (hnext : t.Divides (e + b.lastTokens.length)) (d : Draft) :
    Cmd.Ends t false (Rule.Ends t false) (.trailing .comma k.more k.item) ⟨i, d⟩
      (.done ⟨e + b.lastTokens.length, d.append (b.listForest us)⟩) := by
  have hyes : ∀ r ∈ k.items, ∀ {i n u}, t.kindAt i = .comma → t.Stands r (i + 1) n u → ∀ d,
      (Test.both (.here .comma) k.more).holds t i d = true := by
    intro r hr i n u hcomma hitem d
    simp [Test.holds, Test.here, hcomma, BraceList.more_holds, hitem.starts_item hr]
  have hread := h.read ht (fun r => BraceList.isItem) (fun r hr _ _ _ h => h.item hr) hyes
  rw [Braces.listForest, ← Draft.append_append]
  cases htrails : b.trails with
  | false =>
    obtain ⟨htokens, hforest⟩ := Braces.last_of_not_trails htrails
    rw [htokens] at hstop hnext ⊢
    rw [hforest]
    have hno : ∀ d, (Test.here .comma).holds t e d = false := by
      simpa [Test.here, Test.holds] using BraceList.not_comma hstop
    refine .seq (hread hnext (fun d => ?_) d) ((Cmd.Ends.ite_no (hno _)).2 .skip)
    rw [Test.holds, hno, Bool.false_and]
  | true =>
    obtain ⟨htokens, hforest⟩ := Braces.last_of_trails htrails
    rw [htokens] at hlast
    rw [htokens, List.length_singleton] at hstop hnext ⊢
    rw [hforest]
    have hcomma := (reading_eq_cons.1 hlast).1
    have hkind := ht.kindAt_eq hcomma
    have hdivides : t.Divides e := .inr ⟨by rw [hkind]; decide, hnext.sealed⟩
    refine .seq (hread hdivides (fun d => ?_) d) ((Cmd.Ends.ite_yes ?_).2 ?_)
    · rw [Test.holds, BraceList.more_holds, BraceList.not_starts hstop, Bool.and_false]
    · simp [Test.here, Test.holds, hkind]
    · exact .shift_entry hcomma (by decide)

theorem opt_items {parts : List (List (TokenKind × Span))} (ht : t.Regular)
    (hparts : List.Forall₂ (fun es u => ∃ r ∈ k.items, r.Accepts es u) parts us)
    (hcomma : us = [] → b.trails = false)
    (hread : t.reading i (b.listTokens parts).length = b.listTokens parts)
    (hle : i + (b.listTokens parts).length ≤ t.lastIndex)
    (hstop : k.stops.contains (t.kindAt (i + (b.listTokens parts).length)) = true)
    (hnext : t.Divides (i + (b.listTokens parts).length)) (d : Draft) :
    Cmd.Ends t false (Rule.Ends t false) (.opt k.some (.trailing .comma k.more k.item)) ⟨i, d⟩
      (.done ⟨i + (b.listTokens parts).length, d.append (b.listForest us)⟩) := by
  by_cases hus : us = []
  · subst hus
    obtain ⟨htokens, hforest⟩ := Braces.last_of_not_trails (hcomma rfl)
    cases hparts
    have htokens : b.listTokens [] = [] := htokens
    have hforest : b.listForest [] = [] := hforest
    rw [htokens] at hstop ⊢
    rw [hforest]
    refine (Cmd.Ends.ite_no ?_).2 .skip
    rw [BraceList.some_holds]
    exact BraceList.not_starts hstop
  · rw [Braces.listTokens] at hread
    obtain ⟨hitems, hlast⟩ := reading_eq_append.1 hread
    rw [Braces.listTokens, List.length_append, ← Nat.add_assoc] at hle hstop hnext ⊢
    have h := Items.of_parts ht (fun r => BraceList.isItem) hparts hus hitems (by omega)
    refine (Cmd.Ends.ite_yes ?_).2 (h.trailing ht hlast hstop hnext d)
    obtain ⟨r, hr, n, u, hfirst⟩ := h.exists_first
    rw [BraceList.some_holds]
    exact hfirst.starts_item hr

end TokenStream

/-- The command adds to the draft and does not look at it. -/
def Cmd.appends : Cmd → Bool
  | shift | nest _ => true
  | _ => false

section
variable {s : TokenStream} {strict : Bool} {c : Cmd} {kind : BodyKind} {p q : Place}

theorem Cmd.Ends.append (hc : c.appends = true)
    (h : Cmd.Ends s strict (Rule.Ends s strict) c p (.done q)) :
    ∃ fs, q.draft = p.draft.append fs ∧ ∀ d,
      Cmd.Ends s strict (Rule.Ends s strict) c ⟨p.index, d⟩ (.done ⟨q.index, d.append fs⟩) := by
  cases c with
  | shift =>
    obtain ⟨hkind, rfl⟩ := h.of_shift
    exact ⟨[.leaf (s.tokenAt p.index).kind (s.tokenAt p.index).span], rfl,
      fun d => .shift (p := ⟨p.index, d⟩) hkind⟩
  | nest body =>
    cases h with
    | @nest _ _ m h =>
      refine ⟨m.draft.forest, Draft.adopt_eq_append, fun d => ?_⟩
      rw [← Draft.adopt_eq_append]
      exact .nest (p := ⟨p.index, d⟩) h
  | _ => cases hc

theorem Grammar.members_append
    (h : Cmd.Ends s strict (Rule.Ends s strict) (members kind) p (.done q)) :
    ∃ fs, q.draft = p.draft.append fs ∧ ∀ d, Cmd.Ends s strict (Rule.Ends s strict)
      (members kind) ⟨p.index, d⟩ (.done ⟨q.index, d.append fs⟩) := by
  have hpasses := h.passes
  clear h
  induction hpasses with
  | @stop p hstop =>
    rw [Guard.allows_test] at hstop
    exact ⟨[], rfl, fun d => .loop ((Cmd.Ends.ite_no (p := ⟨p.index, d⟩) hstop).2 .skip)⟩
  | @pass p m q hgo hmember _ ih =>
    rw [Guard.allows_test] at hgo
    obtain ⟨r, hdecide, hrule⟩ := hmember.of_dispatch
    have happends : r.body.appends = true := by
      have hmembers : ∀ r ∈ (memberStartTable kind).rules, r.body.appends = true := by
        cases kind <;> decide
      exact hmembers r (Table.mem_rules_of_decide hdecide)
    cases hrule with
    | body hbody =>
      obtain ⟨fs, hm, hfirst⟩ := hbody.append happends
      obtain ⟨gs, hq, hrest⟩ := ih
      refine ⟨fs ++ gs, by rw [hq, hm, Draft.append_append], fun d => ?_⟩
      have hmember : Cmd.Ends s strict (Rule.Ends s strict) (.dispatch (memberStartTable kind))
          ⟨p.index, d⟩ (.done ⟨m.index, d.append fs⟩) := .dispatch hdecide (.body (hfirst d))
      rw [← Draft.append_append]
      exact .loop ((Cmd.Ends.ite_yes (p := ⟨p.index, d⟩) hgo).2 (.seq hmember (hrest _)))

theorem Grammar.members_of_typeBody {i : Nat}
    (h : Cmd.Ends s strict (Rule.Ends s strict) (typeBody kind) (s.fresh i) (.done q)) :
    ∃ (j : Nat) (d₁ d₂ : Draft), q.index = j + 1 ∧ s.kindAt j = .rbrace ∧
      Cmd.Ends s strict (Rule.Ends s strict) (members kind) ⟨i + 1, d₁⟩ (.done ⟨j, d₂⟩) ∧
      ∀ fs u, d₂ = d₁.append fs → q.draft.items = [u] → u.inner = fs := by
  obtain ⟨p₃, h, hclose⟩ := h.seq_done
  obtain ⟨p₂, h, hright⟩ := h.seq_done
  obtain ⟨p₁, hleft, hmembers⟩ := h.seq_done
  obtain ⟨-, rfl⟩ := hleft.of_expect
  obtain ⟨hkind, rfl⟩ := hright.of_expect
  obtain rfl := hclose.of_close
  refine ⟨p₂.index, _, p₂.draft, rfl, hkind, hmembers, fun fs u hfs hu => ?_⟩
  have hempty : (s.fresh i).draft.forest = [] := rfl
  rw [Draft.close, List.cons.injEq] at hu
  simp [← hu.1, hfs, hempty, Tree.inner, Tree.build, Tree.children]

/-- The members of a class body are read before a closing brace as they are in their own braces. -/
theorem Rule.Accepts.members {t : TokenStream} {lbrace rbrace : Span}
    {ms : List (TokenKind × Span)} {u : Tree} {i : Nat}
    (h : (Rule.typeBody .classBody).Accepts ((.lbrace, lbrace) :: (ms ++ [(.rbrace, rbrace)])) u)
    (ht : t.Regular)
    (hread : t.reading i (ms ++ [(TokenKind.rbrace, rbrace)]).length =
      ms ++ [(TokenKind.rbrace, rbrace)])
    (hle : i + (ms ++ [(TokenKind.rbrace, rbrace)]).length ≤ t.lastIndex) :
    t.Sealed i (i + ms.length) ∧ ∀ d, Cmd.Ends t false (Rule.Ends t false)
      (Grammar.members .classBody) ⟨i, d⟩ (.done ⟨i + ms.length, d.append u.inner⟩) := by
  obtain ⟨hes, ts, options, hts, hparse⟩ := h
  have hs := hts.regular
  obtain ⟨n, hfills⟩ := Rule.fills_of_parseAll (by simp) hs.closed hparse
  obtain rfl := hts.fills_eq hes hfills
  obtain ⟨-, -, d, hends, hitems⟩ := hfills
  obtain ⟨j, d₁, d₂, hindex, hkind, hmembers, hinner⟩ := Grammar.members_of_typeBody hends
  have hlength : (ms ++ [(TokenKind.rbrace, rbrace)]).length = ms.length + 1 := by simp
  obtain rfl : j = 1 + ms.length := by
    change (ms ++ [(TokenKind.rbrace, rbrace)]).length + 1 = j + 1 at hindex
    omega
  have w : Window (.ofList ts) t 1 i (ms ++ [(TokenKind.rbrace, rbrace)]).length := by
    refine .of_reading hs ht (TokenStream.reading_eq_cons.1 hts.reading).2 hread ?_ hle ?_
    · rw [hts.lastIndex, List.length_cons]
      omega
    · intro k hk
      obtain rfl : k = ms.length := by omega
      rw [hkind]
      decide
  have hnext : t.kindAt (i + ms.length) = .rbrace := by rw [w.kindAt_eq (by omega), hkind]
  refine ⟨⟨by omega, by rw [hnext]; rfl, ?_, ?_⟩, ?_⟩
  · exact (w.scan_eq (k := 0) (by omega) []).trans (hmembers.balanced (by decide))
  · refine w.paired (k := 0) (by omega) (by rw [hnext]; decide) ?_
    have hpairs : (Grammar.members .classBody).pairs false {} = true := by decide
    exact (hmembers.mono fun _ _ _ h => h.paired).paired hpairs (Outlook.holds_bottom _) (by simp)
  · have hruns : w.Runs .enclosed 1 (Grammar.members .classBody) 0 ms.length d₁ d₂ :=
      .of_closer w (by decide) (by omega) (by omega) (by rw [hkind]; rfl) hmembers
    obtain ⟨fs, hfs, hread⟩ := Grammar.members_append (Cmd.carriesBelow _ w (Nat.lt_succ_self _)
      (by decide) (by decide) (Outlook.holds_bottom _) hruns)
    rw [hinner fs u hfs hitems]
    exact hread

end

section
variable {s t : TokenStream} {strict : Bool} {p q : Place} {k : BraceList} {b : Braces} {i : Nat}
  {parts : List (List (TokenKind × Span))} {us : List Tree} {rest : List (TokenKind × Span)}
  {fs : Forest} {ts : TokenList} {options : ParseOptions}

theorem BraceList.Follows.ends {rbrace : Span} (h : Follows rbrace k rest fs) (ht : t.Regular)
    (hread : t.reading i (rest ++ [(TokenKind.rbrace, rbrace)]).length =
      rest ++ [(TokenKind.rbrace, rbrace)])
    (hle : i + (rest ++ [(TokenKind.rbrace, rbrace)]).length ≤ t.lastIndex) :
    k.stops.contains (t.kindAt i) = true ∧ t.Divides i ∧
      ∀ d, Cmd.Ends t false (Rule.Ends t false) k.rest ⟨i, d⟩
        (.done ⟨i + rest.length, d.append fs⟩) := by
  obtain ⟨hfirst, hrest⟩ := TokenStream.reading_eq_append.1 hread
  cases h with
  | nothing k =>
    have hkind := ht.kindAt_eq (TokenStream.reading_eq_cons.1 hrest).1
    change t.kindAt i = .rbrace at hkind
    refine ⟨by rw [hkind]; cases k <;> decide, .inl (by rw [hkind]; rfl), fun d => ?_⟩
    cases k with
    | initializer => exact .skip
    | enumBody => exact (Cmd.Ends.ite_no (by simp [Test.here, Test.holds, hkind])).2 .skip
  | @members ms u semi lbrace h =>
    obtain ⟨hsemi, hread⟩ := TokenStream.reading_eq_cons.1 hread
    have hkind := ht.kindAt_eq hsemi
    obtain ⟨hsealed, hmembers⟩ := h.members ht hread (by simp at hle ⊢; omega)
    refine ⟨by rw [hkind]; decide, .inr ⟨by rw [hkind]; decide, _, hsealed⟩, fun d => ?_⟩
    have hindex : i + (ms.length + 1) = i + 1 + ms.length := by omega
    have hends := hmembers (d.append [.leaf .semi semi])
    rw [Draft.append_append, ← hindex] at hends
    exact (Cmd.Ends.ite_yes (by simp [Test.here, Test.holds, hkind])).2
      (.seq (.shift_entry hsemi (by decide)) hends)

theorem BraceList.not_ends_comma (hcomma : s.kindAt (p.index + 1) = .comma) :
    ¬Rule.Ends s strict k.rule p (.done q) := by
  intro h
  cases h with
  | body h =>
    cases k with
    | initializer =>
      obtain ⟨_, h, -⟩ := h.seq_done
      obtain ⟨_, h, hright⟩ := h.seq_done
      obtain ⟨_, hleft, hopt⟩ := h.seq_done
      obtain ⟨-, rfl⟩ := hleft.of_expect
      obtain ⟨answer, -, hopt⟩ := hopt.ite_done
      cases answer with
      | false =>
        obtain rfl := hopt.of_skip
        cases hcomma.symm.trans hright.of_expect.1
      | true =>
        obtain ⟨_, h, -⟩ := hopt.seq_done
        obtain ⟨_, hitem, -⟩ := h.seq_done
        obtain ⟨answer, hbrace, hitem⟩ := hitem.ite_done
        cases answer with
        | true =>
          rw [Guard.allows_test, Test.here, Test.holds, hcomma] at hbrace
          cases hbrace
        | false =>
          obtain ⟨_, hexpression, -⟩ := hitem.called
          have hstart := hexpression.expression_start
          rw [TokenStream.fresh_index, hcomma] at hstart
          cases hstart
    | enumBody =>
      have hopen : (KindSet.single .lbrace).contains (s.kindAt p.index) = true :=
        h.contains_start (by decide)
      exact Cmd.Ends.not_done (Outlook.holds_ahead_two (b := .single .comma) hopen
        (by simp [hcomma])) (by decide) h

/-- Items in braces fill a source, also with a comma behind the last of them. -/
theorem Braces.fills
    (hparts : List.Forall₂ (fun es u => ∃ r ∈ k.items, r.Accepts es u) parts us)
    (hrest : BraceList.Follows b.rbrace k rest fs) (hcomma : us = [] → b.trails = false)
    (hts : ts.Lists (b.tokens parts rest)) :
    k.rule.Fills (.ofList ts) (b.tokens parts rest).length (b.tree k us fs) := by
  have ht := hts.regular
  have hlast := hts.lastIndex
  obtain ⟨hopen, hread⟩ := TokenStream.reading_eq_cons.1 hts.reading
  obtain ⟨hlist, hread⟩ := TokenStream.reading_eq_append.1 hread
  obtain ⟨-, hclose⟩ := TokenStream.reading_eq_append.1 hread
  obtain ⟨hclose, -⟩ := TokenStream.reading_eq_cons.1 hclose
  have hlength : (b.tokens parts rest).length =
      0 + 1 + (b.listTokens parts).length + rest.length + 1 := by
    simp [Braces.tokens]
    omega
  have hle : 0 + 1 + (b.listTokens parts).length +
      (rest ++ [(TokenKind.rbrace, b.rbrace)]).length ≤ (TokenStream.ofList ts).lastIndex := by
    rw [hlast, hlength, List.length_append, List.length_singleton]
    omega
  obtain ⟨hstop, hdivides, hrest⟩ := hrest.ends ht hread hle
  have hitems := TokenStream.opt_items ht hparts hcomma hlist (by omega) hstop hdivides
  have hends := BraceList.ends_body (p := ⟨0, { start := b.lbrace.start }⟩)
    (.expect_entry ht hopen (by decide)) (hitems _) (hrest _)
    (.expect_entry ht hclose (by decide))
  rw [← hlength] at hends
  refine ⟨ht.closed, hts.kindAt_end (Nat.le_refl _), ?_⟩
  rw [TokenStream.fresh_of_entry hopen]
  exact ⟨_, hends, by simp [Draft.close, Braces.tree]⟩

theorem Braces.childNodes_tree (hus : ∀ u ∈ us, u.nodeKind?.isSome = true) :
    (b.tree k us fs).childNodes = us ++ fs.filter fun u => u.nodeKind?.isSome := by
  have hlast : b.lastForest.filter (fun u => u.nodeKind?.isSome) = [] := by
    cases htrails : b.trails with
    | false => rw [(Braces.last_of_not_trails htrails).2]; rfl
    | true => rw [(Braces.last_of_trails htrails).2]; rfl
  change (Tree.leaf .lbrace b.lbrace ::
    (b.listForest us ++ (fs ++ [.leaf .rbrace b.rbrace]))).filter (fun u => u.nodeKind?.isSome) = _
  rw [List.filter_cons_of_neg (by simp [Tree.nodeKind?]), List.filter_append, List.filter_append,
    Braces.listForest, List.filter_append, filter_itemForest hus, hlast, List.append_nil]
  simp [Tree.nodeKind?]

theorem BraceList.nodes
    (hparts : List.Forall₂ (fun es u => ∃ r ∈ k.items, r.Accepts es u) parts us) :
    ∀ u ∈ us, u.nodeKind?.isSome = true := by
  induction hparts with
  | nil => simp
  | cons h _ ih =>
    obtain ⟨r, hr, h⟩ := h
    exact List.forall_mem_cons.2 ⟨h.node (isItem hr).ne_emptyMember, ih⟩

/-- Items in braces with commas between them are a list, also with a comma behind the last of them.
The items are the trees that they are by themselves, if the budget is enough. Only a comma without
an item is refused. -/
theorem parseAll_braces (b : Braces)
    (hparts : List.Forall₂ (fun es u => ∃ r ∈ k.items, r.Accepts es u) parts us)
    (hrest : BraceList.Follows b.rbrace k rest fs) (hts : ts.Lists (b.tokens parts rest)) :
    (us = [] → b.trails = true → ∀ u, k.rule.parseAll ts options ≠ .ok u) ∧
      ((us = [] → b.trails = false) →
        (∀ err, k.rule.parseAll ts options = .error err → err.InBudget) →
        k.rule.parseAll ts options = .ok (b.tree k us fs) ∧
          (b.tree k us fs).childNodes = us ++ fs.filter fun u => u.nodeKind?.isSome) := by
  have hrule : k.rule ≠ .emptyMember := by cases k <;> simp [BraceList.rule]
  refine ⟨fun hus htrails u hu => ?_, fun hcomma hin => ?_⟩
  · subst hus
    cases hparts
    obtain ⟨q, hends, -, -⟩ := Rule.ends_of_parseAll hrule hu
    refine BraceList.not_ends_comma ?_ hends
    have hread := (TokenStream.reading_eq_cons.1 hts.reading).2
    have hlist := (TokenStream.reading_eq_append.1 hread).1
    have htokens : b.listTokens [] = [(.comma, b.commas 0)] := (Braces.last_of_trails htrails).1
    rw [htokens] at hlist
    exact hts.regular.kindAt_eq (TokenStream.reading_eq_cons.1 hlist).1
  · exact ⟨Rule.parseAll_of_fills hrule (Braces.fills hparts hrest hcomma hts) hin,
      Braces.childNodes_tree (BraceList.nodes hparts)⟩

end

/-- `{}` and `a` as items of an initializer. -/
def emptyItem : List (TokenKind × Span) := [(.lbrace, ⟨1, 2⟩), (.rbrace, ⟨2, 3⟩)]

def emptyItemTree : Tree :=
  .node .arrayInitializer ⟨1, 3⟩ [.leaf .lbrace ⟨1, 2⟩, .leaf .rbrace ⟨2, 3⟩]

def nameItem : List (TokenKind × Span) := [(.ident, ⟨4, 5⟩)]

def nameItemTree : Tree := .node .name ⟨4, 5⟩ [.leaf .ident ⟨4, 5⟩]

def trailingInitializer : TokenList where
  source := "\x7b\x7b\x7d,a,\x7d"
  tokens := #[⟨.lbrace, ⟨0, 1⟩, ⟨1, 1⟩⟩, ⟨.lbrace, ⟨1, 2⟩, ⟨1, 2⟩⟩, ⟨.rbrace, ⟨2, 3⟩, ⟨1, 3⟩⟩,
    ⟨.comma, ⟨3, 4⟩, ⟨1, 4⟩⟩, ⟨.ident, ⟨4, 5⟩, ⟨1, 5⟩⟩, ⟨.comma, ⟨5, 6⟩, ⟨1, 6⟩⟩,
    ⟨.rbrace, ⟨6, 7⟩, ⟨1, 7⟩⟩, ⟨.eof, ⟨7, 7⟩, ⟨1, 8⟩⟩]

def trailingInitializerTree : Tree :=
  .node .arrayInitializer ⟨0, 7⟩ [.leaf .lbrace ⟨0, 1⟩, emptyItemTree, .leaf .comma ⟨3, 4⟩,
    nameItemTree, .leaf .comma ⟨5, 6⟩, .leaf .rbrace ⟨6, 7⟩]

/-- `A` as the constant of an enum, and `{}` as the only member. -/
def constantItem : List (TokenKind × Span) := [(.ident, ⟨1, 2⟩)]

def constantItemTree : Tree := .node .enumConstant ⟨1, 2⟩ [.leaf .ident ⟨1, 2⟩]

def memberTokens : List (TokenKind × Span) := [(.lbrace, ⟨4, 5⟩), (.rbrace, ⟨5, 6⟩)]

def memberTree : Tree :=
  .node .instanceInitializer ⟨4, 6⟩
    [.node .block ⟨4, 6⟩ [.leaf .lbrace ⟨4, 5⟩, .leaf .rbrace ⟨5, 6⟩]]

def trailingEnum : TokenList where
  source := "\x7bA,;\x7b\x7d\x7d"
  tokens := #[⟨.lbrace, ⟨0, 1⟩, ⟨1, 1⟩⟩, ⟨.ident, ⟨1, 2⟩, ⟨1, 2⟩⟩, ⟨.comma, ⟨2, 3⟩, ⟨1, 3⟩⟩,
    ⟨.semi, ⟨3, 4⟩, ⟨1, 4⟩⟩, ⟨.lbrace, ⟨4, 5⟩, ⟨1, 5⟩⟩, ⟨.rbrace, ⟨5, 6⟩, ⟨1, 6⟩⟩,
    ⟨.rbrace, ⟨6, 7⟩, ⟨1, 7⟩⟩, ⟨.eof, ⟨7, 7⟩, ⟨1, 8⟩⟩]

def trailingEnumTree : Tree :=
  .node .enumBody ⟨0, 7⟩ [.leaf .lbrace ⟨0, 1⟩, constantItemTree, .leaf .comma ⟨2, 3⟩,
    .leaf .semi ⟨3, 4⟩, memberTree, .leaf .rbrace ⟨6, 7⟩]

/-- An initializer of an empty list and a name, and an enum of one constant with an initializer. -/
theorem parseAll_braces_trailing :
    Rule.arrayInitializer.Accepts emptyItem emptyItemTree ∧
      Rule.expression.Accepts nameItem nameItemTree ∧
      Rule.enumConstant.Accepts constantItem constantItemTree ∧
      Rule.parseAll .arrayInitializer trailingInitializer = .ok trailingInitializerTree ∧
      Rule.parseAll .enumBody trailingEnum = .ok trailingEnumTree := by
  have hempty : Rule.arrayInitializer.Accepts emptyItem emptyItemTree := by
    refine .of_reads (by decide) ?_
    rw [Session.run_eq]
    decide +kernel
  have hname : Rule.expression.Accepts nameItem nameItemTree := by
    refine .of_reads (by decide) ?_
    rw [Session.run_eq]
    decide +kernel
  have hconstant : Rule.enumConstant.Accepts constantItem constantItemTree := by
    refine .of_reads (by decide) ?_
    rw [Session.run_eq]
    decide +kernel
  have hmembers : (Rule.typeBody .classBody).Accepts
      ((.lbrace, ⟨3, 4⟩) :: (memberTokens ++ [(.rbrace, ⟨6, 7⟩)]))
      (.node .classBody ⟨3, 7⟩ [.leaf .lbrace ⟨3, 4⟩, memberTree, .leaf .rbrace ⟨6, 7⟩]) := by
    refine .of_reads (by decide) ?_
    rw [Session.run_eq]
    decide +kernel
  have hlistOk : ((Session.start trailingInitializer {}).run .arrayInitializer).1.toBool = true ∧
      ((Session.start trailingInitializer {}).run .arrayInitializer).2.expectEnd = .ok () := by
    rw [Session.run_eq]
    decide +kernel
  have hbodyOk : ((Session.start trailingEnum {}).run .enumBody).1.toBool = true ∧
      ((Session.start trailingEnum {}).run .enumBody).2.expectEnd = .ok () := by
    rw [Session.run_eq]
    decide +kernel
  have hitems : List.Forall₂ (fun es u => ∃ r ∈ BraceList.initializer.items, r.Accepts es u)
      [emptyItem, nameItem] [emptyItemTree, nameItemTree] :=
    .cons ⟨_, by decide, hempty⟩ (.cons ⟨_, by decide, hname⟩ .nil)
  have hconstants : List.Forall₂ (fun es u => ∃ r ∈ BraceList.enumBody.items, r.Accepts es u)
      [constantItem] [constantItemTree] := .cons ⟨_, by decide, hconstant⟩ .nil
  let listBraces : Braces := ⟨⟨0, 1⟩, ⟨6, 7⟩, fun k => if k = 0 then ⟨5, 6⟩ else ⟨3, 4⟩, true⟩
  let bodyBraces : Braces := ⟨⟨0, 1⟩, ⟨6, 7⟩, fun _ => ⟨2, 3⟩, true⟩
  have hlists : trailingInitializer.Lists (listBraces.tokens [emptyItem, nameItem] []) :=
    ⟨⟨7, 7⟩, rfl⟩
  have hlistsBody : trailingEnum.Lists
      (bodyBraces.tokens [constantItem] ((.semi, ⟨3, 4⟩) :: memberTokens)) := ⟨⟨7, 7⟩, rfl⟩
  have hlist := (parseAll_braces listBraces hitems (.nothing _) hlists).2 (by simp)
    (Rule.inBudget_of_reads hlistOk)
  have hbody := (parseAll_braces bodyBraces hconstants (.members ⟨3, 4⟩ ⟨3, 4⟩ hmembers)
    hlistsBody).2 (by simp) (Rule.inBudget_of_reads hbodyOk)
  exact ⟨hempty, hname, hconstant, hlist.1, hbody.1⟩

/-- `{,}` -/
def loneComma : TokenList where
  source := "\x7b,\x7d"
  tokens := #[⟨.lbrace, ⟨0, 1⟩, ⟨1, 1⟩⟩, ⟨.comma, ⟨1, 2⟩, ⟨1, 2⟩⟩, ⟨.rbrace, ⟨2, 3⟩, ⟨1, 3⟩⟩,
    ⟨.eof, ⟨3, 3⟩, ⟨1, 4⟩⟩]

/-- A comma in braces is no list, although its items could be none. -/
theorem not_parseAll_comma :
    ¬∀ (k : BraceList) (b : Braces) (parts : List (List (TokenKind × Span))) (us : List Tree)
        (rest : List (TokenKind × Span)) (fs : Forest) (ts : TokenList) (options : ParseOptions),
      List.Forall₂ (fun es u => ∃ r ∈ k.items, r.Accepts es u) parts us →
        BraceList.Follows b.rbrace k rest fs → ts.Lists (b.tokens parts rest) →
        (∀ err, k.rule.parseAll ts options = .error err → err.InBudget) →
        ∃ u, k.rule.parseAll ts options = .ok u := by
  intro h
  let b : Braces := ⟨⟨0, 1⟩, ⟨2, 3⟩, fun _ => ⟨1, 2⟩, true⟩
  have herror : ((Session.start loneComma {}).run .arrayInitializer).1 =
      .error (.unexpected TokenKind.expressionStart ⟨.comma, ⟨1, 2⟩, ⟨1, 2⟩⟩ 1) := by
    rw [Session.run_eq]
    decide +kernel
  have herror := Rule.parseAll_of_error herror
  obtain ⟨u, hu⟩ := h .initializer b [] [] [] [] loneComma {} .nil (.nothing _) ⟨⟨3, 3⟩, rfl⟩
    fun err he budget => by
      cases herror.symm.trans he
      simp [ParseError.unexpected, ParseFault.ofFound]
  cases herror.symm.trans hu

end JavaSyntax
