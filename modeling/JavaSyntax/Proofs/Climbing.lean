import Mathlib.Data.List.Find
import JavaSyntax.Proofs.Straight

/-!
# Climbing

The climbing loop on chains of binary operators. Its left operand is always the tree of the links
read so far, which bind no less tightly than the next one, and the right operand takes the links
that bind more tightly than the operator before it.
-/

namespace JavaSyntax

/-! ### The operator that stands at a link -/

def BinaryOp.operator (op : BinaryOp) : InfixOperator :=
  ⟨⟨op.level, by cases op <;> decide⟩, .binary op, op.spelling, .left⟩

/-- Of the operators from a level on, the first whose spelling begins another one's is that one
itself. -/
theorem BinaryOp.find?_operatorsFrom (op : BinaryOp) (least : Fin 12) :
    (Grammar.operatorsFrom least).find? (fun o => o.spelling.isPrefixOf op.spelling) =
      if least.val ≤ op.level then some op.operator else none := by
  revert least
  cases op <;> decide

section
variable {s : TokenStream} {i : Nat} {d : Draft} {ops : List InfixOperator} {o : InfixOperator}

theorem Grammar.holds_spelled_iff {k : Nat} {ks : List TokenKind} :
    (spelled k ks).holds s i d = true ↔
      (∀ j a, ks[j]? = some a → s.kindAt (i + k + j) = a) ∧
        ∀ j, j + 1 < ks.length → s.touching (i + k + j) = true := by
  fun_induction spelled k ks with
  | case1 => simp [Test.holds]
  | case2 k a =>
    simp only [Test.holds, KindSet.contains_single, decide_eq_true_eq]
    constructor
    · intro h
      refine ⟨fun j b hb => ?_, fun j hj => by simp at hj⟩
      cases j with
      | zero => exact h.trans (by simpa using hb)
      | succ j => simp at hb
    · intro h
      exact h.1 0 a rfl
  | case3 k a ks hne ih =>
    simp only [Test.holds, KindSet.contains_single, decide_eq_true_eq, Bool.and_eq_true, ih]
    have hshift (j : Nat) : i + (k + 1) + j = i + k + (j + 1) := by omega
    simp only [hshift]
    constructor
    · rintro ⟨hkind, htouch, hkinds, htouches⟩
      constructor
      · intro j b hb
        cases j with
        | zero => exact hkind.trans (by simpa using hb)
        | succ j => exact hkinds j b (by simpa using hb)
      · intro j hj
        cases j with
        | zero => exact htouch
        | succ j => exact htouches j (by simpa using hj)
    · rintro ⟨hkinds, htouches⟩
      refine ⟨hkinds 0 a rfl, htouches 0 ?_, ?_, ?_⟩
      · have := List.length_pos_of_ne_nil hne
        simpa using this
      · exact fun j b hb => hkinds (j + 1) b (by simpa using hb)
      · exact fun j hj => htouches (j + 1) (by simpa using hj)

theorem Grammar.exists_standsAt (h : (operatorAhead ops).holds s i d = true) :
    ∃ o ∈ ops, o.StandsAt s i := by
  rw [operatorAhead, Test.holds, Bool.or_eq_true] at h
  rcases h with h | h
  · rw [Test.hereAny, Test.holds, KindSet.contains_ofList, List.contains_iff_mem,
      List.mem_flatMap] at h
    obtain ⟨o, ho, hk⟩ := h
    rw [List.mem_filter, beq_iff_eq, List.length_eq_one_iff] at ho
    obtain ⟨hmem, k, hspelling⟩ := ho
    rw [hspelling, List.mem_singleton] at hk
    refine ⟨o, hmem, ?_⟩
    simp [InfixOperator.StandsAt, hspelling, spelled, Test.holds, ← hk]
  · rw [holds_anyOf, List.any_map, List.any_eq_true] at h
    obtain ⟨o, ho, hstands⟩ := h
    exact ⟨o, (List.mem_filter.1 ho).1, (holds_spelled d default 0 o.spelling).symm.trans hstands⟩

theorem Grammar.not_operatorAhead (h : InfixOperator.first? s i ops = none) :
    (operatorAhead ops).holds s i d = false := by
  apply Bool.eq_false_iff.2
  intro hholds
  obtain ⟨o, ho, hstands⟩ := exists_standsAt hholds
  exact List.find?_eq_none.1 h o ho hstands

theorem Link.standsAt_iff (l : Link) (h : s.Shows i l.tokens)
    (hkind : ∀ i, (s.tokenAt i).kind = s.kindAt i) (ho : o ∈ InfixOperator.all) :
    o.StandsAt s i ↔ o.spelling <+: l.op.spelling := by
  obtain ⟨hspelling, hoperand⟩ := TokenStream.shows_append.1 h
  have hop {j : Nat} {k : TokenKind} (hj : l.op.spelling[j]? = some k) : s.kindAt (i + j) = k := by
    rw [← l.kinds, List.getElem?_map, Option.map_eq_some_iff] at hj
    obtain ⟨t, ht, rfl⟩ := hj
    rw [← hkind, hspelling.tokenAt ht]
  rw [InfixOperator.StandsAt, Grammar.holds_spelled_iff, Nat.add_zero]
  constructor
  · rintro ⟨hkinds, -⟩
    have hlen : o.spelling.length ≤ l.spelling.length := by
      by_contra hlong
      -- The operator would go on with the first token of the operand.
      obtain ⟨t, ts, htokens⟩ := l.operand.tokens_eq_cons
      have hstart : t.kind ∈ operandStarts := l.operand.kind_mem (htokens ▸ List.mem_cons_self)
      have hnext : o.spelling[l.spelling.length]? = some t.kind := by
        rw [List.getElem?_eq_getElem (by omega), ← hkinds _ _ (List.getElem?_eq_getElem (by omega)),
          ← hkind]
        rw [htokens] at hoperand
        rw [hoperand.1]
      have htail : t.kind ∈ o.spelling.tail := by
        refine List.mem_of_getElem? (i := l.spelling.length - 1) ?_
        have := l.spelling_pos
        rw [List.getElem?_tail, ← hnext]
        congr 1
        omega
      have hno : ∀ o ∈ InfixOperator.all, ∀ k ∈ o.spelling.tail, k ∉ operandStarts := by decide
      exact hno o ho _ htail hstart
    rw [List.prefix_iff_getElem?]
    intro j hj
    have hlt : j < l.op.spelling.length := by
      rw [← l.length_spelling]
      omega
    rw [List.getElem?_eq_getElem hlt, ← hop (List.getElem?_eq_getElem hlt),
      hkinds j _ (List.getElem?_eq_getElem hj)]
  · intro hprefix
    constructor
    · intro j k hj
      obtain ⟨hlt, rfl⟩ := List.getElem?_eq_some_iff.1 hj
      exact hop (List.prefix_iff_getElem?.1 hprefix j hlt)
    · intro j hj
      have hlt : j + 1 < l.spelling.length := by
        rw [l.length_spelling]
        exact Nat.lt_of_lt_of_le hj hprefix.length_le
      have htouch := List.isChain_iff_getElem.1 l.touching j hlt
      rw [TokenStream.touching, hspelling.tokenAt (List.getElem?_eq_getElem (by omega)),
        Nat.add_assoc, hspelling.tokenAt (List.getElem?_eq_getElem hlt)]
      exact htouch

theorem Link.first?_eq (l : Link) (h : s.Shows i l.tokens)
    (hkind : ∀ i, (s.tokenAt i).kind = s.kindAt i) (least : Fin 12) :
    InfixOperator.first? s i (Grammar.operatorsFrom least) =
      if least.val ≤ l.level then some l.op.operator else none := by
  rw [Link.level, ← BinaryOp.find?_operatorsFrom]
  apply List.find?_congr
  intro o ho
  rw [Bool.eq_iff_iff, List.isPrefixOf_iff_prefix]
  exact l.standsAt_iff h hkind (List.mem_filter.1 ho).1

end

namespace Cmd.Goes
variable {env : Setting} {n : Nat} {p q : Place} {ops : List InfixOperator} {o : InfixOperator}

theorem of_first? (hfirst : InfixOperator.first? env.stream p.index ops = some o)
    (h : Goes env n (Grammar.operation o) p q) :
    Goes env n
      (ops.foldr (fun o rest => .ite (Grammar.spelled 0 o.spelling) (Grammar.operation o) rest)
        .skip) p q := by
  induction ops with
  | nil => cases hfirst
  | cons a ops ih =>
    have hdraft : (Grammar.spelled 0 a.spelling).holds env.stream p.index p.draft =
        (Grammar.spelled 0 a.spelling).holds env.stream p.index default :=
      Grammar.holds_spelled p.draft default 0 a.spelling
    rw [InfixOperator.first?, List.find?_cons] at hfirst
    rw [List.foldr_cons]
    by_cases ha : (Grammar.spelled 0 a.spelling).holds env.stream p.index default = true
    · rw [ha] at hfirst
      cases hfirst
      exact ite_yes (hdraft.trans ha) h
    · rw [Bool.not_eq_true] at ha
      rw [ha] at hfirst
      exact ite_no (hdraft.trans ha) (ih hfirst)

end Cmd.Goes

/-! ### Sources that hold a chain -/

/-- The kinds that may stand behind an operand of a chain. -/
def operandEnds : KindSet := .ofList (.eof :: BinaryOp.all.flatMap BinaryOp.spelling)

/-- The source ends at an index, and up to it there are only kinds that chains hold. -/
structure TokenStream.Plain (s : TokenStream) (last : Nat) : Prop where
  kind_tokenAt : ∀ i, (s.tokenAt i).kind = s.kindAt i
  ended : s.kindAt last = .eof
  kinds : ∀ i < last, s.kindAt i ∈ chainKinds

namespace TokenStream.Plain
variable {s : TokenStream} {last i : Nat} (h : s.Plain last)
include h

theorem kindAt_ne (hi : i ≤ last) {k : TokenKind} (hk : k ∉ .eof :: chainKinds) :
    s.kindAt i ≠ k := by
  rintro rfl
  apply hk
  rcases Nat.eq_or_lt_of_le hi with rfl | hlt
  · simp [h.ended]
  · exact List.mem_cons_of_mem _ (h.kinds i hlt)

theorem kindAt_ne_eof (hi : i < last) : s.kindAt i ≠ .eof := by
  intro heof
  have hmem := h.kinds i hi
  rw [heof] at hmem
  revert hmem
  decide

theorem scanTypePrefix_ne_mayBe (hi : i ≤ last) : s.scanTypePrefix i ≠ .mayBe := by
  have hscan (fuel depth i : Nat) (hi : i ≤ last) : s.scanFrom fuel depth i ≠ .mayBe := by
    induction fuel generalizing depth i with
    | zero => simp [scanFrom]
    | succ fuel ih =>
      have hnext (hne : s.kindAt i ≠ .eof) : i + 1 ≤ last := by
        apply Nat.lt_of_le_of_ne hi
        rintro rfl
        exact hne h.ended
      rw [scanFrom]
      split
      · exact ih _ _ (hnext (by simp [*]))
      · split
        · simp
        · exact ih _ _ (hnext (by simp [*]))
      · exact absurd ‹_› (h.kindAt_ne hi (by decide))
      · exact absurd ‹_› (h.kindAt_ne hi (by decide))
      · by_cases hmem : TokenKind.typeArgumentTokens.contains (s.kindAt i) = true
        · rw [if_pos hmem]
          apply ih _ _ (hnext _)
          intro heof
          rw [heof] at hmem
          revert hmem
          decide
        · simp [hmem]
  exact hscan _ _ _ hi

theorem not_lambdaAhead (hi : i < last) (d : Draft) :
    Test.lambdaAhead.holds s i d = false := by
  rw [Bool.eq_false_iff, Ne, Test.holds_lambdaAhead]
  rintro (⟨-, harrow⟩ | hhead)
  · exact h.kindAt_ne hi (by decide) harrow
  · have hparen : s.kindAt i ≠ .lparen := h.kindAt_ne (Nat.le_of_lt hi) (by decide)
    simp [isLambdaHead, hparen] at hhead

end TokenStream.Plain

/-! ### Operands -/

section
variable {env : Setting} {n i last : Nat} {c : Cmd} {p q : Place}

theorem Cmd.Goes.of_kind {k : TokenKind} (hk : env.stream.kindAt p.index = k)
    (h : (c.resolve { ahead := [.single k] }).Goes env n p q) : c.Goes env n p q :=
  .of_resolve (Outlook.holds_ahead_one (by simp [hk])) h

theorem Cmd.Goes.of_operandEnds (hc : c.idle { ahead := [operandEnds] } = true)
    (hend : operandEnds.contains (env.stream.kindAt p.index) = true) : c.Goes env n p p :=
  .of_idle hc (Outlook.holds_ahead_one hend)

theorem Cmd.Goes.shiftClose (h : (env.stream.tokenAt i).kind ≠ .eof) (form : NodeKind) :
    (Cmd.seq .shift (.close form)).Goes env n (env.stream.fresh i)
      ⟨i + 1, (env.stream.fresh i).draft.push ((env.stream.tokenAt i).node form)⟩ :=
  (Cmd.Goes.shift (p := env.stream.fresh i) h).seq (.close form)

theorem Rule.makes_name (hplain : env.stream.Plain last) (hi : env.stream.kindAt i = .ident)
    (hend : operandEnds.contains (env.stream.kindAt (i + 1)) = true) :
    Rule.name.Makes env n i (i + 1) ((env.stream.tokenAt i).node .name) := by
  have hne : (env.stream.tokenAt i).kind ≠ .eof := by
    rw [hplain.kind_tokenAt, hi]
    decide
  let behind : Place := ⟨i + 1, (env.stream.fresh i).draft.push (env.stream.tokenAt i).leaf⟩
  have hshift : (Cmd.expect .ident).Goes env n (env.stream.fresh i) behind :=
    .of_kind hi (Cmd.Goes.shift hne)
  have hloop : (Cmd.loop (Test.both (.here .dot) (.next .ident)) (.shift ++ .shift)).Goes env n
      behind behind :=
    .of_operandEnds (by decide) hend
  exact (hshift.seq hloop).seq (.close .name)

theorem Grammar.nameFirst_goes (hplain : env.stream.Plain last)
    (hi : env.stream.kindAt i = .ident) (hlast : i < last)
    (hend : operandEnds.contains (env.stream.kindAt (i + 1)) = true) (hn : 0 < n) :
    nameFirst.Goes env n (env.stream.fresh i)
      ⟨i + 1, (env.stream.fresh i).draft.push ((env.stream.tokenAt i).node .name)⟩ := by
  have hdot : env.stream.kindAt (i + 1) ≠ .dot := hplain.kindAt_ne hlast (by decide)
  have hbracket : env.stream.kindAt (i + 1) ≠ .lbracket := hplain.kindAt_ne hlast (by decide)
  have hname : env.stream.nameEnd i = i + 1 := by
    rw [TokenStream.nameEnd]
    cases env.stream.length - i with
    | zero => rfl
    | succ fuel => simp [TokenStream.skipSegments, hdot]
  apply Cmd.Goes.typeHead_no
  · rw [TokenStream.fresh_index, hname]
    exact hplain.scanTypePrefix_ne_mayBe hlast
  apply Cmd.Goes.ite_no
  · simp [Test.holds, hname, hbracket]
  apply Cmd.Goes.ite_no
  · simp [Test.holds, hname, hdot]
  have hcall := Rule.Makes.call (p := env.stream.fresh i) hn (Rule.makes_name hplain hi hend)
  exact hcall.seq (.of_operandEnds (by decide) hend)

theorem Grammar.primaryFirst_goes {form : NodeKind} (hplain : env.stream.Plain last)
    (hlast : i < last) (hknown : (env.stream.kindAt i, form) ∈ operandForms)
    (hend : operandEnds.contains (env.stream.kindAt (i + 1)) = true) (hn : 0 < n) :
    primaryFirst.Goes env n (env.stream.fresh i)
      ⟨i + 1, (env.stream.fresh i).draft.push ((env.stream.tokenAt i).node form)⟩ := by
  by_cases hi : env.stream.kindAt i = .ident
  · have hform : ∀ f ∈ operandForms, f.1 = .ident → f.2 = .name := by decide
    obtain rfl : form = .name := hform _ hknown hi
    exact .of_kind hi (nameFirst_goes hplain hi hlast hend hn)
  · have hresolve : ∀ f ∈ operandForms, f.1 ≠ .ident →
        primaryFirst.resolve { ahead := [.single f.1] } = .seq .shift (.close f.2) := by
      decide
    apply Cmd.Goes.of_kind (k := env.stream.kindAt i) rfl
    rw [hresolve _ hknown hi]
    apply Cmd.Goes.shiftClose
    rw [hplain.kind_tokenAt]
    exact hplain.kindAt_ne_eof hlast

theorem Rule.makes_primary {form : NodeKind} (hplain : env.stream.Plain last) (hlast : i < last)
    (hknown : (env.stream.kindAt i, form) ∈ operandForms)
    (hend : operandEnds.contains (env.stream.kindAt (i + 1)) = true) (hn : 0 < n) :
    Rule.primary.Makes env n i (i + 1) ((env.stream.tokenAt i).node form) :=
  (Grammar.primaryFirst_goes hplain hlast hknown hend hn).seq (.of_operandEnds (by decide) hend)

theorem Operand.makes_unary (u : Operand) (hplain : env.stream.Plain last)
    (hu : env.stream.Shows i u.tokens) (hlast : i + u.tokens.length ≤ last)
    (hend : operandEnds.contains (env.stream.kindAt (i + u.tokens.length)) = true)
    (hn : u.tokens.length < n) :
    Rule.unary.Makes env n i (i + u.tokens.length) u.tree := by
  induction u generalizing i n with
  | atom t form known =>
    obtain ⟨rfl, -⟩ := hu
    rw [hplain.kind_tokenAt] at known
    simp only [tokens, List.length_singleton] at hlast hend hn
    have hresolve : ∀ f ∈ operandForms,
        Rule.unary.body.resolve { ahead := [.single f.1] } = Grammar.postfixed := by
      decide
    apply Cmd.Goes.of_kind (k := env.stream.kindAt i) rfl
    rw [hresolve (env.stream.kindAt i, form) known]
    have hprimary := Rule.makes_primary hplain hlast known hend (n := n - 1) (by omega)
    exact (Rule.Makes.call (p := env.stream.fresh i) (by omega) hprimary).seq
      (.of_operandEnds (by decide) hend)
  | signed op t kind u ih =>
    obtain ⟨rfl, hu⟩ := hu
    rw [hplain.kind_tokenAt] at kind
    simp only [tokens, List.length_cons] at hlast hend hn ⊢
    rw [Nat.add_comm _ 1, ← Nat.add_assoc] at hlast hend ⊢
    have hresolve : Rule.unary.body.resolve { ahead := [.single op.token] } =
        .seq (.seq .shift (.call .unary)) (.close (.unary op)) := by
      cases op <;> decide
    apply Cmd.Goes.of_kind kind
    rw [hresolve]
    have hne : (env.stream.tokenAt i).kind ≠ .eof := by
      rw [hplain.kind_tokenAt]
      exact hplain.kindAt_ne_eof (by omega)
    have hinner := ih hu hlast hend (n := n - 1) (by omega)
    exact ((Cmd.Goes.shift (p := env.stream.fresh i) hne).seq
      (Rule.Makes.call (by omega) hinner)).seq (.close (.unary op))

end

/-! ### The climbing loop on links -/

/-- Some links bind more tightly than the one before them, up to the first that does not. -/
theorem exists_tighter (level : Nat) (ls : List Link) :
    ∃ inner outer, ls = inner ++ outer ∧ (∀ k ∈ inner, level < k.level) ∧
      ∀ k ∈ outer.head?, k.level ≤ level := by
  induction ls with
  | nil => exact ⟨[], [], rfl, by simp, by simp⟩
  | cons l ls ih =>
    by_cases hl : level < l.level
    · obtain ⟨inner, outer, rfl, hinner, houter⟩ := ih
      exact ⟨l :: inner, outer, rfl, List.forall_mem_cons.2 ⟨hl, hinner⟩, houter⟩
    · refine ⟨[], l :: ls, rfl, by simp, ?_⟩
      intro k hk
      cases Option.some.inj hk
      exact Nat.le_of_not_lt hl

/-- From an index to the end there are links that bind at a level or more tightly, and behind them
other ones of which the first does not. -/
structure TokenStream.Offers (s : TokenStream) (last i level : Nat) (taken rest : List Link) :
    Prop where
  shows_links : s.Shows i (linkTokens (taken ++ rest))
  ends : i + (linkTokens (taken ++ rest)).length = last
  level_le : ∀ k ∈ taken, level ≤ k.level
  lt_level : ∀ k ∈ rest.head?, k.level < level

namespace TokenStream.Offers
variable {s : TokenStream} {last i level : Nat} {l : Link} {inner outer taken rest : List Link}

theorem shows_link (h : s.Offers last i level (l :: taken) rest) :
    s.Shows i l.tokens ∧ s.Shows (i + l.tokens.length) (linkTokens (taken ++ rest)) :=
  shows_append.1 h.shows_links

theorem operand (h : s.Offers last i level (l :: (inner ++ outer)) rest)
    (hinner : ∀ k ∈ inner, l.level < k.level) (houter : ∀ k ∈ outer.head?, k.level ≤ l.level) :
    s.Offers last (i + l.tokens.length) (l.level + 1) inner (outer ++ rest) where
  shows_links := by simpa using h.shows_link.2
  ends := by
    have := h.ends
    simp only [linkTokens, List.cons_append, List.flatMap_cons, List.length_append,
      List.append_assoc] at this ⊢
    omega
  level_le := hinner
  lt_level := by
    intro k hk
    cases outer with
    | nil =>
      have hl := h.level_le l List.mem_cons_self
      have := h.lt_level k (by simpa using hk)
      omega
    | cons m ms => exact Nat.lt_succ_of_le (houter k (by simpa using hk))

theorem remainder (h : s.Offers last i level (l :: (inner ++ outer)) rest) :
    s.Offers last (i + l.tokens.length + (linkTokens inner).length) level outer rest where
  shows_links := by
    have := h.shows_link.2
    rw [List.append_assoc, linkTokens, List.flatMap_append] at this
    exact (shows_append.1 this).2
  ends := by
    have := h.ends
    simp only [linkTokens, List.cons_append, List.flatMap_cons, List.flatMap_append,
      List.length_append, List.append_assoc] at this ⊢
    omega
  level_le k hk := h.level_le k (List.mem_cons_of_mem _ (List.mem_append_right _ hk))
  lt_level := h.lt_level

theorem contains_operandEnds (h : s.Offers last i level taken rest) (hplain : s.Plain last) :
    operandEnds.contains (s.kindAt i) = true := by
  obtain ⟨hshows, hends, -, -⟩ := h
  rw [operandEnds, KindSet.contains_ofList, List.contains_iff_mem]
  cases hlinks : taken ++ rest with
  | nil =>
    rw [hlinks] at hends
    obtain rfl : i = last := hends
    simp [hplain.ended]
  | cons l ls =>
    rw [hlinks] at hshows
    obtain ⟨t, ts, hspelling⟩ := List.exists_cons_of_length_pos l.spelling_pos
    have hkind : t.kind ∈ l.op.spelling := l.kind_mem (hspelling ▸ List.mem_cons_self)
    have htoken : s.tokenAt i = t := by
      simp only [linkTokens, List.flatMap_cons, Link.tokens, hspelling, List.cons_append] at hshows
      exact hshows.1
    rw [← hplain.kind_tokenAt, htoken]
    exact List.mem_cons_of_mem _ (List.mem_flatMap.2 ⟨l.op, l.op.mem_all, hkind⟩)

end TokenStream.Offers

/-- The loop behind the first operand of an infix expression. -/
def Grammar.climbing (least : Fin 12) : Cmd :=
  .loop (operatorAhead (operatorsFrom least))
    ((operatorsFrom least).foldr
      (fun o rest => .ite (spelled 0 o.spelling) (operation o) rest) .skip)

section
variable {env : Setting} {last i n : Nat} {taken rest : List Link}

/-- At the level of links, or below, the loop puts them behind those that have been read, if the
latter bind no less tightly than the first of them. -/
def Climbs (env : Setting) (last : Nat) (taken : List Link) : Prop :=
  ∀ (least : Fin 12) (u : Operand) (pre rest : List Link) (p : Place) (n : Nat),
    p.draft.items = [group u pre] → env.stream.Offers last p.index least.val taken rest →
    (∀ k ∈ pre, ∀ l ∈ taken.head?, l.level ≤ k.level) → 2 * (last - p.index) + 2 ≤ n →
    (Grammar.climbing least).Goes env n p
      ⟨p.index + (linkTokens taken).length, { p.draft with items := [group u (pre ++ taken)] }⟩

theorem Rule.makes_binary {least : Fin 12} {u : Operand} (hplain : env.stream.Plain last)
    (hclimbs : Climbs env last taken) (hu : env.stream.Shows i u.tokens)
    (hoffers : env.stream.Offers last (i + u.tokens.length) least.val taken rest)
    (hn : 2 * (last - i) + 2 ≤ n) :
    (Rule.binary least).Makes env n i (i + u.tokens.length + (linkTokens taken).length)
      (group u taken) := by
  have hlast : i + u.tokens.length ≤ last := hoffers.ends ▸ Nat.le_add_right _ _
  have hunary := u.makes_unary hplain hu hlast (hoffers.contains_operandEnds hplain) (n := n - 1)
    (by omega)
  rw [Rule.Makes, Rule.body_binary]
  refine (Rule.Makes.call (p := env.stream.fresh i) (by omega) hunary).seq ?_
  exact hclimbs least u [] rest ⟨_, _⟩ n (by simp [Draft.push]) hoffers (by simp)
    (by dsimp only; omega)

theorem Grammar.climbing_stop {least : Fin 12} {p : Place} (hplain : env.stream.Plain last)
    (hoffers : env.stream.Offers last p.index least.val [] rest) :
    (climbing least).Goes env n p p := by
  cases rest with
  | nil =>
    have hidle : ∀ least : Fin 12, (climbing least).idle .atEnd = true := by decide
    obtain rfl : p.index = last := hoffers.ends
    exact .of_idle (hidle least) (Outlook.holds_ahead_one (by simp [hplain.ended]))
  | cons m ms =>
    have hm : m.level < least.val := hoffers.lt_level m rfl
    have hfirst := m.first?_eq (TokenStream.shows_append.1 hoffers.shows_links).1
      hplain.kind_tokenAt least
    rw [if_neg (Nat.not_le_of_lt hm)] at hfirst
    exact .stop (not_operatorAhead hfirst)

theorem Link.wrap_eq (l : Link) {d : Draft} (left right : Tree)
    (hd : d.items = right :: ((l.spelling.map Token.leaf).reverse ++ [left])) :
    d.wrap (.binary l.op) = { d with items := [l.join left right] } := by
  simp [Draft.wrap, Draft.forest, hd, join, List.getLast?_cons]

/-- An operator and its right operand join what has been read, if that binds no less tightly and
the right operand holds the tighter links only. -/
theorem Link.goes_operation (l : Link) {u : Operand} {pre inner : List Link} {p : Place} {j : Nat}
    (hp : p.draft.items = [group u pre]) (hspelling : env.stream.Shows p.index l.spelling)
    (hbefore : ∀ k ∈ pre, l.level ≤ k.level) (hafter : ∀ k ∈ inner, l.level < k.level)
    (hn : 0 < n)
    (hright : (Rule.binary l.op.operator.level.succ).Makes env (n - 1)
      (p.index + l.spelling.length) j (group l.operand inner)) :
    (Grammar.operation l.op.operator).Goes env n p
      ⟨j, { p.draft with items := [group u (pre ++ l :: inner)] }⟩ := by
  have hne : ∀ t ∈ l.spelling, t.kind ≠ .eof := by
    intro t ht heof
    have hmem := l.kind_mem ht
    rw [heof] at hmem
    revert hmem
    cases l.op <;> decide
  have hshifts := Cmd.Goes.shifts (n := n) hspelling hne
  have hcall := Rule.Makes.call (p := ⟨p.index + l.spelling.length,
    { p.draft with items := (l.spelling.map Token.leaf).reverse ++ p.draft.items }⟩) hn hright
  have hwrap : (Cmd.wrap (.binary l.op)).Goes env n
      ⟨j, Draft.push { p.draft with items := (l.spelling.map Token.leaf).reverse ++ p.draft.items }
        (group l.operand inner)⟩ _ := .wrap (.binary l.op)
  rw [l.wrap_eq (group u pre) (group l.operand inner) (by simp [Draft.push, hp]),
    ← group_split u pre inner hbefore hafter] at hwrap
  rw [l.length_spelling] at hshifts hcall
  exact hshifts.seq (hcall.seq hwrap)

/-- The loop climbs any links. -/
theorem climbs (hplain : env.stream.Plain last) (taken : List Link) : Climbs env last taken := by
  -- By the number of links: those of the right operand and those behind it are fewer.
  induction hlen : taken.length using Nat.strong_induction_on generalizing taken with
  | _ length ih =>
    subst hlen
    intro least u pre rest p n hp hoffers hpre hn
    cases taken with
    | nil =>
      have hdraft : p = ⟨p.index + (linkTokens []).length,
          { p.draft with items := [group u (pre ++ [])] }⟩ := by
        rw [List.append_nil, ← hp]
        rfl
      exact hdraft ▸ Grammar.climbing_stop hplain hoffers
    | cons l ls =>
      obtain ⟨inner, outer, rfl, hinner, houter⟩ := exists_tighter l.level ls
      have hl : least.val ≤ l.level := hoffers.level_le l List.mem_cons_self
      have hbefore : ∀ k ∈ pre, l.level ≤ k.level := fun k hk => hpre k hk l rfl
      obtain ⟨hlink, -⟩ := hoffers.shows_link
      obtain ⟨hspelling, hoperand⟩ := TokenStream.shows_append.1 hlink
      have hpos := l.spelling_pos
      have hfirst := l.first?_eq hlink hplain.kind_tokenAt least
      rw [if_pos hl] at hfirst
      have hlevel : l.op.operator.level.succ.val = l.level + 1 := by
        rw [Link.level]
        cases l.op <;> rfl
      have hends := hoffers.ends
      simp only [linkTokens, List.cons_append, List.flatMap_cons, List.flatMap_append,
        List.length_append, Link.tokens] at hends
      have hlength : p.index + l.tokens.length =
          p.index + l.spelling.length + l.operand.tokens.length := by
        simp [Link.tokens, Nat.add_assoc]
      have hinside := hoffers.operand hinner houter
      rw [hlength, ← hlevel] at hinside
      have hfewer : inner.length < (l :: (inner ++ outer)).length ∧
          outer.length < (l :: (inner ++ outer)).length := by
        rw [List.length_cons, List.length_append]
        omega
      have hright := Rule.makes_binary (n := n - 1 - 1) hplain
        (ih inner.length hfewer.1 inner rfl) hoperand hinside (by omega)
      obtain ⟨hmem, hstands⟩ := InfixOperator.of_first? hfirst
      apply Cmd.Goes.pass (by omega) (Grammar.operatorAhead_of_standsAt hmem hstands)
      apply (Cmd.Goes.of_first? hfirst
        (l.goes_operation hp hspelling hbefore hinner (by omega) hright)).seq
      have hbehind : ∀ k ∈ pre ++ l :: inner, ∀ m ∈ outer.head?, m.level ≤ k.level := by
        intro k hk m hm
        have hm := houter m hm
        rcases List.mem_append.1 hk with hk | hk
        · exact hm.trans (hbefore k hk)
        · rcases List.mem_cons.1 hk with rfl | hk
          · exact hm
          · exact hm.trans (Nat.le_of_lt (hinner k hk))
      have houtside := hoffers.remainder
      rw [hlength] at houtside
      have hloop := ih outer.length hfewer.2 outer rfl least u (pre ++ l :: inner) rest
        ⟨_, { p.draft with items := [group u (pre ++ l :: inner)] }⟩ (n - 1) rfl houtside hbehind
        (by dsimp only; omega)
      simpa [Grammar.climbing, linkTokens, Link.tokens, Nat.add_assoc] using hloop

end

/-! ### Whole expressions -/

section
variable {env : Setting} {n : Nat} {c : Chain}

/-- Up to the end of the source, a chain is an expression. -/
theorem Rule.makes_expression (hplain : env.stream.Plain c.tokens.length)
    (hshows : env.stream.Shows 0 c.tokens) (hn : 2 * c.tokens.length + 4 ≤ n) :
    Rule.expression.Makes env n 0 c.tokens.length c.tree := by
  obtain ⟨hfirst, hrest⟩ := TokenStream.shows_append.1 hshows
  have hlength : c.tokens.length = 0 + c.first.tokens.length + (linkTokens c.rest).length := by
    simp [Chain.tokens]
  have hoffers : env.stream.Offers c.tokens.length (0 + c.first.tokens.length)
      (1 : Fin 12).val c.rest [] := by
    refine ⟨by simpa using hrest, by simp [hlength], fun k _ => ?_, by simp⟩
    rw [Link.level]
    cases k.op <;> decide
  have hbinary := Rule.makes_binary (n := n - 1 - 1) hplain (climbs hplain c.rest) hfirst hoffers
    (by omega)
  rw [← hlength] at hbinary
  have hend {d : Draft} : Outlook.atEnd.Holds env.stream c.tokens.length ⟨c.tokens.length, d⟩ :=
    Outlook.holds_ahead_one (p := ⟨c.tokens.length, d⟩) (by simp [hplain.ended])
  have hconditional : Rule.conditional.Makes env (n - 1) 0 c.tokens.length c.tree :=
    (Rule.Makes.call (p := env.stream.fresh 0) (by omega) hbinary).seq
      (.of_idle (by decide) hend)
  have hpos : 0 < c.tokens.length := by
    obtain ⟨t, ts, htokens⟩ := c.first.tokens_eq_cons
    simp [Chain.tokens, htokens]
  apply Cmd.Goes.ite_no (hplain.not_lambdaAhead hpos _)
  exact (Rule.Makes.call (p := env.stream.fresh 0) (by omega) hconditional).seq
    (.of_idle (by decide) hend)

end

theorem Chain.plain (c : Chain) {ts : TokenList} (hshows : (TokenStream.ofList ts).Shows 0 c.tokens)
    (hend : ts.kindAt c.tokens.length = .eof) : (TokenStream.ofList ts).Plain c.tokens.length where
  kind_tokenAt := TokenStream.kind_tokenAt_ofList ts
  ended := hend
  kinds i hi := by
    have htoken := hshows.tokenAt (List.getElem?_eq_getElem hi)
    rw [← TokenStream.kind_tokenAt_ofList, ← Nat.zero_add i, htoken]
    exact c.kind_mem (List.getElem_mem hi)

/-- Where a source is a chain, the parsed expression is the tree of the chain, with any options and
without a probe. -/
theorem parse_chain (c : Chain) (ts : TokenList) (options : ParseOptions)
    (htokens : c.tokens <+: ts.tokens.toList) (hend : ts.kindAt c.tokens.length = .eof) :
    parse .expression ts options = .ok c.tree ∧ spent .expression ts options = 0 := by
  let p := Session.start ts options
  have hlength : c.tokens.length ≤ p.env.stream.length := htokens.length_le
  have hshows : p.env.stream.Shows 0 c.tokens := by
    obtain ⟨rest, hrest⟩ := htokens
    exact (TokenStream.shows_append.1 (TokenStream.shows_ofList [] hrest)).1
  have hmakes : Rule.expression.Makes p.env (p.levels - 1) 0 c.tokens.length c.tree := by
    apply Rule.makes_expression (c.plain hshows hend) hshows
    simp only [Session.levels]
    omega
  exact Rule.Makes.parsed (e := .expression) hmakes hend

/-- In `a - b << -c - 1` the shift is at the root, and the chain is cut there. -/
theorem parse_chain_shift :
    let token : TokenKind → Nat → Token := fun k i => ⟨k, ⟨i, i + 1⟩, ⟨1, i + 1⟩⟩
    let ts : TokenList :=
      { source := "a - b << -c - 1"
        tokens := #[token .ident 0, token .minus 2, token .ident 4, token .less 6, token .less 7,
          token .minus 9, token .ident 10, token .minus 12, token .intLiteral 14,
          ⟨.eof, ⟨15, 15⟩, ⟨1, 16⟩⟩] }
    let name : Nat → Tree := fun i => .node .name ⟨i, i + 1⟩ [.leaf .ident ⟨i, i + 1⟩]
    parse .expression ts = .ok
        (.node (.binary .shiftLeft) ⟨0, 15⟩
          [.node (.binary .sub) ⟨0, 5⟩ [name 0, .leaf .minus ⟨2, 3⟩, name 4],
            .leaf .less ⟨6, 7⟩, .leaf .less ⟨7, 8⟩,
            .node (.binary .sub) ⟨9, 15⟩
              [.node (.unary .minus) ⟨9, 11⟩ [.leaf .minus ⟨9, 10⟩, name 10],
                .leaf .minus ⟨12, 13⟩,
                .node (.literal .integer) ⟨14, 15⟩ [.leaf .intLiteral ⟨14, 15⟩]]]) ∧
      spent .expression ts {} = 0 := by
  intro token ts name
  let atom (i : Nat) : Operand := .atom (token .ident i) .name (by simp [token, operandForms])
  let first : Link := ⟨.sub, [token .minus 2], rfl, .singleton _, atom 4⟩
  let shift : Link := ⟨.shiftLeft, [token .less 6, token .less 7], rfl,
    by simp [token, Span.touches], .signed .minus (token .minus 9) rfl (atom 10)⟩
  let last : Link := ⟨.sub, [token .minus 12], rfl, .singleton _,
    .atom (token .intLiteral 14) (.literal .integer)
      (by simp [token, operandForms, LiteralKind.tokens])⟩
  let c : Chain := ⟨atom 0, [first, shift, last]⟩
  have hroot : c.tree = shift.join (group (atom 0) [first]) (group shift.operand [last]) :=
    group_split (atom 0) [first] [last] (by decide) (by decide)
  have hleft : group (atom 0) [first] = first.join (atom 0).tree (atom 4).tree := by
    simpa using group_split (atom 0) [] [] (l := first) (by simp) (by simp)
  have hright : group shift.operand [last] = last.join shift.operand.tree last.operand.tree := by
    simpa using group_split shift.operand [] [] (l := last) (by simp) (by simp)
  have hparse := parse_chain c ts {} (by decide) (by decide)
  rw [hroot, hleft, hright] at hparse
  exact hparse

end JavaSyntax
