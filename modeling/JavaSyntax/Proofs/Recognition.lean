import Mathlib.Data.Nat.Find
import JavaSyntax.Proofs.Phrases

/-!
# Types are recognised

Every phrase of the grammar of types is read, without a probe, up to any token that goes on with
none of its kind. So the types are exactly what is parsed as one.
-/

namespace JavaSyntax

/-- What may follow a phrase without going on with it. -/
def TypePhrase.follow : TypePhrase → KindSet
  | dims | brackets | type | reference | argument => .ofList [.comma, .greater, .eof]
  | primitive | classType | segments => .ofList [.comma, .greater, .eof, .lbracket]
  | segment | arguments => .ofList [.comma, .greater, .eof, .lbracket, .dot]
  | argumentList => .single .greater

theorem TypePhrase.subset_follow {base : TypePhrase} (hbase : base.isBase = true) :
    type.follow.subset base.follow = true ∧ base.follow.contains .lbracket = true := by
  cases base with
  | primitive => decide
  | classType => decide
  | _ => cases hbase

/-- With so many levels the commands for the phrase lead from one place to another. A list is
read by its first item and a loop over the others, a type by its element type and its dimensions. -/
def TypePhrase.Runs (env : Setting) (n : Nat) (p q : Place) : TypePhrase → Prop
  | primitive | classType =>
    p = env.stream.fresh p.index → (Grammar.bareType false).Goes env n p q
  | segment => (Grammar.segment false).Goes env n p q
  | segments =>
    ∃ m, (Grammar.segment false).Goes env n p m ∧
      (Cmd.loop (.test (.both (.here .dot) (.ahead 1 (.ofList [.ident, .atSign]))))
        (.shift ++ Grammar.annotations ++ Grammar.segment false)).Goes env n m q
  | brackets => (Cmd.loop Grammar.dimsAhead Grammar.dim).Goes env n p q
  | dims => p = env.stream.fresh p.index → Grammar.dims.Goes env n p q
  | type | reference =>
    p = env.stream.fresh p.index →
      ∃ m, (Grammar.bareType false).Goes env n p m ∧ Grammar.arraySuffix.Goes env n m q
  | argument => p = env.stream.fresh p.index → Grammar.typeArgument.Goes env n p q
  | argumentList =>
    ∃ m, (Cmd.call .typeArgument).Goes env (n + 1) p m ∧
      (Cmd.loop (.test (.here .comma)) (.shift ++ .call .typeArgument)).Goes env (n + 1) m q
  | arguments => p = env.stream.fresh p.index → Grammar.typeArguments.Goes env n p q

section
variable {env : Setting} {n : Nat} {p q : Place} {kind : TokenKind} {span : Span} {r : Rule}
  {es : List (TokenKind × Span)} {f : Forest} {i : Nat}

theorem TokenStream.Unannotated.kindAt_eq {s : TokenStream} (hs : s.Unannotated)
    (h : (s.tokenAt i).entry = (kind, span)) : s.kindAt i = kind := by
  rw [← hs.kind_eq]
  exact congrArg Prod.fst h

theorem TokenStream.start_fresh {s : TokenStream} (h : (s.tokenAt i).entry = (kind, span)) :
    (s.fresh i).draft.start = span.start :=
  congrArg (fun e => e.2.start) h

namespace Cmd.Goes

theorem shift_entry (h : (env.stream.tokenAt p.index).entry = (kind, span)) (hkind : kind ≠ .eof) :
    Goes env n .shift p (p.add [(kind, span)] [.leaf kind span]) := by
  obtain ⟨rfl, rfl⟩ := Prod.mk.inj h
  exact shift hkind

theorem expect_entry (hs : env.stream.Unannotated)
    (h : (env.stream.tokenAt p.index).entry = (kind, span)) (hkind : kind ≠ .eof) :
    Goes env n (.expect kind) p (p.add [(kind, span)] [.leaf kind span]) :=
  ite_yes (by simp [Test.here, Test.holds, hs.kindAt_eq h]) (shift_entry h hkind)

theorem close_add (hp : p = env.stream.fresh p.index)
    (h : (env.stream.tokenAt p.index).entry = (kind, span)) (node : NodeKind) :
    Goes env n (.close node) (p.add es f) (p.add es [.build node span.start f]) := by
  have hclose : Goes env n (.close node) (p.add es f) _ := close node
  rw [hp] at hclose ⊢
  rw [← TokenStream.start_fresh h]
  simpa [Place.add, Draft.close, Draft.forest] using hclose

theorem call_add (hn : 0 < n)
    (h : Goes env (n - 1) r.body (env.stream.fresh p.index) ((env.stream.fresh p.index).add es f)) :
    Goes env n (.call r) p (p.add es f) := by
  simpa [Place.add, Draft.adopt] using call (p := p) hn h

theorem annotations (hs : env.stream.Unannotated) : Goes env n Grammar.annotations p p :=
  stop (by simp [Grammar.annotationAhead, Test.here, Test.holds, hs.kind_ne])

theorem dim (hs : env.stream.Unannotated) {l r : Span}
    (hl : (env.stream.tokenAt p.index).entry = (.lbracket, l))
    (hr : (env.stream.tokenAt (p.index + 1)).entry = (.rbracket, r)) :
    Goes env n Grammar.dim p
      (p.add [(.lbracket, l), (.rbracket, r)] [.leaf .lbracket l, .leaf .rbracket r]) := by
  have hright := expect_entry (n := n) (p := p.add [(.lbracket, l)] [.leaf .lbracket l]) hs hr
    (by decide)
  exact ((annotations hs).seq (expect_entry hs hl (by decide))).seq hright

end Cmd.Goes

theorem TokenStream.Unannotated.query_dims (hs : env.stream.Unannotated)
    (hp : env.stream.kindAt p.index ≠ .lbracket) :
    Grammar.dimsAhead.query env.stream p = .known false := by
  simp [Grammar.dimsAhead, Guard.query, Test.here, Test.holds, hs.kind_ne, hp]

theorem Grammar.query_dims (hl : env.stream.kindAt p.index = .lbracket)
    (hr : env.stream.kindAt (p.index + 1) = .rbracket) :
    Grammar.dimsAhead.query env.stream p = .known true := by
  simp [Grammar.dimsAhead, Guard.query, Test.here, Test.next, Test.holds, hl, hr]

namespace TypePhrase.Derives

theorem exists_bracket (h : TypePhrase.dims.Derives es f) :
    ∃ l r rest, es = (.lbracket, l) :: (.rbracket, r) :: rest := by
  cases h
  exact ⟨_, _, _, rfl⟩

theorem exists_less (h : TypePhrase.arguments.Derives es f) :
    ∃ l rest, es = (.less, l) :: rest := by
  cases h
  exact ⟨_, _, rfl⟩

theorem exists_base {base : TypePhrase} (hbase : base.isBase = true) (h : base.Derives es f) :
    ∃ k s rest, es = (k, s) :: rest ∧ k ≠ .question := by
  cases h with
  | primitive hk =>
    refine ⟨_, _, _, rfl, ?_⟩
    rintro rfl
    cases hk
  | classType => exact ⟨_, _, _, rfl, by decide⟩
  | _ => cases hbase

theorem exists_reference (h : TypePhrase.reference.Derives es f) :
    (∃ k s rest, es = (k, s) :: rest ∧ k ≠ .question) ∧
      ∃ u, f = [u] ∧ u.nodeKind? ≠ some .primitiveType := by
  cases h with
  | plain h =>
    refine ⟨h.exists_base rfl, ?_⟩
    cases h
    exact ⟨_, rfl, nofun⟩
  | arrayReference hbase h =>
    obtain ⟨k, s, rest, rfl, hk⟩ := h.exists_base hbase
    exact ⟨⟨k, s, _, rfl, hk⟩, _, rfl, nofun⟩

end TypePhrase.Derives

end

/-- The tokens of a phrase stand here, and behind them one that may follow it. -/
structure TypePhrase.Ready (phrase : TypePhrase) (env : Setting) (n i : Nat)
    (es : List (TokenKind × Span)) : Prop where
  reads : env.stream.reading i es.length = es
  levels : 4 * es.length ≤ n
  follows : phrase.follow.contains (env.stream.kindAt (i + es.length)) = true

section
variable {env : Setting} {n i j : Nat} {p q : Place} {phrase item base : TypePhrase}
  {kind : TokenKind} {span : Span} {es ds : List (TokenKind × Span)} {f : Forest} {u v : Tree}

namespace TypePhrase.Ready

theorem entry (h : phrase.Ready env n i ((kind, span) :: es)) :
    (env.stream.tokenAt i).entry = (kind, span) :=
  (TokenStream.reading_eq_cons.1 h.reads).1

theorem pair {l r : Span} (h : phrase.Ready env n i ((.lbracket, l) :: (.rbracket, r) :: es)) :
    (env.stream.tokenAt i).entry = (.lbracket, l) ∧
      (env.stream.tokenAt (i + 1)).entry = (.rbracket, r) := by
  obtain ⟨hl, hrest⟩ := TokenStream.reading_eq_cons.1 h.reads
  exact ⟨hl, (TokenStream.reading_eq_cons.1 hrest).1⟩

theorem kindAt_ne (kind : TokenKind) (h : phrase.Ready env n i es)
    (hkind : phrase.follow.contains kind = false) :
    env.stream.kindAt (i + es.length) ≠ kind := by
  rintro rfl
  exact Bool.false_ne_true (hkind.symm.trans h.follows)

theorem mono (h : phrase.Ready env n i es)
    (hfollow : phrase.follow.subset item.follow = true) : item.Ready env n i es :=
  ⟨h.reads, h.levels, KindSet.contains_of_subset hfollow h.follows⟩

theorem more {k : Nat} (h : phrase.Ready env n i es) (hk : n ≤ k) : phrase.Ready env k i es :=
  ⟨h.reads, Nat.le_trans h.levels hk, h.follows⟩

theorem pos (h : phrase.Ready env n i es) (hes : 0 < es.length) : 0 < n := by
  have hlevels := h.levels
  omega

theorem separator (h : phrase.Ready env n i (es ++ (kind, span) :: ds)) :
    (env.stream.tokenAt (i + es.length)).entry = (kind, span) :=
  (TokenStream.reading_eq_cons.1 (TokenStream.reading_eq_append.1 h.reads).2).1

theorem left (hs : env.stream.Unannotated)
    (h : phrase.Ready env n i (es ++ (kind, span) :: ds))
    (hkind : item.follow.contains kind = true) : item.Ready env n i es := by
  have hlevels := h.levels
  rw [List.length_append] at hlevels
  refine ⟨(TokenStream.reading_eq_append.1 h.reads).1, by omega, ?_⟩
  rwa [hs.kindAt_eq h.separator]

theorem right (es : List (TokenKind × Span)) (h : phrase.Ready env n i (es ++ ds))
    (hes : 0 < es.length) (hj : j = i + es.length)
    (hfollow : phrase.follow.subset item.follow = true) : item.Ready env (n - 1) j ds := by
  have hlevels := h.levels
  have hfollows := h.follows
  rw [List.length_append, ← Nat.add_assoc, ← hj] at hfollows
  rw [List.length_append] at hlevels
  refine ⟨?_, by omega, KindSet.contains_of_subset hfollow hfollows⟩
  rw [hj]
  exact (TokenStream.reading_eq_append.1 h.reads).2

theorem tail (h : phrase.Ready env n i ((kind, span) :: ds))
    (hfollow : phrase.follow.subset item.follow = true) : item.Ready env (n - 1) (i + 1) ds :=
  h.right [_] Nat.zero_lt_one rfl hfollow

theorem behind (h : phrase.Ready env n i (es ++ (kind, span) :: ds))
    (hfollow : phrase.follow.subset item.follow = true) :
    item.Ready env (n - 1) (i + es.length + 1) ds := by
  rw [List.append_cons] at h
  exact h.right _ (by simp) (by simp [Nat.add_assoc]) hfollow

end TypePhrase.Ready

theorem Cmd.Goes.refusePrimitive (hu : u.nodeKind? ≠ some .primitiveType) :
    Goes env n Grammar.refusePrimitive (p.add es [u]) (p.add es [u]) := by
  refine ite_no ?_ skip
  cases hkind : u.nodeKind? with
  | none => simp [Test.holds, Place.add, Draft.lastIs, hkind]
  | some kind => simpa [Test.holds, Place.add, Draft.lastIs, hkind] using hu

namespace TypePhrase.Runs

theorem bareType (hbase : base.isBase = true) (h : base.Runs env n p q)
    (hp : p = env.stream.fresh p.index) : (Grammar.bareType false).Goes env n p q := by
  cases base with
  | primitive => exact h hp
  | classType => exact h hp
  | _ => cases hbase

theorem type_of_base (hs : env.stream.Unannotated) (hbase : base.isBase = true)
    (h : base.Runs env n p q) (hq : env.stream.kindAt q.index ≠ .lbracket) :
    type.Runs env n p q := by
  intro hp
  exact ⟨q, h.bareType hbase hp, .ite_trial (hs.query_dims hq) .skip⟩

/-- With its dimensions an element type is an array type. -/
theorem type_of_dims (hs : env.stream.Unannotated) (hbase : base.isBase = true)
    (hready : type.Ready env n p.index (es ++ ds)) (hderives : base.Derives es [u])
    (hdims : dims.Derives ds [v])
    (h : ∀ {n p}, base.Ready env n p.index es → base.Runs env n p (p.add es [u]))
    (h' : ∀ {n p}, dims.Ready env n p.index ds → dims.Runs env n p (p.add ds [v])) :
    type.Runs env n p (p.add (es ++ ds) [array u v]) := by
  intro hp
  have hes : 0 < es.length := by
    obtain ⟨k, s, rest, rfl, -⟩ := hderives.exists_base hbase
    exact Nat.zero_lt_succ _
  obtain ⟨l, r, rest, rfl⟩ := hdims.exists_bracket
  have hds : dims.Ready env (n - 1) (p.index + es.length) _ := hready.right es hes rfl (by decide)
  obtain ⟨hl, hr⟩ := hds.pair
  have hpos := hready.pos (by rw [List.length_append]; omega)
  have hcall := Cmd.Goes.call_add (r := .dims) (p := p.add es [u]) hpos
    (h' (p := env.stream.fresh (p.index + es.length)) hds rfl)
  have hwrap : Cmd.Goes env n (.wrap .arrayType)
      ((p.add es [u]).add ((.lbracket, l) :: (.rbracket, r) :: rest) [v]) _ := .wrap .arrayType
  have hplace : (⟨((p.add es [u]).add ((.lbracket, l) :: (.rbracket, r) :: rest) [v]).index,
      ((p.add es [u]).add ((.lbracket, l) :: (.rbracket, r) :: rest) [v]).draft.wrap .arrayType⟩ :
        Place) = p.add (es ++ (.lbracket, l) :: (.rbracket, r) :: rest) [array u v] := by
    rw [Place.add_add, hp]
    rfl
  rw [hplace] at hwrap
  have hquery := Grammar.query_dims (p := p.add es [u]) (hs.kindAt_eq hl) (hs.kindAt_eq hr)
  have hbare := h (hready.left hs (subset_follow hbase).2)
  exact ⟨_, hbare.bareType hbase hp, .ite_trial hquery (hcall.seq hwrap)⟩

theorem segments_of_dot {es' : List (TokenKind × Span)} {f' : Forest} (hs : env.stream.Unannotated)
    (hready : segments.Ready env n p.index (es ++ (.dot, span) :: es'))
    (hderives : segments.Derives es' f')
    (h : ∀ {n p}, segment.Ready env n p.index es → segment.Runs env n p (p.add es f))
    (h' : ∀ {n p}, segments.Ready env n p.index es' → segments.Runs env n p (p.add es' f')) :
    segments.Runs env n p (p.add (es ++ (.dot, span) :: es') (f ++ .leaf .dot span :: f')) := by
  have hdot := hready.separator
  have hsegments : segments.Ready env (n - 1) _ es' := hready.behind (by decide)
  obtain ⟨m, hnext, hloop⟩ := h' (p := (p.add es f).add [(.dot, span)] [.leaf .dot span]) hsegments
  rw [Place.add_add, Place.add_add] at hloop
  have hshift := Cmd.Goes.shift_entry (n := n - 1) (p := p.add es f) hdot (by decide)
  have hpass := ((hshift.seq (.annotations hs)).seq hnext).seq hloop
  have hpos := hready.pos (List.length_pos_iff.2 (by simp))
  refine ⟨_, h (hready.left hs (by decide)), .pass hpos ?_ hpass⟩
  obtain ⟨s, rest, rfl⟩ := hderives.exists_ident (.inr rfl)
  have hident := hs.kindAt_eq hsegments.entry
  simp [Test.here, Test.holds, KindSet.contains_ofList, hs.kindAt_eq hdot, hident]

theorem argument_of_bound {s : Span} (hs : env.stream.Unannotated)
    (hkind : kind = .kwExtends ∨ kind = .kwSuper)
    (hready : argument.Ready env n p.index ((.question, s) :: (kind, span) :: es))
    (hderives : reference.Derives es f)
    (h : ∀ {n p}, reference.Ready env n p.index es → reference.Runs env n p (p.add es f)) :
    argument.Runs env n p (p.add ((.question, s) :: (kind, span) :: es)
      [.build .wildcard s.start (.leaf .question s :: .leaf kind span :: f)]) := by
  intro hp
  have hbound : argument.Ready env (n - 1) (p.index + 1) ((kind, span) :: es) :=
    hready.tail (by decide)
  have hreference : reference.Ready env (n - 1 - 1) (p.index + 1 + 1) es := hbound.tail (by decide)
  obtain ⟨-, u, rfl, hu⟩ := hderives.exists_reference
  obtain ⟨m, hbare, hsuffix⟩ := h (p := env.stream.fresh (p.index + 1 + 1)) hreference rfl
  have htype := Cmd.Goes.call_add (r := .type) (p := env.stream.fresh (p.index + 1 + 1))
    (hbound.pos (Nat.zero_lt_succ _)) (((Cmd.Goes.annotations hs).seq hbare).seq hsuffix)
  have hcall := Cmd.Goes.call_add (r := .referenceType)
    (p := (p.add [(.question, s)] [.leaf .question s]).add [(kind, span)] [.leaf kind span])
    (hready.pos (Nat.zero_lt_succ _)) (htype.seq (.refusePrimitive hu))
  rw [Place.add_add, Place.add_add] at hcall
  have hshift := Cmd.Goes.shift_entry (n := n) hready.entry (by decide)
  have hkeyword := Cmd.Goes.shift_entry (n := n) (p := p.add [(.question, s)] [.leaf .question s])
    hbound.entry (by rcases hkind with rfl | rfl <;> decide)
  refine (Cmd.Goes.annotations hs).seq (.ite_yes ?_ ((hshift.seq (.ite_yes ?_
    (hkeyword.seq hcall))).seq (.close_add hp hready.entry _)))
  · simp [Test.here, Test.holds, hs.kindAt_eq hready.entry]
  · simpa [Test.hereAny, Test.holds, KindSet.contains_ofList, hs.kindAt_eq hbound.entry] using hkind

theorem argumentList_of_comma {es' : List (TokenKind × Span)} {f' : Forest}
    (hs : env.stream.Unannotated)
    (hready : argumentList.Ready env n p.index (es ++ (.comma, span) :: es'))
    (h : ∀ {n p}, argument.Ready env n p.index es → argument.Runs env n p (p.add es f))
    (h' : ∀ {n p}, argumentList.Ready env n p.index es' →
      argumentList.Runs env n p (p.add es' f')) :
    argumentList.Runs env n p
      (p.add (es ++ (.comma, span) :: es') (f ++ .leaf .comma span :: f')) := by
  have hargument : argument.Ready env n p.index es := hready.left hs (by decide)
  have hcomma := hready.separator
  have hlist : argumentList.Ready env (n - 1) _ es' := hready.behind (by decide)
  obtain ⟨m, hnext, hloop⟩ :=
    h' (p := (p.add es f).add [(.comma, span)] [.leaf .comma span]) hlist
  rw [Nat.sub_add_cancel (hready.pos (List.length_pos_iff.2 (by simp)))] at hnext hloop
  rw [Place.add_add, Place.add_add] at hloop
  have hcall := Cmd.Goes.call_add (r := .typeArgument) (p := p) (Nat.zero_lt_succ n)
    (h (p := env.stream.fresh p.index) hargument rfl)
  have hshift := Cmd.Goes.shift_entry (n := n) (p := p.add es f) hcomma (by decide)
  refine ⟨_, hcall, .pass (Nat.zero_lt_succ n) ?_ ((hshift.seq hnext).seq hloop)⟩
  simp [Test.here, Test.holds, hs.kindAt_eq hcomma]

theorem arguments_of_list {s s' : Span} (hs : env.stream.Unannotated)
    (hready : arguments.Ready env n p.index ((.less, s) :: es ++ [(.greater, s')]))
    (h : ∀ {n p}, argumentList.Ready env n p.index es → argumentList.Runs env n p (p.add es f)) :
    arguments.Runs env n p (p.add ((.less, s) :: es ++ [(.greater, s')])
      [.build .typeArguments s.start (.leaf .less s :: f ++ [.leaf .greater s'])]) := by
  intro hp
  have hless : (env.stream.tokenAt p.index).entry = (.less, s) := hready.entry
  have hrest : arguments.Ready env (n - 1) (p.index + 1) (es ++ [(.greater, s')]) :=
    hready.tail (by decide)
  have hlist : argumentList.Ready env (n - 1) (p.index + 1) es := hrest.left hs (by decide)
  obtain ⟨m, hfirst, hloop⟩ := h (p := p.add [(.less, s)] [.leaf .less s]) hlist
  rw [Nat.sub_add_cancel (hready.pos (List.length_pos_iff.2 (by simp)))] at hfirst hloop
  rw [Place.add_add] at hloop
  have hgreater := Cmd.Goes.expect_entry (n := n)
    (p := p.add ((.less, s) :: es) (.leaf .less s :: f)) hs hready.separator (by decide)
  rw [Place.add_add] at hgreater
  exact (((Cmd.Goes.expect_entry hs hless (by decide)).seq (hfirst.seq hloop)).seq hgreater).seq
    (.close_add hp hless _)

end TypePhrase.Runs

/-- Phrases are read as they are derived. -/
theorem TypePhrase.runs (hs : env.stream.Unannotated) (h : phrase.Derives es f)
    (hready : phrase.Ready env n p.index es) : phrase.Runs env n p (p.add es f) := by
  induction h generalizing n p with
  | @primitive k span hk =>
    intro hp
    have hkind := hs.kindAt_eq hready.entry
    have hne : k ≠ .eof := by
      rintro rfl
      cases hk
    refine .ite_yes ?_ ((Cmd.Goes.shift_entry hready.entry hne).seq (.close_add hp hready.entry _))
    rw [← hkind] at hk
    exact hk
  | ident =>
    refine (Cmd.Goes.expect_entry hs hready.entry (by decide)).seq (.ite_no ?_ .skip)
    simpa [Test.here, Test.holds] using hready.kindAt_ne .less (by decide)
  | @generic s es f h ih =>
    have hargs : arguments.Ready env (n - 1) (p.index + 1) es := hready.tail (by decide)
    have hcall := Cmd.Goes.call_add (r := .typeArguments)
      (p := p.add [(.ident, s)] [.leaf .ident s]) (hready.pos (Nat.zero_lt_succ _)) (ih hargs rfl)
    rw [Place.add_add] at hcall
    refine (Cmd.Goes.expect_entry hs hready.entry (by decide)).seq (.ite_yes ?_ hcall)
    obtain ⟨l, rest, rfl⟩ := h.exists_less
    simpa [Test.here, Test.holds] using hs.kindAt_eq hargs.entry
  | last h ih =>
    refine ⟨_, ih (hready.mono (by decide)), .stop ?_⟩
    have hdot := hready.kindAt_ne .dot (by decide)
    simp [Test.here, Test.holds, hdot]
  | dot _ h' ih ih' => exact Runs.segments_of_dot hs hready h' ih ih'
  | classType h ih =>
    intro hp
    obtain ⟨m, hsegment, hloop⟩ := ih (hready.mono (by decide))
    have hkind := hs.kindAt_eq hready.entry
    refine .ite_no ?_ (.ite_yes ?_ ((hsegment.seq hloop).seq (.close_add hp hready.entry _)))
    · simp only [Test.hereAny, Test.holds, Nat.add_zero, hkind]
      decide
    · simp [Test.here, Test.holds, hkind]
  | nil => exact .stop_trial (hs.query_dims (hready.kindAt_ne .lbracket (by decide)))
  | @pair l r es f h ih =>
    obtain ⟨hl, hr⟩ := hready.pair
    have hbrackets : brackets.Ready env (n - 1) _ es :=
      hready.right [_, _] (Nat.zero_lt_succ _) rfl (by decide)
    have hloop :=
      ih (p := p.add [(.lbracket, l), (.rbracket, r)] [.leaf .lbracket l, .leaf .rbracket r])
        hbrackets
    rw [Place.add_add] at hloop
    refine .pass_trial (hready.pos (Nat.zero_lt_succ _)) ?_ ((Cmd.Goes.dim hs hl hr).seq hloop)
    exact Grammar.query_dims (hs.kindAt_eq hl) (hs.kindAt_eq hr)
  | @dims l r es f h ih =>
    intro hp
    obtain ⟨hl, hr⟩ := hready.pair
    have hbrackets : brackets.Ready env (n - 1) (p.index + 2) es :=
      hready.right [_, _] (Nat.zero_lt_succ _) rfl (by decide)
    have hloop := ih (n := n) (p := p.add [(.lbracket, l), (.rbracket, r)]
      [.leaf .lbracket l, .leaf .rbracket r]) (hbrackets.more (Nat.sub_le n 1))
    rw [Place.add_add] at hloop
    exact ((Cmd.Goes.dim hs hl hr).seq hloop).seq (.close_add hp hl _)
  | base hbase h ih =>
    have hbare := ih (hready.mono (subset_follow hbase).1)
    exact hbare.type_of_base hs hbase (hready.kindAt_ne .lbracket (by decide))
  | array hbase h h' ih ih' => exact Runs.type_of_dims hs hbase hready h h' ih ih'
  | plain h ih =>
    have hplain := ih (hready.mono (by decide))
    exact hplain.type_of_base hs rfl (hready.kindAt_ne .lbracket (by decide))
  | arrayReference hbase h h' ih ih' =>
    exact Runs.type_of_dims hs hbase (hready.mono (by decide)) h h' ih ih'
  | @argument es f h ih =>
    intro hp
    obtain ⟨⟨k, s, rest, rfl, hk⟩, u, rfl, hu⟩ := h.exists_reference
    have hreference : reference.Ready env n p.index _ := hready.mono (by decide)
    obtain ⟨m, hbare, hsuffix⟩ := ih hreference hp
    refine (Cmd.Goes.annotations hs).seq
      (.ite_no ?_ ((hbare.seq hsuffix).seq (.refusePrimitive hu)))
    simp [Test.here, Test.holds, hs.kindAt_eq hready.entry, hk]
  | @wildcard s =>
    intro hp
    have hshift := Cmd.Goes.shift_entry (n := n) hready.entry (by decide)
    refine (Cmd.Goes.annotations hs).seq (.ite_yes ?_ ((hshift.seq (.ite_no ?_ .skip)).seq
      (.close_add hp hready.entry _)))
    · simp [Test.here, Test.holds, hs.kindAt_eq hready.entry]
    · have hextends := hready.kindAt_ne .kwExtends (by decide)
      have hsuper := hready.kindAt_ne .kwSuper (by decide)
      simpa [Test.hereAny, Test.holds, KindSet.contains_ofList] using ⟨hextends, hsuper⟩
  | bounded hk h ih => exact Runs.argument_of_bound hs hk hready h ih
  | one h ih =>
    have hargument : argument.Ready env n p.index _ := hready.mono (by decide)
    have hcall := Cmd.Goes.call_add (r := .typeArgument) (p := p) (Nat.zero_lt_succ n)
      (ih (p := env.stream.fresh p.index) hargument rfl)
    have hcomma := hready.kindAt_ne .comma (by decide)
    exact ⟨_, hcall, .stop (by simp [Test.here, Test.holds, hcomma])⟩
  | comma _ _ ih ih' => exact Runs.argumentList_of_comma hs hready ih ih'
  | arguments _ ih => exact Runs.arguments_of_list hs hready ih

end

/-! ### Whole sources -/

/-- The tokens before the first end of the source are read before it. -/
theorem TokenList.exists_beforeEnd (ts : TokenList) :
    ∃ j, ts.kindAt j = .eof ∧ (TokenStream.ofList ts).reading 0 j = ts.beforeEnd := by
  have hexists : ∃ j, ts.kindAt j = .eof :=
    ⟨ts.length, TokenStream.kindAt_of_length_le (s := .ofList ts) (Nat.le_refl _)⟩
  classical
  have hfront (k : Nat) (hk : k < Nat.find hexists) :
      ((TokenStream.ofList ts).tokenAt k).kind ≠ .eof := by
    rw [TokenStream.kind_tokenAt_ofList]
    exact Nat.find_min hexists hk
  refine ⟨_, Nat.find_spec hexists, ?_⟩
  rw [TokenList.beforeEnd_eq hfront (Nat.find_spec hexists)]
  simpa using (TokenStream.reading_ofList (i := 0) fun k _ hk => hfront k (by simpa using hk)).1

theorem TokenStream.unannotated_ofList {ts : TokenList}
    (h : ∀ t ∈ ts.tokens, t.kind ≠ .atSign) : (ofList ts).Unannotated where
  kind_eq := kind_tokenAt_ofList ts
  kind_ne i := by
    change ts.kindAt i ≠ .atSign
    unfold TokenList.kindAt
    cases htoken : ts.tokens[i]? with
    | none => decide
    | some t => exact h t (Array.mem_of_getElem? htoken)

/-- Without annotations, the tokens before the end of the source are parsed as a type just if the
grammar of types derives them, and then to the tree of the derivation. -/
theorem parse_type_iff {ts : TokenList} {options : ParseOptions} {u : Tree}
    (h : ∀ t ∈ ts.tokens, t.kind ≠ .atSign) :
    parse .type ts options = .ok u ↔ TypePhrase.type.Derives ts.beforeEnd [u] := by
  have hs := TokenStream.unannotated_ofList h
  obtain ⟨j, hend, hreading⟩ := ts.exists_beforeEnd
  have hj : ts.beforeEnd.length = j := by simp [← hreading, TokenStream.reading]
  constructor
  · intro hparse
    obtain ⟨q, hends, hitems, hq⟩ := ends_of_parse hparse
    obtain ⟨es, f, hderives, hreads, rfl⟩ := hends.phrased hs q rfl rfl .type rfl
    obtain ⟨v, rfl⟩ := hderives.exists_eq
    cases hitems
    rw [TokenStream.fresh_index] at hreads
    have hfront (k : Nat) (hk : k < 0 + es.length) :
        ((TokenStream.ofList ts).tokenAt k).kind ≠ .eof :=
      hends.covers.kind_ne k (Nat.zero_le k) hk
    rw [TokenList.beforeEnd_eq hfront hq,
      ← (TokenStream.reading_ofList fun k _ hk => hfront k hk).1, hreads]
    exact hderives
  · intro hderives
    let p := Session.start ts options
    have hlength : ts.beforeEnd.length ≤ ts.tokens.size := by
      rw [TokenList.beforeEnd, List.length_map]
      exact (List.takeWhile_prefix _).length_le
    have hready : TypePhrase.type.Ready p.env (p.levels - 1) 0 ts.beforeEnd := by
      refine ⟨by rwa [hj], ?_, ?_⟩
      · change 4 * ts.beforeEnd.length ≤ 128 * (ts.tokens.size + 2) - 1
        omega
      · rw [Nat.zero_add, hj]
        change TypePhrase.type.follow.contains (ts.kindAt j) = true
        rw [hend]
        decide
    obtain ⟨m, hbare, hsuffix⟩ := TypePhrase.runs (p := p.env.stream.fresh 0) hs hderives hready rfl
    have hmakes : Rule.type.Makes p.env (p.levels - 1) 0 (0 + ts.beforeEnd.length) u :=
      ((Cmd.Goes.annotations hs).seq hbare).seq hsuffix
    exact (Rule.Makes.parsed (e := .type) hmakes (by rwa [Nat.zero_add, hj])).1

/-- In `A<? super int[]>[]` the bound is an array of a primitive type, and so the whole type is an
array of a class type. -/
theorem parse_type_boundedArray :
    let token : TokenKind → Nat → Nat → Token := fun k i j => ⟨k, ⟨i, j⟩, ⟨1, i + 1⟩⟩
    let ts : TokenList :=
      { source := "A<? super int[]>[]"
        tokens := #[token .ident 0 1, token .less 1 2, token .question 2 3, token .kwSuper 4 9,
          token .kwInt 10 13, token .lbracket 13 14, token .rbracket 14 15, token .greater 15 16,
          token .lbracket 16 17, token .rbracket 17 18, token .eof 18 18] }
    (∀ t ∈ ts.tokens, t.kind ≠ .atSign) ∧
      parse .type ts = .ok
        (.node .arrayType ⟨0, 18⟩
          [.node .classType ⟨0, 16⟩
            [.leaf .ident ⟨0, 1⟩,
              .node .typeArguments ⟨1, 16⟩
                [.leaf .less ⟨1, 2⟩,
                  .node .wildcard ⟨2, 15⟩
                    [.leaf .question ⟨2, 3⟩, .leaf .kwSuper ⟨4, 9⟩,
                      .node .arrayType ⟨10, 15⟩
                        [.node .primitiveType ⟨10, 13⟩ [.leaf .kwInt ⟨10, 13⟩],
                          .node .dims ⟨13, 15⟩
                            [.leaf .lbracket ⟨13, 14⟩, .leaf .rbracket ⟨14, 15⟩]]],
                  .leaf .greater ⟨15, 16⟩]],
            .node .dims ⟨16, 18⟩ [.leaf .lbracket ⟨16, 17⟩, .leaf .rbracket ⟨17, 18⟩]]) := by
  intro token ts
  have hplain : ∀ t ∈ ts.tokens, t.kind ≠ .atSign := by decide
  have hbound : TypePhrase.reference.Derives
      [(.kwInt, ⟨10, 13⟩), (.lbracket, ⟨13, 14⟩), (.rbracket, ⟨14, 15⟩)] _ :=
    .arrayReference rfl (.primitive (by decide)) (.dims .nil)
  have helement : TypePhrase.classType.Derives
      [(.ident, ⟨0, 1⟩), (.less, ⟨1, 2⟩), (.question, ⟨2, 3⟩), (.kwSuper, ⟨4, 9⟩),
        (.kwInt, ⟨10, 13⟩), (.lbracket, ⟨13, 14⟩), (.rbracket, ⟨14, 15⟩), (.greater, ⟨15, 16⟩)] _ :=
    .classType (.last (.generic (.arguments (.one (.bounded (.inr rfl) hbound)))))
  exact ⟨hplain, (parse_type_iff hplain).2 (.array rfl helement (.dims .nil))⟩

end JavaSyntax
