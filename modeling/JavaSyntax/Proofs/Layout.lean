import JavaSyntax.Proofs.Budget

/-!
# The layout of a source

Two lists of the same kinds, in which angle brackets of one kind touch alike, parse alike: runs
over them go in lockstep, and what they come to differs only in places. Spans go into the trees
and the errors, and come back into a decision only through the spelling of a shift.
-/

namespace JavaSyntax

/-! ### Trees without their places -/

namespace Tree

mutual

/-- The tree with all its spans forgotten. -/
def bare : Tree → Tree
  | leaf k _ => leaf k (Span.point 0)
  | node k _ cs => node k (Span.point 0) (forestBare cs)

def forestBare : Forest → Forest
  | [] => []
  | t :: ts => t.bare :: forestBare ts

end

theorem forestBare_eq_map (ts : Forest) : forestBare ts = ts.map bare := by
  induction ts with
  | nil => rfl
  | cons t ts ih => simp [forestBare, ih]

@[simp] theorem nodeKind?_bare (t : Tree) : t.bare.nodeKind? = t.nodeKind? := by
  cases t <;> simp [bare, nodeKind?]

@[simp] theorem tokenKind?_bare (t : Tree) : t.bare.tokenKind? = t.tokenKind? := by
  cases t <;> simp [bare, tokenKind?]

@[simp] theorem children_bare (t : Tree) : t.bare.children = t.children.map bare := by
  cases t <;> simp [bare, children, forestBare_eq_map]

@[simp] theorem hasToken_bare (t : Tree) (k : TokenKind) : t.bare.hasToken k = t.hasToken k := by
  simp [hasToken, Function.comp_def]

theorem bare_build (kind : NodeKind) (start : Nat) (children : Forest) :
    (build kind start children).bare = node kind (Span.point 0) (children.map bare) := by
  simp [build, bare, forestBare_eq_map]

end Tree

/-- An event of a walk without its place. -/
inductive Trace where
  | enter (kind : Option NodeKind)
  | token (kind : TokenKind)
  | leave (kind : Option NodeKind)
  deriving DecidableEq, Repr

def Event.trace : Event → Trace
  | enter n => .enter n.nodeKind?
  | token k _ => .token k
  | leave n => .leave n.nodeKind?

namespace Tree

/-- The kinds along the preorder of the tree. -/
def traces (t : Tree) : List Trace := t.preorder.map Event.trace

theorem map_trace_bare (t : Tree) : t.bare.events.map Event.trace = t.events.map Event.trace :=
  t.rec
    (motive_2 := fun ts =>
      (forestEvents (forestBare ts)).map Event.trace = (forestEvents ts).map Event.trace)
    (fun _ _ => by simp [bare, events, Event.trace])
    (fun _ _ _ ih => by simp [bare, events, Event.trace, nodeKind?, ih])
    (by simp [forestBare])
    (fun _ _ iht ihts => by simp [forestBare, forestEvents, iht, ihts])

theorem traces_eq_of_bare {t u : Tree} (h : u.bare = t.bare) : u.traces = t.traces := by
  simp only [traces, preorder_eq]
  rw [← map_trace_bare u, ← map_trace_bare t, h]

end Tree

/-- The drafts hold the same children, places apart. -/
def Draft.Alike (d d' : Draft) : Prop := d'.items.map Tree.bare = d.items.map Tree.bare

namespace Draft.Alike
variable {d d' e e' : Draft}

theorem forest (h : d.Alike d') : d'.forest.map Tree.bare = d.forest.map Tree.bare := by
  simp only [Draft.forest, List.map_reverse]
  rw [h]

theorem push (h : d.Alike d') {t t' : Tree} (ht : t'.bare = t.bare) :
    (d.push t).Alike (d'.push t') := by
  simp [Draft.Alike, Draft.push, ht, show d'.items.map Tree.bare = _ from h]

theorem adopt (h : d.Alike d') (he : e.Alike e') : (d.adopt e).Alike (d'.adopt e') := by
  simp [Draft.Alike, Draft.adopt, show d'.items.map Tree.bare = _ from h,
    show e'.items.map Tree.bare = _ from he]

theorem close (h : d.Alike d') (kind : NodeKind) : (d.close kind).Alike (d'.close kind) := by
  simp [Draft.Alike, Draft.close, Tree.bare_build, h.forest]

theorem wrap (h : d.Alike d') (kind : NodeKind) : (d.wrap kind).Alike (d'.wrap kind) := by
  simp [Draft.Alike, Draft.wrap, Tree.bare_build, h.forest]

theorem head? (h : d.Alike d') : d'.items.head?.map Tree.bare = d.items.head?.map Tree.bare := by
  simpa only [← List.head?_map] using congrArg List.head? h

theorem lastIs (h : d.Alike d') (kinds : List NodeKind) : d'.lastIs kinds = d.lastIs kinds := by
  have hkind : d'.items.head?.bind Tree.nodeKind? = d.items.head?.bind Tree.nodeKind? := by
    have := congrArg (Option.bind · Tree.nodeKind?) h.head?
    simpa [Option.bind_map, Function.comp_def] using this
  rw [Draft.lastIs, Draft.lastIs, hkind]

theorem lastHas (h : d.Alike d') (k : TokenKind) : d'.lastHas k = d.lastHas k := by
  have hhas (d : Draft) :
      d.lastHas k = ((d.items.head?.map Tree.bare).map fun t => t.hasToken k).getD false := by
    rw [Draft.lastHas]
    cases d.items.head? <;> simp
  rw [hhas d', hhas d, h.head?]

end Draft.Alike

/-! ### Streams that are alike -/

/-- An angle bracket, which shifts are spelled with. -/
def TokenKind.isAngle (k : TokenKind) : Bool := k == .less || k == .greater

/-- The streams have the same kinds, and angle brackets of one kind touch alike. -/
structure TokenStream.Alike (s s' : TokenStream) : Prop where
  length : s'.length = s.length
  kindAt : ∀ i, s'.kindAt i = s.kindAt i
  kind_tokenAt : ∀ i, (s'.tokenAt i).kind = (s.tokenAt i).kind
  closers : s'.closers = s.closers
  touching : ∀ i, (s.kindAt i).isAngle = true → s.kindAt (i + 1) = s.kindAt i →
    s'.touching i = s.touching i

structure TokenList.Alike (ts us : TokenList) : Prop where
  kinds : us.kinds = ts.kinds
  touching : ∀ i, (ts.kindAt i).isAngle = true → ts.kindAt (i + 1) = ts.kindAt i →
    (TokenStream.ofList us).touching i = (TokenStream.ofList ts).touching i

theorem TokenList.kindAt_eq (ts : TokenList) (i : Nat) : ts.kindAt i = ts.kinds[i]?.getD .eof := by
  rw [kindAt, kinds, List.getElem?_map, Array.getElem?_toList]
  cases ts.tokens[i]? <;> rfl

theorem TokenList.Alike.stream {ts us : TokenList} (h : ts.Alike us) :
    (TokenStream.ofList ts).Alike (TokenStream.ofList us) where
  length := by
    simpa [TokenList.kinds, TokenStream.length, TokenList.length] using congrArg List.length h.kinds
  kindAt i := by
    change us.kindAt i = ts.kindAt i
    rw [TokenList.kindAt_eq, TokenList.kindAt_eq, h.kinds]
  kind_tokenAt i := by
    rw [TokenStream.kind_tokenAt_ofList, TokenStream.kind_tokenAt_ofList]
    change us.kindAt i = ts.kindAt i
    rw [TokenList.kindAt_eq, TokenList.kindAt_eq, h.kinds]
  closers := congrArg Delimiters.table h.kinds
  touching := h.touching

namespace TokenStream.Alike
variable {s s' : TokenStream} (h : s.Alike s')
include h

theorem nameEnd (i : Nat) : s'.nameEnd i = s.nameEnd i := by
  have hskip (fuel i : Nat) : s'.skipSegments fuel i = s.skipSegments fuel i := by
    induction fuel generalizing i with
    | zero => rfl
    | succ fuel ih => simp only [skipSegments, h.kindAt, ih]
  rw [TokenStream.nameEnd, TokenStream.nameEnd, h.length, hskip]

theorem scanTypePrefix (i : Nat) : s'.scanTypePrefix i = s.scanTypePrefix i := by
  have hscan (fuel depth i : Nat) : s'.scanFrom fuel depth i = s.scanFrom fuel depth i := by
    induction fuel generalizing depth i with
    | zero => rfl
    | succ fuel ih => simp only [scanFrom, h.kindAt, ih]
  rw [TokenStream.scanTypePrefix, TokenStream.scanTypePrefix, h.length, hscan]

theorem isLambdaHead (i : Nat) : s'.isLambdaHead i = s.isLambdaHead i := by
  simp only [TokenStream.isLambdaHead, matchingClose?, h.kindAt, h.closers]

theorem mayBeTypePrefix (m : PredictionMemo) (i : Nat) :
    m.mayBeTypePrefix s' i = m.mayBeTypePrefix s i := by
  simp only [PredictionMemo.mayBeTypePrefix, h.scanTypePrefix]

theorem fits (i : Nat) (pattern : List KindSet) : Row.fits s' i pattern = Row.fits s i pattern := by
  induction pattern generalizing i with
  | nil => rfl
  | cons kinds rest ih => simp only [Row.fits, h.kindAt, ih]

theorem matchesAt (r : Row) (i : Nat) : r.matchesAt s' i = r.matchesAt s i := h.fits i r.pattern

theorem choose? (i : Nat) (rows : List Row) : Table.choose? s' i rows = Table.choose? s i rows := by
  induction rows with
  | nil => rfl
  | cons r rs ih => simp only [Table.choose?, h.matchesAt, ih]

theorem rival? (i : Nat) (chosen : Row) (rest : List Row) :
    Table.rival? s' i chosen rest = Table.rival? s i chosen rest := by
  simp only [Table.rival?, h.matchesAt]

end TokenStream.Alike

/-! ### Tests that look at spans only between angle brackets -/

namespace Test

/-- The test holds only where the token at an offset is of the kind. -/
def needs (offset : Nat) (k : TokenKind) : Test → Bool
  | ahead skip kinds => skip == offset && kinds == .single k
  | both t u => t.needs offset k || u.needs offset k
  | _ => false

/-- Spans are compared only between two angle brackets of one kind. -/
def discreet : Test → Bool
  | both t (both (touching skip) u) =>
    t.discreet && u.discreet &&
      [TokenKind.less, .greater].any fun k => t.needs skip k && u.needs (skip + 1) k
  | touching _ => false
  | neg t => t.discreet
  | both t u | either t u => t.discreet && u.discreet
  | _ => true

theorem kindAt_of_needs {t : Test} {s : TokenStream} {i offset : Nat} {d : Draft} {k : TokenKind}
    (hn : t.needs offset k = true) (h : t.holds s i d = true) : s.kindAt (i + offset) = k := by
  induction t with
  | ahead skip kinds =>
    simp only [needs, Bool.and_eq_true, beq_iff_eq] at hn
    obtain ⟨rfl, rfl⟩ := hn
    simpa [holds] using h
  | both t u iht ihu =>
    simp only [holds, Bool.and_eq_true] at h
    rcases Bool.or_eq_true_iff.1 hn with hn | hn
    · exact iht hn h.1
    · exact ihu hn h.2
  | _ => cases hn

variable {s s' : TokenStream} {d d' : Draft}

theorem holds_alike (hs : s.Alike s') (hd : d.Alike d') (i : Nat) (t : Test)
    (ht : t.discreet = true) : t.holds s' i d' = t.holds s i d := by
  fun_induction discreet t with
  | case1 t skip u iht ihu =>
    simp only [Bool.and_eq_true, List.any_eq_true] at ht
    obtain ⟨⟨ht, hu⟩, k, hk, hnt, hnu⟩ := ht
    simp only [holds, iht ht, ihu hu]
    by_cases hholds : t.holds s i d = true ∧ u.holds s i d = true
    · have hleft : s.kindAt (i + skip) = k := kindAt_of_needs hnt hholds.1
      have hright : s.kindAt (i + (skip + 1)) = k := kindAt_of_needs hnu hholds.2
      rw [← Nat.add_assoc] at hright
      have hangle : k.isAngle = true := by
        revert hk
        cases k <;> decide
      rw [hs.touching _ (by rw [hleft, hangle]) (by rw [hright, hleft])]
    · cases hx : t.holds s i d <;> cases hy : u.holds s i d <;> simp_all
  | case2 => cases ht
  | case3 t ih => simp only [holds, ih ht]
  | case4 t u _ iht ihu =>
    rw [Bool.and_eq_true] at ht
    simp only [holds, iht ht.1, ihu ht.2]
  | case5 t u iht ihu =>
    rw [Bool.and_eq_true] at ht
    simp only [holds, iht ht.1, ihu ht.2]
  | case6 t =>
    cases t <;> simp_all [holds, hs.kindAt, hs.nameEnd, hs.isLambdaHead, hd.lastIs, hd.lastHas]

end Test

def Guard.discreet : Guard → Bool
  | test t => t.discreet
  | trial sure possible _ => sure.discreet && possible.discreet
  | typeHead _ => true

/-- All tests of the command are discreet. -/
def Cmd.discreet : Cmd → Bool
  | seq a b => a.discreet && b.discreet
  | ite g a b => g.discreet && a.discreet && b.discreet
  | loop g body => g.discreet && body.discreet
  | nest body => body.discreet
  | _ => true

theorem Rule.discreet_body (r : Rule) : r.body.discreet = true := by
  revert r
  decide

theorem Probe.discreet_fragment (p : Probe) : p.fragment.discreet = true := by
  cases p <;> decide +kernel

/-! ### Runs in lockstep -/

/-- The states differ only in the places of their trees. -/
inductive State.Alike (s : State) : State → Prop
  | redraft {d : Draft} (h : s.draft.Alike d) : Alike s { s with draft := d }

structure ParseError.Alike (e f : ParseError) : Prop where
  fault : f.fault = e.fault
  tokenIndex : f.tokenIndex = e.tokenIndex
  remark : f.remark = e.remark

/-- Two results with related values, or with errors that differ only in their places. -/
inductive ResultAlike {α : Type} (related : α → α → Prop) :
    Except ParseError α → Except ParseError α → Prop
  | ok {a b} (h : related a b) : ResultAlike related (.ok a) (.ok b)
  | error {e f} (h : ParseError.Alike e f) : ResultAlike related (.error e) (.error f)

inductive Outcome.Alike : Outcome → Outcome → Prop
  | done {s t} (h : s.Alike t) : Alike (.done s) (.done t)
  | failed {e f s t} (he : ParseError.Alike e f) (h : s.Alike t) :
    Alike (.failed e s) (.failed f t)

inductive Verdict.Alike : Verdict → Verdict → Prop
  | known {answer s t} (h : State.Alike s t) : Alike (.known answer s) (.known answer t)
  | ask {p s t} (h : State.Alike s t) : Alike (.ask p s) (.ask p t)

inductive Ruling.Alike : Ruling → Ruling → Prop
  | answer {b s t} (h : State.Alike s t) : Alike (.answer b s) (.answer b t)
  | abort {e f s t} (he : ParseError.Alike e f) (h : s.Alike t) : Alike (.abort e s) (.abort f t)

theorem Outcome.Alike.andThen {o o' : Outcome} {next next' : State → Outcome} (h : o.Alike o')
    (hnext : ∀ s t, s.Alike t → (next s).Alike (next' t)) :
    (o.andThen next).Alike (o'.andThen next') := by
  cases h with
  | done h => exact hnext _ _ h
  | failed he h => exact .failed he h

theorem Ruling.Alike.andThen {r r' : Ruling} {next next' : Bool → State → Outcome}
    (h : r.Alike r') (hnext : ∀ b s t, s.Alike t → (next b s).Alike (next' b t)) :
    (r.andThen next).Alike (r'.andThen next') := by
  cases h with
  | answer h => exact hnext _ _ _ h
  | abort he h => exact .failed he h

def Setting.over (env : Setting) (stream : TokenStream) : Setting := { env with stream }

section
variable {env : Setting} {stream : TokenStream} {s t : State} {o o' : Outcome}
  {deeper deeper' : Cmd → State → Outcome}

namespace State.Alike

theorem index (h : s.Alike t) : t.index = s.index := by
  cases h
  rfl

theorem draft (h : s.Alike t) : s.draft.Alike t.draft := by
  cases h
  assumption

theorem errorHere (h : s.Alike t) (fault : ParseFault) :
    (s.errorHere env fault).Alike (t.errorHere (env.over stream) fault) :=
  ⟨rfl, h.index, rfl⟩

theorem fresh (h : s.Alike t) : (s.fresh env).Alike (t.fresh (env.over stream)) := by
  cases h
  exact .redraft rfl

theorem enterProbe (h : s.Alike t) :
    (s.enterProbe env).Alike (t.enterProbe (env.over stream)) := by
  cases h
  exact .redraft rfl

theorem consult (h : s.Alike t) (p : Probe) :
    (s.consult env p).Alike (t.consult (env.over stream) p) := by
  cases h with
  | redraft hd =>
    unfold State.consult
    change Verdict.Alike _ (if env.options.memoize then _ else _)
    split
    · dsimp only
      split
      · exact .known (.redraft hd)
      · exact .ask (.redraft hd)
    · exact .ask (.redraft hd)

theorem remember (h : s.Alike t) (p : Probe) (r : ProbeResult) :
    (s.remember env p r).Alike (t.remember (env.over stream) p r) := by
  cases h with
  | redraft hd =>
    unfold State.remember
    change State.Alike _ (if env.options.memoize then _ else _)
    split
    · exact .redraft hd
    · exact .redraft hd

section
variable (hs : env.stream.Alike stream)
include hs

theorem kind_token (h : s.Alike t) : (t.token (env.over stream)).kind = (s.token env).kind := by
  rw [State.token, State.token, h.index]
  exact hs.kind_tokenAt s.index

theorem unexpected (h : s.Alike t) (expected : KindSet) (remark : Option Remark) :
    (s.unexpected env expected remark).Alike (t.unexpected (env.over stream) expected remark) where
  fault := by
    simp only [State.unexpected, ParseError.unexpected, h.kind_token hs]
  tokenIndex := h.index
  remark := rfl

theorem read (h : s.Alike t) : (s.read env).Alike (t.read (env.over stream)) := by
  unfold State.read
  dsimp only
  rw [h.kind_token hs]
  split
  · exact .failed (h.unexpected hs ∅ none) h
  · cases h with
    | redraft hd => exact .done (.redraft (hd.push (by simp [Tree.bare])))

theorem shift (h : s.Alike t) : (s.shift env).Alike (t.shift (env.over stream)) := by
  cases h with
  | redraft hd =>
    have hcount : State.Alike { s with speculated := s.speculated + 1 } _ := .redraft hd
    unfold State.shift
    dsimp only
    split
    · exact read hs (.redraft hd)
    · change Outcome.Alike _ (if env.budget < s.speculated + 1 then _ else _)
      split
      · exact .failed (hcount.errorHere _) hcount
      · exact hcount.read hs

end
end State.Alike

theorem ParseError.Alike.isFatal {e f : ParseError} (h : e.Alike f) : f.isFatal = e.isFatal := by
  rw [ParseError.isFatal, ParseError.isFatal, h.fault]

section
variable (hs : env.stream.Alike stream)
include hs

theorem State.alike_conclude (p : Probe) (start : Nat) {d d' : Draft} (hd : d.Alike d')
    (ho : o.Alike o') :
    (conclude env p start d o).Alike (conclude (env.over stream) p start d' o') := by
  have hlast : (env.over stream).stream.lastIndex = env.stream.lastIndex :=
    congrArg (· - 1) hs.length
  unfold conclude
  dsimp only
  rw [hlast]
  cases ho with
  | done h =>
    cases h with
    | redraft _ =>
      split
      · exact .abort ⟨rfl, rfl, rfl⟩ (.redraft hd)
      · exact .answer (State.Alike.remember (.redraft hd) p _)
  | failed he h =>
    cases h with
    | redraft _ =>
      split
      · exact .abort ⟨rfl, rfl, rfl⟩ (.redraft hd)
      · dsimp only [Outcome.state]
        rw [he.isFatal]
        split
        · exact .abort he (.redraft hd)
        · exact .answer (State.Alike.remember (.redraft hd) p _)

theorem Guard.alike_settle (g : Guard) (hg : g.discreet = true) (h : s.Alike t) :
    (g.settle env s).Alike (g.settle (env.over stream) t) := by
  have htest (u : Test) (hu : u.discreet = true) :
      u.holds (env.over stream).stream t.index t.draft = u.holds env.stream s.index s.draft := by
    rw [h.index]
    exact Test.holds_alike hs h.draft s.index u hu
  cases g with
  | test u =>
    rw [settle, settle, htest u hg]
    exact .known h
  | trial sure possible p =>
    rw [discreet, Bool.and_eq_true] at hg
    rw [settle, settle, htest sure hg.1, htest possible hg.2]
    split
    · exact .known h
    · split
      · exact h.consult p
      · exact .known h
  | typeHead p =>
    cases h with
    | redraft hd =>
      have hname : (env.over stream).stream.nameEnd s.index = env.stream.nameEnd s.index :=
        hs.nameEnd s.index
      have hkind (i : Nat) : (env.over stream).stream.kindAt i = env.stream.kindAt i := hs.kindAt i
      have hmay (i : Nat) :
          s.memo.mayBeTypePrefix (env.over stream).stream i = s.memo.mayBeTypePrefix env.stream i :=
        hs.mayBeTypePrefix s.memo i
      simp only [settle, hname, hkind, hmay]
      split
      · split
        · apply State.Alike.consult
          exact .redraft hd
        · exact .known (.redraft hd)
      · exact .known (.redraft hd)

theorem Guard.alike_decide
    (ih : ∀ c : Cmd, c.discreet = true → ∀ s t, s.Alike t → (deeper c s).Alike (deeper' c t))
    (g : Guard) (hg : g.discreet = true) (h : s.Alike t) :
    (g.decide env deeper s).Alike (g.decide (env.over stream) deeper' t) := by
  have hsettle := g.alike_settle hs hg h
  unfold Guard.decide
  generalize g.settle env s = v at hsettle
  generalize g.settle (env.over stream) t = w at hsettle
  cases hsettle with
  | known h => exact .answer h
  | @ask p _ _ hask =>
    dsimp only
    rw [h.index]
    exact State.alike_conclude hs p s.index h.draft
      (ih p.fragment p.discreet_fragment _ _ hask.enterProbe)

theorem Table.decide_alike (table : Table) (strict : Bool) (i : Nat) :
    ResultAlike Eq (table.decide env.stream strict i) (table.decide stream strict i) := by
  unfold Table.decide
  simp only [hs.choose?, hs.rival?]
  split
  · split
    · exact .ok rfl
    · refine .error ⟨?_, rfl, rfl⟩
      simp only [ParseError.unexpected, hs.kind_tokenAt]
  · split
    · exact .error ⟨rfl, rfl, rfl⟩
    · exact .ok rfl

namespace Cmd

theorem alike_exec
    (ih : ∀ c : Cmd, c.discreet = true → ∀ s t, s.Alike t → (deeper c s).Alike (deeper' c t))
    (c : Cmd) (hc : c.discreet = true) (h : s.Alike t) :
    (c.exec env deeper s).Alike (c.exec (env.over stream) deeper' t) := by
  induction c generalizing s t with
  | skip => exact .done h
  | shift => exact h.shift hs
  | fail expected remark => exact .failed (h.unexpected hs expected remark) h
  | seq a b iha ihb =>
    rw [discreet, Bool.and_eq_true] at hc
    rw [exec_seq, exec_seq]
    exact (iha hc.1 h).andThen fun _ _ h => ihb hc.2 h
  | ite g a b iha ihb =>
    simp only [discreet, Bool.and_eq_true] at hc
    rw [exec_ite, exec_ite]
    refine (Guard.alike_decide hs ih g hc.1.1 h).andThen fun answer _ _ h => ?_
    cases answer with
    | true => exact iha hc.1.2 h
    | false => exact ihb hc.2 h
  | loop g body _ =>
    have hnext : (seq body (loop g body)).discreet = true := by
      rw [discreet, Bool.and_eq_true] at hc
      simp [discreet, hc]
    rw [discreet, Bool.and_eq_true] at hc
    rw [exec_loop, exec_loop]
    refine (Guard.alike_decide hs ih g hc.1 h).andThen fun answer _ _ h => ?_
    cases answer with
    | true => exact ih _ hnext _ _ h
    | false => exact .done h
  | nest body ihb =>
    rw [exec_nest, exec_nest]
    refine (ihb hc h.fresh).andThen fun _ _ hinner => ?_
    cases h with
    | redraft hd =>
      cases hinner with
      | redraft hinner => exact .done (.redraft (hd.adopt hinner))
  | jump r => exact ih r.body r.discreet_body s t h
  | dispatch table =>
    have hdecide := Table.decide_alike hs table env.options.detectAmbiguity s.index
    generalize hx : table.decide env.stream env.options.detectAmbiguity s.index = x at hdecide
    generalize hy : table.decide stream env.options.detectAmbiguity s.index = y at hdecide
    rw [← h.index] at hy
    cases hdecide with
    | @ok r _ hr =>
      subst hr
      rw [exec_dispatch_ok env _ s hx, exec_dispatch_ok (env.over stream) _ t hy]
      exact ih r.body r.discreet_body s t h
    | error he =>
      rw [exec_dispatch_error env _ s hx, exec_dispatch_error (env.over stream) _ t hy]
      exact .failed he h
  | close kind =>
    cases h with
    | redraft hd => exact .done (.redraft (hd.close kind))
  | wrap kind =>
    cases h with
    | redraft hd => exact .done (.redraft (hd.wrap kind))

/-- Runs over streams that are alike go in lockstep. -/
theorem alike_run (n : Nat) (c : Cmd) (hc : c.discreet = true) (h : s.Alike t) :
    (c.run env n s).Alike (c.run (env.over stream) n t) := by
  induction n generalizing c s t with
  | zero => exact .failed (h.errorHere _) h
  | succ n ih => exact alike_exec hs (fun c hc s t h => ih c hc h) c hc h

end Cmd
end
end

/-! ### Parses alike -/

/-- What a parse comes to, places left out. -/
def sketch : Except ParseError Tree → Except (ParseFault × Nat × Option String) (List Trace)
  | .ok t => .ok t.traces
  | .error e => .error (e.fault, e.tokenIndex, e.context)

theorem ResultAlike.bind {α β : Type} {R : α → α → Prop} {S : β → β → Prop}
    {x y : Except ParseError α} {f g : α → Except ParseError β} (h : ResultAlike R x y)
    (hnext : ∀ a b, R a b → ResultAlike S (f a) (g b)) : ResultAlike S (x.bind f) (y.bind g) := by
  cases h with
  | ok h => exact hnext _ _ h
  | error h => exact .error h

theorem ResultAlike.sketch_eq {x y : Except ParseError Tree}
    (h : ResultAlike (fun a b => b.bare = a.bare) x y) : sketch y = sketch x := by
  cases h with
  | ok h => rw [sketch, sketch, Tree.traces_eq_of_bare h]
  | error h => simp only [sketch, ParseError.context, h.fault, h.tokenIndex, h.remark]

namespace Session

theorem alike_treeOf {env : Setting} {stream : TokenStream} {s t : State} (h : s.Alike t) :
    ResultAlike (fun a b => b.bare = a.bare) (treeOf env s) (treeOf (env.over stream) t) := by
  have hitems : t.draft.items.map Tree.bare = s.draft.items.map Tree.bare := h.draft
  unfold treeOf
  cases hd : s.draft.items with
  | nil =>
    obtain hd' : t.draft.items = [] := by simpa [hd] using hitems
    rw [hd']
    exact .error (h.errorHere _)
  | cons a as =>
    cases hd' : t.draft.items with
    | nil => simp [hd, hd'] at hitems
    | cons b bs =>
      rw [hd, hd', List.map_cons, List.map_cons] at hitems
      exact .ok (List.cons_eq_cons.1 hitems).1

theorem alike_expectEnd {env : Setting} {stream : TokenStream} {s t : State}
    (hs : env.stream.Alike stream) (h : s.Alike t) :
    ResultAlike Eq (expectEnd ⟨env, s⟩) (expectEnd ⟨env.over stream, t⟩) := by
  have hkind : (env.over stream).stream.kindAt t.index = env.stream.kindAt s.index := by
    rw [h.index]
    exact hs.kindAt s.index
  unfold expectEnd
  dsimp only
  rw [hkind]
  split
  · exact .ok rfl
  · exact .error (h.unexpected hs _ _)

variable {ts us : TokenList}

theorem alike_outcome (h : ts.Alike us) (options : ParseOptions) (r : Rule) :
    ((start ts options).outcome r).Alike ((start us options).outcome r) := by
  have hlevels : (start us options).levels = (start ts options).levels :=
    congrArg (fun length => 128 * (length + 2)) h.stream.length
  rw [outcome, outcome, hlevels]
  exact Cmd.alike_run h.stream _ r.body r.discreet_body (.redraft rfl)

end Session

theorem parse_eq_outcome (e : Entry) (ts : TokenList) (options : ParseOptions) :
    parse e ts options =
      match (Session.start ts options).outcome e.rule with
      | .failed err _ => .error err
      | .done s =>
        (Session.treeOf (Session.start ts options).env s).bind fun t =>
          (Session.expectEnd ⟨(Session.start ts options).env, s⟩).bind fun _ => .ok t := by
  rw [parse, Rule.parseAll, Session.run_outcome]
  cases (Session.start ts options).outcome e.rule with
  | failed err s => rfl
  | done s =>
    dsimp only [Outcome.reply, Outcome.state]
    cases Session.treeOf (Session.start ts options).env s with
    | error err => rfl
    | ok t =>
      dsimp only [Except.bind]
      cases Session.expectEnd _ <;> rfl

/-- Parses of lists that differ only in their source texts and in the places of their tokens, angle
brackets of one kind still touching alike, come to trees of the same kinds in preorder or to the
same fault at the same token, and their probes consume as many tokens. -/
theorem sketch_parse_alike (e : Entry) (ts us : TokenList) (options : ParseOptions)
    (h : ts.Alike us) :
    sketch (parse e us options) = sketch (parse e ts options) ∧
      spent e us options = spent e ts options := by
  have ho := Session.alike_outcome h options e.rule
  have henv : (Session.start us options).env =
      (Session.start ts options).env.over (TokenStream.ofList us) := rfl
  rw [spent, spent, Session.run_outcome, Session.run_outcome, parse_eq_outcome, parse_eq_outcome]
  generalize (Session.start ts options).outcome e.rule = o at ho
  generalize (Session.start us options).outcome e.rule = o' at ho
  cases ho with
  | @failed err err' s t he hst =>
    refine ⟨ResultAlike.sketch_eq (.error he), ?_⟩
    cases hst
    rfl
  | @done s t hst =>
    have hspent : t.speculated = s.speculated := by
      cases hst
      rfl
    refine ⟨ResultAlike.sketch_eq ?_, hspent⟩
    rw [henv]
    apply (Session.alike_treeOf hst).bind
    intro a b hab
    apply (Session.alike_expectEnd h.stream hst).bind
    intro _ _ _
    exact .ok hab

/-- The same shift, once close together and once spread over two lines. -/
theorem sketch_parse_alike_shift :
    let ts : TokenList :=
      { source := "a>>b"
        tokens := #[⟨.ident, ⟨0, 1⟩, ⟨1, 1⟩⟩, ⟨.greater, ⟨1, 2⟩, ⟨1, 2⟩⟩,
          ⟨.greater, ⟨2, 3⟩, ⟨1, 3⟩⟩, ⟨.ident, ⟨3, 4⟩, ⟨1, 4⟩⟩, ⟨.eof, ⟨4, 4⟩, ⟨1, 5⟩⟩] }
    let us : TokenList :=
      { source := "left >>\n  right"
        tokens := #[⟨.ident, ⟨0, 4⟩, ⟨1, 1⟩⟩, ⟨.greater, ⟨5, 6⟩, ⟨1, 6⟩⟩,
          ⟨.greater, ⟨6, 7⟩, ⟨1, 7⟩⟩, ⟨.ident, ⟨10, 15⟩, ⟨2, 3⟩⟩, ⟨.eof, ⟨15, 15⟩, ⟨2, 8⟩⟩] }
    let shift : NodeKind := .binary .shiftRight
    ts.Alike us ∧
      sketch (parse .expression us) =
        .ok [.enter shift, .enter NodeKind.name, .token .ident, .leave NodeKind.name,
          .token .greater, .token .greater, .enter NodeKind.name, .token .ident,
          .leave NodeKind.name, .leave shift] := by
  intro ts us shift
  have htouch : ∀ i, i < ts.length → (ts.kindAt i).isAngle = true →
      ts.kindAt (i + 1) = ts.kindAt i →
      (TokenStream.ofList us).touching i = (TokenStream.ofList ts).touching i := by decide
  have halike : ts.Alike us := by
    refine ⟨rfl, fun i hangle hsame => htouch i ?_ hangle hsame⟩
    apply TokenStream.lt_length_of_kindAt (s := TokenStream.ofList ts)
    intro heof
    rw [show ts.kindAt i = .eof from heof] at hangle
    cases hangle
  have hparse : parse .expression ts = .ok
      (.node shift ⟨0, 4⟩
        [.node .name ⟨0, 1⟩ [.leaf .ident ⟨0, 1⟩], .leaf .greater ⟨1, 2⟩, .leaf .greater ⟨2, 3⟩,
          .node .name ⟨3, 4⟩ [.leaf .ident ⟨3, 4⟩]]) := by
    rw [parse_eq_ok, Session.run_eq]
    decide +kernel
  refine ⟨halike, (sketch_parse_alike .expression ts us {} halike).1.trans ?_⟩
  rw [hparse, sketch, Tree.traces, Tree.preorder_eq]
  rfl

end JavaSyntax
