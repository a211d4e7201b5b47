import JavaSyntax.Proofs.Failures
import JavaSyntax.Proofs.Frames

/-!
# Termination

Every call comes to an answer, whatever the list: no chain of entries uses the levels up, so it
makes no difference how many there are as long as they are as many as a number that is linear in
the tokens that are left. A rule that reads no token has made a node of no children. The scans
over tokens go up by steps until no step is possible.
-/

namespace JavaSyntax

open Relation (ReflTransGen)

/-- The error is not for want of levels. -/
def ParseError.Unstalled (e : ParseError) : Prop := e.fault ≠ .stalled

theorem ParseError.unstalled_of_isStuck {e : ParseError} (h : e.fault.isStuck = false) :
    e.Unstalled := by
  intro hstalled
  rw [hstalled] at h
  cases h

theorem State.unstalled_shift {env : Setting} (s : State) :
    (s.shift env).Fails ParseError.Unstalled := by
  have hsteady : (s.shift env).Steady := State.steady_shift
  cases h : s.shift env with
  | done t => trivial
  | failed e t =>
    rw [h] at hsteady
    exact ParseError.unstalled_of_isStuck hsteady

theorem Setting.keeps_all (env : Setting) (deeper : Cmd → State → Outcome) :
    env.Keeps deeper fun _ => True :=
  ⟨fun _ _ => trivial, fun _ _ => trivial, fun _ _ => trivial, fun _ => trivial⟩

theorem Setting.makes_unstalled (env : Setting) :
    env.Makes (fun _ => True) ParseError.Unstalled where
  shift _ := State.unstalled_shift _
  fail _ _ _ := ParseError.unstalled_of_isStuck (ParseFault.isStuck_ofFound _ _)
  table _ he := ParseError.unstalled_of_isStuck (Table.isStuck_of_decide he)
  checkpoint _ _ _ _ := nofun

/-- Runs a command with so many levels, and with `base` for what is deeper. -/
def Cmd.runOn (env : Setting) (base : Cmd → State → Outcome) : Nat → Cmd → State → Outcome
  | 0 => base
  | n + 1 => fun c s => c.exec env (runOn env base n) s

theorem Cmd.runOn_run (env : Setting) (m n : Nat) : runOn env (run env m) n = run env (m + n) := by
  induction n with
  | zero => rfl
  | succ n ih =>
    funext c s
    rw [runOn, ih]
    rfl

theorem Cmd.unstalled_runOn {env : Setting} {base : Cmd → State → Outcome}
    (hbase : ∀ c s, (base c s).Fails ParseError.Unstalled) (n : Nat) (c : Cmd) (s : State) :
    (c.runOn env base n s).Fails ParseError.Unstalled := by
  induction n generalizing c s with
  | zero => exact hbase c s
  | succ n ih =>
    exact fails_exec (env.keeps_all _) env.makes_unstalled (fun c s _ => ih c s) c trivial

/-- No chain from the frame uses its levels up. -/
def Frame.Free (env : Setting) (f : Frame) : Prop :=
  ∀ g, ReflTransGen (Frame.Enters env) f g → 0 < g.levels

section
variable {env : Setting} {base : Cmd → State → Outcome} {f g : Frame} {n : Nat} {s : State}

theorem Frame.Free.enter (hf : f.Free env) (h : Enters env f g) : g.Free env :=
  fun k hk => hf k (.head h hk)

theorem Guard.decide_runOn {gd : Guard}
    (h : ∀ p t, gd.settle env s = .ask p t →
      p.fragment.runOn env base n (t.enterProbe env) = p.fragment.run env n (t.enterProbe env)) :
    gd.decide env (Cmd.runOn env base n) s = gd.decide env (Cmd.run env n) s := by
  unfold Guard.decide
  cases hs : gd.settle env s with
  | known b t => rfl
  | ask p t => simp only [h p t hs]

theorem Cmd.exec_of_free
    (ih : ∀ (a : Activity) s, Frame.Free env ⟨n, a, s⟩ →
      a.cmd.runOn env base n s = a.cmd.run env n s)
    (c : Cmd) (hf : Frame.Free env ⟨n + 1, .part c, s⟩) :
    c.exec env (runOn env base n) s = c.exec env (run env n) s := by
  induction c generalizing s with
  | skip | shift | fail | close | wrap => rfl
  | seq a b iha ihb =>
    rw [exec, exec, iha (hf.enter .left)]
    cases ha : a.exec env (run env n) s with
    | done t => exact ihb (hf.enter (.right ha))
    | failed e t => rfl
  | ite g a b iha ihb =>
    rw [exec, exec, Guard.decide_runOn fun p t h => ih (.part p.fragment) _ (hf.enter (.probe h))]
    cases hg : g.decide env (run env n) s with
    | answer answer t =>
      have hbranch := hf.enter (.branch hg)
      cases answer with
      | true => exact iha hbranch
      | false => exact ihb hbranch
    | abort e t => rfl
  | loop g body _ =>
    rw [exec, exec,
      Guard.decide_runOn fun p t h => ih (.part p.fragment) _ (hf.enter (.loopProbe h))]
    cases hg : g.decide env (run env n) s with
    | answer answer t =>
      cases answer with
      | true => exact ih (.pass g body) t (hf.enter (.pass hg))
      | false => rfl
    | abort e t => rfl
  | nest body ihb => rw [exec, exec, ihb (hf.enter .nest)]
  | jump r => exact ih (.rule r) s (hf.enter .jump)
  | dispatch t =>
    rw [exec, exec]
    cases ht : Table.decide t env.stream env.options.detectAmbiguity s.index with
    | ok r => exact ih (.rule r) s (hf.enter (.dispatch ht))
    | error e => rfl

/-- If no chain uses the levels up, then nothing depends on what happens when they are. -/
theorem Activity.run_of_free (a : Activity) (hf : Frame.Free env ⟨n, a, s⟩) :
    a.cmd.runOn env base n s = a.cmd.run env n s := by
  induction n generalizing a s with
  | zero => exact absurd (hf _ .refl) (Nat.lt_irrefl 0)
  | succ n ih =>
    have hexec (c : Cmd) {s : State} := Cmd.exec_of_free (s := s) (fun a s h => ih a h) c
    cases a with
    | rule r => exact hexec r.body (hf.enter .rule)
    | part c => exact hexec c hf
    | pass g body =>
      change (Cmd.seq body (.loop g body)).exec env (Cmd.runOn env base n) s =
        (Cmd.seq body (.loop g body)).exec env (Cmd.run env n) s
      rw [Cmd.exec, Cmd.exec, hexec body (hf.enter .first)]
      cases hb : body.exec env (Cmd.run env n) s with
      | done t => exact hexec _ (hf.enter (.next hb))
      | failed e t => rfl

/-- With more levels than the frame is high, its run does not want levels, and it is the same with
any more of them. -/
theorem Frame.Valid.settled (hs : env.stream.Ended) (hf : f.Valid env)
    (hheight : f.height env < f.levels) :
    (f.run env).Fails ParseError.Unstalled ∧
      ∀ m, f.activity.cmd.run env (m + f.levels) f.state = f.run env := by
  have hfree : f.Free env := fun _ => Frame.levels_pos hs hf hheight
  constructor
  · have hrun : f.activity.cmd.runOn env (fun _ s => .done s) f.levels f.state = f.run env :=
      f.activity.run_of_free hfree
    rw [← hrun]
    refine Cmd.unstalled_runOn ?_ _ _ _
    exact fun _ _ => trivial
  · intro m
    rw [← Cmd.runOn_run]
    exact f.activity.run_of_free hfree

end

section
variable {s : TokenStream} {strict : Bool} {a b c body : Cmd} {g : Guard} {r : Rule} {p q : Place}

/-- If the command is done where it has started, then it has done nothing. -/
def Cmd.Idle (s : TokenStream) (strict : Bool) (c : Cmd) : Prop :=
  ∀ p q, Cmd.Ends s strict (Rule.Ends s strict) c p (.done q) → q.index = p.index → q = p

namespace Cmd.Idle

theorem of_moves (hc : c.moves = true) : c.Idle s strict :=
  fun _ _ h hq => absurd hq (Nat.ne_of_gt (h.lt_of_moves hc))

theorem skip : Cmd.skip.Idle s strict := by
  intro p q h _
  cases h
  rfl

theorem seq (ha : a.Idle s strict) (hb : b.Idle s strict) : (Cmd.seq a b).Idle s strict := by
  intro p q h hq
  obtain ⟨m, hpm, hmq⟩ := h.seq_done
  have hle : p.index ≤ m.index := (hpm.covers fun _ _ _ h => h.covers).index_le
  have hle' : m.index ≤ q.index := (hmq.covers fun _ _ _ h => h.covers).index_le
  obtain rfl := ha p m hpm (by omega)
  exact hb m q hmq hq

theorem ite (ha : a.Idle s strict) (hb : b.Idle s strict) : (Cmd.ite g a b).Idle s strict := by
  intro p q h hq
  obtain ⟨answer, -, h⟩ := h.ite_done
  cases answer with
  | true => exact ha p q h hq
  | false => exact hb p q h hq

theorem loop (hc : passMoves g body = true) : (Cmd.loop g body).Idle s strict := by
  intro p q h hq
  cases h.passes with
  | stop _ => rfl
  | @pass _ m _ hg hb hpasses =>
    have hlt := hb.lt_of_passMoves hc hg
    have hle : m.index ≤ q.index := by
      clear h hq hg hb hlt
      induction hpasses with
      | stop _ => exact Nat.le_refl _
      | pass _ hb _ ih => exact Nat.le_trans (hb.covers fun _ _ _ h => h.covers).index_le ih
    omega

end Cmd.Idle

theorem Cmd.Ends.closed_of_idle {kind : NodeKind} (ha : a.Idle s strict)
    (h : Cmd.Ends s strict (Rule.Ends s strict) (.seq a (.close kind)) p (.done q))
    (hq : q.index = p.index) : q.draft = p.draft.close kind := by
  obtain ⟨m, hpm, hclose⟩ := h.seq_done
  cases hclose
  rw [ha p m hpm hq]

/-- A rule that is done where it has started has made a node out of what was there: modifiers, or
a compilation unit. -/
theorem Rule.Ends.closed_of_unmoved (h : Rule.Ends s strict r p (.done q))
    (hq : q.index = p.index) :
    (r = .modifiers ∨ r = .variableModifiers) ∧ q.draft = p.draft.close .modifiers ∨
      r = .compilationUnit ∧ q.draft = p.draft.close .compilationUnit := by
  have hmoves : r.exits.all Outlook.moved = false := by
    rw [Bool.eq_false_iff]
    exact fun hm => absurd hq (Nat.ne_of_gt (h.exits.lt hm))
  have hrule : r = .modifiers ∨ r = .variableModifiers ∨ r = .compilationUnit := by
    cases r <;> simp [Rule.exits] at hmoves ⊢
  cases h with
  | body h =>
    obtain rfl | rfl | rfl := hrule
    · exact .inl ⟨.inl rfl, h.closed_of_idle (.loop (by decide)) hq⟩
    · exact .inl ⟨.inr rfl, h.closed_of_idle (.loop (by decide)) hq⟩
    · refine .inr ⟨rfl, h.closed_of_idle (.seq (.seq (.ite (.of_moves ?_) .skip) (.loop ?_))
        (.loop ?_)) hq⟩ <;> decide

end

namespace TokenStream
variable {s : TokenStream} {fuel depth i j : Nat}

/-- A step of the scan over the segments of a name. -/
def SegmentStep (s : TokenStream) (i j : Nat) : Prop :=
  s.kindAt i = .dot ∧ s.kindAt (i + 1) = .ident ∧ j = i + 2

/-- A step of the scan over type arguments, from one depth and index to another. -/
inductive ArgumentStep (s : TokenStream) : Nat × Nat → Nat × Nat → Prop
  | less {d i} (h : s.kindAt i = .less) : ArgumentStep s (d, i) (d + 1, i + 1)
  | greater {d i} (h : s.kindAt i = .greater) : ArgumentStep s (d + 1, i) (d, i + 1)
  | argument {d i} (h : TokenKind.typeArgumentTokens.contains (s.kindAt i) = true)
      (hless : s.kindAt i ≠ .less) (hgreater : s.kindAt i ≠ .greater) :
      ArgumentStep s (d, i) (d, i + 1)

theorem SegmentStep.lt (h : s.SegmentStep i j) : i < j ∧ j ≤ s.length := by
  obtain ⟨-, hident, rfl⟩ := h
  have := lt_length_of_kindAt (show s.kindAt (i + 1) ≠ .eof by rw [hident]; decide)
  omega

theorem ArgumentStep.lt {a b : Nat × Nat} (h : s.ArgumentStep a b) :
    a.2 < b.2 ∧ b.2 ≤ s.length := by
  have hstep {i : Nat} (h : s.kindAt i ≠ .eof) : i < i + 1 ∧ i + 1 ≤ s.length :=
    ⟨Nat.lt_succ_self i, lt_length_of_kindAt h⟩
  cases h with
  | less h => exact hstep (by rw [h]; decide)
  | greater h => exact hstep (by rw [h]; decide)
  | argument h =>
    refine hstep ?_
    intro heof
    rw [heof] at h
    exact absurd h (by decide)

theorem ArgumentStep.kind_cases {b : Nat × Nat} (h : s.ArgumentStep (depth, i) b) :
    s.kindAt i = .less ∨ s.kindAt i = .greater ∧ depth ≠ 0 ∨
      TokenKind.typeArgumentTokens.contains (s.kindAt i) = true := by
  cases h with
  | less h => exact .inl h
  | greater h => exact .inr (.inl ⟨h, Nat.succ_ne_zero _⟩)
  | argument h => exact .inr (.inr h)

theorem skipSegments_steps (hfuel : s.length - i ≤ fuel) :
    ReflTransGen s.SegmentStep i (s.skipSegments fuel i) ∧
      ∀ j, ¬ s.SegmentStep (s.skipSegments fuel i) j := by
  induction fuel generalizing i with
  | zero =>
    refine ⟨.refl, fun j h => ?_⟩
    have hlt : i < j ∧ j ≤ s.length := h.lt
    omega
  | succ fuel ih =>
    rw [skipSegments]
    split
    · rename_i hgoes
      rw [Bool.and_eq_true, beq_iff_eq, beq_iff_eq] at hgoes
      obtain ⟨hsteps, hend⟩ := ih (i := i + 2) (by omega)
      exact ⟨.head ⟨hgoes.1, hgoes.2, rfl⟩ hsteps, hend⟩
    · rename_i hstop
      refine ⟨.refl, fun j h => ?_⟩
      rw [h.1, h.2.1] at hstop
      exact hstop rfl

/-- What the scan over type arguments answers where it stops. -/
def scanAnswer (s : TokenStream) (depth i : Nat) : TypeScan :=
  match s.kindAt i with
  | .greater => .cannot
  | .colonColon => if depth = 0 then .mayBe else .cannot
  | .lparen => .mayBe
  | _ => .blocked i

/-- The scan over type arguments goes on until no step is possible, and answers there. -/
theorem scanFrom_steps (hfuel : s.length - i ≤ fuel) : ∃ d stop,
    ReflTransGen s.ArgumentStep (depth, i) (d, stop) ∧ (∀ b, ¬ s.ArgumentStep (d, stop) b) ∧
      s.scanFrom fuel depth i = s.scanAnswer d stop := by
  induction fuel generalizing depth i with
  | zero =>
    have heof : s.kindAt i = .eof := kindAt_of_length_le (by omega)
    refine ⟨depth, i, .refl, fun b h => ?_, by rw [scanFrom, scanAnswer, heof]⟩
    have hlt : i < b.2 ∧ b.2 ≤ s.length := h.lt
    omega
  | succ fuel ih =>
    have hnext (d : Nat) := @ih d (i + 1) (by omega)
    have hstop {x : TypeScan} (h : ∀ b, ¬ s.ArgumentStep (depth, i) b)
        (hx : x = s.scanAnswer depth i) : ∃ d stop,
          ReflTransGen s.ArgumentStep (depth, i) (d, stop) ∧ (∀ b, ¬ s.ArgumentStep (d, stop) b) ∧
            x = s.scanAnswer d stop := ⟨depth, i, .refl, h, hx⟩
    rw [scanFrom]
    split
    · rename_i hkind
      obtain ⟨d, stop, hsteps, hend, hscan⟩ := hnext (depth + 1)
      exact ⟨d, stop, .head (.less hkind) hsteps, hend, hscan⟩
    · rename_i hkind
      cases depth with
      | zero =>
        refine hstop (fun b h => ?_) (by rw [scanAnswer, hkind]; rfl)
        have hcases := h.kind_cases
        rw [hkind] at hcases
        exact absurd hcases (by decide)
      | succ depth =>
        obtain ⟨d, stop, hsteps, hend, hscan⟩ := hnext depth
        exact ⟨d, stop, .head (.greater hkind) hsteps, hend, hscan⟩
    · rename_i hkind
      refine hstop (fun b h => ?_) (by rw [scanAnswer, hkind])
      have hcases := h.kind_cases
      simp only [hkind, reduceCtorEq, false_and, false_or] at hcases
      exact absurd hcases (by decide)
    · rename_i hkind
      refine hstop (fun b h => ?_) (by rw [scanAnswer, hkind])
      have hcases := h.kind_cases
      simp only [hkind, reduceCtorEq, false_and, false_or] at hcases
      exact absurd hcases (by decide)
    · rename_i hless hgreater hcolons hparen
      split
      · rename_i harg
        obtain ⟨d, stop, hsteps, hend, hscan⟩ := hnext depth
        exact ⟨d, stop, .head (.argument harg hless hgreater) hsteps, hend, hscan⟩
      · rename_i harg
        refine hstop (fun b h => ?_) ?_
        · obtain h | ⟨h, -⟩ | h := h.kind_cases
          · exact hless h
          · exact hgreater h
          · exact harg h
        · unfold scanAnswer
          split
          · exact absurd ‹_› hgreater
          · exact absurd ‹_› hcolons
          · exact absurd ‹_› hparen
          · rfl

theorem nameEnd_steps (s : TokenStream) (i : Nat) :
    ReflTransGen s.SegmentStep (i + 1) (s.nameEnd i) ∧ ∀ j, ¬ s.SegmentStep (s.nameEnd i) j :=
  skipSegments_steps (by omega)

theorem scanTypePrefix_steps (s : TokenStream) (i : Nat) : ∃ d stop,
    ReflTransGen s.ArgumentStep (0, i) (d, stop) ∧ (∀ b, ¬ s.ArgumentStep (d, stop) b) ∧
      s.scanTypePrefix i = s.scanAnswer d stop :=
  scanFrom_steps (Nat.le_refl _)

/-- The scans over tokens are chains of steps that cannot be gone on with, and each step goes up
within the list. -/
structure ScansEnd (s : TokenStream) : Prop where
  segment_lt : ∀ i j, s.SegmentStep i j → i < j ∧ j ≤ s.length
  nameEnd : ∀ i, ReflTransGen s.SegmentStep (i + 1) (s.nameEnd i) ∧
    ∀ j, ¬ s.SegmentStep (s.nameEnd i) j
  argument_lt : ∀ a b, s.ArgumentStep a b → a.2 < b.2 ∧ b.2 ≤ s.length
  typePrefix : ∀ i, ∃ d stop, ReflTransGen s.ArgumentStep (0, i) (d, stop) ∧
    (∀ b, ¬ s.ArgumentStep (d, stop) b) ∧ s.scanTypePrefix i = s.scanAnswer d stop

theorem scansEnd (s : TokenStream) : s.ScansEnd :=
  ⟨fun _ _ h => h.lt, s.nameEnd_steps, fun _ _ h => h.lt, s.scanTypePrefix_steps⟩

end TokenStream

namespace Session
variable {p : Session} {r : Rule} {n : Nat} {f g : Frame}

def frame (p : Session) (n : Nat) (r : Rule) : Frame := ⟨n, .rule r, p.state.fresh p.env⟩

/-- Levels enough for the tokens that are left. -/
def depthLimit (p : Session) : Nat := 128 * (p.env.stream.length - p.index + 1)

/-- The call comes to a tree or to nothing, or to an error that is not for want of levels. -/
def Answers {α : Type} (x : Except ParseError α) : Prop :=
  (∃ a, x = .ok a) ∨ ∃ e, x = .error e ∧ e.fault ≠ .stalled

structure Terminates (p : Session) : Prop where
  answers : ∀ c, Answers (p.perform c).result
  /-- Along a chain that starts with a rule the position never falls, and it has grown where
  something is entered again. -/
  grows : ∀ n r f g, ReflTransGen (Frame.Enters p.env) (p.frame n r) f → Frame.Leads p.env f g →
    f.state.index ≤ g.state.index ∧
      (f.activity.Alike g.activity → f.state.index < g.state.index)
  depth_le : ∀ n r f, ReflTransGen (Frame.Enters p.env) (p.frame n r) f →
    n - f.levels ≤ p.depthLimit
  /-- More levels than the limit change nothing. -/
  run_eq : ∀ n r, p.depthLimit ≤ n →
    (p.frame n r).run p.env = (p.frame p.depthLimit r).run p.env
  /-- A rule that is done where it has started has made a node out of what was there. -/
  unmoved : ∀ n r f r' t, ReflTransGen (Frame.Enters p.env) (p.frame n r) f →
    f.activity = .rule r' → f.run p.env = .done t → f.state.index ≤ t.index ∧
      (t.index = f.state.index →
        (r' = .modifiers ∨ r' = .variableModifiers) ∧ t.draft = f.state.draft.close .modifiers ∨
          r' = .compilationUnit ∧ t.draft = f.state.draft.close .compilationUnit)
  /-- A call that reads no token and fails not, answers a compilation unit without children. -/
  empty : ∀ (e : Entry) t, (p.run e.rule).1 = .ok t → (p.run e.rule).2.index = p.index →
    e = .compilationUnit ∧
      t = .node .compilationUnit (Span.point (p.env.stream.tokenAt p.index).span.start) []

theorem valid_frame (hp : p.Sound) (n : Nat) (r : Rule) : (p.frame n r).Valid p.env :=
  ⟨hp, trivial⟩

theorem height_frame (p : Session) (n : Nat) (r : Rule) :
    (p.frame n r).height p.env < p.depthLimit := by
  have := r.rank_le
  change r.rank + 128 * (p.env.stream.length - p.index) < _
  rw [depthLimit]
  omega

theorem valid_of_chain (hs : p.env.stream.Ended) (hp : p.Sound)
    (h : ReflTransGen (Frame.Enters p.env) (p.frame n r) f) : f.Valid p.env := by
  rcases Relation.reflTransGen_iff_eq_or_transGen.1 h with rfl | h
  · exact valid_frame hp n r
  · exact (Frame.Leads.below hs (valid_frame hp n r) h).1

theorem depth_le_of_chain (hs : p.env.stream.Ended) (hp : p.Sound)
    (h : ReflTransGen (Frame.Enters p.env) (p.frame n r) f) : n - f.levels ≤ p.depthLimit := by
  rcases Relation.reflTransGen_iff_eq_or_transGen.1 h with rfl | h
  · exact Nat.le_trans (Nat.le_of_eq (Nat.sub_self n)) (Nat.zero_le _)
  · have hbelow := (Frame.Leads.below hs (valid_frame hp n r) h).2
    have hheight := p.height_frame n r
    have hle : f.height p.env + (n - f.levels) ≤ (p.frame n r).height p.env := hbelow.height_le
    omega

theorem settled_frame (hs : p.env.stream.Ended) (hp : p.Sound) (hn : p.depthLimit ≤ n) :
    ((p.frame n r).run p.env).Fails ParseError.Unstalled ∧
      (p.frame n r).run p.env = (p.frame p.depthLimit r).run p.env := by
  obtain ⟨m, rfl⟩ := Nat.exists_eq_add_of_le' hn
  obtain ⟨hunstalled, hmore⟩ :=
    (valid_frame hp p.depthLimit r).settled hs (p.height_frame p.depthLimit r)
  have hrun : (p.frame (m + p.depthLimit) r).run p.env = (p.frame p.depthLimit r).run p.env :=
    hmore m
  exact ⟨hrun ▸ hunstalled, hrun⟩

theorem Sound.exists_tree (hp : p.Sound) (e : Entry) {t : State}
    (h : e.rule.body.run p.env p.levels (p.state.fresh p.env) = .done t) :
    ∃ tree, t.draft.items = [tree] ∧ treeOf p.env t = .ok tree := by
  obtain ⟨-, hends⟩ := Cmd.reach_of_run (s := p.state.fresh p.env) hp h
  obtain ⟨tree, kind, hitems, -⟩ := (Rule.Ends.body hends).single e.rule_ne_emptyMember rfl
  have hitems : t.draft.items = [tree] := hitems
  exact ⟨tree, hitems, by rw [treeOf, hitems]⟩

theorem answers_run (hs : p.env.stream.Ended) (hp : p.Sound) (e : Entry) :
    Answers (p.run e.rule).1 := by
  have hlevels : p.depthLimit ≤ p.levels := by
    rw [depthLimit, levels]
    omega
  have hunstalled :
      (e.rule.body.run p.env p.levels (p.state.fresh p.env)).Fails ParseError.Unstalled :=
    (settled_frame (r := e.rule) hs hp hlevels).1
  rw [Session.run_eq]
  split
  · rename_i t ho
    obtain ⟨tree, -, htree⟩ := hp.exists_tree e ho
    exact .inl ⟨tree, htree⟩
  · rename_i err t ho
    rw [ho] at hunstalled
    exact .inr ⟨err, rfl, hunstalled⟩

theorem answers_expectEnd (p : Session) : Answers p.expectEnd := by
  unfold expectEnd
  split
  · exact .inl ⟨(), rfl⟩
  · exact .inr ⟨_, rfl, ParseError.unstalled_of_isStuck (ParseFault.isStuck_ofFound _ _)⟩

theorem Answers.map {α β : Type} {x : Except ParseError α} (h : Answers x) (k : α → β) :
    Answers (x.map k) := by
  obtain ⟨a, rfl⟩ | ⟨e, rfl, he⟩ := h
  · exact .inl ⟨k a, rfl⟩
  · exact .inr ⟨e, rfl, he⟩

theorem unmoved_of_run (hs : p.env.stream.Ended) (hp : p.Sound)
    (h : ReflTransGen (Frame.Enters p.env) (p.frame n r) f) {r' : Rule} {t : State}
    (hr : f.activity = .rule r') (ht : f.run p.env = .done t) : f.state.index ≤ t.index ∧
      (t.index = f.state.index →
        (r' = .modifiers ∨ r' = .variableModifiers) ∧ t.draft = f.state.draft.close .modifiers ∨
          r' = .compilationUnit ∧ t.draft = f.state.draft.close .compilationUnit) := by
  have hvalid := valid_of_chain hs hp h
  rw [Frame.run, hr] at ht
  obtain ⟨-, hends⟩ := Cmd.reach_of_run hvalid.trusts ht
  exact ⟨(Rule.Ends.body hends).covers.index_le, fun hindex =>
    (Rule.Ends.body hends).closed_of_unmoved hindex⟩

theorem empty_of_run (hp : p.Sound) {e : Entry} {tree : Tree} (h : (p.run e.rule).1 = .ok tree)
    (hindex : (p.run e.rule).2.index = p.index) : e = .compilationUnit ∧
      tree = .node .compilationUnit (Span.point (p.env.stream.tokenAt p.index).span.start) [] := by
  rw [Session.run_eq] at h hindex
  split at h
  · rename_i t ho
    rw [ho] at hindex
    obtain ⟨tree', hitems, htree⟩ := hp.exists_tree e ho
    cases h.symm.trans htree
    obtain ⟨-, hends⟩ := Cmd.reach_of_run (s := p.state.fresh p.env) hp ho
    obtain ⟨hrule, -⟩ | ⟨hrule, hdraft⟩ := (Rule.Ends.body hends).closed_of_unmoved hindex
    · cases e <;> simp [Entry.rule] at hrule
    · have hdraft : t.draft = (p.env.stream.fresh p.index).draft.close .compilationUnit := hdraft
      rw [hdraft] at hitems
      refine ⟨?_, (List.cons.inj hitems).1.symm⟩
      cases e <;> first | rfl | cases hrule
  · cases h

theorem terminates (hs : p.env.stream.Ended) (hp : p.Sound) : p.Terminates where
  answers c := by
    cases c with
    | entry e => exact (answers_run hs hp e).map some
    | expectEnd => exact p.answers_expectEnd.map fun _ => none
  grows n r f g hf h := by
    have hvalid := valid_of_chain hs hp hf
    exact ⟨(Frame.Leads.below hs hvalid h).2.index_le, Frame.Leads.index_lt hs hvalid h⟩
  depth_le _ _ _ h := depth_le_of_chain hs hp h
  run_eq _ _ hn := (settled_frame hs hp hn).2
  unmoved _ _ _ _ _ h hr ht := unmoved_of_run hs hp h hr ht
  empty _ _ h hindex := empty_of_run hp h hindex

end Session

/-- Parsing terminates. Whatever the list, its options and the calls before, a call answers, and
so does a whole parse. In a chain of entries the position grows between two entries of one rule
and between two passes of one loop, so the chain is no deeper than a number linear in the tokens
that are left, and the scans over tokens come to an end as well. -/
theorem terminates_of_calls (ts : TokenList) (options : ParseOptions) (i : Nat)
    (calls : List Request) : ((Session.startAt ts options i).after calls).Terminates ∧
      (∀ e, Session.Answers (parse e ts options)) ∧ (TokenStream.ofList ts).ScansEnd := by
  have hended (calls : List Request) (i : Nat) :
      ((Session.startAt ts options i).after calls).env.stream.Ended := by
    rw [Session.env_after]
    exact TokenStream.kind_past_ofList ts
  have hsound (calls : List Request) (i : Nat) :
      ((Session.startAt ts options i).after calls).Sound :=
    (Session.sound_startAt ts options i).after calls
  refine ⟨Session.terminates (hended calls i) (hsound calls i), fun e => ?_,
    TokenStream.scansEnd _⟩
  cases hparse : parse e ts options with
  | ok t => exact .inl ⟨t, rfl⟩
  | error err =>
    refine .inr ⟨err, rfl, ?_⟩
    obtain hrun | ⟨-, hend⟩ := parse_eq_error.1 hparse
    · have hanswers := Session.answers_run (hended [] 0) (hsound [] 0) e
      obtain ⟨t, ht⟩ | ⟨err', herr, hne⟩ := hanswers
      · cases hrun.symm.trans ht
      · cases hrun.symm.trans herr
        exact hne
    · obtain ⟨t, ht⟩ | ⟨err', herr, hne⟩ := Session.answers_expectEnd _
      · cases hend.symm.trans ht
      · cases hend.symm.trans herr
        exact hne

/-- Two modifiers without a sentinel behind them: the loop over modifiers is gone through twice,
at one token and then at the next. -/
theorem terminates_modifiers :
    let ts : TokenList :=
      { source := "public static"
        tokens := #[⟨.kwPublic, ⟨0, 6⟩, ⟨1, 1⟩⟩, ⟨.kwStatic, ⟨7, 13⟩, ⟨1, 8⟩⟩] }
    let p := (Session.startAt ts {} 0).after [.expectEnd]
    let pass : Activity := .pass
      (.test (.either (.hereAny TokenKind.modifierWords) Grammar.annotationAhead))
      (.ite (.test (.hereAny TokenKind.modifierWords)) .shift (.call .annotationUse))
    p.Terminates ∧ (∀ e, Session.Answers (parse e ts)) ∧ (TokenStream.ofList ts).ScansEnd ∧
      ∃ s t, ReflTransGen (Frame.Enters p.env) (p.frame 3 .modifiers) ⟨2, pass, s⟩ ∧
        Frame.Leads p.env ⟨2, pass, s⟩ ⟨1, pass, t⟩ ∧ s.index < t.index := by
  intro ts p pass
  obtain ⟨hp, hparse, hscans⟩ := terminates_of_calls ts {} 0 [.expectEnd]
  let s := p.state.fresh p.env
  let t : State := { s with index := 1, draft := s.draft.push (.leaf .kwPublic ⟨0, 6⟩) }
  have hword {i : Nat} (hi : i < 2) (d : Draft) :
      ((Test.hereAny TokenKind.modifierWords).either Grammar.annotationAhead).holds
        p.env.stream i d = true := by
    dsimp only [p, ts]
    obtain rfl | rfl : i = 0 ∨ i = 1 := by omega
    all_goals rfl
  have hshift : (Cmd.ite (.test (.hereAny TokenKind.modifierWords)) .shift
      (.call .annotationUse)).run p.env 2 s = .done t := by
    dsimp only [t, s, p, ts]
    rfl
  have hfirst : ReflTransGen (Frame.Enters p.env) (p.frame 3 .modifiers) ⟨2, pass, s⟩ := by
    refine .head .rule (.head .left (.single (.pass ?_)))
    exact congrArg (Ruling.answer · s) (hword (by decide) s.draft)
  have hsecond : Frame.Leads p.env ⟨2, pass, s⟩ ⟨1, pass, t⟩ := by
    refine .tail (.single (.next hshift)) (.pass ?_)
    exact congrArg (Ruling.answer · t) (hword (by decide) t.draft)
  exact ⟨hp, hparse, hscans, s, t, hfirst, hsecond, (hp.grows 3 _ _ _ hfirst hsecond).2 rfl⟩

end JavaSyntax
