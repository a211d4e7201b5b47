import JavaSyntax.Proofs.Internal
import JavaSyntax.Proofs.Termination

/-!
# Probes are isolated

Whatever a probe comes to, it leaves the position and the depth as they were. So the depth is the
number of probes that are on: it counts the probe entries of the chain that leads to a state, and
it is zero behind a call. A token that is read outside of all probes is not counted.
-/

namespace JavaSyntax

open Relation (ReflTransGen)

section
variable {env : Setting} {s t : State} {n : Nat}

/-! ## The depth -/

/-- However a run ends, it comes back to the depth of its start. -/
theorem Setting.depth_law (env : Setting) : env.Law fun s o => o.state.depth = s.depth where
  stay _ h := h.depth
  fail _ _ := rfl
  shift _ := State.depth_shift _ env
  probe {s} n p outer _ _ h := by
    rw [State.depth_conclude, h]
    exact Nat.add_sub_cancel s.depth 1
  trans h h' := h'.trans h

/-! ## The position -/

theorem Guard.index_decide (h : env.Ready s) (g : Guard) (deeper : Cmd → State → Outcome) :
    (g.decide env deeper s).outcome.state.index = s.index := by
  unfold decide
  cases hg : g.settle env s with
  | known answer t => exact (sameCounts_of_known hg).index
  | ask p t => exact State.index_conclude h.index_le p _ _

theorem Guard.depth_decide (h : env.Ready s) (g : Guard) (n : Nat) :
    (g.decide env (Cmd.run env n) s).outcome.state.depth = s.depth :=
  env.depth_law.decide (fun c _ h => env.depth_law.run n c h) g h

/-! ## Tokens outside of probes -/

theorem State.speculated_shift_outside (h : s.depth = 0) (env : Setting) :
    (s.shift env).state.speculated = s.speculated := by
  rw [speculated_shift, counted, if_pos h, Nat.add_zero]

theorem State.isExhausted_shift_outside (h : s.depth = 0) (env : Setting) :
    (s.shift env).isExhausted = false := by
  obtain ⟨hd, -, -⟩ | ⟨-, ⟨-, hs⟩ | ⟨-, hs⟩⟩ := s.shift_cases env
  · exact absurd h hd
  · rw [hs]
    exact ParseFault.isExhausted_ofFound _ _
  · rw [hs]
    rfl

theorem State.speculated_shift_inside (h : s.depth ≠ 0) (env : Setting) :
    (s.shift env).state.speculated = s.speculated + 1 := by
  rw [speculated_shift, counted, if_neg h]

end

/-! ## Chains of entries and their probes -/

namespace Frame
variable {env : Setting} {f g : Frame} {k : Nat}

/-- The second frame is that of a probe that the first one opens. -/
inductive Opens (env : Setting) : Frame → Frame → Prop
  | branch {n g a b s p t} (h : g.settle env s = .ask p t) :
      Opens env ⟨n + 1, .part (.ite g a b), s⟩ ⟨n, .part p.fragment, t.enterProbe env⟩
  | loop {n g body s p t} (h : g.settle env s = .ask p t) :
      Opens env ⟨n + 1, .part (.loop g body), s⟩ ⟨n, .part p.fragment, t.enterProbe env⟩

/-- The chain of entries from the first frame to the second one has opened so many probes. -/
inductive Nests (env : Setting) (f : Frame) : Nat → Frame → Prop
  | here : Nests env f 0 f
  | opened {k : Nat} {g h : Frame} : Nests env f k g → Opens env g h → Nests env f (k + 1) h
  | entered {k : Nat} {g h : Frame} :
      Nests env f k g → Enters env g h → ¬Opens env g h → Nests env f k h

theorem Opens.enters (h : Opens env f g) : Enters env f g := by
  cases h with
  | branch h => exact .probe h
  | loop h => exact .loopProbe h

theorem exists_nests (h : ReflTransGen (Enters env) f g) : ∃ k, Nests env f k g := by
  induction h with
  | refl => exact ⟨0, .here⟩
  | @tail g h _ henters ih =>
    obtain ⟨k, hk⟩ := ih
    by_cases hopens : Opens env g h
    · exact ⟨k + 1, .opened hk hopens⟩
    · exact ⟨k, .entered hk henters hopens⟩

theorem Enters.ready (hf : env.Ready f.state) (h : Enters env f g) : env.Ready g.state := by
  cases h with
  | rule | first | left | jump | dispatch => exact hf
  | next hrun | right hrun => exact Setting.Ready.exec hf hrun
  | branch hdecide | pass hdecide => exact Setting.Ready.decide hf hdecide
  | probe hask | loopProbe hask => exact (Setting.Ready.settle hf hask).enterProbe
  | nest => exact hf.redraft _

theorem Opens.depth (h : Opens env f g) : g.state.depth = f.state.depth + 1 := by
  cases h with
  | branch hask | loop hask =>
    exact congrArg (· + 1) (Guard.unasked_of_ask hask).1.depth

theorem Enters.depth (hf : env.Ready f.state) (h : Enters env f g) (hopens : ¬Opens env f g) :
    g.state.depth = f.state.depth := by
  cases h with
  | rule | first | left | jump | dispatch | nest => rfl
  | @next n gd body s t hrun =>
    have hdepth := env.depth_law.run (n + 1) body hf
    rwa [hrun] at hdepth
  | @right n a b s t hrun =>
    have hdepth := env.depth_law.run (n + 1) a hf
    rwa [hrun] at hdepth
  | @branch n gd a b s answer t hdecide | @pass n gd body s t hdecide =>
    have hdepth := Guard.depth_decide hf gd n
    rwa [hdecide] at hdepth
  | probe hask => exact absurd (.branch hask) hopens
  | loopProbe hask => exact absurd (.loop hask) hopens

/-- What a chain keeps: its states can be run on, and their depth counts the probes. -/
theorem Nests.depth (hf : env.Ready f.state) (h : Nests env f k g) :
    env.Ready g.state ∧ g.state.depth = f.state.depth + k := by
  induction h with
  | here => exact ⟨hf, rfl⟩
  | opened _ hopens ih =>
    exact ⟨hopens.enters.ready ih.1, by rw [hopens.depth, ih.2, Nat.add_assoc]⟩
  | entered _ henters hopens ih =>
    exact ⟨henters.ready ih.1, (henters.depth ih.1 hopens).trans ih.2⟩

end Frame

namespace Session
variable {p : Session}

/-- Probes leave no trace in the position and the depth of a session's states. The depth counts
the probes that are on, and only tokens inside of one are counted and can exhaust the budget. -/
structure Isolates (p : Session) : Prop where
  depth : p.state.depth = 0
  /-- A guard with all its probes, in any state that a call comes to, leaves the position and the
  depth, also if it ends the parse. -/
  probe : ∀ r n f, ReflTransGen (Frame.Enters p.env) (p.frame n r) f → ∀ g m,
    (Guard.decide p.env (Cmd.run p.env m) g f.state).outcome.state.index = f.state.index ∧
      (Guard.decide p.env (Cmd.run p.env m) g f.state).outcome.state.depth = f.state.depth
  nests : ∀ r n f, ReflTransGen (Frame.Enters p.env) (p.frame n r) f →
    Frame.Nests p.env (p.frame n r) f.state.depth f
  outside : ∀ r n f, Frame.Nests p.env (p.frame n r) 0 f →
    (f.state.shift p.env).state.speculated = f.state.speculated ∧
      (f.state.shift p.env).isExhausted = false
  inside : ∀ r n f k, Frame.Nests p.env (p.frame n r) (k + 1) f →
    (f.state.shift p.env).state.speculated = f.state.speculated + 1

theorem depth_perform (h : p.env.Ready p.state) (call : Request) :
    (p.perform call).session.state.depth = p.state.depth := by
  cases call with
  | entry e =>
    rw [perform, run_outcome]
    exact law_outcome p.env.depth_law h e.rule
  | expectEnd => rfl

theorem depth_after (h : p.env.Ready p.state) (calls : List Request) :
    (p.after calls).env.Ready (p.after calls).state ∧
      (p.after calls).state.depth = p.state.depth := by
  induction calls generalizing p with
  | nil => exact ⟨h, rfl⟩
  | cons call calls ih =>
    obtain ⟨hready, hdepth⟩ := ih (ready_perform h call)
    exact ⟨hready, hdepth.trans (depth_perform h call)⟩

theorem isolates (h : p.env.Ready p.state) (hdepth : p.state.depth = 0) : p.Isolates := by
  have hframe (r : Rule) (n : Nat) : p.env.Ready (p.frame n r).state := h.redraft _
  have hnests {r : Rule} {n k : Nat} {f : Frame} (hf : Frame.Nests p.env (p.frame n r) k f) :
      p.env.Ready f.state ∧ f.state.depth = k := by
    obtain ⟨hready, hk⟩ := hf.depth (hframe r n)
    exact ⟨hready, hk.trans ((congrArg (· + k) hdepth).trans (Nat.zero_add k))⟩
  constructor
  case depth => exact hdepth
  case probe =>
    intro r n f hf g m
    obtain ⟨k, hk⟩ := Frame.exists_nests hf
    exact ⟨g.index_decide (hnests hk).1 _, g.depth_decide (hnests hk).1 m⟩
  case nests =>
    intro r n f hf
    obtain ⟨k, hk⟩ := Frame.exists_nests hf
    rwa [(hnests hk).2]
  case outside =>
    intro r n f hf
    have hzero : f.state.depth = 0 := (hnests hf).2
    exact ⟨State.speculated_shift_outside hzero _, State.isExhausted_shift_outside hzero _⟩
  case inside =>
    intro r n f k hf
    have hpos : f.state.depth ≠ 0 := (hnests hf).2 ▸ Nat.succ_ne_zero k
    exact State.speculated_shift_inside hpos _

/-- Without a memo, a block statement asks at a name whether a local variable follows. -/
theorem nests_localVariable (n : Nat)
    (hmemo : p.env.options.memoize = false) (hname : p.env.stream.kindAt p.index = .ident) :
    ∃ s, Frame.Nests p.env (p.frame (n + 2) .blockStatement) 1
      ⟨n + 1, .part Probe.localVariable.fragment, s⟩ ∧ s.depth = p.state.depth + 1 := by
  let s := p.state.fresh p.env
  have hholds (ks : KindSet) :
      (Test.hereAny ks).holds p.env.stream s.index s.draft = ks.contains .ident :=
    congrArg ks.contains hname
  have hclass : (Test.here .kwClass).holds p.env.stream s.index s.draft = false := hholds _
  have hno : Grammar.localClassAhead.decide p.env (Cmd.run p.env (n + 1)) s = .answer false s := by
    rw [Guard.decide, Grammar.localClassAhead, Guard.settle, hclass, hholds]
    rfl
  have hask : Grammar.localVariableAhead.settle p.env s = .ask .localVariable s := by
    rw [Grammar.localVariableAhead, Guard.settle, hholds, State.consult, hmemo]
    rfl
  exact ⟨s.enterProbe p.env,
    .opened (.entered (.entered .here .rule (by rintro ⟨⟩)) (.branch hno) (by rintro ⟨⟩))
      (.branch hask), rfl⟩

end Session

/-- On a list that ends with the end of the source, probes are isolated in all sessions, whatever
was called before and however it ended. -/
theorem isolates_after (ts : TokenList) (options : ParseOptions) (i : Nat) (calls : List Request)
    (hend : ts.tokens.back?.map Token.kind = some .eof) (hi : i < ts.length) :
    ((Session.startAt ts options i).after calls).Isolates := by
  obtain ⟨hready, hdepth⟩ := Session.depth_after (Session.ready_startAt options hend hi) calls
  exact Session.isolates hready hdepth

/-- Without any budget the probe for a local variable ends the call at `a`. It is one level deep
there, and the next call starts from the same place outside of all probes. -/
theorem isolates_after_exhausted :
    let ts : TokenList :=
      { source := "a", tokens := #[⟨.ident, ⟨0, 1⟩, ⟨1, 1⟩⟩, ⟨.eof, ⟨1, 1⟩, ⟨1, 2⟩⟩] }
    let start := Session.startAt ts { memoize := false, speculationBudget := 0 } 0
    let p := start.after [.entry .statement]
    (start.perform (.entry .statement)).result.toBool = false ∧ p.Isolates ∧ p.index = 0 ∧
      ∃ s, Frame.Nests p.env (p.frame 3 .blockStatement) 1
        ⟨2, .part Probe.localVariable.fragment, s⟩ ∧ s.depth = 1 := by
  intro ts start p
  have hp : p.Isolates := isolates_after ts { memoize := false, speculationBudget := 0 } 0
    [.entry .statement] (by decide) (by decide)
  have hrun : (start.perform (.entry .statement)).result.toBool = false ∧ p.index = 0 := by
    rw [show p = _ from Session.after_singleton _ _]
    simp only [Session.perform, Session.run_eq]
    decide
  have henv : p.env = start.env := start.env_after _
  have hmemo : p.env.options.memoize = false := by
    rw [henv]
    rfl
  have hname : p.env.stream.kindAt p.index = .ident := by
    rw [henv, hrun.2]
    rfl
  obtain ⟨s, hs, hdepth⟩ := Session.nests_localVariable 1 hmemo hname
  exact ⟨hrun.1, hp, hrun.2, s, hs, by rw [hdepth, hp.depth]⟩

end JavaSyntax
