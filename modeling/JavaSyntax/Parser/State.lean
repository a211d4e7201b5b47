import JavaSyntax.Grammar.Command
import JavaSyntax.Parser.Memo
import JavaSyntax.Parser.Options

/-!
# Parser states

What a parse carries along: the position, what the probes have found out and cost, and the draft
of the current node. Tokens read inside a probe are charged to the budget, and whatever a probe
comes to, the position goes back to where it started.
-/

namespace JavaSyntax

/-- What stays fixed during a parse. -/
structure Setting where
  stream : TokenStream
  options : ParseOptions

structure State where
  index : Nat := 0
  memo : PredictionMemo := {}
  /-- The tokens consumed inside probes so far. -/
  speculated : Nat := 0
  /-- The number of probes around the current command. -/
  depth : Nat := 0
  draft : Draft := { start := 0 }

inductive Outcome where
  | done (s : State)
  | failed (e : ParseError) (s : State)

/-- A guard's answer, or the probe that it takes to find it. -/
inductive Verdict where
  | known (answer : Bool) (s : State)
  | ask (probe : Probe) (s : State)

/-- A guard's answer after all probes, unless one of them ended the parse. -/
inductive Ruling where
  | answer (accepted : Bool) (s : State)
  | abort (e : ParseError) (s : State)

def Outcome.state : Outcome → State
  | done s => s
  | failed _ s => s

namespace State

def token (s : State) (env : Setting) : Token := env.stream.tokenAt s.index

def errorHere (s : State) (env : Setting) (fault : ParseFault) : ParseError :=
  { fault, span := (s.token env).span, tokenIndex := s.index }

def unexpected (s : State) (env : Setting) (expected : KindSet) (remark : Option Remark) :
    ParseError :=
  { ParseError.unexpected expected (s.token env) s.index with remark }

/-- Moves the current token into the draft. The end of the source stays. -/
def read (s : State) (env : Setting) : Outcome :=
  let token := s.token env
  if token.kind = .eof then .failed (s.unexpected env ∅ none) s
  else .done { s with index := s.index + 1, draft := s.draft.push (.leaf token.kind token.span) }

/-- Reads a token, and counts it first if a probe is on. -/
def shift (s : State) (env : Setting) : Outcome :=
  if s.depth = 0 then s.read env
  else
    let s := { s with speculated := s.speculated + 1 }
    if env.options.speculationBudget < s.speculated then
      .failed (s.errorHere env (.budgetExceeded env.options.speculationBudget)) s
    else s.read env

def advance (s : State) (env : Setting) : State :=
  { s with
    index := s.index + 1, draft := s.draft.push (.leaf (s.token env).kind (s.token env).span) }

/-- The state with one more token counted, if a probe is on. -/
def counted (s : State) : State :=
  { s with speculated := s.speculated + if s.depth = 0 then 0 else 1 }

theorem read_cases (s : State) (env : Setting) :
    (s.token env).kind = .eof ∧ s.read env = .failed (s.unexpected env ∅ none) s ∨
      (s.token env).kind ≠ .eof ∧ s.read env = .done (s.advance env) := by
  by_cases he : (s.token env).kind = .eof
  · exact .inl ⟨he, if_pos he⟩
  · exact .inr ⟨he, if_neg he⟩

/-- All that a shift can do: run out of the budget, stay at the end, or read the token. -/
theorem shift_cases (s : State) (env : Setting) :
    (s.depth ≠ 0 ∧ env.options.speculationBudget < s.speculated + 1 ∧ s.shift env =
        .failed (s.errorHere env (.budgetExceeded env.options.speculationBudget)) s.counted) ∨
      (s.depth ≠ 0 → s.speculated + 1 ≤ env.options.speculationBudget) ∧
        ((s.token env).kind = .eof ∧ s.shift env = .failed (s.unexpected env ∅ none) s.counted ∨
          (s.token env).kind ≠ .eof ∧ s.shift env = .done (s.counted.advance env)) := by
  by_cases hd : s.depth = 0
  · have hcounted : s.counted = s := by
      rw [counted, if_pos hd]
      rfl
    rw [shift, if_pos hd, hcounted]
    exact .inr ⟨absurd hd, s.read_cases env⟩
  · have hcounted : s.counted = { s with speculated := s.speculated + 1 } := by
      rw [counted, if_neg hd]
    rw [shift, if_neg hd, hcounted]
    dsimp only
    by_cases hb : env.options.speculationBudget < s.speculated + 1
    · exact .inl ⟨hd, hb, if_pos hb⟩
    · rw [if_neg hb]
      refine .inr ⟨fun _ => Nat.le_of_not_lt hb, ?_⟩
      exact read_cases { s with speculated := s.speculated + 1 } env

theorem state_shift (s : State) (env : Setting) : (s.shift env).state = s.counted ∨
    (s.token env).kind ≠ .eof ∧ (s.shift env).state = s.counted.advance env := by
  obtain ⟨-, -, h⟩ | ⟨-, ⟨-, h⟩ | ⟨he, h⟩⟩ := s.shift_cases env <;> rw [h]
  · exact .inl rfl
  · exact .inl rfl
  · exact .inr ⟨he, rfl⟩

theorem speculated_shift (s : State) (env : Setting) :
    (s.shift env).state.speculated = s.counted.speculated := by
  obtain h | ⟨-, h⟩ := s.state_shift env <;> rw [h]
  rfl

@[simp] theorem memo_shift (s : State) (env : Setting) : (s.shift env).state.memo = s.memo := by
  obtain h | ⟨-, h⟩ := s.state_shift env <;> rw [h] <;> rfl

theorem depth_shift (s : State) (env : Setting) : (s.shift env).state.depth = s.depth := by
  obtain h | ⟨-, h⟩ := s.state_shift env <;> rw [h] <;> rfl

/-- The same state with an empty draft at the current token. -/
def fresh (s : State) (env : Setting) : State :=
  { s with draft := { start := (s.token env).span.start } }

def enterProbe (s : State) (env : Setting) : State :=
  { s.fresh env with depth := s.depth + 1 }

/-- Asks for a probe here, unless its result is known. -/
def consult (s : State) (env : Setting) (p : Probe) : Verdict :=
  if env.options.memoize then
    match s.memo.get p s.index with
    | (some r, memo) => .known r.accepted { s with memo }
    | (none, _) => .ask p s
  else .ask p s

def remember (s : State) (env : Setting) (p : Probe) (r : ProbeResult) : State :=
  if env.options.memoize then { s with memo := s.memo.insert p s.index r } else s

/-- Ends a probe that started at `start` with the given draft: the position goes back, and an
error in the input becomes a no. Without a token at `start` there is no way back. -/
def conclude (env : Setting) (p : Probe) (start : Nat) (outer : Draft) (o : Outcome) : Ruling :=
  let reached := o.state.index
  let s := { o.state with depth := o.state.depth - 1, draft := outer }
  if env.stream.lastIndex < start then .abort (s.errorHere env .invalidCheckpoint) s
  else
    let s := { s with index := start }
    match o with
    | .done _ => .answer true (s.remember env p ⟨true, reached⟩)
    | .failed e _ =>
      if e.isFatal then .abort e s else .answer false (s.remember env p ⟨false, reached⟩)

end State

namespace Guard

/-- The answer as far as it can be given without a probe. -/
def settle (env : Setting) (s : State) : Guard → Verdict
  | test t => .known (t.holds env.stream s.index s.draft) s
  | trial sure possible p =>
    if sure.holds env.stream s.index s.draft then .known true s
    else if possible.holds env.stream s.index s.draft then s.consult env p
    else .known false s
  | typeHead p =>
    let bracket := env.stream.nameEnd s.index
    if env.stream.kindAt bracket = .less then
      let (mayBe, memo) := s.memo.mayBeTypePrefix env.stream bracket
      let s := { s with memo }
      if mayBe then s.consult env p else .known false s
    else .known false s

theorem probe?_eq_of_settle {env : Setting} {s s' : State} {g : Guard} {p : Probe}
    (h : g.settle env s = .ask p s') : g.probe? = some p := by
  have hc {t : State} {q : Probe} (h : t.consult env q = .ask p s') : q = p := by
    unfold State.consult at h
    split at h
    · split at h <;> simp_all
    · simp_all
  cases g with
  | test t => simp [settle] at h
  | trial sure possible q =>
    simp only [settle] at h
    split at h
    · simp at h
    · split at h
      · simp [probe?, hc h]
      · simp at h
  | typeHead q =>
    simp only [settle] at h
    split at h
    · split at h
      · simp [probe?, hc h]
      · simp at h
    · simp at h

end Guard
end JavaSyntax
