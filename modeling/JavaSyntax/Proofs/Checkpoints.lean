import JavaSyntax.Proofs.Coverage
import JavaSyntax.Stream.Cursor

/-!
# Checkpoints

Two cursors read one list, and calls on them follow each other in any order. A cursor goes back
to the checkpoints that it has made itself and to none of the other's. There is one exception: a
list without the end of the source has a last position behind all of its tokens, where a
checkpoint can be made but not gone back to.
-/

namespace JavaSyntax

namespace TokenList
variable {ts : TokenList} {i : Nat}

/-- Only tokens before the end of the source lie before the position. -/
def Reaches (ts : TokenList) (i : Nat) : Prop := ∀ k < i, ts.kindAt k ≠ .eof

/-- The position lies behind the last token of a list that has some. -/
def BareEnd (ts : TokenList) (i : Nat) : Prop := 0 < ts.length ∧ i = ts.length

theorem reaches_zero : ts.Reaches 0 := by
  intro k hk
  cases hk

theorem Reaches.succ (h : ts.Reaches i) (hi : ts.kindAt i ≠ .eof) : ts.Reaches (i + 1) := by
  intro k hk
  rcases Nat.lt_succ_iff_lt_or_eq.1 hk with hk | rfl
  · exact h k hk
  · exact hi

theorem Reaches.le (h : ts.Reaches i) : i ≤ ts.length := by
  refine Nat.le_of_not_lt fun hlt => h ts.length hlt ?_
  exact TokenStream.kindAt_of_length_le (s := .ofList ts) (Nat.le_refl _)

/-- The bare end is the one position behind the last index. -/
theorem Reaches.bareEnd_iff (h : ts.Reaches i) :
    ts.BareEnd i ↔ (TokenStream.ofList ts).lastIndex < i := by
  have hle := h.le
  rw [BareEnd]
  change _ ↔ ts.length - 1 < i
  omega

theorem Reaches.kind_ne_eof (h : ts.Reaches i) (hend : ts.BareEnd i) :
    ∀ t ∈ ts.tokens, t.kind ≠ .eof := by
  intro t ht
  obtain ⟨k, hk, rfl⟩ := Array.mem_iff_getElem.1 ht
  have hkind := h k (hend.2 ▸ hk)
  simpa [kindAt, hk] using hkind

end TokenList

namespace Cursor
variable {c d : Cursor} {ts : TokenList} {m : Checkpoint}

theorem consume_done {t : Token} (h : c.consume = .ok (t, d)) :
    d = { c with index := c.index + 1 } ∧ (c.stream.tokenAt c.index).kind ≠ .eof := by
  have hkind : (c.lookahead 1).kind ≠ .eof := by
    intro heof
    simp [consume, heof] at h
  simp only [consume, hkind, ↓reduceIte, Except.ok.injEq, Prod.mk.injEq] at h
  exact ⟨h.2.symm, hkind⟩

theorem restore_own (howner : m.owner = c.identity) (hindex : m.index ≤ c.stream.lastIndex) :
    c.restore m = .ok { c with index := m.index } := by
  rw [restore, if_neg]
  simp [howner, hindex]

theorem restore_invalid (h : m.owner ≠ c.identity ∨ c.stream.lastIndex < m.index) :
    ∃ e, c.restore m = .error e ∧ e.fault = .invalidCheckpoint := by
  rw [restore, if_pos h]
  exact ⟨_, rfl, rfl⟩

theorem restore_done (h : c.restore m = .ok d) : d = { c with index := m.index } := by
  rw [restore] at h
  split at h
  · cases h
  · cases h
    rfl

end Cursor

inductive Side where
  | left | right
  deriving DecidableEq, Repr, Inhabited

inductive CursorCall where
  | consume (on : Side)
  | mark (on : Side)
  /-- Goes back to the checkpoint of this number, counted from the first one made. -/
  | restore (on : Side) (number : Nat)
  deriving DecidableEq, Repr, Inhabited

/-- Two cursors, and the checkpoints made so far, each with the cursor that made it. -/
structure CursorPair where
  cursor : Side → Cursor
  marks : List (Side × Checkpoint) := []

namespace CursorPair

def start (ts : TokenList) (names : Side → Nat) : CursorPair where
  cursor side := .start (.ofList ts) (names side)

def move (p : CursorPair) (on : Side) (c : Cursor) : CursorPair :=
  { p with cursor := fun side => if side = on then c else p.cursor side }

/-- A call that fails leaves both cursors where they are. -/
def perform (p : CursorPair) : CursorCall → Except ParseError Unit × CursorPair
  | .consume on =>
    match (p.cursor on).consume with
    | .ok (_, c) => (.ok (), p.move on c)
    | .error e => (.error e, p)
  | .mark on => (.ok (), { p with marks := p.marks ++ [(on, (p.cursor on).mark)] })
  | .restore on number =>
    match p.marks[number]? with
    | none => (.ok (), p)
    | some (_, m) =>
      match (p.cursor on).restore m with
      | .ok c => (.ok (), p.move on c)
      | .error e => (.error e, p)

def after (p : CursorPair) (calls : List CursorCall) : CursorPair :=
  calls.foldl (fun p c => (p.perform c).2) p

/-- Cursors and checkpoints keep their names, and stand at positions that reading reaches. -/
structure Regular (ts : TokenList) (names : Side → Nat) (p : CursorPair) : Prop where
  stream : ∀ side, (p.cursor side).stream = .ofList ts
  identity : ∀ side, (p.cursor side).identity = names side
  reached : ∀ side, ts.Reaches (p.cursor side).index
  owner : ∀ m ∈ p.marks, m.2.owner = names m.1
  marked : ∀ m ∈ p.marks, ts.Reaches m.2.index

variable {ts : TokenList} {names : Side → Nat} {p : CursorPair}

theorem regular_start (ts : TokenList) (names : Side → Nat) :
    (start ts names).Regular ts names where
  stream _ := rfl
  identity _ := rfl
  reached _ := TokenList.reaches_zero
  owner _ hm := by cases hm
  marked _ hm := by cases hm

theorem Regular.move (h : p.Regular ts names) (on : Side) {i : Nat} (hi : ts.Reaches i) :
    (p.move on { p.cursor on with index := i }).Regular ts names where
  stream side := by
    by_cases hs : side = on
    · simp [CursorPair.move, hs, h.stream]
    · simp [CursorPair.move, hs, h.stream]
  identity side := by
    by_cases hs : side = on
    · simp [CursorPair.move, hs, h.identity]
    · simp [CursorPair.move, hs, h.identity]
  reached side := by
    by_cases hs : side = on
    · simpa [CursorPair.move, hs] using hi
    · simpa [CursorPair.move, hs] using h.reached side
  owner := h.owner
  marked := h.marked

theorem Regular.mark (h : p.Regular ts names) (on : Side) :
    Regular ts names { p with marks := p.marks ++ [(on, (p.cursor on).mark)] } where
  stream := h.stream
  identity := h.identity
  reached := h.reached
  owner m hm := by
    rcases List.mem_append.1 hm with hm | hm
    · exact h.owner m hm
    · rw [List.mem_singleton.1 hm]
      exact h.identity on
  marked m hm := by
    rcases List.mem_append.1 hm with hm | hm
    · exact h.marked m hm
    · rw [List.mem_singleton.1 hm]
      exact h.reached on

theorem Regular.perform (h : p.Regular ts names) (call : CursorCall) :
    (p.perform call).2.Regular ts names := by
  cases call with
  | consume on =>
    rw [CursorPair.perform]
    split
    · rename_i t c hc
      obtain ⟨rfl, hkind⟩ := Cursor.consume_done hc
      rw [h.stream, TokenStream.kind_tokenAt_ofList] at hkind
      exact h.move on ((h.reached on).succ hkind)
    · exact h
  | mark on => exact h.mark on
  | restore on number =>
    rw [CursorPair.perform]
    split
    · exact h
    · rename_i maker m hm
      split
      · rename_i c hc
        rw [Cursor.restore_done hc]
        exact h.move on (h.marked _ (List.mem_of_getElem? hm))
      · exact h

theorem Regular.after (h : p.Regular ts names) (calls : List CursorCall) :
    (p.after calls).Regular ts names := by
  induction calls generalizing p with
  | nil => exact h
  | cons call calls ih => exact ih (h.perform call)

/-- A cursor of a regular pair goes back to its own checkpoints, the bare end apart. -/
theorem Regular.restore_own (h : p.Regular ts names) {on : Side} {number : Nat} {m : Checkpoint}
    (hm : p.marks[number]? = some (on, m)) (hend : ¬ts.BareEnd m.index) :
    p.perform (.restore on number) = (.ok (), p.move on { p.cursor on with index := m.index }) := by
  have hmem := List.mem_of_getElem? hm
  have howner : m.owner = (p.cursor on).identity := (h.owner _ hmem).trans (h.identity on).symm
  have hindex : m.index ≤ (p.cursor on).stream.lastIndex := by
    rw [h.stream]
    exact Nat.le_of_not_lt fun hlt => hend ((h.marked _ hmem).bareEnd_iff.2 hlt)
  simp [CursorPair.perform, hm, Cursor.restore_own howner hindex]

/-- It stays where it is when asked for one of the other's, or for the bare end. -/
theorem Regular.restore_invalid (h : p.Regular ts names) (hnames : names .left ≠ names .right)
    {on maker : Side} {number : Nat} {m : Checkpoint}
    (hm : p.marks[number]? = some (maker, m)) (hno : maker ≠ on ∨ ts.BareEnd m.index) :
    ∃ e, p.perform (.restore on number) = (.error e, p) ∧ e.fault = .invalidCheckpoint := by
  have hmem := List.mem_of_getElem? hm
  have hinvalid : m.owner ≠ (p.cursor on).identity ∨ (p.cursor on).stream.lastIndex < m.index := by
    rw [h.stream, h.identity, h.owner _ hmem]
    refine hno.imp (fun hne => ?_) (h.marked _ hmem).bareEnd_iff.1
    cases maker <;> cases on <;> simp_all [hnames.symm]
  obtain ⟨e, he, hfault⟩ := Cursor.restore_invalid hinvalid
  exact ⟨e, by simp [CursorPair.perform, hm, he], hfault⟩

end CursorPair

/-- Behind any calls on two cursors, going back to a checkpoint sets the index to the
checkpoint's if the cursor itself has made it and not at a bare end. Otherwise it is refused and
moves nothing. A list that holds the end of the source has no bare end to be reached. -/
theorem restore_made (ts : TokenList) (names : Side → Nat) (hnames : names .left ≠ names .right)
    (calls : List CursorCall) (on maker : Side) (number : Nat) (m : Checkpoint)
    (hm : ((CursorPair.start ts names).after calls).marks[number]? = some (maker, m)) :
    let p := (CursorPair.start ts names).after calls
    (maker = on ∧ ¬ts.BareEnd m.index → p.perform (.restore on number) =
      (.ok (), p.move on { p.cursor on with index := m.index })) ∧
    (maker ≠ on ∨ ts.BareEnd m.index → ∃ e, p.perform (.restore on number) = (.error e, p) ∧
      e.fault = .invalidCheckpoint) ∧
    (ts.BareEnd m.index → ∀ t ∈ ts.tokens, t.kind ≠ .eof) := by
  intro p
  have h : p.Regular ts names := (CursorPair.regular_start ts names).after calls
  refine ⟨?_, h.restore_invalid hnames hm, ?_⟩
  · rintro ⟨rfl, hend⟩
    exact h.restore_own hm hend
  · exact (h.marked _ (List.mem_of_getElem? hm)).kind_ne_eof

/-- On `a b` with the end of the source, the left cursor marks the end and reads no further. It
goes back there, and the right one does not. -/
theorem restore_made_end :
    let ts : TokenList :=
      { source := "a b"
        tokens := #[⟨.ident, ⟨0, 1⟩, ⟨1, 1⟩⟩, ⟨.ident, ⟨2, 3⟩, ⟨1, 3⟩⟩, ⟨.eof, ⟨3, 3⟩, ⟨1, 4⟩⟩] }
    let names : Side → Nat := fun side => if side = .left then 1 else 2
    let p := (CursorPair.start ts names).after
      [.mark .left, .consume .left, .consume .left, .mark .left, .restore .left 0]
    p.marks[1]? = some (.left, ⟨1, 2⟩) ∧
      p.perform (.restore .left 1) = (.ok (), p.move .left { p.cursor .left with index := 2 }) ∧
      ∃ e, p.perform (.restore .right 1) = (.error e, p) ∧ e.fault = .invalidCheckpoint := by
  intro ts names p
  have hm : p.marks[1]? = some (.left, ⟨1, 2⟩) := by decide
  have hend : ¬ts.BareEnd 2 := by simp [TokenList.BareEnd, TokenList.length, ts]
  have hmade := fun on => restore_made ts names (by decide) _ on .left 1 ⟨1, 2⟩ hm
  exact ⟨hm, (hmade .left).1 ⟨rfl, hend⟩, (hmade .right).2.1 (.inl (by decide))⟩

/-- A cursor need not go back to its own checkpoint: on the one name `a` without the end of the
source, it reads the name, marks its position and cannot go back to it. -/
theorem not_restore_own :
    ¬∀ (ts : TokenList) (names : Side → Nat), names .left ≠ names .right →
      ∀ (calls : List CursorCall) (on : Side) (number : Nat) (m : Checkpoint),
        ((CursorPair.start ts names).after calls).marks[number]? = some (on, m) →
        (((CursorPair.start ts names).after calls).perform (.restore on number)).1 = .ok () := by
  intro h
  have hok := h { source := "a", tokens := #[⟨.ident, ⟨0, 1⟩, ⟨1, 1⟩⟩] }
    (fun side => if side = .left then 1 else 2) (by decide) [.consume .left, .mark .left] .left 0
    ⟨1, 1⟩ (by decide)
  have hbool := congrArg Except.toBool hok
  revert hbool
  decide

end JavaSyntax
