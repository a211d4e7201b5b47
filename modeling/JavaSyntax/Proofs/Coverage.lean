import JavaSyntax.Proofs.Sessions
import JavaSyntax.Tree.Walk

/-!
# Token coverage

A command puts into the draft exactly the tokens that it reads, in order and each once, and it
never reads the end of the source. So the leaves of a rule's tree are the tokens between the
positions before and after the call, and those of a whole parse are all tokens up to the end.
-/

namespace JavaSyntax

def Token.entry (t : Token) : TokenKind × Span := (t.kind, t.span)

namespace TokenList

/-- Kinds and spans of the tokens from index `i` up to `j`. -/
def between (ts : TokenList) (i j : Nat) : List (TokenKind × Span) :=
  ((ts.tokens.toList.drop i).take (j - i)).map Token.entry

/-- Kinds and spans of the tokens before the first end of the source. -/
def beforeEnd (ts : TokenList) : List (TokenKind × Span) :=
  (ts.tokens.toList.takeWhile fun t => t.kind ≠ .eof).map Token.entry

end TokenList

namespace TokenStream
variable (s : TokenStream)

/-- What is read from index `i` on, `n` tokens long. -/
def reading (i n : Nat) : List (TokenKind × Span) :=
  (List.range' i n).map fun k => (s.tokenAt k).entry

theorem reading_append (i m n : Nat) :
    s.reading i m ++ s.reading (i + m) n = s.reading i (m + n) := by
  simp [reading, ← List.map_append, List.range'_append_1]

end TokenStream

/-- From the place on, the ending has read tokens but no end of the source, and it has put them
into the draft. -/
structure Ending.Covers (s : TokenStream) (p : Place) (o : Ending) : Prop where
  index_le : p.index ≤ o.index
  kind_ne : ∀ k, p.index ≤ k → k < o.index → (s.tokenAt k).kind ≠ .eof
  leaves : ∀ q, o = .done q → Tree.forestLeaves q.draft.forest =
    Tree.forestLeaves p.draft.forest ++ s.reading p.index (q.index - p.index)

namespace Ending.Covers
variable {s : TokenStream} {p q : Place} {o : Ending}

theorem stay (p : Place) : Covers s p (.done p) where
  index_le := Nat.le_refl _
  kind_ne := by
    intro k h h'
    exact absurd h' (Nat.not_lt.2 h)
  leaves := by
    rintro q hq
    cases hq
    simp [TokenStream.reading]

theorem fail (e : ParseError) : Covers s p (.failed e p.index) where
  index_le := Nat.le_refl _
  kind_ne := by
    intro k h h'
    exact absurd h' (Nat.not_lt.2 h)
  leaves := by simp

theorem trans (h : Covers s p (.done q)) (h' : Covers s q o) : Covers s p o where
  index_le := Nat.le_trans h.index_le h'.index_le
  kind_ne := by
    intro k hp ho
    rcases Nat.lt_or_ge k q.index with hk | hk
    · exact h.kind_ne k hp hk
    · exact h'.kind_ne k hk ho
  leaves := by
    rintro m rfl
    have hpq : p.index ≤ q.index := h.index_le
    have hqm : q.index ≤ m.index := h'.index_le
    have hq : q.index = p.index + (q.index - p.index) := by omega
    have hm : m.index - p.index = (q.index - p.index) + (m.index - q.index) := by omega
    rw [h'.leaves m rfl, h.leaves q rfl, List.append_assoc, hm, ← s.reading_append, ← hq]

end Ending.Covers

theorem Cmd.Ends.covers {s : TokenStream} {strict : Bool}
    {calls : Rule → Place → Ending → Prop} {c : Cmd} {p : Place} {o : Ending}
    (hcalls : ∀ r p o, calls r p o → o.Covers s p) (h : Cmd.Ends s strict calls c p o) :
    o.Covers s p := by
  induction h with
  | skip => exact .stay _
  | @shift p h =>
    refine ⟨Nat.le_succ _, ?_, ?_⟩
    · intro k hk hk'
      have : k = p.index := Nat.le_antisymm (Nat.le_of_lt_succ hk') hk
      rwa [this]
    · rintro q hq
      cases hq
      simp [TokenStream.reading, Token.entry, Tree.forestLeaves, Tree.leaves]
  | shiftEnd => exact .fail _
  | fail => exact .fail _
  | seq _ _ iha ihb => exact iha.trans ihb
  | seqFail _ ih => exact ih
  | known _ _ ih => exact ih
  | asked _ _ _ _ _ ih => exact ih
  | aborted => exact .fail _
  | loop _ ih => exact ih
  | @nest body p q _ ih =>
    refine ⟨ih.index_le, ih.kind_ne, ?_⟩
    rintro m hm
    cases hm
    have hq : Tree.forestLeaves q.draft.forest = s.reading p.index (q.index - p.index) :=
      ih.leaves q rfl
    simp only [Draft.forest_adopt, Tree.forestLeaves_append, hq]
  | nestFail _ ih => exact ⟨ih.index_le, ih.kind_ne, by simp⟩
  | jump h => exact hcalls _ _ _ h
  | dispatch _ h => exact hcalls _ _ _ h
  | dispatchFail => exact .fail _
  | close =>
    refine ⟨Nat.le_refl _, (Ending.Covers.stay (s := s) _).kind_ne, ?_⟩
    rintro q hq
    cases hq
    simp [Draft.leaves_close, TokenStream.reading]
  | wrap =>
    refine ⟨Nat.le_refl _, (Ending.Covers.stay (s := s) _).kind_ne, ?_⟩
    rintro q hq
    cases hq
    simp [Draft.leaves_wrap, TokenStream.reading]

theorem Rule.Ends.covers {s : TokenStream} {strict : Bool} {r : Rule} {p : Place} {o : Ending}
    (h : Rule.Ends s strict r p o) : o.Covers s p :=
  h.induct fun _ _ _ h => h.covers fun _ _ _ h => h.2

namespace Tree

mutual

theorem filterMap_events (t : Tree) : t.events.filterMap Event.entry? = t.leaves := by
  cases t with
  | leaf k s => rfl
  | node k s cs =>
    rw [events, List.filterMap_cons_none rfl, List.filterMap_append, filterMap_forestEvents cs]
    exact List.append_nil _

theorem filterMap_forestEvents (ts : Forest) :
    (forestEvents ts).filterMap Event.entry? = forestLeaves ts := by
  cases ts with
  | nil => rfl
  | cons t ts => simp [forestEvents, forestLeaves, filterMap_events t, filterMap_forestEvents ts]

end

theorem tokens_eq_leaves (t : Tree) : t.tokens = t.leaves := by
  rw [tokens, preorder_eq, filterMap_events]

end Tree

namespace TokenStream
variable (ts : TokenList)

theorem kind_past_ofList : (ofList ts).past.kind = .eof := by
  unfold ofList
  dsimp only
  split
  · split
    · assumption
    · rfl
  · rfl

theorem kind_tokenAt_ofList (i : Nat) : ((ofList ts).tokenAt i).kind = (ofList ts).kindAt i := by
  unfold tokenAt kindAt TokenList.kindAt
  rw [list_ofList]
  cases ts.tokens[i]? with
  | none => exact kind_past_ofList ts
  | some t => rfl

variable {ts}

theorem reading_ofList {i n : Nat}
    (h : ∀ k, i ≤ k → k < i + n → ((ofList ts).tokenAt k).kind ≠ .eof) :
    (ofList ts).reading i n = ts.between i (i + n) ∧ ((ofList ts).reading i n).length = n := by
  refine ⟨?_, by simp [reading]⟩
  rw [reading, TokenList.between, Nat.add_sub_cancel_left]
  induction n generalizing i with
  | zero => simp
  | succ n ih =>
    have hi : i < ts.tokens.toList.length := by
      have hk := h i (Nat.le_refl i) (by omega)
      rw [kind_tokenAt_ofList] at hk
      exact lt_length_of_kindAt hk
    have ht : (ofList ts).tokenAt i = ts.tokens.toList[i] := by
      have hs : i < ts.tokens.size := hi
      simp [tokenAt, hs]
    have hn := ih (i := i + 1) fun k hk hk' => h k (by omega) (by omega)
    rw [List.range'_succ, List.map_cons, hn, ht, List.drop_eq_getElem_cons hi, List.take_succ_cons,
      List.map_cons]

end TokenStream

theorem TokenList.beforeEnd_eq {ts : TokenList} {j : Nat}
    (h : ∀ k, k < j → ((TokenStream.ofList ts).tokenAt k).kind ≠ .eof) (hj : ts.kindAt j = .eof) :
    ts.beforeEnd = ts.between 0 j := by
  have hlt (k : Nat) (hk : k < j) : ts.kindAt k ≠ .eof := by
    have := h k hk
    rwa [TokenStream.kind_tokenAt_ofList] at this
  have hfront : ∀ t ∈ ts.tokens.toList.take j, decide (t.kind ≠ .eof) = true := by
    intro t ht
    obtain ⟨k, hk, hkt⟩ := List.mem_take_iff_getElem.1 ht
    have := hlt k (by omega)
    simp only [TokenList.kindAt] at this
    grind
  have hback : (ts.tokens.toList.drop j).takeWhile (fun t => decide (t.kind ≠ .eof)) = [] := by
    rcases Nat.lt_or_ge j ts.tokens.toList.length with hl | hl
    · rw [List.drop_eq_getElem_cons hl]
      have hs : j < ts.tokens.size := hl
      have hk : ts.tokens[j].kind = .eof := by simpa [TokenList.kindAt, hs] using hj
      simp [hk]
    · rw [List.drop_eq_nil_of_le hl, List.takeWhile_nil]
  unfold TokenList.beforeEnd TokenList.between
  rw [← List.take_append_drop j ts.tokens.toList, List.takeWhile_append_of_pos hfront, hback]
  simp

namespace Session
variable {p : Session} {ts : TokenList} {e : Entry} {t : Tree}

/-- A call that succeeds reads no end of the source, and its tree has what it reads as leaves. -/
theorem Sound.covers (h : p.Sound) (hp : p.env.stream = .ofList ts)
    (ht : (p.run e.rule).1 = .ok t) :
    p.index ≤ (p.run e.rule).2.index ∧
      (∀ k, p.index ≤ k → k < (p.run e.rule).2.index →
        ((TokenStream.ofList ts).tokenAt k).kind ≠ .eof) ∧
      t.tokens = (TokenStream.ofList ts).reading p.index ((p.run e.rule).2.index - p.index) := by
  obtain ⟨q, hends, hi, hitems⟩ := h.ends_of_ok e.rule_ne_emptyMember ht
  have hc := hends.covers
  rw [hp] at hc
  rw [← hi]
  refine ⟨hc.index_le, hc.kind_ne, ?_⟩
  have hl := hc.leaves q rfl
  rw [Tree.tokens_eq_leaves]
  simpa [Draft.forest, hitems, Tree.forestLeaves, TokenStream.fresh, Ending.index] using hl

theorem kindAt_of_expectEnd (h : p.expectEnd = .ok ()) : p.env.stream.kindAt p.index = .eof := by
  unfold expectEnd at h
  split at h
  · assumption
  · cases h

end Session

/-- Behind any calls, the tree of a call has as leaves the tokens from where the session stood up
to where it stands now, each once and in order. That of a whole parse has all tokens before the
first end of the source. -/
theorem tokens_of_calls (ts : TokenList) (options : ParseOptions) (i : Nat)
    (calls : List Request) (e : Entry) (t : Tree) :
    let p := (Session.startAt ts options i).after calls
    ((p.run e.rule).1 = .ok t →
      p.index ≤ (p.run e.rule).2.index ∧
        t.tokens = ts.between p.index (p.run e.rule).2.index ∧
        t.tokens.length = (p.run e.rule).2.index - p.index) ∧
      (parse e ts options = .ok t → t.tokens = ts.beforeEnd) := by
  intro p
  constructor
  · intro ht
    have hs : p.Sound := (Session.sound_startAt ts options i).after calls
    have hp : p.env.stream = .ofList ts := congrArg Setting.stream (Session.env_after _ calls)
    obtain ⟨hle, hkind, hread⟩ := hs.covers hp ht
    have hj : p.index + ((p.run e.rule).2.index - p.index) = (p.run e.rule).2.index := by omega
    obtain ⟨hb, hn⟩ := TokenStream.reading_ofList (n := (p.run e.rule).2.index - p.index)
      fun k hk hk' => hkind k hk (by omega)
    rw [hj] at hb
    exact ⟨hle, hread.trans hb, by rw [hread, hn]⟩
  · intro ht
    obtain ⟨hrun, hend⟩ := parse_eq_ok.1 ht
    have hs : (Session.start ts options).Sound := Session.sound_startAt ts options 0
    obtain ⟨-, hkind, hread⟩ := hs.covers rfl hrun
    have hend := Session.kindAt_of_expectEnd hend
    rw [Session.env_run] at hend
    rw [TokenList.beforeEnd_eq (fun k hk => hkind k (Nat.zero_le k) hk) hend, hread]
    have hb := TokenStream.reading_ofList (i := 0)
      (n := ((Session.start ts options).run e.rule).2.index) fun k hk hk' => hkind k hk (by omega)
    rw [Nat.zero_add] at hb
    exact hb.1

/-- Three tokens before the first of two ends make one tree. -/
theorem tokens_of_parenthesized :
    let ts : TokenList :=
      { source := "(a) b"
        tokens := #[⟨.lparen, ⟨0, 1⟩, ⟨1, 1⟩⟩, ⟨.ident, ⟨1, 2⟩, ⟨1, 2⟩⟩, ⟨.rparen, ⟨2, 3⟩, ⟨1, 3⟩⟩,
          ⟨.eof, ⟨3, 3⟩, ⟨1, 4⟩⟩, ⟨.ident, ⟨4, 5⟩, ⟨1, 5⟩⟩, ⟨.eof, ⟨5, 5⟩, ⟨1, 6⟩⟩] }
    let p := (Session.startAt ts {} 0).after [.expectEnd]
    let t : Tree := .node .parenthesized ⟨0, 3⟩
      [.leaf .lparen ⟨0, 1⟩, .node .name ⟨1, 2⟩ [.leaf .ident ⟨1, 2⟩], .leaf .rparen ⟨2, 3⟩]
    (p.run .expression).1 = .ok t ∧ parse .expression ts = .ok t ∧
      t.tokens = ts.between 0 3 ∧ t.tokens = ts.beforeEnd := by
  intro ts p t
  have hrun : (p.run .expression).1 = .ok t ∧ (p.run .expression).2.index = 3 := by
    rw [Session.run_eq]
    decide +kernel
  have hparse : parse .expression ts = .ok t := by
    rw [parse_eq_ok, Session.run_eq]
    decide +kernel
  obtain ⟨hcall, hwhole⟩ := tokens_of_calls ts {} 0 [.expectEnd] .expression t
  obtain ⟨-, htokens, -⟩ := hcall hrun.1
  have htokens : t.tokens = ts.between 0 (p.run .expression).2.index := htokens
  rw [hrun.2] at htokens
  exact ⟨hrun.1, hparse, htokens, hwhole hparse⟩

end JavaSyntax
