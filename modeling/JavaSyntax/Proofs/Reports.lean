import JavaSyntax.Proofs.Accounts
import JavaSyntax.Proofs.Failures
import JavaSyntax.Proofs.Lexing
import JavaSyntax.Proofs.Locating

/-!
# Where errors are reported

A run that fails names a token: its error has the index and the span of a token of the list, and
the kind that it complains about is that of this token. A rendered error looks the span up again,
which gives the location that the token or the lexical error has.
-/

namespace JavaSyntax

/-- The error lies at a token of the list, and the kind that it names is that of the token. -/
structure ParseError.Pinned (s : TokenStream) (e : ParseError) : Prop where
  index_le : e.tokenIndex ≤ s.lastIndex
  span : e.span = (s.tokenAt e.tokenIndex).span
  found : ∀ k, e.fault.found? = some k → (s.tokenAt e.tokenIndex).kind = k

theorem ParseFault.found?_ofFound {expected : KindSet} {found k : TokenKind}
    (h : (ofFound expected found).found? = some k) : found = k := by
  unfold ofFound at h
  split at h
  · cases h
  · exact Option.some.inj h

section
variable {env : Setting} {n : Nat} {s : State}

theorem TokenStream.pinned_unexpected {s : TokenStream} {i : Nat} (hi : i ≤ s.lastIndex)
    (expected : KindSet) (remark : Option Remark) :
    ({ ParseError.unexpected expected (s.tokenAt i) i with remark } : ParseError).Pinned s :=
  ⟨hi, rfl, fun _ => ParseFault.found?_ofFound⟩

theorem State.pinned_errorHere {fault : ParseFault} (hi : s.index ≤ env.stream.lastIndex)
    (hfault : fault.found? = none) : (s.errorHere env fault).Pinned env.stream where
  index_le := hi
  span := rfl
  found k hk := by cases hfault.symm.trans hk

theorem State.pinned_shift (hi : s.index ≤ env.stream.lastIndex) :
    (s.shift env).Fails (ParseError.Pinned env.stream) := by
  obtain ⟨-, -, h⟩ | ⟨-, ⟨-, h⟩ | ⟨-, h⟩⟩ := s.shift_cases env <;> rw [h]
  · exact State.pinned_errorHere hi rfl
  · exact TokenStream.pinned_unexpected hi _ _
  · trivial

theorem Table.pinned_of_decide {t : Table} {s : TokenStream} {strict : Bool} {i : Nat}
    {e : ParseError} (hi : i ≤ s.lastIndex) (h : t.decide s strict i = .error e) : e.Pinned s := by
  obtain ⟨labels, -, rfl⟩ | ⟨-, -, rfl⟩ := decide_error h
  · exact ⟨hi, rfl, nofun⟩
  · exact TokenStream.pinned_unexpected hi _ none

theorem Setting.keeps_ready (env : Setting) (n : Nat) : env.Keeps (Cmd.run env n) env.Ready where
  exec h ht := h.exec ht
  decide h ht := h.decide ht
  probe h hask := (h.settle hask).enterProbe
  fresh h := h.redraft _

theorem Setting.makes_pinned (env : Setting) :
    env.Makes env.Ready (ParseError.Pinned env.stream) where
  shift h := State.pinned_shift h.index_le
  fail h expected remark := TokenStream.pinned_unexpected h.index_le expected remark
  table h he := Table.pinned_of_decide h.index_le he
  checkpoint h _ hlt := absurd h.index_le (Nat.not_le_of_gt hlt)

/-- Every run that fails names a token of the list. -/
theorem Cmd.pinned_run (n : Nat) (c : Cmd) (h : env.Ready s) :
    (c.run env n s).Fails (ParseError.Pinned env.stream) := by
  induction n generalizing c s with
  | zero => exact State.pinned_errorHere h.index_le rfl
  | succ n ih => exact fails_exec (env.keeps_ready n) env.makes_pinned (fun c _ h => ih c h) c h

end

namespace Session
variable {p : Session} {r : Rule} {e : ParseError}

theorem Ready.outcome (h : p.env.Ready p.state) (r : Rule) :
    p.env.Ready (p.outcome r).state where
  closed := h.closed
  index_le := (p.env.index_law h.closed).run p.levels r.body (h.redraft _) h.index_le
  trusts := (Cmd.derived_run p.env p.levels r.body (s := p.state.fresh p.env) h.trusts).memo

theorem pinned_run (h : p.env.Ready p.state) (he : (p.run r).1 = .error e) :
    e.Pinned p.env.stream := by
  have hpinned : (p.outcome r).Fails (ParseError.Pinned p.env.stream) :=
    Cmd.pinned_run p.levels r.body (h.redraft _)
  have hready := Ready.outcome h r
  rw [run_outcome] at he
  generalize p.outcome r = o at *
  cases o with
  | failed e' t =>
    cases he
    exact hpinned
  | done t =>
    simp only [Outcome.reply, treeOf] at he
    split at he
    · cases he
    · cases he
      exact State.pinned_errorHere hready.index_le rfl

theorem pinned_expectEnd (h : p.env.Ready p.state) (he : p.expectEnd = .error e) :
    e.Pinned p.env.stream := by
  unfold expectEnd at he
  split at he
  · cases he
  · cases he
    exact TokenStream.pinned_unexpected h.index_le _ none

end Session

theorem TokenList.length_pos {ts : TokenList}
    (hend : ts.tokens.back?.map Token.kind = some .eof) : 0 < ts.length := by
  rw [TokenList.length, Array.size_pos_iff]
  rintro hnil
  rw [hnil] at hend
  cases hend

theorem pinned_parse {entry : Entry} {ts : TokenList} {options : ParseOptions} {e : ParseError}
    (hend : ts.tokens.back?.map Token.kind = some .eof) (h : parse entry ts options = .error e) :
    e.Pinned (.ofList ts) := by
  have hready := Session.ready_startAt options hend (TokenList.length_pos hend)
  obtain hrun | ⟨-, hlast⟩ := parse_eq_error.1 h
  · exact Session.pinned_run hready hrun
  · have hafter := Session.Ready.outcome hready entry.rule
    change ((Session.startAt ts options 0).run entry.rule).2.expectEnd = .error e at hlast
    rw [Session.run_outcome] at hlast
    exact Session.pinned_expectEnd hafter hlast

theorem LexError.labels_diagnostic (e : LexError) :
    e.diagnostic.labels = [⟨e.span, e.fault.remark, true⟩] := by
  unfold diagnostic
  dsimp only
  split <;> rfl

theorem ParseError.labels_diagnostic (e : ParseError) :
    e.diagnostic.labels = [⟨e.span, e.fault.remark, true⟩] := by
  unfold diagnostic
  dsimp only
  split <;> split <;> rfl

namespace Renderer

def heading (r : Renderer) (d : Diagnostic) : String :=
  (Style.ofSeverity d.severity).paint r.colored d.severity.text
    ++ Style.bold.paint r.colored ("[" ++ d.code.text ++ "]") ++ ": " ++ d.message ++ "\n"

def placeLine (r : Renderer) (l : Location) : String :=
  blanks (toString l.line).length ++ "--> " ++ r.path ++ ":" ++ toString l ++ "\n"

/-- With one label, the second line has the location of its start. -/
theorem render_of_labels {r : Renderer} {d : Diagnostic} {span : Span} {message : String}
    (h : d.labels = [⟨span, message, true⟩]) : ∃ rest,
      r.render d = r.heading d ++ r.placeLine (r.lines.locate span.start) ++ rest := by
  have hgutter : r.gutterWidth d = (toString (r.lines.locate span.start).line).length := by
    rw [gutterWidth, h]
    rfl
  have hspan : d.primarySpan? = some span := by
    rw [Diagnostic.primarySpan?, h]
    rfl
  have hsplit (a b c d e : String) : ∃ rest, a ++ b ++ c ++ d ++ e = a ++ b ++ rest :=
    ⟨c ++ d ++ e, by simp only [String.append_assoc]⟩
  rw [render, hgutter, hspan]
  exact hsplit _ _ _ _ _

end Renderer

/-- The location of what the error is about: the lexical error, or the token that the parse gave
up at. -/
def SourceError.Stands (source : String) (l : Location) : SourceError → Prop
  | .lex e => JavaSyntax.lex source = .error e ∧ l = e.location
  | .parse e => ∃ ts t, JavaSyntax.lex source = .ok ts ∧ ts.tokens[e.tokenIndex]? = some t ∧
      t.span = e.span ∧ (∀ k, e.fault.found? = some k → t.kind = k) ∧ l = t.location

theorem back?_of_lex {source : String} {ts : TokenList} (h : lex source = .ok ts) :
    ts.tokens.back?.map Token.kind = some .eof := by
  obtain ⟨front, -, rfl⟩ := scanned_of_lex h
  simp [TokenList.pushSentinel, TokenList.push, TokenList.sentinel]

theorem ParseError.Pinned.exists_token {ts : TokenList} {e : ParseError}
    (hend : ts.tokens.back?.map Token.kind = some .eof) (h : e.Pinned (.ofList ts)) :
    ∃ t, ts.tokens[e.tokenIndex]? = some t ∧ t.span = e.span ∧
      ∀ k, e.fault.found? = some k → t.kind = k := by
  have hlt : e.tokenIndex < ts.tokens.size := by
    have hpos : 0 < ts.tokens.size := TokenList.length_pos hend
    have hle : e.tokenIndex ≤ ts.tokens.size - 1 := h.index_le
    omega
  have hat : (TokenStream.ofList ts).tokenAt e.tokenIndex = ts.tokens[e.tokenIndex] := by
    simp [TokenStream.tokenAt, hlt]
  refine ⟨ts.tokens[e.tokenIndex], Array.getElem?_eq_getElem hlt, ?_, ?_⟩
  · rw [h.span, hat]
  · intro k hk
    rw [← hat]
    exact h.found k hk

/-- An error of a source file, rendered, shows the location of what it is about. -/
theorem exists_placeLine {source : String} {e : SourceError} (h : parseSource source = .error e)
    (path : String) (color : ColorMode) : ∃ l rest, e.Stands source l ∧
      e.render path source color =
        (Renderer.new path source (color.enabled false)).heading e.diagnostic ++
          (Renderer.new path source (color.enabled false)).placeLine l ++ rest := by
  unfold parseSource at h
  split at h
  · rename_i e' hlex
    cases h
    obtain ⟨rest, hrest⟩ := Renderer.render_of_labels
      (r := Renderer.new path source (color.enabled false)) e'.labels_diagnostic
    refine ⟨e'.location, rest, ⟨hlex, rfl⟩, ?_⟩
    rw [locate_of_lex_error hlex]
    exact hrest
  · rename_i ts hlex
    cases hparse : parse .compilationUnit ts with
    | ok t =>
      rw [hparse] at h
      cases h
    | error e' =>
      rw [hparse] at h
      cases h
      have hend := back?_of_lex hlex
      obtain ⟨t, ht, hspan, hfound⟩ := (pinned_parse hend hparse).exists_token hend
      obtain ⟨rest, hrest⟩ := Renderer.render_of_labels
        (r := Renderer.new path source (color.enabled false)) e'.labels_diagnostic
      refine ⟨t.location, rest, ⟨ts, t, hlex, ht, hspan, hfound, rfl⟩, ?_⟩
      rw [locate_of_lex hlex (Array.mem_toList_iff.2 (Array.mem_of_getElem? ht)), hspan]
      exact hrest

/-- The three ways to find a location agree: that of each token, of the sentinel and of a lexical
error is the one that its start is looked up at, and so a rendered error shows the location of the
token that it is about, or of the lexical error. -/
theorem located_of_source (source path : String) (color : ColorMode) :
    (∀ ts, lex source = .ok ts → ∀ t ∈ ts.tokens.toList,
      t.location = (Lines.ofString source).locate t.span.start) ∧
    (∀ e, lex source = .error e → e.location = (Lines.ofString source).locate e.span.start) ∧
    ∀ e, parseSource source = .error e → ∃ l rest, e.Stands source l ∧
      e.render path source color =
        (Renderer.new path source (color.enabled false)).heading e.diagnostic ++
          (Renderer.new path source (color.enabled false)).placeLine l ++ rest :=
  ⟨fun _ h _ ht => locate_of_lex h ht, fun _ h => locate_of_lex_error h,
    fun _ h => exists_placeLine h path color⟩

/-- The tokens of a class that has a sign for a name, on its second line. -/
def misnamedClass : TokenList where
  source := "/*\u00e9*/class\r\n\t+"
  tokens := #[⟨.kwClass, ⟨6, 11⟩, ⟨1, 6⟩⟩, ⟨.plus, ⟨14, 15⟩, ⟨2, 2⟩⟩, ⟨.eof, ⟨15, 15⟩, ⟨2, 3⟩⟩]

theorem located_misnamedClass :
    let source := "/*\u00e9*/class\r\n\t+"
    let unclosed := "x\n  /*\u00e9"
    let e : SourceError := .parse
      { fault := .unexpectedToken (.single .ident) .plus, span := ⟨14, 15⟩, tokenIndex := 1 }
    (lex source = .ok misnamedClass ∧ ∀ t ∈ misnamedClass.tokens.toList,
      t.location = (Lines.ofString source).locate t.span.start) ∧
    (lex unclosed = .error ⟨.unterminatedComment, ⟨4, 8⟩, ⟨2, 3⟩⟩ ∧
      ⟨2, 3⟩ = (Lines.ofString unclosed).locate 4) ∧
    parseSource source = .error e ∧ ∃ l rest, e.Stands source l ∧
      e.render "A.java" source .never =
        (Renderer.new "A.java" source false).heading e.diagnostic ++
          (Renderer.new "A.java" source false).placeLine l ++ rest := by
  intro source unclosed e
  have hlex : lex "/*\u00e9*/class\r\n\t+" = .ok misnamedClass := rfl
  have hopen : lex "x\n  /*\u00e9" = .error ⟨.unterminatedComment, ⟨4, 8⟩, ⟨2, 3⟩⟩ := rfl
  have hparse : parse .compilationUnit misnamedClass = .error
      { fault := .unexpectedToken (.single .ident) .plus, span := ⟨14, 15⟩, tokenIndex := 1 } := by
    refine parse_eq_error.2 (.inl ?_)
    rw [Session.run_eq]
    decide
  have hsource : parseSource source = .error e := by
    rw [parseSource, show lex source = .ok misnamedClass from hlex]
    exact congrArg (Except.mapError SourceError.parse) hparse
  obtain ⟨htokens, -, hrender⟩ := located_of_source source "A.java" .never
  obtain ⟨-, herror, -⟩ := located_of_source unclosed "A.java" .never
  exact ⟨⟨hlex, htokens _ hlex⟩, ⟨hopen, herror _ hopen⟩, hsource, hrender _ hsource⟩

end JavaSyntax
