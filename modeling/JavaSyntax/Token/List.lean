import JavaSyntax.Text.Lines
import JavaSyntax.Token.Kind

/-!
# Token lists

The tokens of a source text in order, with the text itself. Lists built by `TokenList.ofTokens`
end with the sentinel for the end of the source.
-/

namespace JavaSyntax

structure Token where
  kind : TokenKind
  span : Span
  location : Location
  deriving DecidableEq, Repr, Inhabited

namespace Token

def listing (t : Token) : String := s!"{t.kind.label} @ {t.span} ({t.location})"

end Token

structure TokenList where
  source : String
  tokens : Array Token

namespace TokenList

def empty (source : String) : TokenList := ⟨source, #[]⟩

def push (ts : TokenList) (t : Token) : TokenList := { ts with tokens := ts.tokens.push t }

def sourceLength (ts : TokenList) : Nat := Text.byteLength ts.source.toList

/-- The sentinel of the list: an empty span at the end of the source, located by the text from
the last token on. -/
def sentinel (ts : TokenList) : Token :=
  let text := ts.source.toList
  let (start, location) := match ts.tokens.back? with
    | some last => (last.span.start, last.location)
    | none => (0, Location.first)
  let trailing := (Text.dropBytes? start text).getD []
  ⟨.eof, Span.point ts.sourceLength, trailing.foldl Location.advance location⟩

def pushSentinel (ts : TokenList) : TokenList := ts.push ts.sentinel

/-- The list of the tokens, closed by a sentinel unless the last of them is one. -/
def ofTokens (source : String) (tokens : Array Token) : TokenList :=
  let ts : TokenList := ⟨source, tokens⟩
  if (tokens.back?.map Token.kind) = some .eof then ts else ts.pushSentinel

def length (ts : TokenList) : Nat := ts.tokens.size

/-- The kind at an index, and the end of the source beyond the list. -/
def kindAt (ts : TokenList) (i : Nat) : TokenKind :=
  match ts.tokens[i]? with
  | some t => t.kind
  | none => .eof

def kinds (ts : TokenList) : List TokenKind := ts.tokens.toList.map Token.kind

/-- The source text of a span, empty if the span has none. -/
def text (ts : TokenList) (s : Span) : String := Text.sliceOr "" ts.source.toList s

def listing (ts : TokenList) : String :=
  "[" ++ String.intercalate ", " (ts.tokens.toList.map Token.listing) ++ "]"

@[simp] theorem length_push (ts : TokenList) (t : Token) :
    (ts.push t).length = ts.length + 1 := by
  simp [push, length]

/-- A list built from tokens is never empty and ends with the sentinel. -/
theorem kind_back_ofTokens (source : String) (tokens : Array Token) :
    ((ofTokens source tokens).tokens.back?).map Token.kind = some .eof := by
  unfold ofTokens
  dsimp only
  split
  · assumption
  · simp [pushSentinel, push, sentinel]

end TokenList
end JavaSyntax
