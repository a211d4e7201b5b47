import JavaSyntax.Stream.Delimiters
import JavaSyntax.Token.KindSet
import JavaSyntax.Token.List

/-!
# Token streams

A token list as the parser reads it: by index, with the end of the source beyond the last token,
and with the matching delimiters at hand.
-/

namespace JavaSyntax

structure TokenStream where
  list : TokenList
  /-- What is read past the last token. -/
  past : Token
  closers : Array (Option Nat)
  closers_eq : closers = Delimiters.table list.kinds := by rfl

namespace TokenStream

/-- The sentinel of a list is read again past its end; a list without one gets an unlocated
sentinel at the end of its source. -/
def ofList (list : TokenList) : TokenStream :=
  { list
    past := match list.tokens.back? with
      | some last =>
        if last.kind = .eof then last
        else ⟨.eof, Span.point list.sourceLength, Location.first⟩
      | none => ⟨.eof, Span.point list.sourceLength, Location.first⟩
    closers := Delimiters.table list.kinds }

def length (s : TokenStream) : Nat := s.list.length

def kindAt (s : TokenStream) (i : Nat) : TokenKind := s.list.kindAt i

def tokenAt (s : TokenStream) (i : Nat) : Token := s.list.tokens[i]?.getD s.past

/-- The largest index that a checkpoint may have. -/
def lastIndex (s : TokenStream) : Nat := s.length - 1

/-- The tokens at an index and the next are side by side in the source. -/
def touching (s : TokenStream) (i : Nat) : Bool :=
  (s.tokenAt i).span.touches (s.tokenAt (i + 1)).span

def matchingClose? (s : TokenStream) (i : Nat) : Option Nat := (s.closers[i]?).join

/-- The parenthesis at an index closes right before an arrow. -/
def isLambdaHead (s : TokenStream) (i : Nat) : Bool :=
  s.kindAt i == .lparen &&
    match s.matchingClose? i with
    | some close => s.kindAt (close + 1) == .arrow
    | none => false

/-- The index after the name segments from `i` on. -/
def skipSegments (s : TokenStream) : Nat → Nat → Nat
  | 0, i => i
  | fuel + 1, i =>
    if s.kindAt i == .dot && s.kindAt (i + 1) == .ident then s.skipSegments fuel (i + 2) else i

/-- The index after the dotted name that starts at `i`. -/
def nameEnd (s : TokenStream) (i : Nat) : Nat := s.skipSegments (s.length - i) (i + 1)

inductive TypeScan where
  | mayBe
  | cannot
  /-- It met a token that no type arguments hold. -/
  | blocked (index : Nat)
  deriving DecidableEq, Repr

/-- Looks for a method reference behind type arguments. Annotation arguments are not looked
into: they leave the answer open. -/
def scanFrom (s : TokenStream) : Nat → Nat → Nat → TypeScan
  | 0, _, i => .blocked i
  | fuel + 1, depth, i =>
    match s.kindAt i with
    | .less => s.scanFrom fuel (depth + 1) (i + 1)
    | .greater => if depth = 0 then .cannot else s.scanFrom fuel (depth - 1) (i + 1)
    | .colonColon => if depth = 0 then .mayBe else .cannot
    | .lparen => .mayBe
    | k =>
      if TokenKind.typeArgumentTokens.contains k then s.scanFrom fuel depth (i + 1)
      else .blocked i

def scanTypePrefix (s : TokenStream) (i : Nat) : TypeScan := s.scanFrom (s.length - i) 0 i

@[simp] theorem list_ofList (list : TokenList) : (ofList list).list = list := rfl

theorem kindAt_of_length_le {s : TokenStream} {i : Nat} (h : s.length ≤ i) :
    s.kindAt i = .eof := by
  have hn : s.list.tokens[i]? = none := by
    rw [Array.getElem?_eq_none_iff]
    exact h
  simp [kindAt, TokenList.kindAt, hn]

theorem lt_length_of_kindAt {s : TokenStream} {i : Nat} (h : s.kindAt i ≠ .eof) :
    i < s.length :=
  Nat.lt_of_not_le fun hle => h (kindAt_of_length_le hle)

end TokenStream
end JavaSyntax
