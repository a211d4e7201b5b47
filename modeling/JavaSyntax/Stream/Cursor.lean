import JavaSyntax.Parser.Failure
import JavaSyntax.Stream.Basic

/-!
# Cursors

A position in a token stream that can be saved and gone back to. A checkpoint is good only for
the cursor that made it.
-/

namespace JavaSyntax

structure Checkpoint where
  owner : Nat
  index : Nat
  deriving DecidableEq, Repr, Inhabited

/-- `identity` tells the cursors over one stream apart. -/
structure Cursor where
  stream : TokenStream
  index : Nat
  identity : Nat

namespace Cursor

def start (stream : TokenStream) (identity : Nat) : Cursor := ⟨stream, 0, identity⟩

/-- The token `k` places ahead, where the current one is `1` ahead. -/
def lookahead (c : Cursor) (k : Nat) : Token := c.stream.tokenAt (c.index + (k - 1))

def kindAhead (c : Cursor) (k : Nat) : TokenKind := c.stream.kindAt (c.index + (k - 1))

/-- Reads the current token. The end of the source is never passed. -/
def consume (c : Cursor) : Except ParseError (Token × Cursor) :=
  let token := c.lookahead 1
  if token.kind = .eof then .error (.unexpected ∅ token c.index)
  else .ok (token, { c with index := c.index + 1 })

def mark (c : Cursor) : Checkpoint := ⟨c.identity, c.index⟩

def restore (c : Cursor) (p : Checkpoint) : Except ParseError Cursor :=
  if p.owner ≠ c.identity ∨ c.stream.lastIndex < p.index then
    .error { fault := .invalidCheckpoint, span := (c.lookahead 1).span, tokenIndex := c.index }
  else .ok { c with index := p.index }

end Cursor
end JavaSyntax
