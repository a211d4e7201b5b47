import JavaSyntax.Text.Slice

/-!
# Lines and locations

Lines end after each line feed. A location is a line and a column, both counted from one, and
a column counts characters.
-/

namespace JavaSyntax

structure Location where
  line : Nat
  column : Nat
  deriving DecidableEq, Repr, Inhabited

namespace Location

def first : Location := ⟨1, 1⟩

def advance (l : Location) (c : Char) : Location :=
  if c = '\n' then ⟨l.line + 1, 1⟩ else ⟨l.line, l.column + 1⟩

instance : ToString Location := ⟨fun l => s!"{l.line}:{l.column}"⟩

end Location

structure Lines where
  text : List Char
  starts : List Nat

namespace Lines

/-- The offsets right after each line feed of a text that starts at `offset`. -/
def startsAfter (offset : Nat) : List Char → List Nat
  | [] => []
  | c :: cs =>
    let next := offset + c.utf8Size
    if c = '\n' then next :: startsAfter next cs else startsAfter next cs

def ofText (text : List Char) : Lines := ⟨text, 0 :: startsAfter 0 text⟩

def ofString (source : String) : Lines := ofText source.toList

def count (ls : Lines) : Nat := ls.starts.length

/-- The location of an offset. One past the end is that of the end, and one inside a character
is in the first column. -/
def locate (ls : Lines) (offset : Nat) : Location :=
  let offset := min offset (Text.byteLength ls.text)
  let line := ls.starts.countP (· ≤ offset)
  let start := ls.starts.getD (line - 1) 0
  ⟨line, ((Text.slice? ls.text ⟨start, offset⟩).map List.length).getD 0 + 1⟩

/-- The characters without the line feeds and carriage returns at their end. -/
def trimEnd (cs : List Char) : List Char :=
  (cs.reverse.dropWhile fun c => c == '\n' || c == '\r').reverse

/-- The text of a line without its terminator. -/
def line? (ls : Lines) : Nat → Option (List Char)
  | 0 => none
  | n + 1 =>
    match ls.starts[n]? with
    | none => none
    | some start =>
      let stop := ls.starts.getD (n + 1) (Text.byteLength ls.text)
      (Text.slice? ls.text ⟨start, stop⟩).map trimEnd

end Lines
end JavaSyntax
