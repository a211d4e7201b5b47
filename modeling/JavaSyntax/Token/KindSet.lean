import JavaSyntax.Token.Kind

/-!
# Sets of token kinds

A set is a bit field with one bit for each kind. Its members are read off from the lowest bit
upwards, and each is cleared when it has been read.
-/

namespace JavaSyntax

structure KindSet where
  bits : Nat
  deriving DecidableEq, Repr, Inhabited

namespace KindSet

def empty : KindSet := ⟨0⟩

def single (k : TokenKind) : KindSet := ⟨1 <<< k.index⟩

def union (s t : KindSet) : KindSet := ⟨s.bits ||| t.bits⟩

def insert (k : TokenKind) (s : KindSet) : KindSet := s.union (single k)

def ofList (ks : List TokenKind) : KindSet := ks.foldl (fun s k => s.insert k) empty

def contains (s : KindSet) (k : TokenKind) : Bool := s.bits.testBit k.index

def isEmpty (s : KindSet) : Bool := s.bits == 0

def width : Nat := 128

/-- The index of the lowest bit that is set, and the width if there is none. -/
def lowestBit (bits : Nat) : Nat := ((List.range width).find? bits.testBit).getD width

/-- The kinds of the bits that are set, lowest bit first. A bit that stands for no kind ends
them. -/
def drain (bits : Nat) : List TokenKind :=
  if bits = 0 then []
  else match TokenKind.ofIndex? (lowestBit bits) with
    | some k => k :: drain (bits &&& (bits - 1))
    | none => []
  termination_by bits
  decreasing_by
    have hle : bits &&& (bits - 1) ≤ bits - 1 := Nat.and_le_right
    omega

def toList (s : KindSet) : List TokenKind := drain s.bits

def size (s : KindSet) : Nat := (List.range width).countP s.bits.testBit

instance : EmptyCollection KindSet := ⟨empty⟩
instance : Singleton TokenKind KindSet := ⟨single⟩
instance : Insert TokenKind KindSet := ⟨insert⟩
instance : Union KindSet := ⟨union⟩
instance : Membership TokenKind KindSet := ⟨fun s k => s.contains k = true⟩

instance (k : TokenKind) (s : KindSet) : Decidable (k ∈ s) :=
  inferInstanceAs (Decidable (s.contains k = true))

/-- The phrase for what was expected: alternatives in backquotes, the last one after "or". -/
def phrase (s : KindSet) : String :=
  let quoted := s.toList.map fun k => "`" ++ k.describe ++ "`"
  match quoted with
  | [] => "nothing"
  | [a] => a
  | [a, b] => a ++ " or " ++ b
  | names => String.intercalate ", " names.dropLast ++ ", or " ++ names.getLastD ""

def listing (s : KindSet) : String :=
  "\x7b" ++ String.intercalate ", " (s.toList.map TokenKind.label) ++ "\x7d"

instance : ToString KindSet := ⟨phrase⟩

@[simp] theorem mem_iff (k : TokenKind) (s : KindSet) : k ∈ s ↔ s.contains k = true := Iff.rfl

@[simp] theorem contains_empty (k : TokenKind) : empty.contains k = false := by
  simp [contains, empty]

@[simp] theorem contains_single (a k : TokenKind) : (single a).contains k = decide (k = a) := by
  simp only [contains, single, Nat.one_shiftLeft, Nat.testBit_two_pow]
  exact decide_eq_decide.2 ⟨fun h => (TokenKind.index_injective h).symm, fun h => h ▸ rfl⟩

@[simp] theorem contains_union (s t : KindSet) (k : TokenKind) :
    (s.union t).contains k = (s.contains k || t.contains k) := by
  simp [contains, union]

@[simp] theorem contains_insert (a : TokenKind) (s : KindSet) (k : TokenKind) :
    (s.insert a).contains k = (s.contains k || decide (k = a)) := by
  simp [insert]

theorem contains_ofList (ks : List TokenKind) (k : TokenKind) :
    (ofList ks).contains k = ks.contains k := by
  suffices h : ∀ set : KindSet, (ks.foldl (fun s k => s.insert k) set).contains k =
      (set.contains k || ks.contains k) by
    rw [ofList, h, contains_empty, Bool.false_or]
  induction ks with
  | nil => simp
  | cons a ks ih =>
    intro set
    simp [ih, Bool.or_assoc]

end KindSet

namespace TokenKind

def primitives : KindSet := KindSet.ofList
  [.kwBoolean, .kwByte, .kwShort, .kwInt, .kwLong, .kwChar, .kwFloat, .kwDouble]

def literals : KindSet := KindSet.ofList
  [.intLiteral, .floatLiteral, .charLiteral, .stringLiteral, .kwTrue, .kwFalse, .kwNull]

def modifierWords : KindSet := KindSet.ofList
  [.kwPublic, .kwProtected, .kwPrivate, .kwAbstract, .kwStatic, .kwFinal, .kwTransient,
    .kwVolatile, .kwSynchronized, .kwNative, .kwStrictfp, .kwDefault]

def typeStart : KindSet := primitives ∪ KindSet.ofList [.ident, .atSign]

def primaryStart : KindSet := literals ∪ primitives ∪ KindSet.ofList
  [.ident, .lparen, .kwThis, .kwSuper, .kwNew, .kwVoid]

def expressionStart : KindSet := primaryStart ∪ KindSet.ofList
  [.plus, .minus, .plusPlus, .minusMinus, .bang, .tilde]

/-- What makes a type in parentheses a cast: a sign after it would rather be a binary
operator. -/
def castOperandStart : KindSet := primaryStart ∪ KindSet.ofList [.bang, .tilde]

/-- What may stand in the type arguments before a method reference, brackets apart. -/
def typeArgumentTokens : KindSet := primitives ∪ KindSet.ofList
  [.ident, .dot, .comma, .question, .kwExtends, .kwSuper, .amp, .lbracket, .rbracket, .atSign]

end TokenKind
end JavaSyntax
