import JavaSyntax.Grammar.Probe
import JavaSyntax.Grammar.Rule
import JavaSyntax.Parser.Failure
import JavaSyntax.Stream.Basic
import JavaSyntax.Tree.Draft

/-!
# Parse commands

Grammar rules are programs in a small language. A command reads tokens into the draft of the
current node, and ends by making what it has read one node. Commands branch on the tokens
ahead, on the latest child of the draft, and on probes.
-/

namespace JavaSyntax

/-- A question about the tokens ahead and the draft. -/
inductive Test where
  | always
  | never
  /-- The token after `skip` others is of one of the kinds. -/
  | ahead (skip : Nat) (kinds : KindSet)
  /-- The token after `skip` others touches the next one. -/
  | touching (skip : Nat)
  /-- So is the token after a dotted name and `skip` others. -/
  | afterName (skip : Nat) (kinds : KindSet)
  /-- A parenthesis opens here, and closes before an arrow. -/
  | lambdaHead
  | latestIs (kinds : List NodeKind)
  | latestHas (kind : TokenKind)
  | neg (t : Test)
  | both (t u : Test)
  | either (t u : Test)
  deriving DecidableEq, Repr

/-- A question that may take a probe. -/
inductive Guard where
  | test (t : Test)
  /-- Yes if `sure` holds; else, if `open` holds, what the probe says. -/
  | trial (sure possible : Test) (probe : Probe)
  /-- A dotted name and a bracket stand here that may open type arguments, and the probe says
  yes. -/
  | typeHead (probe : Probe)
  deriving DecidableEq, Repr

/-- A line of a decision table: kinds for the next tokens, and the rule that they call for. -/
structure Row where
  pattern : List KindSet
  rule : Rule
  label : String
  deriving DecidableEq, Repr

/-- The first row that matches decides. If none does, the fallback is taken; without one it is
an error. -/
structure Table where
  rows : List Row
  fallback : Option Rule
  deriving DecidableEq, Repr

inductive Cmd where
  | skip
  /-- Reads the current token. -/
  | shift
  | fail (expected : KindSet) (remark : Option Remark)
  | seq (a b : Cmd)
  | ite (guard : Guard) (a b : Cmd)
  | loop (guard : Guard) (body : Cmd)
  /-- Works on a draft of its own, whose children then join the current one. -/
  | nest (body : Cmd)
  /-- Goes on with a rule on the current draft. -/
  | jump (rule : Rule)
  /-- Goes on with the rule that the table chooses. -/
  | dispatch (table : Table)
  /-- Makes the draft one node that starts where the draft was started. -/
  | close (kind : NodeKind)
  /-- Makes the draft one node that starts where its first child does. -/
  | wrap (kind : NodeKind)
  deriving DecidableEq, Repr

namespace Test

def holds (s : TokenStream) (index : Nat) (d : Draft) : Test → Bool
  | always => true
  | never => false
  | ahead skip kinds => kinds.contains (s.kindAt (index + skip))
  | touching skip => s.touching (index + skip)
  | afterName skip kinds => kinds.contains (s.kindAt (s.nameEnd index + skip))
  | lambdaHead => s.isLambdaHead index
  | latestIs kinds => d.lastIs kinds
  | latestHas kind => d.lastHas kind
  | neg t => !t.holds s index d
  | both t u => t.holds s index d && u.holds s index d
  | either t u => t.holds s index d || u.holds s index d

def here (k : TokenKind) : Test := ahead 0 (.single k)

def hereAny (ks : KindSet) : Test := ahead 0 ks

def next (k : TokenKind) : Test := ahead 1 (.single k)

def lambdaAhead : Test := either (both (here .ident) (next .arrow)) lambdaHead

def anyOf : List Test → Test
  | [] => never
  | [t] => t
  | t :: ts => either t (anyOf ts)

def allOf : List Test → Test
  | [] => always
  | [t] => t
  | t :: ts => both t (allOf ts)

end Test

instance : Coe Test Guard := ⟨Guard.test⟩

namespace Row

def fits (s : TokenStream) (index : Nat) : List KindSet → Bool
  | [] => true
  | kinds :: rest => kinds.contains (s.kindAt index) && fits s (index + 1) rest

def matchesAt (r : Row) (s : TokenStream) (index : Nat) : Bool := fits s index r.pattern

end Row

namespace Table

def firstSet (t : Table) : KindSet :=
  t.rows.foldl (fun set r => match r.pattern with
    | kinds :: _ => set ∪ kinds
    | [] => set) ∅

/-- The first row that matches, and the rows after it. -/
def choose? (s : TokenStream) (index : Nat) : List Row → Option (Row × List Row)
  | [] => none
  | r :: rs => if r.matchesAt s index then some (r, rs) else choose? s index rs

/-- Another row that matches as well, is equally specific and calls for something else. -/
def rival? (s : TokenStream) (index : Nat) (chosen : Row) (rest : List Row) : Option Row :=
  rest.find? fun r =>
    r.rule != chosen.rule && r.pattern.length == chosen.pattern.length && r.matchesAt s index

def decide (t : Table) (s : TokenStream) (detectAmbiguity : Bool) (index : Nat) :
    Except ParseError Rule :=
  match choose? s index t.rows with
  | none =>
    match t.fallback with
    | some rule => .ok rule
    | none => .error (.unexpected t.firstSet (s.tokenAt index) index)
  | some (chosen, rest) =>
    match detectAmbiguity, rival? s index chosen rest with
    | true, some rival =>
      .error
        { fault := .ambiguousTable [chosen.label, rival.label], span := (s.tokenAt index).span,
          tokenIndex := index }
    | _, _ => .ok chosen.rule

theorem matchesAt_of_choose? {s : TokenStream} {index : Nat} {rows rest : List Row} {r : Row}
    (h : choose? s index rows = some (r, rest)) : r ∈ rows ∧ r.matchesAt s index = true := by
  induction rows with
  | nil => cases h
  | cons a as ih =>
    rw [choose?] at h
    split at h
    · cases h
      exact ⟨List.mem_cons_self, ‹_›⟩
    · exact ⟨List.mem_cons_of_mem _ (ih h).1, (ih h).2⟩

theorem decide_ok {t : Table} {s : TokenStream} {detectAmbiguity : Bool} {index : Nat} {r : Rule}
    (h : t.decide s detectAmbiguity index = .ok r) :
    (∃ row ∈ t.rows, row.rule = r ∧ row.matchesAt s index = true) ∨ t.fallback = some r := by
  unfold decide at h
  split at h
  · split at h
    · cases h
      exact .inr ‹_›
    · cases h
  · rename_i chosen rest hc
    obtain ⟨hmem, hmatch⟩ := matchesAt_of_choose? hc
    split at h
    · cases h
    · cases h
      exact .inl ⟨chosen, hmem, rfl, hmatch⟩

theorem decide_error {t : Table} {s : TokenStream} {detectAmbiguity : Bool} {index : Nat}
    {e : ParseError} (h : t.decide s detectAmbiguity index = .error e) :
    (∃ labels, detectAmbiguity = true ∧ e =
        { fault := .ambiguousTable labels, span := (s.tokenAt index).span, tokenIndex := index }) ∨
      t.fallback = none ∧ choose? s index t.rows = none ∧
        e = .unexpected t.firstSet (s.tokenAt index) index := by
  unfold decide at h
  split at h
  · split at h
    · cases h
    · cases h
      exact .inr ⟨‹_›, ‹_›, rfl⟩
  · split at h
    · cases h
      exact .inl ⟨_, rfl, rfl⟩
    · cases h

def rules (t : Table) : List Rule := t.rows.map Row.rule ++ t.fallback.toList

theorem mem_rules_of_decide {t : Table} {s : TokenStream} {detectAmbiguity : Bool} {index : Nat}
    {r : Rule} (h : t.decide s detectAmbiguity index = .ok r) : r ∈ t.rules := by
  rw [rules, List.mem_append, List.mem_map, Option.mem_toList]
  obtain ⟨row, hrow, hr, -⟩ | hfall := decide_ok h
  · exact .inl ⟨row, hrow, hr⟩
  · exact .inr hfall

end Table

namespace Guard

/-- The probe that the answer may take. -/
def probe? : Guard → Option Probe
  | test _ => none
  | trial _ _ p => some p
  | typeHead p => some p

end Guard

namespace Cmd

instance : Append Cmd := ⟨seq⟩

def call (r : Rule) : Cmd := nest (jump r)

def opt (g : Guard) (a : Cmd) : Cmd := ite g a skip

def expect (k : TokenKind) : Cmd := ite (Test.here k) shift (fail (.single k) none)

def eat (k : TokenKind) : Cmd := opt (Test.here k) shift

def separated (separator : TokenKind) (item : Cmd) : Cmd :=
  item ++ loop (Test.here separator) (shift ++ item)

/-- Items with separators between them and perhaps one after the last of them. `more` tells
whether an item follows the separator ahead. -/
def trailing (separator : TokenKind) (more : Test) (item : Cmd) : Cmd :=
  item ++ loop (Test.both (Test.here separator) more) (shift ++ item) ++ eat separator

def select (cases : List (TokenKind × Cmd)) (otherwise : Cmd) : Cmd :=
  cases.foldr (fun c rest => ite (Test.here c.1) c.2 rest) otherwise

def shifts : Nat → Cmd
  | 0 => skip
  | 1 => shift
  | n + 1 => shift ++ shifts n

end Cmd
end JavaSyntax
