import JavaSyntax.Text.Blank

/-!
# Parse options

Limits and switches of one parse, with their reading from environment variables.
-/

namespace JavaSyntax

structure ParseOptions where
  /-- How many tokens all probes of a parse may consume. -/
  speculationBudget : Nat := 1048576
  /-- Keep the outcomes of probes. -/
  memoize : Bool := true
  /-- Check at each decision that no other row of the table matches as well. -/
  detectAmbiguity : Bool := true
  deriving DecidableEq, Repr, Inhabited

namespace ParseOptions

/-- The largest budget that can be written: it fits into 64 bits. -/
def budgetLimit : Nat := 18446744073709551615

/-- The number that decimal digits denote, if there are only digits and at least one. -/
def ofDigits? (cs : List Char) : Option Nat :=
  if cs.isEmpty || cs.any (fun c => !c.isDigit) then none
  else some (cs.foldl (fun n c => 10 * n + (c.toNat - '0'.toNat)) 0)

/-- A budget is written in ASCII digits, with an optional plus sign and blanks around. -/
def budgetOf? (raw : String) : Option Nat :=
  let digits := match Text.trim raw.toList with
    | '+' :: rest => rest
    | rest => rest
  (ofDigits? digits).filter (· ≤ budgetLimit)

/-- The spellings that switch something on; the case of letters does not matter. -/
def isTruthy (raw : String) : Bool :=
  ["1", "true", "yes", "on"].contains
    (String.ofList ((Text.trim raw.toList).map Char.toLower))

/-- The default options with what the environment sets. An unreadable budget is passed over. -/
def ofEnvironment (lookup : String → Option String) : ParseOptions :=
  let d : ParseOptions := {}
  { speculationBudget :=
      ((lookup "JAVELIN_SPECULATION_BUDGET").bind budgetOf?).getD d.speculationBudget
    memoize := ((lookup "JAVELIN_NO_MEMO").map fun raw => !isTruthy raw).getD d.memoize
    detectAmbiguity :=
      ((lookup "JAVELIN_DETECT_AMBIGUITY").map isTruthy).getD d.detectAmbiguity }

end ParseOptions
end JavaSyntax
