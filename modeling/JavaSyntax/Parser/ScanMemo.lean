import JavaSyntax.Parser.Memo

/-!
# Calls of a memo

The memo of one parse with all that it keeps: beside the results of probes and the dead end it
has the table of matching delimiters, which is made when a closing delimiter is first asked for.
-/

namespace JavaSyntax

structure ScanMemo where
  prediction : PredictionMemo := {}
  /-- The table, once it has been made. -/
  closers : Option (Array (Option Nat)) := none

inductive MemoCall where
  | get (p : Probe) (index : Nat)
  | insert (p : Probe) (index : Nat) (r : ProbeResult)
  | clear
  | matchingClose (index : Nat)
  | mayBeTypePrefix (index : Nat)
  deriving DecidableEq, Repr

namespace MemoCall

/-- The calls that look at the tokens. -/
def scans : MemoCall → Bool
  | matchingClose _ | mayBeTypePrefix _ => true
  | _ => false

end MemoCall

inductive MemoAnswer where
  | nothing
  | result (r : Option ProbeResult)
  | close (index : Option Nat)
  | verdict (b : Bool)
  deriving DecidableEq, Repr

/-- What a call comes to, and the memo as it leaves it. -/
structure MemoReply where
  answer : MemoAnswer
  memo : ScanMemo

namespace ScanMemo

def perform (m : ScanMemo) (s : TokenStream) : MemoCall → MemoReply
  | .get p i =>
    let (r, prediction) := m.prediction.get p i
    ⟨.result r, { m with prediction }⟩
  | .insert p i r => ⟨.nothing, { m with prediction := m.prediction.insert p i r }⟩
  | .clear => ⟨.nothing, { prediction := m.prediction.clear, closers := none }⟩
  | .matchingClose i =>
    let table := m.closers.getD (Delimiters.table s.list.kinds)
    ⟨.close (table[i]?).join, { m with closers := some table }⟩
  | .mayBeTypePrefix i =>
    let (b, prediction) := m.prediction.mayBeTypePrefix s i
    ⟨.verdict b, { m with prediction }⟩

def replies (m : ScanMemo) (s : TokenStream) : List MemoCall → List MemoReply
  | [] => []
  | c :: cs =>
    let reply := m.perform s c
    reply :: reply.memo.replies s cs

@[simp] theorem length_replies (m : ScanMemo) (s : TokenStream) (cs : List MemoCall) :
    (m.replies s cs).length = cs.length := by
  induction cs generalizing m with
  | nil => rfl
  | cons c cs ih => simp [replies, ih]

end ScanMemo
end JavaSyntax
