import JavaSyntax.Grammar.Body
import JavaSyntax.Parser.State

/-!
# The meaning of commands

What a command does to a state. Rules, repetitions and probes run one level deeper, and the
number of levels bounds how far they nest.
-/

namespace JavaSyntax

def Guard.decide (env : Setting) (deeper : Cmd → State → Outcome) (g : Guard) (s : State) :
    Ruling :=
  match g.settle env s with
  | .known b s' => .answer b s'
  | .ask p s' => State.conclude env p s.index s.draft (deeper p.fragment (s'.enterProbe env))

namespace Cmd

/-- The effect of a command, where `deeper` runs what it calls for. -/
def exec (env : Setting) (deeper : Cmd → State → Outcome) : Cmd → State → Outcome
  | skip, s => .done s
  | shift, s => s.shift env
  | fail expected remark, s => .failed (s.unexpected env expected remark) s
  | seq a b, s =>
    match a.exec env deeper s with
    | .done s' => b.exec env deeper s'
    | .failed e s' => .failed e s'
  | ite g a b, s =>
    match g.decide env deeper s with
    | .answer true s' => a.exec env deeper s'
    | .answer false s' => b.exec env deeper s'
    | .abort e s' => .failed e s'
  | loop g body, s =>
    match g.decide env deeper s with
    | .answer true s' => deeper (seq body (loop g body)) s'
    | .answer false s' => .done s'
    | .abort e s' => .failed e s'
  | nest body, s =>
    match body.exec env deeper (s.fresh env) with
    | .done s' => .done { s' with draft := s.draft.adopt s'.draft }
    | .failed e s' => .failed e s'
  | jump r, s => deeper r.body s
  | dispatch t, s =>
    match t.decide env.stream env.options.detectAmbiguity s.index with
    | .ok r => deeper r.body s
    | .error e => .failed e s
  | close kind, s => .done { s with draft := s.draft.close kind }
  | wrap kind, s => .done { s with draft := s.draft.wrap kind }

def run (env : Setting) : Nat → Cmd → State → Outcome
  | 0, _, s => .failed (s.errorHere env .stalled) s
  | n + 1, c, s => c.exec env (run env n) s

end Cmd
end JavaSyntax
