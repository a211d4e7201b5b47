import JavaSyntax.Parser.Exec

/-!
# The parse machine

Runs commands with a list of the tasks that are still to be done, so that deep nesting in the
source takes no deep recursion. `Machine.run_task` says that it does what the commands mean.
-/

namespace JavaSyntax

/-- Something to be done with an outcome. -/
inductive Task where
  /-- Runs a command with so many levels. -/
  | run (levels : Nat) (c : Cmd)
  /-- Puts the children of the draft behind those of an outer one. -/
  | adopt (outer : Draft)
  /-- Ends a probe and goes on with the command for its answer. -/
  | judge (probe : Probe) (start : Nat) (outer : Draft) (accepted rejected : Nat × Cmd)

namespace Machine

/-- The tasks and the outcome after a guard has been looked at. -/
def branch (env : Setting) (s : State) (g : Guard) (levels : Nat) (accepted rejected : Nat × Cmd) :
    List Task × Outcome :=
  match g.settle env s with
  | .known true s' => ([.run accepted.1 accepted.2], .done s')
  | .known false s' => ([.run rejected.1 rejected.2], .done s')
  | .ask p s' =>
    ([.run levels p.fragment, .judge p s.index s.draft accepted rejected],
      .done (s'.enterProbe env))

def start (env : Setting) (s : State) : Nat → Cmd → List Task × Outcome
  | 0, _ => ([], .failed (s.errorHere env .stalled) s)
  | n + 1, c =>
    match c with
    | .skip => ([], .done s)
    | .shift => ([], s.shift env)
    | .fail expected remark => ([], .failed (s.unexpected env expected remark) s)
    | .seq a b => ([.run (n + 1) a, .run (n + 1) b], .done s)
    | .ite g a b => branch env s g n (n + 1, a) (n + 1, b)
    | .loop g body => branch env s g n (n, .seq body (.loop g body)) (n + 1, .skip)
    | .nest body => ([.run (n + 1) body, .adopt s.draft], .done (s.fresh env))
    | .jump r => ([.run n r.body], .done s)
    | .dispatch t =>
      match t.decide env.stream env.options.detectAmbiguity s.index with
      | .ok r => ([.run n r.body], .done s)
      | .error e => ([], .failed e s)
    | .close kind => ([], .done { s with draft := s.draft.close kind })
    | .wrap kind => ([], .done { s with draft := s.draft.wrap kind })

/-- Does a task as far as it goes without another one. A failure passes over all tasks but the
end of a probe. -/
def step (env : Setting) : Task → Outcome → List Task × Outcome
  | .run n c, .done s => start env s n c
  | .adopt outer, .done s => ([], .done { s with draft := outer.adopt s.draft })
  | .judge p start outer accepted rejected, o =>
    match State.conclude env p start outer o with
    | .answer true s => ([.run accepted.1 accepted.2], .done s)
    | .answer false s => ([.run rejected.1 rejected.2], .done s)
    | .abort e s => ([], .failed e s)
  | _, .failed e s => ([], .failed e s)

def sumMap {α : Type} (f : α → Nat) : List α → Nat
  | [] => 0
  | a :: as => f a + sumMap f as

theorem sumMap_append {α : Type} (f : α → Nat) (as bs : List α) :
    sumMap f (as ++ bs) = sumMap f as + sumMap f bs := by
  induction as with
  | nil => simp [sumMap]
  | cons a as ih => simp [sumMap, ih, Nat.add_assoc]

theorem le_sumMap {α : Type} (f : α → Nat) {a : α} {as : List α} (h : a ∈ as) :
    f a ≤ sumMap f as := by
  induction as with
  | nil => simp at h
  | cons b bs ih =>
    rcases List.mem_cons.1 h with rfl | h
    · exact Nat.le_add_right _ _
    · exact Nat.le_trans (ih h) (Nat.le_add_left _ _)

/-- The work in a command, when what it calls for has the work `deeper`. -/
def cost (deeper : Cmd → Nat) : Cmd → Nat
  | .skip | .shift | .fail .. | .close _ | .wrap _ => 1
  | .seq a b => cost deeper a + cost deeper b + 1
  | .ite g a b => guardCost g + cost deeper a + cost deeper b + 1
  | .loop g body => guardCost g + deeper (.seq body (.loop g body)) + 2
  | .nest body => cost deeper body + 2
  | .jump r => deeper r.body + 1
  | .dispatch t => sumMap (fun r => deeper r.body) t.rules + 1
where
  guardCost (g : Guard) : Nat :=
    match g.probe? with
    | some p => deeper p.fragment + 1
    | none => 0

def work : Nat → Cmd → Nat
  | 0, _ => 1
  | n + 1, c => cost (work n) c

def taskWork : Task → Nat
  | .run n c => work n c
  | .adopt _ => 1
  | .judge _ _ _ accepted rejected => work accepted.1 accepted.2 + work rejected.1 rejected.2 + 1

def totalWork (tasks : List Task) : Nat := sumMap taskWork tasks

theorem work_pos (n : Nat) (c : Cmd) : 0 < work n c := by
  cases n with
  | zero => simp [work]
  | succ n => cases c <;> simp [work, cost]

theorem totalWork_branch (env : Setting) (s : State) (g : Guard) (levels : Nat)
    (accepted rejected : Nat × Cmd) :
    totalWork (branch env s g levels accepted rejected).1 ≤
      cost.guardCost (work levels) g + work accepted.1 accepted.2 + work rejected.1 rejected.2 := by
  unfold branch
  split
  · simp [totalWork, sumMap, taskWork]; omega
  · simp [totalWork, sumMap, taskWork]
  · rename_i h
    simp [totalWork, sumMap, taskWork, cost.guardCost, Guard.probe?_eq_of_settle h]
    omega

theorem totalWork_start (env : Setting) (s : State) (n : Nat) (c : Cmd) :
    totalWork (start env s n c).1 < work n c := by
  cases n with
  | zero => simp [start, totalWork, sumMap, work]
  | succ n =>
    cases c with
    | seq a b => simp [start, totalWork, sumMap, taskWork, work, cost]
    | ite g a b =>
      have h := totalWork_branch env s g n (n + 1, a) (n + 1, b)
      simp only [start, work, cost] at h ⊢
      omega
    | loop g body =>
      have h := totalWork_branch env s g n (n, .seq body (.loop g body)) (n + 1, .skip)
      simp only [start, work, cost] at h ⊢
      omega
    | dispatch t =>
      simp only [start, work, cost]
      split
      · rename_i r h
        have hm := le_sumMap (fun r => work n r.body) (Table.mem_rules_of_decide h)
        simp [totalWork, sumMap, taskWork] at hm ⊢
        omega
      · simp [totalWork, sumMap]
    | _ => simp [start, totalWork, sumMap, taskWork, work, cost]

theorem totalWork_step (env : Setting) (t : Task) (o : Outcome) :
    totalWork (step env t o).1 < taskWork t := by
  cases t with
  | run n c =>
    cases o with
    | done s => exact totalWork_start env s n c
    | failed e s => simpa [step, totalWork, sumMap, taskWork] using work_pos n c
  | adopt outer => cases o <;> simp [step, totalWork, sumMap, taskWork]
  | judge p start outer accepted rejected =>
    simp only [step]
    split <;> simp only [totalWork, sumMap, taskWork] <;> omega

def run (env : Setting) (tasks : List Task) (o : Outcome) : Outcome :=
  match tasks with
  | [] => o
  | t :: rest =>
    let next := step env t o
    run env (next.1 ++ rest) next.2
  termination_by totalWork tasks
  decreasing_by
    have h := totalWork_step env t o
    simp only [totalWork, sumMap_append, sumMap] at h ⊢
    omega

def denote (env : Setting) : Task → Outcome → Outcome
  | .run n c, .done s => c.run env n s
  | .adopt outer, .done s => .done { s with draft := outer.adopt s.draft }
  | .judge p start outer accepted rejected, o =>
    match State.conclude env p start outer o with
    | .answer true s => accepted.2.run env accepted.1 s
    | .answer false s => rejected.2.run env rejected.1 s
    | .abort e s => .failed e s
  | _, .failed e s => .failed e s

def denoteAll (env : Setting) (tasks : List Task) (o : Outcome) : Outcome :=
  tasks.foldl (fun o t => denote env t o) o

theorem denote_branch (env : Setting) (s : State) (g : Guard) (levels : Nat)
    (accepted rejected : Nat × Cmd) :
    (let next := branch env s g levels accepted rejected; denoteAll env next.1 next.2) =
      match g.decide env (Cmd.run env levels) s with
      | .answer true s' => accepted.2.run env accepted.1 s'
      | .answer false s' => rejected.2.run env rejected.1 s'
      | .abort e s' => .failed e s' := by
  unfold branch Guard.decide
  cases g.settle env s with
  | known b s' => cases b <;> rfl
  | ask p s' => rfl

theorem denote_step (env : Setting) (t : Task) (o : Outcome) :
    (let next := step env t o; denoteAll env next.1 next.2) = denote env t o := by
  cases t with
  | adopt outer => cases o <;> rfl
  | judge p start outer accepted rejected =>
    simp only [step, denote]
    split <;> rfl
  | run n c =>
    cases o with
    | failed e s => rfl
    | done s =>
      cases n with
      | zero => rfl
      | succ n =>
        cases c with
        | ite g a b => exact denote_branch env s g n (n + 1, a) (n + 1, b)
        | loop g body =>
          refine (denote_branch env s g n (n, .seq body (.loop g body)) (n + 1, .skip)).trans ?_
          cases hd : g.decide env (Cmd.run env n) s with
          | answer accepted s' => cases accepted <;> simp [denote, Cmd.run, Cmd.exec, hd]
          | abort e s' => simp [denote, Cmd.run, Cmd.exec, hd]
        | dispatch t =>
          simp only [step, start, denote, Cmd.run, Cmd.exec]
          cases t.decide env.stream env.options.detectAmbiguity s.index <;> rfl
        | seq a b =>
          simp only [step, start, denote, denoteAll, List.foldl, Cmd.run, Cmd.exec]
          cases a.exec env (Cmd.run env n) s <;> rfl
        | nest body =>
          simp only [step, start, denote, denoteAll, List.foldl, Cmd.run, Cmd.exec]
          cases body.exec env (Cmd.run env n) (s.fresh env) <;> rfl
        | _ => rfl

theorem run_eq (env : Setting) (tasks : List Task) (o : Outcome) :
    run env tasks o = denoteAll env tasks o := by
  fun_induction run env tasks o with
  | case1 o => rfl
  | case2 o t rest next ih =>
    rw [ih]
    have h := denote_step env t o
    simp only [denoteAll, List.foldl_append, List.foldl_cons] at h ⊢
    rw [← h]

/-- The machine does what the command means. -/
theorem run_task (env : Setting) (n : Nat) (c : Cmd) (s : State) :
    run env [.run n c] (.done s) = c.run env n s := by
  rw [run_eq]
  rfl

end Machine
end JavaSyntax
