import JavaSyntax.Proofs.Speculation

/-!
# No internal faults

Calls on a closed list fail only for the input or for want of budget. No probe loses its way back,
no table is ambiguous, and so the check for ambiguous tables changes nothing that is seen of a
session.
-/

namespace JavaSyntax

/-- The faults that lie in the parser itself. -/
def ParseFault.isInternal : ParseFault → Bool
  | .ambiguousTable _ | .invalidCheckpoint | .stalled => true
  | _ => false

def Setting.withCheck (env : Setting) (check : Bool) : Setting :=
  { env with options := { env.options with detectAmbiguity := check } }

section
variable {env : Setting} {check : Bool} {deeper deeper' : Cmd → State → Outcome} {s : State}

theorem Guard.decide_check (hd : ∀ p : Probe, deeper' p.fragment = deeper p.fragment) (g : Guard) :
    g.decide (env.withCheck check) deeper' s = g.decide env deeper s := by
  have hsettle : g.settle (env.withCheck check) s = g.settle env s := by
    cases g <;> rfl
  unfold Guard.decide
  rw [hsettle]
  cases g.settle env s with
  | known answer t => rfl
  | ask p t =>
    simp only [hd]
    rfl

namespace Cmd

/-- Commands whose tables are exclusive do the same with the check, if what they call does. -/
theorem exec_check (hd : ∀ c : Cmd, c.exclusive = true → deeper' c = deeper c) (c : Cmd)
    (hc : c.exclusive = true) : c.exec (env.withCheck check) deeper' s = c.exec env deeper s := by
  have hg (g : Guard) (s : State) :
      g.decide (env.withCheck check) deeper' s = g.decide env deeper s :=
    g.decide_check fun p => hd p.fragment p.exclusive_fragment
  induction c generalizing s with
  | seq a b iha ihb =>
    rw [exclusive, Bool.and_eq_true] at hc
    simp only [exec, iha hc.1, ihb hc.2]
  | ite g a b iha ihb =>
    rw [exclusive, Bool.and_eq_true] at hc
    simp only [exec, hg, iha hc.1, ihb hc.2]
  | loop g body _ =>
    have hloop : (seq body (loop g body)).exclusive = true := by
      rw [exclusive] at hc
      simp [exclusive, hc]
    simp only [exec, hg, hd _ hloop]
  | nest body ih =>
    have hfresh : s.fresh (env.withCheck check) = s.fresh env := rfl
    rw [exec_nest, exec_nest, hfresh, ih hc]
  | jump r => simp only [exec, hd _ r.exclusive_body]
  | dispatch t =>
    have ht := of_decide_eq_true hc
    have hcheck : t.decide env.stream check s.index =
        t.decide env.stream env.options.detectAmbiguity s.index := by
      rw [Table.decide_strict ht, Table.decide_strict ht env.options.detectAmbiguity]
    cases hdecide : t.decide env.stream env.options.detectAmbiguity s.index with
    | ok r =>
      rw [exec_dispatch_ok env _ s hdecide,
        exec_dispatch_ok (env.withCheck check) _ s (hcheck.trans hdecide), hd _ r.exclusive_body]
    | error e =>
      rw [exec_dispatch_error env _ s hdecide,
        exec_dispatch_error (env.withCheck check) _ s (hcheck.trans hdecide)]
  | _ => rfl

theorem run_check (n : Nat) (c : Cmd) (hc : c.exclusive = true) :
    c.run (env.withCheck check) n = c.run env n := by
  induction n generalizing c with
  | zero => rfl
  | succ n ih =>
    funext s
    exact exec_check ih c hc

end Cmd
end

namespace Session
variable {p : Session}

def withCheck (p : Session) (check : Bool) : Session := { p with env := p.env.withCheck check }

/-- What is seen of calls: the results, the positions that they leave, and the tokens that
probes have consumed by then. -/
def ledger (p : Session) (calls : List Request) :
    List (Except ParseError (Option Tree) × Nat × Nat) :=
  (p.replies calls).map fun r => (r.result, r.session.index, r.session.speculated)

theorem run_withCheck (p : Session) (check : Bool) (e : Entry) :
    (p.withCheck check).run e.rule = ((p.run e.rule).1, (p.run e.rule).2.withCheck check) := by
  have ho : (p.withCheck check).outcome e.rule = p.outcome e.rule :=
    congrFun (Cmd.run_check p.levels e.rule.body e.rule.exclusive_body) _
  rw [run_outcome, run_outcome, ho]
  cases p.outcome e.rule <;> rfl

theorem perform_withCheck (p : Session) (check : Bool) (call : Request) :
    (p.withCheck check).perform call =
      ⟨(p.perform call).result, (p.perform call).session.withCheck check⟩ := by
  cases call with
  | entry e => simp only [perform, run_withCheck]
  | expectEnd => rfl

theorem ledger_withCheck (p : Session) (check : Bool) (calls : List Request) :
    (p.withCheck check).ledger calls = p.ledger calls := by
  induction calls generalizing p with
  | nil => rfl
  | cons call calls ih =>
    have ih := ih (p.perform call).session
    simp only [ledger, replies, List.map_cons, perform_withCheck] at ih ⊢
    rw [ih]
    rfl

/-- A rule's call fails with no internal fault: it is not stuck, and what its derivation ends in
is not fatal. -/
theorem isInternal_run (h : p.env.Ready p.state) (e : Entry) {err : ParseError}
    (he : (p.run e.rule).1 = .error err) : err.fault.isInternal = false := by
  have hsound : p.Sound := h.trusts
  have hstuck := hsound.isStuck_run h.closed h.index_le e he
  cases hf : err.fault with
  | ambiguousTable candidates =>
    have hends := hsound.ends_of_error e.rule_ne_emptyMember he (by rw [hf]; rfl)
    have hmild : err.isFatal = false := hends.mild
    rw [ParseError.isFatal, hf] at hmild
    cases hmild
  | _ => simp_all [ParseFault.isInternal, ParseFault.isStuck]

theorem isInternal_perform (h : p.env.Ready p.state) (call : Request) {err : ParseError}
    (he : (p.perform call).result = .error err) : err.fault.isInternal = false := by
  cases call with
  | entry e =>
    apply isInternal_run h e
    rw [perform] at he
    cases hr : (p.run e.rule).1 with
    | ok t => simp [hr, Except.map] at he
    | error err' => simpa [hr, Except.map] using he
  | expectEnd =>
    simp only [perform, expectEnd] at he
    split at he
    · cases he
    · cases he
      change (ParseFault.ofFound _ _).isInternal = false
      unfold ParseFault.ofFound
      split <;> rfl

/-- A call leaves a session that can be called again, also if it fails. -/
theorem ready_perform (h : p.env.Ready p.state) (call : Request) :
    (p.perform call).session.env.Ready (p.perform call).session.state := by
  cases call with
  | entry e =>
    have hindex := law_outcome (p.env.index_law h.closed) h e.rule h.index_le
    have hderived :=
      Cmd.derived_run p.env p.levels e.rule.body (s := p.state.fresh p.env) h.trusts
    rw [perform, run_outcome]
    exact ⟨h.closed, hindex, hderived.memo⟩
  | expectEnd => exact h

theorem isInternal_replies (h : p.env.Ready p.state) (calls : List Request) :
    ∀ r ∈ p.replies calls, ∀ err, r.result = .error err → err.fault.isInternal = false := by
  induction calls generalizing p with
  | nil => simp [replies]
  | cons call calls ih =>
    rw [replies, List.forall_mem_cons]
    exact ⟨fun err he => isInternal_perform h call he, ih (ready_perform h call)⟩

end Session

/-- On a list that ends with the end of the source, no call fails with an internal fault, and the
check for ambiguous tables changes no result, no position and no count. -/
theorem calls_not_internal (ts : TokenList) (options : ParseOptions) (i : Nat)
    (calls : List Request) (hend : ts.tokens.back?.map Token.kind = some .eof)
    (hi : i < ts.length) :
    let p := fun detectAmbiguity => Session.startAt ts { options with detectAmbiguity } i
    (∀ check, ∀ r ∈ (p check).replies calls, ∀ err, r.result = .error err →
      err.fault.isInternal = false) ∧
      (p true).ledger calls = (p false).ledger calls := by
  intro p
  constructor
  · intro check
    exact Session.isInternal_replies (Session.ready_startAt _ hend hi) calls
  · exact Session.ledger_withCheck (p false) true calls

/-- The calls on `@interface A { int b` fail in the middle of a member and at its end, and the
next ones as well. None of the faults is internal. -/
theorem calls_not_internal_member :
    let ts : TokenList :=
      { source := "@interface A \x7b int b"
        tokens := #[⟨.atSign, ⟨0, 1⟩, ⟨1, 1⟩⟩, ⟨.kwInterface, ⟨1, 10⟩, ⟨1, 2⟩⟩,
          ⟨.ident, ⟨11, 12⟩, ⟨1, 12⟩⟩, ⟨.lbrace, ⟨13, 14⟩, ⟨1, 14⟩⟩, ⟨.kwInt, ⟨15, 18⟩, ⟨1, 16⟩⟩,
          ⟨.ident, ⟨19, 20⟩, ⟨1, 20⟩⟩, ⟨.eof, ⟨20, 20⟩, ⟨1, 21⟩⟩] }
    let p := fun detectAmbiguity => Session.startAt ts { detectAmbiguity } 0
    let calls : List Request := [.entry .interfaceDeclaration, .entry .statement, .expectEnd]
    (∀ r ∈ (p true).replies calls, ∀ err, r.result = .error err → err.fault.isInternal = false) ∧
      (p true).ledger calls = (p false).ledger calls ∧
      ((p true).ledger calls).map (fun seen => (seen.1.toBool, seen.2)) =
        [(false, 6, 0), (false, 6, 0), (true, 6, 0)] := by
  intro ts p calls
  obtain ⟨hfaults, hledger⟩ := calls_not_internal ts {} 0 calls (by decide) (by decide)
  refine ⟨hfaults true, hledger, ?_⟩
  simp only [p, calls, Session.ledger, Session.replies, Session.perform, Session.run_eq]
  decide

end JavaSyntax
