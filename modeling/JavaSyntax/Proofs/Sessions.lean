import Mathlib.Control.Monad.Basic
import JavaSyntax.Proofs.Adequacy
import JavaSyntax.Proofs.Shape
import JavaSyntax.Tree.Equality

/-!
# Sessions and derivations

A call that is not cut off answers what the derivation of its rule comes to, and leaves the
session there. Whatever calls come to, the memo stays one that can be trusted.
-/

namespace JavaSyntax

/-- The ending answers a call so: the draft is the tree, or the error is the answer. -/
def Ending.Gives : Ending → Except ParseError Tree → Prop
  | done q, x => ∃ t, q.draft.items = [t] ∧ x = .ok t
  | failed e _, x => x = .error e

theorem Ending.Gives.unique {o : Ending} {x y : Except ParseError Tree} (hx : o.Gives x)
    (hy : o.Gives y) : x = y := by
  cases o with
  | done q =>
    obtain ⟨t, ht, rfl⟩ := hx
    obtain ⟨u, hu, rfl⟩ := hy
    rw [ht, List.cons.injEq] at hu
    rw [hu.1]
  | failed e i => exact Eq.trans hx (Eq.symm hy)

theorem Entry.rule_ne_emptyMember (e : Entry) : e.rule ≠ .emptyMember := by
  cases e <;> simp [rule]

namespace Session
variable {p : Session}

def startAt (tokens : TokenList) (options : ParseOptions) (i : Nat) : Session :=
  ⟨⟨TokenStream.ofList tokens, options⟩, { index := i }⟩

def after (p : Session) (requests : List Request) : Session :=
  requests.foldl (fun p r => (p.perform r).session) p

/-- The memo of the session holds only what is true of its tokens. -/
def Sound (p : Session) : Prop := p.env.Trusts p.memo

theorem sound_startAt (tokens : TokenList) (options : ParseOptions) (i : Nat) :
    (startAt tokens options i).Sound :=
  Setting.trusts_empty

@[simp] theorem env_run (p : Session) (r : Rule) : (p.run r).2.env = p.env := by
  rw [run_eq]
  split <;> rfl

theorem Sound.run (h : p.Sound) (r : Rule) : (p.run r).2.Sound := by
  have hd := Cmd.derived_run p.env p.levels r.body (s := p.state.fresh p.env) h
  rw [run_eq]
  split <;> rename_i ho <;> rw [ho] at hd <;> exact hd.memo

@[simp] theorem env_perform (p : Session) (r : Request) : (p.perform r).session.env = p.env := by
  cases r with
  | entry e => exact p.env_run e.rule
  | expectEnd => rfl

theorem Sound.perform (h : p.Sound) (r : Request) : (p.perform r).session.Sound := by
  cases r with
  | entry e => exact h.run e.rule
  | expectEnd => exact h

theorem after_singleton (p : Session) (r : Request) : p.after [r] = (p.perform r).session := rfl

theorem env_after (p : Session) (requests : List Request) : (p.after requests).env = p.env := by
  induction requests generalizing p with
  | nil => rfl
  | cons r rs ih => exact (ih _).trans (p.env_perform r)

theorem Sound.after (h : p.Sound) (requests : List Request) : (p.after requests).Sound := by
  induction requests generalizing p with
  | nil => exact h
  | cons r rs ih => exact ih (h.perform r)

/-- Unless it is cut off, the run of a rule answers as the rule ends. -/
theorem Sound.gives_rule (h : p.Sound) {r : Rule} (hr : r ≠ .emptyMember)
    (hc : ∀ err, (p.run r).1 = .error err → err.fault.isCutoff = false) :
    ∃ o, Rule.Ends p.env.stream p.env.options.detectAmbiguity r (p.env.stream.fresh p.index) o ∧
      o.index = (p.run r).2.index ∧ o.Gives (p.run r).1 := by
  have hd := Cmd.derived_run p.env p.levels r.body (s := p.state.fresh p.env) h
  rw [run_eq] at hc ⊢
  split at hc <;> rename_i s ho <;> rw [ho] at hd
  · have hends := Rule.Ends.body (hd.ending rfl)
    obtain ⟨t, kind, ht, -⟩ := hends.single hr rfl
    have ht : s.draft.items = [t] := ht
    exact ⟨_, hends, rfl, t, ht, by simp [treeOf, ht]⟩
  · exact ⟨_, .body (hd.ending (hc _ rfl)), rfl, rfl⟩

theorem Sound.gives (h : p.Sound) (e : Entry)
    (hc : ∀ err, (p.run e.rule).1 = .error err → err.fault.isCutoff = false) :
    ∃ o, Rule.Ends p.env.stream p.env.options.detectAmbiguity e.rule
        (p.env.stream.fresh p.index) o ∧
      o.index = (p.run e.rule).2.index ∧ o.Gives (p.run e.rule).1 :=
  h.gives_rule e.rule_ne_emptyMember hc

theorem Sound.ends_of_ok (h : p.Sound) {r : Rule} (hr : r ≠ .emptyMember) {t : Tree}
    (ht : (p.run r).1 = .ok t) :
    ∃ q, Rule.Ends p.env.stream p.env.options.detectAmbiguity r (p.env.stream.fresh p.index)
      (.done q) ∧ q.index = (p.run r).2.index ∧ q.draft.items = [t] := by
  obtain ⟨o, ho, hindex, hgives⟩ := h.gives_rule hr (by simp [ht])
  rw [ht] at hgives
  cases o with
  | failed err i => cases hgives
  | done q =>
    obtain ⟨u, hu, heq⟩ := hgives
    cases heq
    exact ⟨q, ho, hindex, hu⟩

theorem Sound.ends_of_error (h : p.Sound) {r : Rule} (hr : r ≠ .emptyMember) {err : ParseError}
    (he : (p.run r).1 = .error err) (hc : err.fault.isCutoff = false) :
    Rule.Ends p.env.stream p.env.options.detectAmbiguity r (p.env.stream.fresh p.index)
      (.failed err (p.run r).2.index) := by
  obtain ⟨o, ho, hindex, hgives⟩ := h.gives_rule hr fun err' he' => by
    cases he.symm.trans he'
    exact hc
  rw [he] at hgives
  rw [← hindex]
  cases o with
  | done q =>
    obtain ⟨t, -, heq⟩ := hgives
    cases heq
  | failed err' i =>
    cases hgives
    exact ho

end Session

namespace Rule
variable {r : Rule} {tokens : TokenList} {options : ParseOptions} {t : Tree} {err : ParseError}

/-- A whole parse is a call and a check of the end. -/
theorem parseAll_eq_ok : r.parseAll tokens options = .ok t ↔
    ((Session.start tokens options).run r).1 = .ok t ∧
      ((Session.start tokens options).run r).2.expectEnd = .ok () := by
  unfold parseAll
  rcases hr : (Session.start tokens options).run r with ⟨x, p⟩
  cases x with
  | error err => simp
  | ok u => cases he : p.expectEnd <;> simp [he]

theorem parseAll_eq_error : r.parseAll tokens options = .error err ↔
    ((Session.start tokens options).run r).1 = .error err ∨
      ((Session.start tokens options).run r).1.toBool = true ∧
        ((Session.start tokens options).run r).2.expectEnd = .error err := by
  unfold parseAll
  rcases hr : (Session.start tokens options).run r with ⟨x, p⟩
  cases x with
  | error err' => simp [Except.toBool]
  | ok t => cases he : p.expectEnd <;> simp [he, Except.toBool]

theorem parseAll_of_error (h : ((Session.start tokens options).run r).1 = .error err) :
    r.parseAll tokens options = .error err :=
  parseAll_eq_error.2 (.inl h)

end Rule

theorem parse_eq_ok {e : Entry} {tokens : TokenList} {options : ParseOptions} {t : Tree} :
    parse e tokens options = .ok t ↔
      ((Session.start tokens options).run e.rule).1 = .ok t ∧
        ((Session.start tokens options).run e.rule).2.expectEnd = .ok () :=
  Rule.parseAll_eq_ok

theorem parse_eq_error {e : Entry} {tokens : TokenList} {options : ParseOptions}
    {err : ParseError} :
    parse e tokens options = .error err ↔
      ((Session.start tokens options).run e.rule).1 = .error err ∨
        ((Session.start tokens options).run e.rule).1.toBool = true ∧
          ((Session.start tokens options).run e.rule).2.expectEnd = .error err :=
  Rule.parseAll_eq_error

theorem parse_ends {e : Entry} {tokens : TokenList} {options : ParseOptions} {t : Tree}
    (h : parse e tokens options = .ok t) :
    ∃ q, Rule.Ends (.ofList tokens) options.detectAmbiguity e.rule
      (TokenStream.fresh (.ofList tokens) 0) (.done q) ∧ q.draft.items = [t] := by
  have hs : (Session.start tokens options).Sound := Session.sound_startAt tokens options 0
  obtain ⟨q, hends, -, hitems⟩ := hs.ends_of_ok e.rule_ne_emptyMember (parse_eq_ok.1 h).1
  exact ⟨q, hends, hitems⟩

end JavaSyntax
