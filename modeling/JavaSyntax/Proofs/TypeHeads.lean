import JavaSyntax.Proofs.Barren
import JavaSyntax.Proofs.DeadEnds
import JavaSyntax.Proofs.Decisions

/-!
# Skipped probes

Where the scan finds no method reference behind type arguments, the probe for one is skipped. It
would have failed: what it reads spreads the barren index that it starts from, so it comes to no
annotation with arguments and to no double colon. All that it may ask on its way is for dimensions
behind annotations, and so none of its errors is fatal unless the budget or the levels run out. A
name is then read as it would have been behind the failed probe.
-/

namespace JavaSyntax

open Relation (ReflTransGen)

/-- If the error is fatal, then the budget or the levels ran out. -/
def ParseError.Limited (e : ParseError) : Prop :=
  e.isFatal = true → e.fault = .stalled ∨ e.fault.isExhausted = true

/-- The guard takes no probe, or it is the one for dimensions. -/
def Guard.wary (g : Guard) : Bool := g.probe?.isNone || g == Grammar.dimsAhead

def Cmd.wary : Cmd → Bool
  | seq a b => a.wary && b.wary
  | ite g a b => g.wary && a.wary && b.wary
  | loop g body => g.wary && body.wary
  | nest body => body.wary
  | _ => true

/-- The command reads parts of types, and its guards are wary. -/
def Cmd.isArgument (c : Cmd) (v : Outlook) : Bool := c.avoids .untypal Rule.isArgument v && c.wary

theorem Rule.wary_all (r : Rule) : (!r.isArgument || r.body.wary) = true := by
  cases r with
  | name | type | referenceType | dims | typeArguments | typeArgument | annotationUse => decide
  | _ => rfl

/-- The memo can be trusted, and the scan from the index finds no method reference. -/
structure State.Barren (env : Setting) (d : Nat) (s : State) : Prop where
  trusts : env.Trusts s.memo
  barren : env.stream.Barren d s.index

/-- What runs deeper is derived, and where it is part of a type and starts from a barren index it
fails only within limits. -/
structure Setting.Sparing (env : Setting) (d : Nat) (deeper : Cmd → State → Outcome) : Prop where
  derived : ∀ c (s : State), env.Trusts s.memo → (deeper c s).Derived env c s.place
  cmd : ∀ c v i (s : State), c.isArgument v = true → v.Holds env.stream i s.place →
    s.Barren env d → (deeper c s).Fails ParseError.Limited
  rule : ∀ (r : Rule) (s : State), r.isArgument = true → s.Barren env d →
    (deeper r.body s).Fails ParseError.Limited

section
variable {env : Setting} {deeper : Cmd → State → Outcome} {P : ParseError → Prop} {a b c : Cmd}
  {g : Guard} {s t : State} {v : Outlook} {i d : Nat} {k : TokenKind}

theorem Cmd.fails_seq (ha : (a.exec env deeper s).Fails P)
    (hb : ∀ t, a.exec env deeper s = .done t → (b.exec env deeper t).Fails P) :
    ((a ++ b).exec env deeper s).Fails P := by
  change ((Cmd.seq a b).exec env deeper s).Fails P
  rw [exec]
  split
  · exact hb _ ‹_›
  · rename_i ha'
    rwa [ha'] at ha

theorem Cmd.exec_no {u : Test} (hu : u.holds env.stream s.index s.draft = false) :
    (Cmd.ite (.test u) a b).exec env deeper s = b.exec env deeper s := by
  simp only [exec, Guard.decide, Guard.settle, hu]

theorem State.limited_unexpected (expected : KindSet) (remark : Option Remark) :
    (s.unexpected env expected remark).Limited := by
  intro hfatal
  have hmild : (s.unexpected env expected remark).fault.isFatal = false :=
    Table.isFatal_ofFound _ _
  rw [ParseError.isFatal, hmild] at hfatal
  cases hfatal

theorem State.limited_shift : (s.shift env).Fails ParseError.Limited := by
  obtain ⟨-, -, h⟩ | ⟨-, ⟨-, h⟩ | ⟨-, h⟩⟩ := s.shift_cases env <;> rw [h]
  · exact fun _ => .inr rfl
  · exact limited_unexpected _ _
  · trivial

theorem Cmd.limited_expect : ((Cmd.expect k).exec env deeper s).Fails ParseError.Limited := by
  rw [Cmd.expect, exec]
  split
  · rename_i t _
    exact t.limited_shift
  · exact State.limited_unexpected _ _
  · rename_i h
    cases h

theorem Grammar.atSign_of_dimsAhead {s : TokenStream} {p : Place} {probe : Probe}
    (h : dimsAhead.query s p = .ask probe) :
    s.kindAt p.index = .atSign ∧ probe = .annotatedDims := by
  rw [dimsAhead, Guard.query] at h
  split at h
  · cases h
  · split at h
    · rename_i hat
      cases h
      simpa [Test.here, Test.holds] using hat
    · cases h

theorem State.Barren.of_place (hs : s.Barren env d) (hm : env.Trusts t.memo)
    (hplace : t.place = s.place) : t.Barren env d := by
  refine ⟨hm, ?_⟩
  rw [show t.index = s.index from congrArg Place.index hplace]
  exact hs.barren

theorem State.Barren.enterProbe (hs : s.Barren env d) : (s.enterProbe env).Barren env d :=
  ⟨hs.trusts, hs.barren⟩

theorem State.Barren.after (hs : s.Barren env d) (hc : c.avoids .untypal Rule.isArgument v = true)
    (hv : v.Holds env.stream i s.place) {o : Outcome} (ho : o.Derived env c s.place)
    (ht : o = .done t) : t.Barren env d := by
  subst ht
  have hends : env.Ends c s.place (.done t.place) := ho.ending rfl
  exact ⟨ho.memo, (hends.mono fun _ _ _ h => h.spreads).spreads hc hv d hs.barren⟩

theorem State.limited_conclude {probe : Probe} {start : Nat} {outer : Draft} {o : Outcome}
    (hstart : start < env.stream.length) (ho : o.Fails ParseError.Limited) :
    (conclude env probe start outer o).Fails ParseError.Limited := by
  unfold conclude
  dsimp only
  rw [if_neg (by rw [TokenStream.lastIndex]; omega)]
  cases o with
  | done u => trivial
  | failed e u =>
    dsimp only
    split
    · exact ho
    · trivial

theorem Guard.limited_decide (hd : env.Sparing d deeper) (hg : g.wary = true)
    (hs : s.Barren env d) : (g.decide env deeper s).Fails ParseError.Limited := by
  have hsettles := settles_settle hs.trusts g
  unfold Guard.decide
  cases hask : g.settle env s with
  | known answer t => trivial
  | ask probe t =>
    rw [hask] at hsettles
    obtain ⟨hplace, hm, hquery⟩ := hsettles
    have hdims : g = Grammar.dimsAhead := by
      rw [Guard.wary, probe?_eq_of_settle hask] at hg
      simpa using hg
    rw [hdims] at hquery
    obtain ⟨hat, rfl⟩ := Grammar.atSign_of_dimsAhead hquery
    have hlt : s.index < env.stream.length :=
      TokenStream.lt_length_of_kindAt (by rw [show s.index = s.place.index from rfl, hat]; decide)
    have hprobe : (deeper Grammar.dim (t.enterProbe env)).Fails ParseError.Limited :=
      hd.cmd Grammar.dim {} _ _ (by decide) (Outlook.holds_bottom _)
        (hs.of_place hm hplace).enterProbe
    exact State.limited_conclude hlt hprobe

theorem State.Barren.of_decide {answer : Bool} (hs : s.Barren env d) (hd : env.Sparing d deeper)
    (h : g.decide env deeper s = .answer answer t) :
    t.Barren env d ∧ t.place = s.place ∧ g.Allows env.stream s.place answer := by
  have hsettles := Cmd.settles_decide hd.derived g hs.trusts
  rw [h] at hsettles
  obtain ⟨hplace, hm, hanswered⟩ := hsettles
  exact ⟨hs.of_place hm hplace, hplace, Guard.allows_of_answered hanswered⟩

/-- A command for parts of types fails only within limits from a barren index. -/
theorem Cmd.limited_exec (hd : env.Sparing d deeper) (hc : c.isArgument v = true)
    (hv : v.Holds env.stream i s.place) (hs : s.Barren env d) :
    (c.exec env deeper s).Fails ParseError.Limited := by
  rw [isArgument, Bool.and_eq_true] at hc
  obtain ⟨hc, hw⟩ := hc
  induction c generalizing s v i with
  | skip => trivial
  | shift => exact State.limited_shift
  | fail expected remark => exact State.limited_unexpected _ _
  | seq a b iha ihb =>
    rw [avoids, Bool.and_eq_true] at hc
    rw [wary, Bool.and_eq_true] at hw
    refine fails_seq (iha hv hs hc.1 hw.1) fun t ht => ?_
    have hderived := derived_exec hd.derived a hs.trusts
    have hends : env.Ends a s.place (.done t.place) := (ht ▸ hderived).ending rfl
    have hexits := hends.exits (fun _ _ _ h => h.covers) (fun _ _ _ h => h.exits) hv
    obtain ⟨w, hw', hvt⟩ := hexits.merge
    exact ihb hvt (hs.after hc.1 hv hderived ht) (List.all_eq_true.1 hc.2 w hw') hw.2
  | ite g a b iha ihb =>
    rw [avoids, Bool.and_eq_true, List.all_eq_true, List.all_eq_true] at hc
    rw [wary, Bool.and_eq_true, Bool.and_eq_true] at hw
    have hg := Guard.limited_decide hd hw.1.1 hs
    rw [exec]
    split
    · rename_i t ht
      obtain ⟨hbarren, hplace, hallows⟩ := hs.of_decide hd ht
      obtain ⟨w, hw', hvw⟩ := Guard.any_assume hv hallows
      exact iha (hplace ▸ hvw) hbarren (hc.1 w hw') hw.1.2
    · rename_i t ht
      obtain ⟨hbarren, hplace, hallows⟩ := hs.of_decide hd ht
      obtain ⟨w, hw', hvw⟩ := Guard.any_assume hv hallows
      exact ihb (hplace ▸ hvw) hbarren (hc.2 w hw') hw.2
    · rename_i e t ht
      rwa [ht] at hg
  | loop g body _ =>
    have hloop : (Cmd.loop g body).avoids .untypal Rule.isArgument v = true := hc
    rw [avoids, List.all_eq_true] at hc
    rw [wary, Bool.and_eq_true] at hw
    have hg := Guard.limited_decide hd hw.1 hs
    rw [exec]
    split
    · rename_i t ht
      obtain ⟨hbarren, hplace, hallows⟩ := hs.of_decide hd ht
      obtain ⟨w, hw', hvw⟩ := Guard.any_assume (Outlook.holds_bottom s.place) hallows
      refine hd.cmd _ w s.place.index t ?_ (hplace ▸ hvw) hbarren
      simp only [isArgument, avoids, wary, Bool.and_eq_true]
      exact ⟨⟨hc w hw', List.all_eq_true.2 fun _ _ => hloop⟩, hw.2, hw⟩
    · trivial
    · rename_i e t ht
      rwa [ht] at hg
  | nest body ih =>
    have hb := ih (s := s.fresh env) (hv.forget rfl) ⟨hs.trusts, hs.barren⟩ hc hw
    rw [exec]
    split
    · trivial
    · rename_i e t ht
      rwa [ht] at hb
  | jump r => exact hd.rule r s hc hs
  | dispatch t => cases hc
  | close kind => trivial
  | wrap kind => trivial

namespace Grammar

/-- Type arguments are closed by what has opened them, and inside one more bracket is open. -/
theorem limited_typeArguments (hd : ∀ d, env.Sparing d deeper) (hs : s.Barren env d) :
    (typeArguments.exec env deeper s).Fails ParseError.Limited := by
  refine Cmd.fails_seq (Cmd.fails_seq (Cmd.fails_seq Cmd.limited_expect fun t ht => ?_)
    fun _ _ => Cmd.limited_expect) fun _ _ => trivial
  have hderived := Cmd.derived_exec (hd d).derived (Cmd.expect .less) hs.trusts
  rw [ht] at hderived
  obtain ⟨hless, hplace⟩ := (hderived.ending rfl).of_expect
  have hinside : t.Barren env (d + 1) := by
    refine ⟨hderived.memo, ?_⟩
    rw [show t.index = s.index + 1 from congrArg Place.index hplace]
    exact hs.barren.less hless
  exact Cmd.limited_exec (hd (d + 1)) (by decide) (Outlook.holds_bottom _) hinside

theorem limited_annotationUse (hd : env.Sparing d deeper) (hs : s.Barren env d) :
    (annotationUse.exec env deeper s).Fails ParseError.Limited := by
  let head : Cmd := .expect .atSign ++ .call .name
  have hhead : head.isArgument {} = true := by decide
  refine Cmd.fails_seq (Cmd.fails_seq
    (Cmd.limited_exec hd hhead (Outlook.holds_bottom _) hs) fun t ht => ?_) fun _ _ => trivial
  have ht' : t.Barren env d := hs.after (Bool.and_eq_true_iff.1 hhead).1 (Outlook.holds_bottom _)
    (Cmd.derived_exec hd.derived head hs.trusts) ht
  rw [Cmd.opt, Cmd.exec_no]
  · trivial
  · simpa [Test.here, Test.holds] using ht'.barren.kindAt_ne_lparen

end Grammar

theorem Setting.sparing_run (env : Setting) (n d : Nat) : env.Sparing d (Cmd.run env n) := by
  induction n generalizing d with
  | zero =>
    exact ⟨fun c _ h => Cmd.derived_run env 0 c h, fun _ _ _ _ _ _ _ _ => .inl rfl,
      fun _ _ _ _ _ => .inl rfl⟩
  | succ n ih =>
    refine ⟨fun c _ h => Cmd.derived_run env (n + 1) c h,
      fun c v i s hc hv hs => Cmd.limited_exec (ih d) hc hv hs, fun r s hr hs => ?_⟩
    have hwary := r.wary_all
    have havoids := r.avoids_all
    rw [hr, Bool.not_true, Bool.false_or] at hwary havoids
    rcases Bool.or_eq_true_iff.1 havoids with hbracketed | havoids
    · cases r with
      | typeArguments => exact Grammar.limited_typeArguments ih hs
      | annotationUse => exact Grammar.limited_annotationUse (ih d) hs
      | _ => cases hbracketed
    · have hbody : r.body.isArgument {} = true := Bool.and_eq_true_iff.2 ⟨havoids, hwary⟩
      exact Cmd.limited_exec (ih d) hbody (Outlook.holds_bottom _) hs

namespace Probe

/-- The probe for a method reference on a type fails only within limits from a barren index. -/
theorem limited_genericMethodRef (hs : s.Barren env 0) (n : Nat) :
    ((fragment .genericMethodRef).run env n s).Fails ParseError.Limited := by
  cases n with
  | zero => exact fun _ => .inl rfl
  | succ n =>
    refine Cmd.fails_seq ?_ fun _ _ => Cmd.limited_expect
    exact Cmd.limited_exec (env.sparing_run n 0) (by decide) (Outlook.holds_bottom _) hs

theorem failed_genericMethodRef (hs : s.Barren env 0) (n : Nat) :
    ∃ e t, (fragment .genericMethodRef).run env n s = .failed e t := by
  have hderived := Cmd.derived_run env n (fragment .genericMethodRef) hs.trusts
  cases ho : (fragment .genericMethodRef).run env n s with
  | done t =>
    rw [ho] at hderived
    exact absurd (hderived.ending rfl) (not_genericMethodRef hs.barren)
  | failed e t => exact ⟨e, t, rfl⟩

end Probe

namespace Grammar
open Cmd

/-- The guard at a name, without the scan that may skip its probe. -/
def nameProbe : Guard := .trial .never (.afterName 0 (.single .less)) .genericMethodRef

/-- A primary that starts with a name, where the probe for a method reference on a type is not
skipped. -/
def nameProbed : Cmd := ite nameProbe (call .type ++ methodReference) nameOrType

theorem limited_nameOrType (hd : env.Sparing 0 deeper) (hs : s.Barren env 0)
    (hless : env.stream.kindAt (env.stream.nameEnd s.index) = .less) :
    (nameOrType.exec env deeper s).Fails ParseError.Limited := by
  have hbehind (first second : TokenKind) (hfirst : first ≠ .less) :
      (behindName first second).holds env.stream s.index s.draft = false := by
    simp [behindName, Test.holds, hless, hfirst.symm]
  rw [nameOrType, exec_no (hbehind _ _ (by decide)), nameOrClass,
    exec_no (hbehind _ _ (by decide))]
  have hname : (Cmd.call .name).isArgument {} = true := by decide
  refine fails_seq (limited_exec hd hname (Outlook.holds_bottom _) hs) fun t ht => ?_
  have hderived := derived_exec hd.derived (Cmd.call .name) hs.trusts
  rw [ht] at hderived
  obtain ⟨m, hrule, hplace⟩ := (hderived.ending rfl).called
  have hindex : t.index = env.stream.nameEnd s.index :=
    (congrArg Place.index hplace).trans hrule.nameEnd_eq.2.symm
  have hnot (k : TokenKind) (hk : k ≠ .less) :
      (Test.here k).holds env.stream t.index t.draft = false := by
    simp [Test.here, Test.holds, hindex, hless, hk.symm]
  rw [exec_no (hnot _ (by decide)), exec_no, opt, exec_no]
  · trivial
  · rw [Test.holds, hnot _ (by decide), Bool.false_and]
  · rw [Test.holds, hnot _ (by decide), Bool.false_and]

end Grammar

/-- Before a name whose bracket the scan gives up the state is barren. -/
theorem State.barren_of_nameEnd (hm : env.Trusts s.memo)
    (hident : env.stream.kindAt s.index = .ident)
    (hscan : env.stream.scanTypePrefix (env.stream.nameEnd s.index) ≠ .mayBe) : s.Barren env 0 :=
  ⟨hm, TokenStream.Barren.of_nameEnd hscan hident⟩

theorem Guard.settle_typeHead {probe : Probe} (hm : env.Trusts s.memo)
    (hscan : env.stream.kindAt (env.stream.nameEnd s.index) = .less →
      env.stream.scanTypePrefix (env.stream.nameEnd s.index) = .mayBe) :
    (typeHead probe).settle env s =
      (trial .never (.afterName 0 (.single .less)) probe).settle env s := by
  by_cases hless : env.stream.kindAt (env.stream.nameEnd s.index) = .less
  · have hmay := PredictionMemo.mayBeTypePrefix_of_mayBe hm.deadEnd (hscan hless)
    simp [settle, Test.holds, hless, hmay]
  · simp [settle, Test.holds, hless]

theorem Outcome.isCutoff_eq_false {o : Outcome} (hlimited : o.Fails ParseError.Limited)
    (hlevels : o.Fails ParseError.Unstalled) (hbudget : o.isExhausted = false) :
    o.isCutoff = false ∧ ∀ e t, o = .failed e t → e.isFatal = false := by
  cases o with
  | done t => exact ⟨rfl, nofun⟩
  | failed e t =>
    have hfatal : e.isFatal = false := by
      rw [Bool.eq_false_iff]
      intro hfatal
      obtain hstalled | hexhausted := hlimited hfatal
      · exact hlevels hstalled
      · rw [isExhausted, hexhausted] at hbudget
        cases hbudget
    refine ⟨?_, ?_⟩
    · rw [ParseError.isFatal] at hfatal
      cases hf : e.fault <;> simp_all [isCutoff, ParseFault.isCutoff, ParseFault.isFatal]
    · rintro _ _ ⟨⟩
      exact hfatal

namespace Grammar

theorem limited_nameFirst (hd : env.Sparing 0 deeper) (hs : s.Barren env 0)
    (hless : env.stream.kindAt (env.stream.nameEnd s.index) = .less)
    (hscan : env.stream.scanTypePrefix (env.stream.nameEnd s.index) ≠ .mayBe) :
    (nameFirst.exec env deeper s).Fails ParseError.Limited := by
  have hdecide : ∃ memo, (Guard.typeHead .genericMethodRef).decide env deeper s =
      .answer false { s with memo } := Guard.decide_typeHead_no hscan
  obtain ⟨memo, hdecide⟩ := hdecide
  obtain ⟨hno, -⟩ := hs.of_decide hd hdecide
  rw [nameFirst_eq, Cmd.exec, hdecide]
  exact limited_nameOrType hd hno hless

theorem query_nameProbe {s : TokenStream} {p : Place}
    (hless : s.kindAt (s.nameEnd p.index) = .less) :
    nameProbe.query s p = .ask .genericMethodRef := by
  simp [nameProbe, Guard.query, Test.holds, hless]

theorem limited_nameProbe {n : Nat} (hs : s.Barren env 0)
    (hident : env.stream.kindAt s.index = .ident)
    (hless : env.stream.kindAt (env.stream.nameEnd s.index) = .less) :
    (nameProbe.decide env (Cmd.run env n) s).Fails ParseError.Limited := by
  have hlt : s.index < env.stream.length :=
    TokenStream.lt_length_of_kindAt (by rw [hident]; decide)
  have hsettles := Guard.settles_settle hs.trusts nameProbe
  unfold Guard.decide
  cases hask : nameProbe.settle env s with
  | known answer t => trivial
  | ask probe t =>
    rw [hask] at hsettles
    obtain ⟨hplace, hm, hquery⟩ := hsettles
    cases (query_nameProbe hless).symm.trans hquery
    have hprobe := Probe.limited_genericMethodRef (hs.of_place hm hplace).enterProbe n
    exact State.limited_conclude hlt hprobe

theorem limited_nameProbed {n : Nat} (hs : s.Barren env 0)
    (hident : env.stream.kindAt s.index = .ident)
    (hless : env.stream.kindAt (env.stream.nameEnd s.index) = .less) :
    (nameProbed.exec env (Cmd.run env n) s).Fails ParseError.Limited := by
  have hd := env.sparing_run n 0
  have hg : (nameProbe.decide env (Cmd.run env n) s).Fails ParseError.Limited :=
    limited_nameProbe hs hident hless
  have hsettles := Cmd.settles_decide hd.derived nameProbe hs.trusts
  rw [nameProbed, Cmd.exec]
  split
  · rename_i t ht
    rw [ht, query_nameProbe hless] at hsettles
    obtain ⟨-, -, o, ho, hv⟩ := hsettles
    cases hv.symm.trans (Probe.verdict_genericMethodRef hs.barren ho)
  · rename_i t ht
    obtain ⟨hno, hplace, -⟩ := hs.of_decide hd ht
    refine limited_nameOrType hd hno ?_
    rw [show t.index = s.index from congrArg Place.index hplace]
    exact hless
  · rename_i e t ht
    rwa [ht] at hg

end Grammar

end

section
variable {s : TokenStream} {strict : Bool} {p : Place} {o : Ending}

namespace Grammar

/-- Where the scan finds nothing, the name ends as one that is not probed. -/
theorem nameFirst_ends_of_scan (hscan : s.scanTypePrefix (s.nameEnd p.index) ≠ .mayBe)
    (h : Cmd.Ends s strict (Rule.Ends s strict) nameFirst p o) :
    Cmd.Ends s strict (Rule.Ends s strict) nameOrType p o := by
  have hquery : (Guard.typeHead .genericMethodRef).query s p = .known false := by
    simp [Guard.query, hscan]
  rw [nameFirst_eq] at h
  cases h with
  | known hg h =>
    cases hquery.symm.trans hg
    exact h
  | asked hg => cases hquery.symm.trans hg
  | aborted hg => cases hquery.symm.trans hg

/-- So does one that is probed, for the probe fails. -/
theorem nameProbed_ends_of_barren (hbarren : s.Barren 0 p.index)
    (hless : s.kindAt (s.nameEnd p.index) = .less)
    (h : Cmd.Ends s strict (Rule.Ends s strict) nameProbed p o) :
    Cmd.Ends s strict (Rule.Ends s strict) nameOrType p o := by
  have hquery : nameProbe.query s p = .ask .genericMethodRef := query_nameProbe hless
  cases h with
  | known hg h => cases hquery.symm.trans hg
  | asked hg ht hv h =>
    cases hquery.symm.trans hg
    cases hv.symm.trans (Probe.verdict_genericMethodRef hbarren ht)
    exact h
  | aborted hg ht hv =>
    cases hquery.symm.trans hg
    cases hv.symm.trans (Probe.verdict_genericMethodRef hbarren ht)

end Grammar

end

/-- The memo can be trusted, and where a name starts the levels are enough for the tokens that are
left. -/
structure State.Ample (env : Setting) (n : Nat) (s : State) : Prop where
  trusts : env.Trusts s.memo
  levels : Grammar.nameFirst.rank + 128 * (env.stream.length - s.index) ≤ n

section
variable {env : Setting} {c : Cmd} {n : Nat} {s : State}

theorem State.Ample.unstalled (hended : env.stream.Ended) (hs : s.Ample env n) {m : Nat}
    (hpaced : c.paced = true) (hrank : c.rank + n < m + Grammar.nameFirst.rank) :
    (c.run env m s).Fails ParseError.Unstalled := by
  have hheight : c.rank + 128 * (env.stream.length - s.index) < m := by
    have := hs.levels
    omega
  exact (Frame.Valid.settled (f := ⟨m, .part c, s⟩) hended ⟨hs.trusts, hpaced⟩ hheight).1

theorem Probe.mild_genericMethodRef (hended : env.stream.Ended) (hs : s.Ample env n)
    (hident : env.stream.kindAt s.index = .ident)
    (hscan : env.stream.scanTypePrefix (env.stream.nameEnd s.index) ≠ .mayBe)
    (hbudget : ((fragment .genericMethodRef).run env n s).isExhausted = false) :
    ∃ e t, (fragment .genericMethodRef).run env n s = .failed e t ∧ e.isFatal = false := by
  have hbarren := State.barren_of_nameEnd hs.trusts hident hscan
  obtain ⟨e, t, ho⟩ := failed_genericMethodRef hbarren n
  have hrank : (fragment .genericMethodRef).rank < Grammar.nameFirst.rank := by decide
  have hunstalled : ((fragment .genericMethodRef).run env n s).Fails ParseError.Unstalled :=
    hs.unstalled hended (by decide) (by omega)
  obtain ⟨-, hmild⟩ :=
    Outcome.isCutoff_eq_false (limited_genericMethodRef hbarren n) hunstalled hbudget
  exact ⟨e, t, ho, hmild e t ho⟩

namespace Grammar

/-- A name ends as if its probe were never skipped. -/
theorem ending_nameFirst (hended : env.stream.Ended) (hs : s.Ample env n)
    (hident : env.stream.kindAt s.index = .ident)
    (hfirst : (nameFirst.run env (n + 1) s).isExhausted = false)
    (hprobed : (nameProbed.run env (n + 1) s).isExhausted = false) :
    (nameFirst.run env (n + 1) s).ending = (nameProbed.run env (n + 1) s).ending := by
  by_cases hskip : env.stream.kindAt (env.stream.nameEnd s.index) = .less ∧
      env.stream.scanTypePrefix (env.stream.nameEnd s.index) ≠ .mayBe
  · obtain ⟨hless, hscan⟩ := hskip
    have hbarren := State.barren_of_nameEnd hs.trusts hident hscan
    have hends {c : Cmd} (hpaced : c.paced = true) (hrank : c.rank = nameFirst.rank)
        (hlimited : (c.run env (n + 1) s).Fails ParseError.Limited)
        (hbudget : (c.run env (n + 1) s).isExhausted = false) :
        env.Ends c s.place (c.run env (n + 1) s).ending := by
      have hunstalled : (c.run env (n + 1) s).Fails ParseError.Unstalled :=
        hs.unstalled hended hpaced (by omega)
      obtain ⟨hcutoff, -⟩ := Outcome.isCutoff_eq_false hlimited hunstalled hbudget
      exact (Cmd.derived_run env (n + 1) c hs.trusts).ending hcutoff
    have hfirst := hends (by decide) rfl
      (limited_nameFirst (env.sparing_run n 0) hbarren hless hscan) hfirst
    have hprobed := hends (by decide) (by decide)
      (limited_nameProbed hbarren hident hless) hprobed
    exact (nameProbed_ends_of_barren hbarren.barren hless hprobed).eq
      (nameFirst_ends_of_scan hscan hfirst)
  · have hsettle : (Guard.typeHead .genericMethodRef).settle env s = nameProbe.settle env s :=
      Guard.settle_typeHead hs.trusts (by simpa using hskip)
    have hdecide (deeper : Cmd → State → Outcome) :
        (Guard.typeHead .genericMethodRef).decide env deeper s = nameProbe.decide env deeper s := by
      rw [Guard.decide, Guard.decide, hsettle]
    simp only [nameFirst_eq, nameProbed, Cmd.run, Cmd.exec, hdecide]

end Grammar

/-- Wherever a session comes to a name, its memo can be trusted and its levels are enough. -/
theorem Session.ample_of_chain {p : Session} {r : Rule} {f : Frame} (hended : p.env.stream.Ended)
    (hp : p.Sound) (h : ReflTransGen (Frame.Enters p.env) (p.frame p.levels r) f)
    (hf : f.activity = .part Grammar.nameFirst) :
    ∃ n, f.levels = n + 1 ∧ f.state.Ample p.env n := by
  have hvalid := valid_of_chain hended hp h
  rcases Relation.reflTransGen_iff_eq_or_transGen.1 h with rfl | h
  · cases hf
  · have hle := (Frame.Leads.below hended (valid_frame hp p.levels r) h).2.height_le
    have hlimit := p.height_frame p.levels r
    have hheight : f.height p.env =
        Grammar.nameFirst.rank + 128 * (p.env.stream.length - f.state.index) := by
      rw [Frame.height, hf, Activity.rank]
    change f.height p.env + (p.levels - f.levels) ≤ _ at hle
    rw [depthLimit] at hlimit
    rw [levels] at hle hlimit
    refine ⟨f.levels - 1, ?_, hvalid.trusts, ?_⟩ <;> omega

end

/-- The scan for a method reference on a type is a sound filter. Where a fresh memo finds none
behind a name, the probe for one fails as well, and the parse can go on, unless the budget runs
out. So a name ends as if the probe were never skipped. In every state in which a session comes to
a name the memo can be trusted and the levels are enough. -/
theorem mayBeTypePrefix_filters (ts : TokenList) (options : ParseOptions) :
    let env : Setting := ⟨.ofList ts, options⟩
    (∀ n s, s.Ample env n → env.stream.kindAt s.index = .ident →
      (env.stream.kindAt (env.stream.nameEnd s.index) = .less →
        (({} : PredictionMemo).mayBeTypePrefix env.stream (env.stream.nameEnd s.index)).1 = false →
        ((Probe.fragment .genericMethodRef).run env n s).isExhausted = false →
        ∃ e t, (Probe.fragment .genericMethodRef).run env n s = .failed e t ∧ e.isFatal = false) ∧
      ((Grammar.nameFirst.run env (n + 1) s).isExhausted = false →
        (Grammar.nameProbed.run env (n + 1) s).isExhausted = false →
        (Grammar.nameFirst.run env (n + 1) s).ending =
          (Grammar.nameProbed.run env (n + 1) s).ending)) ∧
    ∀ i calls r f, let p := (Session.startAt ts options i).after calls
      ReflTransGen (Frame.Enters p.env) (p.frame p.levels r) f →
      f.activity = .part Grammar.nameFirst → ∃ n, f.levels = n + 1 ∧ f.state.Ample env n := by
  have hended := TokenStream.kind_past_ofList ts
  refine ⟨fun n s hs hident => ⟨fun _ hfresh hbudget => ?_, ?_⟩, fun i calls r f h hf => ?_⟩
  · have hbarren := TokenStream.Barren.of_mayBeTypePrefix hfresh
    exact Probe.mild_genericMethodRef hended hs hident hbarren hbudget
  · exact Grammar.ending_nameFirst hended hs hident
  · have henv : ((Session.startAt ts options i).after calls).env = ⟨.ofList ts, options⟩ :=
      Session.env_after _ calls
    have hsound := (Session.sound_startAt ts options i).after calls
    obtain ⟨n, hlevels, hample⟩ := Session.ample_of_chain (henv ▸ hended) hsound h hf
    exact ⟨n, hlevels, henv ▸ hample⟩

/-- In `a<b<c` the probe is skipped at the first name. -/
theorem mayBeTypePrefix_filters_comparisons :
    let env : Setting := ⟨.ofList comparisons, {}⟩
    State.Ample env 1000 {} ∧ env.stream.kindAt 0 = .ident ∧
      env.stream.kindAt (env.stream.nameEnd 0) = .less ∧
      (({} : PredictionMemo).mayBeTypePrefix env.stream (env.stream.nameEnd 0)).1 = false ∧
      (∃ e t, (Probe.fragment .genericMethodRef).run env 1000 {} = .failed e t ∧
        e.isFatal = false) ∧
      (Grammar.nameFirst.run env 1001 {}).ending = (Grammar.nameProbed.run env 1001 {}).ending := by
  intro env
  obtain ⟨hname, -⟩ := mayBeTypePrefix_filters comparisons {}
  have hample : State.Ample env 1000 {} := ⟨Setting.trusts_empty, by decide⟩
  obtain ⟨hfails, hsame⟩ := hname 1000 {} hample (by decide)
  refine ⟨hample, by decide, by decide, by decide, ?_, ?_⟩
  · exact hfails (by decide) (by decide) (by decide)
  · exact hsame (by decide) (by decide)

end JavaSyntax
