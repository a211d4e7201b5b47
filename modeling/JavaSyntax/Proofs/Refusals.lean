import JavaSyntax.Proofs.Expected
import JavaSyntax.Proofs.Internal

/-!
# Refused tokens

A call that fails for the input stops at the token that it refuses, and its error is about this
token: its index is the position that the call leaves, and what is said to be found stands there.
No call passes an end of the source, and where one is refused some other token has been expected.
No rule tries to read it without a look. A rule that starts with a token is called only where
that token is.
-/

namespace JavaSyntax

open Outlook

def TokenList.endIndex (ts : TokenList) : Nat :=
  ts.tokens.toList.findIdx fun t => t.kind == .eof

/-- The error is about the token at the second index, which is refused by a call from the first. -/
structure ParseError.Located (ts : TokenList) (i j : Nat) (e : ParseError) : Prop where
  index : e.tokenIndex = j
  start_le : i ≤ j
  le_end : j ≤ ts.endIndex
  token : ∃ t, ts.tokens[j]? = some t ∧ e.span = t.span ∧
    (t.kind = .eof → ∃ expected, e.fault = .endOfInput expected ∧ expected.isEmpty = false) ∧
    (t.kind ≠ .eof → ∃ expected, e.fault = .unexpectedToken expected t.kind)

/-- Where the end of the source is refused, something has been expected. The rules that start with
a token are called where it stands. -/
def Policy.awaiting : Policy where
  allows expected v := !expected.isEmpty || !(v.kinds 0).contains .eof
  entry
    | .emptyStatement | .emptyMember => [{ ahead := [.single .semi] }]
    | .labeledStatement => [{ ahead := [.single .ident, .single .colon] }]
    | .breakStatement => [{ ahead := [.single .kwBreak] }]
    | .continueStatement => [{ ahead := [.single .kwContinue] }]
    | .staticInitializer => [{ ahead := [.single .kwStatic] }]
    | .voidMethod => [{ ahead := [.single .kwVoid] }]
    | _ => [{}]

theorem Rule.awaits_all (r : Rule) :
    (Policy.awaiting.entry r).all (r.body.obeys .awaiting) = true := by
  revert r
  decide +kernel

theorem Policy.any_awaiting (e : Entry) {s : TokenStream} {p : Place} :
    Any s p.index p (Policy.awaiting.entry e.rule) := by
  have htop : ({} : Outlook).Holds s p.index p := holds_bottom p
  cases e <;> exact htop.any

theorem ParseFault.isCutoff_of_mild {f : ParseFault} (h : f.isFatal = false) :
    f.isCutoff = false := by
  cases f <;> simp_all [isFatal, isCutoff]

section
variable {ts : TokenList} {i j : Nat}

theorem TokenList.endIndex_lt (hend : ts.tokens.back?.map Token.kind = some .eof) :
    ts.endIndex < ts.length := by
  obtain ⟨t, ht, hkind⟩ := Option.map_eq_some_iff.1 hend
  have hmem : t ∈ ts.tokens.toList := Array.mem_toList_iff.2 (Array.mem_of_back? ht)
  rw [length, ← Array.length_toList]
  exact List.findIdx_lt_length_of_exists ⟨t, hmem, by rw [hkind]; rfl⟩

theorem TokenStream.tokenAt_ofList {t : Token} (h : ts.tokens[i]? = some t) :
    (ofList ts).tokenAt i = t := by
  rw [tokenAt, list_ofList, h]
  rfl

theorem TokenList.kind_endIndex (hend : ts.tokens.back?.map Token.kind = some .eof) :
    ((TokenStream.ofList ts).tokenAt ts.endIndex).kind = .eof := by
  have hlt : ts.endIndex < ts.tokens.toList.length := by
    rw [Array.length_toList]
    exact endIndex_lt hend
  have hfound : (ts.tokens.toList[ts.endIndex].kind == .eof) = true :=
    @List.findIdx_getElem Token (fun t => t.kind == .eof) ts.tokens.toList hlt
  rw [TokenStream.tokenAt_ofList (Array.getElem?_eq_getElem (endIndex_lt hend))]
  exact beq_iff_eq.1 hfound

theorem TokenStream.located_unexpectedAt (hend : ts.tokens.back?.map Token.kind = some .eof)
    (hij : i ≤ j) (hj : j ≤ ts.endIndex) {expected : KindSet}
    (hexpected : (ofList ts).kindAt j = .eof → expected.isEmpty = false) (remark : Option Remark) :
    ((ofList ts).unexpectedAt expected remark j).Located ts i j := by
  obtain ⟨t, ht⟩ : ∃ t, ts.tokens[j]? = some t :=
    ⟨_, Array.getElem?_eq_getElem (Nat.lt_of_le_of_lt hj (TokenList.endIndex_lt hend))⟩
  have hat : (ofList ts).tokenAt j = t := tokenAt_ofList ht
  rw [← kind_tokenAt_ofList, hat] at hexpected
  rw [unexpectedAt, hat]
  exact ⟨rfl, hij, hj, t, ht, rfl, fun heof => ⟨expected, if_pos heof, hexpected heof⟩,
    fun hne => ⟨expected, if_neg hne⟩⟩

end

namespace Session
variable {p : Session} {m : Nat}

/-- Calls do not pass an end of the source, whether they fail or not. -/
theorem index_perform_le (h : p.env.Ready p.state) (hm : (p.env.stream.tokenAt m).kind = .eof)
    (hle : p.index ≤ m) (call : Request) : (p.perform call).session.index ≤ m := by
  cases call with
  | entry e =>
    rw [perform, run_outcome]
    exact law_outcome (p.env.index_law hm) h e.rule hle
  | expectEnd => exact hle

theorem index_after_le (h : p.env.Ready p.state) (hm : (p.env.stream.tokenAt m).kind = .eof)
    (hle : p.index ≤ m) (calls : List Request) :
    (p.after calls).env.Ready (p.after calls).state ∧ (p.after calls).index ≤ m := by
  induction calls generalizing p with
  | nil => exact ⟨h, hle⟩
  | cons call calls ih =>
    exact ih (ready_perform h call) (by rwa [env_perform]) (index_perform_le h hm hle call)

/-- The error of a call that fails for the input refuses the token where the call stops. -/
theorem refuses_run (hs : ∀ i, (p.env.stream.tokenAt i).kind = p.env.stream.kindAt i)
    (h : p.Sound) {e : Entry} {err : ParseError} (he : (p.run e.rule).1 = .error err)
    (hmild : err.isFatal = false) : p.index ≤ (p.run e.rule).2.index ∧
      Policy.awaiting.Refuses p.env.stream err (p.run e.rule).2.index := by
  have hends := h.ends_of_error e.rule_ne_emptyMember he (ParseFault.isCutoff_of_mild hmild)
  refine ⟨hends.covers.index_le, ?_⟩
  obtain hfatal | hrefuses := hends.refuses hs Rule.awaits_all (Policy.any_awaiting e)
  · cases hfatal.symm.trans hmild
  · exact hrefuses

/-- A call that fails for the input refuses the token where it stops, which is at most the first
end of the source. -/
theorem located_perform {ts : TokenList} (henv : p.env.stream = .ofList ts)
    (hend : ts.tokens.back?.map Token.kind = some .eof) (h : p.env.Ready p.state)
    (hle : p.index ≤ ts.endIndex) (call : Request) {e : ParseError}
    (he : (p.perform call).result = .error e) (hmild : e.isFatal = false) :
    e.Located ts p.index (p.perform call).session.index := by
  have hs : ∀ i, (p.env.stream.tokenAt i).kind = p.env.stream.kindAt i := by
    rw [henv]
    exact TokenStream.kind_tokenAt_ofList ts
  have hstop : (p.perform call).session.index ≤ ts.endIndex :=
    index_perform_le h (henv ▸ TokenList.kind_endIndex hend) hle call
  cases call with
  | entry entry =>
    have hrun : (p.run entry.rule).1 = .error e := by
      rw [perform] at he
      cases hr : (p.run entry.rule).1 with
      | ok t => simp [hr, Except.map] at he
      | error e' => simpa [hr, Except.map] using he
    obtain ⟨hstart, expected, remark, i, q, v, hv, hq, hallows, rfl⟩ :=
      refuses_run hs h.trusts hrun hmild
    rw [henv] at hv ⊢
    refine TokenStream.located_unexpectedAt hend hstart hstop (fun heof => ?_) remark
    have hhere := hv.contains_kinds 0
    rw [Nat.add_zero, hq, heof] at hhere
    simpa [Policy.awaiting, hhere] using hallows
  | expectEnd =>
    rw [perform, expectEnd] at he
    split at he
    · cases he
    · rename_i hkind
      cases he
      rw [henv] at hkind
      change ParseError.Located ts p.index p.index
        (p.env.stream.unexpectedAt (.single .eof) none p.index)
      rw [henv]
      exact TokenStream.located_unexpectedAt hend (Nat.le_refl _) hle
        (fun heof => absurd heof hkind) none

end Session

/-- On a list that ends with the end of the source, a call that fails for the input, whatever was
called before, is about the token where it stops: not before its start, and not behind the first
end of the source. It is an end of input with something expected at the end of the source, and
elsewhere an unexpected token of the kind that stands there. -/
theorem located_of_calls (ts : TokenList) (options : ParseOptions) (i : Nat)
    (calls : List Request) (call : Request)
    (hend : ts.tokens.back?.map Token.kind = some .eof) (hi : i ≤ ts.endIndex) :
    let p := (Session.startAt ts options i).after calls
    ∀ e, (p.perform call).result = .error e →
      ((∃ expected found, e.fault = .unexpectedToken expected found) ∨
        ∃ expected, e.fault = .endOfInput expected) →
      e.Located ts p.index (p.perform call).session.index := by
  intro p e he hfault
  have hready := Session.ready_startAt options hend
    (Nat.lt_of_le_of_lt hi (TokenList.endIndex_lt hend))
  obtain ⟨hp, hle⟩ := Session.index_after_le hready (TokenList.kind_endIndex hend) hi calls
  refine Session.located_perform ?_ hend hp hle call he ?_
  · rw [Session.env_after]
    rfl
  · obtain ⟨expected, found, hf⟩ | ⟨expected, hf⟩ := hfault
    · rw [ParseError.isFatal, hf]
      rfl
    · rw [ParseError.isFatal, hf]
      rfl

/-- `class ;` fails at the semicolon, as does a check of the end there, and a block that is not
closed fails at the end. -/
theorem located_of_calls_class :
    let ts : TokenList :=
      { source := "class ;"
        tokens := #[⟨.kwClass, ⟨0, 5⟩, ⟨1, 1⟩⟩, ⟨.semi, ⟨6, 7⟩, ⟨1, 7⟩⟩, ⟨.eof, ⟨7, 7⟩, ⟨1, 8⟩⟩] }
    let us : TokenList :=
      { source := "\x7b", tokens := #[⟨.lbrace, ⟨0, 1⟩, ⟨1, 1⟩⟩, ⟨.eof, ⟨1, 1⟩, ⟨1, 2⟩⟩] }
    let named : ParseError :=
      { fault := .unexpectedToken (.single .ident) .semi, span := ⟨6, 7⟩, tokenIndex := 1 }
    let checked : ParseError :=
      { fault := .unexpectedToken (.single .eof) .semi, span := ⟨6, 7⟩, tokenIndex := 1 }
    let closed : ParseError :=
      { fault := .endOfInput (.single .rbrace), span := ⟨1, 1⟩, tokenIndex := 1 }
    let p := (Session.startAt ts {} 0).after [.entry .classDeclaration]
    ((Session.startAt ts {} 0).perform (.entry .classDeclaration)).result = .error named ∧
      named.Located ts 0 1 ∧ (p.perform .expectEnd).result = .error checked ∧
      checked.Located ts 1 1 ∧
      ((Session.startAt us {} 0).perform (.entry .block)).result = .error closed ∧
      closed.Located us 0 1 := by
  intro ts us named checked closed p
  have hp : p = ((Session.startAt ts {} 0).perform (.entry .classDeclaration)).session :=
    Session.after_singleton _ _
  have hclass : ((Session.startAt ts {} 0).perform (.entry .classDeclaration)).result =
        .error named ∧ p.index = 1 ∧ (p.perform .expectEnd).result = .error checked := by
    simp only [hp, Session.perform, Session.expectEnd, Session.run_eq]
    decide
  have hblock : ((Session.startAt us {} 0).perform (.entry .block)).result = .error closed ∧
      ((Session.startAt us {} 0).perform (.entry .block)).session.index = 1 := by
    simp only [Session.perform, Session.run_eq]
    decide
  obtain ⟨hnamed, hindex, hchecked⟩ := hclass
  obtain ⟨hclosed, hindex'⟩ := hblock
  have hlocated : named.Located ts 0
      ((Session.startAt ts {} 0).perform (.entry .classDeclaration)).session.index :=
    located_of_calls ts {} 0 [] (.entry .classDeclaration) (by decide) (by decide) named hnamed
      (.inl ⟨_, _, rfl⟩)
  have hlocated' : checked.Located ts p.index p.index :=
    located_of_calls ts {} 0 [.entry .classDeclaration] .expectEnd (by decide) (by decide) checked
      hchecked (.inl ⟨_, _, rfl⟩)
  have hlocated'' : closed.Located us 0
      ((Session.startAt us {} 0).perform (.entry .block)).session.index :=
    located_of_calls us {} 0 [] (.entry .block) (by decide) (by decide) closed hclosed
      (.inr ⟨_, rfl⟩)
  rw [← hp, hindex] at hlocated
  rw [hindex] at hlocated'
  rw [hindex'] at hlocated''
  exact ⟨hnamed, hlocated, hchecked, hlocated', hclosed, hlocated''⟩

end JavaSyntax
