import JavaSyntax.Proofs.Brackets
import JavaSyntax.Proofs.Casts

/-!
# What rules read

From what is known of the tokens ahead it is computed which closers a command leaves waiting,
and whether the latest token that it reads dangles. So every rule reads balanced tokens, and the
last of them asks for no other.
-/

namespace JavaSyntax

/-- The kinds of tokens behind which no rule ends. -/
def KindSet.dangling : KindSet := .ofList [.dot, .atSign, .lbracket, .comma]

def TokenKind.brackets : List TokenKind :=
  [.lparen, .rparen, .lbracket, .rbracket, .lbrace, .rbrace]

/-- What is known of the tokens that have been read since an index. -/
structure Reading where
  /-- The closers waited for, innermost first. -/
  waiting : List TokenKind := []
  /-- The latest token, if there is one, does not dangle. -/
  settled : Bool := true
  deriving DecidableEq, Repr

namespace Reading

structure Holds (s : TokenStream) (i j : Nat) (r : Reading) : Prop where
  scan : s.scan i j [] = some r.waiting
  settled : r.settled = true → i < j → KindSet.dangling.contains (s.kindAt (j - 1)) = false

/-- What is known behind a token of one of the kinds. If they are not all plain, it has to be
known which delimiter it is. -/
def read (r : Reading) (ks : KindSet) : Option Reading :=
  if ks.disjoint (.ofList TokenKind.brackets) then
    some { r with settled := ks.disjoint .dangling }
  else
    match TokenKind.brackets.find? fun k => ks.subset (.single k) with
    | some k => (Delimiters.step r.waiting k).map fun waiting =>
        { waiting, settled := !KindSet.dangling.contains k }
    | none => none

/-- The second tells at least what the first one does. -/
def le (r r' : Reading) : Bool := r'.waiting == r.waiting && (!r.settled || r'.settled)

/-- What is known behind a rule, which reads balanced tokens. -/
def behind (r : Reading) (moves : Bool) : Reading := { r with settled := r.settled || moves }

/-- All that may be known, if for each it is. -/
def gather {α : Type} (xs : List α) (f : α → Option (List Reading)) : Option (List Reading) :=
  xs.foldr (fun x rest => (f x).bind fun rs => rest.map fun us => (rs ++ us).eraseDups) (some [])

variable {s : TokenStream} {i j m : Nat} {r r' : Reading}

theorem mem_gather {α : Type} {xs : List α} {f : α → Option (List Reading)} {rs : List Reading}
    (h : gather xs f = some rs) {x : α} (hx : x ∈ xs) : ∃ us, f x = some us ∧ us ⊆ rs := by
  induction xs generalizing rs with
  | nil => cases hx
  | cons y xs ih =>
    obtain ⟨us, hus, h⟩ := Option.bind_eq_some_iff.1 h
    obtain ⟨vs, hvs, rfl⟩ := Option.map_eq_some_iff.1 h
    rcases List.mem_cons.1 hx with rfl | hx
    · exact ⟨us, hus, fun r hr => List.mem_eraseDups.2 (List.mem_append_left _ hr)⟩
    · obtain ⟨us', hus', hsub⟩ := ih hvs hx
      exact ⟨us', hus', fun r hr => List.mem_eraseDups.2 (List.mem_append_right _ (hsub hr))⟩

theorem holds_start (s : TokenStream) (i : Nat) : ({} : Reading).Holds s i i where
  scan := TokenStream.scan_self i
  settled := fun _ h => absurd h (Nat.lt_irrefl i)

theorem Holds.le (h : r'.Holds s i j) (hle : r.le r' = true) : r.Holds s i j := by
  simp only [Reading.le, Bool.and_eq_true, beq_iff_eq, Bool.or_eq_true, Bool.not_eq_true'] at hle
  refine ⟨by rw [← hle.1]; exact h.scan, fun hr => h.settled ?_⟩
  rcases hle.2 with h' | h'
  · cases hr.symm.trans h'
  · exact h'

theorem step_of_plain {k : TokenKind} (h : k ∉ TokenKind.brackets) (waiting : List TokenKind) :
    Delimiters.step waiting k = some waiting := by
  cases k <;> first | rfl | exact absurd (by decide) h

theorem Holds.read (h : r.Holds s i j) (hij : i ≤ j) {ks : KindSet}
    (hk : ks.contains (s.kindAt j) = true) (hr : r.read ks = some r') : r'.Holds s i (j + 1) := by
  have hscan {w} (hw : Delimiters.step r.waiting (s.kindAt j) = some w) :
      s.scan i (j + 1) [] = some w := by
    rw [TokenStream.scan_trans hij (Nat.le_succ j), h.scan, Option.bind_some,
      TokenStream.scan_succ, hw]
  unfold Reading.read at hr
  split at hr
  · rename_i hplain
    cases hr
    have hk' := KindSet.not_contains_of_disjoint hplain hk
    rw [KindSet.contains_ofList] at hk'
    refine ⟨hscan (step_of_plain (by simpa using hk') _), fun hs _ => ?_⟩
    exact KindSet.not_contains_of_disjoint hs hk
  · split at hr
    · rename_i k hfind
      have hsub := List.find?_some hfind
      have hkj : s.kindAt j = k := by simpa using KindSet.contains_of_subset hsub hk
      obtain ⟨w, hw, rfl⟩ := Option.map_eq_some_iff.1 hr
      refine ⟨hscan (hkj ▸ hw), fun hs _ => ?_⟩
      rw [Nat.add_sub_cancel, hkj]
      simpa using hs
    · cases hr

theorem Holds.behind (h : r.Holds s i j) (hij : i ≤ j) (hjm : j ≤ m)
    (hrule : ({} : Reading).Holds s j m) {moves : Bool} (hm : moves = true → j < m) :
    (r.behind moves).Holds s i m where
  scan := by
    rw [TokenStream.scan_trans hij hjm, h.scan]
    exact TokenStream.scan_frame hrule.scan
  settled := by
    intro hs him
    rcases Nat.lt_or_eq_of_le hjm with hlt | rfl
    · exact hrule.settled rfl hlt
    · rcases Bool.or_eq_true_iff.1 hs with hs | hs
      · exact h.settled hs him
      · exact absurd (hm hs) (Nat.lt_irrefl j)

end Reading

/-- The kinds that a rule's first tokens have wherever it is called: those by which a decision
table chooses a rule that reads them unseen. -/
def Rule.starts : Rule → List KindSet
  | breakStatement => [.single .kwBreak]
  | continueStatement => [.single .kwContinue]
  | emptyStatement | emptyMember => [.single .semi]
  | labeledStatement => [.single .ident, .single .colon]
  | voidMethod => [.single .kwVoid]
  | staticInitializer => [.single .kwStatic, .single .lbrace]
  | _ => []

/-- The first tokens are those that the rule is called at. -/
def Rule.Enters (r : Rule) (s : TokenStream) (i : Nat) : Prop :=
  ∀ k (ks : KindSet), r.starts[k]? = some ks → ks.contains (s.kindAt (i + k)) = true

def Rule.moves (r : Rule) : Bool := r.exits.all Outlook.moved

/-- The rows of the table call for rules at tokens which these are called at. -/
def Table.admits (t : Table) : Bool :=
  (t.rows.all fun row => Outlook.leKinds row.pattern row.rule.starts) &&
    t.fallback.all fun r => r.starts.isEmpty

open Outlook Reading in
/-- What is known of the tokens read behind a command, if it can be told. -/
def Cmd.reads : Cmd → Outlook → Reading → Option (List Reading)
  | shift, v, r => (r.read (v.kinds 0)).map fun r' => [r']
  | fail _ _, _, _ => some []
  | seq a b, v, r =>
    (a.reads v r).bind fun rs =>
      gather (merge (a.exits v)) fun w => gather rs fun r' => b.reads w r'
  | ite g a b, v, r =>
    (gather (g.assume true v) fun w => a.reads w r).bind fun rs =>
      (gather (g.assume false v) fun w => b.reads w r).map fun rs' => (rs ++ rs').eraseDups
  | loop g body, _, r =>
    (gather (g.assume true {}) fun w => body.reads w r).bind fun rs =>
      if rs.all r.le then some [r] else none
  | nest body, v, r => body.reads { v with latest := none } r
  | jump q, v, r => if leKinds v.ahead q.starts then some [r.behind q.moves] else none
  | dispatch t, _, r => if t.admits then some [r.behind (t.rules.all Rule.moves)] else none
  | _, _, r => some [r]

/-- The body reads balanced tokens, the last of which does not dangle. -/
def Rule.balanced (r : Rule) : Bool :=
  match r.body.reads { ahead := r.starts } {} with
  | some rs => rs.all fun r' => r' == {}
  | none => false

theorem Rule.balanced_all (r : Rule) : r.balanced = true := by
  revert r
  decide +kernel

section
variable {s : TokenStream} {strict : Bool} {calls : Rule → Place → Ending → Prop} {c : Cmd}
  {rule : Rule} {i : Nat} {p q : Place} {v : Outlook} {r : Reading} {rs : List Reading}

theorem Rule.lt_of_moves (hr : rule.moves = true) (h : Rule.Ends s strict rule p (.done q)) :
    p.index < q.index :=
  h.exits.lt hr

theorem Row.contains_of_fits {pattern : List KindSet} (h : Row.fits s i pattern = true) {k : Nat}
    {ks : KindSet} (hk : pattern[k]? = some ks) : ks.contains (s.kindAt (i + k)) = true := by
  induction pattern generalizing i k with
  | nil => cases hk
  | cons a pattern ih =>
    rw [fits, Bool.and_eq_true] at h
    cases k with
    | zero =>
      cases hk
      exact h.1
    | succ k =>
      rw [Nat.add_comm k, ← Nat.add_assoc]
      exact ih h.2 hk

theorem Rule.enters_of_leKinds {ahead : List KindSet}
    (h : ∀ k (ks : KindSet), ahead[k]? = some ks → ks.contains (s.kindAt (i + k)) = true)
    (hle : Outlook.leKinds ahead rule.starts = true) : rule.Enters s i := by
  intro k ks hk
  obtain ⟨a, ha, hsub⟩ := Outlook.subset_of_leKinds hle hk
  exact KindSet.contains_of_subset hsub (h k a ha)

/-- A table calls for a rule at tokens which it is called at. -/
theorem Table.enters_of_decide {t : Table} (ht : t.admits = true)
    (h : t.decide s strict i = .ok rule) : rule.Enters s i := by
  rw [admits, Bool.and_eq_true, List.all_eq_true] at ht
  obtain ⟨row, hmem, rfl, hfits⟩ | hfall := decide_ok h
  · exact Rule.enters_of_leKinds (fun _ _ => Row.contains_of_fits hfits) (ht.1 row hmem)
  · have hnil := ht.2
    rw [hfall, Option.all_some, List.isEmpty_iff] at hnil
    intro k ks hk
    rw [hnil] at hk
    cases hk

theorem Cmd.Ends.reads (hrules : ∀ r p o, calls r p o → Rule.Ends s strict r p o)
    (hcalls : ∀ r p q, calls r p (.done q) → r.Enters s p.index →
      ({} : Reading).Holds s p.index q.index)
    (h : Cmd.Ends s strict calls c p (.done q)) (hv : v.Holds s i p)
    (hr : r.Holds s i p.index) (hc : c.reads v r = some rs) :
    ∃ r' ∈ rs, r'.Holds s i q.index := by
  induction c generalizing p q v r rs with
  | skip =>
    cases h
    cases hc
    exact ⟨r, List.mem_singleton_self r, hr⟩
  | shift =>
    cases h
    obtain ⟨r', hr', rfl⟩ := Option.map_eq_some_iff.1 hc
    exact ⟨r', List.mem_singleton_self r', hr.read hv.start_le (hv.contains_kinds 0) hr'⟩
  | fail => cases h
  | seq a b iha ihb =>
    obtain ⟨m, ha, hb⟩ := h.seq_done
    obtain ⟨us, hus, hc⟩ := Option.bind_eq_some_iff.1 hc
    obtain ⟨r₁, hr₁, hm⟩ := iha ha hv hr hus
    have hexits := ha.exits (fun r p o h => (hrules r p o h).covers)
      (fun r p q h => (hrules r p _ h).exits) hv
    obtain ⟨w, hw, hvm⟩ := hexits.merge
    obtain ⟨vs, hvs, hsub⟩ := Reading.mem_gather hc hw
    obtain ⟨ws, hws, hsub'⟩ := Reading.mem_gather hvs hr₁
    obtain ⟨r', hr', hq⟩ := ihb hb hvm hm hws
    exact ⟨r', hsub (hsub' hr'), hq⟩
  | ite g a b iha ihb =>
    obtain ⟨answer, hg, h⟩ := h.ite_done
    obtain ⟨us, hus, hc⟩ := Option.bind_eq_some_iff.1 hc
    obtain ⟨vs, hvs, rfl⟩ := Option.map_eq_some_iff.1 hc
    obtain ⟨w, hw, hvw⟩ := Guard.any_assume hv hg
    cases answer with
    | true =>
      obtain ⟨ws, hws, hsub⟩ := Reading.mem_gather hus hw
      obtain ⟨r', hr', hq⟩ := iha h hvw hr hws
      exact ⟨r', List.mem_eraseDups.2 (List.mem_append_left _ (hsub hr')), hq⟩
    | false =>
      obtain ⟨ws, hws, hsub⟩ := Reading.mem_gather hvs hw
      obtain ⟨r', hr', hq⟩ := ihb h hvw hr hws
      exact ⟨r', List.mem_eraseDups.2 (List.mem_append_right _ (hsub hr')), hq⟩
  | loop g body ih =>
    obtain ⟨us, hus, hc⟩ := Option.bind_eq_some_iff.1 hc
    split at hc
    · rename_i hle
      cases hc
      refine ⟨r, List.mem_singleton_self r, ?_⟩
      refine (h.loop_done (I := fun m => i ≤ m.index ∧ r.Holds s i m.index) ?_
        ⟨hv.start_le, hr⟩).1.2
      rintro m m' ⟨him, hm⟩ hg hbody
      have htop : ({} : Outlook).Holds s i m := Outlook.holds_top him (by simp)
      obtain ⟨w, hw, hvw⟩ := Guard.any_assume htop hg
      obtain ⟨ws, hws, hsub⟩ := Reading.mem_gather hus hw
      obtain ⟨r', hr', hm'⟩ := ih hbody hvw hm hws
      have hcovers := hbody.covers fun r p o h => (hrules r p o h).covers
      exact ⟨Nat.le_trans him hcovers.index_le, hm'.le (List.all_eq_true.1 hle r' (hsub hr'))⟩
    · cases hc
  | nest body ih =>
    cases h with
    | @nest _ _ m h =>
      have hfresh : ({ v with latest := none } : Outlook).Holds s i (s.fresh p.index) :=
        ⟨hv.start_le, hv.past, hv.ahead, hv.touch, by simp, hv.moved⟩
      exact ih (p := s.fresh p.index) (q := m) h hfresh hr hc
  | jump rule =>
    cases h with
    | jump h =>
      rw [Cmd.reads] at hc
      split at hc
      · rename_i hle
        cases hc
        refine ⟨_, List.mem_singleton_self _, ?_⟩
        exact hr.behind hv.start_le (hrules _ _ _ h).covers.index_le
          (hcalls _ _ _ h (Rule.enters_of_leKinds hv.ahead hle))
          fun hm => Rule.lt_of_moves hm (hrules _ _ _ h)
      · cases hc
  | dispatch t =>
    cases h with
    | @dispatch _ rule _ _ ht h =>
      rw [Cmd.reads] at hc
      split at hc
      · rename_i hadmits
        cases hc
        refine ⟨_, List.mem_singleton_self _, ?_⟩
        exact hr.behind hv.start_le (hrules _ _ _ h).covers.index_le
          (hcalls _ _ _ h (Table.enters_of_decide hadmits ht))
          fun hm => Rule.lt_of_moves (List.all_eq_true.1 hm rule (Table.mem_rules_of_decide ht))
            (hrules _ _ _ h)
      · cases hc
  | close kind =>
    cases h
    cases hc
    exact ⟨r, List.mem_singleton_self r, hr⟩
  | wrap kind =>
    cases h
    cases hc
    exact ⟨r, List.mem_singleton_self r, hr⟩

/-- A rule that is entered where it may be reads balanced tokens, the last of which does not
dangle. -/
theorem Rule.Ends.reads (h : Rule.Ends s strict rule p (.done q)) (he : rule.Enters s p.index) :
    ({} : Reading).Holds s p.index q.index := by
  refine h.induct (R := fun rule p o => ∀ q, o = .done q → rule.Enters s p.index →
    ({} : Reading).Holds s p.index q.index) ?_ q rfl he
  rintro rule p _ h q rfl he
  have hbalanced := rule.balanced_all
  rw [balanced] at hbalanced
  split at hbalanced
  · rename_i rs hrs
    obtain ⟨r', hr', hq⟩ := h.reads (fun _ _ _ h => h.1) (fun _ _ _ h => h.2 _ rfl)
      (Outlook.holds_ahead he) (Reading.holds_start s p.index) hrs
    have hr := List.all_eq_true.1 hbalanced r' hr'
    rw [beq_iff_eq] at hr
    rwa [hr] at hq
  · cases hbalanced

theorem Cmd.Ends.reading (h : Cmd.Ends s strict (Rule.Ends s strict) c p (.done q))
    (hv : v.Holds s i p) (hr : r.Holds s i p.index) (hc : c.reads v r = some rs) :
    ∃ r' ∈ rs, r'.Holds s i q.index :=
  h.reads (fun _ _ _ h => h) (fun _ _ _ h he => h.reads he) hv hr hc

def Cmd.balanced (c : Cmd) : Bool :=
  match c.reads {} {} with
  | some rs => rs.all fun r => r.waiting.isEmpty
  | none => false

theorem Cmd.Ends.balanced (h : Cmd.Ends s strict (Rule.Ends s strict) c p (.done q))
    (hc : c.balanced = true) : s.scan p.index q.index [] = some [] := by
  rw [Cmd.balanced] at hc
  split at hc
  · rename_i rs hrs
    obtain ⟨r, hr, hq⟩ := h.reading (Outlook.holds_bottom p) (Reading.holds_start s p.index) hrs
    have hempty := List.all_eq_true.1 hc r hr
    rw [List.isEmpty_iff] at hempty
    rw [hq.scan, hempty]
  · cases hc

end

/-- The kinds that only a longer operand starts with: a parenthesis and the primitive types. -/
def TokenKind.heads : KindSet := primitives.insert .lparen

/-- How many tokens a rule reads at least, given what is known of those ahead. -/
def Rule.least : Rule → Outlook → Nat
  | modifiers, _ | variableModifiers, _ | compilationUnit, _ => 0
  | dims, _ | annotationUse, _ | expressionStatement, _ | argumentList, _ | formalParameter _, _
  | block, _ => 2
  | lambda, _ | typeArguments, _ | fieldOrMethod _, _ | memberType, _ | classRest, _
  | enumRest, _ | interfaceRest, _ | annotationTypeRest, _ | genericMember _, _
  | constructorRest, _ | voidMethod, _ | labeledStatement, _
  | explicitConstructorInvocation, _ => 3
  | expression, v | conditional, v | binary _, v | unary, v | primary, v =>
    if (v.kinds 0).subset TokenKind.heads then 3 else 1
  | _, _ => 1

/-- The fewest tokens over several outlooks, up to a limit that no fixed lookahead comes near. -/
def Outlook.fewest (vs : List Outlook) (f : Outlook → Nat) : Nat :=
  vs.foldr (fun v n => min (f v) n) 100

/-- How many tokens a command reads at least if it does not fail. -/
def Cmd.least : Cmd → Outlook → Nat
  | shift, _ => 1
  | fail _ _, _ => 100
  | seq a b, v => a.least v + b.least {}
  | ite g a b, v =>
    min (Outlook.fewest (g.assume true v) a.least) (Outlook.fewest (g.assume false v) b.least)
  | nest body, v => body.least { v with latest := none }
  | jump r, v => r.least v
  | dispatch t, _ => t.rules.foldr (fun r n => min (r.least {}) n) 100
  | _, _ => 0

def Rule.countFits (r : Rule) : Bool :=
  decide (r.least {} ≤ r.body.least {}) &&
    decide (r.least { ahead := [TokenKind.heads] } ≤ r.body.least { ahead := [TokenKind.heads] })

theorem Rule.countFits_all (r : Rule) : r.countFits = true := by
  revert r
  decide +kernel

theorem Rule.least_cases (r : Rule) (v : Outlook) : r.least v = r.least {} ∨
    (v.kinds 0).subset TokenKind.heads = true ∧
      r.least v = r.least { ahead := [TokenKind.heads] } := by
  have hheads : (({ ahead := [TokenKind.heads] } : Outlook).kinds 0).subset TokenKind.heads =
    true := by decide
  have hfull : (({} : Outlook).kinds 0).subset TokenKind.heads = false := by decide
  by_cases hv : (v.kinds 0).subset TokenKind.heads = true
  · cases r <;> simp [least, hv, hheads]
  · cases r <;> simp [least, hv, hfull]

theorem Outlook.fewest_le {vs : List Outlook} {v : Outlook} (hv : v ∈ vs) (f : Outlook → Nat) :
    fewest vs f ≤ f v := by
  induction vs with
  | nil => cases hv
  | cons u vs ih =>
    rw [fewest, List.foldr_cons]
    rcases List.mem_cons.1 hv with rfl | hv
    · exact Nat.min_le_left _ _
    · exact Nat.le_trans (Nat.min_le_right _ _) (ih hv)

theorem Rule.foldr_least_le {rules : List Rule} {r : Rule} (hr : r ∈ rules) :
    rules.foldr (fun r n => min (r.least {}) n) 100 ≤ r.least {} := by
  induction rules with
  | nil => cases hr
  | cons r' rules ih =>
    rw [List.foldr_cons]
    rcases List.mem_cons.1 hr with rfl | hr
    · exact Nat.min_le_left _ _
    · exact Nat.le_trans (Nat.min_le_right _ _) (ih hr)

section
variable {s : TokenStream} {strict : Bool} {calls : Rule → Place → Ending → Prop} {c : Cmd}
  {rule : Rule} {i : Nat} {p q : Place} {v : Outlook}

theorem Cmd.Ends.least_le (hcovers : ∀ r p o, calls r p o → o.Covers s p)
    (hcalls : ∀ r p q, calls r p (.done q) → ∀ i v, Outlook.Holds s i p v →
      p.index + r.least v ≤ q.index)
    (h : Cmd.Ends s strict calls c p (.done q)) (hv : v.Holds s i p) :
    p.index + c.least v ≤ q.index := by
  have htop (p : Place) : ({} : Outlook).Holds s p.index p := Outlook.holds_bottom p
  induction c generalizing p q v i with
  | skip =>
    cases h
    exact Nat.le_refl _
  | shift =>
    cases h
    exact Nat.le_refl _
  | fail => cases h
  | seq a b iha ihb =>
    obtain ⟨m, ha, hb⟩ := h.seq_done
    have hm := iha ha hv
    have hq := ihb hb (htop m)
    rw [Cmd.least]
    omega
  | ite g a b iha ihb =>
    obtain ⟨answer, hg, h⟩ := h.ite_done
    obtain ⟨w, hw, hvw⟩ := Guard.any_assume hv hg
    rw [Cmd.least]
    cases answer with
    | true =>
      have hq := iha h hvw
      have hfew := Outlook.fewest_le hw a.least
      omega
    | false =>
      have hq := ihb h hvw
      have hfew := Outlook.fewest_le hw b.least
      omega
  | loop g body ih => exact (h.covers hcovers).index_le
  | nest body ih =>
    cases h with
    | @nest _ _ m h =>
      have hfresh : ({ v with latest := none } : Outlook).Holds s i (s.fresh p.index) :=
        ⟨hv.start_le, hv.past, hv.ahead, hv.touch, by simp, hv.moved⟩
      exact ih (p := s.fresh p.index) (q := m) h hfresh
  | jump r =>
    cases h with
    | jump h => exact hcalls _ _ _ h i v hv
  | dispatch t =>
    cases h with
    | @dispatch _ r _ _ ht h =>
      have hq := hcalls _ _ _ h _ _ (htop p)
      have hfew := Rule.foldr_least_le (Table.mem_rules_of_decide ht)
      rw [Cmd.least]
      omega
  | close kind =>
    cases h
    exact Nat.le_refl _
  | wrap kind =>
    cases h
    exact Nat.le_refl _

/-- A rule reads at least as many tokens as it is said to. -/
theorem Rule.Ends.least_le (h : Rule.Ends s strict rule p (.done q)) (hv : v.Holds s i p) :
    p.index + rule.least v ≤ q.index := by
  refine h.induct (R := fun rule p o => ∀ q, o = .done q → ∀ i v, Outlook.Holds s i p v →
    p.index + rule.least v ≤ q.index) ?_ q rfl i v hv
  rintro rule p _ h q rfl i v hv
  have hfits := rule.countFits_all
  rw [countFits, Bool.and_eq_true, decide_eq_true_eq, decide_eq_true_eq] at hfits
  have hbody {w j} (hw : Outlook.Holds s j p w) : p.index + rule.body.least w ≤ q.index :=
    h.least_le (fun _ _ _ h => h.1.covers) (fun _ _ q h => h.2 q rfl) hw
  rcases rule.least_cases v with hleast | ⟨hsub, hleast⟩
  · have hq := hbody (Outlook.holds_bottom p)
    omega
  · have hq := hbody (Outlook.holds_ahead_one
      (KindSet.contains_of_subset hsub (hv.contains_kinds 0)))
    omega

theorem Cmd.Ends.count (h : Cmd.Ends s strict (Rule.Ends s strict) c p (.done q))
    (hv : v.Holds s i p) : p.index + c.least v ≤ q.index :=
  h.least_le (fun _ _ _ h => h.covers) (fun _ _ _ h _ _ hv => h.least_le hv) hv

end

end JavaSyntax
