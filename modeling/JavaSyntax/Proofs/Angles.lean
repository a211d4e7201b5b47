import JavaSyntax.Proofs.Transfer

/-!
# Angle brackets

In what a rule for types reads, the angle brackets outside of delimiters are balanced. No rule
reads a `>` as an operator before a dot, a bracket, an at sign or a double colon: there it closes
what a `<` has opened.
-/

namespace JavaSyntax

namespace Angles

/-- The closers waited for and the number of angle brackets that are open behind one more token.
Those in delimiters do not count. -/
def step : List TokenKind × Nat → TokenKind → Option (List TokenKind × Nat)
  | ([], n), .less => some ([], n + 1)
  | ([], n + 1), .greater => some ([], n)
  | ([], 0), .greater => none
  | (waiting, n), k => (Delimiters.step waiting k).map (·, n)

def scan (state : List TokenKind × Nat) : List TokenKind → Option (List TokenKind × Nat)
  | [] => some state
  | k :: ks => (step state k).bind (scan · ks)

variable {waiting rest base : List TokenKind} {n m : Nat} {k c : TokenKind}
  {ks ls : List TokenKind} {state : List TokenKind × Nat}

theorem step_other (hless : k ≠ .less) (hgreater : k ≠ .greater) :
    step (waiting, n) k = (Delimiters.step waiting k).map (·, n) := by
  unfold step
  split <;> simp_all

theorem step_inside (h : waiting ≠ []) :
    step (waiting, n) k = (Delimiters.step waiting k).map (·, n) := by
  unfold step
  split <;> simp_all

theorem scan_append : scan state (ks ++ ls) = (scan state ks).bind (scan · ls) := by
  induction ks generalizing state with
  | nil => rfl
  | cons k ks ih =>
    rw [List.cons_append, scan, scan]
    cases step state k with
    | none => rfl
    | some state => exact ih

theorem step_cases (h : step (waiting, n) k = some (rest, m)) :
    (waiting = [] ∧ rest = [] ∧ (k = .less ∧ m = n + 1 ∨ k = .greater ∧ n = m + 1)) ∨
      (waiting ≠ [] ∨ k ≠ .less ∧ k ≠ .greater) ∧ Delimiters.step waiting k = some rest ∧
        m = n := by
  have hother (hk : step (waiting, n) k = (Delimiters.step waiting k).map (·, n)) :
      Delimiters.step waiting k = some rest ∧ m = n := by
    rw [hk] at h
    obtain ⟨w, hw, heq⟩ := Option.map_eq_some_iff.1 h
    cases heq
    exact ⟨hw, rfl⟩
  by_cases hw : waiting = []
  · subst hw
    by_cases hless : k = .less
    · subst hless
      cases h
      exact .inl ⟨rfl, rfl, .inl ⟨rfl, rfl⟩⟩
    · by_cases hgreater : k = .greater
      · subst hgreater
        cases n with
        | zero => cases h
        | succ n =>
          cases h
          exact .inl ⟨rfl, rfl, .inr ⟨rfl, rfl⟩⟩
      · exact .inr ⟨.inr ⟨hless, hgreater⟩, hother (step_other hless hgreater)⟩
  · exact .inr ⟨.inl hw, hother (step_inside hw)⟩

theorem step_frame (h : step (waiting, n) k = some (rest, m)) (base : Nat) :
    step (waiting, n + base) k = some (rest, m + base) := by
  obtain ⟨rfl, rfl, ⟨rfl, rfl⟩ | ⟨rfl, rfl⟩⟩ | ⟨hk, hstep, rfl⟩ := step_cases h
  · rw [Nat.add_right_comm]
    rfl
  · rw [Nat.add_right_comm]
    rfl
  · have hother : step (waiting, m + base) k = (Delimiters.step waiting k).map (·, m + base) :=
      hk.elim step_inside fun hk => step_other hk.1 hk.2
    rw [hother, hstep]
    rfl

theorem scan_frame (h : scan (waiting, n) ks = some (rest, m)) (base : Nat) :
    scan (waiting, n + base) ks = some (rest, m + base) := by
  induction ks generalizing waiting n with
  | nil =>
    cases h
    rfl
  | cons k ks ih =>
    rw [scan] at h ⊢
    obtain ⟨⟨w, l⟩, hstep, h⟩ := Option.bind_eq_some_iff.1 h
    rw [step_frame hstep]
    exact ih h

theorem scan_inside (h : Delimiters.scan waiting ks = some rest) :
    scan (waiting ++ c :: base, n) ks = some (rest ++ c :: base, n) := by
  induction ks generalizing waiting with
  | nil =>
    cases h
    rfl
  | cons k ks ih =>
    rw [Delimiters.scan] at h
    obtain ⟨w, hw, h⟩ := Option.bind_eq_some_iff.1 h
    rw [scan, step_inside (by simp), Delimiters.step_frame hw]
    exact ih h

theorem delimiters_step (h : step (waiting, n) k = some (rest, m)) :
    Delimiters.step waiting k = some rest := by
  obtain ⟨rfl, rfl, ⟨rfl, -⟩ | ⟨rfl, -⟩⟩ | ⟨-, hstep, -⟩ := step_cases h
  · rfl
  · rfl
  · exact hstep

theorem delimiters_scan (h : scan (waiting, n) ks = some (rest, m)) :
    Delimiters.scan waiting ks = some rest := by
  induction ks generalizing waiting n with
  | nil =>
    cases h
    rfl
  | cons k ks ih =>
    rw [scan] at h
    obtain ⟨⟨w, l⟩, hstep, h⟩ := Option.bind_eq_some_iff.1 h
    rw [Delimiters.scan, delimiters_step hstep]
    exact ih h

end Angles

/-- The kinds that change the state of a scan for angle brackets. -/
def KindSet.bracketing : KindSet := .ofList (.less :: .greater :: TokenKind.brackets)

namespace TokenStream
variable {s t : TokenStream} {i j m : Nat}

/-- From index `i` up to `j` delimiters and, outside of them, angle brackets are balanced. -/
structure Level (s : TokenStream) (i j : Nat) : Prop where
  le : i ≤ j
  scan_eq : Angles.scan ([], 0) (s.kindsFrom i j) = some ([], 0)

/-- The angle bracket at `i` is closed at `m`. -/
structure Angled (s : TokenStream) (i m : Nat) : Prop where
  lt : i < m
  opens : s.kindAt i = .less
  closes : s.kindAt m = .greater
  inner : s.Level (i + 1) m

namespace Level

theorem refl (s : TokenStream) (i : Nat) : s.Level i i := by
  refine ⟨Nat.le_refl i, ?_⟩
  rw [kindsFrom, Nat.sub_self]
  rfl

theorem trans (h : s.Level i j) (h' : s.Level j m) : s.Level i m := by
  refine ⟨Nat.le_trans h.le h'.le, ?_⟩
  rw [kindsFrom_trans h.le h'.le, Angles.scan_append, h.scan_eq]
  exact h'.scan_eq

theorem token (h : KindSet.bracketing.contains (s.kindAt i) = false) : s.Level i (i + 1) := by
  refine ⟨Nat.le_succ i, ?_⟩
  rw [kindsFrom_succ, Angles.scan]
  revert h
  generalize s.kindAt i = k
  cases k <;> decide

theorem balanced (h : s.Level i j) : s.scan i j [] = some [] := Angles.delimiters_scan h.scan_eq

end Level

theorem Encloses.level (h : s.Encloses i m) : s.Level i (m + 1) := by
  have hlt := h.lt
  refine ⟨by omega, ?_⟩
  obtain ⟨c, hc⟩ : ∃ c, c = s.kindAt m := ⟨_, rfl⟩
  have hopen := h.closer
  rw [← hc] at hopen
  have hstep : Angles.step ([], 0) (s.kindAt i) = some ([c], 0) := by
    rw [Angles.step_other, Delimiters.step_opener hopen]
    · rfl
    · intro hkind
      rw [hkind] at hopen
      cases hopen
    · intro hkind
      rw [hkind] at hopen
      cases hopen
  have hinner : Angles.scan ([c], 0) (s.kindsFrom (i + 1) m) = some ([c], 0) :=
    Angles.scan_inside h.inner
  have hclose : Angles.step ([c], 0) c = some ([], 0) := by
    rw [Angles.step_inside (by simp), Delimiters.step_closer (TokenKind.isCloser_of_closer? hopen),
      if_pos rfl]
    rfl
  rw [kindsFrom_cons (by omega), Angles.scan, hstep, Option.bind_some,
    kindsFrom_trans (show i + 1 ≤ m by omega) (Nat.le_succ m), Angles.scan_append, hinner,
    Option.bind_some, kindsFrom_succ, Angles.scan, ← hc, hclose]
  rfl

namespace Angled

theorem level (h : s.Angled i m) : s.Level i (m + 1) := by
  have hlt := h.lt
  refine ⟨by omega, ?_⟩
  have hinner : Angles.scan ([], 1) (s.kindsFrom (i + 1) m) = some ([], 1) :=
    Angles.scan_frame h.inner.scan_eq 1
  rw [kindsFrom_cons (by omega), Angles.scan, h.opens]
  change Angles.scan ([], 1) _ = _
  rw [kindsFrom_trans (show i + 1 ≤ m by omega) (Nat.le_succ m), Angles.scan_append, hinner,
    Option.bind_some, kindsFrom_succ, h.closes]
  rfl

theorem not_lt (h : s.Angled i m) (h' : s.Angled j m) : ¬i < j := by
  intro hij
  have hjm := h'.lt
  have hinner := h.inner.scan_eq
  rw [kindsFrom_trans (show i + 1 ≤ j by omega) (Nat.le_of_lt hjm), Angles.scan_append] at hinner
  obtain ⟨⟨waiting, n⟩, hfront, hback⟩ := Option.bind_eq_some_iff.1 hinner
  rw [kindsFrom_cons hjm, Angles.scan, h'.opens] at hback
  cases waiting with
  | nil =>
    -- The bracket at `j` would be open behind its own contents.
    have hopen : Angles.scan ([], 0 + (n + 1)) (s.kindsFrom (j + 1) m) = some ([], 0 + (n + 1)) :=
      Angles.scan_frame h'.inner.scan_eq (n + 1)
    rw [Nat.zero_add] at hopen
    cases hopen.symm.trans hback
  | cons c waiting =>
    have hopen : Angles.scan ([] ++ c :: waiting, n) (s.kindsFrom (j + 1) m) =
        some ([] ++ c :: waiting, n) := Angles.scan_inside h'.inner.balanced
    have hback : Angles.scan (c :: waiting, n) (s.kindsFrom (j + 1) m) = some ([], 0) := hback
    cases hopen.symm.trans hback

theorem unique (h : s.Angled i m) (h' : s.Angled j m) : j = i :=
  Nat.le_antisymm (Nat.le_of_not_lt (h.not_lt h')) (Nat.le_of_not_lt (h'.not_lt h))

end Angled
end TokenStream

/-- The rules that read types and what stands in them. -/
def Rule.isTypal : Rule → Bool
  | name | type | referenceType | classType false | dims | typeArguments | typeArgument
  | typeParameters | typeParameter | additionalBound | annotationUse => true
  | _ => false

/-- The command reads no token of the kinds but by the rules. -/
def Cmd.avoids (ks : KindSet) (rules : Rule → Bool) : Cmd → Outlook → Bool
  | shift, v => (v.kinds 0).disjoint ks
  | seq a b, v => a.avoids ks rules v && (Outlook.merge (a.exits v)).all (b.avoids ks rules)
  | ite g a b, v =>
    (g.assume true v).all (a.avoids ks rules) && (g.assume false v).all (b.avoids ks rules)
  | loop g body, _ => (g.assume true {}).all (body.avoids ks rules)
  | nest body, v => body.avoids ks rules { v with latest := none }
  | jump r, _ => rules r
  | dispatch _, _ => false
  | _, _ => true

/-- The rules for types whose bodies read brackets themselves. -/
def Rule.brackets : Rule → Bool
  | dims | typeArguments | typeParameters | annotationUse => true
  | _ => false

theorem Rule.levels_all (r : Rule) :
    (!r.isTypal || r.brackets || r.body.avoids .bracketing isTypal {}) = true := by
  revert r
  decide

section
variable {s : TokenStream} {strict : Bool} {calls : Rule → Place → Ending → Prop} {a c : Cmd}
  {p q : Place} {i : Nat} {v : Outlook} {r : Rule} {kind : NodeKind}

/-- What holds of nothing, of one token of other kinds, of what the rules read, and of two parts in
a row, holds of what a command reads that avoids the kinds. -/
theorem Cmd.Ends.joins {ks : KindSet} {rules : Rule → Bool} {N : Nat → Nat → Prop}
    (hrefl : ∀ i, N i i) (htrans : ∀ i j k, N i j → N j k → N i k)
    (htoken : ∀ i, ks.contains (s.kindAt i) = false → N i (i + 1))
    (hrules : ∀ r p q, rules r = true → calls r p (.done q) → N p.index q.index)
    (hcalls : ∀ r p o, calls r p o → Rule.Ends s strict r p o)
    (hc : c.avoids ks rules v = true) (hv : v.Holds s i p)
    (h : Cmd.Ends s strict calls c p (.done q)) : N p.index q.index := by
  induction c generalizing p q v i with
  | skip =>
    cases h
    exact hrefl _
  | shift =>
    cases h
    exact htoken _ (KindSet.not_contains_of_disjoint hc (hv.contains_kinds 0))
  | fail => cases h
  | seq a b iha ihb =>
    rw [Cmd.avoids, Bool.and_eq_true] at hc
    obtain ⟨m, ha, hb⟩ := h.seq_done
    obtain ⟨w, hw, hvm⟩ := ((ha.mono hcalls).exits (fun _ _ _ h => h.covers)
      (fun _ _ _ h => h.exits) hv).merge
    exact htrans _ _ _ (iha hc.1 hv ha) (ihb (List.all_eq_true.1 hc.2 w hw) hvm hb)
  | ite g a b iha ihb =>
    rw [Cmd.avoids, Bool.and_eq_true, List.all_eq_true, List.all_eq_true] at hc
    obtain ⟨answer, hg, h⟩ := h.ite_done
    obtain ⟨w, hw, hvw⟩ := Guard.any_assume hv hg
    cases answer with
    | true => exact iha (hc.1 w hw) hvw h
    | false => exact ihb (hc.2 w hw) hvw h
  | loop g body ih =>
    rw [Cmd.avoids, List.all_eq_true] at hc
    refine (h.loop_done (I := fun m => N p.index m.index) ?_ (hrefl _)).1
    intro m m' hm hg hbody
    obtain ⟨w, hw, hvw⟩ := Guard.any_assume (Outlook.holds_bottom m) hg
    exact htrans _ _ _ hm (ih (hc w hw) hvw hbody)
  | nest body ih =>
    cases h with
    | @nest _ _ m h => exact ih (p := s.fresh p.index) (q := m) hc (hv.forget rfl) h
  | jump r =>
    cases h with
    | jump h => exact hrules r p q hc h
  | dispatch => cases hc
  | close kind =>
    cases h
    exact hrefl _
  | wrap kind =>
    cases h
    exact hrefl _

/-- The rule ends so, and what it reads is level if it reads a type. -/
def Rule.Levels (s : TokenStream) (strict : Bool) (r : Rule) (p : Place) (o : Ending) : Prop :=
  Rule.Ends s strict r p o ∧
    (r.isTypal = true → ∀ q, o = .done q → s.Level p.index q.index)

theorem Cmd.Ends.level (hc : c.avoids .bracketing Rule.isTypal {} = true)
    (h : Cmd.Ends s strict (Rule.Levels s strict) c p (.done q)) : s.Level p.index q.index :=
  h.joins (.refl s) (fun _ _ _ => .trans) (fun _ => .token) (fun _ _ q hr h => h.2 hr q rfl)
    (fun _ _ _ h => h.1) hc (Outlook.holds_bottom p)

/-- What stands between angle brackets that are read is level. -/
theorem Cmd.Ends.angled (hc : c.avoids .bracketing Rule.isTypal {} = true)
    (h : Cmd.Ends s strict (Rule.Levels s strict)
      (.expect .less ++ c ++ .expect .greater ++ .close kind) p (.done q)) :
    ∃ m, q.index = m + 1 ∧ s.Angled p.index m := by
  obtain ⟨m₃, h, hclose⟩ := h.seq_done
  obtain ⟨m₂, h, hright⟩ := h.seq_done
  obtain ⟨m₁, hleft, hinner⟩ := h.seq_done
  obtain ⟨hopen, hm₁⟩ := hleft.of_expect
  obtain ⟨hgreater, hm₃⟩ := hright.of_expect
  have hlevel := hinner.level hc
  rw [show m₁.index = p.index + 1 by rw [hm₁]] at hlevel
  exact ⟨m₂.index, by rw [hclose.of_close, hm₃], hlevel.le, hopen, hgreater, hlevel⟩

theorem Grammar.level_dim (h : Cmd.Ends s strict (Rule.Levels s strict) dim p (.done q)) :
    s.Level p.index q.index := by
  obtain ⟨m₂, h, hright⟩ := h.seq_done
  obtain ⟨m₁, hannotations, hleft⟩ := h.seq_done
  obtain ⟨hopen, rfl⟩ := hleft.of_expect
  obtain ⟨hclose, rfl⟩ := hright.of_expect
  refine (hannotations.level (by decide)).trans ?_
  exact TokenStream.Encloses.level
    ⟨Nat.lt_succ_self _, by rw [hopen, hclose]; rfl, TokenStream.scan_self _⟩

theorem Grammar.level_dims (h : Cmd.Ends s strict (Rule.Levels s strict) dims p (.done q)) :
    s.Level p.index q.index := by
  obtain ⟨m₂, h, hclose⟩ := h.seq_done
  obtain ⟨m₁, hfirst, hloop⟩ := h.seq_done
  rw [hclose.of_close]
  exact (hloop.loop_done (I := fun m => s.Level p.index m.index)
    (fun m m' hm _ hbody => hm.trans (level_dim hbody)) (level_dim hfirst)).1

theorem Grammar.annotationUse_cases
    (h : Cmd.Ends s strict (Rule.Ends s strict) annotationUse p (.done q)) :
    ∃ m : Place, Cmd.Ends s strict (Rule.Ends s strict) (.expect .atSign ++ .call .name) p
      (.done m) ∧ (q.index = m.index ∨ ∃ j, q.index = j + 1 ∧ s.Encloses m.index j) := by
  obtain ⟨m₂, h, hclose⟩ := h.seq_done
  obtain ⟨m, hhead, hopt⟩ := h.seq_done
  rw [hclose.of_close]
  refine ⟨m, hhead, ?_⟩
  obtain ⟨answer, hopen, hopt⟩ := hopt.ite_answers
  cases answer with
  | false => exact .inl (by rw [← hopt.of_skip])
  | true =>
    obtain ⟨m₄, hopt, hright⟩ := hopt.seq_done
    obtain ⟨m₃, hleft, hcontents⟩ := hopt.seq_done
    obtain ⟨hrparen, rfl⟩ := hright.of_expect
    have hlparen : s.kindAt m.index = .lparen := by
      simpa [Test.here, Test.holds] using hopen.of_test
    have hm₃ : m₃.index = m.index + 1 := congrArg Place.index hleft.of_shift.2
    have hle := hcontents.index_le
    have hscan : s.scan m₃.index m₄.index [] = some [] :=
      hcontents.balanced (c := annotationContents) (by decide)
    rw [hm₃] at hle hscan
    exact .inr ⟨m₄.index, rfl, TokenStream.encloses_of_parens hlparen hrparen hle hscan⟩

theorem Grammar.level_annotationUse
    (h : Cmd.Ends s strict (Rule.Levels s strict) annotationUse p (.done q)) :
    s.Level p.index q.index := by
  obtain ⟨m₂, h', hclose⟩ := h.seq_done
  obtain ⟨m, hhead, -⟩ := h'.seq_done
  obtain ⟨m', hhead', hcases⟩ := annotationUse_cases (h.mono fun _ _ _ h => h.1)
  cases hhead'.eq (hhead.mono fun _ _ _ h => h.1)
  have hlevel := hhead.level (by decide)
  rcases hcases with heq | ⟨j, heq, hencloses⟩
  · rw [heq]
    exact hlevel
  · rw [heq]
    exact hlevel.trans hencloses.level

/-- What a rule for types reads is level. -/
theorem Rule.Ends.level {o : Ending} (h : Rule.Ends s strict r p o) : r.Levels s strict p o := by
  refine ⟨h, h.induct (R := fun r p o => r.isTypal = true → ∀ q, o = .done q →
    s.Level p.index q.index) ?_⟩
  rintro r p _ h htypal q rfl
  have hlevels := r.levels_all
  rw [htypal, Bool.not_true, Bool.false_or, Bool.or_eq_true] at hlevels
  rcases hlevels with hbrackets | hlevels
  · cases r with
    | dims => exact Grammar.level_dims h
    | annotationUse => exact Grammar.level_annotationUse h
    | typeArguments =>
      obtain ⟨m, hm, hangled⟩ := h.angled (by decide)
      exact hm ▸ hangled.level
    | typeParameters =>
      obtain ⟨m, hm, hangled⟩ := h.angled (by decide)
      exact hm ▸ hangled.level
    | _ => cases hbrackets
  · exact h.level hlevels

end

end JavaSyntax
