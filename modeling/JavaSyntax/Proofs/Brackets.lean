import JavaSyntax.Proofs.Levels

/-!
# Brackets

A scan over the tokens keeps the closers that are waited for. Where it ends as it has begun, the
tokens are balanced, and the table of delimiters says of each opening one there where it closes.
Whatever a rule reads is balanced, and ends in no token that asks for another.
-/

namespace JavaSyntax

namespace TokenKind

def isCloser (k : TokenKind) : Bool := k == .rparen || k == .rbracket || k == .rbrace

theorem closer?_of_isCloser {k : TokenKind} (h : k.isCloser = true) : k.closer? = none := by
  cases k <;> first | rfl | cases h

theorem isCloser_of_closer? {k c : TokenKind} (h : k.closer? = some c) : c.isCloser = true := by
  cases k <;> cases h <;> rfl

end TokenKind

namespace Delimiters

/-- The closers waited for behind one more token, innermost first. There are none if the token
closes what is not open. -/
def step (waiting : List TokenKind) (k : TokenKind) : Option (List TokenKind) :=
  match k.closer? with
  | some c => some (c :: waiting)
  | none =>
    if k.isCloser then
      match waiting with
      | [] => none
      | c :: rest => if c = k then some rest else none
    else some waiting

def scan (waiting : List TokenKind) : List TokenKind → Option (List TokenKind)
  | [] => some waiting
  | k :: ks => (step waiting k).bind (scan · ks)

variable {waiting base rest ks ls : List TokenKind} {k c : TokenKind}

theorem step_opener (h : k.closer? = some c) : step waiting k = some (c :: waiting) := by
  simp [step, h]

theorem step_closer (h : k.isCloser = true) :
    step (c :: waiting) k = if c = k then some waiting else none := by
  simp [step, TokenKind.closer?_of_isCloser h, h]

theorem step_nil (h : k.isCloser = true) : step [] k = none := by
  simp [step, TokenKind.closer?_of_isCloser h, h]

theorem step_plain (h : k.closer? = none) (hk : k.isCloser = false) :
    step waiting k = some waiting := by
  simp [step, h, hk]

theorem scan_append : scan waiting (ks ++ ls) = (scan waiting ks).bind (scan · ls) := by
  induction ks generalizing waiting with
  | nil => rfl
  | cons k ks ih =>
    rw [List.cons_append, scan, scan]
    cases step waiting k with
    | none => rfl
    | some w => exact ih

theorem step_frame (h : step waiting k = some rest) :
    step (waiting ++ base) k = some (rest ++ base) := by
  cases hc : k.closer? with
  | some c =>
    rw [step_opener hc] at h ⊢
    cases h
    rfl
  | none =>
    cases hk : k.isCloser with
    | false =>
      rw [step_plain hc hk] at h ⊢
      cases h
      rfl
    | true =>
      cases waiting with
      | nil =>
        rw [step_nil hk] at h
        cases h
      | cons c waiting =>
        rw [List.cons_append, step_closer hk]
        rw [step_closer hk] at h
        split at h
        · cases h
          rw [if_pos ‹_›]
        · cases h

theorem scan_frame (h : scan waiting ks = some rest) :
    scan (waiting ++ base) ks = some (rest ++ base) := by
  induction ks generalizing waiting with
  | nil =>
    cases h
    rfl
  | cons k ks ih =>
    rw [scan] at h ⊢
    obtain ⟨w, hw, h⟩ := Option.bind_eq_some_iff.1 h
    rw [step_frame hw]
    exact ih h

/-- A scan that gets rid of a closer meets it behind tokens that are balanced so far. -/
theorem exists_close (waiting : List TokenKind) (h : scan (waiting ++ c :: base) ks = some []) :
    ∃ us vs, ks = us ++ c :: vs ∧ scan waiting us = some [] ∧ scan base vs = some [] := by
  induction ks generalizing waiting with
  | nil => simp [scan] at h
  | cons k ks ih =>
    rw [scan] at h
    obtain ⟨w, hw, h⟩ := Option.bind_eq_some_iff.1 h
    have hmore {rest} (hs : step waiting k = some rest) :
        ∃ us vs, k :: ks = us ++ c :: vs ∧ scan waiting us = some [] ∧ scan base vs = some [] := by
      rw [step_frame hs] at hw
      cases hw
      obtain ⟨us, vs, hks, hus, hvs⟩ := ih _ h
      refine ⟨k :: us, vs, by rw [hks, List.cons_append], ?_, hvs⟩
      rw [scan, hs]
      exact hus
    cases hc : k.closer? with
    | some d => exact hmore (step_opener hc)
    | none =>
      cases hk : k.isCloser with
      | false => exact hmore (step_plain hc hk)
      | true =>
        cases waiting with
        | nil =>
          rw [List.nil_append, step_closer hk] at hw
          split at hw
          · rename_i heq
            cases hw
            exact ⟨[], ks, by rw [heq, List.nil_append], rfl, h⟩
          · cases hw
        | cons d waiting =>
          rw [List.cons_append, step_closer hk] at hw
          split at hw
          · exact hmore (by rw [step_closer hk, if_pos ‹_›])
          · cases hw

section
variable {index i : Nat} {stack : List (Nat × TokenKind)} {table : Array (Option Nat)}
  {p : Nat × TokenKind}

theorem fill_opener (h : k.closer? = some c) :
    fill index stack table (k :: ks) = fill (index + 1) ((index, c) :: stack) table ks := by
  simp only [fill, h]

theorem fill_closer (h : k.closer? = none) (hk : p.2 = k) :
    fill index (p :: stack) table (k :: ks) =
      fill (index + 1) stack (table.setIfInBounds p.1 (some index)) ks := by
  simp only [fill, h, if_pos hk]

theorem fill_other (h : k.closer? = none) (hk : ∀ p ∈ stack.head?, p.2 ≠ k) :
    fill index stack table (k :: ks) = fill (index + 1) stack table ks := by
  cases stack with
  | nil => simp only [fill, h]
  | cons p stack => simp only [fill, h, if_neg (hk p rfl)]

theorem getElem?_fill (hi : i < index) (hstack : ∀ p ∈ stack, p.1 ≠ i) :
    (fill index stack table ks)[i]? = table[i]? := by
  induction ks generalizing index stack table with
  | nil => rfl
  | cons k ks ih =>
    have hlt : i < index + 1 := Nat.lt_succ_of_lt hi
    cases hc : k.closer? with
    | some c =>
      rw [fill_opener hc, ih hlt]
      intro p hp
      rcases List.mem_cons.1 hp with rfl | hp
      · exact Nat.ne_of_gt hi
      · exact hstack p hp
    | none =>
      by_cases hk : ∀ p ∈ stack.head?, p.2 ≠ k
      · rw [fill_other hc hk, ih hlt hstack]
      · cases stack with
        | nil => simp at hk
        | cons p stack =>
          rw [fill_closer hc (by simpa using hk),
            ih hlt fun p hp => hstack p (List.mem_cons_of_mem _ hp),
            Array.getElem?_setIfInBounds_ne (hstack p List.mem_cons_self)]

/-- The delimiter has been met before the index and waits for a closer. -/
def OpenAt (index : Nat) (p : Nat × TokenKind) : Prop := p.1 < index ∧ p.2.isCloser = true

theorem OpenAt.succ (h : OpenAt index p) : OpenAt (index + 1) p := ⟨Nat.lt_succ_of_lt h.1, h.2⟩

theorem openAt_opener (h : k.closer? = some c) : OpenAt (index + 1) (index, c) :=
  ⟨Nat.lt_succ_self _, TokenKind.isCloser_of_closer? h⟩

theorem exists_fill_append (table : Array (Option Nat)) (hstack : ∀ p ∈ stack, OpenAt index p) :
    ∃ stack' table', fill index stack table (ks ++ ls) =
      fill (index + ks.length) stack' table' ls ∧
      table'.size = table.size ∧ ∀ p ∈ stack', OpenAt (index + ks.length) p := by
  induction ks generalizing index stack table with
  | nil => exact ⟨stack, table, rfl, rfl, hstack⟩
  | cons k ks ih =>
    have hstep {stack' table'} (heq : fill index stack table (k :: (ks ++ ls)) =
        fill (index + 1) stack' table' (ks ++ ls)) (hsize : table'.size = table.size)
        (h : ∀ p ∈ stack', OpenAt (index + 1) p) :
        ∃ stack'' table'', fill index stack table (k :: ks ++ ls) =
          fill (index + (k :: ks).length) stack'' table'' ls ∧
          table''.size = table.size ∧ ∀ p ∈ stack'', OpenAt (index + (k :: ks).length) p := by
      obtain ⟨stack'', table'', h1, h2, h3⟩ := ih table' h
      rw [List.length_cons, List.cons_append, heq, h1, Nat.add_right_comm index 1,
        ← Nat.add_assoc]
      exact ⟨stack'', table'', rfl, h2.trans hsize, by rwa [Nat.add_right_comm] at h3⟩
    have hold : ∀ p ∈ stack, OpenAt (index + 1) p := fun p hp => (hstack p hp).succ
    cases hc : k.closer? with
    | some c =>
      refine hstep (fill_opener hc) rfl ?_
      intro p hp
      rcases List.mem_cons.1 hp with rfl | hp
      · exact openAt_opener hc
      · exact hold p hp
    | none =>
      by_cases hk : ∀ p ∈ stack.head?, p.2 ≠ k
      · exact hstep (fill_other hc hk) rfl hold
      · cases stack with
        | nil => simp at hk
        | cons p stack =>
          refine hstep (fill_closer hc (by simpa using hk)) (Array.size_setIfInBounds ..) ?_
          exact fun q hq => hold q (List.mem_cons_of_mem _ hq)

/-- The pass opens and closes what the scan does, whatever is open before. -/
theorem exists_fill_scan (inner outer : List (Nat × TokenKind)) (table : Array (Option Nat))
    (h : scan (inner.map Prod.snd) ks = some rest) (hstack : ∀ p ∈ inner ++ outer, OpenAt index p) :
    ∃ inner' table', inner'.map Prod.snd = rest ∧ table'.size = table.size ∧
      fill index (inner ++ outer) table (ks ++ ls) =
        fill (index + ks.length) (inner' ++ outer) table' ls := by
  induction ks generalizing index inner table with
  | nil =>
    cases h
    exact ⟨inner, table, rfl, rfl, rfl⟩
  | cons k ks ih =>
    rw [scan] at h
    obtain ⟨w, hw, h⟩ := Option.bind_eq_some_iff.1 h
    have hstep (inner₁) {table₁} (hw : inner₁.map Prod.snd = w) (hsize : table₁.size = table.size)
        (hstack : ∀ p ∈ inner₁ ++ outer, OpenAt (index + 1) p)
        (heq : fill index (inner ++ outer) table (k :: (ks ++ ls)) =
          fill (index + 1) (inner₁ ++ outer) table₁ (ks ++ ls)) :
        ∃ inner' table', inner'.map Prod.snd = rest ∧ table'.size = table.size ∧
          fill index (inner ++ outer) table (k :: ks ++ ls) =
            fill (index + (k :: ks).length) (inner' ++ outer) table' ls := by
      rw [← hw] at h
      obtain ⟨inner', table', h1, h2, h3⟩ := ih inner₁ table₁ h hstack
      refine ⟨inner', table', h1, h2.trans hsize, ?_⟩
      rw [List.length_cons, List.cons_append, heq, h3, Nat.add_right_comm index 1,
        ← Nat.add_assoc]
    have hold : ∀ p ∈ inner ++ outer, OpenAt (index + 1) p := fun p hp => (hstack p hp).succ
    cases hc : k.closer? with
    | some c =>
      rw [step_opener hc] at hw
      cases hw
      refine hstep ((index, c) :: inner) rfl rfl ?_ (fill_opener hc)
      intro p hp
      rcases List.mem_cons.1 hp with rfl | hp
      · exact openAt_opener hc
      · exact hold p hp
    | none =>
      cases hk : k.isCloser with
      | false =>
        rw [step_plain hc hk] at hw
        cases hw
        refine hstep inner rfl rfl hold (fill_other hc ?_)
        rintro p hp rfl
        have hp := (hstack p (List.mem_of_mem_head? hp)).2
        rw [hk] at hp
        cases hp
      | true =>
        cases inner with
        | nil =>
          rw [List.map_nil, step_nil hk] at hw
          cases hw
        | cons p inner =>
          rw [List.map_cons, step_closer hk] at hw
          split at hw
          · cases hw
            exact hstep inner rfl (Array.size_setIfInBounds ..)
              (fun q hq => hold q (List.mem_cons_of_mem _ hq)) (fill_closer hc ‹_›)
          · cases hw

theorem getElem?_table (hk : k.closer? = some c) (hks : scan [] ks = some [])
    (us vs : List TokenKind) :
    (Delimiters.table (us ++ k :: (ks ++ c :: vs)))[us.length]? =
      some (some (us.length + 1 + ks.length)) := by
  unfold Delimiters.table
  generalize htable :
    Array.replicate (us ++ k :: (ks ++ c :: vs)).length (none : Option Nat) = table
  have hlt : us.length < table.size := by
    rw [← htable, Array.size_replicate, List.length_append, List.length_cons]
    omega
  have hnone : ∀ p ∈ ([] : List (Nat × TokenKind)), OpenAt 0 p := by simp
  obtain ⟨stack, table₁, h1, hsize₁, hstack⟩ := exists_fill_append table hnone
  rw [Nat.zero_add] at h1 hstack
  have hopen : ∀ p ∈ [] ++ (us.length, c) :: stack, OpenAt (us.length + 1) p := by
    intro p hp
    rcases List.mem_cons.1 hp with rfl | hp
    · exact openAt_opener hk
    · exact (hstack p hp).succ
  obtain ⟨inner, table₂, hinner, hsize₂, h2⟩ := exists_fill_scan [] _ table₁ hks hopen
  cases List.map_eq_nil_iff.1 hinner
  change fill _ ((us.length, c) :: stack) _ _ = fill _ ((us.length, c) :: stack) _ _ at h2
  rw [h1, fill_opener hk, h2,
    fill_closer (TokenKind.closer?_of_isCloser (TokenKind.isCloser_of_closer? hk)) rfl,
    getElem?_fill (by omega) fun p hp => Nat.ne_of_lt (hstack p hp).1,
    Array.getElem?_setIfInBounds_self_of_lt (by omega)]

end
end Delimiters

namespace TokenStream
variable {s : TokenStream} {i j m : Nat} {waiting base rest : List TokenKind} {c : TokenKind}

/-- The kinds of the tokens from index `i` up to `j`. -/
def kindsFrom (s : TokenStream) (i j : Nat) : List TokenKind :=
  (List.range' i (j - i)).map s.kindAt

/-- The closers waited for at index `j`, if those at `i` are known. -/
def scan (s : TokenStream) (i j : Nat) (waiting : List TokenKind) : Option (List TokenKind) :=
  Delimiters.scan waiting (s.kindsFrom i j)

theorem kindsFrom_trans (hij : i ≤ j) (hjm : j ≤ m) :
    s.kindsFrom i m = s.kindsFrom i j ++ s.kindsFrom j m := by
  obtain ⟨a, rfl⟩ := Nat.exists_eq_add_of_le hij
  obtain ⟨b, rfl⟩ := Nat.exists_eq_add_of_le hjm
  simp only [kindsFrom, Nat.add_sub_cancel_left, ← List.map_append, List.range'_append_1]
  rw [Nat.add_assoc, Nat.add_sub_cancel_left]

theorem kindsFrom_succ (i : Nat) : s.kindsFrom i (i + 1) = [s.kindAt i] := by
  simp [kindsFrom]

theorem kindsFrom_cons (h : i < j) : s.kindsFrom i j = s.kindAt i :: s.kindsFrom (i + 1) j := by
  rw [kindsFrom_trans (Nat.le_succ i) h, kindsFrom_succ]
  rfl

theorem length_kindsFrom : (s.kindsFrom i j).length = j - i := by
  simp [kindsFrom]

@[simp] theorem scan_self (i : Nat) : s.scan i i waiting = some waiting := by
  simp [scan, kindsFrom, Delimiters.scan]

theorem scan_trans (hij : i ≤ j) (hjm : j ≤ m) :
    s.scan i m waiting = (s.scan i j waiting).bind (s.scan j m) := by
  rw [scan, kindsFrom_trans hij hjm, Delimiters.scan_append]
  rfl

theorem scan_succ (i : Nat) : s.scan i (i + 1) waiting = Delimiters.step waiting (s.kindAt i) := by
  rw [scan, kindsFrom_succ, Delimiters.scan]
  cases Delimiters.step waiting (s.kindAt i) <;> rfl

theorem scan_frame (h : s.scan i j waiting = some rest) :
    s.scan i j (waiting ++ base) = some (rest ++ base) :=
  Delimiters.scan_frame h

/-- The delimiter at `i` is closed at `m`, behind tokens that are balanced. -/
structure Encloses (s : TokenStream) (i m : Nat) : Prop where
  lt : i < m
  closer : (s.kindAt i).closer? = some (s.kindAt m)
  inner : s.scan (i + 1) m [] = some []

theorem kindsFrom_split {us vs : List TokenKind} (hij : i ≤ j) (h : s.kindsFrom i j = us ++ vs) :
    i + us.length ≤ j ∧ s.kindsFrom i (i + us.length) = us ∧
      s.kindsFrom (i + us.length) j = vs := by
  have hlen : j - i = us.length + vs.length := by
    rw [← length_kindsFrom (s := s), h, List.length_append]
  have hle : i + us.length ≤ j := by omega
  rw [kindsFrom_trans (Nat.le_add_right i us.length) hle] at h
  obtain ⟨hleft, hright⟩ := List.append_inj h (by rw [length_kindsFrom, Nat.add_sub_cancel_left])
  exact ⟨hle, hleft, hright⟩

/-- An opening delimiter before balanced tokens is closed by the closer behind them. -/
theorem encloses_of_kinds {k : TokenKind} {us vs : List TokenKind} (hij : i ≤ j)
    (hk : k.closer? = some c) (hus : Delimiters.scan [] us = some [])
    (h : s.kindsFrom i j = k :: us ++ c :: vs) :
    i + us.length + 1 < j ∧ s.Encloses i (i + us.length + 1) := by
  obtain ⟨hle, hleft, hright⟩ := kindsFrom_split hij h
  rw [List.length_cons, ← Nat.add_assoc] at hle hleft hright
  have hlt : i + us.length + 1 < j := by
    refine Nat.lt_of_le_of_ne hle fun heq => ?_
    rw [← heq, kindsFrom, Nat.sub_self] at hright
    cases hright
  rw [kindsFrom_cons (by omega)] at hleft
  rw [kindsFrom_cons hlt] at hright
  obtain ⟨hopen, hinner⟩ := List.cons.inj hleft
  refine ⟨hlt, by omega, ?_, ?_⟩
  · rw [hopen, (List.cons.inj hright).1, hk]
  · rw [scan, hinner]
    exact hus

theorem exists_encloses (hij : i < j) (hc : (s.kindAt i).closer? = some c)
    (h : s.scan i j [] = some []) : ∃ m, m < j ∧ s.Encloses i m := by
  rw [scan, kindsFrom_cons hij, Delimiters.scan, Delimiters.step_opener hc] at h
  obtain ⟨us, vs, hks, hus, -⟩ := Delimiters.exists_close [] h
  have hkinds : s.kindsFrom i j = s.kindAt i :: us ++ c :: vs := by
    rw [kindsFrom_cons hij, hks, List.cons_append]
  exact ⟨_, encloses_of_kinds (Nat.le_of_lt hij) hc hus hkinds⟩

theorem kinds_eq : s.list.kinds = s.kindsFrom 0 s.length := by
  refine List.ext_getElem ?_ ?_
  · simp [TokenList.kinds, length_kindsFrom, length, TokenList.length]
  · intro k h h'
    simp only [TokenList.kinds, List.length_map, Array.length_toList] at h
    simp [TokenList.kinds, kindsFrom, kindAt, TokenList.kindAt, h]

theorem Encloses.matchingClose? (h : s.Encloses i m) : s.matchingClose? i = some m := by
  have hlt : m < s.length := by
    refine lt_length_of_kindAt ?_
    intro hm
    have hcloser := TokenKind.isCloser_of_closer? h.closer
    rw [hm] at hcloser
    cases hcloser
  have him := h.lt
  have hlist : s.list.kinds = s.kindsFrom 0 i ++
      s.kindAt i :: (s.kindsFrom (i + 1) m ++ s.kindAt m :: s.kindsFrom (m + 1) s.length) := by
    rw [kinds_eq, kindsFrom_trans (Nat.zero_le i) (by omega : i ≤ s.length),
      kindsFrom_cons (by omega : i < s.length),
      kindsFrom_trans (by omega : i + 1 ≤ m) (Nat.le_of_lt hlt),
      kindsFrom_cons hlt]
  have htable := Delimiters.getElem?_table h.closer h.inner (s.kindsFrom 0 i)
    (s.kindsFrom (m + 1) s.length)
  rw [← hlist, ← s.closers_eq] at htable
  simp only [length_kindsFrom, Nat.sub_zero] at htable
  rw [TokenStream.matchingClose?, htable]
  simp only [Option.join_some, Option.some.injEq]
  omega

theorem Encloses.unique {n : Nat} (h : s.Encloses i m) (h' : s.Encloses i n) : n = m :=
  Option.some.inj (h'.matchingClose?.symm.trans h.matchingClose?)

end TokenStream
end JavaSyntax
