import JavaSyntax.Proofs.Coverage

/-!
# Outlooks

What is known of a place: the kinds of a few tokens before and after it, the latest node of the
draft, and whether a token has been read. `Cmd.exits` computes from the outlook at a command the
outlooks that it may end with. Probes and the answers that they would give are left open.
-/

namespace JavaSyntax

namespace KindSet
variable {s t : KindSet} {k : TokenKind}

def full : KindSet := ⟨1 <<< 106 - 1⟩

def inter (s t : KindSet) : KindSet := ⟨s.bits &&& t.bits⟩

def diff (s t : KindSet) : KindSet := ⟨s.bits ^^^ (s.bits &&& t.bits)⟩

def subset (s t : KindSet) : Bool := s.bits &&& t.bits == s.bits

@[simp] theorem contains_full (k : TokenKind) : full.contains k = true := by
  simp only [contains, full, Nat.one_shiftLeft, Nat.testBit_two_pow_sub_one]
  exact decide_eq_true k.index_lt

@[simp] theorem contains_inter (s t : KindSet) (k : TokenKind) :
    (s.inter t).contains k = (s.contains k && t.contains k) := by
  simp [contains, inter]

@[simp] theorem contains_diff (s t : KindSet) (k : TokenKind) :
    (s.diff t).contains k = (s.contains k && !t.contains k) := by
  simp only [contains, diff, Nat.testBit_xor, Nat.testBit_and]
  cases s.bits.testBit k.index <;> simp

theorem contains_of_subset (h : s.subset t = true) (hk : s.contains k = true) :
    t.contains k = true := by
  have hst : s.inter t = s := congrArg KindSet.mk (beq_iff_eq.1 h)
  rw [← hst, contains_inter, Bool.and_eq_true] at hk
  exact hk.2

theorem isEmpty_of_contains (h : s.contains k = true) : s.isEmpty = false := by
  rw [isEmpty, beq_eq_false_iff_ne]
  intro h0
  simp [contains, h0] at h

end KindSet

structure Outlook where
  /-- The kinds that the tokens before the place may have, nearest first. -/
  past : List KindSet := []
  /-- The kinds that the tokens from the place on may have. -/
  ahead : List KindSet := []
  /-- Whether the next two tokens touch. -/
  touch : Option Bool := none
  /-- The kind of the latest node in the draft. -/
  latest : Option NodeKind := none
  /-- A token has been read. -/
  moved : Bool := false
  deriving DecidableEq, Repr

namespace Outlook

/-- What is known holds of a place that has been reached from an index. -/
structure Holds (s : TokenStream) (i : Nat) (p : Place) (v : Outlook) : Prop where
  start_le : i ≤ p.index
  past : ∀ k (ks : KindSet), v.past[k]? = some ks →
    ∃ j, j + k + 1 = p.index ∧ ks.contains (s.kindAt j) = true
  ahead : ∀ k (ks : KindSet), v.ahead[k]? = some ks → ks.contains (s.kindAt (p.index + k)) = true
  touch : ∀ b, v.touch = some b → s.touching p.index = b
  latest : ∀ k, v.latest = some k → p.draft.items.head?.bind Tree.nodeKind? = some k
  moved : v.moved = true → i < p.index

def Any (s : TokenStream) (i : Nat) (p : Place) (vs : List Outlook) : Prop :=
  ∃ v ∈ vs, v.Holds s i p

def kinds (v : Outlook) (k : Nat) : KindSet := v.ahead.getD k .full

/-- The list with another set at a position, filled up to it. -/
def put : List KindSet → Nat → KindSet → List KindSet
  | [], 0, ks => [ks]
  | [], n + 1, ks => .full :: put [] n ks
  | _ :: rest, 0, ks => ks :: rest
  | a :: rest, n + 1, ks => a :: put rest n ks

/-- The outlook if the token after `k` others is of one of the kinds, unless it cannot be. -/
def refine (v : Outlook) (k : Nat) (ks : KindSet) : List Outlook :=
  if ((v.kinds k).inter ks).isEmpty then []
  else [{ v with ahead := put v.ahead k ((v.kinds k).inter ks) }]

def leKinds : List KindSet → List KindSet → Bool
  | _, [] => true
  | [], _ :: _ => false
  | a :: as, b :: bs => a.subset b && leKinds as bs

/-- The first outlook tells at least what the second one does. -/
def le (v w : Outlook) : Bool :=
  (!w.moved || v.moved) && (w.latest.isNone || v.latest == w.latest) &&
    (w.touch.isNone || v.touch == w.touch) && leKinds v.past w.past && leKinds v.ahead w.ahead

/-- The outlooks less those that others cover. -/
def merge (vs : List Outlook) : List Outlook :=
  vs.foldr (fun v us => if us.any v.le then us else v :: us.filter fun u => !u.le v) []

/-- The outlook behind a token that is read. -/
def read (v : Outlook) : Outlook :=
  { past := v.kinds 0 :: v.past.take 1, ahead := v.ahead.tail, moved := true }

variable {s : TokenStream} {i : Nat} {p q : Place} {v w : Outlook} {vs us : List Outlook}

theorem holds_top {moved : Bool} (hi : i ≤ p.index) (hm : moved = true → i < p.index) :
    ({ moved } : Outlook).Holds s i p where
  start_le := hi
  past := by simp
  ahead := by simp
  touch := by simp
  latest := by simp
  moved := hm

theorem Holds.contains_kinds (h : v.Holds s i p) (k : Nat) :
    (v.kinds k).contains (s.kindAt (p.index + k)) = true := by
  rw [kinds, List.getD_eq_getElem?_getD]
  cases hk : v.ahead[k]? with
  | none => exact KindSet.contains_full _
  | some ks => exact h.ahead k ks hk

theorem of_getElem?_put {l : List KindSet} {k j : Nat} {ks js : KindSet}
    (h : (put l k ks)[j]? = some js) : (j = k ∧ js = ks) ∨ js = .full ∨ l[j]? = some js := by
  induction l generalizing k j with
  | nil =>
    induction k generalizing j with
    | zero => cases j <;> simp_all [put]
    | succ k ih =>
      cases j with
      | zero => simp_all [put]
      | succ j => simpa using ih (j := j) h
  | cons a l ih =>
    cases k with
    | zero => cases j <;> simp_all [put]
    | succ k =>
      cases j with
      | zero => simp_all [put]
      | succ j => simpa using ih (k := k) (j := j) h

theorem Holds.refine (h : v.Holds s i p) {k : Nat} {ks : KindSet}
    (hk : ks.contains (s.kindAt (p.index + k)) = true) : Any s i p (v.refine k ks) := by
  have hboth : ((v.kinds k).inter ks).contains (s.kindAt (p.index + k)) = true := by
    rw [KindSet.contains_inter, h.contains_kinds, hk, Bool.and_self]
  rw [Outlook.refine, KindSet.isEmpty_of_contains hboth]
  refine ⟨_, List.mem_singleton_self _, { h with ahead := ?_ }⟩
  intro j js hj
  obtain ⟨rfl, rfl⟩ | rfl | hj := of_getElem?_put hj
  · exact hboth
  · exact KindSet.contains_full _
  · exact h.ahead j js hj

theorem subset_of_leKinds {as bs : List KindSet} (h : leKinds as bs = true) {k : Nat}
    {b : KindSet} (hb : bs[k]? = some b) : ∃ a, as[k]? = some a ∧ a.subset b = true := by
  fun_induction leKinds as bs generalizing k with
  | case1 => cases hb
  | case2 => cases h
  | case3 a as b' bs ih =>
    rw [Bool.and_eq_true] at h
    cases k with
    | zero =>
      cases hb
      exact ⟨a, rfl, h.1⟩
    | succ k => exact ih h.2 hb

theorem Holds.le (h : v.Holds s i p) (hle : v.le w = true) : w.Holds s i p := by
  simp only [Outlook.le, Bool.and_eq_true, Bool.or_eq_true, Option.isNone_iff_eq_none,
    beq_iff_eq, Bool.not_eq_true'] at hle
  obtain ⟨⟨⟨⟨hmoved, hlatest⟩, htouch⟩, hpast⟩, hahead⟩ := hle
  constructor
  · exact h.start_le
  · intro k ks hk
    obtain ⟨a, ha, hsub⟩ := subset_of_leKinds hpast hk
    obtain ⟨j, hj, hc⟩ := h.past k a ha
    exact ⟨j, hj, KindSet.contains_of_subset hsub hc⟩
  · intro k ks hk
    obtain ⟨a, ha, hsub⟩ := subset_of_leKinds hahead hk
    exact KindSet.contains_of_subset hsub (h.ahead k a ha)
  · intro b hb
    obtain hn | heq := htouch
    · cases hn.symm.trans hb
    · exact h.touch b (heq.trans hb)
  · intro k hk
    obtain hn | heq := hlatest
    · cases hn.symm.trans hk
    · exact h.latest k (heq.trans hk)
  · intro hw
    obtain hn | hv := hmoved
    · cases hn.symm.trans hw
    · exact h.moved hv

theorem Holds.read (h : v.Holds s i p) (hq : q.index = p.index + 1) : v.read.Holds s i q where
  start_le := by have := h.start_le; omega
  past := by
    intro k ks hk
    cases k with
    | zero =>
      cases hk
      exact ⟨p.index, hq.symm, h.contains_kinds 0⟩
    | succ k =>
      rw [Outlook.read, List.getElem?_cons_succ, List.getElem?_take] at hk
      split at hk
      · obtain ⟨j, hj, hc⟩ := h.past k ks hk
        exact ⟨j, by omega, hc⟩
      · cases hk
  ahead := by
    intro k ks hk
    rw [Outlook.read, List.getElem?_tail] at hk
    have := h.ahead (k + 1) ks hk
    rwa [hq, Nat.add_assoc, Nat.add_comm 1 k]
  touch := by simp [Outlook.read]
  latest := by simp [Outlook.read]
  moved := by
    intro _
    have := h.start_le
    omega

theorem Holds.any (h : v.Holds s i p) : Any s i p [v] := ⟨v, List.mem_singleton_self v, h⟩

theorem Any.left (h : Any s i p vs) (us : List Outlook) : Any s i p (vs ++ us) := by
  obtain ⟨v, hv, h⟩ := h
  exact ⟨v, List.mem_append_left us hv, h⟩

theorem Any.right (h : Any s i p us) (vs : List Outlook) : Any s i p (vs ++ us) := by
  obtain ⟨v, hv, h⟩ := h
  exact ⟨v, List.mem_append_right vs hv, h⟩

theorem Any.flatMap {f : Outlook → List Outlook} (h : Any s i p vs)
    (hf : ∀ v, v.Holds s i p → Any s i q (f v)) : Any s i q (vs.flatMap f) := by
  obtain ⟨v, hv, h⟩ := h
  obtain ⟨w, hw, h⟩ := hf v h
  exact ⟨w, List.mem_flatMap.2 ⟨v, hv, hw⟩, h⟩

theorem Any.merge (h : Any s i p vs) : Any s i p (merge vs) := by
  induction vs with
  | nil =>
    obtain ⟨v, hv, -⟩ := h
    cases hv
  | cons v vs ih =>
    obtain ⟨w, hw, h⟩ := h
    rw [Outlook.merge, List.foldr_cons]
    change Any s i p (if (Outlook.merge vs).any v.le then Outlook.merge vs
      else v :: (Outlook.merge vs).filter fun u => !u.le v)
    rcases List.mem_cons.1 hw with rfl | hw
    · split
      · rename_i hany
        obtain ⟨u, hu, hle⟩ := List.any_eq_true.1 hany
        exact ⟨u, hu, h.le hle⟩
      · exact ⟨w, List.mem_cons_self, h⟩
    · obtain ⟨u, hu, h⟩ := ih ⟨w, hw, h⟩
      split
      · exact ⟨u, hu, h⟩
      · by_cases hle : u.le v = true
        · exact ⟨v, List.mem_cons_self, h.le hle⟩
        · exact ⟨u, List.mem_cons_of_mem _ (List.mem_filter.2 ⟨hu, by simpa using hle⟩), h⟩

end Outlook

open Outlook

namespace Test

/-- The outlooks if the test has the answer. -/
def assume : Test → Bool → Outlook → List Outlook
  | always, b, v => if b then [v] else []
  | never, b, v => if b then [] else [v]
  | ahead k ks, b, v => v.refine k (if b then ks else KindSet.full.diff ks)
  | touching 0, b, v =>
    match v.touch with
    | none => [{ v with touch := some b }]
    | some b' => if b = b' then [v] else []
  | latestIs ks, b, v =>
    match v.latest with
    | none => if b then ks.map fun k => { v with latest := some k } else [v]
    | some k => if ks.contains k = b then [v] else []
  | neg t, b, v => t.assume (!b) v
  | both t u, b, v =>
    if b then (t.assume true v).flatMap (u.assume true)
    else t.assume false v ++ (t.assume true v).flatMap (u.assume false)
  | either t u, b, v =>
    if b then t.assume true v ++ (t.assume false v).flatMap (u.assume true)
    else (t.assume false v).flatMap (u.assume false)
  | _, _, v => [v]

theorem any_assume {s : TokenStream} {i : Nat} {p : Place} {v : Outlook} {t : Test} {b : Bool}
    (hv : v.Holds s i p) (hb : t.holds s p.index p.draft = b) : Any s i p (t.assume b v) := by
  induction t generalizing b v with
  | always =>
    cases hb
    exact hv.any
  | never =>
    cases hb
    exact hv.any
  | ahead k ks =>
    refine hv.refine ?_
    cases b with
    | true => exact hb
    | false =>
      rw [holds] at hb
      simp [hb]
  | touching k =>
    cases k with
    | zero =>
      rw [assume]
      split
      · refine ⟨_, List.mem_singleton_self _, { hv with touch := ?_ }⟩
        intro b' hb'
        cases hb'
        exact hb
      · rename_i b' htouch
        rw [if_pos]
        · exact hv.any
        · exact hb.symm.trans (hv.touch b' htouch)
    | succ k => exact hv.any
  | latestIs ks =>
    rw [holds, Draft.lastIs] at hb
    rw [assume]
    split
    · cases b with
      | false => exact hv.any
      | true =>
        split at hb
        · rename_i k hk
          refine ⟨_, List.mem_map.2 ⟨k, List.contains_iff_mem.1 hb, rfl⟩, { hv with latest := ?_ }⟩
          intro k' hk'
          cases hk'
          exact hk
        · cases hb
    · rename_i k hlatest
      rw [hv.latest k hlatest] at hb
      rw [if_pos hb]
      exact hv.any
  | neg t ih => exact ih hv (by rw [← hb, holds, Bool.not_not])
  | both t u iht ihu =>
    rw [holds] at hb
    cases b with
    | true =>
      rw [Bool.and_eq_true] at hb
      exact (iht hv hb.1).flatMap fun w hw => ihu hw hb.2
    | false =>
      cases ht : t.holds s p.index p.draft with
      | true =>
        rw [ht, Bool.true_and] at hb
        exact ((iht hv ht).flatMap fun w hw => ihu hw hb).right _
      | false => exact (iht hv ht).left _
  | either t u iht ihu =>
    rw [holds] at hb
    cases b with
    | true =>
      cases ht : t.holds s p.index p.draft with
      | true => exact (iht hv ht).left _
      | false =>
        rw [ht, Bool.false_or] at hb
        exact ((iht hv ht).flatMap fun w hw => ihu hw hb).right _
    | false =>
      rw [Bool.or_eq_false_iff] at hb
      exact (iht hv hb.1).flatMap fun w hw => ihu hw hb.2
  | _ => exact hv.any

end Test

namespace Guard

def assume : Guard → Bool → Outlook → List Outlook
  | test t, b, v => t.assume b v
  | trial sure possible _, b, v =>
    if b then sure.assume true v ++ (sure.assume false v).flatMap (possible.assume true)
    else sure.assume false v
  | typeHead _, _, v => [v]

theorem any_assume {s : TokenStream} {i : Nat} {p : Place} {v : Outlook} {g : Guard} {b : Bool}
    (hv : v.Holds s i p) (hb : g.Allows s p b) : Any s i p (g.assume b v) := by
  cases g with
  | test t => exact Test.any_assume hv hb
  | trial sure possible probe =>
    rw [Allows, query] at hb
    cases hs : sure.holds s p.index p.draft with
    | true =>
      rw [if_pos hs] at hb
      cases hb
      exact (Test.any_assume hv hs).left _
    | false =>
      cases b with
      | false => exact Test.any_assume hv hs
      | true =>
        cases hp : possible.holds s p.index p.draft with
        | true =>
          exact ((Test.any_assume hv hs).flatMap fun w hw => Test.any_assume hw hp).right _
        | false => simp [hs, hp] at hb
  | typeHead probe => exact hv.any

end Guard

/-- The outlooks behind a rule, whatever is known before it. -/
def Rule.exits : Rule → List Outlook
  | modifiers =>
    [{ ahead := [KindSet.full.diff (TokenKind.modifierWords.insert .atSign)] },
      { ahead := [.single .atSign, .single .kwInterface] }]
  | variableModifiers | compilationUnit => [{}]
  | type =>
    [{ latest := some .classType, moved := true }, { latest := some .arrayType, moved := true },
      { latest := some .primitiveType, past := [TokenKind.primitives],
        ahead := [KindSet.full.diff (.single .lbracket)], moved := true },
      { latest := some .primitiveType, past := [TokenKind.primitives],
        ahead := [.single .lbracket, KindSet.full.diff (.single .rbracket)], moved := true }]
  | _ => [{ moved := true }]

/-- What is known behind a rule that has been called at the outlook. -/
def Outlook.behind (v w : Outlook) : Outlook := { w with moved := v.moved || w.moved }

/-- The outlooks that a command may end with. Behind a pass of a loop it is only known whether a
token has been read. -/
def Cmd.exits : Cmd → Outlook → List Outlook
  | skip, v => [v]
  | shift, v => [v.read]
  | fail _ _, _ => []
  | seq a b, v => (merge (a.exits v)).flatMap b.exits
  | ite g a b, v => (g.assume true v).flatMap a.exits ++ (g.assume false v).flatMap b.exits
  | loop g body, v =>
    g.assume false v ++
      g.assume false { moved := v.moved || ((g.assume true {}).flatMap body.exits).all moved }
  | nest body, v => body.exits { v with latest := none }
  | jump r, v => r.exits.map v.behind
  | dispatch t, v => t.rules.flatMap fun r => r.exits.map v.behind
  | close kind, v | wrap kind, v => [{ v with latest := some kind }]

/-- The command reads a token if it does not fail. -/
def Cmd.moves (c : Cmd) : Bool := (c.exits {}).all moved

/-- A pass of the loop reads a token if it does not fail. -/
def Cmd.passMoves (g : Guard) (body : Cmd) : Bool :=
  ((g.assume true {}).flatMap body.exits).all moved

def Rule.exitsFit (r : Rule) : Bool := (r.body.exits {}).all fun v => r.exits.any v.le

theorem Rule.exitsFit_all (r : Rule) : r.exitsFit = true := by
  revert r
  decide +kernel

section
variable {s : TokenStream} {strict : Bool} {calls : Rule → Place → Ending → Prop} {c : Cmd}
  {r : Rule} {i : Nat} {p q : Place} {v : Outlook}

theorem Outlook.Holds.behind (hv : v.Holds s i p) (hpq : p.index ≤ q.index)
    {ws : List Outlook} (hw : Any s p.index q ws) : Any s i q (ws.map v.behind) := by
  obtain ⟨w, hw, h⟩ := hw
  refine ⟨_, List.mem_map.2 ⟨w, hw, rfl⟩, ⟨?_, h.past, h.ahead, h.touch, h.latest, ?_⟩⟩
  · exact Nat.le_trans hv.start_le hpq
  · intro hm
    rcases Bool.or_eq_true_iff.1 hm with hm | hm
    · exact Nat.lt_of_lt_of_le (hv.moved hm) hpq
    · exact Nat.lt_of_le_of_lt hv.start_le (h.moved hm)

theorem Outlook.Any.lt {vs : List Outlook} (h : Any s i q vs) (hm : vs.all moved = true) :
    i < q.index := by
  obtain ⟨v, hv, h⟩ := h
  exact h.moved (List.all_eq_true.1 hm v hv)

theorem Outlook.holds_bottom (p : Place) : ({} : Outlook).Holds s p.index p :=
  holds_top (Nat.le_refl _) (by simp)

theorem Outlook.Holds.pass {moves : Bool}
    (hp : v.Holds s i p ∨ ({ moved := v.moved || moves } : Outlook).Holds s i p)
    (hle : p.index ≤ q.index) (hlt : moves = true → p.index < q.index) :
    ({ moved := v.moved || moves } : Outlook).Holds s i q := by
  have hstart : i ≤ p.index := hp.elim (fun h => h.start_le) (fun h => h.start_le)
  refine holds_top (Nat.le_trans hstart hle) fun hm => ?_
  rcases Bool.or_eq_true_iff.1 hm with hv | hmoves
  · have hmoved : i < p.index := hp.elim (fun h => h.moved hv) (fun h => h.moved hm)
    exact Nat.lt_of_lt_of_le hmoved hle
  · exact Nat.lt_of_le_of_lt hstart (hlt hmoves)

theorem Cmd.Ends.exits (hcovers : ∀ r p o, calls r p o → o.Covers s p)
    (hcalls : ∀ r p q, calls r p (.done q) → Any s p.index q r.exits)
    (h : Cmd.Ends s strict calls c p (.done q)) (hv : v.Holds s i p) :
    Any s i q (c.exits v) := by
  induction c generalizing p q v i with
  | skip =>
    cases h
    exact hv.any
  | shift =>
    cases h
    exact (hv.read rfl).any
  | fail => cases h
  | seq a b iha ihb =>
    obtain ⟨m, ha, hb⟩ := h.seq_done
    exact (iha ha hv).merge.flatMap fun w hw => ihb hb hw
  | ite g a b iha ihb =>
    obtain ⟨answer, hg, h⟩ := h.ite_done
    cases answer with
    | true => exact ((Guard.any_assume hv hg).flatMap fun w hw => iha h hw).left _
    | false => exact ((Guard.any_assume hv hg).flatMap fun w hw => ihb h hw).right _
  | loop g body ih =>
    obtain ⟨hinv, hg⟩ := h.loop_done (I := fun m => v.Holds s i m ∨
      ({ moved := v.moved || Cmd.passMoves g body } : Outlook).Holds s i m)
      (fun m m' hm hg hbody => .inr (Holds.pass hm (hbody.covers hcovers).index_le fun hmoves =>
        ((Guard.any_assume (holds_bottom m) hg).flatMap fun w hw => ih hbody hw).lt hmoves))
      (.inl hv)
    obtain hq | hq := hinv
    · exact (Guard.any_assume hq hg).left _
    · exact (Guard.any_assume hq hg).right _
  | nest body ih =>
    cases h with
    | @nest _ _ m h =>
      have hfresh : ({ v with latest := none } : Outlook).Holds s i (s.fresh p.index) :=
        ⟨hv.start_le, hv.past, hv.ahead, hv.touch, by simp, hv.moved⟩
      obtain ⟨w, hw, hm⟩ := ih h hfresh
      refine ⟨w, hw, hm.start_le, hm.past, hm.ahead, hm.touch, ?_, hm.moved⟩
      intro k hk
      have hlatest := hm.latest k hk
      cases hitems : m.draft.items with
      | nil => simp [hitems] at hlatest
      | cons t ts => simpa [Draft.adopt, hitems] using hlatest
  | jump r =>
    cases h with
    | jump h => exact hv.behind (hcovers _ _ _ h).index_le (hcalls _ _ _ h)
  | dispatch t =>
    cases h with
    | @dispatch _ r _ _ ht h =>
      obtain ⟨w, hw, hq⟩ := hv.behind (hcovers _ _ _ h).index_le (hcalls _ _ _ h)
      exact ⟨w, List.mem_flatMap.2 ⟨r, Table.mem_rules_of_decide ht, hw⟩, hq⟩
  | close kind =>
    cases h
    exact ⟨_, List.mem_singleton_self _, { hv with latest := by simp [Draft.close, Tree.build,
      Tree.nodeKind?] }⟩
  | wrap kind =>
    cases h
    exact ⟨_, List.mem_singleton_self _, { hv with latest := by simp [Draft.wrap, Tree.build,
      Tree.nodeKind?] }⟩

/-- Rules end as they are said to. -/
theorem Rule.Ends.exits (h : Rule.Ends s strict r p (.done q)) : Any s p.index q r.exits := by
  refine h.induct (R := fun r p o => ∀ q, o = .done q → Any s p.index q r.exits) ?_ q rfl
  rintro r p _ h q rfl
  obtain ⟨v, hv, hq⟩ :=
    h.exits (fun _ _ _ h => h.1.covers) (fun _ _ q h => h.2 q rfl) (holds_bottom p)
  obtain ⟨w, hw, hle⟩ := List.any_eq_true.1 (List.all_eq_true.1 r.exitsFit_all v hv)
  exact ⟨w, hw, hq.le hle⟩

end

end JavaSyntax
