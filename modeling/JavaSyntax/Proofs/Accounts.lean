import Mathlib.Data.List.Perm.Subperm
import JavaSyntax.Proofs.Budget
import JavaSyntax.Proofs.Tables

/-!
# What probes pay for

With a memo each probe is tried at most once for an index. A probe never comes back to itself
before it reads a token, so its result is new when it is kept, and the tokens that its fragment
read itself, without those of other probes, are at most those of the list. So new results pay
for all tokens that a run speculates, unless it ends fatally.
-/

namespace JavaSyntax

namespace PredictionMemo
variable {m : PredictionMemo} {n i : Nat} {p : Probe} {r : ProbeResult}

/-- All results are for indices below `n`. -/
def Within (m : PredictionMemo) (n : Nat) : Prop := ∀ k ∈ m.results, k < 8 * n

theorem within_empty (n : Nat) : Within {} n := by
  intro k hk
  simp at hk

theorem size_le (h : m.Within n) : m.size ≤ 8 * n := by
  have hnodup : m.results.keys.Nodup := by
    refine m.results.distinct_keys.imp ?_
    intro a b hne heq
    exact hne (Nat.compare_eq_eq.2 heq)
  have hsub : m.results.keys ⊆ List.range (8 * n) := by
    intro k hk
    exact List.mem_range.2 (h k (Std.TreeMap.mem_keys.1 hk))
  have hle := (hnodup.subperm hsub).length_le
  rw [Std.TreeMap.length_keys, List.length_range] at hle
  exact hle

theorem Within.insert (h : m.Within n) (hi : i < n) : (m.insert p i r).Within n := by
  intro k hk
  rcases Std.TreeMap.mem_insert.1 hk with heq | hk
  · have hp := p.index_lt
    rw [← Nat.compare_eq_eq.1 heq, key]
    omega
  · exact h k hk

theorem size_insert (h : m.find? p i = none) : (m.insert p i r).size = m.size + 1 := by
  have hk : m.results.contains (key p i) = false := by
    rw [← Std.TreeMap.isSome_getElem?_eq_contains]
    exact Option.isSome_eq_false_iff.2 (Option.isNone_iff_eq_none.2 h)
  rw [size, insert, Std.TreeMap.size_insert, if_neg (by simp [hk])]
  rfl

end PredictionMemo

namespace State
variable {env : Setting} {s : State}

theorem memo_conclude (p : Probe) (start : Nat) (d : Draft) (o : Outcome) :
    (conclude env p start d o).outcome.state.memo = o.state.memo ∨
      ∃ r, (conclude env p start d o).outcome.state.memo = o.state.memo.insert p start r := by
  have hremember (t : State) (r : ProbeResult) :
      (t.remember env p r).memo = t.memo ∨
        (t.remember env p r).memo = t.memo.insert p t.index r := by
    unfold remember
    split
    · exact .inr rfl
    · exact .inl rfl
  unfold conclude
  dsimp only
  split
  · exact .inl rfl
  · split
    · rename_i t
      exact (hremember _ _).imp id fun h => ⟨_, h⟩
    · split
      · exact .inl rfl
      · exact (hremember _ _).imp id fun h => ⟨_, h⟩

end State

section
variable {env : Setting} {s : State}

theorem Setting.within_law (env : Setting) : env.Law fun s o =>
    s.memo.Within (env.stream.lastIndex + 1) → o.state.memo.Within (env.stream.lastIndex + 1) where
  stay _ h hw := by
    intro k hk
    exact hw k (h.results ▸ hk)
  fail _ _ hw := hw
  shift _ hw := by
    rw [State.memo_shift]
    exact hw
  probe _ p outer h _ ih hw := by
    rcases State.memo_conclude p _ outer _ with hm | ⟨r, hm⟩
    · rw [hm]
      exact ih hw
    · rw [hm]
      exact (ih hw).insert (Nat.lt_succ_of_le h.index_le)
  trans h h' hw := h' (h hw)

/-- The outcome has the same results as the state for all indices below its own, and if it is
done, it has not gone back. -/
structure Outcome.Keeps (s : State) (o : Outcome) : Prop where
  le : ∀ t, o = .done t → s.index ≤ t.index
  find? : ∀ q i, i < s.index → o.state.memo.find? q i = s.memo.find? q i

theorem PredictionMemo.find?_congr {m m' : PredictionMemo} (h : m'.results = m.results)
    (q : Probe) (i : Nat) : m'.find? q i = m.find? q i := by
  rw [PredictionMemo.find?, PredictionMemo.find?, h]

theorem State.le_of_shift {t : State} (h : s.shift env = .done t) : s.index ≤ t.index := by
  obtain ⟨-, -, hs⟩ | ⟨-, ⟨-, hs⟩ | ⟨-, hs⟩⟩ := s.shift_cases env <;> cases hs.symm.trans h
  exact Nat.le_succ _

theorem State.index_of_conclude {p : Probe} {start : Nat} {d : Draft} {o : Outcome} {t : State}
    (h : (conclude env p start d o).outcome = .done t) : t.index = start := by
  unfold conclude at h
  dsimp only at h
  split at h
  · cases h
  · split at h
    · cases h
      exact index_remember _
    · split at h
      · cases h
      · cases h
        exact index_remember _

theorem Setting.keeps_law (env : Setting) : env.Law fun s o => o.Keeps s where
  stay _ h := by
    constructor
    · intro t ht
      cases ht
      exact Nat.le_of_eq h.index.symm
    · intro q i _
      exact PredictionMemo.find?_congr h.results q i
  fail _ _ := by
    constructor
    · intro t ht
      cases ht
    · intro q i _
      rfl
  shift _ := by
    constructor
    · intro t ht
      exact State.le_of_shift ht
    · intro q i _
      rw [State.memo_shift]
  probe {s} _ p outer _ _ ih := by
    constructor
    · intro t ht
      exact Nat.le_of_eq (State.index_of_conclude ht).symm
    · intro q i hi
      rcases State.memo_conclude p _ outer _ with hm | ⟨r, hm⟩
      · rw [hm]
        exact ih.find? q i hi
      · have hne : ¬(p = q ∧ s.index = i) := by
          rintro ⟨-, rfl⟩
          exact Nat.lt_irrefl _ hi
        rw [hm, PredictionMemo.find?_insert, if_neg hne]
        exact ih.find? q i hi
  trans {s t o} h h' := by
    have hle : s.index ≤ t.index := h.le t rfl
    constructor
    · intro u hu
      exact Nat.le_trans hle (h'.le u hu)
    · intro q i hi
      exact (h'.find? q i (Nat.lt_of_lt_of_le hi hle)).trans (h.find? q i hi)

theorem Guard.probe?_of_rank {g : Guard} (h : g.rank ≤ 3) : g.probe? = none := by
  unfold Guard.rank at h
  split at h
  · omega
  · rename_i hp
    simpa using hp

theorem Guard.decide_of_rank {g : Guard} (hg : g.rank ≤ 3) (env : Setting)
    (deeper : Cmd → State → Outcome) (s : State) :
    ∃ answer t, g.decide env deeper s = .answer answer t ∧ s.SameCounts t := by
  unfold decide
  cases hs : g.settle env s with
  | known b t => exact ⟨b, t, rfl, sameCounts_of_known hs⟩
  | ask p t => cases (probe?_of_rank hg).symm.trans (probe?_eq_of_settle hs)

/-- The outcome has the same results as the state for its index. -/
def Outcome.KeepsHere (s : State) (o : Outcome) : Prop :=
  ∀ q, o.state.memo.find? q s.index = s.memo.find? q s.index

theorem Outcome.KeepsHere.of_sameCounts {t : State} {o : Outcome} (h : s.SameCounts t)
    (ho : o.KeepsHere t) : o.KeepsHere s := by
  intro q
  rw [← h.index, ho q]
  exact PredictionMemo.find?_congr h.results q _

namespace Cmd
variable {n : Nat}

theorem keepsHere_exec (ih : ∀ (c : Cmd) s, env.Ready s → c.rank ≤ 3 → (c.run env n s).KeepsHere s)
    (c : Cmd) (h : env.Ready s) (hc : c.rank ≤ 3) :
    (c.exec env (run env n) s).KeepsHere s := by
  induction c generalizing s with
  | skip => exact fun _ => rfl
  | shift =>
    intro q
    rw [exec, State.memo_shift]
  | fail expected remark => exact fun _ => rfl
  | seq a b iha ihb =>
    rw [rank] at hc
    have ha := iha h (by omega)
    rw [exec]
    split
    · rename_i t ht
      rw [ht] at ha
      intro q
      rw [← ha q]
      by_cases hm : a.moves = true
      · -- The second part starts behind the index and leaves it alone.
        have hends := (reach_of_run (n := n + 1) h.trusts ht).2
        have hlt : s.index < t.index := hends.lt_of_moves hm
        exact (env.keeps_law.run (n + 1) b (h.exec ht)).find? q _ hlt
      · rw [if_neg hm] at hc
        have hle : s.index ≤ t.index := (env.keeps_law.run (n + 1) a h).le t ht
        rcases Nat.eq_or_lt_of_le hle with heq | hlt
        · rw [heq]
          exact ihb (h.exec ht) (by omega) q
        · exact (env.keeps_law.run (n + 1) b (h.exec ht)).find? q _ hlt
    · rename_i e t ht
      rwa [ht] at ha
  | ite g a b iha ihb =>
    rw [rank] at hc
    have hg : g.rank ≤ 3 := by omega
    obtain ⟨answer, t, ht, hst⟩ := g.decide_of_rank hg env (run env n) s
    have hready := h.decide ht
    rw [exec, ht]
    cases answer with
    | true => exact (iha hready (by omega)).of_sameCounts hst
    | false => exact (ihb hready (by omega)).of_sameCounts hst
  | loop g body _ =>
    have hpass : (seq body (loop g body)).rank ≤ 3 := by
      rw [rank]
      rw [rank] at hc ⊢
      split <;> omega
    rw [rank] at hc
    have hg : g.rank ≤ 3 := by omega
    obtain ⟨answer, t, ht, hst⟩ := g.decide_of_rank hg env (run env n) s
    rw [exec, ht]
    cases answer with
    | true => exact (ih _ t (h.decide ht) hpass).of_sameCounts hst
    | false => exact fun q => PredictionMemo.find?_congr hst.results q _
  | nest body ihb =>
    have hb := ihb (s := s.fresh env) (h.redraft _) hc
    rw [exec]
    split
    · rename_i t ht
      rw [ht] at hb
      exact hb
    · rename_i e t ht
      rw [ht] at hb
      exact hb
  | jump r =>
    have hrank := r.rank_body_le
    rw [rank] at hc
    exact ih r.body s h (by omega)
  | dispatch t =>
    rw [rank] at hc
    rw [exec]
    split
    · rename_i r hdec
      have hrank := r.rank_body_le
      have hmax : r.rank ≤ t.rules.foldr (fun r n => max r.rank n) 0 :=
        Rule.le_foldr_rank (Table.mem_rules_of_decide hdec)
      exact ih r.body s h (by omega)
    · exact fun _ => rfl
  | close kind => exact fun _ => rfl
  | wrap kind => exact fun _ => rfl

/-- Below the rank of a guard with a probe, nothing is found out about the index itself. -/
theorem keepsHere_run (n : Nat) (c : Cmd) (h : env.Ready s) (hc : c.rank ≤ 3) :
    (c.run env n s).KeepsHere s := by
  induction n generalizing c s with
  | zero => exact fun _ => rfl
  | succ n ih => exact keepsHere_exec (fun c _ h hc => ih c h hc) c h hc

end Cmd

/-- A probe does not come back to itself: what it finds out is new. -/
theorem Probe.unasked_run {p : Probe} {n : Nat} (h : env.Ready s) (hu : s.Unasked env p)
    (hm : env.options.memoize = true) :
    (p.fragment.run env n (s.enterProbe env)).state.memo.find? p s.index = none := by
  have hkeeps := Cmd.keepsHere_run n p.fragment h.enterProbe p.paced_fragment.2
  exact (hkeeps p).trans (hu hm)

namespace Outcome

def isFatal : Outcome → Bool
  | done _ => false
  | failed e _ => e.isFatal

/-- The tokens between the index of the state and where the outcome stands, as an upper bound of
what was read outside of further probes. The token at which a failure occurred counts as well. -/
def reach : Outcome → Nat
  | done t => t.index
  | failed _ t => t.index + 1

/-- A run comes back to the depth of its start. Unless it ends fatally, all tokens that it has
speculated are paid for: by new results in the memo, each worth the whole list, and inside a
probe by the tokens passed. -/
structure Accounts (env : Setting) (s : State) (o : Outcome) : Prop where
  depth : o.state.depth = s.depth
  count : o.isFatal = false →
    o.state.speculated + (env.stream.lastIndex + 1) * s.memo.size +
        (if s.depth = 0 then 0 else s.index) ≤
      s.speculated + (env.stream.lastIndex + 1) * o.state.memo.size +
        (if s.depth = 0 then 0 else o.reach)

theorem accounts_stay {t : State} (h : s.SameCounts t) : (done t).Accounts env s where
  depth := h.depth
  count := by
    intro _
    have hsize : t.memo.size = s.memo.size := by
      rw [PredictionMemo.size, h.results]
      rfl
    simp only [state, reach, hsize, h.index, h.speculated]
    exact Nat.le_refl _

theorem accounts_fail {e : ParseError} : (failed e s).Accounts env s where
  depth := rfl
  count := by
    intro _
    simp only [state, reach]
    split <;> omega

theorem accounts_shift : (s.shift env).Accounts env s := by
  obtain ⟨-, -, h⟩ | ⟨-, ⟨-, h⟩ | ⟨-, h⟩⟩ := s.shift_cases env <;> rw [h]
  · exact ⟨rfl, by simp [isFatal, ParseError.isFatal, State.errorHere, ParseFault.isFatal]⟩
  · refine ⟨rfl, fun _ => ?_⟩
    simp only [state, reach, State.counted]
    split <;> omega
  · refine ⟨rfl, fun _ => ?_⟩
    simp only [state, reach, State.counted, State.advance]
    split <;> omega

theorem Accounts.trans {t : State} {o : Outcome} (h : (done t).Accounts env s)
    (h' : o.Accounts env t) : o.Accounts env s where
  depth := h'.depth.trans h.depth
  count := by
    intro ho
    have hdepth : t.depth = s.depth := h.depth
    have hst := h.count rfl
    have hto := h'.count ho
    simp only [state, reach, hdepth] at hst hto ⊢
    omega

end Outcome

theorem State.depth_conclude (p : Probe) (start : Nat) (d : Draft) (o : Outcome) :
    (conclude env p start d o).outcome.state.depth = o.state.depth - 1 := by
  unfold conclude
  dsimp only
  split
  · rfl
  · split
    · exact depth_remember _
    · split
      · rfl
      · exact depth_remember _

theorem State.size_remember {r : ProbeResult} {p : Probe} (hm : env.options.memoize = true)
    (hu : s.memo.find? p s.index = none) :
    (s.remember env p r).memo.size = s.memo.size + 1 := by
  rw [remember, if_pos hm]
  exact PredictionMemo.size_insert hu

theorem State.index_conclude {start : Nat} (h : start ≤ env.stream.lastIndex) (p : Probe)
    (outer : Draft) (o : Outcome) : (conclude env p start outer o).outcome.state.index = start := by
  cases o with
  | done t =>
    rw [conclude_done h]
    exact index_remember _
  | failed e t =>
    cases he : e.isFatal with
    | true =>
      rw [conclude_fatal h he]
      rfl
    | false =>
      rw [conclude_input h he]
      exact index_remember _

/-- A run does not pass an end of the source, however it ends. -/
theorem Setting.index_law (env : Setting) {m : Nat} (hm : (env.stream.tokenAt m).kind = .eof) :
    env.Law fun s o => s.index ≤ m → o.state.index ≤ m where
  stay _ h hi := h.index ▸ hi
  fail _ _ hi := hi
  shift {s} _ hi := by
    obtain h | ⟨hk, h⟩ := s.state_shift env <;> rw [h]
    · exact hi
    · refine Nat.lt_of_le_of_ne hi ?_
      rintro rfl
      exact hk hm
  probe _ p outer h _ _ hi :=
    Nat.le_trans (Nat.le_of_eq (State.index_conclude h.index_le p outer _)) hi
  trans h h' hi := h' (h hi)

/-- A probe pays for itself by its result. -/
theorem Outcome.accounts_probe (hm : env.options.memoize = true) (n : Nat) (p : Probe)
    (outer : Draft) (h : env.Ready s) (hu : s.Unasked env p)
    (ih : (p.fragment.run env n (s.enterProbe env)).Accounts env (s.enterProbe env)) :
    (State.conclude env p s.index outer
      (p.fragment.run env n (s.enterProbe env))).outcome.Accounts env s := by
  have hnew := Probe.unasked_run (n := n) h hu hm
  have hlast := (env.index_law h.closed).run n p.fragment h.enterProbe h.index_le
  have hdepth : (p.fragment.run env n (s.enterProbe env)).state.depth = s.depth + 1 := ih.depth
  have hcount := ih.count
  refine ⟨by rw [State.depth_conclude, hdepth, Nat.add_sub_cancel], ?_⟩
  have hinside : (s.enterProbe env).depth ≠ 0 := Nat.succ_ne_zero _
  simp only [if_neg hinside] at hcount
  generalize p.fragment.run env n (s.enterProbe env) = o at *
  change o.isFatal = false → o.state.speculated + (env.stream.lastIndex + 1) * s.memo.size +
    s.index ≤ s.speculated + (env.stream.lastIndex + 1) * o.state.memo.size + o.reach at hcount
  -- A kept result is worth all tokens of the list.
  have hpaid (t : State) (accepted : Bool) (hfind : t.memo.find? p s.index = none)
      (hspec : t.speculated + (env.stream.lastIndex + 1) * s.memo.size ≤ s.speculated +
        (env.stream.lastIndex + 1) * t.memo.size + (env.stream.lastIndex + 1)) :
      ((t.comeBack s.index outer).remember env p ⟨accepted, t.index⟩).speculated +
          (env.stream.lastIndex + 1) * s.memo.size + (if s.depth = 0 then 0 else s.index) ≤
        s.speculated + (env.stream.lastIndex + 1) *
            ((t.comeBack s.index outer).remember env p ⟨accepted, t.index⟩).memo.size +
          (if s.depth = 0 then 0
            else ((t.comeBack s.index outer).remember env p ⟨accepted, t.index⟩).index) := by
    have hsize : ((t.comeBack s.index outer).remember env p ⟨accepted, t.index⟩).memo.size =
        t.memo.size + 1 := State.size_remember hm hfind
    rw [State.speculated_remember, State.index_remember, hsize, Nat.mul_succ]
    change t.speculated + _ + _ ≤ _ + (if s.depth = 0 then 0 else s.index)
    omega
  cases o with
  | done t =>
    rw [State.conclude_done h.index_le]
    intro _
    have ht := hcount rfl
    have hle := hlast
    simp only [state, reach] at ht hle
    exact hpaid t true hnew (by omega)
  | failed e t =>
    cases he : e.isFatal with
    | true =>
      rw [State.conclude_fatal h.index_le he]
      intro hmild
      cases he.symm.trans hmild
    | false =>
      rw [State.conclude_input h.index_le he]
      intro _
      have ht := hcount he
      have hle := hlast
      simp only [state, reach] at ht hle
      exact hpaid t false hnew (by omega)

theorem Setting.accounts_law {env : Setting} (hm : env.options.memoize = true) :
    env.Law fun s o => o.Accounts env s where
  stay _ h := Outcome.accounts_stay h
  fail _ _ := Outcome.accounts_fail
  shift _ := Outcome.accounts_shift
  probe n p outer h hu ih := Outcome.accounts_probe hm n p outer h hu ih
  trans h h' := h.trans h'

end
end JavaSyntax
