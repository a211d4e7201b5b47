import JavaSyntax.Proofs.Levels

/-!
# Chains of entries

A run enters the parts of its command, and one level deeper it enters rules, passes of loops and
probes. What has been entered and is not done yet stands in a chain of frames. Along a chain the
position never falls. The height of a frame, its rank and 128 for each token that is left, never
grows, and it falls with every level. So nothing is entered again in one chain before a token has
been read, and a chain has no more levels than its first frame is high.

Nothing is said here of how the list ends: a list without a sentinel is read to its last token.
-/

namespace JavaSyntax

/-- What can be entered: a rule, a pass of a loop, or a part of what a rule or a probe runs. -/
inductive Activity where
  | rule (r : Rule)
  | pass (g : Guard) (body : Cmd)
  | part (c : Cmd)

def Rule.family : Rule → Rule
  | classType _ => classType false
  | binary _ => binary ⟨0, Nat.succ_pos 11⟩
  | typeBody _ => typeBody .classBody
  | modifiedMember _ => modifiedMember .classBody
  | genericMember _ => genericMember .classBody
  | fieldOrMethod _ => fieldOrMethod .classBody
  | formalParameter _ => formalParameter false
  | r => r

theorem Rule.rank_family (r : Rule) : r.family.rank = r.rank := by
  cases r <;> rfl

def Cmd.size : Cmd → Nat
  | seq a b | ite _ a b => a.size + b.size + 1
  | loop _ body | nest body => body.size + 1
  | _ => 1

namespace Activity

def cmd : Activity → Cmd
  | rule r => r.body
  | pass g body => .seq body (.loop g body)
  | part c => c

def rank : Activity → Nat
  | rule r => r.rank
  | pass _ body => body.rank
  | part c => c.rank

def size : Activity → Nat
  | rule r => r.body.size + 1
  | pass _ body => body.size + 1
  | part c => c.size

/-- The activity may be entered at the place: a pass only where its guard may say yes. -/
def Fits (s : TokenStream) (p : Place) : Activity → Prop
  | rule _ => True
  | pass g body => (Cmd.loop g body).paced = true ∧ g.Allows s p true
  | part c => c.paced = true

/-- The same loop, the same command, or the same rule whatever its parameters. -/
def Alike : Activity → Activity → Prop
  | rule r, rule r' => r.family = r'.family
  | a, b => a = b

end Activity

/-- An activity that has been entered in a state, with so many levels left. -/
structure Frame where
  levels : Nat
  activity : Activity
  state : State

namespace Frame

/-- The second frame is entered directly from the first one. -/
inductive Enters (env : Setting) : Frame → Frame → Prop
  | rule {n r s} : Enters env ⟨n, .rule r, s⟩ ⟨n, .part r.body, s⟩
  | first {n g body s} : Enters env ⟨n + 1, .pass g body, s⟩ ⟨n + 1, .part body, s⟩
  | next {n g body s t} (h : body.run env (n + 1) s = .done t) :
      Enters env ⟨n + 1, .pass g body, s⟩ ⟨n + 1, .part (.loop g body), t⟩
  | left {n a b s} : Enters env ⟨n + 1, .part (.seq a b), s⟩ ⟨n + 1, .part a, s⟩
  | right {n a b s t} (h : a.run env (n + 1) s = .done t) :
      Enters env ⟨n + 1, .part (.seq a b), s⟩ ⟨n + 1, .part b, t⟩
  | branch {n g a b s answer t} (h : g.decide env (Cmd.run env n) s = .answer answer t) :
      Enters env ⟨n + 1, .part (.ite g a b), s⟩ ⟨n + 1, .part (if answer then a else b), t⟩
  | probe {n g a b s p t} (h : g.settle env s = .ask p t) :
      Enters env ⟨n + 1, .part (.ite g a b), s⟩ ⟨n, .part p.fragment, t.enterProbe env⟩
  | loopProbe {n g body s p t} (h : g.settle env s = .ask p t) :
      Enters env ⟨n + 1, .part (.loop g body), s⟩ ⟨n, .part p.fragment, t.enterProbe env⟩
  | pass {n g body s t} (h : g.decide env (Cmd.run env n) s = .answer true t) :
      Enters env ⟨n + 1, .part (.loop g body), s⟩ ⟨n, .pass g body, t⟩
  | nest {n body s} : Enters env ⟨n + 1, .part (.nest body), s⟩ ⟨n + 1, .part body, s.fresh env⟩
  | jump {n r s} : Enters env ⟨n + 1, .part (.jump r), s⟩ ⟨n, .rule r, s⟩
  | dispatch {n t s r} (h : Table.decide t env.stream env.options.detectAmbiguity s.index = .ok r) :
      Enters env ⟨n + 1, .part (.dispatch t), s⟩ ⟨n, .rule r, s⟩

/-- The chain of entries that starts with the first frame comes to the second one. -/
abbrev Leads (env : Setting) : Frame → Frame → Prop := Relation.TransGen (Enters env)

variable {env : Setting} {f g h : Frame}

def run (env : Setting) (f : Frame) : Outcome := f.activity.cmd.run env f.levels f.state

/-- The rank of what has been entered, and 128 for each token that is left. -/
def height (env : Setting) (f : Frame) : Nat :=
  f.activity.rank + 128 * (env.stream.length - f.state.index)

/-- The memo of the state can be trusted, and the activity may be entered there. -/
structure Valid (env : Setting) (f : Frame) : Prop where
  trusts : env.Trusts f.state.memo
  fits : f.activity.Fits env.stream f.state.place

/-- What holds of a frame and one that has been entered from it. Where the height stays the same
the activity is a smaller one. -/
structure Below (env : Setting) (f g : Frame) : Prop where
  index_le : f.state.index ≤ g.state.index
  levels_le : g.levels ≤ f.levels
  height_le : g.height env + (f.levels - g.levels) ≤ f.height env
  size_lt : f.height env ≤ g.height env → g.activity.size < f.activity.size

theorem Below.trans (hfg : f.Below env g) (hgh : g.Below env h) : f.Below env h where
  index_le := Nat.le_trans hfg.index_le hgh.index_le
  levels_le := Nat.le_trans hgh.levels_le hfg.levels_le
  height_le := by
    have h1 := hfg.height_le
    have h2 := hgh.height_le
    have h3 := hfg.levels_le
    have h4 := hgh.levels_le
    omega
  size_lt := by
    intro hle
    have h1 := hfg.height_le
    have h2 := hgh.height_le
    exact Nat.lt_trans (hgh.size_lt (by omega)) (hfg.size_lt (by omega))

end Frame

/-- Past the last token there is only the end of the source. -/
def TokenStream.Ended (s : TokenStream) : Prop := s.past.kind = .eof

theorem TokenStream.Ended.kind_eq {s : TokenStream} (hs : s.Ended) {i : Nat} (hi : s.length ≤ i) :
    (s.tokenAt i).kind = .eof := by
  have hnone : s.list.tokens[i]? = none := Array.getElem?_eq_none_iff.2 hi
  rw [tokenAt, hnone]
  exact hs

theorem Ending.Covers.le_length {s : TokenStream} {p : Place} {o : Ending} (h : o.Covers s p)
    (hs : s.Ended) (hlt : p.index < o.index) : o.index ≤ s.length := by
  refine Nat.le_of_not_lt fun hgt => h.kind_ne s.length ?_ hgt (hs.kind_eq (Nat.le_refl _))
  refine Nat.le_of_not_lt fun hp => ?_
  exact h.kind_ne p.index (Nat.le_refl _) hlt (hs.kind_eq (Nat.le_of_lt hp))

theorem Guard.rank_le (g : Guard) : g.rank ≤ 4 := by
  unfold rank
  split <;> omega

section
variable {env : Setting} {c : Cmd} {g : Guard} {n : Nat} {s t : State}

theorem Guard.reach_of_ask {p : Probe} (hm : env.Trusts s.memo) (h : g.settle env s = .ask p t) :
    env.Trusts t.memo ∧ t.index = s.index ∧ g.rank = 4 := by
  have hs := settles_settle hm g
  rw [h] at hs
  refine ⟨hs.2.1, congrArg Place.index hs.1, ?_⟩
  rw [rank, if_pos (probe?_of_query hs.2.2)]

end

namespace Frame
variable {env : Setting} {f g : Frame}

theorem Below.stay {n m : Nat} {a b : Activity} {s t : State} (hindex : t.index = s.index)
    (hlevels : m ≤ n) (hrank : b.rank + (n - m) ≤ a.rank)
    (hsize : a.rank ≤ b.rank → b.size < a.size) : Below env ⟨n, a, s⟩ ⟨m, b, t⟩ where
  index_le := Nat.le_of_eq hindex.symm
  levels_le := hlevels
  height_le := by
    simp only [height, hindex]
    omega
  size_lt := by
    simp only [height, hindex]
    intro hle
    exact hsize (by omega)

/-- A step behind tokens that have been read pays for 128 ranks with each of them. -/
theorem Below.move {n : Nat} {a b : Activity} {s t : State} (hlt : s.index < t.index)
    (hle : t.index ≤ env.stream.length) (hrank : b.rank < 128 + a.rank ∨
      b.rank ≤ 128 + a.rank ∧ b.size < a.size) : Below env ⟨n, a, s⟩ ⟨n, b, t⟩ where
  index_le := Nat.le_of_lt hlt
  levels_le := Nat.le_refl n
  height_le := by
    simp only [height]
    omega
  size_lt := by
    simp only [height]
    intro hle
    omega

theorem below_probe {n : Nat} {c : Cmd} {gd : Guard} {p : Probe} {s t : State}
    (hm : env.Trusts s.memo) (h : gd.settle env s = .ask p t) (hrank : gd.rank ≤ c.rank) :
    Valid env ⟨n, .part p.fragment, t.enterProbe env⟩ ∧
      Below env ⟨n + 1, .part c, s⟩ ⟨n, .part p.fragment, t.enterProbe env⟩ := by
  obtain ⟨hmt, hindex, hfour⟩ := Guard.reach_of_ask hm h
  obtain ⟨hpaced, hfragment⟩ := p.paced_fragment
  refine ⟨⟨hmt, hpaced⟩, .stay hindex (Nat.le_succ n) ?_ ?_⟩
  · simp only [Activity.rank]
    omega
  · simp only [Activity.rank]
    omega

theorem below_rule {n : Nat} {c : Cmd} {r : Rule} {s : State} (hm : env.Trusts s.memo)
    (hrank : r.rank < c.rank) :
    Valid env ⟨n, .rule r, s⟩ ∧ Below env ⟨n + 1, .part c, s⟩ ⟨n, .rule r, s⟩ := by
  refine ⟨⟨hm, trivial⟩, .stay rfl (Nat.le_succ n) ?_ ?_⟩
  · simp only [Activity.rank]
    omega
  · simp only [Activity.rank]
    omega

/-- What one step keeps. -/
theorem Enters.below (hs : env.stream.Ended) (hf : f.Valid env) (h : Enters env f g) :
    g.Valid env ∧ f.Below env g := by
  obtain ⟨hm, hfits⟩ := hf
  cases h with
  | @rule n r s =>
    have hrank := r.rank_body_le
    refine ⟨⟨hm, r.paced_body⟩, .stay rfl (Nat.le_refl n) ?_ fun _ => Nat.lt_succ_self _⟩
    simpa [Activity.rank] using hrank
  | @first n gd body s =>
    obtain ⟨hpaced, -⟩ := hfits
    rw [Cmd.paced, Bool.and_eq_true, Bool.and_eq_true] at hpaced
    exact ⟨⟨hm, hpaced.1.1⟩, .stay rfl (Nat.le_refl _) (by simp [Activity.rank])
      fun _ => Nat.lt_succ_self _⟩
  | @next n gd body s t hrun =>
    obtain ⟨hpaced, hallows⟩ := hfits
    obtain ⟨hmt, hends⟩ := Cmd.reach_of_run hm hrun
    have hmoves := hpaced
    rw [Cmd.paced, Bool.and_eq_true, Bool.and_eq_true] at hmoves
    have hlt : s.index < t.index := hends.lt_of_passMoves hmoves.1.2 hallows
    have hle : t.index ≤ env.stream.length :=
      (hends.covers fun _ _ _ h => h.covers).le_length hs hlt
    refine ⟨⟨hmt, hpaced⟩, .move hlt hle (.inl ?_)⟩
    have := gd.rank_le
    simp only [Activity.rank, Cmd.rank]
    omega
  | @left n a b s =>
    have hpaced := Bool.and_eq_true_iff.1 (show (a.paced && b.paced) = true from hfits)
    refine ⟨⟨hm, hpaced.1⟩, .stay rfl (Nat.le_refl _) ?_ ?_⟩
    · simp only [Activity.rank, Cmd.rank]
      omega
    · simp only [Activity.size, Cmd.size]
      omega
  | @right n a b s t hrun =>
    have hpaced := Bool.and_eq_true_iff.1 (show (a.paced && b.paced) = true from hfits)
    obtain ⟨hmt, hends⟩ := Cmd.reach_of_run hm hrun
    have hcov := hends.covers fun _ _ _ h => h.covers
    have hsize : (Activity.part b).size < (Activity.part (.seq a b)).size := by
      simp only [Activity.size, Cmd.size]
      omega
    refine ⟨⟨hmt, hpaced.2⟩, ?_⟩
    rcases Nat.eq_or_lt_of_le (show s.index ≤ t.index from hcov.index_le) with heq | hlt
    · refine .stay heq.symm (Nat.le_refl _) ?_ fun _ => hsize
      simp only [Activity.rank, Cmd.rank]
      split
      · have hmoved : s.index < t.index := hends.lt_of_moves ‹_›
        omega
      · omega
    · refine .move hlt (hcov.le_length hs hlt) (.inr ⟨?_, hsize⟩)
      simp only [Activity.rank, Cmd.rank]
      split <;> omega
  | @branch n gd a b s answer t hdecide =>
    have hpaced := Bool.and_eq_true_iff.1 (show (a.paced && b.paced) = true from hfits)
    obtain ⟨hmt, hplace, -⟩ := Guard.reach_of_decide hm hdecide
    refine ⟨⟨hmt, ?_⟩, .stay (congrArg Place.index hplace) (Nat.le_refl _) ?_ ?_⟩
    · cases answer
      · exact hpaced.2
      · exact hpaced.1
    · simp only [Activity.rank, Cmd.rank]
      split <;> omega
    · intro _
      simp only [Activity.size, Cmd.size]
      split <;> omega
  | @probe n gd a b s p t hask =>
    refine below_probe hm hask ?_
    simp only [Cmd.rank]
    omega
  | @loopProbe n gd body s p t hask =>
    refine below_probe hm hask ?_
    simp only [Cmd.rank]
    omega
  | @pass n gd body s t hdecide =>
    obtain ⟨hmt, hplace, hallows⟩ := Guard.reach_of_decide hm hdecide
    refine ⟨⟨hmt, hfits, ?_⟩, .stay (congrArg Place.index hplace) (Nat.le_succ n) ?_ ?_⟩
    · rw [hplace]
      exact hallows
    · simp only [Activity.rank, Cmd.rank]
      omega
    · simp only [Activity.rank, Cmd.rank]
      omega
  | @nest n body s =>
    exact ⟨⟨hm, hfits⟩, .stay rfl (Nat.le_refl _) (by simp [Activity.rank, Cmd.rank])
      fun _ => Nat.lt_succ_self _⟩
  | @jump n r s => exact below_rule hm (Nat.lt_succ_self _)
  | @dispatch n t s r hdecide =>
    exact below_rule hm (Nat.lt_succ_of_le (Rule.le_foldr_rank (Table.mem_rules_of_decide hdecide)))

theorem Leads.below (hs : env.stream.Ended) (hf : f.Valid env) (h : Leads env f g) :
    g.Valid env ∧ f.Below env g := by
  induction h with
  | single h => exact h.below hs hf
  | tail _ h ih =>
    obtain ⟨hvalid, hbelow⟩ := h.below hs ih.1
    exact ⟨hvalid, ih.2.trans hbelow⟩

theorem Leads.levels_lt {r : Rule} (hs : env.stream.Ended) (hf : f.Valid env) (h : Leads env f g)
    (hr : g.activity = .rule r) : g.levels < f.levels := by
  have hstep {k : Frame} (h : Enters env k g) : g.levels < k.levels := by
    cases h with
    | jump => exact Nat.lt_succ_self _
    | dispatch _ => exact Nat.lt_succ_self _
    | _ => cases hr
  cases h with
  | single h => exact hstep h
  | tail hchain h => exact Nat.lt_of_lt_of_le (hstep h) (Leads.below hs hf hchain).2.levels_le

/-- What is entered again in one chain is entered behind where it was. -/
theorem Leads.index_lt (hs : env.stream.Ended) (hf : f.Valid env) (h : Leads env f g)
    (halike : f.activity.Alike g.activity) : f.state.index < g.state.index := by
  obtain ⟨-, hbelow⟩ := Leads.below hs hf h
  refine Nat.lt_of_le_of_ne hbelow.index_le fun hindex => ?_
  have hheight (hrank : f.activity.rank = g.activity.rank) : f.height env = g.height env := by
    rw [height, height, hrank, hindex]
  have hsame (heq : f.activity = g.activity) : False := by
    have hsize := hbelow.size_lt (Nat.le_of_eq (hheight (congrArg Activity.rank heq)))
    rw [heq] at hsize
    exact absurd hsize (Nat.lt_irrefl _)
  cases hactivity : f.activity with
  | rule r =>
    cases hactivity' : g.activity with
    | rule r' =>
      rw [hactivity, hactivity'] at halike
      have hlevels := Leads.levels_lt hs hf h hactivity'
      have hle := hbelow.height_le
      have hrank : r.rank = r'.rank := by
        rw [← r.rank_family, ← r'.rank_family, show r.family = r'.family from halike]
      have := hheight (by rw [hactivity, hactivity']; exact hrank)
      omega
    | pass g body =>
      rw [hactivity, hactivity'] at halike
      cases (show Activity.rule r = .pass g body from halike)
    | part c =>
      rw [hactivity, hactivity'] at halike
      cases (show Activity.rule r = .part c from halike)
  | pass gd body =>
    rw [hactivity] at halike
    exact hsame (hactivity.trans halike)
  | part c =>
    rw [hactivity] at halike
    exact hsame (hactivity.trans halike)

/-- With more levels than the first frame is high, no frame of a chain is without levels. -/
theorem levels_pos (hs : env.stream.Ended) (hf : f.Valid env) (hheight : f.height env < f.levels)
    (h : Relation.ReflTransGen (Enters env) f g) : 0 < g.levels := by
  rcases Relation.reflTransGen_iff_eq_or_transGen.1 h with rfl | h
  · exact Nat.zero_lt_of_lt hheight
  · have hbelow := (Leads.below hs hf h).2
    have := hbelow.height_le
    have := hbelow.levels_le
    omega

end Frame
end JavaSyntax
