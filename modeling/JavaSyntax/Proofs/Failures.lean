import JavaSyntax.Parser.Exec

/-!
# Where errors come from

A run that fails has come upon its error in one step: a token that does not fit, a table that
cannot choose, a checkpoint that is none, or the want of levels. What holds of all errors that a
step can make, in states of a kind that commands keep, holds of the error of a run.
-/

namespace JavaSyntax

def Outcome.Fails (P : ParseError → Prop) : Outcome → Prop
  | done _ => True
  | failed e _ => P e

def Ruling.Fails (P : ParseError → Prop) : Ruling → Prop
  | answer _ _ => True
  | abort e _ => P e

/-- The states of a kind lead to states of that kind. -/
structure Setting.Keeps (env : Setting) (deeper : Cmd → State → Outcome) (I : State → Prop) :
    Prop where
  exec : ∀ {c s t}, I s → Cmd.exec env deeper c s = .done t → I t
  decide : ∀ {g s answer t}, I s → Guard.decide env deeper g s = .answer answer t → I t
  probe : ∀ {g s p t}, I s → Guard.settle env s g = .ask p t → I (t.enterProbe env)
  fresh : ∀ {s}, I s → I (s.fresh env)

/-- The errors that single steps make in states of a kind have the property. -/
structure Setting.Makes (env : Setting) (I : State → Prop) (P : ParseError → Prop) : Prop where
  shift : ∀ {s}, I s → (s.shift env).Fails P
  fail : ∀ {s}, I s → ∀ expected remark, P (s.unexpected env expected remark)
  table : ∀ {s t e}, I s →
    Table.decide t env.stream env.options.detectAmbiguity s.index = .error e → P e
  checkpoint : ∀ {g s p t}, I s → Guard.settle env s g = .ask p t →
    env.stream.lastIndex < s.index → ∀ u : State, P (u.errorHere env .invalidCheckpoint)

section
variable {env : Setting} {deeper : Cmd → State → Outcome} {I : State → Prop}
  {P : ParseError → Prop} {s : State}

theorem Guard.fails_decide (hk : env.Keeps deeper I) (hm : env.Makes I P)
    (hd : ∀ c s, I s → (deeper c s).Fails P) (g : Guard) (hs : I s) :
    (g.decide env deeper s).Fails P := by
  unfold Guard.decide
  cases hask : g.settle env s with
  | known b t => trivial
  | ask p t =>
    have hprobe := hd p.fragment _ (hk.probe hs hask)
    unfold State.conclude
    dsimp only
    split
    · exact hm.checkpoint hs hask ‹_› _
    · split
      · trivial
      · rename_i e u ho
        rw [ho] at hprobe
        split
        · exact hprobe
        · trivial

/-- If the errors of what runs deeper have the property, then so has that of the command. -/
theorem Cmd.fails_exec (hk : env.Keeps deeper I) (hm : env.Makes I P)
    (hd : ∀ c s, I s → (deeper c s).Fails P) (c : Cmd) (hs : I s) :
    (c.exec env deeper s).Fails P := by
  induction c generalizing s with
  | skip => trivial
  | shift => exact hm.shift hs
  | fail expected remark => exact hm.fail hs expected remark
  | seq a b iha ihb =>
    have ha := iha hs
    rw [exec]
    split
    · rename_i t ht
      exact ihb (hk.exec hs ht)
    · rename_i e t ht
      rwa [ht] at ha
  | ite g a b iha ihb =>
    have hg := g.fails_decide hk hm hd hs
    rw [exec]
    split
    · rename_i t ht
      exact iha (hk.decide hs ht)
    · rename_i t ht
      exact ihb (hk.decide hs ht)
    · rename_i e t ht
      rwa [ht] at hg
  | loop g body _ =>
    have hg := g.fails_decide hk hm hd hs
    rw [exec]
    split
    · rename_i t ht
      exact hd _ t (hk.decide hs ht)
    · trivial
    · rename_i e t ht
      rwa [ht] at hg
  | nest body ihb =>
    have hb := ihb (hk.fresh hs)
    rw [exec]
    split
    · trivial
    · rename_i e t ht
      rwa [ht] at hb
  | jump r => exact hd r.body s hs
  | dispatch t =>
    rw [exec]
    split
    · exact hd _ s hs
    · rename_i e he
      exact hm.table hs he
  | close kind => trivial
  | wrap kind => trivial

end
end JavaSyntax
