import JavaSyntax.Parser.ScanMemo
import JavaSyntax.Proofs.Adequacy

/-!
# Dead ends

A memo answers every call that looks at the tokens as if it had not been asked before. Two things
carry this through any sequence of calls: the table of delimiters is the one of the list once it
has been made, and no scan that starts in the dead end finds a method reference. Such a scan may
start with other brackets open and so may stop early, but what stops the one that left the dead
end also stops every scan that comes as far.
-/

namespace JavaSyntax

namespace ScanMemo
variable {m : ScanMemo} {s : TokenStream}

/-- The memo knows nothing of the tokens but what is true. -/
structure Sound (m : ScanMemo) (s : TokenStream) : Prop where
  barred : m.prediction.Barred s
  closers : ∀ table, m.closers = some table → table = Delimiters.table s.list.kinds

theorem sound_empty (s : TokenStream) : Sound {} s where
  barred := by simp [PredictionMemo.Barred]
  closers := nofun

theorem Sound.getD_closers (h : m.Sound s) :
    m.closers.getD (Delimiters.table s.list.kinds) = Delimiters.table s.list.kinds := by
  cases htable : m.closers with
  | none => rfl
  | some table => exact h.closers table htable

/-- Each call keeps what the memo knows true. -/
theorem Sound.perform (h : m.Sound s) (c : MemoCall) : (m.perform s c).memo.Sound s := by
  cases c with
  | get p i =>
    refine ⟨?_, h.closers⟩
    simp only [ScanMemo.perform, PredictionMemo.get]
    split <;> exact h.barred
  | insert p i r => exact ⟨h.barred, h.closers⟩
  | clear => exact sound_empty s
  | matchingClose i =>
    refine ⟨h.barred, ?_⟩
    rintro table ⟨⟩
    exact h.getD_closers
  | mayBeTypePrefix i => exact ⟨PredictionMemo.barred_mayBeTypePrefix h.barred i, h.closers⟩

/-- A call that looks at the tokens is answered as by a memo that has just been made. -/
theorem Sound.answer (h : m.Sound s) {c : MemoCall} (hc : c.scans = true) :
    (m.perform s c).answer = (({} : ScanMemo).perform s c).answer := by
  cases c with
  | matchingClose i =>
    simp only [ScanMemo.perform, h.getD_closers, (sound_empty s).getD_closers]
  | mayBeTypePrefix i =>
    have hsame : (m.prediction.mayBeTypePrefix s i).1 =
        (({} : PredictionMemo).mayBeTypePrefix s i).1 := by
      rw [Bool.eq_iff_iff, PredictionMemo.mayBeTypePrefix_iff h.barred,
        PredictionMemo.mayBeTypePrefix_iff (sound_empty s).barred]
    exact congrArg MemoAnswer.verdict hsame
  | _ => cases hc

theorem Sound.replies (h : m.Sound s) {cs : List MemoCall} {k : Nat} {c : MemoCall}
    (hk : cs[k]? = some c) (hc : c.scans = true) :
    ((m.replies s cs)[k]?).map MemoReply.answer =
      some (({} : ScanMemo).perform s c).answer := by
  induction cs generalizing m k with
  | nil => cases hk
  | cons d cs ih =>
    cases k with
    | zero =>
      cases hk
      exact congrArg some (h.answer hc)
    | succ k => exact ih (h.perform d) hk

end ScanMemo

/-- Whatever a memo has been asked and told before, it says of a bracket whether it may open type
arguments before a method reference, and of a delimiter what closes it, as a memo does that has
just been made. -/
theorem answer_replies (ts : TokenList) (cs : List MemoCall) (k : Nat) (c : MemoCall)
    (hk : cs[k]? = some c) (hc : c.scans = true) :
    ((({} : ScanMemo).replies (.ofList ts) cs)[k]?).map MemoReply.answer =
      some (({} : ScanMemo).perform (.ofList ts) c).answer :=
  (ScanMemo.sound_empty _).replies hk hc

/-- Two comparisons in a row. -/
def comparisons : TokenList where
  source := "a<b<c"
  tokens := #[⟨.ident, ⟨0, 1⟩, ⟨1, 1⟩⟩, ⟨.less, ⟨1, 2⟩, ⟨1, 2⟩⟩, ⟨.ident, ⟨2, 3⟩, ⟨1, 3⟩⟩,
    ⟨.less, ⟨3, 4⟩, ⟨1, 4⟩⟩, ⟨.ident, ⟨4, 5⟩, ⟨1, 5⟩⟩, ⟨.eof, ⟨5, 5⟩, ⟨1, 6⟩⟩]

/-- The second bracket stands in the dead end that the first one has left. -/
theorem answer_replies_comparisons :
    let calls := [.mayBeTypePrefix 1, .insert .genericMethodRef 0 ⟨false, 5⟩, .matchingClose 0,
      .mayBeTypePrefix 3]
    calls[3]? = some (MemoCall.mayBeTypePrefix 3) ∧
      (MemoCall.mayBeTypePrefix 3).scans = true ∧
      ((({} : ScanMemo).replies (.ofList comparisons) calls)[3]?).map MemoReply.answer =
        some (({} : ScanMemo).perform (.ofList comparisons) (.mayBeTypePrefix 3)).answer :=
  ⟨rfl, rfl, answer_replies comparisons _ 3 _ rfl rfl⟩

end JavaSyntax
