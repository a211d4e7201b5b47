import JavaSyntax.Proofs.Arguments
import JavaSyntax.Proofs.Reparse

/-!
# Lists of items

What a rule accepts by itself it accepts as an item of a list. The items stand in a source with
commas between them, and a list is read by its first item and a loop over the others.
-/

namespace JavaSyntax

/-- Lists in a row with separators between them. A separator is known by the number of lists
behind it. -/
def separatedBy {α : Type} (separator : Nat → α) : List (List α) → List α
  | [] => []
  | [xs] => xs
  | xs :: ys :: rest => xs ++ separator (rest.length + 1) :: separatedBy separator (ys :: rest)

theorem filter_separatedBy {α : Type} {separator : Nat → α} {p : α → Bool}
    (hp : ∀ k, p (separator k) = false) (xss : List (List α)) :
    (separatedBy separator xss).filter p = xss.flatten.filter p := by
  fun_induction separatedBy separator xss with
  | case1 => rfl
  | case2 xs => simp
  | case3 xs ys rest ih => simp [ih, hp]

/-- The draft with the trees behind the children at hand. -/
def Draft.append (d : Draft) (fs : Forest) : Draft := { d with items := fs.reverse ++ d.items }

namespace Draft
variable {d : Draft} {fs gs : Forest} {t : Tree}

@[simp] theorem forest_empty (start : Nat) : ({ start } : Draft).forest = [] := rfl

@[simp] theorem start_append : (d.append fs).start = d.start := rfl

@[simp] theorem append_nil : d.append [] = d := rfl

@[simp] theorem push_eq_append : d.push t = d.append [t] := rfl

theorem adopt_eq_append {e : Draft} : d.adopt e = d.append e.forest := by
  simp [adopt, append, forest]

@[simp] theorem append_append : (d.append fs).append gs = d.append (fs ++ gs) := by
  simp [append]

@[simp] theorem forest_append : (d.append fs).forest = d.forest ++ fs := by
  simp [append, forest]

end Draft

/-- The tokens, with the end of the source behind them, are what the rule makes the tree of. -/
def Rule.Accepts (r : Rule) (es : List (TokenKind × Span)) (u : Tree) : Prop :=
  (∀ e ∈ es, e.1 ≠ .eof) ∧ ∃ ts options, TokenList.Lists ts es ∧ r.parseAll ts options = .ok u

/-- Tokens as a source of their own. -/
def TokenList.ofEntries (es : List (TokenKind × Span)) : TokenList :=
  (TokenList.mk "" (es.map fun e => ⟨e.1, e.2, Location.first⟩).toArray).pushSentinel

theorem TokenList.lists_ofEntries (es : List (TokenKind × Span)) : (ofEntries es).Lists es :=
  ⟨Span.point 0, by
    simp [ofEntries, pushSentinel, push, sentinel, sourceLength, Token.entry, Function.comp_def]⟩

theorem Rule.Accepts.of_reads {r : Rule} {es : List (TokenKind × Span)} {u : Tree}
    (hes : ∀ e ∈ es, e.1 ≠ .eof) (h : ((Session.start (.ofEntries es) {}).run r).1 = .ok u ∧
      ((Session.start (.ofEntries es) {}).run r).2.expectEnd = .ok ()) : r.Accepts es u :=
  ⟨hes, _, {}, TokenList.lists_ofEntries es, parseAll_eq_ok.2 h⟩

namespace TokenStream
variable {s : TokenStream} {i : Nat} {kind : TokenKind} {span : Span}
  {es as bs : List (TokenKind × Span)} {x : TokenKind × Span}

theorem reading_eq_append : s.reading i (as ++ bs).length = as ++ bs ↔
    s.reading i as.length = as ∧ s.reading (i + as.length) bs.length = bs := by
  rw [List.length_append, ← reading_append]
  constructor
  · intro h
    exact List.append_inj h (by simp [reading])
  · rintro ⟨has, hbs⟩
    rw [has, hbs]

theorem reading_eq_cons : s.reading i (x :: es).length = x :: es ↔
    (s.tokenAt i).entry = x ∧ s.reading (i + 1) es.length = es := by
  simp [reading, List.range'_succ]

theorem Regular.kindAt_eq (hs : s.Regular) (h : (s.tokenAt i).entry = (kind, span)) :
    s.kindAt i = kind := by
  rw [← hs.kind_eq]
  exact congrArg Prod.fst h

theorem fresh_of_entry (h : (s.tokenAt i).entry = (kind, span)) :
    s.fresh i = ⟨i, { start := span.start }⟩ := by
  rw [fresh, show (s.tokenAt i).span = span from congrArg Prod.snd h]

end TokenStream

section
variable {t : TokenStream} {strict : Bool} {calls : Rule → Place → Ending → Prop} {p : Place}
  {kind : TokenKind} {span : Span}

theorem Cmd.Ends.shift_entry (h : (t.tokenAt p.index).entry = (kind, span))
    (hkind : kind ≠ .eof) :
    Cmd.Ends t strict calls .shift p (.done ⟨p.index + 1, p.draft.push (.leaf kind span)⟩) := by
  obtain ⟨rfl, rfl⟩ := Prod.mk.inj h
  exact .shift hkind

theorem Cmd.Ends.expect_entry (hs : t.Regular) (h : (t.tokenAt p.index).entry = (kind, span))
    (hkind : kind ≠ .eof) :
    Cmd.Ends t strict calls (.expect kind) p
      (.done ⟨p.index + 1, p.draft.push (.leaf kind span)⟩) :=
  (Cmd.Ends.ite_yes (by simp [Test.here, Test.holds, hs.kindAt_eq h])).2 (shift_entry h hkind)

end

section
variable {ts : TokenList} {options : ParseOptions} {t : TokenStream} {b n : Nat} {r : Rule}
  {u : Tree} {cmd : Cmd} {es : List (TokenKind × Span)}

theorem TokenList.Lists.reading (h : ts.Lists es) :
    (TokenStream.ofList ts).reading 0 es.length = es := by
  refine List.ext_getElem (by simp [TokenStream.reading]) fun k hk hk' => ?_
  simp [TokenStream.reading, h.entry hk']

theorem TokenList.Lists.fills_eq (h : ts.Lists es) (hes : ∀ e ∈ es, e.1 ≠ .eof)
    (hfills : cmd.Fills (.ofList ts) n u) : n = es.length := by
  obtain ⟨-, hend, d, hends, -⟩ := hfills
  have hcovers := hends.covers fun _ _ _ h => h.covers
  refine Nat.le_antisymm ?_ ?_
  · refine Nat.le_of_not_lt fun hlt => hcovers.kind_ne es.length (Nat.zero_le _) hlt ?_
    rw [TokenStream.kind_tokenAt_ofList]
    exact h.kindAt_end (Nat.le_refl _)
  · refine Nat.le_of_not_lt fun hlt => hes es[n] (List.getElem_mem hlt) ?_
    rw [← h.entry hlt]
    exact (TokenStream.kind_tokenAt_ofList ts n).trans hend

theorem Cmd.Fills.tokens_eq (h : cmd.Fills t n u) : u.tokens = t.reading 0 n := by
  obtain ⟨-, -, d, hends, hitems⟩ := h
  have hleaves := (hends.covers fun _ _ _ h => h.covers).leaves _ rfl
  rw [Tree.tokens_eq_leaves]
  simpa [Draft.forest, hitems, Tree.forestLeaves, TokenStream.fresh] using hleaves

/-- Tokens that stand in two streams are a window of them. -/
theorem Window.of_reading {s : TokenStream} {a : Nat} (hs : s.Regular) (ht : t.Regular)
    (hsread : s.reading a es.length = es) (htread : t.reading b es.length = es)
    (hsle : a + es.length ≤ s.lastIndex) (htle : b + es.length ≤ t.lastIndex)
    (hsettled : ∀ k, k + 1 = es.length → KindSet.dangling.contains (s.kindAt (a + k)) = false) :
    Window s t a b es.length where
  left := hs
  right := ht
  left_le := hsle
  right_le := htle
  entry_eq := by
    intro k hk
    have hsame := congrArg (·[k]?) (htread.trans hsread.symm)
    simpa [TokenStream.reading, hk] using hsame
  settled := hsettled

/-- Where accepted tokens stand in another stream, they stand there as by themselves. -/
theorem Rule.Accepts.stands (h : r.Accepts es u) (hr : r.starts = []) (ht : t.Regular)
    (hread : t.reading b es.length = es) (hle : b + es.length ≤ t.lastIndex) :
    t.Stands r b es.length u := by
  obtain ⟨hes, ts, options, hts, hparse⟩ := h
  have hs := hts.regular
  obtain ⟨n, hfills⟩ := Rule.fills_of_parseAll (by rintro rfl; cases hr) hs.closed hparse
  obtain rfl := hts.fills_eq hes hfills
  refine ⟨.ofList ts, .of_reading hs ht hts.reading hread
    (Nat.le_of_eq (by rw [hts.lastIndex, Nat.zero_add])) hle fun k hk => ?_, hfills⟩
  obtain ⟨-, -, d, hends, -⟩ := hfills
  have hreads := (Rule.Ends.body hends).reads fun _ _ hk => by rw [hr] at hk; cases hk
  have hplain := hreads.settled rfl (show 0 < es.length by omega)
  rwa [show es.length - 1 = k by omega, ← Nat.zero_add k] at hplain

theorem Rule.Accepts.length_pos (h : r.Accepts es u) (hr : r.starts = [])
    (hleast : 1 ≤ r.body.least {}) : 0 < es.length := by
  obtain ⟨-, ts, -, hts, -⟩ := id h
  have hle : 0 + es.length ≤ (TokenStream.ofList ts).lastIndex :=
    Nat.le_of_eq (by rw [hts.lastIndex, Nat.zero_add])
  exact (h.stands hr hts.regular hts.reading hle).pos hleast

theorem Rule.Accepts.node (h : r.Accepts es u) (hr : r ≠ .emptyMember) :
    u.nodeKind?.isSome = true := by
  obtain ⟨-, ts, options, -, hparse⟩ := h
  obtain ⟨q, hends, hitems, -⟩ := Rule.ends_of_parseAll hr hparse
  obtain ⟨t, kind, ht, hkind, -⟩ := hends.single hr rfl
  rw [hitems, List.cons.injEq] at ht
  rw [ht.1, hkind]
  rfl

end

/-- The leaves of the commas of a list and the trees of its items. A comma is known by the number of
items behind it. -/
def itemForest (commas : Nat → Span) (us : List Tree) : Forest :=
  separatedBy (fun k => .leaf .comma (commas k)) (us.map ([·]))

/-- The tokens of a list, where those of each item are given. -/
def itemTokens (commas : Nat → Span) (parts : List (List (TokenKind × Span))) :
    List (TokenKind × Span) :=
  separatedBy (fun k => (.comma, commas k)) parts

theorem filter_itemForest {commas : Nat → Span} {us : List Tree}
    (hus : ∀ u ∈ us, u.nodeKind?.isSome = true) :
    (itemForest commas us).filter (fun u => u.nodeKind?.isSome) = us := by
  rw [itemForest, filter_separatedBy fun _ => rfl, ← List.flatMap_def, List.flatMap_singleton',
    List.filter_eq_self]
  exact hus

/-- From index `b` up to `e` items of the rules stand in the stream, with commas between them. -/
inductive TokenStream.Items (t : TokenStream) (rules : List Rule) (commas : Nat → Span) :
    List Tree → Nat → Nat → Prop
  | last {r : Rule} {u : Tree} {b n : Nat} (hr : r ∈ rules) (h : t.Stands r b n u) :
      Items t rules commas [u] b (b + n)
  | more {r : Rule} {u v : Tree} {us : List Tree} {b n e : Nat} (hr : r ∈ rules)
      (h : t.Stands r b n u) (hcomma : (t.tokenAt (b + n)).entry = (.comma, commas (us.length + 1)))
      (hrest : Items t rules commas (v :: us) (b + n + 1) e) :
      Items t rules commas (u :: v :: us) b e

namespace TokenStream.Items
variable {t : TokenStream} {rules : List Rule} {commas : Nat → Span} {us : List Tree} {u : Tree}
  {b e : Nat}

theorem exists_first (h : t.Items rules commas us b e) : ∃ r ∈ rules, ∃ n u, t.Stands r b n u := by
  cases h with
  | last hr h => exact ⟨_, hr, _, _, h⟩
  | more hr h => exact ⟨_, hr, _, _, h⟩

theorem sealed (ht : t.Regular) (hrules : ∀ r ∈ rules, r.IsItem) (h : t.Items rules commas us b e)
    (hend : t.Divides e) : ∃ f, t.Sealed b f := by
  induction h with
  | last hr h => exact h.sealed (hrules _ hr) hend
  | more hr h hcomma _ ih =>
    refine h.sealed (hrules _ hr) (.inr ⟨?_, ih hend⟩)
    rw [ht.kindAt_eq hcomma]
    decide

theorem read (ht : t.Regular) (hrules : ∀ r ∈ rules, r.IsItem) {item : Cmd} {g : Test}
    (hitem : ∀ r ∈ rules, ∀ {b n u}, t.Stands r b n u → t.Divides (b + n) → ∀ d,
      Cmd.Ends t false (Rule.Ends t false) item ⟨b, d⟩ (.done ⟨b + n, d.push u⟩))
    (hyes : ∀ r ∈ rules, ∀ {b n u}, t.kindAt b = .comma → t.Stands r (b + 1) n u → ∀ d,
      g.holds t b d = true)
    (h : t.Items rules commas us b e) (hend : t.Divides e) (hno : ∀ d, g.holds t e d = false)
    (d : Draft) :
    Cmd.Ends t false (Rule.Ends t false) (item ++ .loop (.test g) (.shift ++ item)) ⟨b, d⟩
      (.done ⟨e, d.append (itemForest commas us)⟩) := by
  induction h generalizing d with
  | last hr h =>
    exact .seq (hitem _ hr h hend d) (.loop ((Cmd.Ends.ite_no (hno _)).2 .skip))
  | @more r u v us b n e hr h hcomma hrest ih =>
    have hkind := ht.kindAt_eq hcomma
    have hdivides : t.Divides (b + n) :=
      .inr ⟨by rw [hkind]; decide, hrest.sealed ht hrules hend⟩
    obtain ⟨m, hfirst, hloop⟩ :=
      (ih hend hno ((d.push u).push (.leaf .comma (commas (us.length + 1))))).seq_done
    have hforest : ((d.push u).push (.leaf .comma (commas (us.length + 1)))).append
        (itemForest commas (v :: us)) = d.append (itemForest commas (u :: v :: us)) := by
      simp [itemForest, separatedBy]
    rw [hforest] at hloop
    obtain ⟨r', hr', n', v', hnext⟩ := hrest.exists_first
    refine .seq (hitem _ hr h hdivides d) (.loop ((Cmd.Ends.ite_yes
      (hyes r' hr' hkind hnext _)).2 (.seq (.seq ?_ hfirst) hloop)))
    exact .shift_entry hcomma (by decide)

/-- What the rules accept by itself makes a list, with commas between. -/
theorem of_parts (ht : t.Regular) (hrules : ∀ r ∈ rules, r.IsItem)
    {parts : List (List (TokenKind × Span))}
    (hparts : List.Forall₂ (fun es u => ∃ r ∈ rules, r.Accepts es u) parts us) (hne : us ≠ [])
    (hread : t.reading b (itemTokens commas parts).length = itemTokens commas parts)
    (hle : b + (itemTokens commas parts).length ≤ t.lastIndex) :
    t.Items rules commas us b (b + (itemTokens commas parts).length) := by
  induction hparts generalizing b with
  | nil => exact absurd rfl hne
  | @cons es u parts us h hrest ih =>
    obtain ⟨r, hr, h⟩ := h
    cases hrest with
    | nil => exact .last hr (h.stands (hrules r hr).starts ht hread hle)
    | @cons es' u' parts us h' hrest =>
      have htokens : itemTokens commas (es :: es' :: parts) =
          es ++ (.comma, commas (parts.length + 1)) :: itemTokens commas (es' :: parts) := rfl
      rw [htokens] at hread hle ⊢
      obtain ⟨hes, hbehind⟩ := reading_eq_append.1 hread
      obtain ⟨hcomma, hread⟩ := reading_eq_cons.1 hbehind
      rw [hrest.length_eq] at hcomma
      rw [List.length_append, List.length_cons] at hle ⊢
      have hend (k l : Nat) : b + (k + (l + 1)) = b + k + 1 + l := by omega
      rw [hend] at hle ⊢
      have hstands := h.stands (hrules r hr).starts ht hes (by omega)
      exact .more hr hstands hcomma (ih (by simp) hread hle)

end TokenStream.Items

end JavaSyntax
