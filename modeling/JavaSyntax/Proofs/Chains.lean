import Mathlib.Data.List.Chain
import JavaSyntax.Grammar.Precedence
import JavaSyntax.Token.List
import JavaSyntax.Tree.Draft

/-!
# Chains of binary operators

Operands with binary operators between them, and the tree that the levels of precedence call for:
a chain is cut at the last of its operators of lowest level, and so are its two halves. A list has
only one such cut.
-/

namespace JavaSyntax

def Token.leaf (t : Token) : Tree := .leaf t.kind t.span

def Token.node (t : Token) (form : NodeKind) : Tree := .build form t.span.start [t.leaf]

def BinaryOp.spelling : BinaryOp → List TokenKind
  | .or => [.pipePipe]
  | .and => [.ampAmp]
  | .bitOr => [.pipe]
  | .bitXor => [.caret]
  | .bitAnd => [.amp]
  | .eq => [.eqEq]
  | .notEq => [.notEq]
  | .less => [.less]
  | .greater => [.greater]
  | .lessEq => [.lessEq]
  | .greaterEq => [.greaterEq]
  | .shiftLeft => [.less, .less]
  | .shiftRight => [.greater, .greater]
  | .unsignedShiftRight => [.greater, .greater, .greater]
  | .add => [.plus]
  | .sub => [.minus]
  | .mul => [.star]
  | .div => [.slash]
  | .rem => [.percent]

theorem BinaryOp.spelling_ne_nil (op : BinaryOp) : op.spelling ≠ [] := by cases op <;> decide

/-- Tokens that are operands by themselves, with the nodes that they become. -/
def operandForms : List (TokenKind × NodeKind) :=
  (.ident, .name) :: (.kwThis, .thisRef) :: LiteralKind.tokens.map fun l => (l.1, .literal l.2)

/-- The kinds that operands start with. -/
def operandStarts : List TokenKind := operandForms.map Prod.fst ++ UnaryOp.all.map UnaryOp.token

/-- Prefix operators before a name, a literal or `this`. -/
inductive Operand where
  | atom (token : Token) (form : NodeKind) (known : (token.kind, form) ∈ operandForms)
  | signed (op : UnaryOp) (token : Token) (kind : token.kind = op.token) (operand : Operand)

namespace Operand

def tokens : Operand → List Token
  | atom t .. => [t]
  | signed _ t _ u => t :: u.tokens

def tree : Operand → Tree
  | atom t form _ => t.node form
  | signed op t _ u => .build (.unary op) t.span.start [t.leaf, u.tree]

theorem tokens_eq_cons (u : Operand) : ∃ t ts, u.tokens = t :: ts := by
  cases u with
  | atom t form known => exact ⟨t, [], rfl⟩
  | signed op t kind u => exact ⟨t, u.tokens, rfl⟩

theorem kind_mem (u : Operand) {t : Token} (ht : t ∈ u.tokens) : t.kind ∈ operandStarts := by
  induction u with
  | atom a form known =>
    obtain rfl := List.mem_singleton.1 ht
    exact List.mem_append_left _ (List.mem_map.2 ⟨_, known, rfl⟩)
  | signed op a kind u ih =>
    rcases List.mem_cons.1 ht with rfl | ht
    · exact List.mem_append_right _ (List.mem_map.2 ⟨op, op.mem_all, kind.symm⟩)
    · exact ih ht

end Operand

/-- A binary operator and the operand behind it. The tokens of an operator touch each other. No
angle bracket stands right before or behind them, since an operand is on either side. -/
structure Link where
  op : BinaryOp
  spelling : List Token
  kinds : spelling.map Token.kind = op.spelling
  touching : spelling.IsChain fun a b => a.span.touches b.span = true
  operand : Operand

namespace Link

def level (l : Link) : Nat := l.op.level

def tokens (l : Link) : List Token := l.spelling ++ l.operand.tokens

def join (l : Link) (left right : Tree) : Tree :=
  .build (.binary l.op) left.span.start (left :: l.spelling.map Token.leaf ++ [right])

theorem kind_mem (l : Link) {t : Token} (ht : t ∈ l.spelling) : t.kind ∈ l.op.spelling :=
  l.kinds ▸ List.mem_map_of_mem ht

theorem length_spelling (l : Link) : l.spelling.length = l.op.spelling.length := by
  rw [← l.kinds, List.length_map]

theorem spelling_pos (l : Link) : 0 < l.spelling.length := by
  rw [length_spelling]
  exact List.length_pos_of_ne_nil l.op.spelling_ne_nil

end Link

def linkTokens (ls : List Link) : List Token := ls.flatMap Link.tokens

/-- The links around the last one of lowest level. -/
structure Split (ls : List Link) where
  before : List Link
  link : Link
  after : List Link
  whole : before ++ link :: after = ls
  before_le : ∀ k ∈ before, link.level ≤ k.level
  after_lt : ∀ k ∈ after, link.level < k.level

namespace Split

theorem length_before {ls : List Link} (s : Split ls) : s.before.length < ls.length := by
  have h := congrArg List.length s.whole
  simp only [List.length_append, List.length_cons] at h
  omega

theorem length_after {ls : List Link} (s : Split ls) : s.after.length < ls.length := by
  have h := congrArg List.length s.whole
  simp only [List.length_append, List.length_cons] at h
  omega

theorem link_le {ls : List Link} (s : Split ls) {k : Link} (hk : k ∈ ls) :
    s.link.level ≤ k.level := by
  rw [← s.whole, List.mem_append, List.mem_cons] at hk
  rcases hk with hk | rfl | hk
  · exact s.before_le k hk
  · exact Nat.le_refl _
  · exact Nat.le_of_lt (s.after_lt k hk)

/-- The link before a list is the lowest one only if it is lower than all of them. -/
def lowest (l : Link) : (ls : List Link) → Split (l :: ls)
  | [] => ⟨[], l, [], rfl, by simp, by simp⟩
  | m :: ms =>
    let s := lowest m ms
    if h : s.link.level ≤ l.level then
      ⟨l :: s.before, s.link, s.after, congrArg (l :: ·) s.whole,
        List.forall_mem_cons.2 ⟨h, s.before_le⟩, s.after_lt⟩
    else
      ⟨[], l, m :: ms, rfl, by simp, fun _ hk =>
        Nat.lt_of_lt_of_le (Nat.lt_of_not_le h) (s.link_le hk)⟩

theorem eq_of_before {ls : List Link} {s t : Split ls} {as : List Link}
    (hbefore : t.before = s.before ++ as) (htail : s.link :: s.after = as ++ t.link :: t.after) :
    s = t := by
  cases as with
  | nil =>
    obtain ⟨hlink, hafter⟩ := List.cons_eq_cons.1 htail
    cases s
    cases t
    simp_all
  | cons a as =>
    obtain ⟨rfl, hafter⟩ := List.cons_eq_cons.1 htail
    have hle : t.link.level ≤ s.link.level := t.before_le _ (by simp [hbefore])
    have hlt : s.link.level < t.link.level := s.after_lt _ (by simp [hafter])
    omega

instance (ls : List Link) : Subsingleton (Split ls) where
  allEq s t := by
    have hwhole : s.before ++ s.link :: s.after = t.before ++ t.link :: t.after :=
      s.whole.trans t.whole.symm
    rcases List.append_eq_append_iff.1 hwhole with ⟨as, hbefore, htail⟩ | ⟨as, hbefore, htail⟩
    · exact eq_of_before hbefore htail
    · exact (eq_of_before hbefore htail).symm

end Split

/-- The tree of an operand and the links behind it, by repeated splitting. -/
def group (u : Operand) : List Link → Tree
  | [] => u.tree
  | l :: ls =>
    let s := Split.lowest l ls
    s.link.join (group u s.before) (group s.link.operand s.after)
  termination_by ls => ls.length
  decreasing_by
    · exact Split.length_before _
    · exact Split.length_after _

@[simp] theorem group_nil (u : Operand) : group u [] = u.tree := by rw [group]

/-- Wherever the last link of lowest level stands, it is the root. -/
theorem group_split (u : Operand) (before after : List Link) {l : Link}
    (hbefore : ∀ k ∈ before, l.level ≤ k.level) (hafter : ∀ k ∈ after, l.level < k.level) :
    group u (before ++ l :: after) = l.join (group u before) (group l.operand after) := by
  obtain ⟨m, ms, hls⟩ : ∃ m ms, before ++ l :: after = m :: ms :=
    List.exists_cons_of_ne_nil (by simp)
  let s : Split (m :: ms) := ⟨before, l, after, hls, hbefore, hafter⟩
  rw [hls, group, Subsingleton.elim (Split.lowest m ms) s]

def chainKinds : List TokenKind := operandStarts ++ BinaryOp.all.flatMap BinaryOp.spelling

/-- Operands with binary operators between them. -/
structure Chain where
  first : Operand
  rest : List Link

namespace Chain

def tokens (c : Chain) : List Token := c.first.tokens ++ linkTokens c.rest

/-- The tree in which each operator has the halves around it as its operands, at the root the last
one of lowest level. -/
def tree (c : Chain) : Tree := group c.first c.rest

theorem kind_mem (c : Chain) {t : Token} (ht : t ∈ c.tokens) : t.kind ∈ chainKinds := by
  rw [tokens, linkTokens, List.mem_append, List.mem_flatMap] at ht
  rcases ht with ht | ⟨l, -, ht⟩
  · exact List.mem_append_left _ (c.first.kind_mem ht)
  · rcases List.mem_append.1 ht with ht | ht
    · exact List.mem_append_right _ (List.mem_flatMap.2 ⟨l.op, l.op.mem_all, l.kind_mem ht⟩)
    · exact List.mem_append_left _ (l.operand.kind_mem ht)

end Chain
end JavaSyntax
