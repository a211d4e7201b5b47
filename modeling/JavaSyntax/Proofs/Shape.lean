import JavaSyntax.Proofs.Derivation

/-!
# The shape of drafts

How many children a command leaves in the draft, and how tightly the single one holds together:
a rule that starts on an empty draft makes one node of it. Shapes are computed from the commands
and checked rule by rule; `Rule.Ends.fits` says that derivations keep to them.
-/

namespace JavaSyntax

/-- How tightly the operands of a node are held: assignments and lambdas least, then the infix
levels, then prefix and postfix operators. -/
def NodeKind.strength : NodeKind → Nat
  | assign _ | lambda => 0
  | conditional => 1
  | binary op => op.level + 1
  | instanceOf => 8
  | unary _ | cast => 12
  | postfixed _ => 13
  | _ => 14

inductive Shape where
  | empty
  /-- One node that is at least so strong. -/
  | single (strength : Nat)
  | any
  deriving DecidableEq, Repr

namespace Shape

def le : Shape → Shape → Bool
  | _, any => true
  | empty, empty => true
  | single j, single k => k ≤ j
  | _, _ => false

def join (a b : Shape) : Shape :=
  match a, b with
  | empty, empty => empty
  | single j, single k => single (min j k)
  | _, _ => any

/-- The join of what two branches leave, where a branch may never be left. -/
def join? : Option Shape → Option Shape → Option Shape
  | none, b => b
  | a, none => a
  | some a, some b => some (a.join b)

end Shape

namespace Draft

def Fits (d : Draft) : Shape → Prop
  | .empty => d.items = []
  | .single k => ∃ t kind, d.items = [t] ∧ t.nodeKind? = some kind ∧ k ≤ kind.strength
  | .any => True

variable {d : Draft} {a b : Shape}

theorem Fits.le (h : d.Fits a) (hab : a.le b = true) : d.Fits b := by
  cases a <;> cases b <;> simp only [Shape.le, decide_eq_true_eq, Bool.false_eq_true] at hab
  case empty.empty => exact h
  case single.single j k =>
    obtain ⟨t, kind, hi, hk, hj⟩ := h
    exact ⟨t, kind, hi, hk, Nat.le_trans hab hj⟩
  all_goals trivial

theorem Fits.join_left (h : d.Fits a) (b : Shape) : d.Fits (a.join b) := by
  refine h.le ?_
  cases a <;> cases b
  case single.single => exact decide_eq_true (Nat.min_le_left _ _)
  all_goals rfl

theorem Fits.join_right (h : d.Fits b) (a : Shape) : d.Fits (a.join b) := by
  refine h.le ?_
  cases a <;> cases b
  case single.single => exact decide_eq_true (Nat.min_le_right _ _)
  all_goals rfl

theorem Fits.join? {x y : Option Shape} (h : ∃ a, (x = some a ∨ y = some a) ∧ d.Fits a) :
    ∃ c, Shape.join? x y = some c ∧ d.Fits c := by
  obtain ⟨a, rfl | rfl, ha⟩ := h
  · cases y with
    | none => exact ⟨a, rfl, ha⟩
    | some b => exact ⟨_, rfl, ha.join_left b⟩
  · cases x with
    | none => exact ⟨a, rfl, ha⟩
    | some b => exact ⟨_, rfl, ha.join_right b⟩

theorem fits_build (kind : NodeKind) (start : Nat) (cs : Forest) :
    Fits { start, items := [Tree.build kind start cs] } (.single kind.strength) :=
  ⟨_, kind, rfl, rfl, Nat.le_refl _⟩

end Draft

namespace Rule

/-- How strong the node of a rule is at least. -/
def strength : Rule → Nat
  | expression | lambda => 0
  | conditional | elementValue => 1
  | binary least => least + 1
  | unary => 12
  | _ => 14

/-- The rule makes all of the draft one node, also what has been there before. -/
def folds : Rule → Bool
  | classRest | enumRest | interfaceRest | annotationTypeRest | memberType | genericMember _
  | constructorRest | voidMethod | fieldOrMethod _ => true
  | _ => false

/-- A stray semicolon stays a leaf. -/
def shape (r : Rule) (a : Shape) : Shape :=
  if r ≠ emptyMember ∧ (a = .empty ∨ r.folds) then .single r.strength else .any

end Rule

/-- The shape that a command leaves, if it is ever left. -/
def Cmd.shape : Cmd → Shape → Option Shape
  | skip, a => some a
  | shift, _ => some .any
  | fail _ _, _ => none
  | seq c d, a => (c.shape a).bind d.shape
  | ite _ c d, a => Shape.join? (c.shape a) (d.shape a)
  | loop _ body, a =>
    let b := (Shape.join? (some a) (body.shape a)).getD .any
    if (body.shape b).all (·.le b) then some b else some .any
  | nest body, a => (body.shape .empty).map fun b => if a = .empty then b else .any
  | jump r, a => some (r.shape a)
  | dispatch t, a => t.rules.foldr (fun r b => Shape.join? (some (r.shape a)) b) none
  | close kind, _ | wrap kind, _ => some (.single kind.strength)

def Rule.shapely (r : Rule) : Bool :=
  [Shape.empty, .any].all fun a => (r.body.shape a).all (·.le (r.shape a))

theorem Rule.shapely_all (r : Rule) : r.shapely = true := by
  revert r
  decide +kernel

section
variable {s : TokenStream} {strict : Bool} {calls : Rule → Place → Ending → Prop} {c : Cmd}
  {r : Rule} {p q : Place} {a : Shape}

theorem Cmd.Ends.fits_loop {g : Guard} {body : Cmd}
    (ih : ∀ {p q a}, Cmd.Ends s strict calls body p (.done q) → p.draft.Fits a →
      ∃ b, body.shape a = some b ∧ q.draft.Fits b)
    (h : Cmd.Ends s strict calls (.loop g body) p (.done q)) (hp : p.draft.Fits a) :
    ∃ b, (Cmd.loop g body).shape a = some b ∧ q.draft.Fits b := by
  simp only [Cmd.shape]
  obtain ⟨b, hb, hpb⟩ := Draft.Fits.join? (y := body.shape a) ⟨a, .inl rfl, hp⟩
  simp only [hb, Option.getD_some]
  split
  · rename_i hinv
    refine ⟨b, rfl, (h.loop_done (I := fun m => m.draft.Fits b) ?_ hpb).1⟩
    intro m m' hm _ hbody
    obtain ⟨b', hb', hm'⟩ := ih hbody hm
    rw [hb', Option.all_some] at hinv
    exact hm'.le hinv
  · exact ⟨.any, rfl, trivial⟩

theorem Cmd.fits_dispatch {rules : List Rule} (hr : r ∈ rules) (hq : q.draft.Fits (r.shape a)) :
    ∃ b, rules.foldr (fun r b => Shape.join? (some (r.shape a)) b) none = some b ∧
      q.draft.Fits b := by
  induction rules with
  | nil => cases hr
  | cons r' rules ih =>
    rw [List.foldr_cons]
    rcases List.mem_cons.1 hr with rfl | hr
    · exact Draft.Fits.join? ⟨_, .inl rfl, hq⟩
    · obtain ⟨b, hb, hqb⟩ := ih hr
      exact Draft.Fits.join? ⟨b, .inr hb, hqb⟩

theorem Cmd.Ends.fits
    (hcalls : ∀ r p q, calls r p (.done q) → ∀ a, p.draft.Fits a → q.draft.Fits (r.shape a))
    (h : Cmd.Ends s strict calls c p (.done q)) (hp : p.draft.Fits a) :
    ∃ b, c.shape a = some b ∧ q.draft.Fits b := by
  induction c generalizing p q a with
  | skip =>
    cases h
    exact ⟨a, rfl, hp⟩
  | shift => exact ⟨.any, rfl, trivial⟩
  | fail => cases h
  | seq c d ihc ihd =>
    obtain ⟨m, hc, hd⟩ := h.seq_done
    obtain ⟨b, hb, hm⟩ := ihc hc hp
    rw [Cmd.shape, hb]
    exact ihd hd hm
  | ite g c d ihc ihd =>
    obtain ⟨answer, -, h⟩ := h.ite_done
    cases answer with
    | true =>
      obtain ⟨b, hb, hq⟩ := ihc h hp
      exact Draft.Fits.join? ⟨b, .inl hb, hq⟩
    | false =>
      obtain ⟨b, hb, hq⟩ := ihd h hp
      exact Draft.Fits.join? ⟨b, .inr hb, hq⟩
  | loop g body ih => exact fits_loop ih h hp
  | nest body ih =>
    cases h with
    | @nest _ _ m h =>
      obtain ⟨b, hb, hm⟩ := ih (a := .empty) h rfl
      rw [Cmd.shape, hb]
      refine ⟨_, rfl, ?_⟩
      split
      · rename_i ha
        subst ha
        have hd : (p.draft.adopt m.draft).items = m.draft.items := by
          have hp : p.draft.items = [] := hp
          simp [Draft.adopt, hp]
        cases b with
        | empty => exact hd.trans hm
        | single k =>
          obtain ⟨t, kind, hi, hk⟩ := hm
          exact ⟨t, kind, hd.trans hi, hk⟩
        | any => trivial
      · trivial
  | jump r =>
    cases h with
    | jump h => exact ⟨_, rfl, hcalls _ _ _ h a hp⟩
  | dispatch t =>
    cases h with
    | dispatch ht h => exact Cmd.fits_dispatch (Table.mem_rules_of_decide ht) (hcalls _ _ _ h a hp)
  | close kind =>
    cases h
    exact ⟨_, rfl, Draft.fits_build ..⟩
  | wrap kind =>
    cases h
    exact ⟨_, rfl, Draft.fits_build ..⟩

theorem Rule.shape_le {b : Shape} (ha : a = .empty ∨ a = .any) (hb : r.body.shape a = some b) :
    b.le (r.shape a) = true := by
  have h := r.shapely_all
  simp only [shapely, List.all_cons, List.all_nil, Bool.and_true, Bool.and_eq_true] at h
  rcases ha with rfl | rfl
  · simpa [hb] using h.1
  · simpa [hb] using h.2

/-- A rule leaves the draft in the shape that it is said to leave. -/
theorem Rule.Ends.fits (h : Rule.Ends s strict r p (.done q)) (hp : p.draft.Fits a) :
    q.draft.Fits (r.shape a) := by
  refine Rule.Ends.induct (R := fun r p o => ∀ q, o = .done q → ∀ a, p.draft.Fits a →
    q.draft.Fits (r.shape a)) ?_ h q rfl a hp
  rintro r p _ h q rfl a hp
  have hbody {a} (ha : a = .empty ∨ a = .any) (hp : p.draft.Fits a) :
      q.draft.Fits (r.shape a) := by
    obtain ⟨b, hb, hq⟩ := h.fits (fun _ _ q hr => hr.2 q rfl) hp
    exact hq.le (Rule.shape_le ha hb)
  cases a with
  | empty => exact hbody (.inl rfl) hp
  | single k =>
    have hk : r.shape (.single k) = r.shape .any := by simp [Rule.shape]
    rw [hk]
    exact hbody (.inr rfl) trivial
  | any => exact hbody (.inr rfl) trivial

/-- Started on an empty draft, a rule leaves one node. -/
theorem Rule.Ends.single (h : Rule.Ends s strict r p (.done q)) (hr : r ≠ .emptyMember)
    (hp : p.draft.items = []) : q.draft.Fits (.single r.strength) := by
  have hq := h.fits (a := .empty) hp
  simpa [Rule.shape, hr] using hq

end

end JavaSyntax
