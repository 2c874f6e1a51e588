-- What rules say, without resolution: a rule derives every ground instance of
-- its head whose body is true. A triple is derivable if it is stored or if
-- finitely many rules lead to it from stored triples.
import TabledRules.Builtin.Standard
import TabledRules.Proofs.Terms

namespace TabledRules

/-! ## Instances -/

namespace Term

mutual
/-- The other term is this one with something that `R` picks in the place of every
variable and wildcard. -/
def Instance (R : Term → Term → Prop) : Term → Term → Prop
  | .node n, g => g = .node n
  | .app f ts, g => ∃ gs, g = .app f gs ∧ Instances R ts gs
  | t, g => R t g

def Instances (R : Term → Term → Prop) : List Term → List Term → Prop
  | [], gs => gs = []
  | t :: ts, gs => ∃ g gs', gs = g :: gs' ∧ Instance R t g ∧ Instances R ts gs'
end

variable {R S : Term → Term → Prop}

theorem instances_iff {ts gs : List Term} :
    Instances R ts gs ↔ List.Forall₂ (Instance R) ts gs := by
  induction ts generalizing gs with
  | nil => simp [Instances]
  | cons t ts ih =>
    simp only [Instances, List.forall₂_cons_left_iff, ih]
    constructor
    · rintro ⟨g, gs', rfl, h1, h2⟩
      exact ⟨g, gs', h1, h2, rfl⟩
    · rintro ⟨g, gs', h1, h2, rfl⟩
      exact ⟨g, gs', rfl, h1, h2⟩

@[simp] theorem instance_node {n : Node} {g : Term} : (Term.node n).Instance R g ↔ g = .node n :=
  .rfl

@[simp] theorem instance_var {v : String} {g : Term} :
    (Term.var v).Instance R g ↔ R (.var v) g :=
  .rfl

@[simp] theorem instance_ref {v : Nat} {g : Term} : (Term.ref v).Instance R g ↔ R (.ref v) g :=
  .rfl

@[simp] theorem instance_any {g : Term} : Term.any.Instance R g ↔ R .any g :=
  .rfl

@[simp] theorem instance_app {f : String} {ts : List Term} {g : Term} :
    (Term.app f ts).Instance R g ↔ ∃ gs, g = .app f gs ∧ List.Forall₂ (Instance R) ts gs :=
  exists_congr fun _ => and_congr_right fun _ => instances_iff

theorem instance_of_isVar {t g : Term} (h : t.isVar = true) : t.Instance R g ↔ R t g := by
  cases t with
  | node n => cases h
  | app f ts => cases h
  | var v => exact instance_var
  | ref v => exact instance_ref
  | any => exact instance_any

/-- Leaves that stand for leaves stand for what these stand for. -/
theorem Instance.comp {Q : Term → Term → Prop} {t u g : Term} (h : t.Instance R u)
    (h' : u.Instance S g) (hR : ∀ x y, R x y → y.isVar = true)
    (hleaf : ∀ x y g, R x y → S y g → Q x g) : t.Instance Q g := by
  have leaf : ∀ {x u g : Term}, R x u → u.Instance S g → Q x g := fun hx hg =>
    hleaf _ _ _ hx ((instance_of_isVar (hR _ _ hx)).1 hg)
  induction t using Term.induct generalizing u g with
  | node n =>
    obtain rfl := instance_node.1 h
    exact h'
  | app f ts ih =>
    obtain ⟨us, rfl, hus⟩ := instance_app.1 h
    obtain ⟨gs, rfl, hgs⟩ := instance_app.1 h'
    refine instance_app.2 ⟨gs, rfl, ?_⟩
    clear h h'
    induction hus generalizing gs with
    | nil =>
      cases hgs
      exact .nil
    | @cons t u ts us h1 h2 ih2 =>
      obtain ⟨g, gs, h3, h4, rfl⟩ := List.forall₂_cons_left_iff.1 hgs
      exact .cons (ih t List.mem_cons_self h1 h3)
        (ih2 (fun t ht => ih t (List.mem_cons_of_mem _ ht)) gs h4)
  | var v => exact instance_var.2 (leaf (instance_var.1 h) h')
  | ref v => exact instance_ref.2 (leaf (instance_ref.1 h) h')
  | any => exact instance_any.2 (leaf (instance_any.1 h) h')

theorem Instance.mono {t g : Term} (h : t.Instance R g)
    (hRS : ∀ x ∈ t.leaves, ∀ g, R x g → S x g) : t.Instance S g := by
  induction t using Term.induct generalizing g with
  | node n => exact h
  | app f ts ih =>
    obtain ⟨gs, rfl, hgs⟩ := instance_app.1 h
    refine instance_app.2 ⟨gs, rfl, ?_⟩
    clear h
    induction hgs with
    | nil => exact .nil
    | @cons t g ts gs h1 _ ih2 =>
      simp only [leaves_app, List.mem_flatMap] at hRS
      refine .cons (ih t List.mem_cons_self h1 fun x hx => hRS x ⟨t, List.mem_cons_self, hx⟩)
        (ih2 (fun t ht => ih t (List.mem_cons_of_mem _ ht)) ?_)
      simp only [leaves_app, List.mem_flatMap]
      rintro x ⟨t, ht, hx⟩
      exact hRS x ⟨t, List.mem_cons_of_mem _ ht, hx⟩
  | var v => exact instance_var.2 (hRS _ (by simp) g (instance_var.1 h))
  | ref v => exact instance_ref.2 (hRS _ (by simp) g (instance_ref.1 h))
  | any => exact instance_any.2 (hRS _ (by simp) g (instance_any.1 h))

theorem exists_instance {t : Term} (h : ∀ x ∈ t.leaves, ∃ g, R x g) : ∃ g, t.Instance R g := by
  induction t using Term.induct with
  | node n => exact ⟨.node n, instance_node.2 rfl⟩
  | app f ts ih =>
    have : ∀ us : List Term, (∀ t ∈ us, ∃ g, t.Instance R g) → ∃ gs,
        List.Forall₂ (Instance R) us gs := by
      intro us hus
      induction us with
      | nil => exact ⟨[], .nil⟩
      | cons u us ih2 =>
        obtain ⟨g, hg⟩ := hus u List.mem_cons_self
        obtain ⟨gs, hgs⟩ := ih2 fun t ht => hus t (List.mem_cons_of_mem _ ht)
        exact ⟨g :: gs, .cons hg hgs⟩
    simp only [leaves_app, List.mem_flatMap] at h
    obtain ⟨gs, hgs⟩ := this ts fun t ht => ih t ht fun x hx => h x ⟨t, ht, hx⟩
    exact ⟨.app f gs, instance_app.2 ⟨gs, rfl, hgs⟩⟩
  | var v => simpa using h (.var v) (by simp)
  | ref v => simpa using h (.ref v) (by simp)
  | any => simpa using h .any (by simp)

/-- An instance is ground if ground terms are put in. -/
theorem Instance.isGround {t g : Term} (h : t.Instance R g)
    (hR : ∀ x ∈ t.leaves, ∀ g, R x g → g.isGround = true) : g.isGround = true := by
  induction t using Term.induct generalizing g with
  | node n => simp [instance_node.1 h]
  | app f ts ih =>
    obtain ⟨gs, rfl, hgs⟩ := instance_app.1 h
    rw [isGround_app]
    intro g hg
    obtain ⟨t, ht, htg⟩ := exists_left hgs hg
    exact ih t ht htg fun x hx => hR x (by simpa using ⟨t, ht, hx⟩)
  | var v => exact hR _ (by simp) g (instance_var.1 h)
  | ref v => exact hR _ (by simp) g (instance_ref.1 h)
  | any => exact hR _ (by simp) g (instance_any.1 h)

/-- A ground term is its only instance. -/
theorem Instance.eq_of_isGround {t g : Term} (h : t.Instance R g) (ht : t.isGround = true) :
    g = t := by
  induction t using Term.induct generalizing g with
  | node n => exact instance_node.1 h
  | app f ts ih =>
    obtain ⟨gs, rfl, hgs⟩ := instance_app.1 h
    rw [isGround_app] at ht
    congr 1
    clear h
    induction hgs with
    | nil => rfl
    | cons h1 _ ih2 =>
      rw [ih _ List.mem_cons_self h1 (ht _ List.mem_cons_self),
        ih2 (fun t hm => ih t (List.mem_cons_of_mem _ hm)) fun t hm =>
          ht t (List.mem_cons_of_mem _ hm)]
  | var v => simp at ht
  | ref v => simp at ht
  | any => simp at ht

end Term

/-- The triple is an instance of the pattern, place by place. -/
structure Triple.Instance (R : Term → Term → Prop) (t g : Triple) : Prop where
  subject : t.subject.Instance R g.subject
  predicate : t.predicate.Instance R g.predicate
  object : t.object.Instance R g.object

theorem Triple.Instance.eq_of_isGround {R : Term → Term → Prop} {t g : Triple}
    (h : t.Instance R g) (ht : t.isGround = true) : g = t := by
  obtain ⟨s, p, o⟩ := g
  have each := Triple.isGround_iff.1 ht
  obtain rfl : s = t.subject := h.subject.eq_of_isGround (each _ (by simp [Triple.terms]))
  obtain rfl : p = t.predicate := h.predicate.eq_of_isGround (each _ (by simp [Triple.terms]))
  obtain rfl : o = t.object := h.object.eq_of_isGround (each _ (by simp [Triple.terms]))
  rfl

/-! ## What is asked for -/

/-- The triple is what the pattern asks for: constants are the same, and where a variable
stands twice the triple has the same term twice. -/
def Triple.Matches (pattern t : Triple) : Prop :=
  ∃ σ : Term → Term, pattern.Instance (fun x g => x ≠ .any → g = σ x) t

/-! ## Derivations -/

/-- The variables of a rule stand for what `σ` says, and a wildcard for any ground term. -/
def Fills (σ : String → Term) (x g : Term) : Prop :=
  g.isGround = true ∧ ∀ v, x = .var v → g = σ v

/-- The value of an argument of a builtin. A wildcard has none. -/
def Term.value? (σ : String → Term) : Term → Option Term
  | .var v => some (σ v)
  | .node n => some (.node n)
  | _ => none

def Term.ofInteger (i : Int64) : Term := .node (.literal (.integer i))

/-- The call of a builtin is true. What a rule says by the builtins that look at the state
of the search or of the store is left open. -/
def Compound.Holds (σ : String → Term) (c : Compound) : Prop :=
  match c.name, c.args.map (Term.value? σ) with
  | "equal", [x, y] => ∃ g, x = some g ∧ y = some g
  | "notEqual", [x, y] => ∃ g h, x = some g ∧ y = some h ∧ g ≠ h
  | "lessThan", [x, y] =>
    ∃ i j, x = some (.ofInteger i) ∧ y = some (.ofInteger j) ∧ i.toInt < j.toInt
  | "greaterThan", [x, y] =>
    ∃ i j, x = some (.ofInteger i) ∧ y = some (.ofInteger j) ∧ i.toInt > j.toInt
  | "sum", [x, y, z] =>
    ∃ i j k, x = some (.ofInteger i) ∧ y = some (.ofInteger j) ∧
      k.toInt = i.toInt + j.toInt ∧ ∀ g, z = some g → g = .ofInteger k
  | "bound", _ | "unbound", _ | "noValue", _ => True
  | _, _ => False

/-- The derivable triples: the stored ones, and the ground instances of heads whose bodies
are true. `u` says which triples make the goals of a body true. -/
inductive Derivable (rules : List Rule) (stored : Triple → Prop) : Triple → Prop
  | stored {t : Triple} : stored t → Derivable rules stored t
  | rule {r : Rule} {σ : String → Term} {t : Triple} {u : Triple → Triple} : r ∈ rules →
    (∀ v, (σ v).isGround = true) → r.head.Instance (Fills σ) t →
    (∀ goal, .triple goal ∈ r.body → goal.Instance (Fills σ) (u goal)) →
    (∀ goal, .triple goal ∈ r.body → Derivable rules stored (u goal)) →
    (∀ call, .builtin call ∈ r.body → call.Holds σ) → Derivable rules stored t

/-- An entry of a body is true where `T` has the true triples. -/
def Entry.Holds (σ : String → Term) (T : Triple → Prop) : Entry → Prop
  | .triple goal => ∃ u, T u ∧ goal.Instance (Fills σ) u
  | .builtin call => call.Holds σ

theorem Derivable.of_body {rules : List Rule} {stored : Triple → Prop} {r : Rule}
    {σ : String → Term} {t : Triple} (hr : r ∈ rules) (hσ : ∀ v, (σ v).isGround = true)
    (ht : r.head.Instance (Fills σ) t)
    (hbody : ∀ e ∈ r.body, e.Holds σ (Derivable rules stored)) : Derivable rules stored t := by
  have : ∀ goal : Triple, ∃ u, .triple goal ∈ r.body →
      Derivable rules stored u ∧ goal.Instance (Fills σ) u := by
    intro goal
    by_cases h : .triple goal ∈ r.body
    · obtain ⟨u, hu⟩ := hbody _ h
      exact ⟨u, fun _ => hu⟩
    · exact ⟨goal, fun h' => absurd h' h⟩
  choose u hu using this
  exact .rule hr hσ ht (fun goal h => (hu goal h).2) (fun goal h => (hu goal h).1)
    fun call h => hbody _ h

theorem Triple.Instance.isGround {R : Term → Term → Prop} {t g : Triple} (h : t.Instance R g)
    (hR : ∀ x g, R x g → g.isGround = true) : g.isGround = true := by
  have h1 := h.subject.isGround fun x _ => hR x
  have h2 := h.predicate.isGround fun x _ => hR x
  have h3 := h.object.isGround fun x _ => hR x
  simp [Triple.isGround, h1, h2, h3]

theorem Derivable.isGround {rules : List Rule} {stored : Triple → Prop} {t : Triple}
    (hstored : ∀ t, stored t → t.isGround = true) (h : Derivable rules stored t) :
    t.isGround = true := by
  cases h with
  | stored h => exact hstored t h
  | rule _ _ h => exact h.isGround fun _ _ hx => hx.1

/-! ## Safe rules -/

/-- An entry of a body gives the variable a value. -/
def Entry.Binds (v : String) : Entry → Prop
  | .triple goal => .var v ∈ goal.leaves
  | .builtin call => call.name = "sum" ∧ call.args[2]? = some (.var v)

/-- The head has variables only, and the body gives them values. -/
def Rule.Safe (r : Rule) : Prop :=
  ∀ x ∈ r.head.leaves, ∃ v, x = .var v ∧ ∃ e ∈ r.body, e.Binds v

end TabledRules
