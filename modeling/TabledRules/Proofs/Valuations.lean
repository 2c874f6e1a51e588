-- Valuations: what the variables of a running evaluation stand for in the
-- end. What has a valuation is never refused: unification goes on under the
-- same valuation, and a rule that is taken up goes on under a larger one.
import Std.Data.String.ToNat
import TabledRules.Proofs.Patterns
import TabledRules.Proofs.Truth

namespace TabledRules

open Bindings

/-- What variables stand for, as far as that matters. -/
abbrev Valuation := Nat → Option Term

namespace Valuation

variable {V V' V'' : Valuation} {b b' : Bindings} {t g g' u l r : Term} {v n : Nat}

/-! ## Terms under a valuation -/

/-- The valuation makes `g` of the term. -/
def Makes (V : Valuation) (t g : Term) : Prop :=
  t.Instance (fun x g => ∃ v, x = .ref v ∧ V v = some g) g

@[simp] theorem makes_ref : V.Makes (.ref v) g ↔ V v = some g := by
  simp [Makes]

@[simp] theorem makes_node {x : Node} : V.Makes (.node x) g ↔ g = .node x :=
  Term.instance_node

@[simp] theorem makes_app {f : String} {ts : List Term} :
    V.Makes (.app f ts) g ↔ ∃ gs, g = .app f gs ∧ List.Forall₂ V.Makes ts gs :=
  Term.instance_app

@[simp] theorem not_makes_any : ¬ V.Makes .any g := by
  simp [Makes]

@[simp] theorem not_makes_var {x : String} : ¬ V.Makes (.var x) g := by
  simp [Makes]

theorem Makes.not_wild (h : V.Makes t g) : ¬ Wild t := by
  rintro (rfl | ⟨x, rfl⟩)
  · exact not_makes_any h
  · exact not_makes_var h

theorem Makes.unique (h : V.Makes t g) (h' : V.Makes t g') : g = g' := by
  induction t using Term.induct generalizing g g' with
  | node n => rw [makes_node.1 h, makes_node.1 h']
  | app f ts ih =>
    obtain ⟨gs, rfl, hgs⟩ := makes_app.1 h
    obtain ⟨gs', rfl, hgs'⟩ := makes_app.1 h'
    congr 1
    clear h h'
    induction hgs generalizing gs' with
    | nil =>
      cases hgs'
      rfl
    | @cons t g ts gs h1 _ ih2 =>
      obtain ⟨g', gs', h3, h4, rfl⟩ := List.forall₂_cons_left_iff.1 hgs'
      rw [ih t List.mem_cons_self h1 h3,
        ih2 (fun t ht => ih t (List.mem_cons_of_mem _ ht)) gs' h4]
  | var x => exact absurd h not_makes_var
  | ref v => exact Option.some.inj ((makes_ref.1 h).symm.trans (makes_ref.1 h'))
  | any => exact absurd h not_makes_any

theorem makes_of_isGround (h : t.isGround = true) : V.Makes t t := by
  induction t using Term.induct with
  | node n => exact makes_node.2 rfl
  | app f ts ih =>
    rw [Term.isGround_app] at h
    exact makes_app.2 ⟨ts, rfl, List.forall₂_same.2 fun t ht => ih t ht (h t ht)⟩
  | _ => cases h

theorem Makes.eq_of_isGround (h : V.Makes t g) (ht : t.isGround = true) : g = t :=
  h.unique (makes_of_isGround ht)

/-- The second valuation has the values of the first. -/
def Le (V V' : Valuation) : Prop := ∀ v g, V v = some g → V' v = some g

theorem Le.refl (V : Valuation) : V.Le V := fun _ _ h => h

theorem Le.trans (h : V.Le V') (h' : V'.Le V'') : V.Le V'' := fun v g hv => h' v g (h v g hv)

theorem Makes.mono (h : V.Makes t g) (hle : V.Le V') : V'.Makes t g :=
  Term.Instance.mono h fun _ _ _ ⟨v, e, hv⟩ => ⟨v, e, hle _ _ hv⟩

def set (V : Valuation) (v : Nat) (g : Term) : Valuation := Function.update V v (some g)

@[simp] theorem set_self (V : Valuation) (v : Nat) (g : Term) : V.set v g v = some g := by
  simp [set]

theorem set_of_ne (V : Valuation) (g : Term) {v u : Nat} (h : u ≠ v) : V.set v g u = V u := by
  simp [set, h]

/-! ## Bindings under a valuation -/

/-- Values are ground and agree with the bindings. -/
structure Obeys (V : Valuation) (b : Bindings) : Prop where
  ordered : b.Ordered
  lt : ∀ {v g}, V v = some g → v < b.size
  ground : ∀ {v g}, V v = some g → g.isGround = true
  value : ∀ {v g u}, V v = some g → b.value? v = some u → V.Makes u g

theorem Obeys.grow (h : V.Obeys b) (n : Nat) : V.Obeys (b.grow n) :=
  ⟨h.ordered.grow n, fun hv => Nat.lt_of_lt_of_le (h.lt hv) (Nat.le_max_left _ _), h.ground, h.value⟩

theorem Obeys.makes_ground (h : V.Obeys b) (ht : V.Makes t g) : g.isGround = true :=
  Term.Instance.isGround ht fun _ _ _ ⟨_, _, hv⟩ => h.ground hv

theorem Obeys.deref (h : V.Obeys b) (ht : V.Makes t g) : V.Makes (b.deref t) g := by
  induction t using h.ordered.chain_induct with
  | stop t hend => rwa [deref_of_isEnd hend]
  | link v t hv ih =>
    rw [deref_ref_of_some h.ordered hv]
    exact ih (h.value (makes_ref.1 ht) hv)

theorem Obeys.deepDeref (h : V.Obeys b) (ht : V.Makes t g) (hu : b.deepDeref n t = some u) :
    V.Makes u g := by
  induction n generalizing t g u with
  | zero => cases hu
  | succ n ih =>
    have hd := h.deref ht
    rw [Bindings.deepDeref] at hu
    split at hu
    · next f args e =>
      obtain ⟨us, hus, rfl⟩ := Option.map_eq_some_iff.1 hu
      rw [e] at hd
      obtain ⟨gs, rfl, hgs⟩ := makes_app.1 hd
      refine makes_app.2 ⟨gs, rfl, ?_⟩
      have hall := mapM_eq_some_iff.1 hus
      clear hus hu e hd ht
      induction hall generalizing gs with
      | nil =>
        cases hgs
        exact .nil
      | cons h1 _ ih2 =>
        obtain ⟨g, gs, h3, h4, rfl⟩ := List.forall₂_cons_left_iff.1 hgs
        exact .cons (ih h3 h1) (ih2 gs h4)
    · cases hu
      exact hd

/-- An unbound variable may be bound to what the valuation makes the same of. -/
theorem Obeys.bind (h : V.Obeys b) (hcan : b.CanBind v t) (hv : V v = some g) (ht : V.Makes t g) :
    V.Obeys (b.bind v t) := by
  refine ⟨hcan.ordered h.ordered, fun hu => by rw [size_bind]; exact h.lt hu, h.ground,
    fun {u g' x} hu hx => ?_⟩
  rw [value?_bind hcan.exists_var] at hx
  split at hx
  · next e =>
    subst e
    cases hx
    cases hv.symm.trans hu
    exact ht
  · exact h.value hu hx

/-- A new variable may stand for any ground term. -/
theorem Obeys.newVar (h : V.Obeys b) (hg : g.isGround = true) :
    V.Le (V.set b.size g) ∧ (V.set b.size g).Obeys b.newVar.2 := by
  have hle : V.Le (V.set b.size g) := by
    intro v g' hv
    rw [set_of_ne _ _ (Nat.ne_of_lt (h.lt hv))]
    exact hv
  have old : ∀ {v g'}, V.set b.size g v = some g' → v = b.size ∧ g' = g ∨ V v = some g' := by
    intro v g' hv
    by_cases e : v = b.size
    · subst e
      rw [set_self] at hv
      exact .inl ⟨rfl, (Option.some.inj hv).symm⟩
    · rw [set_of_ne _ _ e] at hv
      exact .inr hv
  refine ⟨hle, h.ordered.newVar, fun {v g'} hv => ?_, fun {v g'} hv => ?_, fun {v g' u} hv hu => ?_⟩
  · rw [size_newVar]
    rcases old hv with ⟨rfl, -⟩ | hv
    · exact Nat.lt_succ_self _
    · exact Nat.lt_succ_of_lt (h.lt hv)
  · rcases old hv with ⟨-, rfl⟩ | hv
    · exact hg
    · exact h.ground hv
  · rcases old hv with ⟨rfl, -⟩ | hv
    · exact absurd (h.ordered.bound_lt (show b.value? b.size = some u from hu)) (Nat.lt_irrefl _)
    · exact (h.value hv hu).mono hle

/-! ## Unification -/

theorem forall₂_length {ts us gs : List Term} (h : List.Forall₂ V.Makes ts gs)
    (h' : List.Forall₂ V.Makes us gs) : ts.length = us.length :=
  h.length_eq.trans h'.length_eq.symm

theorem unifyEach_obeys {one : Bindings → Term → Term → Option (Option Bindings)}
    (hone : ∀ {b l r g x}, V.Obeys b → V.Makes l g → V.Makes r g → one b l r = some x →
      ∃ b', x = some b' ∧ V.Obeys b')
    {ls rs gs : List Term} {x : Option Bindings} (h : V.Obeys b) (hl : List.Forall₂ V.Makes ls gs)
    (hr : List.Forall₂ V.Makes rs gs) (hu : unifyEach one b ls rs = some x) :
    ∃ b', x = some b' ∧ V.Obeys b' := by
  induction hl generalizing b rs with
  | nil =>
    cases hr
    cases hu
    exact ⟨b, rfl, h⟩
  | @cons l g ls gs hl _ ih =>
    obtain ⟨r, rs, hr1, hr2, rfl⟩ := List.forall₂_cons_right_iff.1 hr
    rw [unifyEach] at hu
    split at hu
    · next b1 h1 =>
      obtain ⟨b2, e, h2⟩ := hone h hl hr1 h1
      cases e
      exact ih h2 hr2 hu
    · next hother =>
      obtain ⟨b2, rfl, -⟩ := hone h hl hr1 hu
      exact absurd hu (hother b2)

/-- Terms that come to be the same are unified, and they still come to be the same. -/
theorem unify_obeys {x : Option Bindings} (h : V.Obeys b) (hl : V.Makes l g) (hr : V.Makes r g)
    (hu : Bindings.unify n b l r = some x) : ∃ b', x = some b' ∧ V.Obeys b' := by
  induction n generalizing b l r g x with
  | zero => cases hu
  | succ n ih =>
    have hl' := h.deref hl
    have hr' := h.deref hr
    generalize hdl : b.deref l = l' at hl'
    generalize hdr : b.deref r = r' at hr'
    have unbound : ∀ {t v}, b.deref t = .ref v → b.value? v = none := fun hd =>
      value?_of_deref_eq_ref h.ordered hd
    cases Meeting.of l' r' with
    | wild hw =>
      rcases hw with hw | hw
      · exact absurd hw hl'.not_wild
      · exact absurd hw hr'.not_wild
    | refs v u =>
      rw [unify_refs hdl hdr] at hu
      cases hu
      refine ⟨_, rfl, ?_⟩
      rw [makes_ref] at hl' hr'
      by_cases e : v = u
      · rw [merge, if_pos e]
        exact h
      · have hcan := canBind_merge (h.lt hl') (h.lt hr') (unbound hdl) (unbound hdr) e
        rw [merge_eq_bind b e]
        rcases Nat.le_total v u with hle | hle
        · rw [Nat.max_eq_right hle, Nat.min_eq_left hle] at hcan ⊢
          exact h.bind hcan hr' (makes_ref.2 hl')
        · rw [Nat.max_eq_left hle, Nat.min_eq_right hle] at hcan ⊢
          exact h.bind hcan hl' (makes_ref.2 hr')
    | refLeft v hw ht =>
      rw [unify_refLeft hdl hdr hw ht] at hu
      cases hu
      rw [makes_ref] at hl'
      have hcan : b.CanBind v r' :=
        ⟨h.lt hl', unbound hdl, isEnd_of_ne_ref ht, fun u e => absurd e (ht u)⟩
      exact ⟨_, rfl, h.bind hcan hl' hr'⟩
    | refRight v hw ht =>
      rw [unify_refRight hdl hdr hw ht] at hu
      cases hu
      rw [makes_ref] at hr'
      have hcan : b.CanBind v l' :=
        ⟨h.lt hr', unbound hdr, isEnd_of_ne_ref ht, fun u e => absurd e (ht u)⟩
      exact ⟨_, rfl, h.bind hcan hr' hl'⟩
    | nodes x y =>
      rw [unify_nodes hdl hdr] at hu
      cases (makes_node.1 hl').symm.trans (makes_node.1 hr')
      rw [if_pos rfl] at hu
      cases hu
      exact ⟨b, rfl, h⟩
    | apps f k as bs =>
      rw [unify_apps hdl hdr] at hu
      obtain ⟨gs, rfl, has⟩ := makes_app.1 hl'
      obtain ⟨gs', e, hbs⟩ := makes_app.1 hr'
      cases e
      rw [if_pos ⟨rfl, forall₂_length has hbs⟩] at hu
      exact unifyEach_obeys ih h has hbs hu
    | nodeApp x f as =>
      obtain ⟨gs, rfl, -⟩ := makes_app.1 hr'
      cases makes_node.1 hl'
    | appNode x f as =>
      obtain ⟨gs, rfl, -⟩ := makes_app.1 hl'
      cases makes_node.1 hr'

/-- The valuation makes the second triple of the first. -/
structure MakesTriple (V : Valuation) (t g : Triple) : Prop where
  subject : V.Makes t.subject g.subject
  predicate : V.Makes t.predicate g.predicate
  object : V.Makes t.object g.object

theorem MakesTriple.mono {t g : Triple} (h : V.MakesTriple t g) (hle : V.Le V') :
    V'.MakesTriple t g :=
  ⟨h.subject.mono hle, h.predicate.mono hle, h.object.mono hle⟩

theorem MakesTriple.terms {t g : Triple} (h : V.MakesTriple t g) :
    List.Forall₂ V.Makes t.terms g.terms :=
  .cons h.subject (.cons h.predicate (.cons h.object .nil))

theorem makesTriple_of_isGround {t : Triple} (h : t.isGround = true) : V.MakesTriple t t := by
  obtain ⟨⟨h1, h2⟩, h3⟩ : (t.subject.isGround = true ∧ t.predicate.isGround = true) ∧
      t.object.isGround = true := by simpa [Triple.isGround] using h
  exact ⟨makes_of_isGround h1, makes_of_isGround h2, makes_of_isGround h3⟩

theorem Obeys.deepDerefTriple {goal value w : Triple} (h : V.Obeys b) (hg : V.MakesTriple goal w)
    (hv : goal.mapTerms? (b.deepDeref n) = some value) : V.MakesTriple value w := by
  obtain ⟨h1, h2, h3⟩ := mapTerms?_eq_some_iff.1 hv
  exact ⟨h.deepDeref hg.subject h1, h.deepDeref hg.predicate h2, h.deepDeref hg.object h3⟩

theorem unifyTriple_obeys {goal w : Triple} {x : Option Bindings} (h : V.Obeys b)
    (hg : V.MakesTriple goal w) (hw : w.isGround = true) (hu : b.unifyTriple n goal w = some x) :
    ∃ b', x = some b' ∧ V.Obeys b' :=
  unifyEach_obeys unify_obeys h hg.terms (makesTriple_of_isGround hw).terms hu

/-! ## Rules at work -/

/-- The rule's variables have values that come to be what `ψ` says. -/
structure Suits (V : Valuation) (ψ : String → Term) (θ : Values) (b : Bindings) : Prop where
  obeys : V.Obeys b
  agrees : ∀ v x, θ v = some x → V.Makes x (ψ v)

variable {ψ : String → Term} {θ θ' : Values} {arg : Term} {args ts gs : List Term}

theorem Suits.none (h : V.Obeys b) (ψ : String → Term) : V.Suits ψ .none b :=
  ⟨h, fun _ _ e => by cases e⟩

theorem Suits.set (h : V.Suits ψ θ b) {v : String} (hu : V.Makes u (ψ v)) :
    V.Suits ψ (θ.set v u) b := by
  refine ⟨h.obeys, fun x y hx => ?_⟩
  by_cases e : x = v
  · subst e
    rw [Values.set_self] at hx
    exact Option.some.inj hx ▸ hu
  · rw [Values.set_of_ne _ _ e] at hx
    exact h.agrees x y hx

theorem Suits.mono (h : V.Suits ψ θ b) (hle : V.Le V') (hV : V'.Obeys b') : V'.Suits ψ θ b' :=
  ⟨hV, fun v x hx => (h.agrees v x hx).mono hle⟩

theorem matchLeaf_suits {x : Option (Values × Bindings)} (h : V.Suits ψ θ b)
    (harg : V.Makes arg g) (ht : t.Instance (Fills ψ) g)
    (hm : matchLeaf n θ b arg t = some x) : ∃ θ' b', x = some (θ', b') ∧ V.Suits ψ θ' b' := by
  have unified : ∀ {u : Term}, V.Makes u g → (b.unify n arg u).map (·.map (θ, ·)) = some x →
      ∃ θ' b', x = some (θ', b') ∧ V.Suits ψ θ' b' := by
    intro u hu hx
    obtain ⟨y, hy, rfl⟩ := Option.map_eq_some_iff.1 hx
    obtain ⟨b', rfl, hb'⟩ := unify_obeys h.obeys harg hu hy
    exact ⟨θ, b', rfl, h.mono (.refl V) hb'⟩
  unfold matchLeaf at hm
  split at hm
  · next v =>
    obtain ⟨-, hv⟩ := Term.instance_var.1 ht
    have hgv := hv v rfl
    split at hm
    · cases hm
      exact ⟨_, _, rfl, h.set (hgv ▸ harg)⟩
    · next u hθ => exact unified (hgv ▸ h.agrees v u hθ) hm
  · next c =>
    rw [Term.instance_node] at ht
    exact unified (makes_node.2 ht) hm
  · cases hm
    exact ⟨θ, b, rfl, h⟩

theorem matchLeaf_size (h : matchLeaf n θ b arg t = some (some (θ', b'))) : b'.size = b.size := by
  have unified : ∀ {u : Term}, (b.unify n arg u).map (·.map (θ, ·)) = some (some (θ', b')) →
      b'.size = b.size := fun h => by
    obtain ⟨rfl, hu⟩ := map_map_eq_some h
    exact (solves_of_unify hu (.done b')).size_eq
  unfold matchLeaf at h
  split at h
  · split at h
    · cases h
      rfl
    · exact unified h
  · exact unified h
  · cases h
    rfl

/-- Matching leaves makes no variables. -/
theorem matchLeaves_size (h : matchLeaves n θ b args ts = some (some (θ', b'))) :
    b'.size = b.size := by
  induction ts generalizing θ b args with
  | nil => cases args <;> cases h <;> rfl
  | cons t ts ih =>
    cases args with
    | nil =>
      cases h
      rfl
    | cons arg args =>
      obtain ⟨θ1, b1, h1, h2⟩ := matchThen_eq_some h
      rw [ih h2, matchLeaf_size h1]

theorem matchLeaves_suits {x : Option (Values × Bindings)} (h : V.Suits ψ θ b)
    (hargs : List.Forall₂ V.Makes args gs)
    (hts : List.Forall₂ (Term.Instance (Fills ψ)) ts gs)
    (hm : matchLeaves n θ b args ts = some x) : ∃ θ' b', x = some (θ', b') ∧ V.Suits ψ θ' b' := by
  induction hargs generalizing θ b ts with
  | nil =>
    cases hts
    cases hm
    exact ⟨θ, b, rfl, h⟩
  | @cons arg g args gs harg _ ih =>
    obtain ⟨t, ts, ht, hts', rfl⟩ := List.forall₂_cons_right_iff.1 hts
    rw [matchLeaves] at hm
    rcases hleaf : matchLeaf n θ b arg t with _ | x1
    · rw [hleaf] at hm
      cases hm
    · obtain ⟨θ1, b1, rfl, h1⟩ := matchLeaf_suits h harg ht hleaf
      rw [hleaf] at hm
      exact ih h1 hts' hm

/-- New variables in the place of variables come to be what these come to be. -/
theorem freshen_obeys (h : V.Obeys b) (hts : List.Forall₂ (Term.Instance (Fills ψ)) ts gs)
    (hflat : ∀ t ∈ ts, t.isApp = false) :
    ∃ V', V.Le V' ∧ V'.Obeys (b.freshen Term.isVar ts).2 ∧
      List.Forall₂ V'.Makes (b.freshen Term.isVar ts).1 gs ∧
      b.size ≤ (b.freshen Term.isVar ts).2.size ∧
      ∀ v, (b.freshen Term.isVar ts).2.value? v = b.value? v := by
  induction hts generalizing V b with
  | nil => exact ⟨V, .refl V, h, .nil, Nat.le_refl _, fun _ => rfl⟩
  | @cons t g ts gs ht _ ih =>
    have hrest := fun t ht => hflat t (List.mem_cons_of_mem _ ht)
    rw [freshen_cons]
    split
    · next hvar =>
      obtain ⟨hg, -⟩ := (Term.instance_of_isVar hvar).1 ht
      obtain ⟨h1, h2⟩ := h.newVar hg
      obtain ⟨V', h3, h4, h5, h6, h7⟩ := ih h2 hrest
      refine ⟨V', h1.trans h3, h4, .cons (makes_ref.2 (h3 _ _ (set_self _ _ _))) h5,
        Nat.le_of_succ_le h6, h7⟩
    · next hvar =>
      obtain ⟨V', h3, h4, h5, h6, h7⟩ := ih h hrest
      refine ⟨V', h3, h4, .cons ?_ h5, h6, h7⟩
      have happ := hflat t List.mem_cons_self
      cases t with
      | node c => exact makes_node.2 (Term.instance_node.1 ht)
      | app f us => cases happ
      | _ => exact absurd rfl hvar

theorem mem_freshen {replaced : Term → Bool} (hv : b.size ≤ v)
    (hlt : v < (b.freshen replaced ts).2.size) : .ref v ∈ (b.freshen replaced ts).1 := by
  induction ts generalizing b with
  | nil => exact absurd hlt (Nat.not_lt.2 hv)
  | cons t ts ih =>
    rw [freshen_cons] at hlt ⊢
    split at hlt
    · next hr =>
      rw [if_pos hr]
      rcases Nat.eq_or_lt_of_le hv with rfl | hv
      · exact List.mem_cons_self
      · exact List.mem_cons_of_mem _ (ih (by rwa [size_newVar]) hlt)
    · next hr =>
      rw [if_neg hr]
      exact List.mem_cons_of_mem _ (ih hv hlt)

/-- All variables that are made to open an object are among its arguments. -/
theorem mem_openObject {object : Term} {f : String} (h : b.openObject object f ts = some (args, b'))
    (hv : b.size ≤ v) (hlt : v < b'.size) : .ref v ∈ args := by
  unfold Bindings.openObject at h
  split at h
  · split at h
    · cases h
      exact absurd hlt (Nat.not_lt.2 hv)
    · cases h
  · cases h
    rw [size_bind] at hlt
    exact mem_freshen hv hlt
  all_goals first
    | cases h
    | obtain ⟨rfl, rfl⟩ := Prod.mk.inj (Option.some.inj h)
      exact mem_freshen hv hlt

/-- An object that comes to be a compound term is opened. -/
theorem openObject_obeys {object : Term} {f : String} (h : V.Obeys b)
    (hobject : V.Makes object (.app f gs))
    (hts : List.Forall₂ (Term.Instance (Fills ψ)) ts gs)
    (hflat : ∀ t ∈ ts, t.isApp = false) :
    ∃ args b' V', b.openObject object f ts = some (args, b') ∧ V.Le V' ∧ V'.Obeys b' ∧
      List.Forall₂ V'.Makes args gs := by
  have hd := h.deref hobject
  unfold Bindings.openObject
  split
  · next k as e =>
    rw [e] at hd
    obtain ⟨gs', e', has⟩ := makes_app.1 hd
    cases e'
    rw [if_pos ⟨rfl, has.length_eq.trans hts.length_eq.symm⟩]
    exact ⟨as, b, V, rfl, .refl V, h, has⟩
  · next v e =>
    rw [e, makes_ref] at hd
    obtain ⟨V', h1, h2, h3, h4, h5⟩ := freshen_obeys h hts hflat
    have hcan : (b.freshen Term.isVar ts).2.CanBind v (.app f (b.freshen Term.isVar ts).1) :=
      ⟨Nat.lt_of_lt_of_le (h.lt hd) h4, (h5 v).trans (value?_of_deref_eq_ref h.ordered e),
        isEnd_of_ne_ref (by simp), by simp⟩
    exact ⟨_, _, V', rfl, h1, h2.bind hcan (h1 _ _ hd) (makes_app.2 ⟨gs, rfl, h3⟩), h3⟩
  · next e =>
    rw [e] at hd
    exact absurd hd not_makes_any
  · next e =>
    rw [e] at hd
    exact absurd hd not_makes_var
  · next e =>
    rw [e] at hd
    cases makes_node.1 hd

theorem matchObject_suits {x : Option (Values × Bindings)} (h : V.Suits ψ θ b)
    (harg : V.Makes arg g) (ht : t.Instance (Fills ψ) g)
    (hflat : ∀ f ts, t = .app f ts → ∀ t ∈ ts, t.isApp = false)
    (hm : matchObject n θ b arg t = some x) :
    ∃ V' θ' b', x = some (θ', b') ∧ V.Le V' ∧ V'.Suits ψ θ' b' ∧
      ∀ v, b.size ≤ v → v < b'.size → ∃ g, V' v = some g := by
  unfold matchObject at hm
  split at hm
  · next f ts =>
    obtain ⟨gs, rfl, hgs⟩ := Term.instance_app.1 ht
    obtain ⟨args, b1, V', hopen, h1, h2, h3⟩ := openObject_obeys h.obeys harg hgs (hflat f ts rfl)
    rw [hopen] at hm
    obtain ⟨θ', b', rfl, h4⟩ := matchLeaves_suits (h.mono h1 h2) h3 hgs hm
    refine ⟨V', θ', b', rfl, h1, h4, fun v hv hlt => ?_⟩
    obtain ⟨g, -, hg⟩ := exists_right h3 (mem_openObject hopen hv (matchLeaves_size hm ▸ hlt))
    exact ⟨g, makes_ref.1 hg⟩
  · obtain ⟨θ', b', rfl, h1⟩ := matchLeaf_suits h harg ht hm
    refine ⟨V, θ', b', rfl, .refl V, h1, fun v hv hlt => ?_⟩
    exact absurd (matchLeaf_size hm ▸ hlt) (Nat.not_lt.2 hv)

/-- A head that comes to be what the goal comes to be is matched with it, and every new
variable has a value then. -/
theorem matchHead_suits {head goal w : Triple} {x : Option (Values × Bindings)}
    (h : V.Obeys b) (hgoal : V.MakesTriple goal w) (hhead : head.Instance (Fills ψ) w)
    (hflat : ∀ f ts, head.object = .app f ts → ∀ t ∈ ts, t.isApp = false)
    (hm : matchHead n head goal b = some x) :
    ∃ V' θ' b', x = some (θ', b') ∧ V.Le V' ∧ V'.Suits ψ θ' b' ∧
      ∀ v, b.size ≤ v → v < b'.size → ∃ g, V' v = some g := by
  unfold matchHead at hm
  rcases hleaves : matchLeaves n .none b [goal.subject, goal.predicate]
    [head.subject, head.predicate] with _ | x1
  · rw [hleaves] at hm
    cases hm
  · obtain ⟨θ1, b1, rfl, h1⟩ := matchLeaves_suits (.none h ψ)
      (.cons hgoal.subject (.cons hgoal.predicate .nil))
      (.cons hhead.subject (.cons hhead.predicate .nil)) hleaves
    rw [hleaves] at hm
    have hsize := matchLeaves_size hleaves
    rw [← hsize]
    exact matchObject_suits h1 hgoal.object hhead.object hflat hm

/-- A rule whose head comes to be what the goal comes to be is taken up. -/
theorem enter_suits {rule : Rule} {goal w : Triple} {x : Option (Values × Bindings)}
    (h : V.Obeys b) (hgoal : V.MakesTriple goal w)
    (hhead : rule.head.Instance (Fills ψ) w) (hfault : rule.headFault = none)
    (htests : (leadingTests rule.head rule.body).1 = []) (hm : rule.enter n goal b = some x) :
    ∃ V' θ' b', x = some (θ', b') ∧ V.Le V' ∧ V'.Suits ψ θ' b' := by
  unfold Rule.enter at hm
  rw [htests, List.all_nil, if_pos rfl] at hm
  obtain ⟨V', θ', b', e, hle, hsuits, -⟩ :=
    matchHead_suits h hgoal hhead (flat_of_headFault hfault).2.2 hm
  exact ⟨V', θ', b', e, hle, hsuits⟩

/-! ## Goals of bodies -/

variable {rule : Rule}

theorem putLeaf_suits (h : V.Suits ψ θ b) (ht : t.Instance (Fills ψ) g)
    (hput : rule.putLeaf false θ b t = (u, θ', b')) :
    ∃ V', V.Le V' ∧ V'.Suits ψ θ' b' ∧ V'.Makes u g := by
  have fresh : g.isGround = true → ∃ V', V.Le V' ∧ V'.Suits ψ θ b.newVar.2 ∧
      V'.Makes (.ref b.size) g := by
    intro hg
    obtain ⟨h1, h2⟩ := h.obeys.newVar hg
    exact ⟨_, h1, h.mono h1 h2, makes_ref.2 (set_self _ _ _)⟩
  unfold Rule.putLeaf at hput
  split at hput
  · next v =>
    obtain ⟨hg, hv⟩ := Term.instance_var.1 ht
    have hgv := hv v rfl
    split at hput
    · next x hθ =>
      cases hput
      exact ⟨V, .refl V, h, hgv ▸ h.agrees v x hθ⟩
    · cases hput
      obtain ⟨V', h1, h2, h3⟩ := fresh hg
      exact ⟨V', h1, h2.set (hgv ▸ h3), h3⟩
  · next c =>
    cases hput
    exact ⟨V, .refl V, h, makes_node.2 (Term.instance_node.1 ht)⟩
  · next hvar hnode =>
    cases hput
    cases t with
    | var v => exact absurd rfl (hvar v)
    | node c => exact absurd rfl (hnode c)
    | ref v => exact fresh (Term.instance_ref.1 ht).1
    | any => exact fresh (Term.instance_any.1 ht).1
    | app f ts => exact fresh (Term.Instance.isGround ht fun _ _ _ hx => hx.1)

theorem putLeaves_suits {us : List Term} (h : V.Suits ψ θ b)
    (hts : List.Forall₂ (Term.Instance (Fills ψ)) ts gs)
    (hput : rule.putLeaves false θ b ts = (us, θ', b')) :
    ∃ V', V.Le V' ∧ V'.Suits ψ θ' b' ∧ List.Forall₂ V'.Makes us gs := by
  induction hts generalizing V θ b us with
  | nil =>
    cases hput
    exact ⟨V, .refl V, h, .nil⟩
  | @cons t g ts gs ht _ ih =>
    rcases h1 : rule.putLeaf false θ b t with ⟨u, θ1, b1⟩
    rcases h2 : rule.putLeaves false θ1 b1 ts with ⟨us1, θ2, b2⟩
    rw [Rule.putLeaves, h1] at hput
    simp only [h2] at hput
    cases hput
    obtain ⟨V1, h3, h4, h5⟩ := putLeaf_suits h ht h1
    obtain ⟨V2, h6, h7, h8⟩ := ih h4 h2
    exact ⟨V2, h3.trans h6, h7, .cons (h5.mono h6) h8⟩

theorem putObject_suits (h : V.Suits ψ θ b) (ht : t.Instance (Fills ψ) g)
    (hput : rule.putObject θ b t = (u, θ', b')) :
    ∃ V', V.Le V' ∧ V'.Suits ψ θ' b' ∧ V'.Makes u g := by
  unfold Rule.putObject at hput
  split at hput
  · next f ts =>
    obtain ⟨gs, rfl, hgs⟩ := Term.instance_app.1 ht
    rcases h1 : rule.putLeaves false θ b ts with ⟨us, θ1, b1⟩
    simp only [h1] at hput
    cases hput
    obtain ⟨V', h2, h3, h4⟩ := putLeaves_suits h hgs h1
    exact ⟨V', h2, h3, makes_app.2 ⟨gs, rfl, h4⟩⟩
  · exact putLeaf_suits h ht hput

/-- A goal of a body is passed on as what it comes to be. -/
theorem putGoal_suits {pattern goal w : Triple} (h : V.Suits ψ θ b)
    (hw : pattern.Instance (Fills ψ) w)
    (hput : rule.putGoal θ b pattern = (goal, θ', b')) :
    ∃ V', V.Le V' ∧ V'.Suits ψ θ' b' ∧ V'.MakesTriple goal w := by
  rcases h1 : rule.putLeaf false θ b pattern.subject with ⟨s, θ1, b1⟩
  rcases h2 : rule.putLeaf false θ1 b1 pattern.predicate with ⟨p, θ2, b2⟩
  rcases h3 : rule.putObject θ2 b2 pattern.object with ⟨o, θ3, b3⟩
  rw [Rule.putGoal, h1] at hput
  simp only [h2, h3] at hput
  cases hput
  obtain ⟨V1, h4, h5, h6⟩ := putLeaf_suits h hw.subject h1
  obtain ⟨V2, h7, h8, h9⟩ := putLeaf_suits h5 hw.predicate h2
  obtain ⟨V3, h10, h11, h12⟩ := putObject_suits h8 hw.object h3
  exact ⟨V3, (h4.trans h7).trans h10, h11, h6.mono (h7.trans h10), h9.mono h10, h12⟩

/-! ## Patterns -/

/-- What the valuation makes of a variable, and other terms as they are. -/
def image (V : Valuation) : Term → Term
  | .ref v => (V v).getD .any
  | x => x

/-- What a valuation makes of a pattern is what the pattern asks for. -/
theorem MakesTriple.matches {value w : Triple} (h : V.MakesTriple value w) : value.Matches w := by
  have each : ∀ {t g : Term}, V.Makes t g →
      t.Instance (fun x g => x ≠ .any → g = V.image x) g := by
    intro t g ht
    refine Term.Instance.mono ht fun x _ g hx _ => ?_
    obtain ⟨v, rfl, hv⟩ := hx
    change g = (V v).getD .any
    rw [hv]
    rfl
  exact ⟨V.image, each h.subject, each h.predicate, each h.object⟩

end Valuation

/-- The numbers that were given out stand for what `σ` says. -/
structure Numbering.Valued (σ : Term → Term) (n : Numbering) (V : Valuation) : Prop where
  known : ∀ {x i}, n.known.lookup x = some i → V i = some (σ x)
  lt : ∀ {i g}, V i = some g → i < n.next
  ground : ∀ {i g}, V i = some g → g.isGround = true

section
variable {σ : Term → Term} {n : Numbering} {V : Valuation} {make : Nat → Term} {t g : Term}

/-- The numbers of a term's leaves stand for what the leaves ask for. -/
def Term.Numbers (make : Nat → Term) (V : Valuation) (t g : Term) : Prop :=
  t.Instance (fun y g => ∃ i, y = make i ∧ V i = some g) g

theorem Numbering.Valued.fresh (h : n.Valued σ V) (hg : g.isGround = true)
    (known : List (Term × Nat))
    (hknown : ∀ {x i}, known.lookup x = some i → V i = some (σ x) ∨ i = n.next ∧ g = σ x) :
    V.Le (V.set n.next g) ∧ Numbering.Valued σ ⟨n.next + 1, known⟩ (V.set n.next g) := by
  have hle : V.Le (V.set n.next g) := by
    intro i g' hi
    rw [Valuation.set_of_ne _ _ (Nat.ne_of_lt (h.lt hi))]
    exact hi
  refine ⟨hle, fun {x i} hx => ?_, fun {i g'} hi => ?_, fun {i g'} hi => ?_⟩
  · rcases hknown hx with hx | ⟨rfl, rfl⟩
    · exact hle _ _ hx
    · exact Valuation.set_self _ _ _
  · by_cases e : i = n.next
    · subst e
      exact Nat.lt_succ_self _
    · rw [Valuation.set_of_ne _ _ e] at hi
      exact Nat.lt_succ_of_lt (h.lt hi)
  · by_cases e : i = n.next
    · subst e
      rw [Valuation.set_self] at hi
      exact Option.some.inj hi ▸ hg
    · rw [Valuation.set_of_ne _ _ e] at hi
      exact h.ground hi

theorem Numbering.Valued.number (h : n.Valued σ V) (hg : g.isGround = true)
    (ht : t ≠ .any → g = σ t) :
    ∃ V', V.Le V' ∧ (n.number t).2.Valued σ V' ∧ V' (n.number t).1 = some g := by
  unfold Numbering.number
  split
  · obtain ⟨h1, h2⟩ := h.fresh hg n.known fun hx => .inl (h.known hx)
    exact ⟨_, h1, h2, Valuation.set_self _ _ _⟩
  · next hany =>
    have hgt := ht hany
    split
    · next i hi => exact ⟨V, .refl V, h, hgt ▸ h.known hi⟩
    · obtain ⟨h1, h2⟩ := h.fresh hg ((t, n.next) :: n.known) fun {x i} hx => by
        rw [List.lookup_cons] at hx
        split at hx
        · next e =>
          cases hx
          exact .inr ⟨rfl, eq_of_beq e ▸ hgt⟩
        · exact .inl (h.known hx)
      exact ⟨_, h1, h2, Valuation.set_self _ _ _⟩

theorem Term.Numbers.mono {V' : Valuation} (h : t.Numbers make V g) (hle : V.Le V') :
    t.Numbers make V' g :=
  Term.Instance.mono h fun _ _ _ ⟨i, e, hi⟩ => ⟨i, e, hle _ _ hi⟩

/-- A term is numbered: its numbered form asks for what the term asks for. -/
theorem Numbering.Valued.renumber (hmake : ∀ i, (make i).isVar = true) (h : n.Valued σ V)
    (hg : g.isGround = true) (ht : t.Instance (fun x g => x ≠ .any → g = σ x) g) :
    ∃ V', V.Le V' ∧ (t.renumber make n).2.Valued σ V' ∧ (t.renumber make n).1.Numbers make V' g := by
  have leaf : ∀ {t g : Term} {n : Numbering} {V : Valuation}, n.Valued σ V → g.isGround = true →
      t.Instance (fun x g => x ≠ .any → g = σ x) g → t.isVar = true → ∃ V', V.Le V' ∧
        (t.renumber make n).2.Valued σ V' ∧ (t.renumber make n).1.Numbers make V' g := by
    intro t g n V h hg ht hvar
    rw [Term.renumber_of_isVar hvar]
    obtain ⟨V', h1, h2, h3⟩ := h.number hg ((Term.instance_of_isVar hvar).1 ht)
    exact ⟨V', h1, h2, (Term.instance_of_isVar (hmake _)).2 ⟨_, rfl, h3⟩⟩
  induction t using Term.induct generalizing g n V with
  | node c => exact ⟨V, .refl V, h, ht⟩
  | app f ts ih =>
    obtain ⟨gs, rfl, hgs⟩ := Term.instance_app.1 ht
    have all : ∃ V', V.Le V' ∧ (Term.renumberAll make ts n).2.Valued σ V' ∧
        List.Forall₂ (Term.Numbers make V') (Term.renumberAll make ts n).1 gs := by
      rw [Term.isGround_app] at hg
      clear ht
      induction hgs generalizing n V with
      | nil => exact ⟨V, .refl V, h, .nil⟩
      | @cons t g ts gs ht _ ih2 =>
        obtain ⟨V1, h1, h2, h3⟩ := ih t List.mem_cons_self h (hg g List.mem_cons_self) ht
        obtain ⟨V2, h4, h5, h6⟩ := ih2 (fun t ht => ih t (List.mem_cons_of_mem _ ht)) h2
          fun g hg' => hg g (List.mem_cons_of_mem _ hg')
        exact ⟨V2, h1.trans h4, h5, .cons (h3.mono h4) h6⟩
    obtain ⟨V', h1, h2, h3⟩ := all
    exact ⟨V', h1, h2, Term.instance_app.2 ⟨gs, rfl, h3⟩⟩
  | var x => exact leaf h hg ht rfl
  | ref v => exact leaf h hg ht rfl
  | any => exact leaf h hg ht rfl

end

/-- What a pattern asks for, its numbered form asks for. -/
theorem Triple.Matches.numbered {goal t : Triple} (h : goal.Matches t) (hground : t.isGround = true)
    (make : Nat → Term) (hmake : ∀ i, (make i).isVar = true) :
    ∃ V : Valuation, (∀ {i g}, V i = some g → i < (goal.renumber make).2.next ∧ g.isGround = true) ∧
      (goal.renumber make).1.Instance (fun y g => ∃ i, y = make i ∧ V i = some g) t := by
  obtain ⟨σ, hs, hp, ho⟩ := h
  obtain ⟨⟨g1, g2⟩, g3⟩ : (t.subject.isGround = true ∧ t.predicate.isGround = true) ∧
      t.object.isGround = true := by simpa [Triple.isGround] using hground
  have hstart : Numbering.Valued σ {} (fun _ => none) :=
    ⟨fun e => (by cases e), fun e => (by cases e), fun e => (by cases e)⟩
  obtain ⟨V1, -, h1, h2⟩ := hstart.renumber hmake g1 hs
  obtain ⟨V2, h3, h4, h5⟩ := h1.renumber hmake g2 hp
  obtain ⟨V3, h6, h7, h8⟩ := h4.renumber hmake g3 ho
  exact ⟨V3, fun hi => ⟨h7.lt hi, h7.ground hi⟩, (h2.mono (h3.trans h6)), h5.mono h6, h8⟩

/-- The variables of a goal can stand for what the goal asks for. -/
theorem Triple.Matches.standard {goal t : Triple} (h : goal.Matches t) (hground : t.isGround = true) :
    ∃ V : Valuation, V.Obeys goal.unbound ∧ V.MakesTriple goal.standard t := by
  obtain ⟨V, h1, h2⟩ := h.numbered hground .ref fun _ => rfl
  refine ⟨V, ⟨(Triple.unbound_fits goal).ordered, fun hv => (h1 hv).1, fun hv => (h1 hv).2,
    fun {v g u} _ hu => ?_⟩, h2.subject, h2.predicate, h2.object⟩
  cases hu.symm.trans (value?_empty _ v)

/-- The form that variants share asks for what the goal asks for. -/
theorem Triple.Matches.variantKey {goal t : Triple} (h : goal.Matches t)
    (hground : t.isGround = true) : goal.variantKey.Matches t := by
  obtain ⟨V, -, h2⟩ := h.numbered hground (fun i => .var s!"_{i}") fun _ => rfl
  have name_inj : ∀ {i j : Nat}, Term.var s!"_{i}" = Term.var s!"_{j}" → i = j := by
    intro i j e
    have e' : "_" ++ i.repr = "_" ++ j.repr := Term.var.inj e
    exact Nat.repr_inj.1 ((String.append_right_inj "_").1 e')
  classical
  let σ : Term → Term := fun x =>
    if hx : ∃ g i, x = .var s!"_{i}" ∧ V i = some g then hx.choose else .any
  have each : ∀ {u g : Term},
      u.Instance (fun y g => ∃ i, y = .var s!"_{i}" ∧ V i = some g) g →
      u.Instance (fun x g => x ≠ .any → g = σ x) g := by
    intro u g hu
    refine Term.Instance.mono hu fun x _ g hx _ => ?_
    obtain ⟨i, rfl, hi⟩ := hx
    have hex : ∃ g j, Term.var s!"_{i}" = .var s!"_{j}" ∧ V j = some g := ⟨g, i, rfl, hi⟩
    have hσ : σ (.var s!"_{i}") = hex.choose := dif_pos hex
    obtain ⟨j, e, hj⟩ := hex.choose_spec
    obtain rfl := name_inj e
    rw [hσ]
    exact Option.some.inj (hi.symm.trans hj)
  exact ⟨σ, each h2.subject, each h2.predicate, each h2.object⟩

end TabledRules
