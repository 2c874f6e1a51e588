-- Unification is exact. The assignments of ground terms that satisfy all bindings
-- are, after a success, those of before that make the two terms the same; after a
-- failure there were none, and what was bound on the way is undone.
import Mathlib.Data.Set.Defs
import TabledRules.Proofs.Attempts
import TabledRules.Proofs.Unifiers

namespace TabledRules

open Bindings

/-! ## Assignments -/

/-- The term with every variable replaced by what the assignment has for it. -/
def Term.under (s : Nat → Term) (t : Term) : Term :=
  t.mapVars fun
    | .ref v => s v
    | x => x

/-- The assignments of ground terms that satisfy every binding. -/
def Bindings.solutions (b : Bindings) : Set (Nat → Term) :=
  {s | (∀ v, (s v).isGround = true) ∧ ∀ v t, b.value? v = some t → s v = t.under s}

section
variable {s : Nat → Term} {b b' c : Bindings} {t g l r : Term} {n v : Nat}

@[simp] theorem Term.under_node (x : Node) : (Term.node x).under s = .node x := by
  simp [Term.under, Term.mapVars]

@[simp] theorem Term.under_ref : (Term.ref v).under s = s v := by
  simp [Term.under, Term.mapVars]

@[simp] theorem Term.under_app (f : String) (ts : List Term) :
    (Term.app f ts).under s = .app f (ts.map (Term.under s)) := by
  rw [Term.under, Term.mapVars, Term.mapVarsOf_eq]
  rfl

/-- What an assignment has for the variables that exist. -/
def Valuation.ofAssignment (s : Nat → Term) (size : Nat) : Valuation :=
  fun v => if v < size then some (s v) else none

theorem Valuation.ofAssignment_eq_some {size : Nat} :
    Valuation.ofAssignment s size v = some g ↔ v < size ∧ s v = g := by
  simp [Valuation.ofAssignment]

theorem Valuation.makes_ofAssignment (ht : b.Scoped IsRef t) :
    (Valuation.ofAssignment s b.size).Makes t (t.under s) := by
  induction t using Term.induct with
  | node x => simp
  | app f ts ih =>
    rw [Scoped, Term.has_app] at ht
    rw [Term.under_app]
    exact Valuation.makes_app.2 ⟨_, rfl, List.forall₂_map_right_iff.2
      (List.forall₂_same.2 fun t hmem => ih t hmem (ht t hmem))⟩
  | ref v => simpa [Valuation.ofAssignment_eq_some] using (Term.has_ref.1 ht).2 v rfl
  | var x => exact absurd (.inr ⟨x, rfl⟩) (not_wild_of_scoped ht)
  | any => exact absurd (.inl rfl) (not_wild_of_scoped ht)

theorem Bindings.settles_of_mem_solutions (hb : b.Fits IsRef) (hs : s ∈ b.solutions) :
    (Valuation.ofAssignment s b.size).Settles b where
  ordered := hb.ordered
  lt := fun hv => (Valuation.ofAssignment_eq_some.1 hv).1
  ground := fun {v g} hv => (Valuation.ofAssignment_eq_some.1 hv).2 ▸ hs.1 v
  value := fun {v g u} hv hu => by
    rw [← (Valuation.ofAssignment_eq_some.1 hv).2, hs.2 v u hu]
    exact Valuation.makes_ofAssignment (hb.values v u hu)
  total := fun {v} hv => ⟨s v, Valuation.ofAssignment_eq_some.2 ⟨hv, rfl⟩⟩

/-- An assignment that satisfies the bindings gives compound terms and bound variables what
their parts and values get. -/
theorem Bindings.respects_of_mem_solutions (hs : s ∈ c.solutions) :
    c.Respects fun t g => t.under s = g where
  app := fun {f ts g} => by
    rw [Term.under_app]
    constructor
    · rintro rfl
      exact ⟨_, rfl, List.forall₂_map_right_iff.2 (List.forall₂_same.2 fun _ _ => rfl)⟩
    · rintro ⟨gs, rfl, hall⟩
      congr 1
      induction hall with
      | nil => rfl
      | cons h1 _ ih => rw [List.map_cons, h1, ih]
  bound := fun {v t g} hv => by rw [Term.under_ref, hs.2 v t hv]

/-! ## Solutions after a unification -/

/-- What satisfies the bindings afterwards makes the two terms the same. -/
theorem Bindings.under_eq_of_unify (hb : b.Fits IsRef) (hl : b.Scoped IsRef l)
    (hr : b.Scoped IsRef r) (hu : b.unify n l r = some (some c)) (hs : s ∈ c.solutions) :
    l.under s = r.under s :=
  ((solves_of_unify hu (.done c)).iff_of_respects hb (by simpa using ⟨hl, hr⟩) (.refl c)
    (respects_of_mem_solutions hs) (l, r) (by simp) (r.under s)).2 rfl

/-- What satisfies the bindings before and makes the two terms the same satisfies the bindings
afterwards, and there is no failure. -/
theorem Bindings.mem_solutions_of_unify {x : Option Bindings} (hb : b.Fits IsRef)
    (hl : b.Scoped IsRef l) (hr : b.Scoped IsRef r) (hu : b.unify n l r = some x)
    (hs : s ∈ b.solutions) (hlr : l.under s = r.under s) : ∃ c, x = some c ∧ s ∈ c.solutions := by
  obtain ⟨c, rfl, hc⟩ := (settles_of_mem_solutions hb hs).unify hb hl hr
    (Valuation.makes_ofAssignment hl) (hlr ▸ Valuation.makes_ofAssignment hr) hu
  have hafter := unify_after hb hl hr hu
  refine ⟨c, rfl, hs.1, fun v t hv => ?_⟩
  have hlt : v < b.size := hafter.size_eq ▸ hafter.fits.ordered.bound_lt hv
  have hval := hc.value (Valuation.ofAssignment_eq_some.2 ⟨hlt, rfl⟩) hv
  have hscoped := hafter.fits.values v t hv
  rw [hafter.size_eq] at hscoped
  exact hval.unique (Valuation.makes_ofAssignment hscoped)

theorem Bindings.solutions_of_unify (hb : b.Fits IsRef) (hl : b.Scoped IsRef l)
    (hr : b.Scoped IsRef r) (hu : b.unify n l r = some (some c)) :
    c.solutions = {s ∈ b.solutions | l.under s = r.under s} := by
  ext s
  constructor
  · intro hs
    exact ⟨⟨hs.1, fun v t hv => hs.2 v t ((unify_after hb hl hr hu).keeps.value hv)⟩,
      under_eq_of_unify hb hl hr hu hs⟩
  · rintro ⟨hs, hlr⟩
    obtain ⟨c', e, hc⟩ := mem_solutions_of_unify hb hl hr hu hs hlr
    cases e
    exact hc

end

/-! ## The managers that there are -/

namespace Bindings

variable {b b' c : Bindings} {t l r : Term} {n v : Nat} {ok : Bool}

theorem Alike.ordered (h : b.Alike c) (hb : b.Ordered) : c.Ordered :=
  ⟨fun hv => h.size ▸ hb.bound_lt (h.value _ ▸ hv), fun hv => hb.older (h.value _ ▸ hv)⟩

theorem Alike.trailed (h : b.Alike c) (hb : b.Trailed) : c.Trailed where
  ordered := h.ordered hb.ordered
  nodup := h.trail ▸ hb.nodup
  mem_iff := fun v => by rw [h.trail, h.value, hb.mem_iff]

theorem Alike.fits {q : Term → Prop} (h : b.Alike c) (hb : b.Fits q) : c.Fits q where
  ordered := h.ordered hb.ordered
  values := fun v t hv => by
    rw [h.size]
    exact hb.values v t (h.value v ▸ hv)

theorem Fits.unwind {q : Term → Prop} (hb : b.Fits q) (mark : Nat) : (b.unwind mark).Fits q where
  ordered := hb.ordered.unwind mark
  values := fun v t hv => by
    rw [size_unwind]
    exact hb.values v t (value?_of_unwind hv)

/-- The managers that come from the empty one by new variables, by unifications of terms that
are made of nodes, compound terms and variables that exist, and by unwinding. -/
inductive Reached : Bindings → Prop
  | empty : Reached {}
  | newVar {b : Bindings} : Reached b → Reached b.newVar.2
  | unify {b c : Bindings} {l r : Term} {n : Nat} : Reached b → b.Scoped IsRef l →
    b.Scoped IsRef r → b.attempt n l r = some (true, c) → Reached c
  | fail {b c : Bindings} {l r : Term} {n : Nat} : Reached b → b.Scoped IsRef l →
    b.Scoped IsRef r → b.attempt n l r = some (false, c) → Reached (c.unwind b.mark)
  | unwind {b : Bindings} (mark : Nat) : Reached b → Reached (b.unwind mark)

theorem Reached.trailed_fits (h : b.Reached) : b.Trailed ∧ b.Fits IsRef := by
  induction h with
  | empty => exact ⟨.empty 0, .empty IsRef 0⟩
  | newVar _ ih => exact ⟨ih.1.newVar, ih.2.newVar⟩
  | unify _ hl hr hu ih =>
    have hu := unify_of_attempt hu
    exact ⟨(ih.1.unify hu).1, (unify_after ih.2 hl hr hu).fits⟩
  | fail _ _ _ hu ih => exact ⟨(ih.1.unwind_attempt hu).trailed ih.1, (ih.1.unwind_attempt hu).fits ih.2⟩
  | unwind mark _ ih => exact ⟨ih.1.unwind mark, ih.2.unwind mark⟩

/-- Unification is exact: a success leaves the assignments that make the two terms the same, a
failure means that there is none and leaves the manager as it was, and where there is one
unification comes to an end, with a success. -/
theorem unify_exact (hb : b.Reached) (hl : b.Scoped IsRef l) (hr : b.Scoped IsRef r) :
    (∀ n c, b.unify n l r = some (some c) →
      c.solutions = {s ∈ b.solutions | l.under s = r.under s}) ∧
    (∀ n, b.unify n l r = some none →
      (∀ s ∈ b.solutions, l.under s ≠ r.under s) ∧
        ∃ c, b.attempt n l r = some (false, c) ∧ b.Alike (c.unwind b.mark)) ∧
    (∀ s ∈ b.solutions, l.under s = r.under s → ∃ n c, b.unify n l r = some (some c)) := by
  obtain ⟨htrail, hfits⟩ := hb.trailed_fits
  refine ⟨fun n c hu => solutions_of_unify hfits hl hr hu, fun n hu => ⟨fun s hs hlr => ?_, ?_⟩,
    fun s hs hlr => ?_⟩
  · obtain ⟨c, e, -⟩ := mem_solutions_of_unify hfits hl hr hu hs hlr
    cases e
  · obtain ⟨c, hc⟩ := attempt_of_unify hu
    exact ⟨c, hc, htrail.unwind_attempt hc⟩
  · obtain ⟨c, hc, -⟩ := Valuation.unify_ends (settles_of_mem_solutions hfits hs).toObeys
      (Valuation.makes_ofAssignment hl) (hlr ▸ Valuation.makes_ofAssignment hr) (Nat.le_refl _)
    exact ⟨_, c, hc⟩

/-- Of two variables the younger was made the older one; then a compound term meets another in
which the older one stands twice. -/
theorem unify_exact_shared :
    let x := Term.ref 0
    let y := Term.ref 1
    let b : Bindings := Bindings.bind ⟨2, ∅, []⟩ 1 x
    let l := Term.app "f" [y, .app "g" [x]]
    let r := Term.app "f" [.node (.uri "a"), .app "g" [y]]
    b.Reached ∧ b.Scoped IsRef l ∧ b.Scoped IsRef r ∧
      ∃ c, b.unify 3 l r = some (some c) ∧ c.trail = [0, 1] ∧
        c.solutions = {s ∈ b.solutions | l.under s = r.under s} := by
  intro x y b l r
  have hx : (⟨2, ∅, []⟩ : Bindings).Scoped IsRef x := by simp [x, Scoped, Allowed, IsRef]
  have hy : (⟨2, ∅, []⟩ : Bindings).Scoped IsRef y := by simp [y, Scoped, Allowed, IsRef]
  have hb : b.Reached := .unify (.newVar (.newVar .empty)) hx hy (n := 1) rfl
  have hsize : b.size = 2 := rfl
  have hl : b.Scoped IsRef l := by simp [l, x, y, Scoped, Allowed, IsRef, hsize]
  have hr : b.Scoped IsRef r := by simp [r, y, Scoped, Allowed, IsRef, hsize]
  obtain ⟨c, hc⟩ : ∃ c, b.unify 3 l r = some (some c) ∧ c.trail = [0, 1] := ⟨_, rfl, rfl⟩
  exact ⟨hb, hl, hr, c, hc.1, hc.2, (unify_exact hb hl hr).1 3 c hc.1⟩

end Bindings

end TabledRules
