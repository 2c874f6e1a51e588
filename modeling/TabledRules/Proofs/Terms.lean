-- The leaves of terms: what holds of a term because of the variables and
-- wildcards that stand in it. A term is ground if it has none.
import Mathlib.Data.List.Forall2
import Mathlib.Tactic.Common
import TabledRules.Term.Variant

namespace TabledRules

/-! ## Functions that may have no value -/

theorem mapM_eq_some_iff {α β : Type} {f : α → Option β} {as : List α} {bs : List β} :
    as.mapM f = some bs ↔ List.Forall₂ (fun a b => f a = some b) as bs := by
  induction as generalizing bs with
  | nil => cases bs <;> simp
  | cons a as ih =>
    simp only [List.mapM_cons, Option.bind_eq_bind, Option.pure_def, Option.bind_eq_some_iff,
      Option.some.injEq]
    constructor
    · rintro ⟨b, hb, cs, hcs, rfl⟩
      exact .cons hb (ih.1 hcs)
    · intro h
      cases h with
      | cons h1 h2 => exact ⟨_, h1, _, ih.2 h2, rfl⟩

/-- Lists whose items are related to the same things, one by one. -/
theorem forall₂_iff_of_zip {α β : Type} {R : α → β → Prop} {as bs : List α}
    (hlen : as.length = bs.length) (h : ∀ e ∈ as.zip bs, ∀ c, R e.1 c ↔ R e.2 c) (cs : List β) :
    List.Forall₂ R as cs ↔ List.Forall₂ R bs cs := by
  induction as generalizing bs cs with
  | nil =>
    cases bs with
    | nil => rfl
    | cons => simp at hlen
  | cons a as ih =>
    cases bs with
    | nil => simp at hlen
    | cons b bs =>
      cases cs with
      | nil => simp
      | cons c cs =>
        rw [List.forall₂_cons, List.forall₂_cons, h (a, b) (by simp) c,
          ih (by simpa using hlen) (fun e he => h e (by simp only [List.zip_cons_cons, List.mem_cons, he, or_true]))]

/-- Every item on the left has one on the right. -/
theorem exists_right {α β : Type} {R : α → β → Prop} {as : List α} {bs : List β}
    (h : List.Forall₂ R as bs) {a : α} (ha : a ∈ as) : ∃ b ∈ bs, R a b := by
  induction h with
  | nil => cases ha
  | @cons a' b' as bs h1 _ ih =>
    rcases List.mem_cons.1 ha with rfl | ha
    · exact ⟨b', List.mem_cons_self, h1⟩
    · obtain ⟨b, hb, h2⟩ := ih ha
      exact ⟨b, List.mem_cons_of_mem _ hb, h2⟩

theorem exists_left {α β : Type} {R : α → β → Prop} {as : List α} {bs : List β}
    (h : List.Forall₂ R as bs) {b : β} (hb : b ∈ bs) : ∃ a ∈ as, R a b :=
  exists_right h.flip hb

theorem mapTerms?_eq_some_iff {f : Term → Option Term} {t u : Triple} :
    t.mapTerms? f = some u ↔
      f t.subject = some u.subject ∧ f t.predicate = some u.predicate ∧
        f t.object = some u.object := by
  obtain ⟨s, p, o⟩ := u
  cases h1 : f t.subject <;> cases h2 : f t.predicate <;> cases h3 : f t.object <;>
    simp [Triple.mapTerms?, h1, h2, h3]

namespace Term

/-! ## Leaves -/

theorem leavesOf_eq (ts : List Term) : leavesOf ts = ts.flatMap leaves := by
  induction ts with
  | nil => rfl
  | cons t ts ih => exact congrArg (t.leaves ++ ·) ih

@[simp] theorem leaves_node (n : Node) : (Term.node n).leaves = [] := rfl

@[simp] theorem leaves_var (x : String) : (Term.var x).leaves = [.var x] := rfl

@[simp] theorem leaves_ref (v : Nat) : (Term.ref v).leaves = [.ref v] := rfl

@[simp] theorem leaves_any : Term.any.leaves = [.any] := rfl

@[simp] theorem leaves_app (f : String) (ts : List Term) :
    (Term.app f ts).leaves = ts.flatMap leaves :=
  leavesOf_eq ts

/-- Induction over the parts of a term, where the arguments of a compound term are a
list. -/
theorem induct {P : Term → Prop} (node : ∀ n, P (.node n)) (var : ∀ x, P (.var x))
    (ref : ∀ v, P (.ref v)) (app : ∀ f ts, (∀ t ∈ ts, P t) → P (.app f ts)) (any : P .any) :
    ∀ t, P t
  | .node n => node n
  | .var x => var x
  | .ref v => ref v
  | .app f ts => app f ts fun t _ => induct node var ref app any t
  | .any => any
termination_by t => t
decreasing_by
  have := List.sizeOf_lt_of_mem ‹_›
  simp only [Term.app.sizeOf_spec]
  omega

/-- All leaves of the term have a property. -/
def Has (p : Term → Prop) (t : Term) : Prop := ∀ x ∈ t.leaves, p x

@[simp] theorem has_node (p : Term → Prop) (n : Node) : (Term.node n).Has p := by simp [Has]

@[simp] theorem has_ref {p : Term → Prop} {v : Nat} : (Term.ref v).Has p ↔ p (.ref v) := by
  simp [Has]

@[simp] theorem has_var {p : Term → Prop} {x : String} : (Term.var x).Has p ↔ p (.var x) := by
  simp [Has]

@[simp] theorem has_any {p : Term → Prop} : Term.any.Has p ↔ p .any := by simp [Has]

@[simp] theorem has_app {p : Term → Prop} {f : String} {ts : List Term} :
    (Term.app f ts).Has p ↔ ∀ t ∈ ts, t.Has p := by
  simp only [Has, leaves_app, List.mem_flatMap]
  exact ⟨fun h t ht x hx => h x ⟨t, ht, hx⟩, fun h x ⟨t, ht, hx⟩ => h t ht x hx⟩

theorem Has.mono {p q : Term → Prop} {t : Term} (h : ∀ x, p x → q x) (ht : t.Has p) : t.Has q :=
  fun x hx => h x (ht x hx)

/-! ## Ground terms -/

theorem areGround_iff (ts : List Term) : areGround ts = true ↔ ∀ t ∈ ts, t.isGround = true := by
  induction ts with
  | nil => simp [areGround]
  | cons t ts ih => simp [areGround, ih]

@[simp] theorem isGround_node (n : Node) : (Term.node n).isGround = true := rfl

@[simp] theorem isGround_ref (v : Nat) : (Term.ref v).isGround = false := rfl

@[simp] theorem isGround_var (x : String) : (Term.var x).isGround = false := rfl

@[simp] theorem isGround_any : Term.any.isGround = false := rfl

@[simp] theorem isGround_app {f : String} {ts : List Term} :
    (Term.app f ts).isGround = true ↔ ∀ t ∈ ts, t.isGround = true :=
  areGround_iff ts

theorem isGround_iff_leaves (t : Term) : t.isGround = true ↔ t.leaves = [] := by
  induction t using Term.induct with
  | app f ts ih => simpa using ⟨fun h t ht => (ih t ht).1 (h t ht), fun h t ht => (ih t ht).2 (h t ht)⟩
  | _ => simp

theorem Has.of_isGround {p : Term → Prop} {t : Term} (h : t.isGround = true) : t.Has p := by
  simp [Has, (isGround_iff_leaves t).1 h]

theorem mapVarsOf_eq (f : Term → Term) (ts : List Term) : mapVarsOf f ts = ts.map (mapVars f) := by
  induction ts with
  | nil => rfl
  | cons t ts ih => exact congrArg (t.mapVars f :: ·) ih

theorem mapVars_of_isGround (f : Term → Term) (t : Term) (h : t.isGround = true) :
    t.mapVars f = t := by
  induction t using Term.induct with
  | node n => simp [mapVars]
  | app g ts ih =>
    rw [mapVars, mapVarsOf_eq]
    congr 1
    exact List.map_congr_left (fun t ht => ih t ht (isGround_app.1 h t ht)) |>.trans (List.map_id _)
  | _ => simp at h

/-- A ground term answers to itself only. -/
theorem admits_iff_eq {a : Term} (ha : a.isGround = true) (b : Term) :
    a.admits b = true ↔ b = a := by
  induction a using Term.induct generalizing b with
  | node n => simp [admits, eq_comm]
  | app f as ih =>
    cases b with
    | app g bs =>
      have all : ∀ (as bs : List Term), (∀ a ∈ as, ∀ b, a.admits b = true ↔ b = a) →
          (as.length = bs.length ∧ admitsAll as bs = true ↔ bs = as) := by
        intro as
        induction as with
        | nil => intro bs _; cases bs <;> simp [admitsAll]
        | cons a as ih2 =>
          intro bs h
          cases bs with
          | nil => simp
          | cons b bs =>
            have htail := ih2 bs fun a ha => h a (List.mem_cons_of_mem _ ha)
            simp only [List.length_cons, Nat.add_right_cancel_iff, admitsAll, Bool.and_eq_true,
              h a List.mem_cons_self b, List.cons.injEq, ← htail]
            tauto
      rw [isGround_app] at ha
      have hall := all as bs fun a hm => ih a hm (ha a hm)
      simp only [admits, Bool.and_eq_true, decide_eq_true_eq, and_assoc, hall, app.injEq]
      tauto
    | _ => simp [admits]
  | _ => simp at ha

end Term

theorem Triple.isGround_iff {t : Triple} :
    t.isGround = true ↔ ∀ u ∈ t.terms, u.isGround = true := by
  simp [Triple.isGround, Triple.terms, and_assoc]

end TabledRules
