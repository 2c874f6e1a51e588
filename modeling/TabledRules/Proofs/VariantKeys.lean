-- Two patterns have one key if and only if they are variants of each other. What
-- a key is made of is the shape of a pattern, the pattern with all variables
-- taken out, and the list of its leaves, where the numbers say which are the same.
import Mathlib.Data.List.Nodup
import Mathlib.Data.Set.Function
import TabledRules.Proofs.Variants

namespace TabledRules

/-! ## Shapes -/

namespace Term

/-- The term with a wildcard in the place of every variable. -/
def shape (t : Term) : Term := t.mapVars fun _ => .any

variable {t u : Term}

theorem mapVars_app (f : Term → Term) (g : String) (ts : List Term) :
    (Term.app g ts).mapVars f = .app g (ts.map (mapVars f)) := by
  rw [mapVars, mapVarsOf_eq]

theorem mapVars_of_isVar (f : Term → Term) (h : t.isVar = true) : t.mapVars f = f t := by
  cases t with
  | node n => cases h
  | app g ts => cases h
  | _ => rfl

theorem leaves_of_isVar (h : t.isVar = true) : t.leaves = [t] := by
  cases t with
  | node n => cases h
  | app g ts => cases h
  | _ => rfl

theorem isVar_of_mem_leaves {x : Term} (h : x ∈ t.leaves) : x.isVar = true := by
  induction t using Term.induct with
  | node n => simp at h
  | app f ts ih =>
    simp only [leaves_app, List.mem_flatMap] at h
    obtain ⟨t, ht, hx⟩ := h
    exact ih t ht hx
  | _ =>
    simp at h
    rw [h]
    rfl

@[simp] theorem shape_node (n : Node) : (Term.node n).shape = .node n := by simp [shape, mapVars]

@[simp] theorem shape_app (f : String) (ts : List Term) :
    (Term.app f ts).shape = .app f (ts.map shape) :=
  mapVars_app _ _ _

theorem shape_of_isVar (h : t.isVar = true) : t.shape = .any :=
  mapVars_of_isVar _ h

theorem shape_eq_any (h : t.shape = .any) : t.isVar = true := by
  cases t with
  | node n => simp at h
  | app f ts => simp at h
  | _ => rfl

theorem mapVars_leaves {f : Term → Term} (hf : ∀ x ∈ t.leaves, (f x).isVar = true) :
    (t.mapVars f).shape = t.shape ∧ (t.mapVars f).leaves = t.leaves.map f := by
  induction t using Term.induct with
  | node n => simp [mapVars]
  | app g ts ih =>
    have each : ∀ t ∈ ts, (t.mapVars f).shape = t.shape ∧ (t.mapVars f).leaves = t.leaves.map f := by
      intro t ht
      apply ih t ht
      intro x hx
      apply hf
      simpa using ⟨t, ht, hx⟩
    rw [mapVars_app, shape_app, shape_app, leaves_app, leaves_app, List.map_map, List.map_flatMap,
      List.flatMap_map]
    constructor
    · congr 1
      exact List.map_congr_left fun t ht => (each t ht).1
    · exact List.flatMap_congr fun t ht => (each t ht).2
  | _ =>
    have hx := hf _ (List.mem_singleton.2 rfl)
    rw [mapVars_of_isVar _ rfl, shape_of_isVar hx, leaves_of_isVar hx]
    exact ⟨(shape_of_isVar rfl).symm, rfl⟩

theorem length_leaves_eq (h : t.shape = u.shape) : t.leaves.length = u.leaves.length := by
  have hlen : ∀ t : Term, t.shape.leaves.length = t.leaves.length := by
    intro t
    have hmap : t.shape.leaves = t.leaves.map fun _ => .any := (mapVars_leaves (by simp [isVar])).2
    rw [hmap, List.length_map]
  rw [← hlen t, ← hlen u, h]

/-- A term is its shape and its leaves. -/
theorem eq_of_shape (h : t.shape = u.shape) (hleaves : t.leaves = u.leaves) : t = u := by
  induction t using Term.induct generalizing u with
  | node n =>
    cases u with
    | node k => simpa using h
    | _ => simp [shape, mapVars] at h
  | app f ts ih =>
    cases u with
    | app g us =>
      have all : ∀ ts us : List Term, (∀ t ∈ ts, ∀ {u : Term}, t.shape = u.shape →
          t.leaves = u.leaves → t = u) → ts.map shape = us.map shape →
          ts.flatMap leaves = us.flatMap leaves → ts = us := by
        intro ts
        induction ts with
        | nil =>
          intro us _ hs _
          simpa using hs.symm
        | cons t ts ih2 =>
          intro us hts hs hl
          cases us with
          | nil => simp at hs
          | cons u us =>
            simp only [List.map_cons, List.cons.injEq] at hs
            simp only [List.flatMap_cons] at hl
            obtain ⟨h1, h2⟩ := List.append_inj hl (length_leaves_eq hs.1)
            rw [hts t List.mem_cons_self hs.1 h1,
              ih2 us (fun t ht => hts t (List.mem_cons_of_mem _ ht)) hs.2 h2]
      simp only [shape_app, app.injEq] at h
      rw [leaves_app, leaves_app] at hleaves
      rw [h.1, all ts us ih h.2 hleaves]
    | _ => simp [shape, mapVars] at h
  | _ =>
    have hu := shape_eq_any (h.symm.trans (shape_of_isVar rfl))
    rw [leaves_of_isVar hu] at hleaves
    simpa using hleaves

/-- There is a term of each shape with any leaves that are enough for it. -/
theorem exists_of_leaves (t : Term) (ys : List Term) (hlen : ys.length = t.leaves.length)
    (hys : ∀ y ∈ ys, y.isVar = true) : ∃ u : Term, u.shape = t.shape ∧ u.leaves = ys := by
  induction t using Term.induct generalizing ys with
  | node n => exact ⟨.node n, rfl, (List.length_eq_zero_iff.1 hlen).symm⟩
  | app f ts ih =>
    have all : ∀ (ts ys : List Term), (∀ t ∈ ts, ∀ ys : List Term,
        ys.length = t.leaves.length → (∀ y ∈ ys, y.isVar = true) →
        ∃ u : Term, u.shape = t.shape ∧ u.leaves = ys) →
        ys.length = (ts.flatMap leaves).length → (∀ y ∈ ys, y.isVar = true) →
        ∃ us : List Term, us.map shape = ts.map shape ∧ us.flatMap leaves = ys := by
      intro ts
      induction ts with
      | nil =>
        intro ys _ hlen _
        exact ⟨[], rfl, (List.length_eq_zero_iff.1 hlen).symm⟩
      | cons t ts ih2 =>
        intro ys hts hlen hys
        rw [List.flatMap_cons, List.length_append] at hlen
        obtain ⟨u, hu, hul⟩ := hts t List.mem_cons_self (ys.take t.leaves.length)
          (by rw [List.length_take]; omega) fun y hy => hys y (List.mem_of_mem_take hy)
        obtain ⟨us, hus, husl⟩ := ih2 (ys.drop t.leaves.length)
          (fun t ht => hts t (List.mem_cons_of_mem _ ht)) (by rw [List.length_drop]; omega)
          fun y hy => hys y (List.mem_of_mem_drop hy)
        refine ⟨u :: us, by rw [List.map_cons, List.map_cons, hu, hus], ?_⟩
        rw [List.flatMap_cons, hul, husl, List.take_append_drop]
    rw [leaves_app] at hlen
    obtain ⟨us, hus, husl⟩ := all ts ys ih hlen hys
    exact ⟨.app f us, by rw [shape_app, shape_app, hus], by rw [leaves_app, husl]⟩
  | _ =>
    obtain ⟨y, rfl⟩ := List.length_eq_one_iff.1 hlen
    have hy := hys y List.mem_cons_self
    exact ⟨y, by rw [shape_of_isVar hy, shape_of_isVar rfl], leaves_of_isVar hy⟩

end Term

/-! ## Numbers of leaves -/

/-- Two leaves are the same variable. A wildcard is not the same as any other. -/
def Same (x y : Term) : Prop := x = y ∧ x ≠ .any

/-- Where one list has the same variable twice, so has the other. -/
def Coherent (xs ys : List Term) : Prop :=
  (xs.zip ys).Pairwise fun p q => Same p.1 q.1 ↔ Same p.2 q.2

namespace Numbering

variable {n n' : Numbering} {x y : Term}

def find? (n : Numbering) (x : Term) : Option Nat :=
  if x = .any then none else n.known.lookup x

/-- The numbering where the leaf has got the next number. -/
def give (n : Numbering) (x : Term) : Numbering :=
  ⟨n.next + 1, if x = .any then n.known else (x, n.next) :: n.known⟩

theorem number_eq (n : Numbering) (x : Term) : n.number x =
    match n.find? x with
    | some i => (i, n)
    | none => (n.next, n.give x) := by
  by_cases hx : x = .any
  · subst hx
    rfl
  · cases e : n.known.lookup x with
    | none => simp [number_of_ne_any hx, find?, give, hx, e]
    | some i => simp [number_of_ne_any hx, find?, hx, e]

theorem find?_give (n : Numbering) (x y : Term) [Decidable (Same x y)] :
    (n.give x).find? y = if Same x y then some n.next else n.find? y := by
  unfold find? give
  by_cases hy : y = .any
  · rw [if_pos hy, if_pos hy, if_neg]
    rintro ⟨rfl, hx⟩
    exact hx hy
  · rw [if_neg hy, if_neg hy]
    by_cases hx : x = .any
    · rw [if_pos hx, if_neg fun h => h.2 hx]
    · rw [if_neg hx, List.lookup_cons]
      by_cases e : y = x
      · rw [if_pos ⟨e.symm, hx⟩, e, beq_self_eq_true]
      · rw [if_neg fun h => e h.1.symm, beq_false_of_ne e]

/-- No two variables have one number, and the next number is given to none. -/
structure Faithful (n : Numbering) : Prop where
  lt : ∀ {x i}, n.find? x = some i → i < n.next
  inj : ∀ {x y i}, n.find? x = some i → n.find? y = some i → x = y

theorem faithful_empty : Faithful {} := by
  have hnone : ∀ x, find? {} x = none := by
    intro x
    unfold find?
    split <;> rfl
  exact ⟨fun h => by simp [hnone] at h, fun h => by simp [hnone] at h⟩

theorem Faithful.give (h : n.Faithful) (x : Term) : (n.give x).Faithful := by
  classical
  constructor
  · intro y i hy
    rw [find?_give] at hy
    split at hy
    · cases hy
      exact Nat.lt_succ_self _
    · exact Nat.lt_succ_of_lt (h.lt hy)
  · intro y z i hy hz
    rw [find?_give] at hy hz
    split at hy
    · next hxy =>
      cases hy
      split at hz
      · next hxz => rw [← hxy.1, hxz.1]
      · exact absurd (h.lt hz) (Nat.lt_irrefl _)
    · split at hz
      · cases hz
        exact absurd (h.lt hy) (Nat.lt_irrefl _)
      · exact h.inj hy hz

/-- The numbers of leaves from left to right. -/
def numberAll (n : Numbering) : List Term → List Nat × Numbering
  | [] => ([], n)
  | x :: xs =>
    let (i, n) := n.number x
    let (is, n) := n.numberAll xs
    (i :: is, n)

theorem numberAll_append (n : Numbering) (xs ys : List Term) :
    n.numberAll (xs ++ ys) = ((n.numberAll xs).1 ++ ((n.numberAll xs).2.numberAll ys).1,
      ((n.numberAll xs).2.numberAll ys).2) := by
  induction xs generalizing n with
  | nil => rfl
  | cons x xs ih => simp [numberAll, ih]

/-- A variable that has a number is known by it. -/
theorem Faithful.same_iff (h : n.Faithful) {i : Nat} (hx : n.find? x = some i) :
    Same x y ↔ n.find? y = some i := by
  constructor
  · rintro ⟨rfl, -⟩
    exact hx
  · intro hy
    refine ⟨h.inj hx hy, ?_⟩
    rintro rfl
    cases hx

/-- Two lists get the same numbers if what has a number has the same one in both, and
where one has the same variable twice so has the other. -/
theorem numberAll_eq_iff (hn : n.Faithful) (hn' : n'.Faithful) (hnext : n.next = n'.next)
    {xs ys : List Term} (hlen : xs.length = ys.length) :
    (n.numberAll xs).1 = (n'.numberAll ys).1 ↔
      (∀ p ∈ xs.zip ys, n.find? p.1 = n'.find? p.2) ∧ Coherent xs ys := by
  classical
  induction xs generalizing ys n n' with
  | nil =>
    cases ys with
    | nil => simp [numberAll, Coherent]
    | cons y ys => simp at hlen
  | cons x xs ih =>
    cases ys with
    | nil => simp at hlen
    | cons y ys =>
      have hlen' : xs.length = ys.length := by simpa using hlen
      simp only [numberAll, number_eq, List.zip_cons_cons, List.forall_mem_cons, Coherent,
        List.pairwise_cons, List.cons.injEq]
      cases hx : n.find? x with
      | some i =>
        cases hy : n'.find? y with
        | some j =>
          -- what comes later is this variable if it is known by this number
          have hsame : i = j → (∀ p ∈ xs.zip ys, n.find? p.1 = n'.find? p.2) →
              ∀ p ∈ xs.zip ys, Same x p.1 ↔ Same y p.2 := by
            intro e h p hp
            rw [hn.same_iff hx, hn'.same_iff hy, h p hp, e]
          simp only [ih hn hn' hnext hlen', Coherent, Option.some.injEq]
          tauto
        | none =>
          have hlt := hn.lt hx
          have hne : i ≠ n'.next := by omega
          simp [hne]
      | none =>
        cases hy : n'.find? y with
        | some j =>
          have hlt := hn'.lt hy
          have hne : n.next ≠ j := by omega
          simp [hne]
        | none =>
          have hstep : ∀ p : Term × Term, (n.give x).find? p.1 = (n'.give y).find? p.2 ↔
              n.find? p.1 = n'.find? p.2 ∧ (Same x p.1 ↔ Same y p.2) := by
            intro p
            rw [find?_give, find?_give, hnext]
            by_cases h1 : Same x p.1
            · have hp1 : n.find? p.1 = none := h1.1 ▸ hx
              by_cases h2 : Same y p.2
              · have hp2 : n'.find? p.2 = none := h2.1 ▸ hy
                simp [h1, h2, hp1, hp2]
              · have hne : n'.find? p.2 ≠ some n'.next := fun h => Nat.lt_irrefl _ (hn'.lt h)
                simp [h1, h2, Ne.symm hne]
            · by_cases h2 : Same y p.2
              · have hne : n.find? p.1 ≠ some n.next := fun h => Nat.lt_irrefl _ (hn.lt h)
                rw [hnext] at hne
                simp [h1, h2, hne]
              · simp [h1, h2]
          simp only [ih (hn.give x) (hn'.give y) (congrArg (· + 1) hnext) hlen', hstep, Coherent,
            hnext, true_and, imp_and, forall_and, and_assoc]

end Numbering

/-! ## Keys -/

theorem Term.renumber_leaves {make : Nat → Term} (hmake : ∀ i, (make i).isVar = true) (t : Term)
    (n : Numbering) : (t.renumber make n).1.shape = t.shape ∧
      (t.renumber make n).1.leaves = (n.numberAll t.leaves).1.map make ∧
      (t.renumber make n).2 = (n.numberAll t.leaves).2 := by
  induction t using Term.induct generalizing n with
  | node k => exact ⟨rfl, rfl, rfl⟩
  | app f ts ih =>
    have all : ∀ (ts : List Term) (n : Numbering), (∀ t ∈ ts, ∀ n : Numbering,
        (t.renumber make n).1.shape = t.shape ∧
          (t.renumber make n).1.leaves = (n.numberAll t.leaves).1.map make ∧
          (t.renumber make n).2 = (n.numberAll t.leaves).2) →
        (Term.renumberAll make ts n).1.map Term.shape = ts.map Term.shape ∧
          (Term.renumberAll make ts n).1.flatMap Term.leaves =
            (n.numberAll (ts.flatMap Term.leaves)).1.map make ∧
          (Term.renumberAll make ts n).2 = (n.numberAll (ts.flatMap Term.leaves)).2 := by
      intro ts
      induction ts with
      | nil => exact fun n _ => ⟨rfl, rfl, rfl⟩
      | cons t ts ih2 =>
        intro n hts
        obtain ⟨h1, h2, h3⟩ := hts t List.mem_cons_self n
        obtain ⟨h4, h5, h6⟩ := ih2 (n.numberAll t.leaves).2 fun t ht =>
          hts t (List.mem_cons_of_mem _ ht)
        simp only [Term.renumberAll, List.map_cons, List.flatMap_cons, Numbering.numberAll_append,
          List.map_append, h1, h2, h3, h4, h5, h6, true_and]
    obtain ⟨h1, h2, h3⟩ := all ts n ih
    simp only [Term.renumber, Term.shape_app, Term.leaves_app, h1, h2, h3, true_and]
  | _ =>
    rw [Term.renumber_of_isVar rfl, Term.shape_of_isVar (hmake _), Term.leaves_of_isVar (hmake _),
      Term.shape_of_isVar rfl, Term.leaves_of_isVar rfl]
    exact ⟨rfl, rfl, rfl⟩

namespace Triple

variable {a b t u : Triple}

/-- The triple with a wildcard in the place of every variable. -/
def shape (t : Triple) : Triple := t.mapVars fun _ => .any

/-- The triple as one compound term. -/
def asTerm (t : Triple) : Term := .app "" [t.subject, t.predicate, t.object]

theorem asTerm_inj : t.asTerm = u.asTerm ↔ t = u := by
  cases t
  cases u
  simp [asTerm]

theorem asTerm_mapVars (f : Term → Term) (t : Triple) :
    (t.mapVars f).asTerm = t.asTerm.mapVars f := by
  simp [asTerm, mapVars, mapTerms, Term.mapVars_app]

theorem asTerm_leaves (t : Triple) : t.asTerm.leaves = t.leaves := by
  simp [asTerm, leaves]

theorem shape_eq_iff : t.shape = u.shape ↔ t.asTerm.shape = u.asTerm.shape := by
  rw [← asTerm_inj, shape, shape, asTerm_mapVars, asTerm_mapVars]
  rfl

theorem eq_of_shape (h : t.shape = u.shape) (hleaves : t.leaves = u.leaves) : t = u := by
  apply asTerm_inj.1
  apply Term.eq_of_shape (shape_eq_iff.1 h)
  rw [asTerm_leaves, asTerm_leaves, hleaves]

theorem length_leaves_eq (h : t.shape = u.shape) : t.leaves.length = u.leaves.length := by
  rw [← asTerm_leaves, ← asTerm_leaves]
  exact Term.length_leaves_eq (shape_eq_iff.1 h)

theorem isVar_of_mem_leaves {x : Term} (h : x ∈ t.leaves) : x.isVar = true :=
  Term.isVar_of_mem_leaves (asTerm_leaves t ▸ h)

theorem mapVars_leaves {f : Term → Term} (hf : ∀ x ∈ t.leaves, (f x).isVar = true) :
    (t.mapVars f).shape = t.shape ∧ (t.mapVars f).leaves = t.leaves.map f := by
  rw [← asTerm_leaves] at hf
  rw [shape_eq_iff, ← asTerm_leaves, ← asTerm_leaves, asTerm_mapVars]
  exact Term.mapVars_leaves hf

theorem exists_of_leaves (t : Triple) (ys : List Term) (hlen : ys.length = t.leaves.length)
    (hys : ∀ y ∈ ys, y.isVar = true) : ∃ u : Triple, u.shape = t.shape ∧ u.leaves = ys := by
  rw [← asTerm_leaves] at hlen
  obtain ⟨u, hshape, hleaves⟩ := Term.exists_of_leaves t.asTerm ys hlen hys
  cases u with
  | app f us =>
    simp only [asTerm, Term.shape_app, Term.app.injEq, List.map_cons, List.map_nil] at hshape
    obtain ⟨rfl, hus⟩ := hshape
    obtain ⟨s, us, rfl, hs, hus⟩ := List.map_eq_cons_iff.1 hus
    obtain ⟨p, us, rfl, hp, hus⟩ := List.map_eq_cons_iff.1 hus
    obtain ⟨o, us, rfl, ho, hus⟩ := List.map_eq_cons_iff.1 hus
    obtain rfl := List.map_eq_nil_iff.1 hus
    refine ⟨⟨s, p, o⟩, ?_, ?_⟩
    · rw [shape_eq_iff]
      simp [asTerm, hs, hp, ho]
    · rw [← asTerm_leaves]
      exact hleaves
  | _ => simp [asTerm, Term.shape, Term.mapVars] at hshape

/-- The key has the numbers of the leaves for leaves. -/
theorem variantKey_leaves (t : Triple) : t.variantKey.shape = t.shape ∧
    t.variantKey.leaves =
      (Numbering.numberAll {} t.leaves).1.map fun i => Term.var s!"_{i}" := by
  rw [shape_eq_iff, ← asTerm_leaves, ← asTerm_leaves]
  obtain ⟨h1, h2, -⟩ := t.asTerm.renumber_leaves names_var.isVar {}
  exact ⟨h1, h2⟩

theorem variantKey_eq_iff :
    a.variantKey = b.variantKey ↔ a.shape = b.shape ∧ Coherent a.leaves b.leaves := by
  obtain ⟨ha, hal⟩ := a.variantKey_leaves
  obtain ⟨hb, hbl⟩ := b.variantKey_leaves
  have hcoherent : a.shape = b.shape → (Coherent a.leaves b.leaves ↔
      (Numbering.numberAll {} a.leaves).1 = (Numbering.numberAll {} b.leaves).1) := by
    intro h
    rw [Numbering.numberAll_eq_iff Numbering.faithful_empty Numbering.faithful_empty rfl
      (length_leaves_eq h)]
    refine (and_iff_right fun p _ => ?_).symm
    unfold Numbering.find?
    split <;> split <;> rfl
  constructor
  · intro h
    have hshape : a.shape = b.shape := by rw [← ha, ← hb, h]
    refine ⟨hshape, (hcoherent hshape).2 ?_⟩
    have hleaves := congrArg leaves h
    rw [hal, hbl] at hleaves
    exact List.map_injective_iff.2 (fun _ _ => names_var.inj) hleaves
  · rintro ⟨hshape, h⟩
    apply eq_of_shape
    · rw [ha, hb, hshape]
    · rw [hal, hbl, (hcoherent hshape).1 h]

end Triple

/-! ## Variants -/

/-- A variable that has a name or a number. -/
def Term.IsName (t : Term) : Prop := t.isVar = true ∧ t ≠ .any

/-- The leaf `y` stands for the leaf `x` where `ys` are all leaves: it is the variable, or a
variable for the wildcard that is used nowhere else. -/
def StandsFor (ys : List Term) (x y : Term) : Prop :=
  if x = .any then y.IsName ∧ ys.count y = 1 else y = x

namespace Triple

/-- The other triple is this one with a variable of its own for every wildcard. -/
def Opens (t t' : Triple) : Prop :=
  t'.shape = t.shape ∧ List.Forall₂ (StandsFor t'.leaves) t.leaves t'.leaves

/-- The triples differ in the names of their variables only, where each wildcard is a
variable that is used nowhere else. -/
def Variant (a b : Triple) : Prop :=
  ∃ a' b', a.Opens a' ∧ b.Opens b' ∧ ∃ ρ : Term → Term,
    (∀ x ∈ a'.leaves, (ρ x).IsName) ∧ Set.InjOn ρ {x | x ∈ a'.leaves} ∧ a'.mapVars ρ = b'

end Triple

section

variable {xs ys zs : List Term} {a b t t' : Triple}

/-- A variable that is used once is not the same as a later one. -/
theorem coherent_of_standsFor (h : List.Forall₂ (StandsFor zs) xs ys) (hsub : ys.Sublist zs) :
    Coherent xs ys := by
  induction h with
  | nil => exact .nil
  | @cons x y xs ys hxy hrest ih =>
    have hcount : ∀ w ∈ ys, y = w → zs.count y ≠ 1 := by
      intro w hw e
      have hle := hsub.count_le y
      have hpos := List.count_pos_iff.2 (e ▸ hw)
      rw [List.count_cons_self] at hle
      omega
    refine List.pairwise_cons.2 ⟨?_, ih ((List.sublist_cons_self y ys).trans hsub)⟩
    rintro ⟨z, w⟩ hp
    have hzw := List.forall₂_zip hrest hp
    have hw := (List.of_mem_zip hp).2
    unfold StandsFor at hxy hzw
    split at hxy
    · next hx =>
      refine iff_of_false (fun h => h.2 hx) fun h => ?_
      exact hcount w hw h.1 hxy.2
    · split at hzw
      · next hx hz =>
        refine iff_of_false (fun h => hx (h.1.trans hz)) fun h => ?_
        apply hcount w hw h.1
        have e : y = w := h.1
        rw [e]
        exact hzw.2
      · rw [hxy, hzw]

theorem coherent_map {ρ : Term → Term} (hxs : ∀ x ∈ xs, x ≠ .any) (hρ : ∀ x ∈ xs, ρ x ≠ .any)
    (hinj : Set.InjOn ρ {x | x ∈ xs}) : Coherent xs (xs.map ρ) := by
  unfold Coherent
  rw [← List.map_prod_left_eq_zip, List.pairwise_map]
  refine List.pairwise_of_forall_mem_list fun x hx z hz => ?_
  constructor
  · rintro ⟨e, -⟩
    exact ⟨congrArg ρ e, hρ x hx⟩
  · rintro ⟨e, -⟩
    exact ⟨hinj hx hz e, hxs x hx⟩

/-- Two lists of variables that are coherent differ by a renaming. -/
theorem exists_renaming (hlen : xs.length = ys.length) (hxs : ∀ x ∈ xs, x ≠ .any)
    (hys : ∀ y ∈ ys, y ≠ .any) (h : Coherent xs ys) :
    ∃ ρ : Term → Term, Set.InjOn ρ {x | x ∈ xs} ∧ xs.map ρ = ys := by
  induction xs generalizing ys with
  | nil => exact ⟨id, by simp, (List.length_eq_zero_iff.1 hlen.symm).symm⟩
  | cons x xs ih =>
    cases ys with
    | nil => simp at hlen
    | cons y ys =>
      obtain ⟨hhead, htail⟩ := List.pairwise_cons.1 h
      rw [List.forall_mem_cons] at hxs hys
      obtain ⟨ρ, hinj, rfl⟩ := ih (by simpa using hlen) hxs.2 hys.2 htail
      have hsame : ∀ z ∈ xs, x = z ↔ y = ρ z := by
        intro z hz
        have hp : (z, ρ z) ∈ xs.zip (xs.map ρ) := by
          rw [← List.map_prod_left_eq_zip]
          exact List.mem_map_of_mem hz
        have hiff := hhead (z, ρ z) hp
        exact ⟨fun e => (hiff.1 ⟨e, hxs.1⟩).1, fun e => (hiff.2 ⟨e, hys.1⟩).1⟩
      by_cases hx : x ∈ xs
      · refine ⟨ρ, hinj.mono fun z hz => ?_, ?_⟩
        · rcases List.mem_cons.1 hz with rfl | hz
          · exact hx
          · exact hz
        · rw [List.map_cons, ← (hsame x hx).1 rfl]
      · have hold : ∀ z ∈ xs, Function.update ρ x y z = ρ z := by
          intro z hz
          apply Function.update_of_ne
          rintro rfl
          exact hx hz
        have hset : {z | z ∈ x :: xs} = insert x {z | z ∈ xs} := by
          ext z
          simp
        have hx' : x ∉ {z | z ∈ xs} := hx
        refine ⟨Function.update ρ x y, ?_, ?_⟩
        · rw [hset, Set.injOn_insert hx']
          refine ⟨fun z hz w hw e => ?_, ?_⟩
          · rw [hold z hz, hold w hw] at e
            exact hinj hz hw e
          · rintro ⟨z, hz, e⟩
            rw [hold z hz, Function.update_self] at e
            have hxz := (hsame z hz).2 e.symm
            exact hx (hxz ▸ hz)
        · rw [List.map_cons, Function.update_self, List.map_congr_left hold]

theorem exists_above (xs : List Term) : ∃ N, ∀ v, .ref v ∈ xs → v < N := by
  induction xs with
  | nil => exact ⟨0, by simp⟩
  | cons x xs ih =>
    obtain ⟨N, hN⟩ := ih
    cases x with
    | ref u =>
      refine ⟨max N (u + 1), fun v hv => ?_⟩
      rcases List.mem_cons.1 hv with e | hv
      · cases e
        omega
      · have := hN v hv
        omega
    | _ => exact ⟨N, fun v hv => hN v (by simpa using hv)⟩

/-- The leaf at a place, or for a wildcard the variable with the number of the place past `N`. -/
def nameAt (N : Nat) (p : Term × Nat) : Term := if p.1 = .any then .ref (N + p.2) else p.1

theorem nameAt_any (N i : Nat) : nameAt N (.any, i) = .ref (N + i) :=
  if_pos rfl

theorem nameAt_isName {N : Nat} {p : Term × Nat} (h : p.1.isVar = true) : (nameAt N p).IsName := by
  unfold nameAt
  split
  · exact ⟨rfl, fun e => by cases e⟩
  · next hp => exact ⟨h, hp⟩

theorem count_nameAt {N : Nat} (hN : ∀ v, .ref v ∈ xs → v < N) (i : Nat) :
    (xs.zipIdx.map (nameAt N)).count (.ref (N + i)) = xs.zipIdx.count (.any, i) := by
  unfold List.count
  rw [List.countP_map]
  refine List.countP_congr fun p hp => ?_
  simp only [Function.comp_apply, beq_iff_eq]
  obtain ⟨x, k⟩ := p
  unfold nameAt
  by_cases hx : x = .any
  · simp [hx]
  · have hne : x ≠ .ref (N + i) := by
      rintro rfl
      have hlt := hN _ (List.fst_mem_of_mem_zipIdx hp)
      omega
    simp [hx, hne]

theorem nodup_zipIdx (xs : List Term) : xs.zipIdx.Nodup := by
  apply List.Nodup.of_map Prod.snd
  rw [List.zipIdx_map_snd]
  exact List.nodup_range'

/-- There is a variable for every wildcard. -/
theorem exists_standsFor (xs : List Term) (hxs : ∀ x ∈ xs, x.isVar = true) :
    ∃ ys : List Term, (∀ y ∈ ys, y.IsName) ∧ List.Forall₂ (StandsFor ys) xs ys := by
  obtain ⟨N, hN⟩ := exists_above xs
  refine ⟨xs.zipIdx.map (nameAt N), fun y hy => ?_, ?_⟩
  · obtain ⟨p, hp, rfl⟩ := List.mem_map.1 hy
    exact nameAt_isName (hxs p.1 (List.fst_mem_of_mem_zipIdx hp))
  · rw [List.forall₂_iff_get]
    refine ⟨by simp, fun i hi hi' => ?_⟩
    have hget : (xs.zipIdx.map (nameAt N)).get ⟨i, hi'⟩ = nameAt N (xs[i], i) := by simp
    have hmem : (xs[i], i) ∈ xs.zipIdx := by
      rw [List.mem_zipIdx_iff_getElem?]
      exact List.getElem?_eq_getElem hi
    rw [hget, List.get_eq_getElem]
    unfold StandsFor
    split
    · next hx =>
      rw [hx] at hmem ⊢
      refine ⟨nameAt_isName rfl, ?_⟩
      rw [nameAt_any, count_nameAt hN]
      exact List.count_eq_one_of_mem (nodup_zipIdx xs) hmem
    · next hx => exact if_neg hx

namespace Triple

theorem exists_opens (t : Triple) :
    ∃ t' : Triple, t.Opens t' ∧ ∀ x ∈ t'.leaves, x.IsName := by
  obtain ⟨ys, hys, hstands⟩ := exists_standsFor t.leaves fun x hx => isVar_of_mem_leaves hx
  obtain ⟨t', hshape, rfl⟩ := t.exists_of_leaves ys hstands.length_eq.symm fun y hy => (hys y hy).1
  exact ⟨t', ⟨hshape, hstands⟩, hys⟩

/-- To name the wildcards does not change the key. -/
theorem Opens.variantKey_eq (h : t.Opens t') : t.variantKey = t'.variantKey :=
  variantKey_eq_iff.2 ⟨h.1.symm, coherent_of_standsFor h.2 (List.Sublist.refl _)⟩

theorem Opens.isName (h : t.Opens t') : ∀ y ∈ t'.leaves, y.IsName := by
  intro y hy
  obtain ⟨x, -, hxy⟩ := exists_left h.2 hy
  unfold StandsFor at hxy
  split at hxy
  · exact hxy.1
  · next hx => exact ⟨isVar_of_mem_leaves hy, hxy ▸ hx⟩

theorem Variant.variantKey_eq (h : a.Variant b) : a.variantKey = b.variantKey := by
  obtain ⟨a', b', ha, hb, ρ, hname, hinj, rfl⟩ := h
  obtain ⟨hshape, hleaves⟩ := mapVars_leaves (t := a') fun x hx => (hname x hx).1
  rw [ha.variantKey_eq, hb.variantKey_eq, variantKey_eq_iff, hshape, hleaves]
  refine ⟨rfl, coherent_map (fun x hx => (ha.isName x hx).2) (fun x hx => (hname x hx).2) hinj⟩

theorem variant_of_variantKey_eq (h : a.variantKey = b.variantKey) : a.Variant b := by
  obtain ⟨a', ha, hnamesa⟩ := a.exists_opens
  obtain ⟨b', hb, hnamesb⟩ := b.exists_opens
  rw [ha.variantKey_eq, hb.variantKey_eq, variantKey_eq_iff] at h
  obtain ⟨hshape, hcoherent⟩ := h
  obtain ⟨ρ, hinj, hmap⟩ := exists_renaming (length_leaves_eq hshape)
    (fun x hx => (hnamesa x hx).2) (fun y hy => (hnamesb y hy).2) hcoherent
  have hname : ∀ x ∈ a'.leaves, (ρ x).IsName := by
    intro x hx
    apply hnamesb
    rw [← hmap]
    exact List.mem_map_of_mem hx
  obtain ⟨hshape', hleaves⟩ := mapVars_leaves (t := a') fun x hx => (hname x hx).1
  refine ⟨a', b', ha, hb, ρ, hname, hinj, ?_⟩
  exact eq_of_shape (hshape'.trans hshape) (hleaves.trans hmap)

/-- The key of a pattern says of which patterns it is a variant, and nothing else. -/
theorem variantKey_exact (a b : Triple) : (a.variantKey = b.variantKey ↔ a.Variant b) ∧
    a.variantKey.variantKey = a.variantKey :=
  ⟨⟨variant_of_variantKey_eq, Variant.variantKey_eq⟩, variantKey_variantKey a⟩

end Triple

end

end TabledRules
