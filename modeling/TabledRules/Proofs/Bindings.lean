-- The theory of bindings. In bindings that are `Ordered` a variable is bound
-- to older variables only, so that every chain of variables ends. From
-- then on a term is looked at through `deref`, and the order is not
-- needed any more.
import TabledRules.Bindings
import TabledRules.Proofs.Terms

namespace TabledRules.Bindings

variable {b b' : Bindings} {v u n : Nat} {t x : Term}

/-! ## What the operations do to the values -/

@[simp] theorem value?_grow (b : Bindings) (n v : Nat) : (b.grow n).value? v = b.value? v := rfl

@[simp] theorem size_grow (b : Bindings) (n : Nat) : (b.grow n).size = max b.size n := rfl

@[simp] theorem size_bind (b : Bindings) (v : Nat) (t : Term) : (b.bind v t).size = b.size := by
  unfold bind; split <;> rfl

@[simp] theorem size_newVar (b : Bindings) : b.newVar.2.size = b.size + 1 := rfl

@[simp] theorem value?_newVar (b : Bindings) (v : Nat) : b.newVar.2.value? v = b.value? v := rfl

theorem value?_bind (h : v < b.size) (t : Term) (u : Nat) :
    (b.bind v t).value? u = if v = u then some t else b.value? u := by
  simp only [bind, h, if_true, value?, Std.TreeMap.getElem?_insert, Std.LawfulEqCmp.compare_eq_iff_eq]

@[simp] theorem value?_empty (n v : Nat) : (⟨n, ∅, []⟩ : Bindings).value? v = none := by
  simp [value?]

/-! ## Chains of variables -/

/-- Values belong to variables that exist, and a variable is bound to older ones. -/
structure Ordered (b : Bindings) : Prop where
  bound_lt : ∀ {v t}, b.value? v = some t → v < b.size
  older : ∀ {v u}, b.value? v = some (.ref u) → u < v

/-- The term is not a variable with a value. -/
def IsEnd (b : Bindings) (t : Term) : Prop := ∀ v, t = .ref v → b.value? v = none

theorem Ordered.empty (n : Nat) : (⟨n, ∅, []⟩ : Bindings).Ordered :=
  ⟨fun h => by simp at h, fun h => by simp at h⟩

theorem Ordered.grow (h : b.Ordered) (n : Nat) : (b.grow n).Ordered :=
  ⟨fun hv => Nat.lt_of_lt_of_le (h.bound_lt hv) (Nat.le_max_left _ _), fun hv => h.older hv⟩

theorem Ordered.newVar (h : b.Ordered) : b.newVar.2.Ordered :=
  ⟨fun hv => Nat.lt_succ_of_lt (h.bound_lt hv), fun hv => h.older hv⟩

/-- A variable that does not exist is left alone. -/
theorem Ordered.bind (h : b.Ordered) (ht : ∀ u, t = .ref u → u < v) : (b.bind v t).Ordered := by
  by_cases hlt : v < b.size
  · refine ⟨fun {w r} hw => ?_, fun {w r} hw => ?_⟩ <;> rw [value?_bind hlt] at hw
    · rw [size_bind]
      split at hw
      · next e => exact e ▸ hlt
      · exact h.bound_lt hw
    · split at hw
      · next e => exact e ▸ ht r (by simpa using hw)
      · exact h.older hw
  · rw [Bindings.bind, if_neg hlt]
    exact h

theorem isEnd_of_ne_ref (h : ∀ v, t ≠ .ref v) : b.IsEnd t := fun v e => absurd e (h v)

@[simp] theorem isEnd_ref : b.IsEnd (.ref v) ↔ b.value? v = none :=
  ⟨fun h => h v rfl, fun h _ e => by cases e; exact h⟩

theorem follow_of_ne_ref (b : Bindings) (n : Nat) (h : ∀ v, t ≠ .ref v) : b.follow n t = t := by
  cases n with
  | zero => rfl
  | succ n => cases t <;> first | rfl | exact absurd rfl (h _)

theorem follow_of_isEnd (n : Nat) (h : b.IsEnd t) : b.follow n t = t := by
  cases n with
  | zero => rfl
  | succ n =>
    cases t with
    | ref v => rw [follow, isEnd_ref.1 h]
    | _ => rfl

/-- A chain from `v` is at most `v` steps long, so more steps make no difference. -/
theorem follow_add (h : b.Ordered) (hv : v < n) (k : Nat) :
    b.follow (n + k) (.ref v) = b.follow n (.ref v) := by
  induction n generalizing v with
  | zero => omega
  | succ n ih =>
    rw [Nat.succ_add, follow, follow]
    cases hval : b.value? v with
    | none => rfl
    | some t =>
      cases t with
      | ref u => exact ih (by have := h.older hval; omega)
      | _ => simp only [follow_of_ne_ref, ne_eq, reduceCtorEq, not_false_eq_true, implies_true]

theorem isEnd_follow (h : b.Ordered) (hv : v < n) : b.IsEnd (b.follow n (.ref v)) := by
  induction n generalizing v with
  | zero => omega
  | succ n ih =>
    rw [follow]
    cases hval : b.value? v with
    | none => simpa using hval
    | some t =>
      cases t with
      | ref u => exact ih (by have := h.older hval; omega)
      | _ =>
        simp only
        rw [follow_of_ne_ref b n (by simp)]
        exact isEnd_of_ne_ref (by simp)

theorem deref_of_isEnd (h : b.IsEnd t) : b.deref t = t := follow_of_isEnd _ h

theorem deref_of_ne_ref (h : ∀ v, t ≠ .ref v) : b.deref t = t := follow_of_ne_ref _ _ h

@[simp] theorem deref_node (n : Node) : b.deref (.node n) = .node n := deref_of_ne_ref (by simp)

@[simp] theorem deref_app (f : String) (ts : List Term) : b.deref (.app f ts) = .app f ts :=
  deref_of_ne_ref (by simp)

@[simp] theorem deref_any : b.deref .any = .any := deref_of_ne_ref (by simp)

@[simp] theorem deref_var (x : String) : b.deref (.var x) = .var x := deref_of_ne_ref (by simp)

theorem deref_ref_of_none (h : b.value? v = none) : b.deref (.ref v) = .ref v :=
  deref_of_isEnd (isEnd_ref.2 h)

theorem deref_ref_of_some (h : b.Ordered) (hv : b.value? v = some t) :
    b.deref (.ref v) = b.deref t := by
  have hlt := h.bound_lt hv
  obtain ⟨k, hk⟩ : ∃ k, b.size = k + 1 := ⟨b.size - 1, by omega⟩
  have hstep : b.deref (.ref v) = b.follow k t := by
    rw [deref, hk, follow, hv]
  cases t with
  | ref u =>
    have hu := h.older hv
    rw [hstep, deref, hk, follow_add h (by omega) 1]
  | _ => rw [hstep, follow_of_ne_ref b k (by simp), deref_of_ne_ref (by simp)]

theorem isEnd_deref (h : b.Ordered) (t : Term) : b.IsEnd (b.deref t) := by
  cases t with
  | ref v =>
    cases hval : b.value? v with
    | none => rw [deref_ref_of_none hval]; exact isEnd_ref.2 hval
    | some t => exact isEnd_follow h (h.bound_lt hval)
  | _ =>
    rw [deref_of_ne_ref (by simp)]
    exact isEnd_of_ne_ref (by simp)

@[simp] theorem deref_deref (h : b.Ordered) (t : Term) : b.deref (b.deref t) = b.deref t :=
  deref_of_isEnd (isEnd_deref h t)

theorem value?_of_deref_eq_ref (h : b.Ordered) (hd : b.deref t = .ref v) : b.value? v = none :=
  isEnd_ref.1 (hd ▸ isEnd_deref h t)

/-- Induction along chains of variables. -/
theorem Ordered.chain_induct (h : b.Ordered) {P : Term → Prop} (stop : ∀ t, b.IsEnd t → P t)
    (link : ∀ v t, b.value? v = some t → P t → P (.ref v)) : ∀ t, P t := by
  have refs : ∀ n v, v < n → P (.ref v) := by
    intro n
    induction n with
    | zero => omega
    | succ n ih =>
      intro v hv
      cases hval : b.value? v with
      | none => exact stop _ (isEnd_ref.2 hval)
      | some t =>
        cases t with
        | ref u => exact link v _ hval (ih u (by have := h.older hval; omega))
        | _ => exact link v _ hval (stop _ (isEnd_of_ne_ref (by simp)))
  intro t
  cases t with
  | ref v => exact refs _ v (Nat.lt_succ_self v)
  | _ => exact stop _ (isEnd_of_ne_ref (by simp))

/-! ## Binding a variable -/

/-- The unbound variable `v` may be bound to `t`, which is followed to its end. -/
structure CanBind (b : Bindings) (v : Nat) (t : Term) : Prop where
  exists_var : v < b.size
  unbound : b.value? v = none
  isEnd : b.IsEnd t
  older : ∀ u, t = .ref u → u < v

theorem CanBind.ne_ref (h : b.CanBind v t) : t ≠ .ref v :=
  fun e => Nat.lt_irrefl _ (h.older v e)

theorem CanBind.ordered (h : b.CanBind v t) (ho : b.Ordered) : (b.bind v t).Ordered :=
  ho.bind h.older

theorem CanBind.isEnd_bind (h : b.CanBind v t) (hx : b.IsEnd x) (hne : x ≠ .ref v) :
    (b.bind v t).IsEnd x := by
  rintro u rfl
  rw [value?_bind h.exists_var, if_neg (by rintro rfl; exact hne rfl)]
  exact isEnd_ref.1 hx

theorem CanBind.deref_bind (h : b.CanBind v t) (ho : b.Ordered) (x : Term) :
    (b.bind v t).deref x = if b.deref x = .ref v then t else b.deref x := by
  have hself : (b.bind v t).deref t = t := deref_of_isEnd (h.isEnd_bind h.isEnd h.ne_ref)
  induction x using ho.chain_induct with
  | stop x hx =>
    rw [deref_of_isEnd hx]
    split
    · next e =>
      subst e
      rw [deref_ref_of_some (h.ordered ho) (by rw [value?_bind h.exists_var, if_pos rfl]), hself]
    · next hne => exact deref_of_isEnd (h.isEnd_bind hx hne)
  | link u r hu ih =>
    have huv : v ≠ u := by rintro rfl; rw [h.unbound] at hu; cases hu
    rw [deref_ref_of_some ho hu, ← ih]
    exact deref_ref_of_some (h.ordered ho) (by rw [value?_bind h.exists_var, if_neg huv, hu])

/-- Two variables that are made one: the younger is bound to the older. -/
theorem merge_eq_bind (b : Bindings) {v u : Nat} (h : v ≠ u) :
    b.merge v u = b.bind (max v u) (.ref (min v u)) := by
  unfold merge
  rw [if_neg h]
  split
  · next hlt => rw [Nat.max_eq_left (Nat.le_of_lt hlt), Nat.min_eq_right (Nat.le_of_lt hlt)]
  · next hlt =>
    have hle : v ≤ u := by omega
    rw [Nat.max_eq_right hle, Nat.min_eq_left hle]

theorem canBind_merge (hv : v < b.size) (hu : u < b.size) (hvn : b.value? v = none)
    (hun : b.value? u = none) (h : v ≠ u) : b.CanBind (max v u) (.ref (min v u)) := by
  rcases Nat.lt_or_gt_of_ne h with hlt | hlt
  · rw [Nat.max_eq_right (Nat.le_of_lt hlt), Nat.min_eq_left (Nat.le_of_lt hlt)]
    exact ⟨hu, hun, isEnd_ref.2 hvn, fun w e => by cases e; exact hlt⟩
  · rw [Nat.max_eq_left (Nat.le_of_lt hlt), Nat.min_eq_right (Nat.le_of_lt hlt)]
    exact ⟨hv, hvn, isEnd_ref.2 hun, fun w e => by cases e; exact hlt⟩

/-! ## More bindings -/

/-- Variables keep their values, and unbound ones may get one. -/
structure Extends (b b' : Bindings) : Prop where
  size_le : b.size ≤ b'.size
  value : ∀ {v t}, b.value? v = some t → b'.value? v = some t

theorem Extends.refl (b : Bindings) : b.Extends b := ⟨Nat.le_refl _, id⟩

theorem Extends.trans {b'' : Bindings} (h : b.Extends b') (h' : b'.Extends b'') : b.Extends b'' :=
  ⟨Nat.le_trans h.size_le h'.size_le, fun hv => h'.value (h.value hv)⟩

theorem Extends.grow (b : Bindings) (n : Nat) : b.Extends (b.grow n) := ⟨Nat.le_max_left _ _, id⟩

theorem Extends.newVar (b : Bindings) : b.Extends b.newVar.2 := ⟨Nat.le_succ _, id⟩

theorem CanBind.keeps (h : b.CanBind v t) : b.Extends (b.bind v t) := by
  refine ⟨by simp, fun {u r} hu => ?_⟩
  rw [value?_bind h.exists_var, if_neg ?_]
  · exact hu
  · rintro rfl
    rw [h.unbound] at hu
    cases hu

/-- What a term was followed to under fewer bindings has the same end. -/
theorem Extends.deref_deref (h : b.Extends b') (ho : b.Ordered) (ho' : b'.Ordered) (t : Term) :
    b'.deref (b.deref t) = b'.deref t := by
  induction t using ho.chain_induct with
  | stop t ht => rw [deref_of_isEnd ht]
  | link v t hv ih => rw [deref_ref_of_some ho hv, ih, deref_ref_of_some ho' (h.value hv)]

/-- Every value of a variable has a property of leaves. -/
def ValuesHave (b : Bindings) (p : Term → Prop) : Prop := ∀ v t, b.value? v = some t → t.Has p

theorem ValuesHave.deref {p : Term → Prop} (h : b.ValuesHave p) (ho : b.Ordered) (ht : t.Has p) :
    (b.deref t).Has p := by
  induction t using ho.chain_induct with
  | stop t hend => rwa [deref_of_isEnd hend]
  | link v t hv ih => rw [deref_ref_of_some ho hv]; exact ih (h v t hv)

theorem ValuesHave.bind {p : Term → Prop} (h : b.ValuesHave p) (ht : t.Has p) :
    (b.bind v t).ValuesHave p := by
  intro u r hu
  by_cases hv : v < b.size
  · rw [value?_bind hv] at hu
    split at hu
    · cases hu; exact ht
    · exact h u r hu
  · rw [Bindings.bind, if_neg hv] at hu
    exact h u r hu

theorem ValuesHave.mono {p q : Term → Prop} (h : b.ValuesHave p) (hpq : ∀ x, p x → q x) :
    b.ValuesHave q := fun v t hv => (h v t hv).mono hpq

end TabledRules.Bindings
