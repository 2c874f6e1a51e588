-- Bindings without a cycle, in whatever order they were made. What a term is
-- followed to is a value or an unbound variable, and every term has a value all
-- the way down. Each variable has a rank, how many variables its value leads to.
import Mathlib.Data.Finset.Card
import Mathlib.Data.Finset.Filter
import Mathlib.Data.Finset.Range
import Mathlib.Logic.Relation
import TabledRules.Proofs.Unify

namespace TabledRules.Bindings

variable {b b' : Bindings} {v u n : Nat} {t : Term}

/-- The value of the first variable has the second in it. -/
def Uses (b : Bindings) (v u : Nat) : Prop := ∃ t, b.value? v = some t ∧ .ref u ∈ t.leaves

/-- Values belong to variables that exist, and no variable leads back to itself. -/
structure CycleFree (b : Bindings) : Prop where
  bound_lt : ∀ {v t}, b.value? v = some t → v < b.size
  irrefl : ∀ v, ¬ Relation.TransGen b.Uses v v

open Classical in
/-- How many variables a variable leads to. -/
noncomputable def rank (b : Bindings) (v : Nat) : Nat :=
  ((Finset.range b.size).filter fun u => Relation.TransGen b.Uses v u).card

/-! ## Ranks -/

theorem CycleFree.rank_lt_size (h : b.CycleFree) (hv : v < b.size) : b.rank v < b.size := by
  classical
  have hlt : b.rank v < (Finset.range b.size).card := by
    apply Finset.card_lt_card
    rw [Finset.ssubset_iff_of_subset (Finset.filter_subset _ _)]
    refine ⟨v, Finset.mem_range.2 hv, ?_⟩
    rw [Finset.mem_filter]
    exact fun hmem => h.irrefl v hmem.2
  rwa [Finset.card_range] at hlt

/-- What a variable leads to is of a lower rank. -/
theorem CycleFree.rank_lt (h : b.CycleFree) (hu : u < b.size)
    (hvu : Relation.TransGen b.Uses v u) : b.rank u < b.rank v := by
  classical
  unfold rank
  apply Finset.card_lt_card
  rw [Finset.ssubset_iff_of_subset]
  · refine ⟨u, ?_, ?_⟩
    · exact Finset.mem_filter.2 ⟨Finset.mem_range.2 hu, hvu⟩
    · rw [Finset.mem_filter]
      exact fun hmem => h.irrefl u hmem.2
  · intro w hw
    rw [Finset.mem_filter] at hw ⊢
    exact ⟨hw.1, hvu.trans hw.2⟩

/-- Values that have older variables only make no cycle. -/
theorem cycleFree_of_older (hlt : ∀ v t, b.value? v = some t → v < b.size)
    (h : ∀ v u, b.Uses v u → u < v) : b.CycleFree := by
  refine ⟨fun {v t} hv => hlt v t hv, fun v hv => ?_⟩
  have hless : ∀ u, Relation.TransGen b.Uses v u → u < v := by
    intro u hu
    induction hu with
    | single huses => exact h _ _ huses
    | tail _ huses ih => exact Nat.lt_trans (h _ _ huses) ih
  exact Nat.lt_irrefl v (hless v hv)

/-! ## Ends -/

theorem CycleFree.isEnd_follow (h : b.CycleFree) (hv : b.rank v < n) :
    b.IsEnd (b.follow n (.ref v)) := by
  induction n generalizing v with
  | zero => omega
  | succ n ih =>
    rw [follow]
    cases hval : b.value? v with
    | none => simpa using hval
    | some t =>
      simp only
      by_cases ht : b.IsEnd t
      · rw [follow_of_isEnd n ht]
        exact ht
      · obtain ⟨u, hu⟩ := not_forall.1 ht
        obtain ⟨rfl, hbound⟩ := Classical.not_imp.1 hu
        obtain ⟨x, hx⟩ := Option.ne_none_iff_exists'.1 hbound
        have huses : b.Uses v u := ⟨_, hval, by simp⟩
        have hlt := h.rank_lt (h.bound_lt hx) (.single huses)
        apply ih
        omega

theorem CycleFree.isEnd_deref (h : b.CycleFree) (t : Term) : b.IsEnd (b.deref t) := by
  cases t with
  | ref v =>
    cases hval : b.value? v with
    | none =>
      rw [deref_ref_of_none hval]
      exact isEnd_ref.2 hval
    | some t => exact h.isEnd_follow (h.rank_lt_size (h.bound_lt hval))
  | _ =>
    rw [deref_of_ne_ref (by simp)]
    exact isEnd_of_ne_ref (by simp)

theorem CycleFree.unbound_of_deref (h : b.CycleFree) (hd : b.deref t = .ref v) :
    b.value? v = none :=
  isEnd_ref.1 (hd ▸ h.isEnd_deref t)

/-! ## Values -/

/-- What is met on the way to the end of a variable is used by the variable. -/
theorem uses_of_follow {x : Term} (h : b.follow n (.ref v) = x) (hx : ∀ u, x ≠ .ref u) :
    ∀ u, .ref u ∈ x.leaves → Relation.TransGen b.Uses v u := by
  induction n generalizing v with
  | zero =>
    intro u _
    exact absurd h.symm (hx v)
  | succ n ih =>
    intro u hu
    rw [follow] at h
    cases hval : b.value? v with
    | none =>
      rw [hval] at h
      exact absurd h.symm (hx v)
    | some t =>
      rw [hval] at h
      cases t with
      | ref w =>
        have huses : b.Uses v w := ⟨_, hval, by simp⟩
        exact .head huses (ih h u hu)
      | _ =>
        simp only at h
        rw [follow_of_ne_ref b n (by simp)] at h
        subst h
        exact .single ⟨_, hval, hu⟩

/-- The term has a value all the way down. -/
def HasValue (b : Bindings) (t : Term) : Prop := ∃ n x, b.deepDeref n t = some x

theorem hasValue_args {ts : List Term} (h : ∀ t ∈ ts, b.HasValue t) :
    ∃ n xs, List.Forall₂ (fun t x => b.deepDeref n t = some x) ts xs := by
  induction ts with
  | nil => exact ⟨0, [], .nil⟩
  | cons t ts ih =>
    rw [List.forall_mem_cons] at h
    obtain ⟨n, x, hx⟩ := h.1
    obtain ⟨m, xs, hxs⟩ := ih h.2
    refine ⟨max n m, x :: xs, .cons (deepDeref_mono (Nat.le_max_left n m) hx) ?_⟩
    exact hxs.imp fun _ _ h => deepDeref_mono (Nat.le_max_right n m) h

theorem hasValue_of_deref (h : ∀ f ts, b.deref t = .app f ts → ∀ x ∈ ts, b.HasValue x) :
    b.HasValue t := by
  cases hd : b.deref t with
  | app f ts =>
    obtain ⟨n, xs, hxs⟩ := hasValue_args (h f ts hd)
    refine ⟨n + 1, .app f xs, ?_⟩
    rw [deepDeref, hd]
    simp [mapM_eq_some_iff.2 hxs]
  | _ => exact ⟨1, _, by rw [deepDeref, hd]⟩

/-- A term has a value if its variables have. -/
theorem hasValue_of_leaves (h : ∀ v, .ref v ∈ t.leaves → b.HasValue (.ref v)) :
    b.HasValue t := by
  induction t using Term.induct with
  | app f ts ih =>
    apply hasValue_of_deref
    intro g us hd x hx
    rw [deref_app, Term.app.injEq] at hd
    obtain ⟨-, rfl⟩ := hd
    apply ih x hx
    intro v hv
    apply h
    simpa using ⟨x, hx, hv⟩
  | ref v => exact h v (by simp)
  | _ => exact ⟨1, _, by rw [deepDeref, deref_of_ne_ref (by simp)]⟩

/-- Without a cycle every term has a value. -/
theorem CycleFree.hasValue (h : b.CycleFree) (t : Term) : b.HasValue t := by
  have refs : ∀ n v, b.rank v < n → b.HasValue (.ref v) := by
    intro n
    induction n with
    | zero => omega
    | succ n ih =>
      intro v hv
      apply hasValue_of_deref
      intro f ts hd x hx
      apply hasValue_of_leaves
      intro u hu
      by_cases hlt : u < b.size
      · have hvu : Relation.TransGen b.Uses v u := by
          apply uses_of_follow hd (by simp)
          simpa using ⟨x, hx, hu⟩
        have hrank := h.rank_lt hlt hvu
        exact ih u (by omega)
      · have hnone : b.value? u = none := by
          cases e : b.value? u with
          | none => rfl
          | some y => exact absurd (h.bound_lt e) hlt
        exact ⟨1, .ref u, by rw [deepDeref, deref_ref_of_none hnone]⟩
  exact hasValue_of_leaves fun v _ => refs _ v (Nat.lt_succ_self _)

/-! ## More bindings -/

/-- A ground term makes no cycle. -/
theorem CycleFree.bind (h : b.CycleFree) (ht : t.isGround = true) : (b.bind v t).CycleFree := by
  by_cases hv : v < b.size
  · constructor
    · intro u x hu
      rw [value?_bind hv] at hu
      rw [size_bind]
      split at hu
      · next e => exact e ▸ hv
      · exact h.bound_lt hu
    · -- what is used now was used before
      have huses : ∀ u w, (b.bind v t).Uses u w → b.Uses u w := by
        rintro u w ⟨x, hx, hw⟩
        rw [value?_bind hv] at hx
        split at hx
        · cases hx
          rw [(Term.isGround_iff_leaves t).1 ht] at hw
          cases hw
        · exact ⟨x, hx, hw⟩
      intro u hu
      exact h.irrefl u (Relation.TransGen.mono huses u u hu)
  · rw [Bindings.bind, if_neg hv]
    exact h

/-- What is still an end under more bindings is where a term is followed to. -/
theorem Extends.deref_eq_of_isEnd (h : b.Extends b') (hend : b'.IsEnd (b.deref t)) :
    b'.deref t = b.deref t := by
  have follows : ∀ (k m : Nat) (t : Term), k ≤ m → b'.IsEnd (b.follow k t) →
      b'.follow m t = b.follow k t := by
    intro k
    induction k with
    | zero =>
      intro m t _ hend
      exact follow_of_isEnd m hend
    | succ k ih =>
      intro m t hle hend
      cases t with
      | ref v =>
        cases hval : b.value? v with
        | none =>
          have hself : b.follow (k + 1) (.ref v) = .ref v := by rw [follow, hval]
          rw [hself] at hend ⊢
          exact follow_of_isEnd m hend
        | some x =>
          obtain ⟨m, rfl⟩ : ∃ j, m = j + 1 := ⟨m - 1, by omega⟩
          have hstep : b.follow (k + 1) (.ref v) = b.follow k x := by rw [follow, hval]
          rw [hstep] at hend ⊢
          rw [follow, h.value hval]
          exact ih m x (by omega) hend
      | _ => exact follow_of_ne_ref b' m (by simp)
  exact follows b.size b'.size t h.size_le hend

/-- What was followed to a value has this value under more bindings. -/
theorem Extends.deref_eq_of_ne_ref (h : b.Extends b') (hne : ∀ v, b.deref t ≠ .ref v) :
    b'.deref t = b.deref t :=
  h.deref_eq_of_isEnd (isEnd_of_ne_ref hne)

end TabledRules.Bindings
