-- Two bindings that say the same of terms, though their variables differ in
-- number and in age. Of two variables that become one it is then the older that
-- stays, another one on each side, so terms are compared by where they end.
import TabledRules.Proofs.RenamedRules

namespace TabledRules

open Bindings

/-! ## Terms of one shape -/

/-- Which terms of the one side stand for which of the other. -/
abbrev Pairing := Term → Term → Prop

/-- Two ends are of one kind, and `R` pairs their parts. -/
inductive Term.Shape (R : Pairing) : Term → Term → Prop
  | node (c : Node) : Shape R (.node c) (.node c)
  | app (f : String) {ts ts' : List Term} : List.Forall₂ R ts ts' → Shape R (.app f ts) (.app f ts')
  | ref (v v' : Nat) : Shape R (.ref v) (.ref v')

/-- One more pair. -/
def Pairing.insert (S : Pairing) (t t' : Term) : Pairing := fun u u' => S u u' ∨ u = t ∧ u' = t'

/-- The triples are paired term by term. -/
structure Pairing.Triples (S : Pairing) (t t' : Triple) : Prop where
  subject : S t.subject t'.subject
  predicate : S t.predicate t'.predicate
  object : S t.object t'.object

section

variable {S R R' : Pairing} {t t' : Term} {v : Nat}

theorem Term.Shape.mono (h : t.Shape R t') (hR : R ≤ R') : t.Shape R' t' := by
  cases h with
  | node c => exact .node c
  | app f hts => exact .app f (hts.imp fun u u' => hR u u')
  | ref v v' => exact .ref v v'

theorem Term.Shape.symm (h : t.Shape R t') : t'.Shape (fun u' u => R u u') t := by
  cases h with
  | node c => exact .node c
  | app f hts => exact .app f hts.flip
  | ref v v' => exact .ref v' v

theorem Term.Shape.ref_left (h : (Term.ref v).Shape R t') : ∃ v', t' = .ref v' := by
  cases h with
  | ref _ v' => exact ⟨v', rfl⟩

theorem Term.Shape.ne_ref (h : t.Shape R t') (ht : ∀ v, t ≠ .ref v) (v : Nat) : t' ≠ .ref v := by
  rintro rfl
  obtain ⟨u, hu⟩ := h.symm.ref_left
  exact ht u hu

theorem Term.Shape.not_wild (h : t.Shape R t') : ¬ Wild t := by
  cases h <;> simp [Wild]

theorem Term.Shape.tops (h : t.Shape R t') : t.Tops t' := by
  cases h with
  | node c => exact ⟨rfl, fun _ => Iff.rfl⟩
  | app f hts => exact ⟨rfl, fun c => by simp⟩
  | ref v v' => exact ⟨rfl, fun c => by simp⟩

theorem Pairing.le_insert (S : Pairing) (t t' : Term) : S ≤ S.insert t t' :=
  fun _ _ h => .inl h

theorem Pairing.Triples.terms {p p' : Triple} (h : S.Triples p p') :
    List.Forall₂ S p.terms p'.terms :=
  .cons h.subject (.cons h.predicate (.cons h.object .nil))

theorem Pairing.Triples.mono {p p' : Triple} (h : S.Triples p p') (hS : S ≤ R) : R.Triples p p' :=
  ⟨hS _ _ h.subject, hS _ _ h.predicate, hS _ _ h.object⟩

theorem Pairing.insert_self (S : Pairing) (t t' : Term) : S.insert t t' t t' := .inr ⟨rfl, rfl⟩

end

/-! ## One side -/

/-- The terms of `T` are in use. The variables of `F` exist but are not: they have no value, and
no term in use ends in one. -/
structure Bindings.Side (T : Term → Prop) (F : Set Nat) (b : Bindings) : Prop where
  ordered : b.Ordered
  lt : ∀ {u v}, T u → b.deref u = .ref v → v < b.size
  free : ∀ {v}, v ∈ F → v < b.size ∧ b.value? v = none ∧ ∀ u, T u → b.deref u ≠ .ref v

namespace Bindings

section

variable {T T' : Term → Prop} {F G : Set Nat} {b c : Bindings} {t u : Term} {v w : Nat}

/-- What terms end in depends on the values only. -/
theorem Ordered.deref_congr (ho : b.Ordered) (ho' : c.Ordered)
    (hv : ∀ v, c.value? v = b.value? v) (t : Term) : c.deref t = b.deref t := by
  induction t using ho.chain_induct with
  | stop t ht =>
    rw [deref_of_isEnd ht]
    exact deref_of_isEnd fun v e => by rw [hv, ht v e]
  | link v t hval ih =>
    rw [deref_ref_of_some ho hval, ← ih]
    exact deref_ref_of_some ho' (by rw [hv, hval])

theorem deref_newVar_of_ordered (ho : b.Ordered) (t : Term) : b.newVar.2.deref t = b.deref t :=
  ho.deref_congr ho.newVar (fun _ => rfl) t

theorem deref_grow_of_ordered (ho : b.Ordered) (n : Nat) (t : Term) :
    (b.grow n).deref t = b.deref t :=
  ho.deref_congr (ho.grow n) (fun _ => rfl) t

theorem Ordered.value?_of_le (ho : b.Ordered) (h : b.size ≤ v) : b.value? v = none := by
  rw [Option.eq_none_iff_forall_ne_some]
  intro t ht
  have := ho.bound_lt ht
  omega

theorem merge_comm (b : Bindings) (v u : Nat) : b.merge v u = b.merge u v := by
  by_cases h : v = u
  · rw [h]
  · rw [merge_eq_bind b h, merge_eq_bind b (Ne.symm h), max_comm, min_comm]

/-- After a merge both variables end in the older one. -/
theorem deref_merge (ho : b.Ordered) (hv : v < b.size) (hu : w < b.size) (hvn : b.value? v = none)
    (hwn : b.value? w = none) (t : Term) : (b.merge v w).deref t =
      if b.deref t = .ref v ∨ b.deref t = .ref w then .ref (min v w) else b.deref t := by
  by_cases h : v = w
  · subst h
    simp only [merge, if_true, or_self, Nat.min_self]
    split
    · assumption
    · rfl
  · rw [merge_eq_bind b h, (canBind_merge hv hu hvn hwn h).deref_bind ho]
    by_cases h1 : b.deref t = .ref v
    · simp only [h1, Term.ref.injEq, true_or, if_true]
      split
      · rfl
      · congr 1; omega
    · by_cases h2 : b.deref t = .ref w
      · simp only [h2, Term.ref.injEq, or_true, if_true]
        split
        · rfl
        · congr 1; omega
      · rw [if_neg, if_neg (by simp [h1, h2])]
        rcases Nat.le_total v w with hle | hle
        · rwa [Nat.max_eq_right hle]
        · rwa [Nat.max_eq_left hle]

theorem Side.mono (h : b.Side T F) (hT : ∀ u, T' u → T u) (hG : G ⊆ F) : b.Side T' G where
  ordered := h.ordered
  lt := fun hu hd => h.lt (hT _ hu) hd
  free := fun hv => ⟨(h.free (hG hv)).1, (h.free (hG hv)).2.1,
    fun u hu => (h.free (hG hv)).2.2 u (hT u hu)⟩

theorem Side.bind (h : b.Side T F) (hc : b.CanBind v t) (hv : v ∉ F)
    (ht : ∀ w ∈ F, t ≠ .ref w) : (b.bind v t).Side T F where
  ordered := hc.ordered h.ordered
  lt := by
    intro u w hu hd
    rw [hc.deref_bind h.ordered] at hd
    rw [size_bind]
    split at hd
    · exact Nat.lt_trans (hc.older w hd) hc.exists_var
    · exact h.lt hu hd
  free := by
    intro w hw
    obtain ⟨h1, h2, h3⟩ := h.free hw
    refine ⟨by rwa [size_bind], ?_, fun u hu => ?_⟩
    · have hne : v ≠ w := by
        rintro rfl
        exact hv hw
      rw [value?_bind hc.exists_var, if_neg hne, h2]
    · rw [hc.deref_bind h.ordered]
      split
      · exact ht w hw
      · exact h3 u hu

theorem Side.merge (h : b.Side T F) (hv : v < b.size) (hw : w < b.size) (hvn : b.value? v = none)
    (hwn : b.value? w = none) (hvF : v ∉ F) (hwF : w ∉ F) : (b.merge v w).Side T F := by
  by_cases e : v = w
  · rwa [Bindings.merge, if_pos e]
  · rw [merge_eq_bind b e]
    refine h.bind (canBind_merge hv hw hvn hwn e) ?_ ?_
    · rcases Nat.le_total v w with hle | hle
      · rwa [Nat.max_eq_right hle]
      · rwa [Nat.max_eq_left hle]
    · rintro x hx e'
      cases e'
      rcases Nat.le_total v w with hle | hle
      · rw [Nat.min_eq_left hle] at hx; exact hvF hx
      · rw [Nat.min_eq_right hle] at hx; exact hwF hx

/-- New variables are not in use. -/
theorem Side.grow (h : b.Side T F) (n : Nat) :
    (b.grow (b.size + n)).Side T (F ∪ {v | b.size ≤ v ∧ v < b.size + n}) where
  ordered := h.ordered.grow _
  lt := by
    intro u v hu hd
    rw [deref_grow_of_ordered h.ordered] at hd
    have := h.lt hu hd
    simp only [size_grow]
    omega
  free := by
    rintro v (hv | ⟨hle, hlt⟩)
    · obtain ⟨h1, h2, h3⟩ := h.free hv
      refine ⟨?_, h2, fun u hu => ?_⟩
      · simp only [size_grow]
        omega
      · rw [deref_grow_of_ordered h.ordered]
        exact h3 u hu
    · refine ⟨?_, h.ordered.value?_of_le hle, fun u hu hd => ?_⟩
      · simp only [size_grow]
        omega
      · rw [deref_grow_of_ordered h.ordered] at hd
        have := h.lt hu hd
        omega

theorem Side.newVar (h : b.Side T F) : b.newVar.2.Side T (F ∪ {b.size}) := by
  have hgrow : b.newVar.2 = b.grow (b.size + 1) := by
    simp [Bindings.newVar, Bindings.grow]
  rw [hgrow]
  refine (h.grow 1).mono (fun _ hu => hu) ?_
  rintro v (hv | rfl)
  · exact .inl hv
  · exact .inr ⟨Nat.le_refl _, Nat.lt_succ_self _⟩

end

/-! ## Both sides -/

/-- Terms that `S` pairs say the same: they end in the same node, in compound terms whose parts
`R` pairs, or in variables. The variables that the ends have stand for each other one to one.
Those of `F` and `F'` are not in use. -/
structure Mirror (S R : Pairing) (F F' : Set Nat) (b b' : Bindings) : Prop where
  left : b.Side (fun u => ∃ u', S u u') F
  right : b'.Side (fun u' => ∃ u, S u u') F'
  shape : ∀ {u u'}, S u u' → (b.deref u).Shape R (b'.deref u')
  same : ∀ {u u' y y' v v'}, S u u' → S y y' → b.deref u = .ref v → b'.deref u' = .ref v' →
    (b.deref y = .ref v ↔ b'.deref y' = .ref v')

section

variable {S S' R R' : Pairing} {F G F' G' : Set Nat} {b b' c c' : Bindings} {t t' u u' y y' : Term}
  {v v' w w' : Nat}

theorem Mirror.symm (h : Mirror S R F F' b b') :
    Mirror (fun u' u => S u u') (fun u' u => R u u') F' F b' b where
  left := h.right
  right := h.left
  shape := fun hu => (h.shape hu).symm
  same := fun hu hy hd hd' => (h.same hu hy hd' hd).symm

/-- Less may be said, and less be kept free. -/
theorem Mirror.mono (h : Mirror S R F F' b b') (hS : S' ≤ S) (hR : R ≤ R') (hG : G ⊆ F)
    (hG' : G' ⊆ F') : Mirror S' R' G G' b b' where
  left := h.left.mono (fun _ ⟨u', hu⟩ => ⟨u', hS _ _ hu⟩) hG
  right := h.right.mono (fun _ ⟨u, hu⟩ => ⟨u, hS _ _ hu⟩) hG'
  shape := fun hu => (h.shape (hS _ _ hu)).mono hR
  same := fun hu hy => h.same (hS _ _ hu) (hS _ _ hy)

theorem Mirror.isEnd_left (h : Mirror S R F F' b b') (hy : S y y') (hd : b.deref y = .ref v) :
    v < b.size ∧ b.value? v = none ∧ v ∉ F :=
  ⟨h.left.lt ⟨y', hy⟩ hd, value?_of_deref_eq_ref h.left.ordered hd,
    fun hv => (h.left.free hv).2.2 y ⟨y', hy⟩ hd⟩

theorem Mirror.isEnd_right (h : Mirror S R F F' b b') (hy : S y y') (hd : b'.deref y' = .ref v) :
    v < b'.size ∧ b'.value? v = none ∧ v ∉ F' :=
  h.symm.isEnd_left hy hd

/-! ### More pairs -/

theorem Mirror.insert (h : Mirror S R F F' b b') (hshape : (b.deref t).Shape R (b'.deref t'))
    (hleft : ∀ v, b.deref t = .ref v → v < b.size ∧ v ∉ F)
    (hright : ∀ v, b'.deref t' = .ref v → v < b'.size ∧ v ∉ F')
    (hsame : ∀ {u u' v v'}, S u u' → b.deref t = .ref v → b'.deref t' = .ref v' →
      (b.deref u = .ref v ↔ b'.deref u' = .ref v')) :
    Mirror (S.insert t t') R F F' b b' where
  left := by
    refine ⟨h.left.ordered, ?_, fun hv => ?_⟩
    · rintro u v ⟨u', hu | ⟨rfl, -⟩⟩ hd
      · exact h.left.lt ⟨u', hu⟩ hd
      · exact (hleft v hd).1
    · obtain ⟨h1, h2, h3⟩ := h.left.free hv
      refine ⟨h1, h2, ?_⟩
      rintro u ⟨u', hu | ⟨rfl, -⟩⟩ hd
      · exact h3 u ⟨u', hu⟩ hd
      · exact (hleft _ hd).2 hv
  right := by
    refine ⟨h.right.ordered, ?_, fun hv => ?_⟩
    · rintro u' v ⟨u, hu | ⟨-, rfl⟩⟩ hd
      · exact h.right.lt ⟨u, hu⟩ hd
      · exact (hright v hd).1
    · obtain ⟨h1, h2, h3⟩ := h.right.free hv
      refine ⟨h1, h2, ?_⟩
      rintro u' ⟨u, hu | ⟨-, rfl⟩⟩ hd
      · exact h3 u' ⟨u, hu⟩ hd
      · exact (hright _ hd).2 hv
  shape := by
    rintro u u' (hu | ⟨rfl, rfl⟩)
    · exact h.shape hu
    · exact hshape
  same := by
    -- the new pair is compared with an old one through the end of the new one
    have old : ∀ {u u' v v'}, S u u' → b.deref u = .ref v → b'.deref u' = .ref v' →
        (b.deref t = .ref v ↔ b'.deref t' = .ref v') := by
      intro u u' v v' hu hd hd'
      constructor
      · intro e
        rw [e] at hshape
        obtain ⟨w', hw'⟩ := hshape.ref_left
        rw [hw', ← hd', (hsame hu e hw').1 hd]
      · intro e
        rw [e] at hshape
        obtain ⟨w, hw⟩ := hshape.symm.ref_left
        rw [hw, ← hd, (hsame hu hw e).2 hd']
    rintro u u' y y' v v' (hu | ⟨rfl, rfl⟩) (hy | ⟨rfl, rfl⟩) hd hd'
    · exact h.same hu hy hd hd'
    · exact old hu hd hd'
    · exact hsame hy hd hd'
    · exact iff_of_true hd hd'

/-- Terms that end where paired terms end may be paired. -/
theorem Mirror.insert_of_same (h : Mirror S R F F' b b') (hy : S y y')
    (ht : b.deref t = b.deref y) (ht' : b'.deref t' = b'.deref y') :
    Mirror (S.insert t t') R F F' b b' := by
  apply h.insert
  · rw [ht, ht']
    exact h.shape hy
  · intro v hd
    obtain ⟨h1, -, h2⟩ := h.isEnd_left hy (ht ▸ hd)
    exact ⟨h1, h2⟩
  · intro v hd
    obtain ⟨h1, -, h2⟩ := h.isEnd_right hy (ht' ▸ hd)
    exact ⟨h1, h2⟩
  · intro u u' v v' hu hd hd'
    exact h.same hy hu (ht ▸ hd) (ht' ▸ hd')

/-- Two variables that are not in use may be paired. -/
theorem Mirror.insert_free (h : Mirror S R F F' b b') (hv : v ∈ F) (hv' : v' ∈ F') :
    Mirror (S.insert (.ref v) (.ref v')) R (F \ {v}) ( F' \ { v'}) b b' := by
  obtain ⟨h1, h2, h3⟩ := h.left.free hv
  obtain ⟨h4, h5, h6⟩ := h.right.free hv'
  have hd : b.deref (.ref v) = .ref v := deref_ref_of_none h2
  have hd' : b'.deref (.ref v') = .ref v' := deref_ref_of_none h5
  have hless : Mirror S R (F \ {v}) ( F' \ { v'}) b b' :=
    h.mono le_rfl le_rfl Set.sdiff_subset Set.sdiff_subset
  apply hless.insert
  · rw [hd, hd']
    exact .ref v v'
  · intro w e
    cases hd.symm.trans e
    exact ⟨h1, fun hw => hw.2 rfl⟩
  · intro w e
    cases hd'.symm.trans e
    exact ⟨h4, fun hw => hw.2 rfl⟩
  · intro u u' w w' hu e e'
    cases hd.symm.trans e
    cases hd'.symm.trans e'
    exact iff_of_false (h3 u ⟨u', hu⟩) (h6 u' ⟨u, hu⟩)

/-! ### More variables -/

theorem Mirror.grow_right (h : Mirror S R F F' b b') (n : Nat) :
    Mirror S R F (F' ∪ {v | b'.size ≤ v ∧ v < b'.size + n}) b (b'.grow (b'.size + n)) where
  left := h.left
  right := h.right.grow n
  shape := fun hu => by
    rw [deref_grow_of_ordered h.right.ordered]
    exact h.shape hu
  same := fun hu hy hd hd' => by
    rw [deref_grow_of_ordered h.right.ordered] at hd' ⊢
    exact h.same hu hy hd hd'

theorem Mirror.grow_left (h : Mirror S R F F' b b') (n : Nat) :
    Mirror S R (F ∪ {v | b.size ≤ v ∧ v < b.size + n}) F' (b.grow (b.size + n)) b' :=
  (h.symm.grow_right n).symm

theorem Mirror.newVar_left (h : Mirror S R F F' b b') :
    Mirror S R (F ∪ {b.size}) F' b.newVar.2 b' where
  left := h.left.newVar
  right := h.right
  shape := fun hu => by
    rw [deref_newVar_of_ordered h.left.ordered]
    exact h.shape hu
  same := fun hu hy hd hd' => by
    rw [deref_newVar_of_ordered h.left.ordered] at hd ⊢
    exact h.same hu hy hd hd'

theorem Mirror.newVar_right (h : Mirror S R F F' b b') :
    Mirror S R F (F' ∪ {b'.size}) b b'.newVar.2 :=
  h.symm.newVar_left.symm

/-! ### Bindings on both sides -/

theorem Mirror.bind (h : Mirror S R F F' b b') (hy : S y y') (hd : b.deref y = .ref v)
    (hd' : b'.deref y' = .ref v') (ht : t.Shape R t') (hne : ∀ w, t ≠ .ref w) :
    Mirror S R F F' (b.bind v t) (b'.bind v' t') := by
  obtain ⟨hv1, hv2, hv3⟩ := h.isEnd_left hy hd
  obtain ⟨hv1', hv2', hv3'⟩ := h.isEnd_right hy hd'
  have hne' := ht.ne_ref hne
  have hc : b.CanBind v t := ⟨hv1, hv2, isEnd_of_ne_ref hne, fun w e => absurd e (hne w)⟩
  have hc' : b'.CanBind v' t' := ⟨hv1', hv2', isEnd_of_ne_ref hne', fun w e => absurd e (hne' w)⟩
  refine ⟨h.left.bind hc hv3 fun w _ => hne w, h.right.bind hc' hv3' fun w _ => hne' w, ?_, ?_⟩
  · intro u u' hu
    rw [hc.deref_bind h.left.ordered, hc'.deref_bind h.right.ordered]
    by_cases e : b.deref u = .ref v
    · rw [if_pos e, if_pos ((h.same hy hu hd hd').1 e)]
      exact ht
    · rw [if_neg e, if_neg fun e' => e ((h.same hy hu hd hd').2 e')]
      exact h.shape hu
  · intro u u' z z' w w' hu hz e e'
    rw [hc.deref_bind h.left.ordered] at e ⊢
    rw [hc'.deref_bind h.right.ordered] at e' ⊢
    split at e
    · exact absurd e (hne w)
    split at e'
    · exact absurd e' (hne' w')
    by_cases e1 : b.deref z = .ref v
    · rw [if_pos e1, if_pos ((h.same hy hz hd hd').1 e1)]
      exact iff_of_false (hne w) (hne' w')
    · rw [if_neg e1, if_neg fun e' => e1 ((h.same hy hz hd hd').2 e')]
      exact h.same hu hz e e'

theorem Mirror.merge (h : Mirror S R F F' b b') (hu : S u u') (hy : S y y')
    (hdu : b.deref u = .ref v) (hdy : b.deref y = .ref w) (hdu' : b'.deref u' = .ref v')
    (hdy' : b'.deref y' = .ref w') : Mirror S R F F' (b.merge v w) (b'.merge v' w') := by
  obtain ⟨hv1, hv2, hv3⟩ := h.isEnd_left hu hdu
  obtain ⟨hw1, hw2, hw3⟩ := h.isEnd_left hy hdy
  obtain ⟨hv1', hv2', hv3'⟩ := h.isEnd_right hu hdu'
  obtain ⟨hw1', hw2', hw3'⟩ := h.isEnd_right hy hdy'
  have hm := deref_merge h.left.ordered hv1 hw1 hv2 hw2
  have hm' := deref_merge h.right.ordered hv1' hw1' hv2' hw2'
  -- a term ends in one of the two exactly if its partner does
  have both : ∀ {z z'}, S z z' → (b.deref z = .ref v ∨ b.deref z = .ref w ↔
      b'.deref z' = .ref v' ∨ b'.deref z' = .ref w') := fun hz =>
    or_congr (h.same hu hz hdu hdu') (h.same hy hz hdy hdy')
  have older : ∀ {x z : Nat} {s : Term}, ¬ (s = .ref x ∨ s = .ref z) → s ≠ .ref (min x z) := by
    intro x z s hs e
    rcases Nat.le_total x z with hle | hle
    · exact hs (.inl (by rw [e, Nat.min_eq_left hle]))
    · exact hs (.inr (by rw [e, Nat.min_eq_right hle]))
  refine ⟨h.left.merge hv1 hw1 hv2 hw2 hv3 hw3, h.right.merge hv1' hw1' hv2' hw2' hv3' hw3', ?_, ?_⟩
  · intro z z' hz
    rw [hm, hm']
    by_cases e : b.deref z = .ref v ∨ b.deref z = .ref w
    · rw [if_pos e, if_pos ((both hz).1 e)]
      exact .ref _ _
    · rw [if_neg e, if_neg fun e' => e ((both hz).2 e')]
      exact h.shape hz
  · intro z z' x x' k k' hz hx e e'
    rw [hm] at e ⊢
    rw [hm'] at e' ⊢
    by_cases e1 : b.deref z = .ref v ∨ b.deref z = .ref w
    · rw [if_pos e1] at e
      rw [if_pos ((both hz).1 e1)] at e'
      cases e
      cases e'
      by_cases e2 : b.deref x = .ref v ∨ b.deref x = .ref w
      · rw [if_pos e2, if_pos ((both hx).1 e2)]
        exact iff_of_true rfl rfl
      · have e2' := fun e' => e2 ((both hx).2 e')
        rw [if_neg e2, if_neg e2']
        exact iff_of_false (older e2) (older e2')
    · have e1' := fun e' => e1 ((both hz).2 e')
      rw [if_neg e1] at e
      rw [if_neg e1'] at e'
      by_cases e2 : b.deref x = .ref v ∨ b.deref x = .ref w
      · rw [if_pos e2, if_pos ((both hx).1 e2)]
        exact iff_of_false (fun k => older e1 (e.trans k.symm)) fun k => older e1' (e'.trans k.symm)
      · rw [if_neg e2, if_neg fun e' => e2 ((both hx).2 e')]
        exact h.same hz hx e e'

/-! ### Bindings on one side -/

/-- A variable of the right side that is not in use takes up the term `y'`. -/
theorem Mirror.meet_right (h : Mirror S R F F' b b') (hy : S y y') (hv : v ∈ F') :
    ∃ c', (∀ n, b'.unify (n + 1) y' (.ref v) = some (some c')) ∧
      (∀ n, b'.unify (n + 1) (.ref v) y' = some (some c')) ∧
      Mirror (S.insert y (.ref v)) R F ( F' \ {v}) b c' := by
  obtain ⟨hv1, hv2, hv3⟩ := h.right.free hv
  have hself : b'.deref (.ref v) = .ref v := deref_ref_of_none hv2
  have hfree : ∀ {u u'}, S u u' → b'.deref u' ≠ .ref v := fun hu => hv3 _ ⟨_, hu⟩
  have hright : b'.Side (fun u' => ∃ u, S u u') ( F' \ {v}) :=
    h.right.mono (fun _ hu => hu) Set.sdiff_subset
  by_cases href : ∃ w, b'.deref y' = .ref w
  · obtain ⟨w, hw⟩ := href
    obtain ⟨hw1, hw2, hw3⟩ := h.isEnd_right hy hw
    have hm := deref_merge h.right.ordered hw1 hv1 hw2 hv2
    -- the variable `w` is known by another number now, and nothing else changes
    have hother : ∀ {s : Term}, s ≠ .ref w → s ≠ .ref v → s ≠ .ref (min w v) := by
      intro s h1 h2 e
      rcases Nat.le_total w v with hle | hle
      · exact h1 (by rw [e, Nat.min_eq_left hle])
      · exact h2 (by rw [e, Nat.min_eq_right hle])
    have hold : Mirror S R F ( F' \ {v}) b (b'.merge w v) := by
      refine ⟨h.left, hright.merge hw1 hv1 hw2 hv2 (fun hin => hw3 hin.1) (fun hin => hin.2 rfl),
        ?_, ?_⟩
      · intro u u' hu
        have hshape := h.shape hu
        rw [hm]
        split
        · next e =>
          rw [e.resolve_right (hfree hu)] at hshape
          obtain ⟨x, hx⟩ := hshape.symm.ref_left
          rw [hx]
          exact .ref _ _
        · exact hshape
      · intro u u' z z' x x' hu hz e e'
        rw [hm] at e' ⊢
        split at e'
        · next k =>
          cases e'
          rw [h.same hu hz e (k.resolve_right (hfree hu))]
          split
          · next k' => exact iff_of_true (k'.resolve_right (hfree hz)) rfl
          · next k' =>
            exact iff_of_false (fun k => k' (.inl k)) (hother (fun k => k' (.inl k)) (hfree hz))
        · next k =>
          rw [h.same hu hz e e']
          split
          · next k' =>
            refine iff_of_false (fun i => ?_) (fun i => ?_)
            · exact k (.inl (e'.trans (i.symm.trans (k'.resolve_right (hfree hz)))))
            · exact hother (fun i => k (.inl i)) (hfree hu) (e'.trans i.symm)
          · exact Iff.rfl
    refine ⟨b'.merge w v, fun n => unify_refs hw hself, fun n => ?_, ?_⟩
    · rw [unify_refs hself hw, merge_comm]
    · refine hold.insert_of_same hy rfl ?_
      rw [hm, hm, if_pos (.inr hself), if_pos (.inl hw)]
  · have hne : ∀ w, b'.deref y' ≠ .ref w := fun w e => href ⟨w, e⟩
    have hwild := (h.shape hy).symm.not_wild
    have hc : b'.CanBind v (b'.deref y') :=
      ⟨hv1, hv2, isEnd_of_ne_ref hne, fun w e => absurd e (hne w)⟩
    have hd : ∀ {u u'}, S u u' → (b'.bind v (b'.deref y')).deref u' = b'.deref u' := by
      intro u u' hu
      rw [hc.deref_bind h.right.ordered, if_neg (hfree hu)]
    have hold : Mirror S R F ( F' \ {v}) b (b'.bind v (b'.deref y')) := by
      refine ⟨h.left, hright.bind hc (fun hin => hin.2 rfl) fun w _ => hne w, ?_, ?_⟩
      · intro u u' hu
        rw [hd hu]
        exact h.shape hu
      · intro u u' z z' x x' hu hz e e'
        rw [hd hu] at e'
        rw [hd hz]
        exact h.same hu hz e e'
    refine ⟨_, fun n => unify_refRight rfl hself hwild hne,
      fun n => unify_refLeft hself rfl hwild hne, ?_⟩
    refine hold.insert_of_same hy rfl ?_
    rw [hd hy, hc.deref_bind h.right.ordered, if_pos hself]

/-- A variable of the left side that is not in use takes up the term `y`. -/
theorem Mirror.meet_left (h : Mirror S R F F' b b') (hy : S y y') (hv : v ∈ F) :
    ∃ c, (∀ n, b.unify (n + 1) (.ref v) y = some (some c)) ∧
      Mirror (S.insert (.ref v) y') R (F \ {v}) F' c b' := by
  obtain ⟨c, -, hc, hm⟩ := h.symm.meet_right hy hv
  refine ⟨c, hc, hm.symm.mono ?_ le_rfl subset_rfl subset_rfl⟩
  rintro u u' (hu | ⟨rfl, rfl⟩)
  · exact .inl hu
  · exact .inr ⟨rfl, rfl⟩

/-! ## Unification -/

theorem Mirror.unifyEach {f g : Bindings → Term → Term → Option (Option Bindings)}
    (hfg : ∀ {b b' l l' r r'}, Mirror S R F F' b b' → S l l' → S r r' →
      Option.Rel (Option.Rel (Mirror S R F F')) (f b l r) (g b' l' r'))
    (h : Mirror S R F F' b b') {ls ls' rs rs' : List Term} (hl : List.Forall₂ S ls ls')
    (hr : List.Forall₂ S rs rs') :
    Option.Rel (Option.Rel (Mirror S R F F')) (unifyEach f b ls rs) (unifyEach g b' ls' rs') := by
  induction hl generalizing b b' rs rs' with
  | nil => exact .some (.some h)
  | cons h1 _ ih =>
    cases hr with
    | nil => exact .some (.some h)
    | cons h2 h3 =>
      have hfirst := hfg h h1 h2
      simp only [Bindings.unifyEach]
      generalize f b _ _ = x, g b' _ _ = x' at hfirst
      cases hfirst with
      | none => exact .none
      | some hx =>
        cases hx with
        | none => exact .some .none
        | some hb => exact ih hb h3

/-- Unification comes out the same on both sides. -/
theorem Mirror.unify (h : Mirror S S F F' b b') {l l' r r' : Term} (hl : S l l') (hr : S r r')
    (n : Nat) :
    Option.Rel (Option.Rel (Mirror S S F F')) (b.unify n l r) (b'.unify n l' r') := by
  induction n generalizing b b' l l' r r' with
  | zero => exact .none
  | succ n ih =>
    have sl := h.shape hl
    have sr := h.shape hr
    generalize hL : b.deref l = L, hL' : b'.deref l' = L' at sl
    generalize hR : b.deref r = A, hR' : b'.deref r' = A' at sr
    cases sl with
    | node c =>
      cases sr with
      | node d =>
        rw [unify_nodes hL hR, unify_nodes hL' hR']
        split
        · exact .some (.some h)
        · exact .some .none
      | app f hts =>
        rw [unify_nodeApp hL hR, unify_nodeApp hL' hR']
        exact .some .none
      | ref w w' =>
        rw [unify_refRight hL hR (by simp [Wild]) (by simp),
          unify_refRight hL' hR' (by simp [Wild]) (by simp)]
        exact .some (.some (h.bind hr hR hR' (.node c) (by simp)))
    | app f hts =>
      cases sr with
      | node d =>
        rw [unify_appNode hL hR, unify_appNode hL' hR']
        exact .some .none
      | app g hus =>
        rw [unify_apps hL hR, unify_apps hL' hR', ← hts.length_eq, ← hus.length_eq]
        split
        · exact Mirror.unifyEach (fun h hl hr => ih h hl hr) h hts hus
        · exact .some .none
      | ref w w' =>
        rw [unify_refRight hL hR (by simp [Wild]) (by simp),
          unify_refRight hL' hR' (by simp [Wild]) (by simp)]
        exact .some (.some (h.bind hr hR hR' (.app f hts) (by simp)))
    | ref v v' =>
      cases sr with
      | node d =>
        rw [unify_refLeft hL hR (by simp [Wild]) (by simp),
          unify_refLeft hL' hR' (by simp [Wild]) (by simp)]
        exact .some (.some (h.bind hl hL hL' (.node d) (by simp)))
      | app g hus =>
        rw [unify_refLeft hL hR (by simp [Wild]) (by simp),
          unify_refLeft hL' hR' (by simp [Wild]) (by simp)]
        exact .some (.some (h.bind hl hL hL' (.app g hus) (by simp)))
      | ref w w' =>
        rw [unify_refs hL hR, unify_refs hL' hR']
        exact .some (.some (h.merge hl hr hL hR hL' hR'))

theorem Mirror.unifyAll (h : Mirror S S F F' b b') {ls ls' rs rs' : List Term}
    (hl : List.Forall₂ S ls ls') (hr : List.Forall₂ S rs rs') (n : Nat) :
    Option.Rel (Option.Rel (Mirror S S F F')) (b.unifyAll n ls rs) (b'.unifyAll n ls' rs') :=
  Mirror.unifyEach (fun h hl hr => h.unify hl hr n) h hl hr

end

end Bindings

end TabledRules
