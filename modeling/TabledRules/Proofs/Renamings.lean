-- Renamings. Two evaluations that number their variables differently, but in
-- the same order, go on alike: what they follow, unify or write out is the
-- same but for the numbers.
import TabledRules.Proofs.Patterns

namespace TabledRules

open Bindings

/-! ## Terms -/

/-- Which variables of two evaluations stand for each other. -/
abbrev Renaming := Nat → Nat → Prop

namespace Renaming

/-- The leaves are the same, or variables that stand for each other. -/
inductive Leaf (ρ : Renaming) : Term → Term → Prop
  | ref {v v' : Nat} : ρ v v' → Leaf ρ (.ref v) (.ref v')
  | var (x : String) : Leaf ρ (.var x) (.var x)
  | any : Leaf ρ .any .any

/-- The variables that stand for each other come in the same order. -/
structure InOrder (ρ : Renaming) : Prop where
  lt_iff : ∀ {v v' u u'}, ρ v v' → ρ u u' → (v < u ↔ v' < u')

variable {ρ : Renaming} {v v' u u' : Nat}

theorem InOrder.eq_iff (h : ρ.InOrder) (hv : ρ v v') (hu : ρ u u') : v = u ↔ v' = u' := by
  have h1 := h.lt_iff hv hu
  have h2 := h.lt_iff hu hv
  omega

end Renaming

/-- The terms are the same but for variables that stand for each other. -/
def Term.Like (ρ : Renaming) (t t' : Term) : Prop := t.Instance ρ.Leaf t'

/-- The triples are the same but for variables that stand for each other. -/
def Triple.Like (ρ : Renaming) (t t' : Triple) : Prop := t.Instance ρ.Leaf t'

section

variable {ρ ρ' : Renaming} {t t' u u' : Term} {f : String} {ts ts' : List Term}

namespace Term

@[simp] theorem like_node {c : Node} : (Term.node c).Like ρ t' ↔ t' = .node c := instance_node

@[simp] theorem like_app :
    (Term.app f ts).Like ρ t' ↔ ∃ ts', t' = .app f ts' ∧ List.Forall₂ (Term.Like ρ) ts ts' :=
  instance_app

@[simp] theorem like_ref {v : Nat} : (Term.ref v).Like ρ t' ↔ ∃ v', t' = .ref v' ∧ ρ v v' := by
  refine instance_ref.trans ⟨fun h => ?_, fun ⟨v', e, h⟩ => e ▸ .ref h⟩
  cases h with
  | ref h => exact ⟨_, rfl, h⟩

@[simp] theorem like_var {x : String} : (Term.var x).Like ρ t' ↔ t' = .var x := by
  refine instance_var.trans ⟨fun h => ?_, ?_⟩
  · cases h
    rfl
  · rintro rfl
    exact .var x

@[simp] theorem like_any : Term.any.Like ρ t' ↔ t' = .any := by
  refine instance_any.trans ⟨fun h => ?_, ?_⟩
  · cases h
    rfl
  · rintro rfl
    exact .any

theorem Like.mono (h : t.Like ρ t') (hle : ρ ≤ ρ') : t.Like ρ' t' :=
  Instance.mono h fun _ _ _ hx => by
    cases hx with
    | ref hv => exact .ref (hle _ _ hv)
    | var x => exact .var x
    | any => exact .any

theorem forall₂_like_mono (h : List.Forall₂ (Term.Like ρ) ts ts') (hle : ρ ≤ ρ') :
    List.Forall₂ (Term.Like ρ') ts ts' :=
  h.imp fun _ _ ht => ht.mono hle

/-- A term is like itself where its variables stand for themselves. -/
theorem like_self (h : ∀ v, .ref v ∈ t.leaves → ρ v v) : t.Like ρ t := by
  induction t using Term.induct with
  | node c => exact like_node.2 rfl
  | app f ts ih =>
    refine like_app.2 ⟨ts, rfl, List.forall₂_same.2 fun t ht => ih t ht fun v hv => h v ?_⟩
    rw [leaves_app]
    exact List.mem_flatMap.2 ⟨t, ht, hv⟩
  | var x => exact like_var.2 rfl
  | ref v => exact like_ref.2 ⟨v, rfl, h v (by simp)⟩
  | any => exact like_any.2 rfl

/-- So is a term in which no variable stands. -/
theorem like_of_has (h : t.Has (· = .any)) : t.Like ρ t :=
  like_self fun v hv => by cases h _ hv

theorem like_of_isGround (h : t.isGround = true) : t.Like ρ t := like_of_has (.of_isGround h)

theorem Like.isGround (h : t.Like ρ t') : t'.isGround = t.isGround := by
  induction t using Term.induct generalizing t' with
  | node c => rw [like_node.1 h]
  | app f ts ih =>
    obtain ⟨ts', rfl, hts⟩ := like_app.1 h
    rw [Bool.eq_iff_iff, isGround_app, isGround_app]
    refine ⟨fun hall t ht => ?_, fun hall t' ht' => ?_⟩
    · obtain ⟨t', ht', hlike⟩ := exists_right hts ht
      exact (ih t ht hlike).symm.trans (hall t' ht')
    · obtain ⟨t, ht, hlike⟩ := exists_left hts ht'
      exact (ih t ht hlike).trans (hall t ht)
  | var x => rw [like_var.1 h]
  | ref v =>
    obtain ⟨v', rfl, -⟩ := like_ref.1 h
    rfl
  | any => rw [like_any.1 h]

/-- A term that no variable stands in is like itself only. -/
theorem Like.eq_of_no_ref (h : t.Like ρ t') (ht : ∀ v, .ref v ∉ t.leaves) : t' = t := by
  induction t using Term.induct generalizing t' with
  | node c => exact like_node.1 h
  | app f ts ih =>
    obtain ⟨ts', rfl, hts⟩ := like_app.1 h
    rw [leaves_app] at ht
    congr 1
    clear h
    induction hts with
    | nil => rfl
    | @cons t t' ts ts' h1 _ ih2 =>
      rw [ih t List.mem_cons_self h1 fun v hv => ht v (by simp [hv]),
        ih2 (fun t ht => ih t (List.mem_cons_of_mem _ ht)) fun v hv => ht v (by simp_all)]
  | var x => exact like_var.1 h
  | ref v => exact absurd (by simp) (ht v)
  | any => exact like_any.1 h

theorem Like.eq_of_isGround (h : t.Like ρ t') (ht : t.isGround = true) : t' = t :=
  h.eq_of_no_ref fun v hv => by simp [(isGround_iff_leaves t).1 ht] at hv

theorem Like.eq_of_isGround_right (h : t.Like ρ t') (ht : t'.isGround = true) : t' = t :=
  h.eq_of_isGround (h.isGround.symm.trans ht)

theorem Like.isVar (h : t.Like ρ t') : t'.isVar = t.isVar := by
  cases t with
  | node c => rw [like_node.1 h]
  | app f ts =>
    obtain ⟨ts', rfl, -⟩ := like_app.1 h
    rfl
  | var x => rw [like_var.1 h]
  | ref v =>
    obtain ⟨v', rfl, -⟩ := like_ref.1 h
    rfl
  | any => rw [like_any.1 h]

theorem Like.wild (h : t.Like ρ t') (ht : Wild t) : Wild t' := by
  rcases ht with rfl | ⟨x, rfl⟩
  · exact .inl (like_any.1 h)
  · exact .inr ⟨x, like_var.1 h⟩

theorem Like.not_wild (h : t.Like ρ t') (ht : ¬ Wild t) : ¬ Wild t' := by
  cases t with
  | node c => simp [like_node.1 h, Wild]
  | app f ts =>
    obtain ⟨ts', rfl, -⟩ := like_app.1 h
    simp [Wild]
  | ref v =>
    obtain ⟨v', rfl, -⟩ := like_ref.1 h
    simp [Wild]
  | var x => exact absurd (.inr ⟨x, rfl⟩) ht
  | any => exact absurd (.inl rfl) ht

theorem Like.ref_right {v' : Nat} (h : t.Like ρ (.ref v')) : ∃ v, t = .ref v ∧ ρ v v' := by
  cases t with
  | ref v =>
    obtain ⟨w, e, hv⟩ := like_ref.1 h
    cases e
    exact ⟨v, rfl, hv⟩
  | node c => cases like_node.1 h
  | app f ts =>
    obtain ⟨ts', e, -⟩ := like_app.1 h
    cases e
  | var x => cases like_var.1 h
  | any => cases like_any.1 h

/-- Stores are asked for the same. -/
theorem Like.lookupKey (h : t.Like ρ t') : t'.lookupKey = t.lookupKey := by
  unfold Term.lookupKey
  rw [h.isGround]
  split
  · next hg => rw [h.eq_of_isGround hg]
  · rfl

/-- With wildcards for what is open the terms are the same. -/
theorem Like.mapVars (h : t.Like ρ t') :
    t'.mapVars (fun _ => .any) = t.mapVars fun _ => .any := by
  induction t using Term.induct generalizing t' with
  | node c => rw [like_node.1 h]
  | app f ts ih =>
    obtain ⟨ts', rfl, hts⟩ := like_app.1 h
    simp only [Term.mapVars, mapVarsOf_eq]
    congr 1
    clear h
    induction hts with
    | nil => rfl
    | @cons t t' ts ts' h1 _ ih2 =>
      rw [List.map_cons, List.map_cons, ih t List.mem_cons_self h1,
        ih2 fun t ht => ih t (List.mem_cons_of_mem _ ht)]
  | var x => rw [like_var.1 h]
  | ref v =>
    obtain ⟨v', rfl, -⟩ := like_ref.1 h
    rfl
  | any => rw [like_any.1 h]

end Term

namespace Triple

variable {t t' : Triple}

theorem Like.mono (h : t.Like ρ t') (hle : ρ ≤ ρ') : t.Like ρ' t' :=
  ⟨Term.Like.mono h.subject hle, Term.Like.mono h.predicate hle, Term.Like.mono h.object hle⟩

theorem Like.terms (h : t.Like ρ t') : List.Forall₂ (Term.Like ρ) t.terms t'.terms :=
  .cons h.subject (.cons h.predicate (.cons h.object .nil))

theorem Like.lookupKey (h : t.Like ρ t') : t'.lookupKey = t.lookupKey := by
  simp only [Triple.lookupKey, Triple.mapTerms, Term.Like.lookupKey h.subject,
    Term.Like.lookupKey h.predicate, Term.Like.lookupKey h.object]

end Triple

/-! ## Variants

Two patterns that are like each other are variants, so they share their form. -/

/-- The same numbers were given to leaves that stand for each other. -/
structure Numbering.Like (ρ : Renaming) (n n' : Numbering) : Prop where
  next : n'.next = n.next
  known : List.Forall₂ (fun x y => ρ.Leaf x.1 y.1 ∧ y.2 = x.2) n.known n'.known

theorem Numbering.Like.lookup (hρ : ρ.InOrder) {n n' : Numbering} (h : n.Like ρ n')
    {x x' : Term} (hx : ρ.Leaf x x') : n'.known.lookup x' = n.known.lookup x := by
  have hknown := h.known
  generalize n.known = known, n'.known = known' at hknown
  induction hknown with
  | nil => rfl
  | @cons p p' ps ps' h1 _ ih =>
    obtain ⟨y, i⟩ := p
    obtain ⟨y', i'⟩ := p'
    obtain ⟨hy, rfl⟩ := h1
    have heq : x' = y' ↔ x = y := by
      cases hx with
      | ref hv =>
        cases hy with
        | ref hu => simpa using (hρ.eq_iff hv hu).symm
        | _ => simp
      | var x => cases hy <;> simp
      | any => cases hy <;> simp
    rw [List.lookup_cons, List.lookup_cons, ih]
    by_cases e : x = y
    · simp [e, heq.2 e]
    · rw [beq_false_of_ne e, beq_false_of_ne fun e' => e (heq.1 e')]

theorem Numbering.Like.number (hρ : ρ.InOrder) {n n' : Numbering} (h : n.Like ρ n')
    {x x' : Term} (hx : ρ.Leaf x x') :
    (n'.number x').1 = (n.number x).1 ∧ (n.number x).2.Like ρ (n'.number x').2 := by
  have leaf : ∀ {x x' : Term}, ρ.Leaf x x' → x ≠ .any → x' ≠ .any →
      (n'.number x').1 = (n.number x).1 ∧ (n.number x).2.Like ρ (n'.number x').2 := by
    intro x x' hx hne hne'
    unfold Numbering.number
    simp only [h.lookup hρ hx]
    cases n.known.lookup x with
    | some i => exact ⟨rfl, h⟩
    | none => exact ⟨h.next, by simp [h.next], .cons ⟨hx, h.next⟩ h.known⟩
  cases hx with
  | ref hv => exact leaf (.ref hv) (by simp) (by simp)
  | var x => exact leaf (.var x) (by simp) (by simp)
  | any => exact ⟨h.next, by simp [Numbering.number, Numbering.fresh, h.next], h.known⟩

theorem Numbering.Like.renumber (hρ : ρ.InOrder) (make : Nat → Term) {n n' : Numbering}
    (hn : n.Like ρ n') {x x' : Term} (hx : ρ.Leaf x x') :
    (x'.renumber make n').1 = (x.renumber make n).1 ∧
      (x.renumber make n).2.Like ρ (x'.renumber make n').2 := by
  have hvar : x.isVar = true ∧ x'.isVar = true := by cases hx <;> exact ⟨rfl, rfl⟩
  rw [Term.renumber_of_isVar hvar.1, Term.renumber_of_isVar hvar.2]
  obtain ⟨h1, h2⟩ := hn.number hρ hx
  exact ⟨congrArg make h1, h2⟩

theorem Term.Like.renumber (hρ : ρ.InOrder) (make : Nat → Term) (h : t.Like ρ t')
    {n n' : Numbering} (hn : n.Like ρ n') : (t'.renumber make n').1 = (t.renumber make n).1 ∧
      (t.renumber make n).2.Like ρ (t'.renumber make n').2 := by
  induction t using Term.induct generalizing t' n n' with
  | node c =>
    rw [Term.like_node.1 h]
    exact ⟨rfl, hn⟩
  | app f ts ih =>
    obtain ⟨ts', rfl, hts⟩ := Term.like_app.1 h
    clear h
    have all : (Term.renumberAll make ts' n').1 = (Term.renumberAll make ts n).1 ∧
        (Term.renumberAll make ts n).2.Like ρ (Term.renumberAll make ts' n').2 := by
      induction hts generalizing n n' with
      | nil => exact ⟨rfl, hn⟩
      | @cons t t' ts ts' h1 _ ih2 =>
        obtain ⟨h2, h3⟩ := ih t List.mem_cons_self h1 hn
        obtain ⟨h4, h5⟩ := ih2 (fun t ht => ih t (List.mem_cons_of_mem _ ht)) h3
        exact ⟨by simp only [Term.renumberAll, h2, h4], h5⟩
    exact ⟨congrArg (Term.app f) all.1, all.2⟩
  | var x => exact hn.renumber hρ make (Term.instance_var.1 h)
  | ref v => exact hn.renumber hρ make (Term.instance_ref.1 h)
  | any => exact hn.renumber hρ make (Term.instance_any.1 h)

theorem Triple.Like.variantKey (hρ : ρ.InOrder) {t t' : Triple} (h : t.Like ρ t') :
    t'.variantKey = t.variantKey := by
  have none : Numbering.Like ρ {} {} := ⟨rfl, .nil⟩
  obtain ⟨h1, h2⟩ := Term.Like.renumber hρ (fun i => .var s!"_{i}") h.subject none
  obtain ⟨h3, h4⟩ := Term.Like.renumber hρ (fun i => .var s!"_{i}") h.predicate h2
  obtain ⟨h5, -⟩ := Term.Like.renumber hρ (fun i => .var s!"_{i}") h.object h4
  simp only [Triple.variantKey, Triple.renumber, h1, h3, h5]

end

/-! ## Bindings -/

/-- The bindings are the same but for variables that stand for each other. Other variables are
of no concern. -/
structure Bindings.Like (ρ : Renaming) (b b' : Bindings) : Prop where
  ordered : b.Ordered
  ordered' : b'.Ordered
  inOrder : ρ.InOrder
  lt : ∀ {v v'}, ρ v v' → v < b.size
  lt' : ∀ {v v'}, ρ v v' → v' < b'.size
  value : ∀ {v v'}, ρ v v' → Option.Rel (Term.Like ρ) (b.value? v) (b'.value? v')

namespace Bindings

section

variable {ρ ρ' : Renaming} {b b' : Bindings} {t t' l l' r r' : Term} {v v' u u' n k : Nat}

theorem Like.grow (h : b.Like ρ b') (n k : Nat) : (b.grow n).Like ρ (b'.grow k) :=
  ⟨h.ordered.grow n, h.ordered'.grow k, h.inOrder,
    fun hv => Nat.lt_of_lt_of_le (h.lt hv) (Nat.le_max_left _ _),
    fun hv => Nat.lt_of_lt_of_le (h.lt' hv) (Nat.le_max_left _ _), h.value⟩

theorem Like.isEnd (h : b.Like ρ b') (ht : t.Like ρ t') (hend : b.IsEnd t) : b'.IsEnd t' := by
  rintro v' rfl
  obtain ⟨v, rfl, hv⟩ := ht.ref_right
  have hval := h.value hv
  rw [hend v rfl] at hval
  generalize b'.value? v' = x at hval
  cases hval
  rfl

theorem Like.deref (h : b.Like ρ b') (ht : t.Like ρ t') : (b.deref t).Like ρ (b'.deref t') := by
  induction t using h.ordered.chain_induct generalizing t' with
  | stop t hend => rwa [deref_of_isEnd hend, deref_of_isEnd (h.isEnd ht hend)]
  | link v t hv ih =>
    obtain ⟨v', rfl, hpair⟩ := Term.like_ref.1 ht
    have hval := h.value hpair
    rw [hv] at hval
    generalize hv' : b'.value? v' = x at hval
    cases hval with
    | some hlike =>
      rw [deref_ref_of_some h.ordered hv, deref_ref_of_some h.ordered' hv']
      exact ih hlike

theorem Like.derefTriple (h : b.Like ρ b') {t t' : Triple} (ht : t.Like ρ t') :
    (t.mapTerms b.deref).Like ρ (t'.mapTerms b'.deref) :=
  ⟨h.deref ht.subject, h.deref ht.predicate, h.deref ht.object⟩

theorem Like.isBound (h : b.Like ρ b') (ht : t.Like ρ t') : b'.isBound t' = b.isBound t := by
  unfold Bindings.isBound
  rw [(h.deref ht).isVar]

/-- The values are alike, however deep each is looked for. -/
theorem Like.deepDeref (h : b.Like ρ b') (ht : t.Like ρ t') {g g' : Term}
    (hg : b.deepDeref n t = some g) (hg' : b'.deepDeref k t' = some g') : g.Like ρ g' := by
  induction n generalizing k t t' g g' with
  | zero => cases hg
  | succ n ih =>
    cases k with
    | zero => cases hg'
    | succ k =>
      have hd := h.deref ht
      rw [Bindings.deepDeref] at hg hg'
      generalize b.deref t = d, b'.deref t' = d' at hd hg hg'
      cases d with
      | app f ts =>
        obtain ⟨ts', rfl, hts⟩ := Term.like_app.1 hd
        obtain ⟨gs, hgs, rfl⟩ := Option.map_eq_some_iff.1 hg
        obtain ⟨gs', hgs', rfl⟩ := Option.map_eq_some_iff.1 hg'
        have hall := mapM_eq_some_iff.1 hgs
        have hall' := mapM_eq_some_iff.1 hgs'
        clear hg hg' hgs hgs' hd ht
        refine Term.like_app.2 ⟨gs', rfl, ?_⟩
        induction hts generalizing gs gs' with
        | nil =>
          cases hall
          cases hall'
          exact .nil
        | cons h1 _ ih2 =>
          cases hall with
          | cons h2 h3 =>
            cases hall' with
            | cons h4 h5 => exact .cons (ih h1 h2 h4) (ih2 _ _ h3 h5)
      | node c =>
        obtain rfl := Term.like_node.1 hd
        cases hg
        cases hg'
        exact hd
      | var x =>
        obtain rfl := Term.like_var.1 hd
        cases hg
        cases hg'
        exact hd
      | ref v =>
        obtain ⟨v', rfl, hv⟩ := Term.like_ref.1 hd
        cases hg
        cases hg'
        exact hd
      | any =>
        obtain rfl := Term.like_any.1 hd
        cases hg
        cases hg'
        exact hd

theorem Like.deepDerefTriple (h : b.Like ρ b') {t t' g g' : Triple} (ht : t.Like ρ t')
    (hg : t.mapTerms? (b.deepDeref n) = some g) (hg' : t'.mapTerms? (b'.deepDeref k) = some g') :
    g.Like ρ g' := by
  obtain ⟨h1, h2, h3⟩ := mapTerms?_eq_some_iff.1 hg
  obtain ⟨h4, h5, h6⟩ := mapTerms?_eq_some_iff.1 hg'
  exact ⟨h.deepDeref ht.subject h1 h4, h.deepDeref ht.predicate h2 h5, h.deepDeref ht.object h3 h6⟩

/-- Answers that are written out are the same. -/
theorem Like.resolve (h : b.Like ρ b') {t t' g g' : Triple} (ht : t.Like ρ t')
    (hg : t.mapTerms? (b.resolve n) = some g) (hg' : t'.mapTerms? (b'.resolve k) = some g') :
    g' = g := by
  have each : ∀ {t t' g g' : Term}, t.Like ρ t' → b.resolve n t = some g →
      b'.resolve k t' = some g' → g' = g := by
    intro t t' g g' ht hg hg'
    obtain ⟨x, hx, rfl⟩ := Option.map_eq_some_iff.1 hg
    obtain ⟨x', hx', rfl⟩ := Option.map_eq_some_iff.1 hg'
    exact (h.deepDeref ht hx hx').mapVars
  obtain ⟨h1, h2, h3⟩ := mapTerms?_eq_some_iff.1 hg
  obtain ⟨h4, h5, h6⟩ := mapTerms?_eq_some_iff.1 hg'
  obtain ⟨s, p, o⟩ := g
  obtain ⟨s', p', o'⟩ := g'
  obtain rfl : s' = s := each ht.subject h1 h4
  obtain rfl : p' = p := each ht.predicate h2 h5
  obtain rfl : o' = o := each ht.object h3 h6
  rfl

/-- A term that has a ground value has it in both. -/
theorem Like.means (h : b.Like ρ b') (ht : t.Like ρ t') {g : Term} (hg : b.Means t g) :
    b'.Means t' g := by
  obtain ⟨n, hn, hground⟩ := hg
  induction n generalizing t t' g with
  | zero => cases hn
  | succ n ih =>
    have hd := h.deref ht
    rw [← means_deref h.ordered']
    rw [Bindings.deepDeref] at hn
    generalize b.deref t = d, b'.deref t' = d' at hd hn
    cases d with
    | app f ts =>
      obtain ⟨ts', rfl, hts⟩ := Term.like_app.1 hd
      obtain ⟨gs, hgs, rfl⟩ := Option.map_eq_some_iff.1 hn
      have hall := mapM_eq_some_iff.1 hgs
      have hgrounds := Term.isGround_app.1 hground
      clear hn hgs hd ht hground
      refine means_app.2 ⟨gs, rfl, ?_⟩
      induction hts generalizing gs with
      | nil =>
        cases hall
        exact .nil
      | cons h1 _ ih2 =>
        cases hall with
        | cons h2 h3 =>
          exact .cons (ih h1 h2 (hgrounds _ List.mem_cons_self))
            (ih2 _ h3 fun g hg => hgrounds g (List.mem_cons_of_mem _ hg))
    | node c =>
      obtain rfl := Term.like_node.1 hd
      cases hn
      exact means_node.2 rfl
    | _ =>
      cases hn
      cases hground

/-! ## New bindings -/

theorem Like.canBind (h : b.Like ρ b') (hv : ρ v v') (ht : t.Like ρ t') (hc : b.CanBind v t) :
    b'.CanBind v' t' where
  exists_var := h.lt' hv
  unbound := isEnd_ref.1 (h.isEnd (Term.like_ref.2 ⟨v', rfl, hv⟩) (isEnd_ref.2 hc.unbound))
  isEnd := h.isEnd ht hc.isEnd
  older := by
    rintro u' rfl
    obtain ⟨u, rfl, hu⟩ := ht.ref_right
    exact (h.inOrder.lt_iff hu hv).1 (hc.older u rfl)

theorem Like.bind (h : b.Like ρ b') (hv : ρ v v') (ht : t.Like ρ t') (hc : b.CanBind v t) :
    (b.bind v t).Like ρ (b'.bind v' t') := by
  have hc' := h.canBind hv ht hc
  refine ⟨hc.ordered h.ordered, hc'.ordered h.ordered', h.inOrder, fun hu => ?_, fun hu => ?_,
    fun {u u'} hu => ?_⟩
  · rw [size_bind]
    exact h.lt hu
  · rw [size_bind]
    exact h.lt' hu
  · rw [value?_bind hc.exists_var, value?_bind hc'.exists_var]
    by_cases e : v = u
    · rw [if_pos e, if_pos ((h.inOrder.eq_iff hv hu).1 e)]
      exact .some ht
    · rw [if_neg e, if_neg fun e' => e ((h.inOrder.eq_iff hv hu).2 e')]
      exact h.value hu

theorem Like.merge (h : b.Like ρ b') (hv : ρ v v') (hu : ρ u u') (hvn : b.value? v = none)
    (hun : b.value? u = none) : (b.merge v u).Like ρ (b'.merge v' u') := by
  by_cases e : v = u
  · unfold Bindings.merge
    rw [if_pos e, if_pos ((h.inOrder.eq_iff hv hu).1 e)]
    exact h
  · have hc := canBind_merge (h.lt hv) (h.lt hu) hvn hun e
    have hne : v' ≠ u' := fun e' => e ((h.inOrder.eq_iff hv hu).2 e')
    rw [merge_eq_bind b e, merge_eq_bind b' hne]
    rcases Nat.lt_or_gt_of_ne e with hlt | hlt
    · have hlt' := (h.inOrder.lt_iff hv hu).1 hlt
      rw [Nat.max_eq_right (Nat.le_of_lt hlt), Nat.min_eq_left (Nat.le_of_lt hlt)] at hc ⊢
      rw [Nat.max_eq_right (Nat.le_of_lt hlt'), Nat.min_eq_left (Nat.le_of_lt hlt')]
      exact h.bind hu (Term.like_ref.2 ⟨v', rfl, hv⟩) hc
    · have hlt' := (h.inOrder.lt_iff hu hv).1 hlt
      rw [Nat.max_eq_left (Nat.le_of_lt hlt), Nat.min_eq_right (Nat.le_of_lt hlt)] at hc ⊢
      rw [Nat.max_eq_left (Nat.le_of_lt hlt'), Nat.min_eq_right (Nat.le_of_lt hlt')]
      exact h.bind hv (Term.like_ref.2 ⟨u', rfl, hu⟩) hc

/-- New variables stand for each other. -/
theorem Like.newVar (h : b.Like ρ b') : ∃ ρ', ρ ≤ ρ' ∧ ρ' b.size b'.size ∧
    b.newVar.2.Like ρ' b'.newVar.2 := by
  have hle : ρ ≤ fun v v' => ρ v v' ∨ v = b.size ∧ v' = b'.size := fun _ _ => .inl
  refine ⟨_, hle, .inr ⟨rfl, rfl⟩, h.ordered.newVar, h.ordered'.newVar, ⟨fun hv hu => ?_⟩,
    fun hv => ?_, fun hv => ?_, fun hv => ?_⟩
  · rcases hv with hv | ⟨rfl, rfl⟩
    · rcases hu with hu | ⟨rfl, rfl⟩
      · exact h.inOrder.lt_iff hv hu
      · exact ⟨fun _ => h.lt' hv, fun _ => h.lt hv⟩
    · rcases hu with hu | ⟨rfl, rfl⟩
      · have h1 := h.lt hu
        have h2 := h.lt' hu
        omega
      · omega
  · rcases hv with hv | ⟨rfl, rfl⟩
    · exact Nat.lt_succ_of_lt (h.lt hv)
    · exact Nat.lt_succ_self _
  · rcases hv with hv | ⟨rfl, rfl⟩
    · exact Nat.lt_succ_of_lt (h.lt' hv)
    · exact Nat.lt_succ_self _
  · rw [value?_newVar, value?_newVar]
    rcases hv with hv | ⟨rfl, rfl⟩
    · have hval := h.value hv
      generalize b.value? _ = x, b'.value? _ = y at hval
      cases hval with
      | some ht => exact .some (ht.mono hle)
      | none => exact .none
    · have hnone : ∀ {c : Bindings}, c.Ordered → c.value? c.size = none := fun hc => by
        rw [Option.eq_none_iff_forall_ne_some]
        exact fun t ht => Nat.lt_irrefl _ (hc.bound_lt ht)
      rw [hnone h.ordered, hnone h.ordered']
      exact .none

/-! ## Unification -/

theorem Like.unifyEach {f g : Bindings → Term → Term → Option (Option Bindings)}
    (hfg : ∀ {b b' l l' r r' x x'}, b.Like ρ b' → l.Like ρ l' → r.Like ρ r' → f b l r = some x →
      g b' l' r' = some x' → Option.Rel (Bindings.Like ρ) x x')
    {ls ls' rs rs' : List Term} {x x' : Option Bindings} (h : b.Like ρ b')
    (hl : List.Forall₂ (Term.Like ρ) ls ls') (hr : List.Forall₂ (Term.Like ρ) rs rs')
    (hx : unifyEach f b ls rs = some x) (hx' : unifyEach g b' ls' rs' = some x') :
    Option.Rel (Bindings.Like ρ) x x' := by
  induction hl generalizing b b' rs rs' with
  | nil =>
    simp only [Bindings.unifyEach, Option.some.injEq] at hx hx'
    subst hx hx'
    exact .some h
  | @cons l l' ls ls' h1 _ ih =>
    cases hr with
    | nil =>
      simp only [Bindings.unifyEach, Option.some.injEq] at hx hx'
      subst hx hx'
      exact .some h
    | @cons r r' rs rs' h2 h3 =>
      rw [Bindings.unifyEach] at hx hx'
      cases hf : f b l r with
      | none => simp [hf] at hx
      | some y =>
        cases hg : g b' l' r' with
        | none => simp [hg] at hx'
        | some y' =>
          have hy := hfg h h1 h2 hf hg
          rw [hf] at hx
          rw [hg] at hx'
          cases hy with
          | some hb => exact ih hb h3 hx hx'
          | none =>
            cases hx
            cases hx'
            exact .none

/-- Unification comes out alike, however deep each is looked for. -/
theorem Like.unify (h : b.Like ρ b') (hl : l.Like ρ l') (hr : r.Like ρ r') {x x' : Option Bindings}
    (hx : b.unify n l r = some x) (hx' : b'.unify k l' r' = some x') :
    Option.Rel (Bindings.Like ρ) x x' := by
  induction n generalizing k b b' l l' r r' x x' with
  | zero => cases hx
  | succ n ih =>
    cases k with
    | zero => cases hx'
    | succ k =>
      have dl := h.deref hl
      have dr := h.deref hr
      have endl := isEnd_deref h.ordered l
      have endr := isEnd_deref h.ordered r
      generalize hL : b.deref l = L, hR : b.deref r = R at dl dr endl endr
      cases Meeting.of L R with
      | wild hw =>
        rw [unify_wild (by rwa [hL, hR])] at hx
        rw [unify_wild (hw.imp dl.wild dr.wild)] at hx'
        cases hx
        cases hx'
        exact .some h
      | refs v u =>
        obtain ⟨v', hL', hv⟩ := Term.like_ref.1 dl
        obtain ⟨u', hR', hu⟩ := Term.like_ref.1 dr
        rw [unify_refs hL hR] at hx
        rw [unify_refs hL' hR'] at hx'
        cases hx
        cases hx'
        exact .some (h.merge hv hu (isEnd_ref.1 endl) (isEnd_ref.1 endr))
      | refLeft v hw ht =>
        obtain ⟨v', hL', hv⟩ := Term.like_ref.1 dl
        rw [unify_refLeft hL hR hw ht] at hx
        rw [unify_refLeft hL' rfl (dr.not_wild hw) fun u' e => by
          obtain ⟨u, e', -⟩ := (e ▸ dr).ref_right
          exact ht u e'] at hx'
        cases hx
        cases hx'
        exact .some (h.bind hv dr
          ⟨h.lt hv, isEnd_ref.1 endl, endr, fun u e => absurd e (ht u)⟩)
      | refRight v hw ht =>
        obtain ⟨v', hR', hv⟩ := Term.like_ref.1 dr
        rw [unify_refRight hL hR hw ht] at hx
        rw [unify_refRight rfl hR' (dl.not_wild hw) fun u' e => by
          obtain ⟨u, e', -⟩ := (e ▸ dl).ref_right
          exact ht u e'] at hx'
        cases hx
        cases hx'
        exact .some (h.bind hv dl
          ⟨h.lt hv, isEnd_ref.1 endr, endl, fun u e => absurd e (ht u)⟩)
      | nodes c d =>
        rw [unify_nodes hL hR] at hx
        rw [unify_nodes (Term.like_node.1 dl) (Term.like_node.1 dr)] at hx'
        cases hx
        cases hx'
        split
        · exact .some h
        · exact .none
      | apps f g ls rs =>
        obtain ⟨ls', hL', hls⟩ := Term.like_app.1 dl
        obtain ⟨rs', hR', hrs⟩ := Term.like_app.1 dr
        rw [unify_apps hL hR] at hx
        rw [unify_apps hL' hR', ← hls.length_eq, ← hrs.length_eq] at hx'
        split at hx
        · next heq =>
          rw [if_pos heq] at hx'
          exact Like.unifyEach (fun h hl hr hx hx' => ih h hl hr hx hx') h hls hrs hx hx'
        · next hne =>
          rw [if_neg hne] at hx'
          cases hx
          cases hx'
          exact .none
      | nodeApp c f rs =>
        obtain ⟨rs', hR', -⟩ := Term.like_app.1 dr
        rw [unify_nodeApp hL hR] at hx
        rw [unify_nodeApp (Term.like_node.1 dl) hR'] at hx'
        cases hx
        cases hx'
        exact .none
      | appNode c f ls =>
        obtain ⟨ls', hL', -⟩ := Term.like_app.1 dl
        rw [unify_appNode hL hR] at hx
        rw [unify_appNode hL' (Term.like_node.1 dr)] at hx'
        cases hx
        cases hx'
        exact .none

theorem Like.unifyAll (h : b.Like ρ b') {ls ls' rs rs' : List Term} {x x' : Option Bindings}
    (hl : List.Forall₂ (Term.Like ρ) ls ls') (hr : List.Forall₂ (Term.Like ρ) rs rs')
    (hx : b.unifyAll n ls rs = some x) (hx' : b'.unifyAll k ls' rs' = some x') :
    Option.Rel (Bindings.Like ρ) x x' :=
  Like.unifyEach (fun h hl hr hx hx' => h.unify hl hr hx hx') h hl hr hx hx'

theorem Like.unifyTriple (h : b.Like ρ b') {goal goal' t : Triple} {x x' : Option Bindings}
    (hgoal : goal.Like ρ goal') (ht : ∀ u ∈ t.terms, u.Has (· = .any))
    (hx : b.unifyTriple n goal t = some x) (hx' : b'.unifyTriple k goal' t = some x') :
    Option.Rel (Bindings.Like ρ) x x' :=
  h.unifyAll hgoal.terms (List.forall₂_same.2 fun u hu => Term.like_of_has (ht u hu)) hx hx'

end

end Bindings

end TabledRules
