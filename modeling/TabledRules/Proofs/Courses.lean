-- Compiled code keeps to its rule. The head operations succeed when the head
-- unifies with the called goal, and at every later call the registers have
-- the terms of the entry, under one assignment of the rule's variables.
import TabledRules.Proofs.Heads
import TabledRules.Proofs.SoundQueries

namespace TabledRules

open Bindings

/-! ## What an entry passes on -/

/-- The terms without parts that an entry passes on, in order. -/
def Entry.items : Entry → List Term
  | .triple ⟨s, p, .app _ ts⟩ => s :: p :: ts
  | .triple t => t.terms
  | .builtin c => c.args

/-- What the argument registers begin with when the items have these values. -/
def Entry.load : Entry → List Term → List Term
  | .triple ⟨_, _, .app f _⟩, s :: p :: us => [s, p, .app f us]
  | _, us => us

/-- The instruction that an entry ends with. -/
def Rule.Ends (r : Rule) (layout : Layout) (registry : Registry) : Entry → Instruction → Prop
  | .triple pattern, i => i = .call (layout.callFor (!r.placement.permanent.isEmpty) pattern)
  | .builtin c, i => ∃ f, registry.get? c.name = some f ∧ i = .builtin f c.args.length

/-- An unbound variable that is none of the `old` first ones. -/
def Bindings.Fresh (old : Nat) (b : Bindings) (u : Term) : Prop :=
  ∃ k, u = .ref k ∧ old ≤ k ∧ k < b.size ∧ b.value? k = none

/-- The register has what the item stands for: a variable its value, up to the bindings in
between, and a wildcard a new variable. -/
def Values.Holds (θ : Values) (old : Nat) (b : Bindings) : Term → Term → Prop
  | .var v, u => ∃ t, θ v = some t ∧ b.deref u = b.deref t
  | .node c, u => u = .node c
  | .ref _, u | .any, u => b.Fresh old u
  | .app _ _, _ => False

/-- The values `us` are those of the items of an entry, when the variables in `met` have been
met before. -/
structure Values.Carries (θ : Values) (old : Nat) (b : Bindings) (met ts us : List Term) : Prop where
  holds : List.Forall₂ (θ.Holds old b) ts us
  /-- A variable that is met here is a new one. -/
  unmet : ∀ v, Term.var v ∈ ts → Term.var v ∉ met → ∃ t, θ v = some t ∧ b.Fresh old t
  /-- Items share a new variable only if they are one variable of the rule. -/
  apart : ∀ (i j : Nat) (t t' u : Term), ts[i]? = some t → ts[j]? = some t' → us[i]? = some u → us[j]? = some u →
    b.Fresh old u → i = j ∨ t = t' ∧ ∃ v, t = .var v

section

variable {r : Rule} {values : Bool} {θ θ' θ'' : Values} {b b' b'' : Bindings} {t u : Term}
  {ts us : List Term} {v : String} {n old : Nat} {known : List String} {goal pattern : Triple}

theorem Bindings.Fresh.mono (h : b.Fresh old u) (hle : n ≤ old) : b.Fresh n u := by
  obtain ⟨k, rfl, h1, h2, h3⟩ := h
  exact ⟨k, rfl, Nat.le_trans hle h1, h2, h3⟩

theorem Bindings.Fresh.later (h : b.Fresh old u) (hp : Passes b θ b' θ') : b'.Fresh old u := by
  obtain ⟨k, rfl, h1, h2, h3⟩ := h
  exact ⟨k, rfl, h1, Nat.lt_of_lt_of_le h2 hp.keeps.size_le, (hp.same k).trans h3⟩

theorem Values.Holds.mono (h : θ.Holds old b t u) (hold : n ≤ old) (hle : θ.Le θ') :
    θ'.Holds n b t u := by
  cases t with
  | var v =>
    obtain ⟨x, hx, hd⟩ := h
    exact ⟨x, hle v x hx, hd⟩
  | node c => exact h
  | app f ts => exact h
  | ref k => exact Bindings.Fresh.mono h hold
  | any => exact Bindings.Fresh.mono h hold

/-- What is passed on is not changed by passing on more. -/
theorem Values.Holds.later (h : θ.Holds old b t u) (hb : b.Fits IsRef) (hp : Passes b θ b' θ') :
    θ'.Holds old b' t u := by
  cases t with
  | var v =>
    obtain ⟨x, hx, hd⟩ := h
    refine ⟨x, hp.le v x hx, ?_⟩
    rw [← hp.keeps.deref_deref hb.ordered hp.fits.ordered u, hd,
      hp.keeps.deref_deref hb.ordered hp.fits.ordered x]
  | node c => exact h
  | app f ts => exact h
  | ref k => exact Bindings.Fresh.later h hp
  | any => exact Bindings.Fresh.later h hp

theorem Values.Carries.mono {met : List Term} (h : θ.Carries old b met ts us) (hle : θ.Le θ') :
    θ'.Carries old b met ts us := by
  refine ⟨h.holds.imp fun _ _ hx => hx.mono (Nat.le_refl _) hle, fun v hv hm => ?_, h.apart⟩
  obtain ⟨x, hx, hf⟩ := h.unmet v hv hm
  exact ⟨x, hle v x hx, hf⟩

theorem fresh_newVar (hb : b.Fits IsRef) : b.newVar.2.Fresh b.size (.ref b.size) :=
  ⟨_, rfl, Nat.le_refl _, Nat.lt_succ_self _, value?_size hb⟩

theorem deref_new (hb : b.Fits IsRef) : b.newVar.2.deref (.ref b.size) = .ref b.size :=
  deref_ref_of_none (value?_size hb)

/-! ## One item -/

/-- An item makes a new variable, or its value is there already. -/
theorem putLeaf_cases (ht : t.isApp = false) (h : r.putLeaf values θ b t = (u, θ', b')) :
    (u = .ref b.size ∧ b' = b.newVar.2 ∧
      (θ' = θ ∧ (∀ v, t ≠ .var v) ∨ ∃ v, t = .var v ∧ θ v = none ∧ θ' = θ.set v (.ref b.size))) ∨
    θ' = θ ∧ b' = b ∧ ((∃ c, t = .node c ∧ u = .node c) ∨
      ∃ v x, t = .var v ∧ θ v = some x ∧ (u = x ∨ u = b.deref x)) := by
  cases t with
  | var v =>
    unfold Rule.putLeaf at h
    simp only at h
    split at h
    · next x hx =>
      cases h
      refine .inr ⟨rfl, rfl, .inr ⟨v, x, rfl, hx, ?_⟩⟩
      split
      · exact .inr rfl
      · exact .inl rfl
    · next hv =>
      cases h
      exact .inl ⟨rfl, rfl, .inr ⟨v, rfl, hv, rfl⟩⟩
  | node c =>
    cases h
    exact .inr ⟨rfl, rfl, .inl ⟨c, rfl, rfl⟩⟩
  | app f ts => cases ht
  | ref k =>
    cases h
    exact .inl ⟨rfl, rfl, .inl ⟨rfl, fun v e => by cases e⟩⟩
  | any =>
    cases h
    exact .inl ⟨rfl, rfl, .inl ⟨rfl, fun v e => by cases e⟩⟩

theorem putLeaf_holds (hb : b.Fits IsRef) (ht : t.isApp = false)
    (h : r.putLeaf values θ b t = (u, θ', b')) : θ'.Holds b.size b' t u := by
  rcases putLeaf_cases ht h with ⟨rfl, rfl, ⟨rfl, hvar⟩ | ⟨v, rfl, -, rfl⟩⟩ |
    ⟨rfl, rfl, ⟨c, rfl, rfl⟩ | ⟨v, x, rfl, hx, hu⟩⟩
  · cases t with
    | var v => exact absurd rfl (hvar v)
    | node c => cases h
    | app f ts => cases ht
    | ref k => exact fresh_newVar hb
    | any => exact fresh_newVar hb
  · exact ⟨.ref b.size, by simp, rfl⟩
  · rfl
  · refine ⟨x, hx, ?_⟩
    rcases hu with rfl | rfl
    · rfl
    · exact deref_deref hb.ordered x

/-- A variable that gets its value here gets a new one. -/
theorem putLeaf_new (hb : b.Fits IsRef) (ht : t.isApp = false)
    (h : r.putLeaf values θ b t = (u, θ', b')) {x : Term} (hv : θ v = none) (hx : θ' v = some x) :
    b'.Fresh b.size x := by
  rcases putLeaf_cases ht h with ⟨rfl, rfl, ⟨rfl, -⟩ | ⟨w, rfl, -, rfl⟩⟩ | ⟨rfl, -, -⟩
  · rw [hv] at hx
    cases hx
  · by_cases e : v = w
    · subst e
      rw [Values.set_self] at hx
      cases hx
      exact fresh_newVar hb
    · rw [Values.set_of_ne θ _ e, hv] at hx
      cases hx
  · rw [hv] at hx
    cases hx

/-- No two variables of the rule stand for one of the new variables. -/
def Values.Apart (old : Nat) (θ : Values) (b : Bindings) : Prop :=
  ∀ v v' x x' k, θ v = some x → θ v' = some x' → b.deref x = .ref k → b.deref x' = .ref k →
    old ≤ k → v = v'

theorem deref_lt {k : Nat} (hb : b.Fits IsRef) (ht : b.Scoped IsRef t) (h : b.deref t = .ref k) :
    k < b.size := by
  have := hb.deref ht
  rw [h] at this
  exact (Term.has_ref.1 this).2 k rfl

theorem Values.Scoped.apart (hb : b.Fits IsRef) (hθ : θ.Scoped b) : θ.Apart b.size b := by
  intro v v' x x' k hx _ hk _ hle
  exact absurd (deref_lt hb (hθ v x hx) hk) (Nat.not_lt.2 hle)

theorem deref_newVar (hb : b.Fits IsRef) (t : Term) : b.newVar.2.deref t = b.deref t := by
  have h := (Extends.newVar b).deref_deref hb.ordered hb.newVar.ordered t
  rw [← h]
  cases e : b.deref t with
  | ref k =>
    have hnone : b.value? k = none := value?_of_deref_eq_ref hb.ordered e
    exact deref_ref_of_none hnone
  | _ => simp

theorem Values.Apart.putLeaf (ha : θ.Apart old b) (hb : b.Fits IsRef) (hθ : θ.Scoped b)
    (ht : t.isApp = false) (h : r.putLeaf values θ b t = (u, θ', b')) : θ'.Apart old b' := by
  have kept : ∀ {v x k}, θ v = some x → b.newVar.2.deref x = .ref k → b.deref x = .ref k ∧
      k < b.size := fun hx hk => by
    rw [deref_newVar hb] at hk
    exact ⟨hk, deref_lt hb (hθ _ _ hx) hk⟩
  rcases putLeaf_cases ht h with ⟨rfl, rfl, ⟨rfl, -⟩ | ⟨w, rfl, -, rfl⟩⟩ | ⟨rfl, rfl, -⟩
  · intro v v' x x' k hx hx' hk hk' hle
    exact ha v v' x x' k hx hx' (kept hx hk).1 (kept hx' hk').1 hle
  · have hnew := deref_new hb
    intro v v' x x' k hx hx' hk hk' hle
    by_cases e : v = w <;> by_cases e' : v' = w
    · rw [e, e']
    · subst e
      rw [Values.set_self] at hx
      rw [Values.set_of_ne θ _ e'] at hx'
      cases hx
      cases hnew.symm.trans hk
      exact absurd (kept hx' hk').2 (Nat.lt_irrefl _)
    · subst e'
      rw [Values.set_self] at hx'
      rw [Values.set_of_ne θ _ e] at hx
      cases hx'
      cases hnew.symm.trans hk'
      exact absurd (kept hx hk).2 (Nat.lt_irrefl _)
    · rw [Values.set_of_ne θ _ e] at hx
      rw [Values.set_of_ne θ _ e'] at hx'
      exact ha v v' x x' k hx hx' (kept hx hk).1 (kept hx' hk').1 hle
  · exact ha

/-! ## All items of an entry -/

theorem putLeaves_holds (hb : b.Fits IsRef) (hθ : θ.Scoped b) (hts : ∀ t ∈ ts, t.isApp = false)
    (h : r.putLeaves values θ b ts = (us, θ', b')) :
    List.Forall₂ (θ'.Holds b.size b') ts us := by
  induction ts generalizing θ b us with
  | nil =>
    cases h
    exact .nil
  | cons t ts ih =>
    obtain ⟨u, θ1, b1, us1, hu, hus, rfl⟩ := putLeaves_cons h
    have ht := hts t List.mem_cons_self
    have hts' := fun t ht => hts t (List.mem_cons_of_mem _ ht)
    obtain ⟨h1, -⟩ := putLeaf_means hb hθ ht hu
    obtain ⟨h2, -⟩ := putLeaves_means h1.fits h1.values hts' hus
    refine .cons ((putLeaf_holds hb ht hu).later h1.fits h2) ?_
    exact (ih h1.fits h1.values hts' hus).imp fun _ _ hx => hx.mono h1.keeps.size_le fun _ _ h => h

theorem putLeaves_new (hb : b.Fits IsRef) (hθ : θ.Scoped b) (hts : ∀ t ∈ ts, t.isApp = false)
    (h : r.putLeaves values θ b ts = (us, θ', b')) {x : Term} (hv : θ v = none)
    (hx : θ' v = some x) : b'.Fresh b.size x := by
  induction ts generalizing θ b us with
  | nil =>
    cases h
    rw [hv] at hx
    cases hx
  | cons t ts ih =>
    obtain ⟨u, θ1, b1, us1, hu, hus, rfl⟩ := putLeaves_cons h
    have ht := hts t List.mem_cons_self
    have hts' := fun t ht => hts t (List.mem_cons_of_mem _ ht)
    obtain ⟨h1, -⟩ := putLeaf_means hb hθ ht hu
    obtain ⟨h2, -⟩ := putLeaves_means h1.fits h1.values hts' hus
    cases hv1 : θ1 v with
    | none => exact (ih h1.fits h1.values hts' hus hv1).mono h1.keeps.size_le
    | some y =>
      cases (putLeaves_keeps hus hv1).symm.trans hx
      exact (putLeaf_new hb ht hu hv hv1).later h2

/-- A variable that was there before is passed on only as the value of a variable of the
rule. -/
theorem putLeaves_old {k j : Nat} (hb : b.Fits IsRef) (hθ : θ.Scoped b)
    (hts : ∀ t ∈ ts, t.isApp = false) (h : r.putLeaves values θ b ts = (us, θ', b'))
    (hj : ts[j]? = some t) (hu : us[j]? = some (.ref k)) (hk : k < b.size)
    (hnone : b.value? k = none) : ∃ v x, t = .var v ∧ θ v = some x ∧ b.deref x = .ref k := by
  induction ts generalizing θ b us j with
  | nil => cases hj
  | cons t0 ts ih =>
    obtain ⟨u0, θ1, b1, us1, hu0, hus, rfl⟩ := putLeaves_cons h
    have ht0 := hts t0 List.mem_cons_self
    have hts' := fun t ht => hts t (List.mem_cons_of_mem _ ht)
    have hcases := putLeaf_cases ht0 hu0
    cases j with
    | zero =>
      cases hj
      cases hu
      rcases hcases with ⟨e, -, -⟩ | ⟨-, -, ⟨c, -, e⟩ | ⟨v, x, rfl, hx, hux⟩⟩
      · cases e
        exact absurd hk (Nat.lt_irrefl _)
      · cases e
      · refine ⟨v, x, rfl, hx, ?_⟩
        rcases hux with rfl | e
        · exact deref_ref_of_none hnone
        · exact e.symm
    | succ j =>
      obtain ⟨h1, -⟩ := putLeaf_means hb hθ ht0 hu0
      obtain ⟨v, x, rfl, hx, hd⟩ := ih h1.fits h1.values hts' hus hj hu
        (Nat.lt_of_lt_of_le hk h1.keeps.size_le) ((h1.same k).trans hnone)
      rcases hcases with ⟨-, rfl, ⟨rfl, -⟩ | ⟨w, -, -, rfl⟩⟩ | ⟨rfl, rfl, -⟩
      · exact ⟨v, x, rfl, hx, by rwa [← deref_newVar hb]⟩
      · by_cases e : v = w
        · subst e
          rw [Values.set_self] at hx
          cases hx
          cases (deref_new hb).symm.trans hd
          exact absurd hk (Nat.lt_irrefl _)
        · rw [Values.set_of_ne θ _ e] at hx
          exact ⟨v, x, rfl, hx, by rwa [← deref_newVar hb]⟩
      · exact ⟨v, x, rfl, hx, hd⟩

/-- The item that a new variable is passed on for: a wildcard, or a variable of the rule. -/
theorem putLeaf_owner {k : Nat} (hb : b.Fits IsRef) (ht : t.isApp = false)
    (h : r.putLeaf values θ b t = (.ref k, θ', b')) (hnone : b'.value? k = none) :
    (k = b.size ∧ θ' = θ ∧ b' = b.newVar.2) ∨
      ∃ v x, t = .var v ∧ θ' v = some x ∧ b'.deref x = .ref k := by
  rcases putLeaf_cases ht h with ⟨e, rfl, ⟨rfl, -⟩ | ⟨v, rfl, -, rfl⟩⟩ |
    ⟨rfl, rfl, ⟨c, -, e⟩ | ⟨v, x, rfl, hx, hu⟩⟩
  · cases e
    exact .inl ⟨rfl, rfl, rfl⟩
  · cases e
    exact .inr ⟨v, _, rfl, Values.set_self _ _ _, deref_new hb⟩
  · cases e
  · refine .inr ⟨v, x, rfl, hx, ?_⟩
    rcases hu with rfl | e
    · exact deref_ref_of_none hnone
    · exact e.symm

theorem putLeaves_apart {i j : Nat} {t' : Term} (hb : b.Fits IsRef) (hθ : θ.Scoped b)
    (ha : θ.Apart old b) (hts : ∀ t ∈ ts, t.isApp = false)
    (h : r.putLeaves values θ b ts = (us, θ', b')) (hij : i < j) (hi : ts[i]? = some t)
    (hj : ts[j]? = some t') (hui : us[i]? = some u) (huj : us[j]? = some u)
    (hu : b'.Fresh old u) : t = t' ∧ ∃ v, t = .var v := by
  induction ts generalizing θ b us i j with
  | nil => cases hi
  | cons t0 ts ih =>
    obtain ⟨u0, θ1, b1, us1, hu0, hus, rfl⟩ := putLeaves_cons h
    have ht0 := hts t0 List.mem_cons_self
    have hts' := fun t ht => hts t (List.mem_cons_of_mem _ ht)
    obtain ⟨h1, h2⟩ := putLeaf_means hb hθ ht0 hu0
    have ha1 := ha.putLeaf hb hθ ht0 hu0
    obtain ⟨j, rfl⟩ : ∃ j', j = j' + 1 := ⟨j - 1, by omega⟩
    cases i with
    | succ i => exact ih h1.fits h1.values ha1 hts' hus (by omega) hi hj hui huj
    | zero =>
      cases hi
      cases hui
      obtain ⟨k, rfl, hold, -, hnone⟩ := hu
      have hsame := (putLeaves_means h1.fits h1.values hts' hus).1.same
      have hnone1 : b1.value? k = none := (hsame k).symm.trans hnone
      have hk : k < b1.size := (Term.has_ref.1 h2.exists_vars).2 k rfl
      obtain ⟨v, x, rfl, hx, hd⟩ := putLeaves_old h1.fits h1.values hts' hus hj huj hk hnone1
      rcases putLeaf_owner hb ht0 hu0 hnone1 with ⟨rfl, rfl, rfl⟩ | ⟨w, y, rfl, hy, hd'⟩
      · rw [deref_newVar hb] at hd
        exact absurd (deref_lt hb (hθ v x hx) hd) (Nat.lt_irrefl _)
      · obtain rfl := ha1 v w x y k hx hy hd hd' hold
        exact ⟨rfl, v, rfl⟩

/-- What an entry passes on, the variables in `met` being those with values. -/
theorem putLeaves_carries {met : List Term} (hb : b.Fits IsRef) (hθ : θ.Scoped b)
    (hmet : ∀ v, (θ v).isSome ↔ Term.var v ∈ met) (hts : ∀ t ∈ ts, t.isApp = false)
    (h : r.putLeaves values θ b ts = (us, θ', b')) : θ'.Carries b.size b' met ts us := by
  have ha := Values.Scoped.apart hb hθ
  refine ⟨putLeaves_holds hb hθ hts h, fun v hv hm => ?_, fun i j t t' u hi hj hui huj hu => ?_⟩
  · have hnone : θ v = none := by
      by_contra hne
      exact hm ((hmet v).1 (Option.isSome_iff_ne_none.2 hne))
    obtain ⟨x, hx⟩ := Option.isSome_iff_exists.1 ((putLeaves_isSome h).2 (.inr hv))
    exact ⟨x, hx, putLeaves_new hb hθ hts h hnone hx⟩
  · rcases Nat.lt_trichotomy i j with hij | rfl | hij
    · exact .inr (putLeaves_apart hb hθ ha hts h hij hi hj hui huj hu)
    · exact .inl rfl
    · obtain ⟨rfl, hv⟩ := putLeaves_apart hb hθ ha hts h hij hj hi huj hui hu
      exact .inr ⟨rfl, hv⟩

/-- A goal is passed on item by item. -/
theorem putGoal_items (h : r.putGoal θ b pattern = (goal, θ', b')) :
    ∃ us, r.putLeaves false θ b (Entry.triple pattern).items = (us, θ', b') ∧
      (Entry.triple pattern).load us = goal.terms := by
  obtain ⟨s, p, o⟩ := pattern
  rcases h1 : r.putLeaf false θ b s with ⟨s', θ1, b1⟩
  rcases h2 : r.putLeaf false θ1 b1 p with ⟨p', θ2, b2⟩
  cases o with
  | app f ts =>
    rcases h3 : r.putLeaves false θ2 b2 ts with ⟨us, θ3, b3⟩
    simp only [Rule.putGoal, Rule.putObject, h1, h2, h3] at h
    cases h
    exact ⟨s' :: p' :: us, by simp [Entry.items, Rule.putLeaves, h1, h2, h3], rfl⟩
  | _ =>
    simp only [Rule.putGoal, Rule.putObject, h1, h2] at h
    cases h
    exact ⟨_, by simp only [Entry.items, Triple.terms, Rule.putLeaves, h1, h2], rfl⟩

theorem not_app_of_argumentFault {i : Nat} (h : r.argumentFault i ts = none) :
    ∀ t ∈ ts, t.isApp = false := by
  induction ts generalizing i with
  | nil => simp
  | cons t ts ih =>
    rw [Rule.argumentFault] at h
    split at h
    · cases h
    · next happ =>
      split at h
      · cases h
      · exact List.forall_mem_cons.2 ⟨by simpa using happ, ih h⟩

/-- The items of an entry that is not refused have no parts. -/
theorem not_app_of_entryFault {registry : Registry} {e : Entry}
    (h : r.entryFault registry e = none) : ∀ t ∈ e.items, t.isApp = false := by
  cases e with
  | builtin c =>
    rw [Rule.entryFault, Rule.builtinFault] at h
    split at h
    · cases h
    · split at h
      · cases h
      · exact not_app_of_argumentFault h
  | triple pattern =>
    obtain ⟨s, p, o⟩ := pattern
    simp only [Rule.entryFault, Rule.goalFault] at h
    split at h
    · cases h
    · next hsp =>
      simp only [Bool.or_eq_true, not_or, Bool.not_eq_true] at hsp
      cases o with
      | app f ts =>
        simp only at h
        split at h
        · cases h
        · next hany =>
          simp only [List.any_eq_true, not_exists, not_and, Bool.not_eq_true] at hany
          simpa [Entry.items, hsp] using hany
      | _ =>
        simp only [Entry.items, Triple.terms, List.forall_mem_cons]
        exact ⟨hsp.1, hsp.2, rfl, by simp⟩

theorem mem_items {e : Entry} : Term.var v ∈ e.items ↔ Term.var v ∈ e.flatten := by
  cases e with
  | builtin c => rfl
  | triple pattern =>
    obtain ⟨s, p, o⟩ := pattern
    cases o <;> simp [Entry.items, Entry.flatten, Triple.flatten, Triple.terms]

end

/-! ## Courses -/

/-- The body of a clause goes on after a call: the permanent variables are as they were, and
bindings may have been added. Nothing is known about the other registers. -/
structure Registers.Returns (g g' : Registers) : Prop where
  vars : g'.vars = g.vars
  args_length : g'.args.length = g.args.length
  keeps : g.bindings.Extends g'.bindings
  fits : g'.bindings.Fits IsRef

/-- Control has come to the instruction that ends an entry. Its code began with the registers
`before`. -/
structure Visit where
  before : Registers
  instruction : Instruction
  registers : Registers

/-- A clause runs through its code: operations up to a call or a builtin, then whatever this
brings about, and so on. -/
inductive Course (name : String) : Registers → List Instruction → List Visit → Prop
  | stop {g : Registers} {code : List Instruction} : Course name g code []
  | visit {n : Nat} {ops : List Operation} {i : Instruction} {code : List Instruction}
    {before g g' : Registers} {xs : List Visit} :
    (∀ op, i ≠ .operation op) → i ≠ .proceed →
    Operation.runAll name n before ops = some (.ok (some g)) → g.Returns g' →
    Course name g' code xs →
    Course name before (ops.map .operation ++ i :: code) (⟨before, i, g⟩ :: xs)

/-- At the visit the argument registers have the terms of the entry. -/
structure Rule.Visits (r : Rule) (layout : Layout) (registry : Registry) (θ : Values)
    (met : List Term) (e : Entry) (x : Visit) : Prop where
  ends : r.Ends layout registry e x.instruction
  loaded : ∃ us, e.load us <+: x.registers.args ∧
    θ.Carries x.before.bindings.size x.registers.bindings met e.items us

section

variable {r : Rule} {layout : Layout} {registry : Registry} {known : List String} {e : Entry}
  {es : List Entry} {code : List Instruction} {θ θ' : Values} {g : Registers} {met : List Term}

/-- The code for an entry passes its items on and ends with its instruction. -/
theorem rest_entry (h : r.Rest layout registry known (e :: es) code)
    (hf : ∀ x ∈ e :: es, r.entryFault registry x = none) :
    ∃ ops i known' code', code = ops.map .operation ++ i :: code' ∧ (∀ op, i ≠ .operation op) ∧
      i ≠ .proceed ∧ r.Ends layout registry e i ∧ r.Rest layout registry known' es code' ∧
      ∀ n θ g, r.Stands known θ (e :: es) g → g.args.length = maxArguments →
        ∃ values us θ' b' args vars, r.putLeaves values θ g.bindings e.items = (us, θ', b') ∧
          Operation.runAll r.name n g ops = some (.ok (some ⟨b', args, g.temps, vars⟩)) ∧
          args.length = maxArguments ∧ e.load us <+: args ∧ r.Later known' θ' es vars := by
  cases e with
  | triple pattern =>
    obtain ⟨ops, known', code', rfl, hrest, hops⟩ := rest_goal h hf
    refine ⟨ops, _, known', code', rfl, by simp, by simp, rfl, hrest, fun n θ g hst hg => ?_⟩
    rcases hput : r.putGoal θ g.bindings pattern with ⟨goal, θ', b'⟩
    obtain ⟨us, hus, hload⟩ := putGoal_items hput
    obtain ⟨args, vars, hrun, hlen, htake, hlater⟩ := hops n θ g hst hg goal θ' b' hput
    refine ⟨false, us, θ', b', args, vars, hus, hrun, hlen, ?_, hlater⟩
    rw [hload, ← htake]
    exact List.take_prefix 3 args
  | builtin c =>
    obtain ⟨f, ops, known', code', hget, rfl, -, hrest, hops⟩ := rest_builtin h hf
    refine ⟨ops, _, known', code', rfl, by simp, by simp, ⟨f, hget, rfl⟩, hrest,
      fun n θ g hst hg => ?_⟩
    rcases hput : r.putLeaves true θ g.bindings c.args with ⟨us, θ', b'⟩
    obtain ⟨args, vars, hrun, hlen, htake, hlater⟩ := hops n θ g hst hg us θ' b' hput
    refine ⟨true, us, θ', b', args, vars, hput, hrun, hlen, ?_, hlater⟩
    change us <+: args
    rw [← htake]
    exact List.take_prefix _ args

/-- Whatever the calls bring about, one assignment of the rule's variables accounts for all
visits. -/
theorem Course.visits {xs : List Visit} (h : Course r.name g code xs)
    (hrest : r.Rest layout registry known es code)
    (hf : ∀ x ∈ es, r.entryFault registry x = none) (hst : r.Stands known θ es g)
    (hlen : g.args.length = maxArguments) (hb : g.bindings.Fits IsRef)
    (hθ : θ.Scoped g.bindings) (hmet : ∀ v, (θ v).isSome ↔ Term.var v ∈ met) :
    ∃ θ', θ.Le θ' ∧ ∀ j x, xs[j]? = some x → ∃ e, es[j]? = some e ∧
      r.Visits layout registry θ' (met ++ (es.take j).flatMap Entry.items) e x := by
  induction h generalizing known θ es met with
  | stop => exact ⟨θ, fun _ _ h => h, fun j x hj => by cases hj⟩
  | @visit n ops i code before g g' xs hop hproceed hrun hreturns _ ih =>
    cases es with
    | nil => exact absurd (rest_nil hrest) (ne_proceed_of_operations hop hproceed)
    | cons e es =>
      obtain ⟨ops', i', known', code', hcode, hop', -, hends, hrest', hops⟩ := rest_entry hrest hf
      obtain ⟨rfl, rfl, rfl⟩ := operations_unique hop hop' hcode
      obtain ⟨values, us, θ1, b1, args, vars, hput, hrun', hargs, hload, hlater⟩ :=
        hops n θ before hst hlen
      cases hrun.symm.trans hrun'
      have hflat := not_app_of_entryFault (hf e List.mem_cons_self)
      have hpasses := (putLeaves_means hb hθ hflat hput).1
      have hcarries := putLeaves_carries hb hθ hmet hflat hput
      have hst' : r.Stands known' θ1 es g' := by
        have hstands := hlater.stands g'.bindings g'.args g'.temps
        have hvars : g'.vars = vars := hreturns.vars
        rwa [← hvars] at hstands
      have hmet' : ∀ v, (θ1 v).isSome ↔ Term.var v ∈ met ++ e.items := fun v => by
        rw [putLeaves_isSome hput, hmet, List.mem_append]
      obtain ⟨θ', hle, hvisits⟩ := ih hrest' (fun x hx => hf x (List.mem_cons_of_mem _ hx)) hst'
        (hreturns.args_length.trans hargs) hreturns.fits
        (hpasses.values.mono hreturns.keeps.size_le) hmet'
      refine ⟨θ', hpasses.le.trans hle, fun j x hj => ?_⟩
      cases j with
      | zero =>
        cases hj
        refine ⟨e, rfl, hends, us, hload, ?_⟩
        simpa using hcarries.mono hle
      | succ j =>
        obtain ⟨e', he', hvisit⟩ := hvisits j x hj
        refine ⟨e', he', ?_⟩
        simpa [List.append_assoc] using hvisit

end

/-! ## Compiled rules -/

/-- A compiled rule does what the rule says. Its head operations succeed, without a cycle, if
and only if the head unifies with the called goal, and then they leave a most general
unifier. At every visit of its body the registers have the terms of the entry under one
assignment, which goes on from that unifier. -/
theorem compiled_rule_preserved {r : Rule} {layout : Layout} {registry : Registry} {id : Nat}
    {cl : Clause} (hcl : r.compile id layout registry = .ok cl) {goal : Triple} {g : Registers}
    (hg : r.Called goal g) (hgoal : goal.Scoped g.bindings) (hb : g.bindings.Fits IsRef) :
    cl.code = (r.tests ++ r.headCode).map .operation ++ r.bodyCode layout registry ∧
    ((∃ n g', Operation.runAll cl.name n g r.headCode = some (.ok (some g')) ∧
        g'.bindings.Acyclic) ↔ Triple.Unifies g.bindings goal r.head) ∧
    ∀ n g', Operation.runAll cl.name n g r.headCode = some (.ok (some g')) →
      ∃ θ, Triple.Unifier g.bindings goal r.head θ g'.bindings ∧
        ∀ xs, Course cl.name g' (r.bodyCode layout registry) xs → ∃ θ', θ.Le θ' ∧
          ∀ j x, xs[j]? = some x → ∃ e, r.steps[j]? = some e ∧ r.Visits layout registry θ'
            ((Entry.triple r.head).items ++ (r.steps.take j).flatMap Entry.items) e x := by
  unfold Rule.compile at hcl
  split at hcl
  · cases hcl
  · next hf =>
    cases hcl
    have hhead : r.headFault = none := by
      unfold Rule.fault? at hf
      exact (Option.or_eq_none_iff.1 (Option.or_eq_none_iff.1 hf).2).1
    have hbody : ∀ e ∈ r.steps, r.entryFault registry e = none := by
      unfold Rule.fault? at hf
      exact List.findSome?_eq_none_iff.1 (Option.or_eq_none_iff.1 (Option.or_eq_none_iff.1 hf).2).2
    obtain ⟨hcode, hrest, hops⟩ := headCode_agrees r layout registry hf
    have hmatch : ∀ {n g'}, Operation.runAll r.name n g r.headCode = some (.ok (some g')) →
        ∃ θ, matchHead n r.head goal g.bindings = some (some (θ, g'.bindings)) ∧
          r.Entered r.headDraft.known θ g' := fun {n g'} hrun => by
      have hagrees := hops n g goal hg
      rw [hrun] at hagrees
      rcases hm : matchHead n r.head goal g.bindings with _ | _ | ⟨θ, b'⟩
      · rw [hm] at hagrees
        cases hagrees
      · rw [hm] at hagrees
        cases hagrees
      · rw [hm] at hagrees
        obtain ⟨g1, e, rfl, hentered⟩ := hagrees
        cases e
        exact ⟨θ, rfl, hentered⟩
    refine ⟨hcode, ?_, fun n g' hrun => ?_⟩
    · rw [← matchHead_iff hhead hb hgoal]
      constructor
      · rintro ⟨n, g', hrun, ha⟩
        obtain ⟨θ, hm, -⟩ := hmatch hrun
        exact ⟨n, θ, _, hm, ha⟩
      · rintro ⟨n, θ, b', hm, ha⟩
        have hagrees := hops n g goal hg
        rw [hm] at hagrees
        obtain ⟨g', hrun, rfl, -⟩ := hagrees
        exact ⟨n, g', hrun, ha⟩
    · obtain ⟨θ, hm, hentered⟩ := hmatch hrun
      refine ⟨θ, matchHead_unifier hhead hb hgoal hm, fun xs hxs => ?_⟩
      obtain ⟨θ1, b1, -, -, hm1, -, hm2⟩ := matchHead_matched hhead hb hgoal hm
      exact hxs.visits hrest hbody hentered.stands hentered.args_length hm2.fits hm2.values
        fun v => hentered.isSome_iff.trans (mem_items (e := .triple r.head)).symm

namespace Roads

/-- The first of the rules, which leads from `x` over `y` to `z`. -/
def far : Rule :=
  ⟨"far", leads (.var "x") (.var "z"),
    [.triple (leads (.var "x") (.var "y")), .triple ⟨.var "y", uri "road", .var "z"⟩]⟩

/-- The rule is called for where the roads lead from `a`. -/
def called : Registers :=
  { bindings := { size := 1 }
    args := [uri "a", uri "leads", .ref 0] ++ List.replicate 5 .any
    temps := List.replicate 8 none
    vars := [none, none] }

/-- The registers after the head. -/
def matched : Registers := { called with vars := [some (.ref 0), none] }

/-- The registers when the first goal of the body is called. -/
def passed : Registers :=
  { called with
    bindings := { size := 2 }
    args := [uri "a", uri "leads", .ref 1] ++ List.replicate 5 .any
    vars := [some (.ref 0), some (.ref 1)] }

theorem compile_far : ∃ cl, far.compile 0 rules.layout Builtin.standard = .ok cl ∧ cl.name = "far" := by
  have h : far.fault? Builtin.standard = none := by decide +kernel
  exact ⟨_, by rw [Rule.compile, h], rfl⟩

theorem called_far : far.Called (leads (uri "a") (.ref 0)) called :=
  ⟨by decide +kernel, by decide +kernel, rfl, rfl⟩

theorem course_far : Course "far" matched (far.bodyCode rules.layout Builtin.standard)
    [⟨matched, .call .tabled, passed⟩] := by
  have hreturns : passed.Returns passed :=
    ⟨rfl, rfl, .refl _, .empty _ _⟩
  have hrun : Operation.runAll "far" 1 matched [.putConstant 1 (uri "leads"), .putNewVariable 1 2] =
      some (.ok (some passed)) := rfl
  have hcourse : Course "far" matched
      (([.putConstant 1 (uri "leads"), .putNewVariable 1 2] : List Operation).map .operation ++
        .call .tabled :: (far.bodyCode rules.layout Builtin.standard).drop 3)
      [⟨matched, .call .tabled, passed⟩] := .visit (by simp) (by simp) hrun hreturns .stop
  exact hcourse

end Roads

open Roads in
theorem compiled_rule_preserved_far :
    Triple.Unifies called.bindings (leads (uri "a") (.ref 0)) far.head ∧
    ∃ θ, far.Visits rules.layout Builtin.standard θ [.var "x", uri "leads", .var "z"]
      (.triple (leads (.var "x") (.var "y"))) ⟨matched, .call .tabled, passed⟩ := by
  obtain ⟨cl, hcl, hname⟩ := compile_far
  have hscoped : (leads (uri "a") (.ref 0)).Scoped called.bindings := by
    simp [Triple.Scoped, Triple.terms, leads, uri, Scoped, Allowed, IsRef, called]
  have hrun : Operation.runAll cl.name 1 called far.headCode = some (.ok (some matched)) := by
    rw [hname]
    rfl
  obtain ⟨-, hiff, hbody⟩ := compiled_rule_preserved hcl called_far hscoped (.empty _ _)
  obtain ⟨θ, -, hvisits⟩ := hbody 1 matched hrun
  obtain ⟨θ', -, hvisit⟩ := hvisits _ (hname ▸ course_far)
  obtain ⟨e, he, hvisit⟩ := hvisit 0 _ rfl
  refine ⟨hiff.1 ⟨1, matched, hrun, fun v => ⟨1, .ref v, ?_⟩⟩, θ', ?_⟩
  · simp [Bindings.deepDeref, deref_ref_of_none, matched, called]
  · cases he
    exact hvisit

end TabledRules
