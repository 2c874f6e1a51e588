-- Results that are read again. What a goal was resolved to matches the goal,
-- and the goal is resolved to the same triple then, wildcards and
-- variables that stand twice included.
import TabledRules.Proofs.Derivations
import TabledRules.Proofs.Variants

namespace TabledRules

open Bindings

/-! ## What is written out -/

/-- No variable stands in the term, but wildcards may. -/
def Term.Plain (t : Term) : Prop := t.Has (· = .any)

/-- Each leaf stands for one term at most, in which no variable stands. -/
structure Readable (R : Term → Term → Prop) : Prop where
  unique : ∀ {x y y'}, R x y → R x y' → y = y'
  plain : ∀ {x y}, R x y → y.Plain

/-- The triple is what the goal may have been resolved to. -/
def Triple.Resolves (goal t : Triple) : Prop := ∃ R, Readable R ∧ goal.standard.Instance R t

section

variable {b b' : Bindings} {n : Nat} {t u g : Term} {R : Term → Term → Prop} {goal r : Triple}

/-- A ground goal is resolved to itself. -/
theorem Triple.Resolves.eq_of_isGround (h : goal.Resolves r) (hg : goal.isGround = true) :
    r = goal := by
  obtain ⟨R, -, h⟩ := h
  rw [Triple.standard, goal.renumber_of_isGround hg] at h
  exact h.eq_of_isGround hg

theorem Term.plain_mapVars (t : Term) : (t.mapVars fun _ => .any).Plain := by
  induction t using Term.induct with
  | node k => simp [Term.mapVars, Term.Plain]
  | app f ts ih =>
    rw [Term.mapVars, Term.mapVarsOf_eq]
    refine Term.has_app.2 fun u hu => ?_
    obtain ⟨t, ht, rfl⟩ := List.mem_map.1 hu
    exact ih t ht
  | _ => simp [Term.mapVars, Term.Plain]

theorem Term.mapVars_of_plain (h : t.Plain) : t.mapVars (fun _ => .any) = t := by
  induction t using Term.induct with
  | node k => simp [Term.mapVars]
  | app f ts ih =>
    rw [Term.mapVars, Term.mapVarsOf_eq]
    congr 1
    exact (List.map_congr_left fun t ht => ih t ht (Term.has_app.1 h t ht)).trans (List.map_id _)
  | var x => exact absurd (Term.has_var.1 h) (by simp)
  | ref v => exact absurd (Term.has_ref.1 h) (by simp)
  | any => simp [Term.mapVars]

theorem Term.Plain.ne_ref (h : t.Plain) (v : Nat) : t ≠ .ref v := by
  rintro rfl
  exact absurd (Term.has_ref.1 h) (by simp)

theorem Term.Plain.wild (h : t.Plain) (hw : Wild t) : t = .any := by
  rcases hw with rfl | ⟨x, rfl⟩
  · rfl
  · exact absurd (Term.has_var.1 h) (by simp)

/-- What is written out stays as it is. -/
theorem deepDeref_of_plain (h : t.Plain) (hd : b.deref u = t) (hn : b.deepDeref n u = some g) :
    g = t := by
  induction t using Term.induct generalizing u n g with
  | app f ts ih =>
    cases n with
    | zero => cases hn
    | succ n =>
      rw [deepDeref, hd] at hn
      obtain ⟨gs, hgs, rfl⟩ := Option.map_eq_some_iff.1 hn
      rw [mapM_eq_some_iff] at hgs
      congr 1
      have hplain : ∀ t ∈ ts, t.Plain := Term.has_app.1 h
      clear hn hd h
      induction hgs with
      | nil => rfl
      | @cons t g ts gs h1 _ ih2 =>
        have ht := hplain t List.mem_cons_self
        rw [ih t List.mem_cons_self ht (deref_of_ne_ref ht.ne_ref) h1,
          ih2 (fun t ht => ih t (List.mem_cons_of_mem _ ht))
            fun t ht => hplain t (List.mem_cons_of_mem _ ht)]
  | ref v => exact absurd rfl (h.ne_ref v)
  | _ =>
    cases n with
    | zero => cases hn
    | succ n =>
      rw [deepDeref, hd] at hn
      exact (Option.some.inj hn).symm

/-! ## Unification with what is written out -/

theorem unifyEach_cases {one : Bindings → Term → Term → Option (Option Bindings)}
    {ls rs : List Term} {y : Option Bindings} {l r : Term}
    (h : unifyEach one b (l :: ls) (r :: rs) = some y) :
    one b l r = some none ∧ y = none ∨
      ∃ b1, one b l r = some (some b1) ∧ unifyEach one b1 ls rs = some y := by
  rw [unifyEach] at h
  split at h
  · next b1 h1 => exact .inr ⟨b1, h1, h⟩
  · next x hx =>
    cases y with
    | none => exact .inl ⟨h, rfl⟩
    | some b1 => exact absurd h (hx b1)

/-- A term that is written out matches itself. -/
theorem unify_plain {l r : Term} {y : Option Bindings} (h : t.Plain) (hl : b.deref l = t)
    (hr : b.deref r = t) (hu : unify n b l r = some y) : y = some b := by
  induction t using Term.induct generalizing l r n y with
  | node k =>
    cases n with
    | zero => cases hu
    | succ n =>
      rw [unify_nodes hl hr, if_pos rfl] at hu
      exact (Option.some.inj hu).symm
  | app f ts ih =>
    cases n with
    | zero => cases hu
    | succ n =>
      rw [unify_apps hl hr, if_pos ⟨rfl, rfl⟩] at hu
      have hplain : ∀ t ∈ ts, t.Plain := Term.has_app.1 h
      clear hl hr h
      induction ts with
      | nil => exact (Option.some.inj hu).symm
      | cons t ts ih2 =>
        have ht := hplain t List.mem_cons_self
        have hd : b.deref t = t := deref_of_ne_ref ht.ne_ref
        have hfirst : ∀ {y}, unify n b t t = some y → y = some b :=
          fun hy => ih t List.mem_cons_self ht hd hd hy
        rcases unifyEach_cases hu with ⟨h1, -⟩ | ⟨b1, h1, h2⟩
        · cases hfirst h1
        · cases hfirst h1
          exact ih2 (fun t ht => ih t (List.mem_cons_of_mem _ ht)) h2
            fun t ht => hplain t (List.mem_cons_of_mem _ ht)
  | any =>
    cases n with
    | zero => cases hu
    | succ n =>
      rw [unify_wild (.inl (.inl hl))] at hu
      exact (Option.some.inj hu).symm
  | var x => exact absurd (Term.has_var.1 h) (by simp)
  | ref v => exact absurd rfl (h.ne_ref v)

/-- What is bound is bound to what it stands for. -/
structure Bindings.Backs (R : Term → Term → Prop) (b : Bindings) : Prop where
  ordered : b.Ordered
  value : ∀ {v u}, b.value? v = some u → R (.ref v) u ∧ u ≠ .any

/-- The variable is bound to what it stands for, if that is more than a wildcard. -/
def Bindings.Shows (R : Term → Term → Prop) (b : Bindings) (x y : Term) : Prop :=
  R x y ∧ ∀ v, x = .ref v → y ≠ .any → b.value? v = some y

theorem Bindings.Shows.mono {x y : Term} (h : b.Shows R x y) (hb : b.Extends b') :
    b'.Shows R x y :=
  ⟨h.1, fun v e hy => hb.value (h.2 v e hy)⟩

/-- A variable takes what it stands for. -/
theorem unify_shows_ref (hR : Readable R) (hb : b.Backs R) {v : Nat} (hv : v < b.size)
    (hg : R (.ref v) g) {y : Option Bindings} (hu : unify n b (.ref v) g = some y) :
    ∃ b', y = some b' ∧ b'.Backs R ∧ b.Extends b' ∧ b'.size = b.size ∧ b'.Shows R (.ref v) g := by
  have hplain := hR.plain hg
  have hd : b.deref g = g := deref_of_ne_ref hplain.ne_ref
  cases hval : b.value? v with
  | some u =>
    obtain ⟨hu', hne⟩ := hb.value hval
    obtain rfl := hR.unique hu' hg
    have hl : b.deref (.ref v) = u := by rw [deref_ref_of_some hb.ordered hval, hd]
    obtain rfl := unify_plain hplain hl hd hu
    exact ⟨b, rfl, hb, .refl b, rfl, hg, fun w e _ => by cases e; exact hval⟩
  | none =>
    cases n with
    | zero => cases hu
    | succ n =>
      by_cases hw : Wild g
      · obtain rfl := hplain.wild hw
        rw [unify_wild (.inr (hd.symm ▸ hw))] at hu
        cases hu
        exact ⟨b, rfl, hb, .refl b, rfl, hg, fun w _ h => absurd rfl h⟩
      · rw [unify_refLeft (deref_ref_of_none hval) hd hw hplain.ne_ref] at hu
        cases hu
        have hc : b.CanBind v g :=
          ⟨hv, hval, isEnd_of_ne_ref hplain.ne_ref, fun u e => absurd e (hplain.ne_ref u)⟩
        refine ⟨_, rfl, ⟨hc.ordered hb.ordered, fun {w u} hw' => ?_⟩, hc.keeps, size_bind b v g, hg,
          fun w e _ => ?_⟩
        · rw [value?_bind hv] at hw'
          split at hw'
          · next e =>
            cases hw'
            exact ⟨e ▸ hg, fun e => hw (.inl e)⟩
          · exact hb.value hw'
        · cases e
          rw [value?_bind hv, if_pos rfl]

/-- A goal matches what it may have been resolved to. -/
theorem unify_shows (hR : Readable R) (hb : b.Backs R) (ht : b.Scoped IsRef t)
    (hg : t.Instance R g) {y : Option Bindings} (hu : unify n b t g = some y) :
    ∃ b', y = some b' ∧ b'.Backs R ∧ b.Extends b' ∧ b'.size = b.size ∧
      t.Instance (b'.Shows R) g := by
  induction t using Term.induct generalizing b g n y with
  | node k =>
    obtain rfl := Term.instance_node.1 hg
    have hplain : (Term.node k).Plain := Term.has_node _ k
    exact ⟨b, unify_plain hplain (deref_node k) (deref_node k) hu, hb, .refl b, rfl,
      Term.instance_node.2 rfl⟩
  | app f ts ih =>
    obtain ⟨gs, rfl, hgs⟩ := Term.instance_app.1 hg
    cases n with
    | zero => cases hu
    | succ n =>
      rw [unify_apps (deref_app f ts) (deref_app f gs), if_pos ⟨rfl, hgs.length_eq⟩] at hu
      have hscoped : ∀ t ∈ ts, b.Scoped IsRef t := Term.has_app.1 ht
      suffices h : ∃ b', y = some b' ∧ b'.Backs R ∧ b.Extends b' ∧ b'.size = b.size ∧
          List.Forall₂ (Term.Instance (b'.Shows R)) ts gs by
        obtain ⟨b', h1, h2, h3, h4, h5⟩ := h
        exact ⟨b', h1, h2, h3, h4, Term.instance_app.2 ⟨gs, rfl, h5⟩⟩
      clear hg ht
      -- the terms are unified in turn, and what was shown stays so
      induction hgs generalizing b with
      | nil => exact ⟨b, (Option.some.inj hu).symm, hb, .refl b, rfl, .nil⟩
      | @cons t g ts gs h1 _ ih2 =>
        have first : ∀ {y}, unify n b t g = some y → ∃ b', y = some b' ∧ b'.Backs R ∧
            b.Extends b' ∧ b'.size = b.size ∧ t.Instance (b'.Shows R) g :=
          fun hy => ih t List.mem_cons_self hb (hscoped t List.mem_cons_self) h1 hy
        rcases unifyEach_cases hu with ⟨h2, -⟩ | ⟨b1, h2, h3⟩
        · obtain ⟨b', e, -⟩ := first h2
          cases e
        · obtain ⟨b', e, h4, h5, h6, h7⟩ := first h2
          cases e
          obtain ⟨b2, rfl, h8, h9, h10, h11⟩ := ih2
            (fun t ht => ih t (List.mem_cons_of_mem _ ht)) h4 h3
            (fun t ht => (hscoped t (List.mem_cons_of_mem _ ht)).mono (Nat.le_of_eq h6.symm))
          exact ⟨b2, rfl, h8, h5.trans h9, h10.trans h6,
            .cons (Term.Instance.mono h7 fun _ _ _ h => h.mono h9) h11⟩
  | var x =>
    obtain ⟨v, e⟩ := (Term.has_var.1 ht).1
    cases e
  | ref v =>
    obtain ⟨b', h1, h2, h3, h4, h5⟩ := unify_shows_ref hR hb ((Term.has_ref.1 ht).2 v rfl)
      (Term.instance_ref.1 hg) hu
    exact ⟨b', h1, h2, h3, h4, Term.instance_ref.2 h5⟩
  | any =>
    obtain ⟨v, e⟩ := (Term.has_any.1 ht).1
    cases e

/-- A goal that shows what it stands for is resolved to that. -/
theorem resolve_shows (hR : Readable R) (hb : b.Backs R) (ht : b.Scoped IsRef t)
    (hg : t.Instance (b.Shows R) g) (hr : b.resolve n t = some u) : u = g := by
  obtain ⟨x, hx, rfl⟩ := Option.map_eq_some_iff.1 hr
  clear hr
  induction t using Term.induct generalizing g n x with
  | node k =>
    obtain rfl := Term.instance_node.1 hg
    rw [deepDeref_of_plain (Term.has_node _ k) (deref_node k) hx, Term.mapVars]
  | app f ts ih =>
    obtain ⟨gs, rfl, hgs⟩ := Term.instance_app.1 hg
    cases n with
    | zero => cases hx
    | succ n =>
      rw [deepDeref, deref_app] at hx
      obtain ⟨xs, hxs, rfl⟩ := Option.map_eq_some_iff.1 hx
      rw [mapM_eq_some_iff] at hxs
      rw [Term.mapVars, Term.mapVarsOf_eq]
      congr 1
      have hscoped : ∀ t ∈ ts, b.Scoped IsRef t := Term.has_app.1 ht
      clear hx hg ht
      induction hxs generalizing gs with
      | nil =>
        cases hgs
        rfl
      | @cons t x ts xs h1 _ ih2 =>
        obtain ⟨g, gs, h2, h3, rfl⟩ := List.forall₂_cons_left_iff.1 hgs
        rw [List.map_cons, ih t List.mem_cons_self (hscoped t List.mem_cons_self) h2 x h1,
          ih2 (fun t ht => ih t (List.mem_cons_of_mem _ ht)) gs h3
            fun t ht => hscoped t (List.mem_cons_of_mem _ ht)]
  | var x =>
    obtain ⟨v, e⟩ := (Term.has_var.1 ht).1
    cases e
  | ref v =>
    obtain ⟨hRg, hshown⟩ := Term.instance_ref.1 hg
    have hplain := hR.plain hRg
    cases hval : b.value? v with
    | some w =>
      obtain rfl := hR.unique (hb.value hval).1 hRg
      have hd : b.deref (.ref v) = w := by
        rw [deref_ref_of_some hb.ordered hval, deref_of_ne_ref hplain.ne_ref]
      rw [deepDeref_of_plain hplain hd hx, Term.mapVars_of_plain hplain]
    | none =>
      have hany : g = .any := by
        by_contra hne
        rw [hshown v rfl hne] at hval
        cases hval
      cases n with
      | zero => cases hx
      | succ n =>
        rw [deepDeref, deref_ref_of_none hval] at hx
        cases hx
        simp [hany, Term.mapVars]
  | any =>
    obtain ⟨v, e⟩ := (Term.has_any.1 ht).1
    cases e

/-! ## Answers are what goals are resolved to -/

/-- What each leaf is resolved to. -/
theorem instance_of_resolve (hr : b.resolve n t = some g) :
    t.Instance (fun x y => ∃ m, b.resolve m x = some y) g := by
  obtain ⟨x, hx, rfl⟩ := Option.map_eq_some_iff.1 hr
  clear hr
  induction t using Term.induct generalizing n x with
  | node k =>
    rw [deepDeref_of_plain (Term.has_node _ k) (deref_node k) hx, Term.mapVars]
    exact Term.instance_node.2 rfl
  | app f ts ih =>
    cases n with
    | zero => cases hx
    | succ n =>
      rw [deepDeref, deref_app] at hx
      obtain ⟨xs, hxs, rfl⟩ := Option.map_eq_some_iff.1 hx
      rw [mapM_eq_some_iff] at hxs
      rw [Term.mapVars, Term.mapVarsOf_eq]
      refine Term.instance_app.2 ⟨_, rfl, ?_⟩
      clear hx
      induction hxs with
      | nil => exact .nil
      | @cons t x ts xs h1 _ ih2 =>
        exact .cons (ih t List.mem_cons_self x h1) (ih2 fun t ht => ih t (List.mem_cons_of_mem _ ht))
  | _ =>
    refine (Term.instance_of_isVar rfl).2 ⟨n, ?_⟩
    rw [resolve, hx]
    rfl

theorem readable_resolve (b : Bindings) : Readable fun x y => ∃ m, b.resolve m x = some y := by
  refine ⟨fun {x y y'} hy hy' => ?_, fun {x y} hy => ?_⟩
  · obtain ⟨m, hm⟩ := hy
    obtain ⟨m', hm'⟩ := hy'
    obtain ⟨z, hz, rfl⟩ := Option.map_eq_some_iff.1 hm
    obtain ⟨z', hz', rfl⟩ := Option.map_eq_some_iff.1 hm'
    have h1 := deepDeref_mono (Nat.le_max_left m m') hz
    rw [deepDeref_mono (Nat.le_max_right m m') hz'] at h1
    cases h1
    rfl
  · obtain ⟨m, hm⟩ := hy
    obtain ⟨z, -, rfl⟩ := Option.map_eq_some_iff.1 hm
    exact z.plain_mapVars

theorem readable_means (b : Bindings) : Readable b.Means := by
  refine ⟨fun hy hy' => hy.unique hy', fun {x y} hy => ?_⟩
  exact Term.Has.of_isGround hy.isGround

/-- An answer is what its goal is resolved to, and so is a stored triple that matches. -/
theorem Derives.resolves {P : Program} {T : Triple → Triple → Prop}
    (hP : ∀ t, P.Stored t → t.isGround = true) (h : Derives P T goal r) : goal.Resolves r := by
  cases h with
  | @fact n k _ b hmem hu =>
    obtain ⟨hafter, hmeans⟩ := unifyTriple_means ((goal.unbound_fits).grow k)
      (fun u hu => (goal.standard_scoped u hu).mono (Nat.le_max_left _ _)) (hP r ⟨_, hmem⟩) hu
    obtain ⟨h1, h2, h3⟩ := hmeans b (.refl b) hafter.fits.ordered
    exact ⟨b.Means, readable_means b, h1.instance, h2.instance, h3.instance⟩
  | clause _ _ hgives =>
    obtain ⟨b, n, -, ht⟩ := hgives
    obtain ⟨h1, h2, h3⟩ := mapTerms?_eq_some_iff.1 ht
    exact ⟨_, readable_resolve b, instance_of_resolve h1, instance_of_resolve h2,
      instance_of_resolve h3⟩

/-- A goal without values matches what it may have been resolved to, and is resolved to the same
triple then. -/
theorem Triple.Resolves.again (h : goal.Resolves r) {k : Nat} {y : Option Bindings}
    (hu : (goal.unbound.grow k).unifyTriple n goal.standard r = some y) :
    ∃ b, y = some b ∧ ∀ {m : Nat} {r' : Triple},
      goal.standard.mapTerms? (b.resolve m) = some r' → r' = r := by
  obtain ⟨R, hR, h1, h2, h3⟩ := h
  have hscoped : ∀ u ∈ goal.standard.terms, (goal.unbound.grow k).Scoped IsRef u :=
    fun u hu => (goal.standard_scoped u hu).mono (Nat.le_max_left _ _)
  have hb : (goal.unbound.grow k).Backs R := by
    refine ⟨(goal.unbound_fits.grow k).ordered, fun {v u} hv => ?_⟩
    rw [value?_grow] at hv
    cases hv.symm.trans (value?_empty _ v)
  generalize goal.unbound.grow k = b0 at hu hscoped hb
  simp only [Triple.terms, List.forall_mem_cons, List.not_mem_nil, false_implies, implies_true,
    and_true] at hscoped
  obtain ⟨hs1, hs2, hs3⟩ := hscoped
  rw [unifyTriple, unifyAll, Triple.terms, Triple.terms] at hu
  have miss : ∀ {b : Bindings} {t g : Term}, b.Backs R → b.Scoped IsRef t → t.Instance R g →
      unify n b t g ≠ some none := by
    intro b t g hb ht hg hu
    obtain ⟨b', e, -⟩ := unify_shows hR hb ht hg hu
    cases e
  rcases unifyEach_cases hu with ⟨hno, -⟩ | ⟨b1, hu1, hu⟩
  · exact absurd hno (miss hb hs1 h1)
  obtain ⟨_, e, hb1, he1, hsz1, hi1⟩ := unify_shows hR hb hs1 h1 hu1
  cases e
  replace hs2 := hs2.mono (Nat.le_of_eq hsz1.symm)
  rcases unifyEach_cases hu with ⟨hno, -⟩ | ⟨b2, hu2, hu⟩
  · exact absurd hno (miss hb1 hs2 h2)
  obtain ⟨_, e, hb2, he2, hsz2, hi2⟩ := unify_shows hR hb1 hs2 h2 hu2
  cases e
  replace hs3 := (hs3.mono (Nat.le_of_eq hsz1.symm)).mono (Nat.le_of_eq hsz2.symm)
  rcases unifyEach_cases hu with ⟨hno, -⟩ | ⟨b3, hu3, hu⟩
  · exact absurd hno (miss hb2 hs3 h3)
  obtain ⟨_, e, hb3, he3, hsz3, hi3⟩ := unify_shows hR hb2 hs3 h3 hu3
  cases e
  refine ⟨b3, (Option.some.inj hu).symm, fun {m r'} hr => ?_⟩
  obtain ⟨hr1, hr2, hr3⟩ := mapTerms?_eq_some_iff.1 hr
  have hsize := hsz3.trans hsz2
  have e1 := resolve_shows hR hb3 ((hs1.mono (Nat.le_of_eq hsz1.symm)).mono (Nat.le_of_eq hsize.symm))
    (Term.Instance.mono hi1 fun _ _ _ h => h.mono (he2.trans he3)) hr1
  have e2 := resolve_shows hR hb3 (hs2.mono (Nat.le_of_eq hsize.symm))
    (Term.Instance.mono hi2 fun _ _ _ h => h.mono he3) hr2
  have e3 := resolve_shows hR hb3 (hs3.mono (Nat.le_of_eq hsz3.symm)) hi3 hr3
  obtain ⟨s, p, o⟩ := r
  obtain ⟨s', p', o'⟩ := r'
  simp only at e1 e2 e3
  rw [e1, e2, e3]

end

end TabledRules
