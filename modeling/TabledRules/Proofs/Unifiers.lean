-- Unifiers: the valuations that say what all variables stand for. Unification
-- comes to bindings without a cycle if and only if some valuation makes the
-- same of both terms, and then it loses none of these valuations.
import TabledRules.Proofs.Valuations

namespace TabledRules

open Bindings

/-! ## Sizes of terms -/

theorem Term.size_le_sizeAll {t : Term} {ts : List Term} (h : t ∈ ts) :
    t.size ≤ Term.sizeAll ts := by
  induction ts with
  | nil => cases h
  | cons u us ih =>
    rw [Term.sizeAll]
    rcases List.mem_cons.1 h with rfl | h
    · exact Nat.le_add_right _ _
    · exact Nat.le_trans (ih h) (Nat.le_add_left _ _)

theorem Term.size_lt_app {f : String} {t : Term} {ts : List Term} (h : t ∈ ts) :
    t.size < (Term.app f ts).size := by
  rw [Term.size]
  exact Nat.lt_succ_of_le (Term.size_le_sizeAll h)

theorem Term.size_pos (t : Term) : 0 < t.size := by
  cases t <;> simp [Term.size]

theorem Term.isGround_mapVars {f : Term → Term} (hf : ∀ x, (f x).isGround = true) (t : Term) :
    (t.mapVars f).isGround = true := by
  induction t using Term.induct with
  | node n => simp [Term.mapVars]
  | app k ts ih =>
    rw [Term.mapVars, Term.mapVarsOf_eq, Term.isGround_app]
    intro u hu
    obtain ⟨t, ht, rfl⟩ := List.mem_map.1 hu
    exact ih t ht
  | _ =>
    rw [Term.mapVars]
    · exact hf _
    all_goals simp

/-- No variable stands inside its own value. -/
def Bindings.Acyclic (b : Bindings) : Prop := ∀ v, ∃ n t, b.deepDeref n (.ref v) = some t

namespace Valuation

variable {V V' : Valuation} {b b' c : Bindings} {t g u l r : Term} {v n : Nat}

/-! ## Valuations of all variables -/

/-- The valuation says what every variable stands for. -/
structure Settles (V : Valuation) (b : Bindings) : Prop extends V.Obeys b where
  total : ∀ {v}, v < b.size → ∃ g, V v = some g

theorem Settles.exists_makes (h : V.Settles b) (ht : b.Scoped IsRef t) : ∃ g, V.Makes t g := by
  refine Term.exists_instance fun x hx => ?_
  obtain ⟨⟨v, rfl⟩, hlt⟩ := ht x hx
  obtain ⟨g, hg⟩ := h.total (hlt v rfl)
  exact ⟨g, v, rfl, hg⟩

theorem Settles.respects (h : V.Settles c) : c.Respects V.Makes where
  app := makes_app
  bound := fun {v t g} hv => by
    obtain ⟨x, hx⟩ := h.total (h.ordered.bound_lt hv)
    have ht := h.value hx hv
    constructor
    · intro hg
      cases hx.symm.trans (makes_ref.1 hg)
      exact ht
    · intro hg
      rw [hg.unique ht]
      exact makes_ref.2 hx

/-- After a unification the valuation makes the same of both terms. -/
theorem Settles.makes_iff (h : V.Settles c) (hb : b.Fits IsRef) (hl : b.Scoped IsRef l)
    (hr : b.Scoped IsRef r) (hu : Bindings.unify n b l r = some (some b')) (hc : b'.Extends c)
    (g : Term) : V.Makes l g ↔ V.Makes r g :=
  (solves_of_unify hu (.done b')).iff_of_respects hb (by simpa using ⟨hl, hr⟩) hc h.respects
    (l, r) (by simp) g

/-- What the valuation says about the variables below a number. -/
def upTo (V : Valuation) (n : Nat) : Valuation := fun v => if v < n then V v else none

theorem upTo_of_lt (V : Valuation) (h : v < n) : V.upTo n v = V v := if_pos h

theorem upTo_eq_some : V.upTo n v = some g ↔ v < n ∧ V v = some g := by
  simp [upTo]

theorem Makes.upTo (h : V.Makes t g) (ht : b.Scoped IsRef t) : (V.upTo b.size).Makes t g := by
  induction t using Term.induct generalizing g with
  | node x => exact h
  | app f ts ih =>
    obtain ⟨gs, rfl, hgs⟩ := makes_app.1 h
    rw [Scoped, Term.has_app] at ht
    refine makes_app.2 ⟨gs, rfl, ?_⟩
    clear h
    induction hgs with
    | nil => exact .nil
    | cons h1 _ ih2 =>
      exact .cons (ih _ List.mem_cons_self h1 (ht _ List.mem_cons_self))
        (ih2 (fun t ht => ih t (List.mem_cons_of_mem _ ht))
          fun t h => ht t (List.mem_cons_of_mem _ h))
  | ref v =>
    have hlt := (Term.has_ref.1 ht).2 v rfl
    rw [makes_ref, upTo_of_lt V hlt]
    exact makes_ref.1 h
  | var x => exact absurd h not_makes_var
  | any => exact absurd h not_makes_any

/-- A valuation of later bindings is one of the bindings before, as far as they go. -/
theorem Settles.upTo (h : V.Settles b') (hb : b.Fits IsRef) (hbb : b.Extends b') :
    (V.upTo b.size).Settles b where
  ordered := hb.ordered
  lt := fun hv => (upTo_eq_some.1 hv).1
  ground := fun hv => h.ground (upTo_eq_some.1 hv).2
  value := fun hv hu =>
    (h.value (upTo_eq_some.1 hv).2 (hbb.value hu)).upTo (hb.values _ _ hu)
  total := fun {v} hv => by
    obtain ⟨g, hg⟩ := h.total (Nat.lt_of_lt_of_le hv hbb.size_le)
    exact ⟨g, upTo_eq_some.2 ⟨hv, hg⟩⟩

/-! ## Valuations and cycles -/

theorem Obeys.deepDeref_ends (h : V.Obeys b) (ht : V.Makes t g) (hn : g.size ≤ n) :
    ∃ u, b.deepDeref n t = some u := by
  induction n generalizing t g with
  | zero => exact absurd g.size_pos (by omega)
  | succ n ih =>
    have hd := h.deref ht
    rw [Bindings.deepDeref]
    split
    · next f args e =>
      rw [e] at hd
      obtain ⟨gs, rfl, hgs⟩ := makes_app.1 hd
      have hall : ∃ us, List.Forall₂ (fun t u => b.deepDeref n t = some u) args us := by
        have hsize : ∀ g ∈ gs, g.size ≤ n := fun g hg => by
          have := Term.size_lt_app (f := f) hg
          omega
        clear hn ht hd e
        induction hgs with
        | nil => exact ⟨[], .nil⟩
        | cons h1 _ ih2 =>
          obtain ⟨u, hu⟩ := ih h1 (hsize _ List.mem_cons_self)
          obtain ⟨us, hus⟩ := ih2 fun g hg => hsize g (List.mem_cons_of_mem _ hg)
          exact ⟨u :: us, .cons hu hus⟩
      obtain ⟨us, hus⟩ := hall
      exact ⟨.app f us, by rw [mapM_eq_some_iff.2 hus]; rfl⟩
    · exact ⟨_, rfl⟩

theorem Settles.acyclic (h : V.Settles b) : b.Acyclic := by
  intro v
  by_cases hv : v < b.size
  · obtain ⟨g, hg⟩ := h.total hv
    obtain ⟨u, hu⟩ := h.deepDeref_ends (makes_ref.2 hg) (Nat.le_refl _)
    exact ⟨_, u, hu⟩
  · have hnone : b.value? v = none := by
      cases e : b.value? v with
      | none => rfl
      | some t => exact absurd (h.ordered.bound_lt e) hv
    exact ⟨1, .ref v, by rw [Bindings.deepDeref, deref_ref_of_none hnone]⟩

/-- What remains unbound without a cycle may stand for anything. -/
theorem exists_settles (hb : b.Fits IsRef) (ha : b.Acyclic) : ∃ V : Valuation, V.Settles b := by
  choose depth value hvalue using ha
  let fill : Term → Term := fun _ => .node (.blank "")
  let V : Valuation := fun v => if v < b.size then some ((value v).mapVars fill) else none
  have hV : ∀ {v g}, V v = some g → v < b.size ∧ g = (value v).mapVars fill := fun {v g} h => by
    by_cases hv : v < b.size
    · exact ⟨hv, (Option.some.inj ((if_pos hv).symm.trans h)).symm⟩
    · exact absurd ((if_neg hv).symm.trans h) (by simp)
  have makes : ∀ (t : Term) {n u}, b.Scoped IsRef t → b.deepDeref n t = some u →
      V.Makes t (u.mapVars fill) := by
    intro t
    induction t using Term.induct with
    | node x =>
      intro n u _ hu
      obtain _ | n := n
      · cases hu
      · rw [Bindings.deepDeref, deref_node] at hu
        cases hu
        simp [Term.mapVars]
    | app f ts ih =>
      intro n u ht hu
      obtain _ | n := n
      · cases hu
      · simp only [Bindings.deepDeref, deref_app] at hu
        obtain ⟨us, hus, rfl⟩ := Option.map_eq_some_iff.1 hu
        rw [Scoped, Term.has_app] at ht
        rw [Term.mapVars, Term.mapVarsOf_eq]
        refine makes_app.2 ⟨_, rfl, ?_⟩
        have hall := mapM_eq_some_iff.1 hus
        clear hu hus
        induction hall with
        | nil => exact .nil
        | cons h1 _ ih2 =>
          exact .cons (ih _ List.mem_cons_self (ht _ List.mem_cons_self) h1)
            (ih2 (fun t ht => ih t (List.mem_cons_of_mem _ ht))
              fun t h => ht t (List.mem_cons_of_mem _ h))
    | ref v =>
      intro n u ht hu
      have hlt := (Term.has_ref.1 ht).2 v rfl
      have h1 := deepDeref_mono (Nat.le_max_left n (depth v)) hu
      rw [deepDeref_mono (Nat.le_max_right n (depth v)) (hvalue v)] at h1
      cases h1
      exact makes_ref.2 (if_pos hlt)
    | var x =>
      intro n u ht _
      exact absurd (.inr ⟨x, rfl⟩) (not_wild_of_scoped ht)
    | any =>
      intro n u ht _
      exact absurd (.inl rfl) (not_wild_of_scoped ht)
  refine ⟨V, ⟨hb.ordered, fun h => (hV h).1, fun h => ?_, fun {v g u} h hu => ?_⟩,
    fun hv => ⟨_, if_pos hv⟩⟩
  · rw [(hV h).2]
    exact Term.isGround_mapVars (fun _ => by simp [fill]) _
  · rw [(hV h).2]
    refine makes u (hb.values _ _ hu) (n := depth v) ?_
    rw [← deepDeref_deref hb.ordered, ← deref_ref_of_some hb.ordered hu, deepDeref_deref hb.ordered]
    exact hvalue v

/-! ## Unification -/

theorem unifyEach_ends {one : Bindings → Term → Term → Option (Option Bindings)} {ls rs gs : List Term}
    (hone : ∀ {b l r g}, g ∈ gs → V.Obeys b → V.Makes l g → V.Makes r g →
      ∃ b', one b l r = some (some b') ∧ V.Obeys b')
    (h : V.Obeys b) (hl : List.Forall₂ V.Makes ls gs) (hr : List.Forall₂ V.Makes rs gs) :
    ∃ b', unifyEach one b ls rs = some (some b') ∧ V.Obeys b' := by
  induction hl generalizing b rs with
  | nil =>
    cases hr
    exact ⟨b, rfl, h⟩
  | cons h1 _ ih =>
    obtain ⟨r, rs, h2, h3, rfl⟩ := List.forall₂_cons_right_iff.1 hr
    obtain ⟨b1, hb1, ho1⟩ := hone List.mem_cons_self h h1 h2
    rw [unifyEach, hb1]
    exact ih (fun hg => hone (List.mem_cons_of_mem _ hg)) ho1 h3

/-- Terms that come to be the same are unified no deeper than what they come to be. -/
theorem unify_ends (h : V.Obeys b) (hl : V.Makes l g) (hr : V.Makes r g) (hn : g.size ≤ n) :
    ∃ b', Bindings.unify n b l r = some (some b') ∧ V.Obeys b' := by
  induction n generalizing b l r g with
  | zero => exact absurd g.size_pos (by omega)
  | succ n ih =>
    have ends : ∃ x, Bindings.unify (n + 1) b l r = some x := by
      have hl' := h.deref hl
      have hr' := h.deref hr
      generalize hdl : b.deref l = l' at hl'
      generalize hdr : b.deref r = r' at hr'
      cases Meeting.of l' r' with
      | wild hw =>
        subst hdl hdr
        exact ⟨_, unify_wild hw⟩
      | refs v u => exact ⟨_, unify_refs hdl hdr⟩
      | refLeft v hw ht => exact ⟨_, unify_refLeft hdl hdr hw ht⟩
      | refRight v hw ht => exact ⟨_, unify_refRight hdl hdr hw ht⟩
      | nodes x y => exact ⟨_, unify_nodes hdl hdr⟩
      | apps f k as bs =>
        rw [unify_apps hdl hdr]
        split
        · obtain ⟨gs, rfl, has⟩ := makes_app.1 hl'
          obtain ⟨gs', e, hbs⟩ := makes_app.1 hr'
          cases e
          obtain ⟨b', hb', -⟩ := unifyEach_ends (fun hg h1 h2 h3 => ih h1 h2 h3 (by
            have := Term.size_lt_app (f := f) hg
            omega)) h has hbs
          exact ⟨_, hb'⟩
        · exact ⟨_, rfl⟩
      | nodeApp x f as => exact ⟨_, unify_nodeApp hdl hdr⟩
      | appNode x f as => exact ⟨_, unify_appNode hdl hdr⟩
    obtain ⟨x, hx⟩ := ends
    obtain ⟨b', rfl, hb'⟩ := unify_obeys h hl hr hx
    exact ⟨b', hx, hb'⟩

/-- A unification keeps a valuation that makes the same of both terms. -/
theorem Settles.unify {x : Option Bindings} (h : V.Settles b) (hb : b.Fits IsRef)
    (hl : b.Scoped IsRef l) (hr : b.Scoped IsRef r) (h1 : V.Makes l g) (h2 : V.Makes r g)
    (hu : Bindings.unify n b l r = some x) : ∃ b', x = some b' ∧ V.Settles b' := by
  obtain ⟨b', rfl, hb'⟩ := unify_obeys h.toObeys h1 h2 hu
  exact ⟨b', rfl, hb', fun hv => h.total ((unify_after hb hl hr hu).size_eq ▸ hv)⟩

end Valuation

end TabledRules
