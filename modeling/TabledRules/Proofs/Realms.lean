-- Parts of the bindings that stay by themselves. A realm says which bindings
-- and which leaves of terms belong to it; solving goals that are made of
-- such leaves does not leave it. A ground goal has a realm of its own: the
-- variables that were there before keep their values while it is solved.
import TabledRules.Proofs.Derivations

namespace TabledRules

open Bindings

/-! ## Realms -/

/-- Bindings that `I` holds of, and terms made of the leaves that `q` picks. -/
structure Realm (I : Bindings → Prop) (q : Term → Prop) : Prop where
  ordered : ∀ {b}, I b → b.Ordered
  grow : ∀ {b} k, I b → I (b.grow k)
  newVar : ∀ {b}, I b → I b.newVar.2
  fresh : ∀ {b}, I b → q (.ref b.size)
  deref : ∀ {b t}, I b → b.Scoped q t → b.Scoped q (b.deref t)
  bind : ∀ {b t v}, I b → q (.ref v) → b.CanBind v t → b.Scoped q t → I (b.bind v t)

/-- The values are made of leaves of the realm. -/
def Values.Within (q : Term → Prop) (b : Bindings) (θ : Values) : Prop :=
  ∀ v t, θ v = some t → b.Scoped q t

section

variable {I : Bindings → Prop} {q : Term → Prop} {n : Nat} {b b' : Bindings} {θ θ' : Values}
  {l r t arg : Term} {args ts : List Term}

theorem Values.Within.mono (h : θ.Within q b) (hs : b.size ≤ b'.size) : θ.Within q b' :=
  fun v t ht => (h v t ht).mono hs

theorem Values.Within.set {v : String} (h : θ.Within q b) (ht : b.Scoped q t) :
    (θ.set v t).Within q b := by
  intro u x hx
  by_cases e : u = v
  · subst e
    rw [Values.set_self] at hx
    cases hx
    exact ht
  · rw [Values.set_of_ne θ t e] at hx
    exact h u x hx

theorem Values.within_none (q : Term → Prop) (b : Bindings) : Values.none.Within q b :=
  fun _ _ h => by cases h

namespace Realm

theorem scoped_fresh (hI : Realm I q) (hb : I b) : b.newVar.2.Scoped q (.ref b.size) :=
  Term.has_ref.2 ⟨hI.fresh hb, fun v e => by cases e; exact Nat.lt_succ_self _⟩

theorem canBind (hI : Realm I q) (hb : I b) (hl : b.Scoped q l) {v : Nat}
    (hv : b.deref l = .ref v) (ht : b.deref r = t) (hold : ∀ u, t = .ref u → u < v) :
    q (.ref v) ∧ b.CanBind v t := by
  have hscoped := hI.deref hb hl
  rw [hv] at hscoped
  obtain ⟨hq, hlt⟩ := Term.has_ref.1 hscoped
  exact ⟨hq, hlt v rfl, value?_of_deref_eq_ref (hI.ordered hb) hv,
    ht ▸ isEnd_deref (hI.ordered hb) r, hold⟩

theorem solves (hI : Realm I q) {eqs : List (Term × Term)} (hs : Solves b eqs b') (hb : I b)
    (he : ∀ e ∈ eqs, b.Scoped q e.1 ∧ b.Scoped q e.2) : I b' ∧ b'.size = b.size := by
  induction hs with
  | done b => exact ⟨hb, rfl⟩
  | free _ _ ih | same _ _ ih => exact ih hb fun e hm => he e (List.mem_cons_of_mem _ hm)
  | @bind b b' l r t v eqs hm hold _ ih =>
    obtain ⟨hl, hr⟩ := he _ List.mem_cons_self
    obtain ⟨hq, hc, ht⟩ : q (.ref v) ∧ b.CanBind v t ∧ b.Scoped q t := by
      rcases hm with ⟨hv, ht⟩ | ⟨hv, ht⟩
      · obtain ⟨h1, h2⟩ := hI.canBind hb hl hv ht hold
        exact ⟨h1, h2, ht ▸ hI.deref hb hr⟩
      · obtain ⟨h1, h2⟩ := hI.canBind hb hr hv ht hold
        exact ⟨h1, h2, ht ▸ hI.deref hb hl⟩
    obtain ⟨h1, h2⟩ := ih (hI.bind hb hq hc ht) fun e hm => by
      obtain ⟨h1, h2⟩ := he e (List.mem_cons_of_mem _ hm)
      exact ⟨h1.mono (by simp), h2.mono (by simp)⟩
    exact ⟨h1, h2.trans (by simp)⟩
  | parts hl hr _ _ ih =>
    obtain ⟨h1, h2⟩ := he _ List.mem_cons_self
    have ha := hI.deref hb h1
    have hb' := hI.deref hb h2
    rw [hl] at ha
    rw [hr] at hb'
    refine ih hb fun e hm => ?_
    rcases List.mem_append.1 hm with hm | hm
    · exact zip_scoped (Term.has_app.1 ha) (Term.has_app.1 hb') e hm
    · exact he e (List.mem_cons_of_mem _ hm)

theorem unify (hI : Realm I q) (hb : I b) (hl : b.Scoped q l) (hr : b.Scoped q r)
    (h : b.unify n l r = some (some b')) : I b' ∧ b'.size = b.size :=
  hI.solves (solves_of_unify h (.done b')) hb (by simpa using ⟨hl, hr⟩)

theorem unifyTriple (hI : Realm I q) {goal t : Triple} (hb : I b)
    (hl : ∀ u ∈ goal.terms, b.Scoped q u) (hr : ∀ u ∈ t.terms, b.Scoped q u)
    (h : b.unifyTriple n goal t = some (some b')) : I b' ∧ b'.size = b.size :=
  hI.solves (solves_of_unifyAll h) hb (zip_scoped hl hr)

/-! ## Rules -/

theorem matchLeaf (hI : Realm I q) (hb : I b) (hθ : θ.Within q b) (harg : b.Scoped q arg)
    (h : matchLeaf n θ b arg t = some (some (θ', b'))) :
    I b' ∧ b.size ≤ b'.size ∧ θ'.Within q b' := by
  -- what is unified is the argument and a term of the realm
  have unified : ∀ {u : Term}, b.Scoped q u →
      (b.unify n arg u).map (·.map (θ, ·)) = some (some (θ', b')) →
      I b' ∧ b.size ≤ b'.size ∧ θ'.Within q b' := by
    intro u hu hmap
    obtain ⟨rfl, hunify⟩ := map_map_eq_some hmap
    obtain ⟨h1, h2⟩ := hI.unify hb harg hu hunify
    exact ⟨h1, Nat.le_of_eq h2.symm, hθ.mono (Nat.le_of_eq h2.symm)⟩
  cases t with
  | node x => exact unified (.of_isGround (by simp)) h
  | var v =>
    unfold TabledRules.matchLeaf at h
    simp only at h
    split at h
    · cases h
      exact ⟨hb, Nat.le_refl _, hθ.set harg⟩
    · next x hx => exact unified (hθ v x hx) h
  | _ =>
    cases h
    exact ⟨hb, Nat.le_refl _, hθ⟩

theorem matchLeaves (hI : Realm I q) (hb : I b) (hθ : θ.Within q b)
    (hargs : ∀ a ∈ args, b.Scoped q a)
    (h : matchLeaves n θ b args ts = some (some (θ', b'))) :
    I b' ∧ b.size ≤ b'.size ∧ θ'.Within q b' := by
  induction ts generalizing θ b args with
  | nil =>
    obtain ⟨rfl, rfl⟩ : θ = θ' ∧ b = b' := by simpa [TabledRules.matchLeaves] using h
    exact ⟨hb, Nat.le_refl _, hθ⟩
  | cons t ts ih =>
    cases args with
    | nil =>
      obtain ⟨rfl, rfl⟩ : θ = θ' ∧ b = b' := by simpa [TabledRules.matchLeaves] using h
      exact ⟨hb, Nat.le_refl _, hθ⟩
    | cons arg args =>
      obtain ⟨θ1, b1, h1, h2⟩ := matchThen_eq_some h
      obtain ⟨h3, h4, h5⟩ := hI.matchLeaf hb hθ (hargs arg List.mem_cons_self) h1
      obtain ⟨h6, h7, h8⟩ := ih h3 h5
        (fun a ha => (hargs a (List.mem_cons_of_mem _ ha)).mono h4) h2
      exact ⟨h6, h4.trans h7, h8⟩

theorem freshen (hI : Realm I q) (replaced : Term → Bool) (hb : I b)
    (hts : ∀ t ∈ ts, replaced t = true ∨ t.isGround = true) :
    I (b.freshen replaced ts).2 ∧ b.size ≤ (b.freshen replaced ts).2.size ∧
      (∀ u ∈ (b.freshen replaced ts).1, (b.freshen replaced ts).2.Scoped q u) ∧
      ∀ v, (b.freshen replaced ts).2.value? v = b.value? v := by
  induction ts generalizing b with
  | nil => exact ⟨hb, Nat.le_refl _, by simp [Bindings.freshen], fun _ => rfl⟩
  | cons t ts ih =>
    have hrest := fun t ht => hts t (List.mem_cons_of_mem _ ht)
    rw [freshen_cons]
    split
    · obtain ⟨h1, h2, h3, h4⟩ := ih (hI.newVar hb) hrest
      rw [size_newVar] at h2
      refine ⟨h1, Nat.le_of_succ_le h2, fun u hu => ?_, h4⟩
      rcases List.mem_cons.1 hu with rfl | hu
      · exact (hI.scoped_fresh hb).mono h2
      · exact h3 u hu
    · next hr =>
      obtain ⟨h1, h2, h3, h4⟩ := ih hb hrest
      refine ⟨h1, h2, fun u hu => ?_, h4⟩
      rcases List.mem_cons.1 hu with rfl | hu
      · exact .of_isGround ((hts u List.mem_cons_self).resolve_left hr)
      · exact h3 u hu

theorem openObject (hI : Realm I q) {object : Term} {f : String} (hb : I b)
    (hobject : b.Scoped q object) (hts : ∀ t ∈ ts, t.isApp = false)
    (h : b.openObject object f ts = some (args, b')) :
    I b' ∧ b.size ≤ b'.size ∧ ∀ a ∈ args, b'.Scoped q a := by
  have hleaf : ∀ t ∈ ts, t.isVar = true ∨ t.isGround = true := by
    intro t ht
    have := hts t ht
    cases t <;> simp_all [Term.isVar, Term.isApp]
  have hall : ∀ t ∈ ts, (fun _ => true) t = true ∨ t.isGround = true := fun _ _ => .inl rfl
  unfold Bindings.openObject at h
  split at h
  · next g as hd =>
    split at h
    · cases h
      have hscoped := hI.deref hb hobject
      rw [hd] at hscoped
      exact ⟨hb, Nat.le_refl _, Term.has_app.1 hscoped⟩
    · cases h
  · next v hd =>
    obtain ⟨h1, h2, h3, h4⟩ := hI.freshen Term.isVar hb hleaf
    have hscoped := hI.deref hb hobject
    rw [hd] at hscoped
    obtain ⟨hq, hlt⟩ := Term.has_ref.1 hscoped
    have hcan : (b.freshen Term.isVar ts).2.CanBind v (.app f (b.freshen Term.isVar ts).1) :=
      ⟨Nat.lt_of_lt_of_le (hlt v rfl) h2,
        (h4 v).trans (value?_of_deref_eq_ref (hI.ordered hb) hd), isEnd_of_ne_ref (by simp),
        by simp⟩
    cases h
    exact ⟨hI.bind h1 hq hcan (Term.has_app.2 h3), by simpa using h2,
      fun a ha => (h3 a ha).mono (by simp)⟩
  · obtain ⟨h1, h2, h3, -⟩ := hI.freshen (fun _ => true) hb hall
    rw [Option.some.inj h] at h1 h2 h3
    exact ⟨h1, h2, h3⟩
  · obtain ⟨h1, h2, h3, -⟩ := hI.freshen (fun _ => true) hb hall
    rw [Option.some.inj h] at h1 h2 h3
    exact ⟨h1, h2, h3⟩
  · cases h

theorem matchObject (hI : Realm I q) (hb : I b) (hθ : θ.Within q b) (harg : b.Scoped q arg)
    (ht : ∀ f ts, t = .app f ts → ∀ t ∈ ts, t.isApp = false)
    (h : matchObject n θ b arg t = some (some (θ', b'))) :
    I b' ∧ b.size ≤ b'.size ∧ θ'.Within q b' := by
  unfold TabledRules.matchObject at h
  split at h
  · next f ts =>
    split at h
    · cases h
    · next args b1 hopen =>
      obtain ⟨h1, h2, h3⟩ := hI.openObject hb harg (ht f ts rfl) hopen
      obtain ⟨h4, h5, h6⟩ := hI.matchLeaves h1 (hθ.mono h2) h3 h
      exact ⟨h4, h2.trans h5, h6⟩
  · exact hI.matchLeaf hb hθ harg h

/-- A rule that is taken up for a goal of the realm stays in it. -/
theorem enter (hI : Realm I q) {r : Rule} {goal : Triple} (hfault : r.headFault = none)
    (hb : I b) (hgoal : ∀ u ∈ goal.terms, b.Scoped q u)
    (h : r.enter n goal b = some (some (θ', b'))) :
    I b' ∧ b.size ≤ b'.size ∧ θ'.Within q b' := by
  unfold Rule.enter at h
  split at h
  · obtain ⟨θ1, b1, h1, h2⟩ := matchThen_eq_some h
    obtain ⟨h3, h4, h5⟩ := hI.matchLeaves hb (Values.within_none q b) (fun a ha => hgoal a (by
      simp only [List.mem_cons, List.not_mem_nil, or_false] at ha
      rcases ha with rfl | rfl <;> simp [Triple.terms])) h1
    obtain ⟨h6, h7, h8⟩ := hI.matchObject h3 h5
      ((hgoal goal.object (by simp [Triple.terms])).mono h4) (flat_of_headFault hfault).2.2 h2
    exact ⟨h6, h4.trans h7, h8⟩
  · cases h

variable {r : Rule} {values : Bool} {u : Term} {us : List Term}

theorem putLeaf (hI : Realm I q) (hb : I b) (hθ : θ.Within q b)
    (h : r.putLeaf values θ b t = (u, θ', b')) :
    I b' ∧ b.size ≤ b'.size ∧ θ'.Within q b' ∧ b'.Scoped q u := by
  have fresh : I b.newVar.2 ∧ b.size ≤ b.newVar.2.size ∧ θ.Within q b.newVar.2 ∧
      b.newVar.2.Scoped q (.ref b.size) :=
    ⟨hI.newVar hb, Nat.le_succ _, hθ.mono (Nat.le_succ _), hI.scoped_fresh hb⟩
  cases t with
  | node x =>
    cases h
    exact ⟨hb, Nat.le_refl _, hθ, .of_isGround (by simp)⟩
  | var v =>
    unfold Rule.putLeaf at h
    simp only at h
    split at h
    · next x hx =>
      cases h
      refine ⟨hb, Nat.le_refl _, hθ, ?_⟩
      split
      · exact hI.deref hb (hθ v x hx)
      · exact hθ v x hx
    · cases h
      exact ⟨fresh.1, fresh.2.1, fresh.2.2.1.set fresh.2.2.2, fresh.2.2.2⟩
  | _ =>
    cases h
    exact fresh

theorem putLeaves (hI : Realm I q) (hb : I b) (hθ : θ.Within q b)
    (h : r.putLeaves values θ b ts = (us, θ', b')) :
    I b' ∧ b.size ≤ b'.size ∧ θ'.Within q b' ∧ ∀ u ∈ us, b'.Scoped q u := by
  induction ts generalizing θ b us with
  | nil =>
    cases h
    exact ⟨hb, Nat.le_refl _, hθ, by simp⟩
  | cons t ts ih =>
    obtain ⟨u, θ1, b1, us1, hu, hus, rfl⟩ := putLeaves_cons h
    obtain ⟨h1, h2, h3, h4⟩ := hI.putLeaf hb hθ hu
    obtain ⟨h5, h6, h7, h8⟩ := ih h1 h3 hus
    exact ⟨h5, h2.trans h6, h7, List.forall_mem_cons.2 ⟨h4.mono h6, h8⟩⟩

theorem putObject (hI : Realm I q) (hb : I b) (hθ : θ.Within q b)
    (h : r.putObject θ b t = (u, θ', b')) :
    I b' ∧ b.size ≤ b'.size ∧ θ'.Within q b' ∧ b'.Scoped q u := by
  unfold Rule.putObject at h
  split at h
  · next f ts =>
    rcases hp : r.putLeaves false θ b ts with ⟨us, θ1, b1⟩
    simp only [hp] at h
    cases h
    obtain ⟨h1, h2, h3, h4⟩ := hI.putLeaves hb hθ hp
    exact ⟨h1, h2, h3, Term.has_app.2 h4⟩
  · exact hI.putLeaf hb hθ h

/-- A goal of a body is made of leaves of the realm. -/
theorem putGoal (hI : Realm I q) {pattern g : Triple} (hb : I b) (hθ : θ.Within q b)
    (h : r.putGoal θ b pattern = (g, θ', b')) :
    I b' ∧ b.size ≤ b'.size ∧ θ'.Within q b' ∧ ∀ u ∈ g.terms, b'.Scoped q u := by
  rcases h1 : r.putLeaf false θ b pattern.subject with ⟨s, θ1, b1⟩
  rcases h2 : r.putLeaf false θ1 b1 pattern.predicate with ⟨p, θ2, b2⟩
  rcases h3 : r.putObject θ2 b2 pattern.object with ⟨o, θ3, b3⟩
  simp only [Rule.putGoal, h1, h2, h3] at h
  cases h
  obtain ⟨hs1, hs2, hs3, hs4⟩ := hI.putLeaf hb hθ h1
  obtain ⟨hp1, hp2, hp3, hp4⟩ := hI.putLeaf hs1 hs3 h2
  obtain ⟨ho1, ho2, ho3, ho4⟩ := hI.putObject hp1 hp3 h3
  refine ⟨ho1, hs2.trans (hp2.trans ho2), ho3, ?_⟩
  simp only [Triple.terms, List.forall_mem_cons]
  exact ⟨hs4.mono (hp2.trans ho2), hp4.mono ho2, ho4, by simp⟩

end Realm

/-! ## Builtins -/

/-- A standard builtin that succeeds binds nothing, or makes an argument an integer. -/
theorem standard_binds {f : Builtin} {name : String} {store : Store} {rule : Option Rule}
    (hf : Builtin.standard.get? name = some f)
    (h : f.run n store rule b args = some (.ok (some b'))) :
    b' = b ∨ ∃ u ∈ args, ∃ i, b.unify n u (.ofInteger i) = some (some b') := by
  have hmem : f = Builtin.equal ∨ f = Builtin.notEqual ∨ f = Builtin.bound ∨ f = Builtin.unbound ∨
      f = Builtin.lessThan ∨ f = Builtin.greaterThan ∨ f = Builtin.sum ∨ f = Builtin.noValue := by
    simpa [Builtin.standard] using (standard_of_get? hf).1
  rcases hmem with rfl | rfl | rfl | rfl | rfl | rfl | rfl | rfl
  · exact .inl (of_run_test h).2
  · exact .inl (of_run_test h).2
  · exact .inl (of_run_test h).2
  · exact .inl (of_run_test h).2
  · exact .inl (of_run_test h).2
  · exact .inl (of_run_test h).2
  · rcases args with _ | ⟨a, _ | ⟨a', _ | ⟨total, rest⟩⟩⟩
    · cases h
    · cases h
    · cases h
    · obtain ⟨x, y, z, -, -, -, hu⟩ := of_run_sum h
      exact .inr ⟨total, by simp, z, hu⟩
  · exact .inl (of_run_noValue h)

/-! ## Steps -/

/-- The state is in the realm. -/
structure State.In (I : Bindings → Prop) (q : Term → Prop) (st : State) : Prop where
  bindings : I st.bindings
  values : ∀ fr ∈ st.frames, fr.values.Within q st.bindings

theorem Term.has_mapVars {f : Term → Term} {p : Term → Prop} (hf : ∀ x, (f x).Has p) (t : Term) :
    (t.mapVars f).Has p := by
  induction t using Term.induct with
  | node x => simp [mapVars]
  | app g ts ih =>
    rw [mapVars, mapVarsOf_eq, Term.has_app]
    intro u hu
    obtain ⟨t, ht, rfl⟩ := List.mem_map.1 hu
    exact ih t ht
  | _ =>
    rw [mapVars]
    · exact hf _
    all_goals simp

/-- In what is stored, and in answers, nothing but wildcards is left open. -/
theorem answer_has {P : Program} {goal t : Triple} (hground : ∀ t, P.Stored t → t.isGround = true)
    (h : Answer P goal t) : ∀ u ∈ t.terms, u.Has (· = .any) := by
  cases derives_of_answer h with
  | fact ht hu =>
    have hstored := hground _ ⟨_, ht⟩
    exact fun u hu => .of_isGround (Triple.isGround_iff.1 hstored u hu)
  | clause hcl henter hgives =>
    obtain ⟨b, n, -, ht⟩ := hgives
    obtain ⟨h1, h2, h3⟩ := mapTerms?_eq_some_iff.1 ht
    have resolved : ∀ {x u : Term}, b.resolve n x = some u → u.Has (· = .any) := by
      intro x u hx
      obtain ⟨y, -, rfl⟩ := Option.map_eq_some_iff.1 hx
      refine Term.has_mapVars (fun _ => ?_) y
      exact Term.has_any.2 rfl
    simp only [Triple.terms, List.forall_mem_cons]
    exact ⟨resolved h1, resolved h2, resolved h3, by simp⟩

/-- Ground triples, and the standard builtins. -/
structure Program.Standard (P : Program) : Prop where
  compiled : P.Compiled
  registry : P.registry = Builtin.standard
  ground : ∀ t, P.Stored t → t.isGround = true

namespace Realm

theorem opens (hI : Realm I q) (hany : q .any) {P : Program} (hP : P.Standard) {call : Call}
    {goal : Triple} {new : List Frame} (hb : I b) (hgoal : ∀ u ∈ goal.terms, b.Scoped q u)
    (h : Opens P (Answer P) call goal b b' new) :
    I b' ∧ b.size ≤ b'.size ∧ ∀ fr ∈ new, fr.values.Within q b' := by
  have hgrow : ∀ k, ∀ u ∈ goal.terms, (b.grow k).Scoped q u :=
    fun k u hu => (hgoal u hu).mono (Nat.le_max_left _ _)
  have matched : ∀ {t : Triple} {n k : Nat}, (∀ u ∈ t.terms, u.Has (· = .any)) →
      (b.grow k).unifyTriple n goal t = some (some b') → I b' ∧ b.size ≤ b'.size := by
    intro t n k ht hu
    obtain ⟨h1, h2⟩ := hI.unifyTriple (hI.grow k hb) (hgrow k)
      (fun u hu => (ht u hu).mono (by rintro x rfl; exact ⟨hany, by simp⟩)) hu
    exact ⟨h1, h2 ▸ Nat.le_max_left _ _⟩
  cases h with
  | fact _ _ ht hu =>
    have hstored := hP.ground _ ⟨_, ht⟩
    obtain ⟨h1, h2⟩ := matched
      (fun u hu => .of_isGround (Triple.isGround_iff.1 hstored u hu)) hu
    exact ⟨h1, h2, by simp⟩
  | result _ _ ht hu =>
    obtain ⟨h1, h2⟩ := matched (answer_has hP.ground ht) hu
    exact ⟨h1, h2, by simp⟩
  | @clause n k cl θ _ _ hcl henter =>
    obtain ⟨h1, h2, h3⟩ := hI.enter (headFault_of_mem hP.compiled (mem_clauses_of_call hcl))
      (hI.grow k hb) (hgrow k) henter
    exact ⟨h1, (Nat.le_max_left _ _).trans h2, by simpa using h3⟩

/-- No step leaves the realm. -/
theorem stable (hI : Realm I q) (hany : q .any) {P : Program} (hP : P.Standard) :
    Stable P (State.In I q) := by
  rintro st st' ⟨hb, hvalues⟩ hstep
  cases hstep with
  | leave => exact ⟨hb, fun fr hfr => hvalues fr (List.mem_cons_of_mem _ hfr)⟩
  | @goal b b1 b2 r θ θ1 pattern g es new fs hput hopens =>
    obtain ⟨h1, h2, h3, h4⟩ := hI.putGoal hb (hvalues _ List.mem_cons_self) hput
    obtain ⟨h5, h6, h7⟩ := hI.opens hany hP h1 h4 hopens
    refine ⟨h5, fun fr hfr => ?_⟩
    rcases List.mem_append.1 hfr with hfr | hfr
    · exact h7 fr hfr
    · rcases List.mem_cons.1 hfr with rfl | hfr
      · exact h3.mono h6
      · exact (hvalues fr (List.mem_cons_of_mem _ hfr)).mono (h2.trans h6)
  | @builtin n b b1 b2 r θ θ1 call f args es fs hf hput hrun =>
    obtain ⟨h1, h2, h3, h4⟩ := hI.putLeaves hb (hvalues _ List.mem_cons_self) hput
    obtain ⟨h5, h6⟩ : I b2 ∧ b2.size = b1.size := by
      rw [hP.registry] at hf
      rcases standard_binds hf hrun with rfl | ⟨u, hu, i, hunify⟩
      · exact ⟨h1, rfl⟩
      · exact hI.unify h1 (h4 u hu) (.of_isGround (Term.isGround_node _)) hunify
    refine ⟨h5, fun fr hfr => ?_⟩
    rcases List.mem_cons.1 hfr with rfl | hfr
    · exact h3.mono (Nat.le_of_eq h6.symm)
    · exact (hvalues fr (List.mem_cons_of_mem _ hfr)).mono (h2.trans (Nat.le_of_eq h6.symm))

end Realm

end

/-! ## What a ground goal leaves alone -/

/-- A leaf that is of no concern to what is left open in `o`: a new variable, one that stands
for a ground term already, or a wildcard. -/
def Own (o : Bindings) (x : Term) : Prop :=
  x = .any ∨ ∃ v, x = .ref v ∧ (o.size ≤ v ∨ ∃ g, o.Means (.ref v) g)

/-- The variables of `o` have the values that they had. -/
structure Bindings.Apart (o b : Bindings) : Prop where
  ordered : b.Ordered
  size_le : o.size ≤ b.size
  same : ∀ v < o.size, b.value? v = o.value? v
  values : ∀ {v t}, o.size ≤ v → b.value? v = some t → b.Scoped (Own o) t

section

variable {o b : Bindings} {t g : Term}

/-- A variable that stands for a ground term has a value. -/
theorem Bindings.Means.lt_size (ho : o.Ordered) {v : Nat} (h : o.Means (.ref v) g) :
    v < o.size := by
  cases hv : o.value? v with
  | none => exact absurd h (not_means_of_isEnd hv)
  | some t => exact ho.bound_lt hv

theorem Bindings.Means.own (ho : o.Ordered) (h : o.Means t g) : o.Scoped (Own o) t := by
  induction t using Term.induct generalizing g with
  | node x => exact .of_isGround (by simp)
  | app f ts ih =>
    obtain ⟨gs, rfl, hgs⟩ := means_app.1 h
    refine Term.has_app.2 fun t ht => ?_
    obtain ⟨g, -, hg⟩ := exists_right hgs ht
    exact ih t ht hg
  | ref v =>
    refine Term.has_ref.2 ⟨.inr ⟨v, rfl, .inr ⟨g, h⟩⟩, fun u e => ?_⟩
    cases e
    exact h.lt_size ho
  | _ =>
    obtain ⟨n, hn, hg⟩ := h
    cases n with
    | zero => cases hn
    | succ n =>
      simp only [deepDeref, deref_var, deref_any, Option.some.injEq] at hn
      subst hn
      simp at hg

theorem apart_realm (ho : o.Ordered) : Realm o.Apart (Own o) where
  ordered := fun h => h.ordered
  grow := fun k h => ⟨h.ordered.grow k, h.size_le.trans (Nat.le_max_left _ _), h.same,
    fun hv ht => (h.values hv ht).mono (Nat.le_max_left _ _)⟩
  newVar := fun h => ⟨h.ordered.newVar, h.size_le.trans (Nat.le_succ _), h.same,
    fun hv ht => (h.values hv ht).mono (Nat.le_succ _)⟩
  fresh := fun h => .inr ⟨_, rfl, .inl h.size_le⟩
  deref := fun {b t} h ht => by
    induction t using h.ordered.chain_induct with
    | stop t hend => rwa [deref_of_isEnd hend]
    | link v t hv ih =>
      rw [deref_ref_of_some h.ordered hv]
      apply ih
      by_cases hlt : v < o.size
      · obtain ⟨hown, -⟩ := Term.has_ref.1 ht
        have hval : o.value? v = some t := (h.same v hlt).symm.trans hv
        rcases hown with e | ⟨w, e, hw | ⟨g, hg⟩⟩
        · cases e
        · cases e
          omega
        · cases e
          rw [← means_deref ho, deref_ref_of_some ho hval, means_deref ho] at hg
          exact (hg.own ho).mono h.size_le
      · exact h.values (Nat.le_of_not_lt hlt) hv
  bind := fun {b t v} h hv hcan ht => by
    have hnew : o.size ≤ v := by
      rcases hv with e | ⟨w, e, hw | ⟨g, hg⟩⟩
      · cases e
      · cases e
        exact hw
      · cases e
        have hlt := hg.lt_size ho
        exact absurd hg (not_means_of_isEnd ((h.same v hlt).symm.trans hcan.unbound))
    refine ⟨hcan.ordered h.ordered, by simpa using h.size_le, fun u hu => ?_, fun {u x} hu hx => ?_⟩
    · rw [value?_bind hcan.exists_var, if_neg (by omega)]
      exact h.same u hu
    · rw [value?_bind hcan.exists_var] at hx
      split at hx
      · cases hx
        exact ht.mono (by simp)
      · exact (h.values hu hx).mono (by simp)

end

end TabledRules
