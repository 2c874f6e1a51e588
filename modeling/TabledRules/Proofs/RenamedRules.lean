-- Rules over renamed variables. Where two evaluations are the same but for
-- the numbers of their variables, heads match alike, bodies pass on the same,
-- builtins come out alike, and calls look at the same clauses.
import TabledRules.Proofs.Realms
import TabledRules.Proofs.Renamings

namespace TabledRules

open Bindings

/-! ## Values -/

/-- The values are the same but for variables that stand for each other. -/
def Values.Like (ρ : Renaming) (θ θ' : Values) : Prop :=
  ∀ v, Option.Rel (Term.Like ρ) (θ v) (θ' v)

/-- Values and bindings are the same but for variables that stand for each other. -/
structure Match.Like (ρ : Renaming) (p p' : Values × Bindings) : Prop where
  values : p.1.Like ρ p'.1
  bindings : p.2.Like ρ p'.2

/-- Two matches come out alike, with new variables that stand for each other. -/
def Match.Alike (ρ : Renaming) (x x' : Option (Values × Bindings)) : Prop :=
  ∃ ρ', ρ ≤ ρ' ∧ Option.Rel (Match.Like ρ') x x'

section

variable {ρ ρ' : Renaming} {θ θ' : Values} {b b' : Bindings} {t t' : Term} {v : String} {n k : Nat}
  {arg arg' : Term} {args args' ts : List Term}

theorem Values.like_none (ρ : Renaming) : Values.none.Like ρ Values.none := fun _ => .none

theorem Values.Like.mono (h : θ.Like ρ θ') (hle : ρ ≤ ρ') : θ.Like ρ' θ' := fun v => by
  have hv := h v
  generalize θ v = x, θ' v = x' at hv
  cases hv with
  | some ht => exact .some (ht.mono hle)
  | none => exact .none

theorem Values.Like.set (h : θ.Like ρ θ') (ht : t.Like ρ t') (v : String) :
    (θ.set v t).Like ρ (θ'.set v t') := fun u => by
  by_cases e : u = v
  · subst e
    rw [Values.set_self, Values.set_self]
    exact .some ht
  · rw [Values.set_of_ne θ t e, Values.set_of_ne θ' t' e]
    exact h u

/-! ## Heads -/

theorem Match.Alike.trans {x x' : Option (Values × Bindings)} (hle : ρ ≤ ρ')
    (h : Match.Alike ρ' x x') : Match.Alike ρ x x' := by
  obtain ⟨ρ'', hle', hx⟩ := h
  exact ⟨ρ'', hle.trans hle', hx⟩

/-- A match goes on alike after matches that came out alike. -/
theorem matchThen_alike {y y' : Option (Option (Values × Bindings))}
    {next next' : Values → Bindings → Option (Option (Values × Bindings))}
    {x x' : Option (Values × Bindings)}
    (hfirst : ∀ z z', y = some z → y' = some z' → Match.Alike ρ z z')
    (hnext : ∀ ρ', ρ ≤ ρ' → ∀ θ θ' b b', θ.Like ρ' θ' → b.Like ρ' b' → next θ b = some x →
      next' θ' b' = some x' → Match.Alike ρ' x x')
    (hx : matchThen y next = some x) (hx' : matchThen y' next' = some x') :
    Match.Alike ρ x x' := by
  rcases y with _ | z
  · cases hx
  rcases y' with _ | z'
  · cases hx'
  obtain ⟨ρ', hle, hz⟩ := hfirst z z' rfl rfl
  cases hz with
  | none =>
    cases hx
    cases hx'
    exact ⟨ρ, le_rfl, .none⟩
  | some h => exact (hnext ρ' hle _ _ _ _ h.values h.bindings hx hx').trans hle

namespace Bindings

theorem Like.matchLeaf (h : b.Like ρ b') (hθ : θ.Like ρ θ') (harg : arg.Like ρ arg')
    {x x' : Option (Values × Bindings)} (hx : matchLeaf n θ b arg t = some x)
    (hx' : matchLeaf k θ' b' arg' t = some x') : Match.Alike ρ x x' := by
  -- the argument is unified with terms that are alike
  have unified : ∀ {u u' : Term}, u.Like ρ u' → (b.unify n arg u).map (·.map (θ, ·)) = some x →
      (b'.unify k arg' u').map (·.map (θ', ·)) = some x' → Match.Alike ρ x x' := by
    intro u u' hu hmap hmap'
    obtain ⟨y, hy, rfl⟩ := Option.map_eq_some_iff.1 hmap
    obtain ⟨y', hy', rfl⟩ := Option.map_eq_some_iff.1 hmap'
    refine ⟨ρ, le_rfl, ?_⟩
    cases h.unify harg hu hy hy' with
    | none => exact .none
    | some hb => exact .some ⟨hθ, hb⟩
  cases t with
  | node c => exact unified (Term.like_node.2 rfl) hx hx'
  | var v =>
    have hv := hθ v
    unfold TabledRules.matchLeaf at hx hx'
    simp only at hx hx'
    generalize θ v = y, θ' v = y' at hv hx hx'
    cases hv with
    | some hu => exact unified hu hx hx'
    | none =>
      cases hx
      cases hx'
      exact ⟨ρ, le_rfl, .some ⟨hθ.set harg v, h⟩⟩
  | _ =>
    cases hx
    cases hx'
    exact ⟨ρ, le_rfl, .some ⟨hθ, h⟩⟩

theorem Like.matchLeaves (h : b.Like ρ b') (hθ : θ.Like ρ θ')
    (hargs : List.Forall₂ (Term.Like ρ) args args') {x x' : Option (Values × Bindings)}
    (hx : matchLeaves n θ b args ts = some x) (hx' : matchLeaves k θ' b' args' ts = some x') :
    Match.Alike ρ x x' := by
  have stop : x = some (θ, b) → x' = some (θ', b') → Match.Alike ρ x x' := by
    rintro rfl rfl
    exact ⟨ρ, le_rfl, .some ⟨hθ, h⟩⟩
  induction ts generalizing ρ θ θ' b b' args args' with
  | nil =>
    simp only [TabledRules.matchLeaves, Option.some.injEq] at hx hx'
    exact stop hx.symm hx'.symm
  | cons t ts ih =>
    cases hargs with
    | nil =>
      simp only [TabledRules.matchLeaves, Option.some.injEq] at hx hx'
      exact stop hx.symm hx'.symm
    | cons harg hargs =>
      rw [TabledRules.matchLeaves] at hx hx'
      refine matchThen_alike (fun z z' hz hz' => h.matchLeaf hθ harg hz hz') ?_ hx hx'
      intro ρ' hle θ1 θ1' b1 b1' hθ1 hb1 h1 h1'
      refine ih hb1 hθ1 (Term.forall₂_like_mono hargs hle) h1 h1' ?_
      rintro rfl rfl
      exact ⟨ρ', le_rfl, .some ⟨hθ1, hb1⟩⟩

theorem value?_freshen (replaced : Term → Bool) (b : Bindings) (ts : List Term) (v : Nat) :
    (b.freshen replaced ts).2.value? v = b.value? v := by
  induction ts generalizing b with
  | nil => rfl
  | cons t ts ih =>
    rw [freshen_cons]
    split
    · rw [ih, value?_newVar]
    · exact ih b

/-- New variables take the same places. -/
theorem Like.freshen (replaced : Term → Bool) (h : b.Like ρ b')
    (hts : ∀ t ∈ ts, replaced t = true ∨ t.isGround = true) : ∃ ρ', ρ ≤ ρ' ∧
      List.Forall₂ (Term.Like ρ') (b.freshen replaced ts).1 (b'.freshen replaced ts).1 ∧
      (b.freshen replaced ts).2.Like ρ' (b'.freshen replaced ts).2 := by
  induction ts generalizing ρ b b' with
  | nil => exact ⟨ρ, le_rfl, .nil, h⟩
  | cons t ts ih =>
    have hrest := fun t ht => hts t (List.mem_cons_of_mem _ ht)
    rw [freshen_cons, freshen_cons]
    split
    · obtain ⟨ρ1, hle1, hnew, hb1⟩ := h.newVar
      obtain ⟨ρ2, hle2, hus, hb2⟩ := ih hb1 hrest
      exact ⟨ρ2, hle1.trans hle2, .cons (Term.like_ref.2 ⟨_, rfl, hle2 _ _ hnew⟩) hus, hb2⟩
    · next hr =>
      obtain ⟨ρ1, hle1, hus, hb1⟩ := ih h hrest
      exact ⟨ρ1, hle1,
        .cons (Term.like_of_isGround ((hts t List.mem_cons_self).resolve_left hr)) hus, hb1⟩

/-- Two objects are opened to arguments that are alike, or none is. -/
theorem Like.openObject (h : b.Like ρ b') {object object' : Term} (ho : object.Like ρ object')
    {f : String} (hts : ∀ t ∈ ts, t.isApp = false) :
    (b.openObject object f ts = none ∧ b'.openObject object' f ts = none) ∨
      ∃ ρ' args args' b1 b1', ρ ≤ ρ' ∧ b.openObject object f ts = some (args, b1) ∧
        b'.openObject object' f ts = some (args', b1') ∧
        List.Forall₂ (Term.Like ρ') args args' ∧ b1.Like ρ' b1' := by
  have hleaf : ∀ t ∈ ts, t.isVar = true ∨ t.isGround = true := by
    intro t ht
    have := hts t ht
    cases t <;> simp_all [Term.isVar, Term.isApp]
  have wild : ∃ ρ', ρ ≤ ρ' ∧
      List.Forall₂ (Term.Like ρ') (b.freshen (fun _ => true) ts).1
        (b'.freshen (fun _ => true) ts).1 ∧
      (b.freshen (fun _ => true) ts).2.Like ρ' (b'.freshen (fun _ => true) ts).2 :=
    h.freshen (fun _ => true) fun _ _ => .inl rfl
  have hd := h.deref ho
  unfold Bindings.openObject
  cases hobject : b.deref object with
  | node c =>
    rw [hobject, Term.like_node] at hd
    rw [hd]
    exact .inl ⟨rfl, rfl⟩
  | app g us =>
    rw [hobject, Term.like_app] at hd
    obtain ⟨us', hobject', hus⟩ := hd
    rw [hobject']
    simp only
    rw [← hus.length_eq]
    split
    · exact .inr ⟨ρ, us, us', b, b', le_rfl, rfl, rfl, hus, h⟩
    · exact .inl ⟨rfl, rfl⟩
  | ref v =>
    have hend := isEnd_deref h.ordered object
    rw [hobject] at hd hend
    obtain ⟨v', hobject', hv⟩ := Term.like_ref.1 hd
    rw [hobject']
    obtain ⟨ρ1, hle, hus, hb1⟩ := h.freshen Term.isVar hleaf
    refine .inr ⟨ρ1, _, _, _, _, hle, rfl, rfl, hus, hb1.bind (hle _ _ hv)
      (Term.like_app.2 ⟨_, rfl, hus⟩) ?_⟩
    exact ⟨hb1.lt (hle _ _ hv), (value?_freshen _ b ts v).trans (isEnd_ref.1 hend),
      isEnd_of_ne_ref (by simp), by simp⟩
  | any =>
    rw [hobject, Term.like_any] at hd
    rw [hd]
    obtain ⟨ρ1, hle, hus, hb1⟩ := wild
    exact .inr ⟨ρ1, _, _, _, _, hle, rfl, rfl, hus, hb1⟩
  | var x =>
    rw [hobject, Term.like_var] at hd
    rw [hd]
    obtain ⟨ρ1, hle, hus, hb1⟩ := wild
    exact .inr ⟨ρ1, _, _, _, _, hle, rfl, rfl, hus, hb1⟩

theorem Like.matchObject (h : b.Like ρ b') (hθ : θ.Like ρ θ') {object object' : Term}
    (ho : object.Like ρ object') (ht : ∀ f ts, t = .app f ts → ∀ t ∈ ts, t.isApp = false)
    {x x' : Option (Values × Bindings)} (hx : matchObject n θ b object t = some x)
    (hx' : matchObject k θ' b' object' t = some x') : Match.Alike ρ x x' := by
  cases t with
  | app f ts =>
    unfold TabledRules.matchObject at hx hx'
    simp only at hx hx'
    rcases h.openObject ho (ht f ts rfl) with
      ⟨h1, h1'⟩ | ⟨ρ1, us, us', b1, b1', hle, h1, h1', hus, hb1⟩
    · rw [h1] at hx
      rw [h1'] at hx'
      cases hx
      cases hx'
      exact ⟨ρ, le_rfl, .none⟩
    · rw [h1] at hx
      rw [h1'] at hx'
      exact (hb1.matchLeaves (hθ.mono hle) hus hx hx').trans hle
  | _ =>
    unfold TabledRules.matchObject at hx hx'
    exact h.matchLeaf hθ ho hx hx'

theorem Like.passes (h : b.Like ρ b') {goal goal' : Triple} (hg : goal.Like ρ goal')
    (op : Operation) : op.passes b' goal' = op.passes b goal := by
  have each : ∀ arg,
      b'.isBound (goal'.terms.getD arg .any) = b.isBound (goal.terms.getD arg .any) := by
    intro arg
    match arg with
    | 0 => exact h.isBound hg.subject
    | 1 => exact h.isBound hg.predicate
    | 2 => exact h.isBound hg.object
    | _ + 3 => exact h.isBound (Term.like_any.2 rfl)
  cases op with
  | testBound arg => exact each arg
  | testUnbound arg => exact congrArg not (each arg)
  | _ => rfl

/-- A rule is taken up alike for goals that are alike. -/
theorem Like.enter (h : b.Like ρ b') {r : Rule} {goal goal' : Triple} (hfault : r.headFault = none)
    (hg : goal.Like ρ goal') {x x' : Option (Values × Bindings)}
    (hx : r.enter n goal b = some x) (hx' : r.enter k goal' b' = some x') :
    Match.Alike ρ x x' := by
  have htests : (leadingTests r.head r.body).1.all (·.passes b' goal') =
      (leadingTests r.head r.body).1.all (·.passes b goal) :=
    congrArg _ (funext fun op => h.passes hg op)
  unfold Rule.enter at hx hx'
  rw [htests] at hx'
  split at hx
  · next hpass =>
    rw [if_pos hpass] at hx'
    refine matchThen_alike (fun z z' hz hz' => h.matchLeaves (Values.like_none ρ)
      (.cons hg.subject (.cons hg.predicate .nil)) hz hz') ?_ hx hx'
    intro ρ' hle θ1 θ1' b1 b1' hθ1 hb1 h1 h1'
    exact hb1.matchObject hθ1 (Term.Like.mono hg.object hle) (flat_of_headFault hfault).2.2 h1 h1'
  · next hpass =>
    rw [if_neg hpass] at hx'
    cases hx
    cases hx'
    exact ⟨ρ, le_rfl, .none⟩

end Bindings

/-! ## Bodies -/

/-- Terms are passed on alike, with new variables that stand for each other. -/
structure Put.Like {α : Type} (R : Renaming → α → α → Prop) (ρ : Renaming)
    (p p' : α × Values × Bindings) : Prop where
  passed : R ρ p.1 p'.1
  values : p.2.1.Like ρ p'.2.1
  bindings : p.2.2.Like ρ p'.2.2

namespace Bindings

variable {r : Rule} {values : Bool}

theorem Like.putLeaf (h : b.Like ρ b') (hθ : θ.Like ρ θ') (r : Rule) (values : Bool) (t : Term) :
    ∃ ρ', ρ ≤ ρ' ∧ Put.Like Term.Like ρ' (r.putLeaf values θ b t) (r.putLeaf values θ' b' t) := by
  obtain ⟨ρ1, hle, hnew, hb1⟩ := h.newVar
  have fresh : (Term.ref b.size).Like ρ1 (.ref b'.size) := Term.like_ref.2 ⟨_, rfl, hnew⟩
  cases t with
  | node c => exact ⟨ρ, le_rfl, Term.like_node.2 rfl, hθ, h⟩
  | var v =>
    have hv := hθ v
    unfold Rule.putLeaf
    simp only
    generalize θ v = y, θ' v = y' at hv
    cases hv with
    | some hu =>
      refine ⟨ρ, le_rfl, ?_, hθ, h⟩
      change (if _ then _ else _ : Term).Like ρ (if _ then _ else _)
      split
      · exact h.deref hu
      · exact hu
    | none => exact ⟨ρ1, hle, fresh, (hθ.mono hle).set fresh v, hb1⟩
  | _ => exact ⟨ρ1, hle, fresh, hθ.mono hle, hb1⟩

theorem Like.putLeaves (h : b.Like ρ b') (hθ : θ.Like ρ θ') (r : Rule) (values : Bool)
    (ts : List Term) : ∃ ρ', ρ ≤ ρ' ∧ Put.Like (fun ρ => List.Forall₂ (Term.Like ρ)) ρ'
      (r.putLeaves values θ b ts) (r.putLeaves values θ' b' ts) := by
  induction ts generalizing ρ θ θ' b b' with
  | nil => exact ⟨ρ, le_rfl, .nil, hθ, h⟩
  | cons t ts ih =>
    obtain ⟨ρ1, hle1, hu, hθ1, hb1⟩ := h.putLeaf hθ r values t
    obtain ⟨ρ2, hle2, hus, hθ2, hb2⟩ := ih hb1 hθ1
    exact ⟨ρ2, hle1.trans hle2, .cons (hu.mono hle2) hus, hθ2, hb2⟩

theorem Like.putObject (h : b.Like ρ b') (hθ : θ.Like ρ θ') (r : Rule) (t : Term) :
    ∃ ρ', ρ ≤ ρ' ∧ Put.Like Term.Like ρ' (r.putObject θ b t) (r.putObject θ' b' t) := by
  cases t with
  | app f ts =>
    obtain ⟨ρ1, hle, hus, hθ1, hb1⟩ := h.putLeaves hθ r false ts
    exact ⟨ρ1, hle, Term.like_app.2 ⟨_, rfl, hus⟩, hθ1, hb1⟩
  | _ =>
    unfold Rule.putObject
    exact h.putLeaf hθ r false _

/-- A goal of a body is called alike. -/
theorem Like.putGoal (h : b.Like ρ b') (hθ : θ.Like ρ θ') (r : Rule) (pattern : Triple) :
    ∃ ρ', ρ ≤ ρ' ∧
      Put.Like Triple.Like ρ' (r.putGoal θ b pattern) (r.putGoal θ' b' pattern) := by
  obtain ⟨ρ1, hle1, hs, hθ1, hb1⟩ := h.putLeaf hθ r false pattern.subject
  obtain ⟨ρ2, hle2, hp, hθ2, hb2⟩ := hb1.putLeaf hθ1 r false pattern.predicate
  obtain ⟨ρ3, hle3, ho, hθ3, hb3⟩ := hb2.putObject hθ2 r pattern.object
  exact ⟨ρ3, hle1.trans (hle2.trans hle3),
    ⟨hs.mono (hle2.trans hle3), hp.mono hle3, ho⟩, hθ3, hb3⟩

end Bindings

/-! ## Builtins -/

/-- A store that cannot tell patterns apart in which other variables stand. -/
def Store.Blind (store : Store) : Prop :=
  ∀ (ρ : Renaming) (p p' : Triple), p.Like ρ p' → store.contains p' = store.contains p

theorem Triple.Like.isGround {p p' : Triple} (h : p.Like ρ p') : p'.isGround = p.isGround := by
  unfold Triple.isGround
  rw [Term.Like.isGround h.subject, Term.Like.isGround h.predicate, Term.Like.isGround h.object]

theorem Triple.Like.eq_of_isGround {p p' : Triple} (h : p.Like ρ p') (hg : p.isGround = true) :
    p' = p := by
  obtain ⟨s, p, o⟩ := p
  obtain ⟨s', p', o'⟩ := p'
  obtain ⟨⟨g1, g2⟩, g3⟩ : (s.isGround = true ∧ p.isGround = true) ∧ o.isGround = true := by
    simpa [Triple.isGround] using hg
  obtain rfl : s' = s := Term.Like.eq_of_isGround h.subject g1
  obtain rfl : p' = p := Term.Like.eq_of_isGround h.predicate g2
  obtain rfl : o' = o := Term.Like.eq_of_isGround h.object g3
  rfl

theorem Graph.blind (g : Graph) : g.toStore.Blind := by
  intro ρ p p' h
  have hfind : g.find p' = g.find p := by
    unfold Graph.find
    rw [h.lookupKey]
  change Except.ok (g.contains p') = Except.ok (g.contains p)
  unfold Graph.contains
  rw [h.isGround, hfind]
  split
  · next hg => rw [h.eq_of_isGround hg]
  · rfl

theorem Builtin.run_test {name : String} {arity : Nat}
    {holds : CallContext → List Term → Option Bool} {store : Store} {rule : Option Rule}
    {x : Option Bindings}
    (h : (Builtin.test name arity holds).run n store rule b args = some (.ok x)) :
    ∃ yes, holds ⟨b, n, store, rule⟩ args = some yes ∧ x = if yes then some b else none := by
  unfold Builtin.run Builtin.test at h
  simp only at h
  cases hh : holds ⟨b, n, store, rule⟩ args with
  | none =>
    rw [hh] at h
    cases h
  | some yes =>
    rw [hh] at h
    cases yes with
    | false =>
      cases h
      exact ⟨false, rfl, rfl⟩
    | true =>
      cases h
      exact ⟨true, rfl, rfl⟩

/-- Terms of which a test says the same are alike. -/
def TellsAlike (holds : Term → Term → Bool) : Prop :=
  ∀ {ρ : Renaming} {x x' y y' : Term}, x.Like ρ x' → y.Like ρ y' → holds x' y' = holds x y

theorem Term.Like.integer? (h : t.Like ρ t') : t'.integer? = t.integer? := by
  cases t with
  | node c => rw [like_node.1 h]
  | app f ts =>
    obtain ⟨ts', rfl, -⟩ := like_app.1 h
    rfl
  | var x => rw [like_var.1 h]
  | ref v =>
    obtain ⟨v', rfl, -⟩ := like_ref.1 h
    rfl
  | any => rw [like_any.1 h]

/-- A ground term equals another one exactly if the other ones that are alike are equal. -/
theorem Term.Like.eq_iff {x x' y y' : Term} (hx : x.Like ρ x') (hy : y.Like ρ y')
    (hg : x.isGround = true) : x' = y' ↔ x = y := by
  rw [hx.eq_of_isGround hg]
  constructor
  · rintro rfl
    exact hy.eq_of_isGround_right hg
  · rintro rfl
    exact (hy.eq_of_isGround hg).symm

theorem tellsAlike_equal : TellsAlike fun x y => x.isGround && x = y := by
  intro ρ x x' y y' hx hy
  beta_reduce
  rw [hx.isGround]
  cases hg : x.isGround with
  | false => rfl
  | true => simp only [hx.eq_iff hy hg]

theorem tellsAlike_notEqual :
    TellsAlike fun x y => x.isGround && y.isGround && decide (x ≠ y) := by
  intro ρ x x' y y' hx hy
  beta_reduce
  rw [hx.isGround, hy.isGround]
  cases hg : x.isGround with
  | false => rfl
  | true => simp only [ne_eq, hx.eq_iff hy hg]

namespace Bindings

variable {store : Store} {rule : Option Rule} {x x' : Option Bindings}

/-- Tests that say the same come out alike. -/
theorem Like.test (h : b.Like ρ b') {name : String} {arity : Nat}
    {holds : CallContext → List Term → Option Bool}
    (hholds : ∀ yes yes', holds ⟨b, n, store, rule⟩ args = some yes →
      holds ⟨b', k, store, rule⟩ args' = some yes' → yes' = yes)
    (hx : (Builtin.test name arity holds).run n store rule b args = some (.ok x))
    (hx' : (Builtin.test name arity holds).run k store rule b' args' = some (.ok x')) :
    Option.Rel (Bindings.Like ρ) x x' := by
  obtain ⟨yes, hyes, rfl⟩ := Builtin.run_test hx
  obtain ⟨yes', hyes', rfl⟩ := Builtin.run_test hx'
  obtain rfl := hholds yes yes' hyes hyes'
  cases yes' with
  | false => exact .none
  | true => exact .some h

theorem Like.testValues (h : b.Like ρ b') {name : String} {holds : Term → Term → Bool}
    (hholds : TellsAlike holds) (hargs : List.Forall₂ (Term.Like ρ) args args')
    (hx : (Builtin.testValues name holds).run n store rule b args = some (.ok x))
    (hx' : (Builtin.testValues name holds).run k store rule b' args' = some (.ok x')) :
    Option.Rel (Bindings.Like ρ) x x' := by
  refine h.test (fun yes yes' hyes hyes' => ?_) hx hx'
  match hargs with
  | .nil | .cons _ .nil =>
    cases hyes
    cases hyes'
    rfl
  | .cons h1 (.cons h2 _) =>
    simp only [CallContext.deref, Option.bind_eq_bind, Option.bind_eq_some_iff,
      Option.some.injEq] at hyes hyes'
    obtain ⟨u, hu, w, hw, rfl⟩ := hyes
    obtain ⟨u', hu', w', hw', rfl⟩ := hyes'
    exact hholds (h.deepDeref h1 hu hu') (h.deepDeref h2 hw hw')

theorem Like.comparison (h : b.Like ρ b') {name : String} {holds : Int → Int → Bool}
    (hargs : List.Forall₂ (Term.Like ρ) args args')
    (hx : (Builtin.comparison name holds).run n store rule b args = some (.ok x))
    (hx' : (Builtin.comparison name holds).run k store rule b' args' = some (.ok x')) :
    Option.Rel (Bindings.Like ρ) x x' := by
  refine h.testValues (fun {_ y y' z z'} hy hz => ?_) hargs hx hx'
  simp only [hy.integer?, hz.integer?]

theorem Like.all_isBound (h : b.Like ρ b') (hargs : List.Forall₂ (Term.Like ρ) args args')
    (f : Bool → Bool) :
    args'.all (fun t => f (b'.isBound t)) = args.all fun t => f (b.isBound t) := by
  induction hargs with
  | nil => rfl
  | cons h1 _ ih => rw [List.all_cons, List.all_cons, ih, h.isBound h1]

/-- What a sum does with the values of its arguments. -/
theorem run_sum {a c total : Term} {rest : List Term}
    (h : Builtin.sum.run n store rule b (a :: c :: total :: rest) = some (.ok x)) :
    ∃ u w, b.deepDeref n a = some u ∧ b.deepDeref n c = some w ∧
      match u.integer?, w.integer? with
      | some i, some j => ∃ z, Builtin.checkedSum i j = some z ∧
        b.unify n total (.node (.literal (.integer z))) = some x
      | _, _ => x = none := by
  unfold Builtin.run Builtin.sum at h
  simp only [CallContext.integer?, CallContext.deref, Option.bind_eq_bind] at h
  cases ha : b.deepDeref n a with
  | none => simp [ha] at h
  | some u =>
    cases hc : b.deepDeref n c with
    | none => simp [ha, hc] at h
    | some w =>
      refine ⟨u, w, rfl, rfl, ?_⟩
      simp only [ha, hc, Option.map_some, Option.bind_some] at h
      cases hi : u.integer? with
      | none => simpa [hi, eq_comm] using h
      | some i =>
        cases hj : w.integer? with
        | none => simpa [hi, hj, eq_comm] using h
        | some j =>
          cases hz : Builtin.checkedSum i j with
          | none => simp [hi, hj, hz] at h
          | some z =>
            refine ⟨z, hz, ?_⟩
            simp only [hi, hj, hz, List.map_cons, List.map_nil, unifyAll, unifyEach] at h
            cases hu : b.unify n total (.node (.literal (.integer z))) with
            | none => simp [hu] at h
            | some y => cases y <;> simpa [hu] using h

/-- Sums come out alike. -/
theorem Like.sum (h : b.Like ρ b') (hargs : List.Forall₂ (Term.Like ρ) args args')
    (hx : Builtin.sum.run n store rule b args = some (.ok x))
    (hx' : Builtin.sum.run k store rule b' args' = some (.ok x')) :
    Option.Rel (Bindings.Like ρ) x x' := by
  match hargs with
  | .nil | .cons _ .nil | .cons _ (.cons _ .nil) =>
    cases hx
    cases hx'
    exact .none
  | .cons h1 (.cons h2 (.cons h3 h4)) =>
    obtain ⟨u, w, hu, hw, hx⟩ := run_sum hx
    obtain ⟨u', w', hu', hw', hx'⟩ := run_sum hx'
    rw [(h.deepDeref h1 hu hu').integer?, (h.deepDeref h2 hw hw').integer?] at hx'
    split at hx
    · next i j hi hj =>
      rw [hi, hj] at hx'
      obtain ⟨z, hz, hx⟩ := hx
      obtain ⟨z', hz', hx'⟩ := hx'
      cases hz.symm.trans hz'
      exact h.unify h3 (Term.like_node.2 rfl) hx hx'
    · next hno =>
      split at hx'
      · next i j hi hj => exact absurd hj (hno i j hi)
      · subst hx hx'
        exact .none

/-- The goal that `noValue` asks for. -/
def absentGoal? : List Term → Option Triple
  | [s, p] => some ⟨s, p, .any⟩
  | [s, p, o] => some ⟨s, p, o⟩
  | _ => none

theorem run_noValue (h : Builtin.noValue.run n store rule b args = some (.ok x)) :
    ∃ goal pattern found, absentGoal? args = some goal ∧
      goal.mapTerms? (b.deepDeref n) = some pattern ∧ store.contains pattern = .ok found ∧
      x = if found then none else some b := by
  have absent : ∀ goal : Triple, Builtin.noValue.call ⟨b, n, store, rule⟩ args =
      ((goal.mapTerms? (b.deepDeref n)).bind fun pattern =>
        some ((store.contains pattern).map fun found => if found then none else some [])) →
      ∃ pattern found, goal.mapTerms? (b.deepDeref n) = some pattern ∧
        store.contains pattern = .ok found ∧ x = if found then none else some b := by
    intro goal hcall
    unfold Builtin.run at h
    rw [hcall] at h
    cases hp : goal.mapTerms? (b.deepDeref n) with
    | none => simp [hp] at h
    | some pattern =>
      cases hc : store.contains pattern with
      | error e => simp [hp, hc, Except.map] at h
      | ok found =>
        refine ⟨pattern, found, rfl, hc, ?_⟩
        cases found <;> simp_all [Except.map, unifyAll, unifyEach]
  rcases args with _ | ⟨s, _ | ⟨p, _ | ⟨o, _ | ⟨_, _⟩⟩⟩⟩
  · cases h
  · cases h
  · obtain ⟨pattern, found, h1⟩ := absent ⟨s, p, .any⟩ rfl
    exact ⟨_, pattern, found, rfl, h1⟩
  · obtain ⟨pattern, found, h1⟩ := absent ⟨s, p, o⟩ rfl
    exact ⟨_, pattern, found, rfl, h1⟩
  · cases h

/-- Whether there is a stored triple comes out alike. -/
theorem Like.noValue (h : b.Like ρ b') (hstore : store.Blind)
    (hargs : List.Forall₂ (Term.Like ρ) args args')
    (hx : Builtin.noValue.run n store rule b args = some (.ok x))
    (hx' : Builtin.noValue.run k store rule b' args' = some (.ok x')) :
    Option.Rel (Bindings.Like ρ) x x' := by
  obtain ⟨goal, pattern, found, hgoal, hp, hc, rfl⟩ := run_noValue hx
  obtain ⟨goal', pattern', found', hgoal', hp', hc', rfl⟩ := run_noValue hx'
  have hlike : goal.Like ρ goal' := by
    match hargs with
    | .nil => cases hgoal
    | .cons _ .nil => cases hgoal
    | .cons h1 (.cons h2 .nil) =>
      cases hgoal
      cases hgoal'
      exact ⟨h1, h2, Term.like_any.2 rfl⟩
    | .cons h1 (.cons h2 (.cons h3 .nil)) =>
      cases hgoal
      cases hgoal'
      exact ⟨h1, h2, h3⟩
    | .cons _ (.cons _ (.cons _ (.cons _ _))) => cases hgoal
  rw [hstore ρ _ _ (h.deepDerefTriple hlike hp hp'), hc] at hc'
  cases hc'
  cases found with
  | false => exact .some h
  | true => exact .none

/-- A standard builtin comes out alike for arguments that are alike. -/
theorem Like.builtin (h : b.Like ρ b') (hstore : store.Blind) {name : String} {f : Builtin}
    (hf : Builtin.standard.get? name = some f) (hargs : List.Forall₂ (Term.Like ρ) args args')
    (hx : f.run n store rule b args = some (.ok x))
    (hx' : f.run k store rule b' args' = some (.ok x')) : Option.Rel (Bindings.Like ρ) x x' := by
  have hmem : f = Builtin.equal ∨ f = Builtin.notEqual ∨ f = Builtin.bound ∨ f = Builtin.unbound ∨
      f = Builtin.lessThan ∨ f = Builtin.greaterThan ∨ f = Builtin.sum ∨ f = Builtin.noValue := by
    simpa [Builtin.standard] using (standard_of_get? hf).1
  rcases hmem with rfl | rfl | rfl | rfl | rfl | rfl | rfl | rfl
  · exact h.testValues tellsAlike_equal hargs hx hx'
  · exact h.testValues tellsAlike_notEqual hargs hx hx'
  · refine h.test (fun yes yes' hyes hyes' => ?_) hx hx'
    rw [← Option.some.inj hyes, ← Option.some.inj hyes']
    exact h.all_isBound hargs id
  · refine h.test (fun yes yes' hyes hyes' => ?_) hx hx'
    rw [← Option.some.inj hyes, ← Option.some.inj hyes']
    exact h.all_isBound hargs not
  · exact h.comparison hargs hx hx'
  · exact h.comparison hargs hx hx'
  · exact h.sum hargs hx hx'
  · exact h.noValue hstore hargs hx hx'

end Bindings

/-! ## What a call looks at -/

theorem Term.Like.symm (h : t.Like ρ t') : t'.Like (fun v v' => ρ v' v) t := by
  induction t using Term.induct generalizing t' with
  | node c =>
    obtain rfl := like_node.1 h
    exact like_node.2 rfl
  | app f ts ih =>
    obtain ⟨ts', rfl, hts⟩ := like_app.1 h
    refine like_app.2 ⟨ts, rfl, ?_⟩
    clear h
    induction hts with
    | nil => exact .nil
    | @cons t t' ts ts' h1 _ ih2 =>
      exact .cons (ih t List.mem_cons_self h1) (ih2 fun t ht => ih t (List.mem_cons_of_mem _ ht))
  | var x =>
    obtain rfl := like_var.1 h
    exact like_var.2 rfl
  | ref v =>
    obtain ⟨v', rfl, hv⟩ := like_ref.1 h
    exact like_ref.2 ⟨v, rfl, hv⟩
  | any =>
    obtain rfl := like_any.1 h
    exact like_any.2 rfl

/-- The terms are the same node, both compound or both no values. -/
structure Term.Tops (t t' : Term) : Prop where
  isVar : t'.isVar = t.isVar
  node : ∀ c, t = .node c ↔ t' = .node c

theorem Term.Tops.isNode (h : t.Tops t') : t'.isNode = t.isNode := by
  rw [Bool.eq_iff_iff]
  constructor
  · intro hn
    cases t' with
    | node c => rw [(h.node c).2 rfl]; rfl
    | _ => cases hn
  · intro hn
    cases t with
    | node c => rw [(h.node c).1 rfl]; rfl
    | _ => cases hn

theorem Term.Tops.isApp (h : t.Tops t') : t'.isApp = t.isApp := by
  have h1 := h.isVar
  have h2 := h.isNode
  cases t <;> cases t' <;> simp_all [Term.isVar, Term.isNode, Term.isApp]

theorem Term.Like.tops (h : t.Like ρ t') : t.Tops t' := by
  refine ⟨h.isVar, fun c => ⟨?_, ?_⟩⟩
  · rintro rfl
    exact like_node.1 h
  · rintro rfl
    exact like_node.1 h.symm

/-- No number of a variable decides anything: the store does not see them, only nodes have rules
of their own, and in a compound predicate that is to keep tables there is no numbered variable. -/
structure Program.Blind (P : Program) : Prop extends P.Standard where
  store : P.store.Blind
  heads : ∀ p ∈ P.rules.layout.heads, p.isNode = true
  tabled : ∀ f ts, .app f ts ∈ P.rules.layout.tabled → ∀ v, .ref v ∉ (Term.app f ts).leaves

namespace Program.Blind

variable {P : Program} {p p' : Term} {goal goal' : Triple}

theorem isTabled (hP : P.Blind) (h : p.Like ρ p') : P.rules.isTabled p' = P.rules.isTabled p := by
  unfold RuleBase.isTabled Layout.isTabled
  rw [h.isVar]
  cases p with
  | node c => rw [Term.like_node.1 h]
  | var x => rw [Term.like_var.1 h]
  | any => rw [Term.like_any.1 h]
  | ref v =>
    obtain ⟨v', rfl, -⟩ := Term.like_ref.1 h
    cases htabled : P.rules.layout.tabled with
    | nil => rfl
    | cons x xs => simp [Term.isVar]
  | app f ts =>
    obtain ⟨ts', rfl, -⟩ := Term.like_app.1 h
    congr 1
    rw [Bool.eq_iff_iff, List.contains_iff_mem, List.contains_iff_mem]
    refine ⟨fun hmem => ?_, fun hmem => ?_⟩
    · rw [h.symm.eq_of_no_ref (hP.tabled _ _ hmem)]
      exact hmem
    · rw [h.eq_of_no_ref (hP.tabled _ _ hmem)]
      exact hmem

theorem clausesFor (hP : P.Blind) (h : p.Tops p') :
    P.rules.clausesFor p' = P.rules.clausesFor p := by
  unfold RuleBase.clausesFor
  rw [h.isVar]
  split
  · rfl
  · next hvar =>
    rw [RuleBase.ownClauses_eq, RuleBase.ownClauses_eq]
    congr 1
    refine List.filter_congr fun cl hcl => ?_
    have hflat := (flat_of_headFault (headFault_of_mem hP.compiled hcl)).2.1
    cases p with
    | node c => rw [(h.node c).1 rfl]
    | app f ts =>
      -- no head has a compound predicate
      have hne : ∀ q : Term, q.isApp = true → cl.rule.head.predicate ≠ q := by
        rintro q hq rfl
        exact absurd hq (by simp [hflat])
      rw [decide_eq_false (hne (.app f ts) rfl), decide_eq_false (hne p' h.isApp)]
    | _ => exact absurd rfl hvar

theorem not_mem_heads (hP : P.Blind) (hp : p.isNode = false) :
    P.rules.layout.heads.contains p = false := by
  rw [Bool.eq_false_iff]
  intro hmem
  rw [hP.heads p (List.contains_iff_mem.1 hmem)] at hp
  cases hp

theorem codeFor_object (o o' s s' : Term) (p : Term) (h : o.Tops o') :
    P.rules.codeFor ⟨s', p, o'⟩ = P.rules.codeFor ⟨s, p, o⟩ := by
  unfold RuleBase.codeFor
  simp only
  rw [h.isNode]
  cases o with
  | node c => rw [(h.node c).1 rfl]
  | _ => rfl

theorem codeFor (hP : P.Blind) (hp : goal.predicate.Tops goal'.predicate)
    (ho : goal.object.Tops goal'.object) : P.rules.codeFor goal' = P.rules.codeFor goal := by
  obtain ⟨s, p, o⟩ := goal
  obtain ⟨s', p', o'⟩ := goal'
  replace hp : p.Tops p' := hp
  rw [codeFor_object o o' s s' p' ho]
  unfold RuleBase.codeFor
  simp only
  rw [hP.clausesFor hp]
  cases hnode : p.isNode with
  | true =>
    cases p with
    | node c => rw [(hp.node c).1 rfl]
    | _ => cases hnode
  | false => rw [hP.not_mem_heads hnode, hP.not_mem_heads (hp.isNode.trans hnode), Bool.and_false,
      Bool.and_false]

theorem readsTable (hP : P.Blind) (h : goal.Like ρ goal') (c : Call) :
    c.readsTable P.rules goal' = c.readsTable P.rules goal := by
  cases c with
  | wildTabled => exact hP.isTabled h.predicate
  | _ => rfl

/-- The clauses of a call are those for the kinds that its predicate and its object are of. -/
theorem clauses (hP : P.Blind) (hp : goal.predicate.Tops goal'.predicate)
    (ho : goal.object.Tops goal'.object) (c : Call) :
    c.clauses P.rules goal' = c.clauses P.rules goal := by
  cases c with
  | wildTabled => exact hP.codeFor hp ho
  | predicateIndex p =>
    change (if goal'.object.isVar = true then _ else _) = if goal.object.isVar = true then _ else _
    rw [ho.isVar]
    split
    · rfl
    · exact codeFor_object goal.object goal'.object goal.subject goal'.subject p ho
  | _ => rfl

end Program.Blind

end

end TabledRules
