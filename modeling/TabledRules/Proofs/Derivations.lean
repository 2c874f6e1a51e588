-- Answers are derivable. Each step of resolution passes on what the goals
-- mean in the end, so an answer is the head of a rule whose body is true, and
-- an instance of its goal.
import TabledRules.Proofs.Truth

namespace TabledRules

open Bindings

/-! ## Builtins -/

section

variable {n : Nat} {store : Store} {rule : Option Rule} {θ : Values} {b b' : Bindings}
  {args : List Term} {t u x : Term} {name : String}

theorem of_run_test {arity : Nat} {holds : CallContext → List Term → Option Bool}
    (h : (Builtin.test name arity holds).run n store rule b args = some (.ok (some b'))) :
    holds ⟨b, n, store, rule⟩ args = some true ∧ b' = b := by
  unfold Builtin.run Builtin.test at h
  simp only at h
  cases hh : holds ⟨b, n, store, rule⟩ args with
  | none => rw [hh] at h; cases h
  | some yes =>
    rw [hh] at h
    cases yes with
    | false => cases h
    | true => cases h; exact ⟨rfl, rfl⟩

theorem of_run_testValues {holds : Term → Term → Bool} {a a' : Term}
    (h : (Builtin.testValues name holds).run n store rule b [a, a'] = some (.ok (some b'))) :
    ∃ x y, b.deepDeref n a = some x ∧ b.deepDeref n a' = some y ∧ holds x y = true ∧ b' = b := by
  obtain ⟨h1, rfl⟩ := of_run_test h
  simp only [CallContext.deref, Option.bind_eq_bind, Option.bind_eq_some_iff,
    Option.some.injEq] at h1
  obtain ⟨x, hx, y, hy, hxy⟩ := h1
  exact ⟨x, y, hx, hy, hxy, rfl⟩

theorem checkedSum_eq {x y z : Int64} (h : Builtin.checkedSum x y = some z) :
    z.toInt = x.toInt + y.toInt := by
  unfold Builtin.checkedSum at h
  simp only at h
  split at h
  · next hrange =>
    cases h
    rw [Int64.toInt_minValue, Int64.toInt_maxValue] at hrange
    exact Int64.toInt_ofInt_of_le hrange.1 (by omega)
  · cases h

theorem integer?_eq_some {i : Int64} (h : t.integer? = some i) : t = .ofInteger i := by
  unfold Term.integer? at h
  split at h
  · cases h
    rfl
  · cases h

theorem of_run_sum {a a' total : Term} {rest : List Term}
    (h : Builtin.sum.run n store rule b (a :: a' :: total :: rest) = some (.ok (some b'))) :
    ∃ x y z, b.deepDeref n a = some (.ofInteger x) ∧ b.deepDeref n a' = some (.ofInteger y) ∧
      z.toInt = x.toInt + y.toInt ∧ b.unify n total (.ofInteger z) = some (some b') := by
  unfold Builtin.run Builtin.sum at h
  simp only [CallContext.integer?, CallContext.deref, Option.bind_eq_bind] at h
  cases h1 : b.deepDeref n a with
  | none => simp [h1] at h
  | some s =>
    cases h2 : b.deepDeref n a' with
    | none => simp [h1, h2] at h
    | some s' =>
      simp only [h1, h2, Option.map_some, Option.bind_some] at h
      cases hx : s.integer? with
      | none => simp [hx] at h
      | some x =>
        cases hy : s'.integer? with
        | none => simp [hx, hy] at h
        | some y =>
          cases hz : Builtin.checkedSum x y with
          | none => simp [hx, hy, hz] at h
          | some z =>
            refine ⟨x, y, z, by rw [integer?_eq_some hx], by rw [integer?_eq_some hy],
              checkedSum_eq hz, ?_⟩
            simp only [hx, hy, hz, List.map_cons, List.map_nil, unifyAll, unifyEach] at h
            unfold Term.ofInteger
            rcases hu : b.unify n total (.node (.literal (.integer z))) with _ | _ | b1
            · simp [hu] at h
            · simp [hu] at h
            · simpa [hu] using h

theorem of_run_noValue (h : Builtin.noValue.run n store rule b args = some (.ok (some b'))) :
    b' = b := by
  have absent : ∀ {s p o : Term} {pairs : List (Term × Term)},
      ((⟨s, p, o⟩ : Triple).mapTerms? (b.deepDeref n)).bind (fun pattern =>
        some ((store.contains pattern).map fun found => if found then none else some [])) =
          some (.ok (some pairs)) → pairs = [] := by
    intro s p o pairs hp
    obtain ⟨pattern, -, hp⟩ := Option.bind_eq_some_iff.1 hp
    cases hc : store.contains pattern with
    | error e => simp [hc, Except.map] at hp
    | ok found => cases found <;> simp_all [Except.map]
  have hcall : ∀ pairs, Builtin.noValue.call ⟨b, n, store, rule⟩ args = some (.ok (some pairs)) →
      pairs = [] := by
    intro pairs hp
    unfold Builtin.noValue at hp
    simp only at hp
    split at hp
    · exact absent hp
    · exact absent hp
    · cases hp
  unfold Builtin.run at h
  split at h
  · cases h
  · cases h
  · cases h
  · next pairs hp =>
    obtain rfl := hcall pairs hp
    cases h
    rfl

/-- What an argument of a builtin stands for, now and later. -/
theorem Passed.value (h : Passed b θ u t) (hb : b.Fits IsRef) (ht : t.isApp = false)
    {c : Bindings} {θ' : Values} (hc : b.Extends c) (ho : c.Ordered) (hle : θ.Le θ')
    (hx : b.deepDeref n u = some x) (hground : x.isGround = true) :
    t.value? (θ'.ground c) = some x := by
  have hmeans : b.Means u x := ⟨n, hx, hground⟩
  obtain ⟨h1, -⟩ := h.means c θ' hc ho hle x (hmeans.extend hc hb.ordered ho)
  have wild : t.isVar = true → (∀ v, t ≠ .var v) → False := by
    intro h2 h3
    obtain ⟨k, rfl, hk⟩ := h.wild h2 h3
    exact not_means_of_isEnd hk hmeans
  cases t with
  | node k => rw [Term.instance_node.1 h1]; rfl
  | app f ts => cases ht
  | var v => rw [(Term.instance_var.1 h1).2 v rfl]; rfl
  | ref k => exact (wild rfl (by simp)).elim
  | any => exact (wild rfl (by simp)).elim

theorem args_of_fault {r : Rule} {registry : Registry} {call : Compound} {f : Builtin}
    (hf : registry.get? call.name = some f) (h : r.builtinFault registry call = none) :
    (f.arity = 0 ∨ f.arity = call.args.length) ∧ ∀ t ∈ call.args, t.isApp = false := by
  rw [Rule.builtinFault, hf] at h
  simp only at h
  split at h
  · cases h
  · next harity =>
    refine ⟨by omega, ?_⟩
    have : ∀ (ts : List Term) (i : Nat), r.argumentFault i ts = none → ∀ t ∈ ts, t.isApp = false := by
      intro ts
      induction ts with
      | nil => simp
      | cons t ts ih =>
        intro i hi
        rw [Rule.argumentFault] at hi
        split at hi
        · cases hi
        · next happ =>
          split at hi
          · cases hi
          · exact List.forall_mem_cons.2 ⟨by simpa using happ, ih _ hi⟩
    exact this _ _ h

theorem standard_of_get? {f : Builtin} (h : Builtin.standard.get? name = some f) :
    f ∈ Builtin.standard.builtins ∧ f.name = name := by
  refine ⟨List.mem_of_find?_eq_some h, ?_⟩
  simpa using List.find?_some h

/-- A builtin that succeeds is true of what its arguments stand for. -/
theorem builtin_means {r : Rule} {call : Compound} {f : Builtin}
    (hf : Builtin.standard.get? call.name = some f)
    (hfault : r.builtinFault Builtin.standard call = none) (hb : b.Fits IsRef)
    (hargs : List.Forall₂ (Passed b θ) args call.args)
    (h : f.run n store rule b args = some (.ok (some b'))) :
    After IsRef b b' ∧ ∀ (c : Bindings) (θ' : Values), b'.Extends c → c.Ordered → θ.Le θ' →
      call.Holds (θ'.ground c) ∧ ∀ v, (Entry.builtin call).Binds v → θ'.Known c v := by
  obtain ⟨harity, happs⟩ := args_of_fault hf hfault
  obtain ⟨hmem, hname⟩ := standard_of_get? hf
  obtain ⟨name, ts⟩ := call
  simp only at hname harity happs hargs
  have nosum : name ≠ "sum" → ∀ (c : Bindings) (θ' : Values) v,
      (Entry.builtin ⟨name, ts⟩).Binds v → θ'.Known c v :=
    fun hne _ _ _ hbinds => absurd hbinds.1 hne
  have same : After IsRef b b := ⟨hb, .refl b, rfl⟩
  -- a test of two values
  have pair : ∀ {name' : String} {holds : Term → Term → Bool},
      f = Builtin.testValues name' holds → name' ≠ "sum" →
      (∀ x y, holds x y = true → x.isGround = true ∧ y.isGround = true) →
      (∀ σ t t' x y, Term.value? σ t = some x → Term.value? σ t' = some y → holds x y = true →
        (⟨name, [t, t']⟩ : Compound).Holds σ) →
      After IsRef b b' ∧ ∀ (c : Bindings) (θ' : Values), b'.Extends c → c.Ordered → θ.Le θ' →
        (⟨name, ts⟩ : Compound).Holds (θ'.ground c) ∧
          ∀ v, (Entry.builtin ⟨name, ts⟩).Binds v → θ'.Known c v := by
    rintro name' holds rfl hne hground hholds
    have hlen : ts.length = 2 := by
      have : (Builtin.testValues name' holds).arity = 2 := rfl
      omega
    obtain ⟨t, t', rfl⟩ := List.length_eq_two.1 hlen
    obtain ⟨u, us, h1, h2, rfl⟩ := List.forall₂_cons_right_iff.1 hargs
    obtain ⟨u', us', h3, h4, rfl⟩ := List.forall₂_cons_right_iff.1 h2
    cases h4
    obtain ⟨x, y, hx, hy, hxy, rfl⟩ := of_run_testValues h
    refine ⟨same, fun c θ' hc ho hle => ⟨?_, nosum (hname ▸ hne) c θ'⟩⟩
    exact hholds _ _ _ x y (h1.value hb (happs t (by simp)) hc ho hle hx (hground x y hxy).1)
      (h3.value hb (happs t' (by simp)) hc ho hle hy (hground x y hxy).2) hxy
  -- a comparison of two integers
  have compare : ∀ {name' : String} {rel : Int → Int → Bool},
      f = Builtin.comparison name' rel → name' ≠ "sum" →
      (∀ σ t t' i j, Term.value? σ t = some (.ofInteger i) →
        Term.value? σ t' = some (.ofInteger j) → rel i.toInt j.toInt = true →
        (⟨name, [t, t']⟩ : Compound).Holds σ) →
      After IsRef b b' ∧ ∀ (c : Bindings) (θ' : Values), b'.Extends c → c.Ordered → θ.Le θ' →
        (⟨name, ts⟩ : Compound).Holds (θ'.ground c) ∧
          ∀ v, (Entry.builtin ⟨name, ts⟩).Binds v → θ'.Known c v := by
    intro name' rel hf' hne hholds
    refine pair hf' hne (fun x y hxy => ?_) fun σ t t' x y hx hy hxy => ?_
    · split at hxy
      · next i j hi hj =>
        rw [integer?_eq_some hi, integer?_eq_some hj]
        exact ⟨Term.isGround_node _, Term.isGround_node _⟩
      · cases hxy
    · split at hxy
      · next i j hi hj =>
        rw [integer?_eq_some hi] at hx
        rw [integer?_eq_some hj] at hy
        exact hholds σ t t' i j hx hy hxy
      · cases hxy
  have hmem' : f = Builtin.equal ∨ f = Builtin.notEqual ∨ f = Builtin.bound ∨ f = Builtin.unbound ∨
      f = Builtin.lessThan ∨ f = Builtin.greaterThan ∨ f = Builtin.sum ∨ f = Builtin.noValue := by
    simpa [Builtin.standard] using hmem
  rcases hmem' with rfl | rfl | rfl | rfl | rfl | rfl | rfl | rfl
  · refine pair rfl (by decide) ?_ ?_
    · intro x y hxy
      obtain ⟨hx, rfl⟩ : x.isGround = true ∧ x = y := by simpa using hxy
      exact ⟨hx, hx⟩
    · intro σ t t' x y hx hy hxy
      obtain ⟨-, rfl⟩ : x.isGround = true ∧ x = y := by simpa using hxy
      subst hname
      exact ⟨x, hx, hy⟩
  · refine pair rfl (by decide) ?_ ?_
    · intro x y hxy
      obtain ⟨⟨hx, hy⟩, -⟩ : (x.isGround = true ∧ y.isGround = true) ∧ x ≠ y := by simpa using hxy
      exact ⟨hx, hy⟩
    · intro σ t t' x y hx hy hxy
      obtain ⟨-, hne⟩ : (x.isGround = true ∧ y.isGround = true) ∧ x ≠ y := by simpa using hxy
      subst hname
      exact ⟨x, y, hx, hy, hne⟩
  · obtain ⟨-, rfl⟩ := of_run_test h
    subst hname
    exact ⟨same, fun c θ' _ _ _ => ⟨trivial, nosum (by decide) c θ'⟩⟩
  · obtain ⟨-, rfl⟩ := of_run_test h
    subst hname
    exact ⟨same, fun c θ' _ _ _ => ⟨trivial, nosum (by decide) c θ'⟩⟩
  · refine compare rfl (by decide) fun σ t t' i j hx hy hlt => ?_
    subst hname
    exact ⟨i, j, hx, hy, by simpa using hlt⟩
  · refine compare rfl (by decide) fun σ t t' i j hx hy hlt => ?_
    subst hname
    exact ⟨i, j, hx, hy, by simpa using hlt⟩
  · have hlen : ts.length = 3 := by
      have : Builtin.sum.arity = 3 := rfl
      omega
    obtain ⟨t, t', t'', rfl⟩ := List.length_eq_three.1 hlen
    obtain ⟨u, us, h1, h2, rfl⟩ := List.forall₂_cons_right_iff.1 hargs
    obtain ⟨u', us', h3, h4, rfl⟩ := List.forall₂_cons_right_iff.1 h2
    obtain ⟨u'', us'', h5, h6, rfl⟩ := List.forall₂_cons_right_iff.1 h4
    cases h6
    obtain ⟨x, y, z, hx, hy, hz, hu⟩ := of_run_sum h
    have hground : ∀ i, (Term.ofInteger i).isGround = true := fun i => Term.isGround_node _
    have hafter := unify_after hb h5.exists_vars (.of_isGround (hground z)) hu
    refine ⟨hafter, fun c θ' hc ho hle => ?_⟩
    have hbc := hafter.keeps.trans hc
    have hmeans := (unify_means_iff hb h5.exists_vars (.of_isGround (hground z)) hu hc ho
      (.ofInteger z)).2 (means_of_isGround (hground z))
    obtain ⟨h7, h8⟩ := h5.means c θ' hbc ho hle _ hmeans
    subst hname
    refine ⟨⟨x, y, z, h1.value hb (happs t (by simp)) hbc ho hle hx (hground x),
      h3.value hb (happs t' (by simp)) hbc ho hle hy (hground y), hz, fun g hg => ?_⟩, ?_⟩
    · cases t'' with
      | node k => rw [Term.instance_node.1 h7]; cases hg; rfl
      | var v => rw [(Term.instance_var.1 h7).2 v rfl]; cases hg; rfl
      | _ => cases hg
    · rintro v ⟨-, hv⟩
      obtain rfl : t'' = .var v := by simpa using hv
      exact h8 v (by simp)
  · obtain rfl := of_run_noValue h
    subst hname
    exact ⟨same, fun c θ' _ _ _ => ⟨trivial, nosum (by decide) c θ'⟩⟩

end

/-! ## Programs of safe rules -/

/-- Safe rules with the standard builtins, over ground triples. -/
structure Program.Safe (P : Program) : Prop where
  compiled : P.Compiled
  registry : P.registry = Builtin.standard
  safe : ∀ cl ∈ P.rules.clauses.toList, cl.rule.Safe
  ground : ∀ t, P.Stored t → t.isGround = true

/-- The rules derive the triple from the stored triples. -/
def Program.Derivable (P : Program) (t : Triple) : Prop :=
  TabledRules.Derivable (P.rules.clauses.toList.map Clause.rule) P.Stored t

/-- Under the bindings at the end the entry is true, and what it binds has a value. -/
def Entry.True (P : Program) (c : Bindings) (θ : Values) (e : Entry) : Prop :=
  e.Holds (θ.ground c) P.Derivable ∧ ∀ v, e.Binds v → θ.Known c v

/-- What is left of the body is true, as the variables stand in the end. -/
def Frame.True (P : Program) (c : Bindings) (fr : Frame) : Prop :=
  ∃ θ, fr.values.Le θ ∧ ∀ e ∈ fr.rest, e.True P c θ

/-- The frame is one of a clause of the program, with values that exist. -/
structure Frame.Fits (P : Program) (b : Bindings) (fr : Frame) : Prop where
  clause : ∃ cl ∈ P.rules.clauses.toList, cl.rule = fr.rule
  suffix : fr.rest <:+ fr.rule.steps
  values : fr.values.Scoped b

section

variable {P : Program} {T : Triple → Triple → Prop} {n : Nat} {b b' c : Bindings} {g t : Triple}
  {r : Rule} {θ : Values}

theorem Program.Safe.isGround (hP : P.Safe) (h : P.Derivable t) : t.isGround = true :=
  Derivable.isGround hP.ground h

theorem mem_steps_or_test {e : Entry} (h : e ∈ r.body) :
    e ∈ r.steps ∨ ∃ name v, e = .builtin ⟨name, [.var v]⟩ ∧ (name = "bound" ∨ name = "unbound") := by
  have : ∀ es : List Entry, e ∈ es → e ∈ (leadingTests r.head es).2 ∨
      ∃ name v, e = .builtin ⟨name, [.var v]⟩ ∧ (name = "bound" ∨ name = "unbound") := by
    intro es
    induction es with
    | nil => simp
    | cons e' es ih =>
      intro he
      rw [leadingTests]
      split
      · next test htest =>
        rcases List.mem_cons.1 he with rfl | he
        · right
          unfold Entry.argumentTest? at htest
          split at htest
          · next name v =>
            refine ⟨name, v, rfl, ?_⟩
            obtain ⟨arg, -, harg⟩ := Option.bind_eq_some_iff.1 htest
            split at harg
            · exact .inl ‹_›
            · split at harg
              · exact .inr ‹_›
              · cases harg
          · cases htest
        · exact ih he
      · exact .inl he
  exact this r.body h

theorem headFault_of_mem (hP : P.Compiled) {cl : Clause} (hcl : cl ∈ P.rules.clauses.toList) :
    cl.rule.headFault = none := by
  have h := (hP cl hcl).1
  unfold Rule.fault? at h
  simp only [Option.or_eq_none_iff] at h
  exact h.2.1

/-- A rule whose body is true in the end derives what its head stands for. -/
theorem Program.Safe.derivable_of_true (hP : P.Safe) {cl : Clause}
    (hcl : cl ∈ P.rules.clauses.toList) (h : ∀ e ∈ cl.rule.steps, e.True P c θ) :
    (∀ v, .var v ∈ cl.rule.head.leaves → θ.Known c v) ∧
      ∃ u, P.Derivable u ∧ cl.rule.head.Instance (Fills (θ.ground c)) u := by
  have hknown : ∀ v, .var v ∈ cl.rule.head.leaves → θ.Known c v := by
    intro v hv
    obtain ⟨w, hw, e, he, hbinds⟩ := hP.safe cl hcl _ hv
    cases hw
    rcases mem_steps_or_test he with he | ⟨name, w, rfl, hname⟩
    · exact (h e he).2 v hbinds
    · simp [Entry.Binds] at hbinds
  have hleaf : ∀ x ∈ cl.rule.head.leaves, ∃ g, Fills (θ.ground c) x g := by
    intro x hx
    obtain ⟨v, rfl, -⟩ := hP.safe cl hcl x hx
    exact ⟨θ.ground c v, θ.isGround_ground c v, fun w e => by cases e; rfl⟩
  simp only [Triple.leaves, List.mem_append] at hleaf
  obtain ⟨s, hs⟩ := Term.exists_instance fun x hx => hleaf x (.inl (.inl hx))
  obtain ⟨p, hp⟩ := Term.exists_instance fun x hx => hleaf x (.inl (.inr hx))
  obtain ⟨o, ho⟩ := Term.exists_instance fun x hx => hleaf x (.inr hx)
  refine ⟨hknown, ⟨s, p, o⟩, ?_, ⟨hs, hp, ho⟩⟩
  refine TabledRules.Derivable.of_body (List.mem_map.2 ⟨cl, hcl, rfl⟩) (θ.isGround_ground c)
    ⟨hs, hp, ho⟩ fun e he => ?_
  rcases mem_steps_or_test he with he | ⟨name, w, rfl, rfl | rfl⟩
  · exact (h e he).1
  · trivial
  · trivial

theorem unifyTriple_means (hb : b.Fits IsRef) (hg : g.Scoped b) (ht : t.isGround = true)
    (h : b.unifyTriple n g t = some (some b')) :
    After IsRef b b' ∧ ∀ c : Bindings, b'.Extends c → c.Ordered → c.MeansTriple g t := by
  have hterms := Triple.isGround_iff.1 ht
  have hscoped : ∀ u ∈ t.terms, b.Scoped IsRef u := fun u hu => .of_isGround (hterms u hu)
  refine ⟨unifyAll_after hb hg hscoped h, fun c hc ho => ?_⟩
  have hall := (solves_of_unifyAll h).means_iff hb (zip_scoped hg hscoped) hc ho
  have each : ∀ l r, (l, r) ∈ g.terms.zip t.terms → c.Means l r := fun l r hlr =>
    (hall (l, r) hlr r).2 (means_of_isGround (hterms r (List.of_mem_zip hlr).2))
  exact ⟨each _ _ (by simp [Triple.terms]), each _ _ (by simp [Triple.terms]),
    each _ _ (by simp [Triple.terms])⟩

theorem Program.Safe.enter_means (hP : P.Safe) {cl : Clause} (hcl : cl ∈ P.rules.clauses.toList)
    (hb : b.Fits IsRef) (hg : g.Scoped b) (h : cl.rule.enter n g b = some (some (θ, b'))) :
    b'.Fits IsRef ∧ b.Extends b' ∧ Frame.Fits P b' ⟨cl.rule, θ, cl.rule.steps⟩ ∧
      ∀ c : Bindings, b'.Extends c → c.Ordered → Frame.True P c ⟨cl.rule, θ, cl.rule.steps⟩ →
        ∃ u, P.Derivable u ∧ c.MeansTriple g u := by
  unfold Rule.enter at h
  split at h
  · obtain ⟨h1, h2, h3, h4⟩ := matchHead_means (headFault_of_mem hP.compiled hcl)
      (fun x hx => (hP.safe cl hcl x hx).imp fun _ h => h.1) hb hg h
    refine ⟨h1, h3, ⟨⟨cl, hcl, rfl⟩, List.suffix_rfl, h2⟩, fun c hc ho htrue => ?_⟩
    obtain ⟨θ', hle, hsteps⟩ := htrue
    obtain ⟨hknown, u, hu, hinst⟩ := hP.derivable_of_true hcl hsteps
    exact ⟨u, hu, h4 c θ' hc ho hle hknown u hinst⟩
  · cases h

theorem Triple.Scoped.grow (h : g.Scoped b) (k : Nat) : g.Scoped (b.grow k) :=
  h.mono (Extends.grow b k).size_le

/-- A goal that is solved means a derivable triple in the end. -/
theorem Program.Safe.opens_means (hP : P.Safe) (hT : ∀ key t, T key t → P.Derivable t) {call : Call}
    {new : List Frame} (hb : b.Fits IsRef) (hg : g.Scoped b) (h : Opens P T call g b b' new) :
    b'.Fits IsRef ∧ b.Extends b' ∧ (∀ fr ∈ new, fr.Fits P b') ∧
      ∀ c : Bindings, b'.Extends c → c.Ordered → (∀ fr ∈ new, fr.True P c) →
        ∃ u, P.Derivable u ∧ c.MeansTriple g u := by
  have matched : ∀ {t : Triple} {n k : Nat}, P.Derivable t →
      (b.grow k).unifyTriple n g t = some (some b') →
      b'.Fits IsRef ∧ b.Extends b' ∧ (∀ fr ∈ ([] : List Frame), fr.Fits P b') ∧
        ∀ c : Bindings, b'.Extends c → c.Ordered → (∀ fr ∈ ([] : List Frame), fr.True P c) →
          ∃ u, P.Derivable u ∧ c.MeansTriple g u := by
    intro t n k ht hu
    obtain ⟨h1, h2⟩ := unifyTriple_means (hb.grow k) (hg.grow k) (hP.isGround ht) hu
    exact ⟨h1.fits, (Extends.grow b k).trans h1.keeps, by simp,
      fun c hc ho _ => ⟨t, ht, h2 c hc ho⟩⟩
  cases h with
  | fact _ _ ht hu => exact matched (.stored ⟨_, ht⟩) hu
  | result _ _ ht hu => exact matched (hT _ _ ht) hu
  | @clause n k cl θ _ hc hcl henter =>
    obtain ⟨h1, h2, h3, h4⟩ := hP.enter_means (mem_clauses_of_call hcl) (hb.grow k) (hg.grow k)
      henter
    exact ⟨h1, (Extends.grow b k).trans h2, by simpa using h3,
      fun c hc ho htrue => h4 c hc ho (htrue _ (by simp))⟩

theorem Frame.Fits.mono {fr : Frame} (h : fr.Fits P b) (hs : b.size ≤ b'.size) : fr.Fits P b' :=
  ⟨h.clause, h.suffix, h.values.mono hs⟩

/-- Everything that was left to solve is true in the end. -/
theorem Program.Safe.steps_true (hP : P.Safe) (hT : ∀ key t, T key t → P.Derivable t) {st : State}
    (h : Steps P T st ⟨c, []⟩) (hb : st.bindings.Fits IsRef)
    (hfit : ∀ fr ∈ st.frames, fr.Fits P st.bindings) :
    c.Fits IsRef ∧ st.bindings.Extends c ∧ ∀ fr ∈ st.frames, fr.True P c := by
  induction h using Relation.ReflTransGen.head_induction_on with
  | refl => exact ⟨hb, .refl c, by simp⟩
  | head hstep _ ih =>
    cases hstep with
    | @leave b r θ fs =>
      obtain ⟨h1, h2, h3⟩ := ih hb fun fr hfr => hfit fr (List.mem_cons_of_mem _ hfr)
      exact ⟨h1, h2, List.forall_mem_cons.2 ⟨⟨θ, fun _ _ h => h, by simp⟩, h3⟩⟩
    | @goal b b1 b2 r θ θ1 pattern g es new fs hput hopens =>
      obtain ⟨⟨cl, hcl, rfl⟩, hsuffix, hvalues⟩ := hfit _ List.mem_cons_self
      have hfault := entryFault_of_suffix hP.compiled hcl hsuffix _ List.mem_cons_self
      obtain ⟨hp, hscoped, hmeans⟩ := putGoal_means hb hvalues hfault hput
      obtain ⟨h4, h5, h6, h7⟩ := hP.opens_means hT hp.fits hscoped hopens
      have hbb := hp.keeps.trans h5
      obtain ⟨h8, h9, h10⟩ := ih h4 fun fr hfr => by
        rcases List.mem_append.1 hfr with hfr | hfr
        · exact h6 fr hfr
        · rcases List.mem_cons.1 hfr with rfl | hfr
          · exact ⟨⟨cl, hcl, rfl⟩, (List.suffix_cons _ _).trans hsuffix,
              hp.values.mono h5.size_le⟩
          · exact (hfit fr (List.mem_cons_of_mem _ hfr)).mono hbb.size_le
      refine ⟨h8, hbb.trans h9, List.forall_mem_cons.2 ⟨?_, fun fr hfr => h10 fr (by simp [hfr])⟩⟩
      obtain ⟨θ', hle, hrest⟩ := h10 ⟨cl.rule, θ1, es⟩ (by simp)
      obtain ⟨u, hu, hgu⟩ := h7 c h9 h8.ordered fun fr hfr => h10 fr (by simp [hfr])
      obtain ⟨hinst, hknown⟩ := hmeans c θ' (h5.trans h9) h8.ordered hle u hgu
      exact ⟨θ', hp.le.trans hle, List.forall_mem_cons.2 ⟨⟨⟨u, hu, hinst⟩, hknown⟩, hrest⟩⟩
    | @builtin n b b1 b2 r θ θ1 call f args es fs hf hput hrun =>
      obtain ⟨⟨cl, hcl, rfl⟩, hsuffix, hvalues⟩ := hfit _ List.mem_cons_self
      have hfault := entryFault_of_suffix hP.compiled hcl hsuffix _ List.mem_cons_self
      rw [hP.registry] at hf hfault
      change cl.rule.builtinFault Builtin.standard call = none at hfault
      obtain ⟨hp, hargs⟩ := putLeaves_means hb hvalues (args_of_fault hf hfault).2 hput
      obtain ⟨h4, h5⟩ := builtin_means hf hfault hp.fits hargs hrun
      have hbb := hp.keeps.trans h4.keeps
      obtain ⟨h8, h9, h10⟩ := ih h4.fits fun fr hfr => by
        rcases List.mem_cons.1 hfr with rfl | hfr
        · exact ⟨⟨cl, hcl, rfl⟩, (List.suffix_cons _ _).trans hsuffix,
            hp.values.mono h4.keeps.size_le⟩
        · exact (hfit fr (List.mem_cons_of_mem _ hfr)).mono hbb.size_le
      refine ⟨h8, hbb.trans h9, List.forall_mem_cons.2 ⟨?_, fun fr hfr => h10 fr (by simp [hfr])⟩⟩
      obtain ⟨θ', hle, hrest⟩ := h10 ⟨cl.rule, θ1, es⟩ (by simp)
      exact ⟨θ', hp.le.trans hle, List.forall_mem_cons.2 ⟨h5 c θ' h9 h8.ordered hle, hrest⟩⟩

/-! ## Answers -/

/-- The triple is derivable, and one that the goal asks for. -/
structure Program.Right (P : Program) (goal t : Triple) : Prop where
  derivable : P.Derivable t
  matched : goal.Matches t

theorem Program.Safe.derives_right (hP : P.Safe) (hT : ∀ key t, T key t → P.Derivable t)
    {goal : Triple} (h : Derives P T goal t) : P.Right goal t := by
  have hscoped : goal.standard.Scoped goal.unbound := goal.standard_scoped
  cases h with
  | @fact n k _ b ht hu =>
    have hstored : P.Derivable t := .stored ⟨_, ht⟩
    obtain ⟨h1, h2⟩ := unifyTriple_means (goal.unbound_fits.grow k) (hscoped.grow k)
      (hP.isGround hstored) hu
    exact ⟨hstored, Triple.matches_of_means (h2 b (.refl b) h1.fits.ordered)⟩
  | @clause n k cl θ b _ hcl henter hgives =>
    obtain ⟨c, n', hsteps, ht⟩ := hgives
    obtain ⟨h1, h2, h3, h4⟩ := hP.enter_means (mem_clauses_of_codeFor hcl)
      (goal.unbound_fits.grow k) (hscoped.grow k) henter
    obtain ⟨h5, h6, h7⟩ := hP.steps_true hT hsteps h1 (by simpa using h3)
    obtain ⟨u, hu, hmeans⟩ := h4 c h6 h5.ordered (h7 _ (by simp))
    obtain rfl := resolve_eq_of_meansTriple hmeans ht
    exact ⟨hu, Triple.matches_of_means hmeans⟩

theorem Program.Safe.stage_right (hP : P.Safe) {goal : Triple} (h : Stage P n goal t) :
    P.Right goal t := by
  induction n generalizing goal t with
  | zero => exact h.elim
  | succ n ih => exact hP.derives_right (fun _ _ ht => (ih ht).derivable) h

/-- Answers of a query are derivable, and what the pattern asks for. -/
theorem Program.Safe.queryAnswer_right (hP : P.Safe) {pattern : Triple}
    (h : QueryAnswer P pattern t) : P.Right pattern t := by
  have answer : ∀ key t, Answer P key t → P.Derivable t := fun _ _ ⟨_, ht⟩ =>
    (hP.stage_right ht).derivable
  cases h with
  | derived _ hd => exact hP.derives_right answer hd
  | @result n k r _ b _ hr hu ht =>
    have hderivable := answer _ _ hr
    have hscoped : pattern.standard.Scoped pattern.unbound := pattern.standard_scoped
    obtain ⟨h1, h2⟩ := unifyTriple_means (pattern.unbound_fits.grow k) (hscoped.grow k)
      (hP.isGround hderivable) hu
    have hmeans := h2 b (.refl b) h1.fits.ordered
    obtain rfl := resolve_eq_of_meansTriple hmeans ht
    exact ⟨hderivable, Triple.matches_of_means hmeans⟩

end

end TabledRules
