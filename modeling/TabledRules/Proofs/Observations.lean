-- What can be told of terms on the two sides of a mirror. Values are the same
-- but for their variables, so groundness, lookups, the clauses of a call and the
-- standard builtins come out the same.
import TabledRules.Proofs.DirectSearch
import TabledRules.Proofs.LeadingTests
import TabledRules.Proofs.Mirrors

namespace TabledRules

namespace Bindings

/-! ## Values -/

theorem mapM_rel {α β : Type} {S : α → α → Prop} {f g : α → Option β} {Q : β → β → Prop}
    (hfg : ∀ a a', S a a' → Option.Rel Q (f a) (g a')) {as as' : List α}
    (h : List.Forall₂ S as as') : Option.Rel (List.Forall₂ Q) (as.mapM f) (as'.mapM g) := by
  induction h with
  | nil => exact .some .nil
  | cons h1 _ ih =>
    have hfirst := hfg _ _ h1
    simp only [List.mapM_cons, Option.bind_eq_bind, Option.pure_def]
    generalize f _ = x, g _ = x' at hfirst
    cases hfirst with
    | none => exact .none
    | some hx =>
      generalize List.mapM f _ = y, List.mapM g _ = y' at ih
      cases ih with
      | none => exact .none
      | some hy => exact .some (.cons hx hy)

section

variable {S R : Pairing} {F F' : Set Nat} {b b' : Bindings} {t t' u u' : Term} {n : Nat}
  {args args' : List Term} {goal goal' : Triple}

theorem Mirror.isBound (h : Mirror S R F F' b b') (hu : S u u') : b'.isBound u' = b.isBound u := by
  unfold Bindings.isBound
  rw [(h.shape hu).tops.isVar]

/-- The values are the same but for the variables in them. -/
theorem Mirror.deepDeref (h : Mirror S S F F' b b') (hu : S u u') (n : Nat) :
    Option.Rel (Term.Like ⊤) (b.deepDeref n u) (b'.deepDeref n u') := by
  induction n generalizing u u' with
  | zero => exact .none
  | succ n ih =>
    have hd := h.shape hu
    rw [Bindings.deepDeref, Bindings.deepDeref]
    generalize b.deref u = d, b'.deref u' = d' at hd
    cases hd with
    | node c => exact .some (Term.like_node.2 rfl)
    | ref v v' => exact .some (Term.like_ref.2 ⟨v', rfl, trivial⟩)
    | @app f ts ts' hts =>
      have hall := mapM_rel (fun _ _ hu => ih hu) hts
      simp only
      generalize ts.mapM (b.deepDeref n) = x, ts'.mapM (b'.deepDeref n) = x' at hall
      cases hall with
      | none => exact .none
      | some hx => exact .some (Term.like_app.2 ⟨_, rfl, hx⟩)

theorem mapTerms?_rel {ρ : Renaming} {f g : Term → Option Term}
    (h1 : Option.Rel (Term.Like ρ) (f goal.subject) (g goal'.subject))
    (h2 : Option.Rel (Term.Like ρ) (f goal.predicate) (g goal'.predicate))
    (h3 : Option.Rel (Term.Like ρ) (f goal.object) (g goal'.object)) :
    Option.Rel (Triple.Like ρ) (goal.mapTerms? f) (goal'.mapTerms? g) := by
  unfold Triple.mapTerms?
  generalize f goal.subject = x1, g goal'.subject = y1 at h1
  generalize f goal.predicate = x2, g goal'.predicate = y2 at h2
  generalize f goal.object = x3, g goal'.object = y3 at h3
  cases h1 with
  | none => exact .none
  | some k1 =>
    cases h2 with
    | none => exact .none
    | some k2 =>
      cases h3 with
      | none => exact .none
      | some k3 => exact .some ⟨k1, k2, k3⟩

theorem Mirror.deepDerefTriple (h : Mirror S S F F' b b') (ht : S.Triples goal goal') (n : Nat) :
    Option.Rel (Triple.Like ⊤) (goal.mapTerms? (b.deepDeref n))
      (goal'.mapTerms? (b'.deepDeref n)) :=
  mapTerms?_rel (h.deepDeref ht.subject n) (h.deepDeref ht.predicate n) (h.deepDeref ht.object n)

/-- What is written out is the same. -/
theorem Mirror.resolve (h : Mirror S S F F' b b') (ht : S.Triples goal goal') (n : Nat) :
    goal'.mapTerms? (b'.resolve n) = goal.mapTerms? (b.resolve n) := by
  have each : ∀ {u u'}, S u u' → b'.resolve n u' = b.resolve n u := by
    intro u u' hu
    have hd := h.deepDeref hu n
    unfold Bindings.resolve
    generalize b.deepDeref n u = x, b'.deepDeref n u' = x' at hd
    cases hd with
    | none => rfl
    | some hx => rw [Option.map_some, Option.map_some, hx.mapVars]
  unfold Triple.mapTerms?
  rw [each ht.subject, each ht.predicate, each ht.object]

theorem Mirror.areGround (h : Mirror S S F F' b b') (hargs : List.Forall₂ S args args') (n : Nat) :
    b'.areGround n args' = b.areGround n args := by
  induction hargs with
  | nil => rfl
  | cons h1 _ ih =>
    have hd := h.deepDeref h1 n
    unfold Bindings.areGround
    generalize b.deepDeref n _ = x, b'.deepDeref n _ = x' at hd
    cases hd with
    | none => rfl
    | some hx => simp only [hx.isGround, ih]

/-- A call looks at the same clauses. -/
theorem Mirror.clauses (h : Mirror S R F F' b b') {P : Program} (hP : P.Blind)
    (ht : S.Triples goal goal') (c : Call) : c.clauses P.rules (goal'.mapTerms b'.deref) =
      c.clauses P.rules (goal.mapTerms b.deref) :=
  hP.clauses (h.shape ht.predicate).tops (h.shape ht.object).tops c

theorem Mirror.commits (h : Mirror S S F F' b b') (ht : S.Triples goal goal') (c : Call) (n : Nat) :
    c.commits n b' goal' = c.commits n b goal := by
  unfold Call.commits
  rw [h.areGround ht.terms]

/-! ## Builtins -/

variable {store : Store} {rule : Option Rule} {x : Option Bindings}

/-- The builtin comes out the same on both sides. -/
def Concurs (S : Pairing) (F F' : Set Nat) (x : Option Bindings)
    (y : Option (Except Failure (Option Bindings))) : Prop :=
  ∃ x', y = some (.ok x') ∧ Option.Rel (Mirror S S F F') x x'

theorem Mirror.test (h : Mirror S S F F' b b') {name : String} {arity : Nat}
    {holds : CallContext → List Term → Option Bool}
    (hholds : ∀ yes, holds ⟨b, n, store, rule⟩ args = some yes →
      holds ⟨b', n, store, rule⟩ args' = some yes)
    (hx : (Builtin.test name arity holds).run n store rule b args = some (.ok x)) :
    Concurs S F F' x ((Builtin.test name arity holds).run n store rule b' args') := by
  obtain ⟨yes, hyes, rfl⟩ := Builtin.run_test hx
  refine ⟨_, run_test (hholds yes hyes), ?_⟩
  cases yes with
  | false => exact .none
  | true => exact .some h

theorem Mirror.testValues (h : Mirror S S F F' b b') {name : String} {holds : Term → Term → Bool}
    (hholds : TellsAlike holds) (hargs : List.Forall₂ S args args')
    (hx : (Builtin.testValues name holds).run n store rule b args = some (.ok x)) :
    Concurs S F F' x ((Builtin.testValues name holds).run n store rule b' args') := by
  refine h.test (fun yes hyes => ?_) hx
  match hargs with
  | .nil | .cons _ .nil => exact hyes
  | .cons (a := a) (b := a') h1 (.cons (a := c) (b := c') h2 _) =>
    have hd1 := h.deepDeref h1 n
    have hd2 := h.deepDeref h2 n
    simp only [CallContext.deref, Option.bind_eq_bind, Option.bind_eq_some_iff,
      Option.some.injEq] at hyes ⊢
    obtain ⟨y, hy, z, hz, rfl⟩ := hyes
    rw [hy] at hd1
    rw [hz] at hd2
    generalize b'.deepDeref n a' = y', b'.deepDeref n c' = z' at hd1 hd2
    cases hd1 with
    | some hy' =>
      cases hd2 with
      | some hz' => exact ⟨_, rfl, _, rfl, hholds hy' hz'⟩

theorem Mirror.comparison (h : Mirror S S F F' b b') {name : String} {holds : Int → Int → Bool}
    (hargs : List.Forall₂ S args args')
    (hx : (Builtin.comparison name holds).run n store rule b args = some (.ok x)) :
    Concurs S F F' x ((Builtin.comparison name holds).run n store rule b' args') := by
  refine h.testValues (fun {_ y y' z z'} hy hz => ?_) hargs hx
  simp only [hy.integer?, hz.integer?]

theorem Mirror.all_isBound (h : Mirror S R F F' b b') (hargs : List.Forall₂ S args args')
    (f : Bool → Bool) :
    args'.all (fun t => f (b'.isBound t)) = args.all fun t => f (b.isBound t) := by
  induction hargs with
  | nil => rfl
  | cons h1 _ ih => rw [List.all_cons, List.all_cons, ih, h.isBound h1]

/-- The sum of the values that the first two arguments have. -/
theorem run_sum_eq {a c total : Term} {rest : List Term} {y z : Term}
    (hy : b.deepDeref n a = some y) (hz : b.deepDeref n c = some z) :
    Builtin.sum.run n store rule b (a :: c :: total :: rest) =
      match y.integer?, z.integer? with
      | some i, some j =>
        match Builtin.checkedSum i j with
        | some k => (b.unify n total (.node (.literal (.integer k)))).map .ok
        | none => some (.error ((⟨b, n, store, rule⟩ : CallContext).fault "sum"
            s!"integer overflow adding {i.toInt} and {j.toInt}"))
      | _, _ => some (.ok none) := by
  unfold Builtin.run Builtin.sum
  simp only [CallContext.integer?, CallContext.deref, hy, hz, Option.map_some,
    Option.bind_eq_bind, Option.bind_some]
  cases y.integer? with
  | none => rfl
  | some i =>
    cases z.integer? with
    | none => rfl
    | some j =>
      simp only
      cases Builtin.checkedSum i j with
      | none => rfl
      | some k =>
        simp only [List.map_cons, List.map_nil, Bindings.unifyAll, Bindings.unifyEach]
        rcases b.unify n total (.node (.literal (.integer k))) with _ | _ | b1 <;> rfl

theorem Mirror.sum (h : Mirror S S F F' b b') (hnode : ∀ c, S (.node c) (.node c))
    (hargs : List.Forall₂ S args args')
    (hx : Builtin.sum.run n store rule b args = some (.ok x)) :
    Concurs S F F' x (Builtin.sum.run n store rule b' args') := by
  match hargs with
  | .nil | .cons _ .nil | .cons _ (.cons _ .nil) =>
    cases hx
    exact ⟨none, rfl, .none⟩
  | .cons h1 (.cons h2 (.cons h3 _)) =>
    have hd1 := h.deepDeref h1 n
    have hd2 := h.deepDeref h2 n
    obtain ⟨y, z, hy, hz, hx⟩ := run_sum hx
    rw [hy] at hd1
    rw [hz] at hd2
    generalize hy' : b'.deepDeref n _ = y' at hd1
    generalize hz' : b'.deepDeref n _ = z' at hd2
    cases hd1 with
    | some hyy =>
      cases hd2 with
      | some hzz =>
        rw [run_sum_eq hy' hz', hyy.integer?, hzz.integer?]
        cases hi : y.integer? with
        | none =>
          simp only [hi] at hx ⊢
          subst hx
          exact ⟨none, rfl, .none⟩
        | some i =>
          cases hj : z.integer? with
          | none =>
            simp only [hi, hj] at hx ⊢
            subst hx
            exact ⟨none, rfl, .none⟩
          | some j =>
            simp only [hi, hj] at hx ⊢
            obtain ⟨k, hk, hx⟩ := hx
            have hu := h.unify h3 (hnode (.literal (.integer k))) n
            rw [hx] at hu
            simp only [hk]
            generalize b'.unify n _ _ = w at hu
            cases hu with
            | some hw => exact ⟨_, rfl, hw⟩

theorem run_noValue_eq {pattern : Triple} {found : Bool} (hgoal : absentGoal? args = some goal)
    (hp : goal.mapTerms? (b.deepDeref n) = some pattern)
    (hc : store.contains pattern = .ok found) :
    Builtin.noValue.run n store rule b args = some (.ok (if found then none else some b)) := by
  have hcall : Builtin.noValue.call ⟨b, n, store, rule⟩ args =
      some (.ok (if found then none else some [])) := by
    have absent : ((goal.mapTerms? (b.deepDeref n)).bind fun pattern =>
        some ((store.contains pattern).map fun found => if found then none else some [])) =
          some (.ok (if found then none else some ([] : List (Term × Term)))) := by
      rw [hp, Option.bind_some, hc]
      rfl
    rcases args with _ | ⟨s, _ | ⟨p, _ | ⟨o, _ | ⟨_, _⟩⟩⟩⟩
    all_goals cases hgoal
    all_goals exact absent
  unfold Builtin.run
  rw [hcall]
  cases found <;> rfl

theorem Mirror.noValue (h : Mirror S S F F' b b') (hstore : store.Blind)
    (hargs : List.Forall₂ S args args')
    (hx : Builtin.noValue.run n store rule b args = some (.ok x)) :
    Concurs S F F' x (Builtin.noValue.run n store rule b' args') := by
  obtain ⟨goal, pattern, found, hgoal, hp, hc, rfl⟩ := run_noValue hx
  -- what is asked for has the same key, so it is found or not on both sides
  have absent : ∀ {goal' : Triple}, absentGoal? args' = some goal' →
      Option.Rel (Triple.Like ⊤) (goal.mapTerms? (b.deepDeref n))
        (goal'.mapTerms? (b'.deepDeref n)) →
      Concurs S F F' (if found then none else some b)
        (Builtin.noValue.run n store rule b' args') := by
    intro goal' hgoal' hlike
    rw [hp] at hlike
    generalize hp' : goal'.mapTerms? (b'.deepDeref n) = x' at hlike
    cases hlike with
    | some hlike =>
      refine ⟨if found then none else some b', ?_, ?_⟩
      · exact run_noValue_eq hgoal' hp' ((hstore ⊤ _ _ hlike).trans hc)
      · cases found with
        | false => exact .some h
        | true => exact .none
  match hargs with
  | .nil => cases hgoal
  | .cons _ .nil => cases hgoal
  | .cons h1 (.cons h2 .nil) =>
    cases hgoal
    refine absent rfl (mapTerms?_rel (h.deepDeref h1 n) (h.deepDeref h2 n) ?_)
    cases n with
    | zero => exact .none
    | succ n =>
      rw [Bindings.deepDeref, Bindings.deepDeref, deref_any, deref_any]
      exact .some (Term.like_any.2 rfl)
  | .cons h1 (.cons h2 (.cons h3 .nil)) =>
    cases hgoal
    exact absent rfl (h.deepDerefTriple ⟨h1, h2, h3⟩ n)
  | .cons _ (.cons _ (.cons _ (.cons _ _))) => cases hgoal

/-- A standard builtin comes out the same on both sides. -/
theorem Mirror.builtin (h : Mirror S S F F' b b') (hnode : ∀ c, S (.node c) (.node c))
    (hstore : store.Blind) {name : String} {f : Builtin}
    (hf : Builtin.standard.get? name = some f) (hargs : List.Forall₂ S args args')
    (hx : f.run n store rule b args = some (.ok x)) :
    Concurs S F F' x (f.run n store rule b' args') := by
  have hmem : f = Builtin.equal ∨ f = Builtin.notEqual ∨ f = Builtin.bound ∨ f = Builtin.unbound ∨
      f = Builtin.lessThan ∨ f = Builtin.greaterThan ∨ f = Builtin.sum ∨ f = Builtin.noValue := by
    simpa [Builtin.standard] using (standard_of_get? hf).1
  rcases hmem with rfl | rfl | rfl | rfl | rfl | rfl | rfl | rfl
  · exact h.testValues tellsAlike_equal hargs hx
  · exact h.testValues tellsAlike_notEqual hargs hx
  · refine h.test (fun yes hyes => ?_) hx
    rw [← hyes]
    exact congrArg some (h.all_isBound hargs id)
  · refine h.test (fun yes hyes => ?_) hx
    rw [← hyes]
    exact congrArg some (h.all_isBound hargs not)
  · exact h.comparison hargs hx
  · exact h.comparison hargs hx
  · exact h.sum hnode hargs hx
  · exact h.noValue hstore hargs hx

end

end Bindings

end TabledRules
