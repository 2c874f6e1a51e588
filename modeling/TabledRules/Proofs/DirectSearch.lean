-- Goals solved by a plain recursive search, for rules that keep no tables. It
-- has no stack and no choice points: the solutions of a goal are a list, first
-- those by the store and then those by the clauses, each body left to right.
import TabledRules.Proofs.Derivations

namespace TabledRules

/-! ## The search

All of it goes at most `n` deep, into terms and into bodies, and has no outcome where that is not
enough. -/

/-- The triples that a goal matches, and the bindings under which it does. -/
def Bindings.matching (n : Nat) (b : Bindings) (goal : Triple) :
    List Triple → Option (List (Triple × Bindings))
  | [] => some []
  | t :: ts => do
    let first ← b.unifyTriple n goal t
    let others ← b.matching n goal ts
    some ((first.map (t, ·)).toList ++ others)

/-- One clause that solves the goal is enough: the call may commit and the goal is ground. -/
def Call.commits (n : Nat) (b : Bindings) (goal : Triple) (c : Call) : Option Bool :=
  if c.mayCommit then b.areGround n goal.terms else some false

namespace Program

variable (P : Program)

mutual
/-- The solutions of a called goal: those by the store, then those by the clauses for it. -/
def solveGoal : Nat → Call → Triple → Bindings → Option (List Bindings)
  | 0, _, _, _ => none
  | n + 1, c, goal, b => do
    let enough ← c.commits n b goal
    let value ← goal.mapTerms? (b.deepDeref n)
    let stored ← b.matching n goal (P.find value.lookupKey)
    let derived ← solveClauses n goal b enough (c.clauses P.rules (goal.mapTerms b.deref))
    some (stored.map Prod.snd ++ derived)

/-- The solutions by some clauses, one clause after the other. If one clause is enough they are
those of the first clause that has any. -/
def solveClauses : Nat → Triple → Bindings → Bool → List Clause → Option (List Bindings)
  | 0, _, _, _, _ => none
  | _ + 1, _, _, _, [] => some []
  | n + 1, goal, b, enough, cl :: cls => do
    let first ← solveClause n goal b cl
    if enough && !first.isEmpty then some first
    else (solveClauses n goal b enough cls).map (first ++ ·)

/-- The head of the rule is matched with the goal, and then the body is solved. -/
def solveClause : Nat → Triple → Bindings → Clause → Option (List Bindings)
  | 0, _, _, _ => none
  | n + 1, goal, b, cl =>
    match cl.rule.enter n goal b with
    | none => none
    | some none => some []
    | some (some (θ, b)) => solveBody n cl.rule θ cl.rule.steps b

/-- The solutions of what is left of a body. -/
def solveBody : Nat → Rule → Values → List Entry → Bindings → Option (List Bindings)
  | 0, _, _, _, _ => none
  | _ + 1, _, _, [], b => some [b]
  | n + 1, r, θ, .triple pattern :: es, b =>
    match r.putGoal θ b pattern with
    | (goal, θ, b) => do
      let found ← solveGoal n (P.callFor r pattern) goal b
      solveEach n r θ es found
  | n + 1, r, θ, .builtin c :: es, b =>
    match P.registry.get? c.name, r.putLeaves true θ b c.args with
    | none, _ => none
    | some f, (args, θ, b) =>
      match f.run n P.store (some r) b args with
      | some (.ok (some b)) => solveBody n r θ es b
      | some (.ok none) => some []
      | some (.error _) | none => none

/-- The solutions of what is left of a body, from each of some bindings in turn. -/
def solveEach : Nat → Rule → Values → List Entry → List Bindings → Option (List Bindings)
  | 0, _, _, _, _ => none
  | _ + 1, _, _, _, [] => some []
  | n + 1, r, θ, es, b :: bs => do
    let first ← solveBody n r θ es b
    let others ← solveEach n r θ es bs
    some (first ++ others)
end

/-- The answers to a pattern: the stored triples that match it, then what its clauses make of it. -/
def search (n : Nat) (pattern : Triple) : Option (List Triple) := do
  let goal := pattern.standard
  let stored ← pattern.unbound.matching n goal (P.find goal.lookupKey)
  let solved ← P.solveClauses n goal pattern.unbound pattern.isGround (P.rules.codeFor goal)
  let derived ← solved.mapM fun b => goal.mapTerms? (b.resolve n)
  some (stored.map Prod.fst ++ derived)

end Program

/-! ## Going deeper -/

section

variable {n m : Nat} {b : Bindings} {goal : Triple}

theorem areGround_mono (hnm : n ≤ m) {ts : List Term} {x : Bool}
    (h : b.areGround n ts = some x) : b.areGround m ts = some x := by
  induction ts with
  | nil => exact h
  | cons t ts ih =>
    unfold Bindings.areGround at h ⊢
    cases ht : b.deepDeref n t with
    | none => rw [ht] at h; cases h
    | some u =>
      rw [ht] at h
      rw [Bindings.deepDeref_mono hnm ht]
      simp only at h ⊢
      split at h
      · next hu => rw [if_pos hu]; exact ih h
      · next hu => rw [if_neg hu]; exact h

theorem commits_mono (hnm : n ≤ m) {c : Call} {x : Bool} (h : c.commits n b goal = some x) :
    c.commits m b goal = some x := by
  unfold Call.commits at h ⊢
  split at h
  · next hc => rw [if_pos hc]; exact areGround_mono hnm h
  · next hc => rw [if_neg hc]; exact h

theorem mapTerms?_mono {f g : Term → Option Term} (hfg : ∀ t u, f t = some u → g t = some u)
    {t : Triple} (h : goal.mapTerms? f = some t) : goal.mapTerms? g = some t := by
  obtain ⟨h1, h2, h3⟩ := mapTerms?_eq_some_iff.1 h
  exact mapTerms?_eq_some_iff.2 ⟨hfg _ _ h1, hfg _ _ h2, hfg _ _ h3⟩

theorem resolve_mono (hnm : n ≤ m) {t u : Term} (h : b.resolve n t = some u) :
    b.resolve m t = some u := by
  obtain ⟨v, hv, rfl⟩ := Option.map_eq_some_iff.1 h
  exact Option.map_eq_some_iff.2 ⟨v, Bindings.deepDeref_mono hnm hv, rfl⟩

theorem matching_mono (hnm : n ≤ m) {ts : List Triple} {x : List (Triple × Bindings)}
    (h : b.matching n goal ts = some x) : b.matching m goal ts = some x := by
  induction ts generalizing x with
  | nil => exact h
  | cons t ts ih =>
    obtain ⟨first, hfirst, h⟩ := Option.bind_eq_some_iff.1 h
    obtain ⟨others, hothers, h⟩ := Option.bind_eq_some_iff.1 h
    exact Option.bind_eq_some_iff.2 ⟨first, Bindings.unifyAll_mono hnm hfirst,
      Option.bind_eq_some_iff.2 ⟨others, ih hothers, h⟩⟩

theorem matchThen_mono {x y : Option (Option (Values × Bindings))}
    {f g : Values → Bindings → Option (Option (Values × Bindings))}
    (hxy : ∀ z, x = some z → y = some z) (hfg : ∀ θ b z, f θ b = some z → g θ b = some z)
    {z : Option (Values × Bindings)} (h : matchThen x f = some z) : matchThen y g = some z := by
  rcases x with _ | _ | ⟨θ, b⟩
  · cases h
  · rw [hxy _ rfl]
    exact h
  · rw [hxy _ rfl]
    exact hfg _ _ _ h

theorem matchLeaf_mono (hnm : n ≤ m) {θ : Values} {arg t : Term} {x : Option (Values × Bindings)}
    (h : matchLeaf n θ b arg t = some x) : matchLeaf m θ b arg t = some x := by
  have deeper : ∀ {u : Term}, (b.unify n arg u).map (·.map (θ, ·)) = some x →
      (b.unify m arg u).map (·.map (θ, ·)) = some x := by
    intro u hu
    obtain ⟨y, hy, rfl⟩ := Option.map_eq_some_iff.1 hu
    exact Option.map_eq_some_iff.2 ⟨y, Bindings.unify_mono hnm hy, rfl⟩
  cases t with
  | var v =>
    simp only [matchLeaf] at h ⊢
    split at h
    · exact h
    · exact deeper h
  | node c => exact deeper h
  | _ => exact h

theorem matchLeaves_mono (hnm : n ≤ m) {θ : Values} {args ts : List Term}
    {x : Option (Values × Bindings)} (h : matchLeaves n θ b args ts = some x) :
    matchLeaves m θ b args ts = some x := by
  induction args generalizing θ b ts x with
  | nil => exact h
  | cons arg args ih =>
    cases ts with
    | nil => exact h
    | cons t ts =>
      exact matchThen_mono (fun _ => matchLeaf_mono hnm) (fun _ _ _ => ih) h

theorem matchObject_mono (hnm : n ≤ m) {θ : Values} {object t : Term}
    {x : Option (Values × Bindings)} (h : matchObject n θ b object t = some x) :
    matchObject m θ b object t = some x := by
  cases t with
  | app f ts =>
    simp only [matchObject] at h ⊢
    split at h
    · exact h
    · exact matchLeaves_mono hnm h
  | _ =>
    simp only [matchObject] at h ⊢
    exact matchLeaf_mono hnm h

theorem enter_mono (hnm : n ≤ m) {r : Rule} {x : Option (Values × Bindings)}
    (h : r.enter n goal b = some x) : r.enter m goal b = some x := by
  unfold Rule.enter at h ⊢
  split at h
  · next htests =>
    rw [if_pos htests]
    exact matchThen_mono (fun _ => matchLeaves_mono hnm) (fun _ _ _ => matchObject_mono hnm) h
  · next htests =>
    rw [if_neg htests]
    exact h

end

/-! ### Builtins -/

namespace Builtin

variable {n m : Nat} {b : Bindings} {store : Store} {rule : Option Rule} {args : List Term}

/-- What the builtin answers does not change if it may follow more terms. -/
def Deepens (f : Builtin) : Prop :=
  ∀ ⦃n m : Nat⦄ ⦃b : Bindings⦄ ⦃store : Store⦄ ⦃rule : Option Rule⦄ ⦃args : List Term⦄
    ⦃x : Except Failure (Option (List (Term × Term)))⦄, n ≤ m →
    f.call ⟨b, n, store, rule⟩ args = some x → f.call ⟨b, m, store, rule⟩ args = some x

theorem Deepens.run {f : Builtin} (hf : f.Deepens) (hnm : n ≤ m)
    {x : Except Failure (Option Bindings)} (h : f.run n store rule b args = some x) :
    f.run m store rule b args = some x := by
  unfold Builtin.run at h ⊢
  split at h
  · cases h
  · next e hcall => rw [hf hnm hcall]; exact h
  · next hcall => rw [hf hnm hcall]; exact h
  · next pairs hcall =>
    rw [hf hnm hcall]
    obtain ⟨y, hy, rfl⟩ := Option.map_eq_some_iff.1 h
    exact Option.map_eq_some_iff.2 ⟨y, Bindings.unifyAll_mono hnm hy, rfl⟩

theorem deepens_testValues (name : String) (holds : Term → Term → Bool) :
    (testValues name holds).Deepens := by
  intro n m b store rule args x hnm h
  obtain ⟨yes, hyes, rfl⟩ := Option.map_eq_some_iff.1 h
  refine Option.map_eq_some_iff.2 ⟨yes, ?_, rfl⟩
  match args, hyes with
  | [], hyes => exact hyes
  | [_], hyes => exact hyes
  | s :: t :: _, hyes =>
    obtain ⟨u, hu, hyes⟩ := Option.bind_eq_some_iff.1 hyes
    obtain ⟨v, hv, hyes⟩ := Option.bind_eq_some_iff.1 hyes
    exact Option.bind_eq_some_iff.2 ⟨u, Bindings.deepDeref_mono hnm hu,
      Option.bind_eq_some_iff.2 ⟨v, Bindings.deepDeref_mono hnm hv, hyes⟩⟩

theorem deepens_sum : sum.Deepens := by
  intro n m b store rule args x hnm h
  match args, h with
  | [], h => exact h
  | [_], h => exact h
  | [_, _], h => exact h
  | s :: t :: _ :: _, h =>
    have deeper : ∀ {u : Term} {i : Option Int64},
        CallContext.integer? ⟨b, n, store, rule⟩ u = some i →
        CallContext.integer? ⟨b, m, store, rule⟩ u = some i := by
      intro u i hi
      obtain ⟨v, hv, rfl⟩ := Option.map_eq_some_iff.1 hi
      exact Option.map_eq_some_iff.2 ⟨v, Bindings.deepDeref_mono hnm hv, rfl⟩
    obtain ⟨i, hi, h⟩ := Option.bind_eq_some_iff.1 h
    obtain ⟨j, hj, h⟩ := Option.bind_eq_some_iff.1 h
    exact Option.bind_eq_some_iff.2 ⟨i, deeper hi, Option.bind_eq_some_iff.2 ⟨j, deeper hj, h⟩⟩

theorem deepens_noValue : noValue.Deepens := by
  intro n m b store rule args x hnm h
  have absent : ∀ {goal : Triple} {k : Triple → Option (Except Failure (Option (List (Term × Term))))},
      (goal.mapTerms? (b.deepDeref n)).bind k = some x →
      (goal.mapTerms? (b.deepDeref m)).bind k = some x := by
    intro goal k hk
    obtain ⟨pattern, hpattern, hk⟩ := Option.bind_eq_some_iff.1 hk
    exact Option.bind_eq_some_iff.2
      ⟨pattern, mapTerms?_mono (fun _ _ => Bindings.deepDeref_mono hnm) hpattern, hk⟩
  unfold noValue at h ⊢
  simp only at h ⊢
  split at h
  · exact absent h
  · exact absent h
  · exact h

theorem deepens_of_standard {f : Builtin} (hf : f ∈ standard.builtins) : f.Deepens := by
  have hmem : f = equal ∨ f = notEqual ∨ f = bound ∨ f = unbound ∨ f = lessThan ∨
      f = greaterThan ∨ f = sum ∨ f = noValue := by
    simpa [standard] using hf
  rcases hmem with rfl | rfl | rfl | rfl | rfl | rfl | rfl | rfl
  · exact deepens_testValues _ _
  · exact deepens_testValues _ _
  · exact fun _ _ _ _ _ _ _ _ h => h
  · exact fun _ _ _ _ _ _ _ _ h => h
  · exact deepens_testValues _ _
  · exact deepens_testValues _ _
  · exact deepens_sum
  · exact deepens_noValue

end Builtin

/-! ### Solutions -/

/-- The builtins of the program answer the same however deep they may look. -/
def Program.Deepens (P : Program) : Prop :=
  ∀ ⦃name : String⦄ ⦃f : Builtin⦄, P.registry.get? name = some f → f.Deepens

namespace Program

variable {P : Program} {n m : Nat} {b : Bindings} {bs S T : List Bindings} {goal : Triple}
  {r : Rule} {θ : Values} {es : List Entry}

theorem deepens_of_standard (h : P.registry = Builtin.standard) : P.Deepens := by
  intro name f hf
  rw [h] at hf
  exact Builtin.deepens_of_standard (List.mem_of_find?_eq_some hf)

/-- What has an outcome has the same one if it may go deeper. -/
theorem solve_mono (hP : P.Deepens) (hnm : n ≤ m) :
    (∀ c goal b S, P.solveGoal n c goal b = some S → P.solveGoal m c goal b = some S) ∧
    (∀ goal b enough cls S, P.solveClauses n goal b enough cls = some S →
      P.solveClauses m goal b enough cls = some S) ∧
    (∀ goal b cl S, P.solveClause n goal b cl = some S → P.solveClause m goal b cl = some S) ∧
    (∀ r θ es b S, P.solveBody n r θ es b = some S → P.solveBody m r θ es b = some S) ∧
    ∀ r θ es bs S, P.solveEach n r θ es bs = some S → P.solveEach m r θ es bs = some S := by
  induction n generalizing m with
  | zero =>
    refine ⟨?_, ?_, ?_, ?_, ?_⟩
    · intro c goal b S h; cases h
    · intro goal b enough cls S h; cases h
    · intro goal b cl S h; cases h
    · intro r θ es b S h; cases h
    · intro r θ es bs S h; cases h
  | succ n ih =>
    obtain ⟨m, rfl⟩ : ∃ k, m = k + 1 := ⟨m - 1, by omega⟩
    have hnm : n ≤ m := by omega
    obtain ⟨hgoal, hclauses, hclause, hbody, heach⟩ := ih hnm
    refine ⟨?_, ?_, ?_, ?_, ?_⟩
    · intro c goal b S h
      rw [solveGoal] at h ⊢
      obtain ⟨enough, henough, h⟩ := Option.bind_eq_some_iff.1 h
      obtain ⟨value, hvalue, h⟩ := Option.bind_eq_some_iff.1 h
      obtain ⟨stored, hstored, h⟩ := Option.bind_eq_some_iff.1 h
      obtain ⟨derived, hderived, h⟩ := Option.bind_eq_some_iff.1 h
      exact Option.bind_eq_some_iff.2 ⟨enough, commits_mono hnm henough,
        Option.bind_eq_some_iff.2 ⟨value,
          mapTerms?_mono (fun _ _ => Bindings.deepDeref_mono hnm) hvalue,
          Option.bind_eq_some_iff.2 ⟨stored, matching_mono hnm hstored,
            Option.bind_eq_some_iff.2 ⟨derived, hclauses _ _ _ _ _ hderived, h⟩⟩⟩⟩
    · intro goal b enough cls S h
      cases cls with
      | nil => exact h
      | cons cl cls =>
        rw [solveClauses] at h ⊢
        obtain ⟨first, hfirst, h⟩ := Option.bind_eq_some_iff.1 h
        refine Option.bind_eq_some_iff.2 ⟨first, hclause _ _ _ _ hfirst, ?_⟩
        split at h
        · next hc => rw [if_pos hc]; exact h
        · next hc =>
          rw [if_neg hc]
          obtain ⟨others, hothers, rfl⟩ := Option.map_eq_some_iff.1 h
          exact Option.map_eq_some_iff.2 ⟨others, hclauses _ _ _ _ _ hothers, rfl⟩
    · intro goal b cl S h
      rw [solveClause] at h ⊢
      split at h
      · cases h
      · next henter => rw [enter_mono hnm henter]; exact h
      · next θ b' henter => rw [enter_mono hnm henter]; exact hbody _ _ _ _ _ h
    · intro r θ es b S h
      match es, h with
      | [], h => exact h
      | .triple pattern :: es, h =>
        rw [solveBody] at h ⊢
        obtain ⟨found, hfound, h⟩ := Option.bind_eq_some_iff.1 h
        exact Option.bind_eq_some_iff.2 ⟨found, hgoal _ _ _ _ hfound, heach _ _ _ _ _ h⟩
      | .builtin c :: es, h =>
        rw [solveBody] at h ⊢
        split at h
        · cases h
        · next f args θ' b' hf hput =>
          split at h
          · next b2 hrun => rw [(hP hf).run hnm hrun]; exact hbody _ _ _ _ _ h
          · next hrun => rw [(hP hf).run hnm hrun]; exact h
          · cases h
          · cases h
    · intro r θ es bs S h
      cases bs with
      | nil => exact h
      | cons b bs =>
        rw [solveEach] at h ⊢
        obtain ⟨first, hfirst, h⟩ := Option.bind_eq_some_iff.1 h
        obtain ⟨others, hothers, h⟩ := Option.bind_eq_some_iff.1 h
        exact Option.bind_eq_some_iff.2 ⟨first, hbody _ _ _ _ _ hfirst,
          Option.bind_eq_some_iff.2 ⟨others, heach _ _ _ _ _ hothers, h⟩⟩

/-! ### Putting solutions together -/

theorem matching_cons {called t : Triple} {ts : List Triple} {x : Option Bindings}
    {found : List (Triple × Bindings)} (hu : b.unifyTriple n called t = some x)
    (h : b.matching m called ts = some found) :
    ∃ k, b.matching k called (t :: ts) = some ((x.map (t, ·)).toList ++ found) := by
  refine ⟨max n m, ?_⟩
  rw [Bindings.matching]
  exact Option.bind_eq_some_iff.2 ⟨x, Bindings.unifyAll_mono (Nat.le_max_left n m) hu,
    Option.bind_eq_some_iff.2 ⟨found, matching_mono (Nat.le_max_right n m) h, rfl⟩⟩

theorem solveGoal_of (hP : P.Deepens) {c : Call} {enough : Bool} {value : Triple}
    {stored : List (Triple × Bindings)} {n1 n2 n3 n4 : Nat}
    (henough : c.commits n1 b goal = some enough)
    (hvalue : goal.mapTerms? (b.deepDeref n2) = some value)
    (hstored : b.matching n3 goal (P.find value.lookupKey) = some stored)
    (hclauses : P.solveClauses n4 goal b enough (c.clauses P.rules (goal.mapTerms b.deref)) =
      some S) : ∃ k, P.solveGoal k c goal b = some (stored.map Prod.snd ++ S) := by
  refine ⟨max (max n1 n2) (max n3 n4) + 1, ?_⟩
  rw [solveGoal]
  exact Option.bind_eq_some_iff.2 ⟨enough, commits_mono (by omega) henough,
    Option.bind_eq_some_iff.2 ⟨value,
      mapTerms?_mono (fun _ _ => Bindings.deepDeref_mono (by omega)) hvalue,
      Option.bind_eq_some_iff.2 ⟨stored, matching_mono (by omega) hstored,
        Option.bind_eq_some_iff.2
          ⟨S, (solve_mono hP (by omega)).2.1 _ _ _ _ _ hclauses, rfl⟩⟩⟩⟩

/-- One clause is enough, and the first one has a solution. -/
theorem solveClauses_enough {cl : Clause} {cls : List Clause}
    (h : P.solveClause n goal b cl = some S) (hS : S ≠ []) :
    P.solveClauses (n + 1) goal b true (cl :: cls) = some S := by
  rw [solveClauses]
  exact Option.bind_eq_some_iff.2 ⟨S, h, by simp [hS]⟩

theorem solveClauses_cons (hP : P.Deepens) {enough : Bool} {cl : Clause} {cls : List Clause}
    (h : P.solveClause n goal b cl = some S) (hS : enough = true → S = [])
    (h' : P.solveClauses m goal b enough cls = some T) :
    ∃ k, P.solveClauses k goal b enough (cl :: cls) = some (S ++ T) := by
  refine ⟨max n m + 1, ?_⟩
  have hno : ¬ (enough && !S.isEmpty) = true := by
    cases enough with
    | false => simp
    | true => simp [hS rfl]
  rw [solveClauses]
  refine Option.bind_eq_some_iff.2 ⟨S, (solve_mono hP (by omega)).2.2.1 _ _ _ _ h, ?_⟩
  rw [if_neg hno]
  exact Option.map_eq_some_iff.2 ⟨T, (solve_mono hP (by omega)).2.1 _ _ _ _ _ h', rfl⟩

theorem solveClause_refused {cl : Clause} (h : cl.rule.enter n goal b = some none) :
    P.solveClause (n + 1) goal b cl = some [] := by
  rw [solveClause, h]

theorem solveClause_entered (hP : P.Deepens) {cl : Clause} {b' : Bindings}
    (h : cl.rule.enter n goal b = some (some (θ, b')))
    (h' : P.solveBody m cl.rule θ cl.rule.steps b' = some S) :
    ∃ k, P.solveClause k goal b cl = some S := by
  refine ⟨max n m + 1, ?_⟩
  rw [solveClause, enter_mono (Nat.le_max_left n m) h]
  exact (solve_mono hP (Nat.le_max_right n m)).2.2.2.1 _ _ _ _ _ h'

theorem solveBody_goal (hP : P.Deepens) {pattern : Triple} {θ' : Values} {b' : Bindings}
    (hput : r.putGoal θ b pattern = (goal, θ', b'))
    (h : P.solveGoal n (P.callFor r pattern) goal b' = some S)
    (h' : P.solveEach m r θ' es S = some T) :
    ∃ k, P.solveBody k r θ (.triple pattern :: es) b = some T := by
  refine ⟨max n m + 1, ?_⟩
  rw [solveBody, hput]
  exact Option.bind_eq_some_iff.2 ⟨S, (solve_mono hP (Nat.le_max_left n m)).1 _ _ _ _ h,
    (solve_mono hP (Nat.le_max_right n m)).2.2.2.2 _ _ _ _ _ h'⟩

theorem solveBody_builtin (hP : P.Deepens) {c : Compound} {f : Builtin} {args : List Term}
    {θ' : Values} {b' b'' : Bindings} (hf : P.registry.get? c.name = some f)
    (hput : r.putLeaves true θ b c.args = (args, θ', b'))
    (hrun : f.run n P.store (some r) b' args = some (.ok (some b'')))
    (h : P.solveBody m r θ' es b'' = some S) :
    ∃ k, P.solveBody k r θ (.builtin c :: es) b = some S := by
  refine ⟨max n m + 1, ?_⟩
  rw [solveBody, hf, hput]
  simp only [(hP hf).run (Nat.le_max_left n m) hrun]
  exact (solve_mono hP (Nat.le_max_right n m)).2.2.2.1 _ _ _ _ _ h

theorem solveBody_fails {c : Compound} {f : Builtin} {args : List Term} {θ' : Values}
    {b' : Bindings} (hf : P.registry.get? c.name = some f)
    (hput : r.putLeaves true θ b c.args = (args, θ', b'))
    (hrun : f.run n P.store (some r) b' args = some (.ok none)) :
    P.solveBody (n + 1) r θ (.builtin c :: es) b = some [] := by
  rw [solveBody, hf, hput]
  simp only [hrun]

theorem solveEach_cons (hP : P.Deepens) (h : P.solveBody n r θ es b = some S)
    (h' : P.solveEach m r θ es bs = some T) :
    ∃ k, P.solveEach k r θ es (b :: bs) = some (S ++ T) := by
  refine ⟨max n m + 1, ?_⟩
  rw [solveEach]
  exact Option.bind_eq_some_iff.2
    ⟨S, (solve_mono hP (Nat.le_max_left n m)).2.2.2.1 _ _ _ _ _ h,
      Option.bind_eq_some_iff.2
        ⟨T, (solve_mono hP (Nat.le_max_right n m)).2.2.2.2 _ _ _ _ _ h', rfl⟩⟩

end Program

end TabledRules
