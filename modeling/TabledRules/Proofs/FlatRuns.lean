-- Runs of machines over rules that build no terms. Each step has an outcome, the same
-- from some depth on, and what is left to do becomes less; so a run comes to its end.
import TabledRules.Proofs.Evaluation
import TabledRules.Proofs.FlatSteps

namespace TabledRules

section

variable {P : Program} {facts : List Triple} {S T : Stock} {st : Settings} {s s' s1 : Session}
  {m m' : Machine} {c : Choice} {rest : List Choice} {control control' : Control} {goal t : Triple}
  {env : Env} {code : List Instruction} {n d : Nat} {p : Progress}

/-! ## Builtins -/

namespace Builtin

variable {b : Bindings} {store : Store} {rule : Option Rule} {args : List Term}

theorem run_test_ends {name : String} {arity : Nat} {holds : CallContext → List Term → Option Bool}
    (h : ∃ yes, holds ⟨b, n, store, rule⟩ args = some yes) :
    ∃ x, (test name arity holds).run n store rule b args = some x := by
  obtain ⟨yes, h⟩ := h
  unfold run test
  simp only [h, Option.map_some]
  cases yes with
  | false => exact ⟨_, rfl⟩
  | true => exact ⟨_, rfl⟩

theorem run_testValues_ends {name : String} {holds : Term → Term → Bool} (hb : b.Flat S)
    (hargs : ∀ t ∈ args, t.Flat S) (hn : S.depth ≤ n) :
    ∃ x, (testValues name holds).run n store rule b args = some x := by
  match args, hargs with
  | [], _ => exact run_test_ends ⟨_, rfl⟩
  | [_], _ => exact run_test_ends ⟨_, rfl⟩
  | t :: u :: _, hargs =>
    refine run_test_ends ⟨holds (b.deref t) (b.deref u), ?_⟩
    have ht := hb.deepDeref (hargs t (by simp)) hn
    have hu := hb.deepDeref (hargs u (by simp)) hn
    simp only [CallContext.deref, ht, hu, Option.bind_eq_bind, Option.bind_some]

theorem run_noValue_ends (hb : b.Flat S) (hargs : ∀ t ∈ args, t.Flat S) (hn : S.depth ≤ n) :
    ∃ x, noValue.run n store rule b args = some x := by
  have absent : ∀ pattern : Triple, pattern.Flat S →
      ∃ x : Except Failure (Option (List (Term × Term))),
        ((pattern.mapTerms? (b.deepDeref n)).bind fun pattern =>
          some ((store.contains pattern).map fun found => if found then none else some [])) =
            some x ∧ ∀ pairs, x = .ok (some pairs) → pairs = [] := by
    intro pattern hpattern
    rw [hb.calledValue hpattern hn]
    refine ⟨_, rfl, fun pairs e => ?_⟩
    cases hstore : store.contains (pattern.mapTerms b.deref) with
    | error => rw [hstore] at e; cases e
    | ok found =>
      rw [hstore] at e
      cases found with
      | true => cases e
      | false => cases e; rfl
  have done : ∀ x : Except Failure (Option (List (Term × Term))),
      noValue.call ⟨b, n, store, rule⟩ args = some x →
      (∀ pairs, x = .ok (some pairs) → pairs = []) →
      ∃ y, noValue.run n store rule b args = some y := by
    intro x hcall hx
    unfold run
    rw [hcall]
    rcases x with e | _ | pairs
    · exact ⟨_, rfl⟩
    · exact ⟨_, rfl⟩
    · rw [hx pairs rfl]
      exact ⟨_, rfl⟩
  have refused : ∀ e : Failure, noValue.call ⟨b, n, store, rule⟩ args = some (.error e) →
      ∃ y, noValue.run n store rule b args = some y :=
    fun e hcall => done _ hcall fun pairs h => by cases h
  rcases args with _ | ⟨s, _ | ⟨p, _ | ⟨o, _ | _⟩⟩⟩
  · exact refused _ rfl
  · exact refused _ rfl
  · obtain ⟨x, hx, hpairs⟩ := absent ⟨s, p, .any⟩ (by
      intro t ht
      simp only [Triple.terms, List.mem_cons, List.not_mem_nil, or_false] at ht
      rcases ht with rfl | rfl | rfl
      · exact hargs _ (by simp)
      · exact hargs _ (by simp)
      · exact Term.flat_any S)
    exact done x hx hpairs
  · obtain ⟨x, hx, hpairs⟩ := absent ⟨s, p, o⟩ hargs
    exact done x hx hpairs
  · exact refused _ rfl

/-- A test of flat arguments has an outcome, however deep it may look. -/
theorem tests_end {f : Builtin} (hf : f ∈ tests) (hb : b.Flat S) (store : Store)
    (rule : Option Rule) (hargs : ∀ t ∈ args, t.Flat S) :
    ∃ x, ∀ n, S.depth ≤ n → f.run n store rule b args = some x := by
  have hdeepens : f.Deepens := by
    refine deepens_of_standard ?_
    simp only [tests, List.mem_cons, List.not_mem_nil, or_false] at hf
    rcases hf with rfl | rfl | rfl | rfl | rfl | rfl | rfl <;> simp [standard]
  have hends : ∃ x, f.run S.depth store rule b args = some x := by
    simp only [tests, List.mem_cons, List.not_mem_nil, or_false] at hf
    rcases hf with rfl | rfl | rfl | rfl | rfl | rfl | rfl
    · exact run_testValues_ends hb hargs (Nat.le_refl _)
    · exact run_testValues_ends hb hargs (Nat.le_refl _)
    · exact run_test_ends ⟨_, rfl⟩
    · exact run_test_ends ⟨_, rfl⟩
    · exact run_testValues_ends hb hargs (Nat.le_refl _)
    · exact run_testValues_ends hb hargs (Nat.le_refl _)
    · exact run_noValue_ends hb hargs (Nat.le_refl _)
  obtain ⟨x, hx⟩ := hends
  exact ⟨x, fun n hn => hdeepens.run hn hx⟩

end Builtin

/-! ## Steps -/

/-- Whether a step has an outcome does not depend on the depth from some depth on. -/
def StepEnds (S : Stock) (f : Nat → Progress × Machine × Session) : Prop :=
  ∃ x, x.1 ≠ .endless ∧ ∀ n, S.depth ≤ n → f n = x

theorem StepEnds.const {x : Progress × Machine × Session} (hx : x.1 ≠ .endless) :
    StepEnds S fun _ => x := ⟨x, hx, fun _ _ => rfl⟩

theorem tryTriple_ends (hm : m.bindings.Flat S) (hgoal : goal.Flat S) (ht : t.Settled S)
    (c : Choice) (s found : Session) : StepEnds S fun n => m.tryTriple n c goal t s found := by
  obtain ⟨x, hx⟩ := hm.unifyTriple_ends hgoal ht.flat
  unfold Machine.tryTriple
  cases x with
  | none => exact ⟨(.go .backtrack, m, s), by simp, fun n hn => by simp only [hx n hn]⟩
  | some b =>
    exact ⟨(.go (.run c.env c.code), { m with bindings := b }, found), by simp,
      fun n hn => by simp only [hx n hn]⟩

theorem tryAnswer_ends (hm : m.bindings.Flat S) (hgoal : goal.Flat S) (ht : t.Settled S)
    (s : Session) : StepEnds S fun n => m.tryAnswer n goal t s := by
  obtain ⟨x, hx⟩ := hm.unifyTriple_ends hgoal ht.flat
  unfold Machine.tryAnswer
  cases x with
  | none => exact ⟨(.go .backtrack, m, s), by simp, fun n hn => by simp only [hx n hn]⟩
  | some b =>
    exact ⟨(.done (.ok (some t)), m, s.note (.goalMatched goal)), by simp,
      fun n hn => by simp only [hx n hn]⟩

theorem afterPush_ne_endless (m : Machine) (s : Session) (x : Except Failure Machine) :
    (m.afterPush s x).1 ≠ .endless := by
  cases x <;> simp [Machine.afterPush]

theorem callTable_ne_endless (w : World) (env : Env) (code : List Instruction) (goal : Triple)
    (m : Machine) (s : Session) : (m.callTable w env code goal s).1 ≠ .endless := by
  unfold Machine.callTable
  split
  · simp
  · exact afterPush_ne_endless _ _ _

/-- The next alternative of a choice point is tried. -/
theorem retry_ends (hP : P.Bounded facts S T) (hs : s.Within P facts T)
    (hc : c.Flat P facts S s) (hm : m.bindings.Flat S) :
    StepEnds S fun n => m.retry (P.world st) n c s := by
  have hall := hc.alternatives
  cases halt : c.alternatives with
  | clauses cls args ground =>
    cases cls with
    | nil =>
      simp only [Machine.retry, halt, Machine.leave]
      exact .const (by simp)
    | cons cl cls =>
      simp only [Machine.retry, halt, Machine.enterClause, Machine.leave]
      split
      · exact .const (by simp)
      · split
        · exact .const (by simp)
        · exact .const (by simp)
  | facts goal ts =>
    rw [halt] at hall
    cases ts with
    | nil =>
      simp only [Machine.retry, halt, Machine.leave]
      exact .const (by simp)
    | cons t ts =>
      simp only [Machine.retry, halt]
      have ht := hP.simple.fact_flat hP.serves (hall.2 t List.mem_cons_self)
      exact tryTriple_ends (m := m.keep c (.facts goal ts)) hm hall.1 ht _ _ _
  | answers goal ts =>
    rw [halt] at hall
    cases ts with
    | nil =>
      simp only [Machine.retry, halt, Machine.leave]
      exact .const (by simp)
    | cons t ts =>
      simp only [Machine.retry, halt]
      have ht := hP.simple.fact_flat hP.serves (hall.2 t List.mem_cons_self)
      exact tryAnswer_ends (m := m.keep c (.answers goal ts)) hm hall.1 ht _
  | results d goal =>
    rw [halt] at hall
    simp only [Machine.retry, halt, Machine.tryResult]
    split
    · next t s1 hread =>
      obtain ⟨-, ht, -⟩ := Choice.Offers.pays (.result halt hread) hP hs hc
      exact tryTriple_ends (m := m.keep c (.results d goal)) hm hall.1 ht _ _ _
    · exact .const (by simp [Machine.leave])
    · exact .const (by simp [Machine.suspend, Machine.leave])

/-- A call of simple code. -/
theorem call_ends (hP : P.Bounded facts S T) {k : Call} (hk : k.Simple) (hm : m.Flat P facts S s) :
    StepEnds S fun n => m.call (P.world st) n env code s k := by
  have hvalue : ∀ n, S.depth ≤ n →
      m.calledValue n = some (m.called.mapTerms m.bindings.deref) :=
    fun n hn => hm.bindings.calledValue hm.called hn
  have hrules : (P.world st).rules = P.rules := rfl
  have table : (∀ goal, k.readsTable P.rules goal = true) →
      StepEnds S fun n => m.call (P.world st) n env code s k := by
    intro hreads
    refine ⟨m.callTable (P.world st) env code (m.called.mapTerms m.bindings.deref) s,
      callTable_ne_endless _ _ _ _ _ _, fun n hn => ?_⟩
    simp only [Machine.call, hrules, hreads, if_true, hvalue n hn]
  cases k with
  | tabled => exact table fun _ => rfl
  | wildTabled => exact table fun goal => hP.simple.tabled goal.predicate
  | tripleMatch =>
    refine ⟨m.callStore (P.world st) S.depth env code s, ?_, fun n hn => ?_⟩
    · unfold Machine.callStore
      simp only [hvalue _ (Nat.le_refl _)]
      split
      · simp
      · exact afterPush_ne_endless _ _ _
    · change m.callStore (P.world st) n env code s = _
      unfold Machine.callStore
      rw [hvalue n hn, hvalue _ (Nat.le_refl _)]
  | _ => exact hk.elim

/-- An instruction of simple code. -/
theorem execute_ends (hP : P.Bounded facts S T) {i : Instruction} (hm : m.Flat P facts S s)
    (henv : env.Flat S) (hi : i.Flat S) :
    StepEnds S fun n => m.execute (P.world st) n env code s i := by
  cases i with
  | operation op =>
    obtain ⟨x, hx⟩ := hi.run_ends env.name (hm.registers henv)
    have hstep : ∀ n, S.depth ≤ n → m.execute (P.world st) n env code s (.operation op) =
        m.execute (P.world st) S.depth env code s (.operation op) := by
      intro n hn
      have h1 : op.run env.name n ⟨m.bindings, m.args, m.temps, env.vars⟩ = some x := hx n hn
      have h2 : op.run env.name S.depth ⟨m.bindings, m.args, m.temps, env.vars⟩ = some x :=
        hx _ (Nat.le_refl _)
      simp only [Machine.execute, Machine.operate, h1, h2]
    refine ⟨_, ?_, hstep⟩
    have h2 : op.run env.name S.depth ⟨m.bindings, m.args, m.temps, env.vars⟩ = some x :=
      hx _ (Nat.le_refl _)
    simp only [Machine.execute, Machine.operate, h2]
    rcases x with e | _ | g <;> simp [Machine.fail]
  | call k => exact call_ends hP hi hm
  | builtin f arity =>
    have hargs : ∀ t ∈ m.args.take arity, t.Flat S :=
      fun t ht => hm.args t (List.mem_of_mem_take ht)
    obtain ⟨x, hx⟩ := Builtin.tests_end hi hm.bindings P.store env.rule? hargs
    have hstore : (P.world st).store = P.store := rfl
    simp only [Machine.execute, Machine.callBuiltin, hstore]
    split
    · exact .const (by simp)
    · rcases x with e | _ | b
      · exact ⟨(.done (.error e), m, s), by simp, fun n hn => by simp only [hx n hn]⟩
      · exact ⟨m.fail env (s.note (.builtinFailed env.name f.name)), by simp [Machine.fail],
          fun n hn => by simp only [hx n hn]⟩
      · exact ⟨(.go (.run env code), { m with bindings := b }, s), by simp,
          fun n hn => by simp only [hx n hn]⟩
  | proceed =>
    cases env with
    | root =>
      obtain ⟨t, ht⟩ := hm.bindings.solution hm.standard
      refine ⟨(.done (.ok (some t)), m, s.note (.clauseLeft Env.root.name)), by simp, fun n hn => ?_⟩
      have hsolution : m.solution n = some t := ht n hn
      simp only [Machine.execute, Machine.proceed, hsolution]
    | frame i cl vars caller back commit =>
      cases commit with
      | none => exact .const (by simp)
      | some id => exact .const (by simp)

/-- Every step of such a machine has an outcome. -/
theorem Underway.step_ends (hP : P.Bounded facts S T) (ha : Underway P facts S T control m s) :
    StepEnds S fun n => m.step (P.world st) n control s := by
  cases control with
  | backtrack =>
    unfold Machine.step
    cases hstack : m.stack with
    | nil => exact .const (by simp)
    | cons c rest =>
      obtain ⟨hc, hpopped⟩ := ha.machine.popped hstack
      simp only
      split
      · exact .const (by simp)
      · exact retry_ends hP ha.tables hc hpopped.bindings
  | run env code =>
    unfold Machine.step
    simp only
    split
    · exact .const (by simp)
    · cases code with
      | nil => exact .const (by simp)
      | cons i code =>
        obtain ⟨henv, hi, -⟩ := ha.code_flat
        exact execute_ends hP ha.machine henv hi

/-! ## Answers -/

theorem answer_of_retry {n : Nat}
    (h : m.retry (P.world st) n c s = (.done (.ok (some t)), m', s')) :
    ∃ goal ts, c.alternatives = .answers goal ts ∧ t ∈ ts := by
  have noTriple : ∀ {m1 : Machine} {goal u : Triple} {s1 s2 : Session},
      m1.tryTriple n c goal u s1 s2 ≠ (.done (.ok (some t)), m', s') := by
    intro m1 goal u s1 s2 h
    unfold Machine.tryTriple at h
    split at h <;> cases h
  cases halt : c.alternatives with
  | clauses cls args ground =>
    cases cls with
    | nil =>
      simp only [Machine.retry, halt, Machine.leave] at h
      cases h
    | cons cl cls =>
      simp only [Machine.retry, halt, Machine.enterClause, Machine.leave] at h
      split at h
      · cases h
      · split at h <;> cases h
  | facts goal ts =>
    cases ts with
    | nil =>
      simp only [Machine.retry, halt, Machine.leave] at h
      cases h
    | cons u ts =>
      simp only [Machine.retry, halt] at h
      exact (noTriple h).elim
  | answers goal ts =>
    cases ts with
    | nil =>
      simp only [Machine.retry, halt, Machine.leave] at h
      cases h
    | cons u ts =>
      simp only [Machine.retry, halt, Machine.tryAnswer] at h
      split at h <;> cases h
      exact ⟨goal, _, rfl, List.mem_cons_self⟩
  | results d goal =>
    simp only [Machine.retry, halt, Machine.tryResult, Machine.suspend, Machine.leave] at h
    split at h
    · exact (noTriple h).elim
    · cases h
    · cases h

theorem answer_of_execute {i : Instruction}
    (h : m.execute (P.world st) n env code s i = (.done (.ok (some t)), m', s')) :
    m.solution n = some t := by
  cases i with
  | operation op =>
    simp only [Machine.execute, Machine.operate, Machine.fail] at h
    split at h <;> cases h
  | call k =>
    have hcalls : Calls P (P.world st) env code k m s (.done (.ok (some t))) m' s' :=
      calls_of_call rfl h (by simp)
    cases hcalls
  | builtin f arity =>
    simp only [Machine.execute, Machine.callBuiltin, Machine.fail] at h
    split at h
    · cases h
    · split at h <;> cases h
  | proceed =>
    simp only [Machine.execute, Machine.proceed] at h
    split at h
    · split at h
      · cases h
      · next t' ht =>
        cases h
        exact ht
    · cases h
    · cases h

/-- An answer has no variables. It is a stored triple or an instance of the goal. -/
theorem Underway.settled (hP : P.Bounded facts S T) (ha : Underway P facts S T control m s)
    (h : m.step (P.world st) n control s = (.done (.ok (some t)), m', s')) : t.Settled S := by
  unfold Machine.step at h
  split at h
  · split at h
    · cases h
    · next c rest hstack =>
      split at h
      · cases h
      · obtain ⟨goal, ts, halt, ht⟩ := answer_of_retry h
        have hall := (ha.machine.popped hstack).1.alternatives
        rw [halt] at hall
        exact hP.simple.fact_flat hP.serves (hall.2 t ht)
  · split at h
    · cases h
    · split at h
      · cases h
      · exact ha.machine.bindings.settled ha.machine.standard (answer_of_execute h)

/-! ## Runs -/

/-- From some depth on there is an outcome, always the same, and `p` holds of it and of every
outcome with less depth. -/
structure Settles {α : Type} (f : Nat → Option α) (p : α → Prop) : Prop where
  steady : Steady f p
  sound : ∀ {n a}, f n = some a → p a

namespace Settles

variable {α β : Type} {f : Nat → Option α} {p q : α → Prop}

theorem pure {a : α} (h : p a) : Settles (fun _ => some a) p :=
  ⟨.pure h, fun e => Option.some.inj e ▸ h⟩

/-- What follows on an outcome settles if it does for each outcome that there may be. -/
theorem andThen {F : Nat → Option β} {r : β → Prop} (h : Settles f p)
    (hnone : ∀ n, f n = none → F n = none)
    (hsome : ∀ a, p a → ∃ g, Settles g r ∧ ∀ n, f n = some a → F n = g n) : Settles F r := by
  refine ⟨?_, fun {n b} e => ?_⟩
  · obtain ⟨k, a, ha, hf⟩ := h.steady
    obtain ⟨g, ⟨⟨j, b, hb, hg⟩, -⟩, hF⟩ := hsome a ha
    refine ⟨max k j, b, hb, fun n hn => ?_⟩
    rw [hF n (hf n (by omega)), hg n (by omega)]
  · cases hf : f n with
    | none => cases (hnone n hf).symm.trans e
    | some a =>
      obtain ⟨g, hg, hF⟩ := hsome a (h.sound hf)
      exact hg.sound ((hF n hf).symm.trans e)

theorem imp (h : Settles f p) (hpq : ∀ a, p a → q a) : Settles f q :=
  ⟨h.steady.imp hpq, fun e => hpq _ (h.sound e)⟩

/-- One step goes down by one. -/
theorem succ {g : Nat → Option α} (h : Settles g p) (h0 : f 0 = none)
    (hf : ∀ n, f (n + 1) = g n) : Settles f p := by
  refine ⟨h.steady.succ hf, fun {n a} e => ?_⟩
  cases n with
  | zero => rw [h0] at e; cases e
  | succ n => exact h.sound ((hf n).symm.trans e)

theorem congr {g : Nat → Option α} (h : Settles g p) (hf : ∀ n, f n = g n) : Settles f p := by
  rwa [show f = g from funext hf]

theorem and (h : Settles f p) (hq : ∀ {n a}, f n = some a → q a) : Settles f fun a => p a ∧ q a := by
  refine ⟨?_, fun e => ⟨h.sound e, hq e⟩⟩
  obtain ⟨k, a, ha, hf⟩ := h.steady
  exact ⟨k, a, ⟨ha, hq (hf k (Nat.le_refl k))⟩, hf⟩

end Settles

/-- What a machine comes to, unless it fails: an answer has no variables, and all of it is paid
for, unless there was nothing to try. -/
structure Fares (P : Program) (facts : List Triple) (S T : Stock) (control : Control) (m : Machine)
    (s : Session) (o : Option Triple) (m' : Machine) (s' : Session) : Prop where
  active : Underway P facts S T .backtrack m' s'
  recedes : s.Recedes (P.scale facts T).results s'
  settled : ∀ t, o = some t → t.Settled S
  paid : toll P facts T .backtrack m' s' < toll P facts T control m s ∨
    o = none ∧ control = .backtrack ∧ m' = m ∧ s' = s

/-- It fails, or it is as said. -/
def Unless {α : Type} (ok : α → Machine → Session → Prop) :
    Except Failure α × Machine × Session → Prop
  | (.ok a, m, s) => ok a m s
  | (.error _, _, _) => True

theorem step_of_empty (hnil : m.stack = []) (n : Nat) :
    m.step (P.world st) n .backtrack s = (.done (.ok none), m, s) := by
  unfold Machine.step
  rw [hnil]

/-- What is done in a step and after it. -/
theorem Fares.after {o : Option Triple} {s1 : Session} {m1 : Machine} {control1 : Control}
    (h : Fares P facts S T control1 m1 s1 o m' s') (hs : s.Recedes (P.scale facts T).results s1)
    (hlt : toll P facts T control1 m1 s1 < toll P facts T control m s) :
    Fares P facts S T control m s o m' s' := by
  refine ⟨h.active, hs.trans h.recedes, h.settled, .inl ?_⟩
  rcases h.paid with hpaid | ⟨-, rfl, rfl, rfl⟩
  · exact hpaid.trans hlt
  · exact hlt

theorem run_fares (hP : P.Bounded facts S T) (ha : Underway P facts S T control m s)
    {x : Except Failure (Option Triple) × Machine × Session}
    (h : Machine.run (P.world st) n control m s = some x) :
    Unless (Fares P facts S T control m s) x := by
  induction n generalizing control m s with
  | zero => cases h
  | succ n ih =>
    rw [Machine.run] at h
    split at h
    · next control1 m1 s1 hstep =>
      obtain ⟨ha1, hrecedes, hlt | ⟨rfl, -, hnil, -⟩⟩ := (acts_of_step hstep rfl).fares hP ha
      · have hrest := ih ha1 h
        obtain ⟨e | o, m', s'⟩ := x
        · trivial
        · exact Fares.after hrest hrecedes hlt
      · rw [step_of_empty hnil] at hstep
        cases hstep
    · next outcome m1 s1 hstep =>
      cases h
      cases outcome with
      | error e => trivial
      | ok o =>
        obtain ⟨ha1, hrecedes, hpaid⟩ := (acts_of_step hstep rfl).fares hP ha
        refine ⟨ha1, hrecedes, fun t e => ?_, ?_⟩
        · cases e
          exact ha.settled hP hstep
        · rcases hpaid with hlt | ⟨rfl, -, hnil, h1, h2⟩
          · exact .inl hlt
          · rw [step_of_empty hnil] at hstep
            cases hstep
            exact .inr ⟨rfl, rfl, h1, h2⟩
    · cases h

/-- Every run of such a machine comes to an end. -/
theorem run_settles (st : Settings) (hP : P.Bounded facts S T) (ha : Underway P facts S T control m s) :
    Settles (fun n => Machine.run (P.world st) n control m s)
      (Unless (Fares P facts S T control m s)) := by
  refine ⟨?_, fun h => run_fares hP ha h⟩
  suffices hsteady : ∃ k x, ∀ n, k ≤ n → Machine.run (P.world st) n control m s = some x by
    obtain ⟨k, x, hx⟩ := hsteady
    exact ⟨k, x, run_fares hP ha (hx k (Nat.le_refl k)), hx⟩
  generalize htoll : toll P facts T control m s = k
  induction k using Nat.strong_induction_on generalizing control m s with
  | h k ih =>
    have hends : StepEnds S fun n => m.step (P.world st) n control s := ha.step_ends hP
    obtain ⟨⟨p, m1, s1⟩, hp, hstep⟩ := hends
    replace hstep : ∀ n, S.depth ≤ n → m.step (P.world st) n control s = (p, m1, s1) := hstep
    cases p with
    | endless => exact absurd rfl hp
    | done outcome =>
      refine ⟨S.depth + 1, (outcome, m1, s1), fun n hn => ?_⟩
      obtain ⟨n, rfl⟩ : ∃ j, n = j + 1 := ⟨n - 1, by omega⟩
      rw [Machine.run, hstep n (by omega)]
    | go control1 =>
      have hdeep := hstep S.depth (Nat.le_refl _)
      obtain ⟨ha1, -, hlt | ⟨rfl, -, hnil, -⟩⟩ := (acts_of_step hdeep rfl).fares hP ha
      · obtain ⟨j, x, hx⟩ := ih _ (htoll ▸ hlt) ha1 rfl
        refine ⟨max j S.depth + 1, x, fun n hn => ?_⟩
        obtain ⟨n, rfl⟩ : ∃ i, n = i + 1 := ⟨n - 1, by omega⟩
        rw [Machine.run, hstep n (by omega)]
        exact hx n (by omega)
      · rw [step_of_empty hnil] at hdeep
        cases hdeep

theorem Fares.noted {s1 : Session} {t : Triple}
    (h : Fares P facts S T control m s (some t) m' s') (hs : s'.Ebbs s1) :
    Fares P facts S T control m s (some t) m' s1 := by
  obtain ⟨htables, hm, hle⟩ := h.active.ebbs hs
  refine ⟨⟨htables, hm, trivial⟩, h.recedes.trans (hs.recedes _), h.settled, .inl ?_⟩
  rcases h.paid with hpaid | ⟨e, -⟩
  · unfold toll at hpaid ⊢
    omega
  · cases e

/-- So does every search for the next answer. -/
theorem next_settles (st : Settings) (hP : P.Bounded facts S T)
    (ha : Underway P facts S T .backtrack m s) :
    Settles (fun n => m.next (P.world st) n s) (Unless (Fares P facts S T .backtrack m s)) := by
  refine (run_settles st hP ha).andThen (fun n hn => by rw [Machine.next, hn]) fun x hx => ?_
  rcases x with ⟨e | _ | t, m1, s1⟩
  · exact ⟨fun _ => some (.error e, m1, s1), .pure trivial, fun n hn => by rw [Machine.next, hn]⟩
  · exact ⟨_, .pure hx, fun n hn => by rw [Machine.next, hn]⟩
  · exact ⟨fun _ => some (.ok (some t), m1, s1.note (.answer t)), .pure
      (Fares.noted hx (s1.noted_note _).ebbs), fun n hn => by rw [Machine.next, hn]⟩

end

end TabledRules
