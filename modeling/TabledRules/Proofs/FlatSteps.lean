-- Steps of machines over rules that build no terms. A step keeps all flat, and it is
-- paid for: what is left costs less than what there was.
import TabledRules.Proofs.TableCosts

namespace TabledRules

/-- The machine and the tables are flat, and so is what the machine is about to run. -/
structure Underway (P : Program) (facts : List Triple) (S T : Stock) (control : Control) (m : Machine)
    (s : Session) : Prop where
  tables : s.Within P facts T
  machine : m.Flat P facts S s
  control : control.Flat S

/-- What is left to do for the machine that runs and for all tables. -/
def toll (P : Program) (facts : List Triple) (T : Stock) (control : Control) (m : Machine)
    (s : Session) : Nat :=
  control.cost (P.scale facts T) + m.cost (P.scale facts T) s + s.cost P facts T

/-- The programs, and the stocks of ground terms for the goal of a machine and for all goals. -/
structure Program.Bounded (P : Program) (facts : List Triple) (S T : Stock) : Prop where
  simple : P.Simple facts
  serves : P.Serves facts S
  subset : S.terms ⊆ T.terms

section

variable {P : Program} {facts : List Triple} {S T : Stock} {st : Settings} {s s' s1 : Session}
  {m m' : Machine} {c : Choice} {rest : List Choice} {control control' : Control} {goal t : Triple}
  {a : Alternatives} {env : Env} {code : List Instruction} {n d : Nat} {p : Progress}

theorem Program.Bounded.serves_all (h : P.Bounded facts S T) : P.Serves facts T :=
  fun t ht hground => h.subset (h.serves t ht hground)

/-! ## Builtins -/

/-- A test that holds binds nothing. -/
theorem run_tests {f : Builtin} {store : Store} {rule : Option Rule} {b b' : Bindings}
    {args : List Term} (hf : f ∈ Builtin.tests)
    (h : f.run n store rule b args = some (.ok (some b'))) : b' = b := by
  simp only [Builtin.tests, List.mem_cons, List.not_mem_nil, or_false] at hf
  rcases hf with rfl | rfl | rfl | rfl | rfl | rfl | rfl
  · exact (of_run_test h).2
  · exact (of_run_test h).2
  · exact (of_run_test h).2
  · exact (of_run_test h).2
  · exact (of_run_test h).2
  · exact (of_run_test h).2
  · exact of_run_noValue h

/-! ## Choice points -/

theorem Session.read_eq_self (h : ∀ t, (s.read d).1 ≠ .result t) : (s.read d).2 = s := by
  unfold read at h ⊢
  split
  · rfl
  · next k hk =>
    simp only [hk] at h
    split
    · rfl
    · next gen hgen =>
      simp only [hgen] at h
      split
      · next t ht =>
        simp only [ht] at h
        exact absurd rfl (h t)
      · rfl

/-- An alternative is paid for, and so is the code that goes on with it. -/
theorem Choice.Offers.pays (h : c.Offers s goal t a s1) (hP : P.Bounded facts S T)
    (hs : s.Within P facts T) (hc : c.Flat P facts S s) :
    goal.Flat S ∧ t.Settled S ∧ a.Flat P facts S s1 ∧ s1.Within P facts T ∧
      s1.cost P facts T ≤ s.cost P facts T ∧ s.Recedes (P.scale facts T).results s1 ∧
      1 + a.cost (P.scale facts T) s1 (rank c.env c.code) +
        (P.scale facts T).cost (rank c.env c.code) < c.cost (P.scale facts T) s := by
  have hall := hc.alternatives
  unfold Choice.cost
  cases h with
  | fact halt =>
    rw [halt] at hall ⊢
    rw [Alternatives.cost, Alternatives.cost, List.length_cons, Nat.succ_mul]
    refine ⟨hall.1, ?_, ⟨hall.1, fun u hu => hall.2 u (List.mem_cons_of_mem _ hu)⟩, hs,
      Nat.le_refl _, .refl _ _, by omega⟩
    exact hP.simple.fact_flat hP.serves (hall.2 _ List.mem_cons_self)
  | answer halt =>
    rw [halt] at hall ⊢
    rw [Alternatives.cost, Alternatives.cost, List.length_cons, Nat.succ_mul]
    refine ⟨hall.1, ?_, ⟨hall.1, fun u hu => hall.2 u (List.mem_cons_of_mem _ hu)⟩, hs,
      Nat.le_refl _, .refl _ _, by omega⟩
    exact hP.simple.fact_flat hP.serves (hall.2 _ List.mem_cons_self)
  | @result d goal t _ halt hread =>
    rw [halt] at hall ⊢
    obtain ⟨hgoal, key, hreads, hkey⟩ := hall
    obtain ⟨hs1, hcost, hrecedes, hlag⟩ := hs.read hP.serves_all hread
    refine ⟨hgoal, ?_, ⟨hgoal, key, hreads.grows hrecedes.grows, hkey⟩, hs1, hcost, hrecedes, ?_⟩
    · -- the result is one of a table for a goal over the stock
      obtain ⟨k, gen, hk, hgen, ht, -⟩ := Session.of_read_result hread
      have hmem : t ∈ gen.results.toList := Array.mem_toList_iff.2 (Array.mem_of_getElem? ht)
      have hsettled := (hs.results hgen).2 t hmem
      rw [hreads.goal_eq hk hgen] at hsettled
      exact hsettled.mono (hP.serves.stock hkey)
    · have hmul : (s1.lag (P.scale facts T).results d + 1) *
          ((P.scale facts T).cost (rank c.env c.code) + 2) ≤
          s.lag (P.scale facts T).results d * ((P.scale facts T).cost (rank c.env c.code) + 2) :=
        Nat.mul_le_mul_right _ hlag
      rw [Nat.succ_mul] at hmul
      rw [Alternatives.cost, Alternatives.cost]
      omega

/-- A consumer that waits is paid for by its choice point. -/
theorem Choice.waitCost_lt (halt : c.alternatives = .results d goal)
    (hp : (s.read d).1 = .pending) (sc : Scale) : c.waitCost sc s d < c.cost sc s := by
  have h2 := sc.two_le_cost (rank c.env c.code)
  rw [Choice.waitCost, Choice.cost, halt, Alternatives.cost, Session.lag_of_pending hp,
    Nat.succ_mul (2 * s.unread sc.results d)]
  omega

/-- The way back to the choice point of a consumer that waits is paid for. -/
theorem Choice.cost_lt_waitCost (halt : c.alternatives = .results d goal)
    (hp : (s.read d).1 ≠ .pending) (sc : Scale) : c.cost sc s < c.waitCost sc s d := by
  rw [Choice.waitCost, Choice.cost, halt, Alternatives.cost, Session.lag_of_ne hp]
  omega

/-! ## Calls -/

/-- A call of simple code tries stored triples, or the results of a table. -/
theorem Calls.fares {w : World} {k : Call} (h : Calls P w env code k m s (.go .backtrack) m' s')
    (hw : w = P.world st) (hP : P.Bounded facts S T) (hk : k.Simple) (hs : s.Within P facts T)
    (hm : m.Flat P facts S s) (henv : env.Flat S) (hcode : ∀ i ∈ code, i.Flat S) :
    m'.Flat P facts S s' ∧ s'.Within P facts T ∧ s.Recedes (P.scale facts T).results s' ∧
      m'.cost (P.scale facts T) s' + s'.cost P facts T <
        (P.scale facts T).cost (rank env code + 1) + m.cost (P.scale facts T) s +
          s.cost P facts T := by
  have hcalled := hm.called
  cases h with
  | @search n value ground hno _ hv =>
    -- where all goals keep tables, only goals without clauses are searched for in the store
    have hmatch : k = .tripleMatch := by
      cases k with
      | tripleMatch => rfl
      | tabled => cases hno
      | wildTabled =>
        rw [Call.readsTable, hP.simple.tabled] at hno
        cases hno
      | _ => exact hk.elim
    subst hmatch
    have hm' : m.pushedClauses env code
        (Call.clauses P.rules (m.called.mapTerms m.bindings.deref) .tripleMatch) ground = m := rfl
    rw [hm']
    refine ⟨hm.pushed henv hcode ⟨hcalled, fun t ht => hP.simple.found ht⟩, hs, .refl _ _, ?_⟩
    have hlt := (P.scale facts T).facts_lt_cost (rank env code)
      (hP.simple.length_le value.lookupKey)
    rw [Machine.cost_pushed, Alternatives.cost]
    omega
  | @table n value g s1 hyes hv hg =>
    subst hw
    have hvalue : value.Over S := by
      rw [hm.bindings.of_calledValue hcalled hv]
      exact (hm.bindings.mapTerms hcalled).isOver
    obtain ⟨hflat1, hrecedes1, habout⟩ := hs.toFlat.generatorFor hP.simple hvalue.shape hg
    obtain ⟨hs1, hcost1⟩ := hs.generatorFor hP.simple (hvalue.mono hP.subset) hg
    obtain ⟨-, hrecedes2, hreads⟩ := hflat1.addConsumer m.owner habout
    obtain ⟨hs2, hcost2⟩ := hs1.addConsumer m.owner habout
    have hrecedes := (hrecedes1 (P.scale facts T).results).trans (hrecedes2 _)
    have hm2 := hm.grows hrecedes.grows
    refine ⟨hm2.pushed henv hcode ⟨hcalled, _, hreads, hvalue.variantKey⟩, hs2, hrecedes, ?_⟩
    have hle := hm.cost_le (P.scale facts T) hrecedes
    have hlt := (P.scale facts T).results_lt_cost (rank env code)
      ((s1.addConsumer g m.owner).2.lag_le (P.scale facts T).results (s1.addConsumer g m.owner).1)
    rw [Machine.cost_pushed, Alternatives.cost]
    omega

/-! ## Steps -/

/-- The machine is as it was, in a session whose tables are. -/
theorem Underway.ebbs (h : Underway P facts S T control m s) (hs : s.Ebbs s') :
    s'.Within P facts T ∧ m.Flat P facts S s' ∧
      m.cost (P.scale facts T) s' + s'.cost P facts T ≤
        m.cost (P.scale facts T) s + s.cost P facts T := by
  have hcost := h.machine.cost_le (P.scale facts T) (hs.recedes _)
  have htables := h.tables.cost_ebbs (T := T) hs
  exact ⟨h.tables.ebbs hs, h.machine.grows hs.grows, by omega⟩

theorem Underway.code_flat {i : Instruction} (h : Underway P facts S T (.run env (i :: code)) m s) :
    env.Flat S ∧ i.Flat S ∧ ∀ j ∈ code, j.Flat S :=
  ⟨h.control.1, h.control.2 i List.mem_cons_self,
    fun j hj => h.control.2 j (List.mem_cons_of_mem _ hj)⟩

/-- All stays flat, and what is left to do costs less than what there was. -/
structure Descends (P : Program) (facts : List Triple) (S T : Stock) (control : Control)
    (m : Machine) (s : Session) (control' : Control) (m' : Machine) (s' : Session) : Prop where
  underway : Underway P facts S T control' m' s'
  recedes : s.Recedes (P.scale facts T).results s'
  toll_lt : toll P facts T control' m' s' < toll P facts T control m s

/-- An operation is done. -/
theorem Underway.operates {op : Operation} {g : Registers}
    (h : Underway P facts S T (.run env (.operation op :: code)) m s)
    (hop : op.run env.name n (m.registers env) = some (.ok (some g))) :
    Descends P facts S T (.run env (.operation op :: code)) m s
      (.run (env.setVars g.vars) code) (m.load g) s := by
  obtain ⟨henv, hi, hcode⟩ := h.code_flat
  have hg := Operation.Flat.run hi (h.machine.registers henv) hop
  have henv' : (env.setVars g.vars).Flat S :=
    henv.setVars fun i t ht => hg.value (x := .slot i) ht
  refine ⟨⟨h.tables, h.machine.load hg, henv', hcode⟩, .refl _ _, ?_⟩
  have hlt := (P.scale facts T).cost_lt_succ (rank env code)
  have hload : (m.load g).cost (P.scale facts T) s = m.cost (P.scale facts T) s := rfl
  rw [toll, toll, Control.cost, Control.cost, rank_setVars, cost_rank_cons, hload]
  omega

/-- A builtin succeeds. -/
theorem Underway.tests {f : Builtin} {arity : Nat} {b : Bindings}
    (h : Underway P facts S T (.run env (.builtin f arity :: code)) m s)
    (hrun : f.run n P.store env.rule? m.bindings (m.args.take arity) = some (.ok (some b))) :
    Descends P facts S T (.run env (.builtin f arity :: code)) m s
      (.run env code) { m with bindings := b } s := by
  obtain ⟨henv, hi, hcode⟩ := h.code_flat
  obtain rfl := run_tests hi hrun
  refine ⟨⟨h.tables, h.machine, henv, hcode⟩, .refl _ _, ?_⟩
  have hlt := (P.scale facts T).cost_lt_succ (rank env code)
  change _ + m.cost (P.scale facts T) s + _ < _
  rw [toll, Control.cost, Control.cost, cost_rank_cons]
  omega

/-- Code is given up. -/
theorem Underway.backtracks (h : Underway P facts S T (.run env code) m s) (hs : s.Ebbs s') :
    Descends P facts S T (.run env code) m s .backtrack m s' := by
  obtain ⟨htables, hm, hle⟩ := h.ebbs hs
  have hcost := (P.scale facts T).two_le_cost (rank env code)
  refine ⟨⟨htables, hm, trivial⟩, hs.recedes _, ?_⟩
  rw [toll, toll, Control.cost, Control.cost]
  omega

theorem Machine.cost_left (commit : Option Nat) (sc : Scale) (s : Session) (m : Machine) :
    (m.left commit).cost sc s = m.cost sc s := by
  cases commit <;> rfl

/-- A clause succeeds, and its caller goes on. -/
theorem Underway.leaves {i : Nat} {cl : Clause} {vars : List (Option Term)} {caller : Env}
    {back : List Instruction} {commit : Option Nat}
    (h : Underway P facts S T (.run (.frame i cl vars caller back commit) (.proceed :: code)) m s)
    (hs : s.Ebbs s') :
    Descends P facts S T (.run (.frame i cl vars caller back commit) (.proceed :: code)) m s
      (.run caller back) (m.left commit) s' := by
  obtain ⟨htables, hm, hle⟩ := h.ebbs hs
  obtain ⟨⟨hvars, hback, hcaller⟩, -, -⟩ := h.code_flat
  have hm' : (m.left commit).Flat P facts S s' := by
    cases commit with
    | none => exact hm
    | some id => exact ⟨hm.bindings, hm.args, hm.temps, hm.standard, hm.stack, hm.suspended⟩
  refine ⟨⟨htables, hm', hcaller, hback⟩, hs.recedes _, ?_⟩
  have hrank : rank caller back + 1 ≤
      rank (.frame i cl vars caller back commit) (.proceed :: code) := by
    rw [rank, rank, Env.pending, List.length_cons]
    omega
  have hlt := (P.scale facts T).cost_lt_succ (rank caller back)
  have hmono := (P.scale facts T).cost_mono hrank
  rw [toll, toll, Control.cost, Control.cost, Machine.cost_left]
  omega

/-- The last choice point is taken off. -/
theorem Underway.pops (h : Underway P facts S T .backtrack m s) (hstack : m.stack = c :: rest)
    (hs : s.Ebbs s') :
    Descends P facts S T .backtrack m s .backtrack (m.popped c rest) s' := by
  obtain ⟨htables, hm, hle⟩ := h.ebbs hs
  refine ⟨⟨htables, (hm.popped hstack).2, trivial⟩, hs.recedes _, ?_⟩
  have hpop := Machine.cost_popped (P.scale facts T) s' hstack
  have hpos : 0 < c.cost (P.scale facts T) s' := by unfold Choice.cost; omega
  rw [toll, toll]
  omega

/-- A clause is taken up, at the cost of all its code in the place of the choice point. -/
theorem Underway.enters {cl : Clause} {cls : List Clause} {args : List Term} {ground : Bool}
    (h : Underway P facts S T .backtrack m s) (hP : P.Bounded facts S T)
    (hstack : m.stack = c :: rest) (halt : c.alternatives = .clauses (cl :: cls) args ground)
    (hs : s.Ebbs s') :
    Descends P facts S T .backtrack m s
      (.run (c.entered (m.popped c rest).envs cl (List.replicate cl.permanents none) ground) cl.code)
      (((m.popped c rest).keep c (.clauses cls args ground)).entering args) s' := by
  obtain ⟨htables, hm, hle⟩ := h.ebbs hs
  obtain ⟨hc, hpopped⟩ := hm.popped hstack
  have hall := hc.alternatives
  rw [halt] at hall
  obtain ⟨hcls, hargs⟩ := hall
  have hcl := hcls cl List.mem_cons_self
  have hkept := hpopped.keep (a := .clauses cls args ground) hc
    ⟨fun cl' hcl' => hcls cl' (List.mem_cons_of_mem _ hcl'), hargs⟩
  have hvars : ∀ (i : Nat) (t : Term),
      (List.replicate cl.permanents (none : Option Term))[i]?.join = some t → t.Flat S := by
    intro i t ht
    rw [List.getElem?_replicate] at ht
    split at ht <;> cases ht
  refine ⟨⟨htables, ⟨hkept.bindings, hargs, hkept.temps, hkept.standard, hkept.stack,
    hkept.suspended⟩, ⟨hvars, hc.code, hc.env⟩, hP.simple.code_flat hP.serves hcl⟩,
    hs.recedes _, ?_⟩
  have hpop := Machine.cost_popped (P.scale facts T) s' hstack
  rw [Choice.cost, halt, Alternatives.cost, List.length_cons, Nat.succ_mul] at hpop
  have hentered : ∀ m1 : Machine,
      (m1.entering args).cost (P.scale facts T) s' = m1.cost (P.scale facts T) s' := fun _ => rfl
  have hrank : rank (c.entered (m.popped c rest).envs cl (List.replicate cl.permanents none)
      ground) cl.code ≤ (P.scale facts T).code + rank c.env c.code := by
    have hle := P.code_le_scale facts T hcl
    rw [rank, rank, Choice.entered, Env.pending]
    omega
  have hmono := (P.scale facts T).cost_mono hrank
  rw [toll, toll, Control.cost, Control.cost, hentered, Machine.cost_keep, Alternatives.cost]
  omega

/-- A triple is tried and does not match, or it is the answer itself. -/
theorem Underway.stays (h : Underway P facts S T .backtrack m s) (hP : P.Bounded facts S T)
    (hstack : m.stack = c :: rest) (hoffers : c.Offers s goal t a s1) (hs : s1.Ebbs s') :
    Descends P facts S T .backtrack m s .backtrack ((m.popped c rest).keep c a) s' := by
  obtain ⟨hc, hpopped⟩ := h.machine.popped hstack
  obtain ⟨-, -, hall, hs1, hcost1, hrecedes, hlt⟩ := hoffers.pays hP h.tables hc
  have hkept := (hpopped.grows hrecedes.grows).keep (hc.grows hrecedes.grows) hall
  have hnext : Underway P facts S T .backtrack ((m.popped c rest).keep c a) s1 :=
    ⟨hs1, hkept, trivial⟩
  obtain ⟨hs', hm', hle⟩ := hnext.ebbs hs
  refine ⟨⟨hs', hm', trivial⟩, hrecedes.trans (hs.recedes _), ?_⟩
  have hpop := Machine.cost_popped (P.scale facts T) s hstack
  have hpopcost := hpopped.cost_le (P.scale facts T) hrecedes
  rw [Machine.cost_keep (P.scale facts T) s1] at hle
  rw [toll, toll]
  omega

/-- A triple matches, and the code of the choice point goes on. -/
theorem Underway.resumes {b : Bindings} (h : Underway P facts S T .backtrack m s)
    (hP : P.Bounded facts S T) (hstack : m.stack = c :: rest) (hoffers : c.Offers s goal t a s1)
    (hs : s1.Ebbs s') (hu : (m.popped c rest).bindings.unifyTriple n goal t = some (some b)) :
    Descends P facts S T .backtrack m s (.run c.env c.code)
      { (m.popped c rest).keep c a with bindings := b } s' := by
  obtain ⟨hc, hpopped⟩ := h.machine.popped hstack
  obtain ⟨hgoal, ht, hall, hs1, hcost1, hrecedes, hlt⟩ := hoffers.pays hP h.tables hc
  have hkept := (hpopped.grows hrecedes.grows).keep (hc.grows hrecedes.grows) hall
  have hb := hpopped.bindings.of_unifyTriple hgoal ht.flat hu
  have hnext : Underway P facts S T (.run c.env c.code)
      { (m.popped c rest).keep c a with bindings := b } s1 :=
    ⟨hs1, ⟨hb, hkept.args, hkept.temps, hkept.standard, hkept.stack, hkept.suspended⟩, hc.env,
      hc.code⟩
  obtain ⟨hs', hm', hle⟩ := hnext.ebbs hs
  refine ⟨⟨hs', hm', hnext.control⟩, hrecedes.trans (hs.recedes _), ?_⟩
  have hpop := Machine.cost_popped (P.scale facts T) s hstack
  have hpopcost := hpopped.cost_le (P.scale facts T) hrecedes
  have hbound : Machine.cost (P.scale facts T) s1
      { (m.popped c rest).keep c a with bindings := b } =
      ((m.popped c rest).keep c a).cost (P.scale facts T) s1 := rfl
  rw [hbound, Machine.cost_keep (P.scale facts T) s1] at hle
  rw [toll, toll, Control.cost, Control.cost]
  omega

/-- A consumer that has to wait is put aside with its choice point, which costs less there. -/
theorem Underway.parks (h : Underway P facts S T .backtrack m s) (hstack : m.stack = c :: rest)
    (halt : c.alternatives = .results d goal) (hp : (s.read d).1 = .pending)
    (hs : (s.block m.owner d).Ebbs s') :
    Descends P facts S T .backtrack m s .backtrack ((m.popped c rest).parked c d) s' := by
  obtain ⟨hc, hpopped⟩ := h.machine.popped hstack
  -- the choice point is put aside before the consumer is marked
  have hnext : Underway P facts S T .backtrack ((m.popped c rest).parked c d) s :=
    ⟨h.tables, hpopped.parked hc halt, trivial⟩
  have hebbs := (s.ebbs_block m.owner d).trans hs
  obtain ⟨htables, hm, hle⟩ := hnext.ebbs hebbs
  refine ⟨⟨htables, hm, trivial⟩, hebbs.recedes _, ?_⟩
  have hpop := Machine.cost_popped (P.scale facts T) s hstack
  have hparked := hpopped.cost_parked (P.scale facts T) c d
  have hlt := Choice.waitCost_lt halt hp (P.scale facts T)
  rw [toll, toll]
  omega

/-- Every step keeps all flat and is paid for. Where there is no choice point to go back to,
nothing happens. -/
theorem Machine.Acts.fares (h : m.Acts P st n s control control' m' s')
    (hP : P.Bounded facts S T) (ha : Underway P facts S T control m s) :
    Underway P facts S T control' m' s' ∧ s.Recedes (P.scale facts T).results s' ∧
      (toll P facts T control' m' s' < toll P facts T control m s ∨
        control = .backtrack ∧ control' = .backtrack ∧ m.stack = [] ∧ m' = m ∧ s' = s) := by
  have down (h : Descends P facts S T control m s control' m' s') :
      Underway P facts S T control' m' s' ∧ s.Recedes (P.scale facts T).results s' ∧
        (toll P facts T control' m' s' < toll P facts T control m s ∨
          control = .backtrack ∧ control' = .backtrack ∧ m.stack = [] ∧ m' = m ∧ s' = s) :=
    ⟨h.underway, h.recedes, .inl h.toll_lt⟩
  cases h with
  | operation hop => exact down (ha.operates hop)
  | operationFails _ hnoted => exact down (ha.backtracks hnoted.ebbs)
  | builtin hrun => exact down (ha.tests hrun)
  | builtinFails hnoted => exact down (ha.backtracks hnoted.ebbs)
  | call hcalls =>
    obtain ⟨henv, hi, hcode⟩ := ha.code_flat
    obtain ⟨hm, hs, hrecedes, hlt⟩ := hcalls.fares rfl hP hi ha.tables ha.machine henv hcode
    refine down ⟨⟨hs, hm, trivial⟩, hrecedes, ?_⟩
    rw [toll, toll, Control.cost, Control.cost, cost_rank_cons]
    omega
  | leave hnoted => exact down (ha.leaves hnoted.ebbs)
  | answer _ hnoted => exact down (ha.backtracks hnoted.ebbs)
  | empty hnil => exact ⟨ha, .refl _ _, .inr ⟨rfl, rfl, hnil, rfl, rfl⟩⟩
  | spent hstack _ hnoted => exact down (ha.pops hstack hnoted.ebbs)
  | enter hstack halt _ hnoted => exact down (ha.enters hP hstack halt hnoted.ebbs)
  | stay hstack hoffers hnoted => exact down (ha.stays hP hstack hoffers hnoted.ebbs)
  | resume hstack hoffers hnoted hu => exact down (ha.resumes hP hstack hoffers hnoted.ebbs hu)
  | @exhausted c rest d goal s1 s' hstack halt hread hnoted =>
    obtain rfl : s = s1 := by
      simpa [hread] using (Session.read_eq_self (s := s) (d := d) (by simp [hread])).symm
    exact down (ha.pops hstack ((s.ebbs_removeConsumer d).trans hnoted.ebbs))
  | @park c rest d goal s1 s' hstack halt hread hnoted =>
    obtain rfl : s = s1 := by
      simpa [hread] using (Session.read_eq_self (s := s) (d := d) (by simp [hread])).symm
    exact down (ha.parks hstack halt (by rw [hread]) hnoted.ebbs)

end

end TabledRules
