-- Machines over rules that build no terms. All that such a machine holds is flat,
-- so every step of it has an outcome, and the goals that it calls are goals over
-- the ground terms that there are for its own goal.
import TabledRules.Proofs.FlatGoals
import TabledRules.Proofs.Realms
import TabledRules.Proofs.SingleSteps

namespace TabledRules

/-! ## Code and environments -/

/-- The instruction builds no term, and its constant is one of the stock. -/
def Instruction.Flat (S : Stock) : Instruction → Prop
  | .operation op => op.Flat S
  | .call c => c.Simple
  | .builtin f _ => f ∈ Builtin.tests
  | .proceed => True

/-- The values of the slots are flat, and so is the code that callers go on with. -/
def Env.Flat (S : Stock) : Env → Prop
  | .root => True
  | .frame _ _ vars caller code _ =>
    (∀ (i : Nat) (t : Term), vars[i]?.join = some t → t.Flat S) ∧ (∀ i ∈ code, i.Flat S) ∧
      caller.Flat S

/-- What is left to try is flat. A table that is read has a goal over the stock. -/
def Alternatives.Flat (P : Program) (facts : List Triple) (S : Stock) (s : Session) :
    Alternatives → Prop
  | .clauses rest args _ => (∀ cl ∈ rest, cl ∈ P.rules.clauses.toList) ∧ ∀ t ∈ args, t.Flat S
  | .facts goal rest | .answers goal rest => goal.Flat S ∧ ∀ t ∈ rest, t ∈ facts
  | .results d goal => goal.Flat S ∧ ∃ key : Triple, s.Reads d key ∧ key.Over S

structure Choice.Flat (P : Program) (facts : List Triple) (S : Stock) (s : Session) (c : Choice) :
    Prop where
  env : c.env.Flat S
  code : ∀ i ∈ c.code, i.Flat S
  bindings : c.bindings.Flat S
  alternatives : c.alternatives.Flat P facts S s

/-- All that the machine holds is flat. -/
structure Machine.Flat (P : Program) (facts : List Triple) (S : Stock) (s : Session)
    (m : Machine) : Prop where
  bindings : m.bindings.Flat S
  args : ∀ t ∈ m.args, t.Flat S
  temps : ∀ (i : Nat) (t : Term), m.temps[i]?.join = some t → t.Flat S
  standard : m.standard.Flat S
  stack : ∀ c ∈ m.stack, c.Flat P facts S s
  suspended : ∀ {d : Nat} {c : Choice}, m.suspended[d]? = some c →
    c.Flat P facts S s ∧ ∃ goal, c.alternatives = .results d goal

/-- What is about to run is flat. -/
def Control.Flat (S : Stock) : Control → Prop
  | .backtrack => True
  | .run env code => env.Flat S ∧ ∀ i ∈ code, i.Flat S

section

variable {P : Program} {facts : List Triple} {S : Stock} {st : Settings} {s s' : Session}
  {m m' : Machine} {c : Choice} {rest : List Choice} {env : Env} {code : List Instruction}
  {control control' : Control} {a : Alternatives} {goal t : Triple} {n : Nat} {g : Registers}

theorem Program.Simple.code_flat (hP : P.Simple facts) (hS : P.Serves facts S) {cl : Clause}
    (hcl : cl ∈ P.rules.clauses.toList) : ∀ i ∈ cl.code, i.Flat S := by
  intro i hi
  have hsimple := hP.code cl hcl i hi
  have hconstant : ∀ t : Term, t.isGround = true → i.constant? = some t → t ∈ S.terms := by
    intro t ht hc
    refine hS t (List.mem_append_right _ ?_) ht
    exact List.mem_flatMap.2 ⟨cl, hcl, List.mem_filterMap.2 ⟨i, hi, hc⟩⟩
  cases i with
  | operation op =>
    cases op with
    | getFunctor | makeFunctor => exact hsimple.elim
    | getConstant arg t => exact hconstant t hsimple rfl
    | putConstant arg t => exact hconstant t hsimple rfl
    | _ => trivial
  | call | builtin | proceed => exact hsimple

theorem Program.Simple.fact_flat (hP : P.Simple facts) (hS : P.Serves facts S) (ht : t ∈ facts) :
    t.Settled S := by
  intro u hu
  refine .inl (hS u (List.mem_append_left _ (List.mem_flatMap.2 ⟨t, ht, hu⟩)) ?_)
  exact Triple.isGround_iff.1 (hP.ground t ht) u hu

theorem Env.Flat.value (h : env.Flat S) {i : Nat} {u : Term} (hu : env.vars[i]?.join = some u) :
    u.Flat S := by
  cases env with
  | root => simp [Env.vars] at hu
  | frame id clause vars caller back commit => exact h.1 i u hu

theorem Env.Flat.setVars (h : env.Flat S) {vars : List (Option Term)}
    (hvars : ∀ (i : Nat) (t : Term), vars[i]?.join = some t → t.Flat S) :
    (env.setVars vars).Flat S := by
  cases env with
  | root => trivial
  | frame id clause _ caller back commit => exact ⟨hvars, h.2⟩

/-! ## Growing sessions -/

theorem Alternatives.Flat.grows (h : a.Flat P facts S s) (hs : s.Grows s') :
    a.Flat P facts S s' := by
  cases a with
  | results d goal =>
    obtain ⟨hgoal, key, hreads, hkey⟩ := h
    exact ⟨hgoal, key, hreads.grows hs, hkey⟩
  | _ => exact h

theorem Choice.Flat.grows (h : c.Flat P facts S s) (hs : s.Grows s') : c.Flat P facts S s' :=
  ⟨h.env, h.code, h.bindings, h.alternatives.grows hs⟩

theorem Machine.Flat.grows (h : m.Flat P facts S s) (hs : s.Grows s') : m.Flat P facts S s' :=
  { h with
    stack := fun c hc => (h.stack c hc).grows hs
    suspended := fun hd => (h.suspended hd).imp_left (·.grows hs) }

/-! ## Registers -/

theorem Machine.Flat.registers (h : m.Flat P facts S s) (henv : env.Flat S) :
    (m.registers env).Flat S := by
  refine ⟨h.bindings, fun {x t} hx => ?_⟩
  cases x with
  | arg i => exact h.args t (List.mem_of_getElem? hx)
  | temp i => exact h.temps i t hx
  | slot i => exact henv.value hx

theorem Machine.Flat.load (h : m.Flat P facts S s) (hg : g.Flat S) :
    (m.load g).Flat P facts S s where
  bindings := hg.bindings
  args t ht := by
    obtain ⟨i, hi⟩ := List.mem_iff_getElem?.1 ht
    exact hg.value (x := .arg i) hi
  temps i t ht := hg.value (x := .temp i) ht
  standard := h.standard
  stack := h.stack
  suspended := h.suspended

theorem Machine.Flat.called (h : m.Flat P facts S s) : m.called.Flat S := by
  have arg : ∀ i : Nat, (m.args[i]?.getD .any).Flat S := by
    intro i
    cases hi : m.args[i]? with
    | none => exact Term.flat_any S
    | some t => exact h.args t (List.mem_of_getElem? hi)
  intro t ht
  simp only [Machine.called, Triple.terms, List.mem_cons, List.not_mem_nil, or_false] at ht
  rcases ht with rfl | rfl | rfl
  · exact arg 0
  · exact arg 1
  · exact arg 2

/-! ## Choice points -/

/-- A choice point that is made for flat alternatives. -/
theorem Machine.Flat.pushed (h : m.Flat P facts S s) (henv : env.Flat S)
    (hcode : ∀ i ∈ code, i.Flat S) (ha : a.Flat P facts S s) :
    (m.pushed env code a).Flat P facts S s :=
  { h with
    stack := fun c hc => by
      rcases List.mem_cons.1 hc with rfl | hc
      · exact ⟨henv, hcode, h.bindings, ha⟩
      · exact h.stack c hc }

theorem Machine.Flat.popped (h : m.Flat P facts S s) (hstack : m.stack = c :: rest) :
    c.Flat P facts S s ∧ (m.popped c rest).Flat P facts S s := by
  have hc := h.stack c (hstack ▸ List.mem_cons_self)
  exact ⟨hc, { h with
    bindings := hc.bindings.grow _
    stack := fun x hx => h.stack x (hstack ▸ List.mem_cons_of_mem _ hx) }⟩

theorem Machine.Flat.keep (h : m.Flat P facts S s) (hc : c.Flat P facts S s)
    (ha : a.Flat P facts S s) : (m.keep c a).Flat P facts S s :=
  { h with
    stack := fun x hx => by
      rcases List.mem_cons.1 hx with rfl | hx
      · exact ⟨hc.env, hc.code, hc.bindings, ha⟩
      · exact h.stack x hx }

theorem Machine.Flat.parked (h : m.Flat P facts S s) (hc : c.Flat P facts S s) {d : Nat}
    (halt : c.alternatives = .results d goal) : (m.parked c d).Flat P facts S s :=
  { h with
    suspended := fun {e x} hx => by
      change (m.suspended.insert d c)[e]? = some x at hx
      rw [Std.TreeMap.getElem?_insert] at hx
      split at hx
      · next heq =>
        cases hx
        rw [Std.LawfulEqCmp.compare_eq_iff_eq] at heq
        exact ⟨hc, goal, heq ▸ halt⟩
      · exact h.suspended hx }

/-- A consumer's choice point is put back. -/
theorem Machine.Flat.restored (h : m.Flat P facts S s) {d : Nat}
    (hc : m.suspended[d]? = some c) : (m.restored d c).Flat P facts S s :=
  { h with
    bindings := (h.suspended hc).1.bindings.grow _
    stack := fun x hx => by
      obtain rfl := List.mem_singleton.1 hx
      exact (h.suspended hc).1
    suspended := fun hx => h.suspended (Machine.suspended_restored hx).2 }

/-- A new machine for a goal over the stock. -/
theorem Machine.blank_flat {owner : Owner} (hgoal : goal.Over S)
    (h : Machine.blank (P.world st) goal owner = .ok m) (s : Session) : m.Flat P facts S s := by
  obtain ⟨hstandard, hbindings, hstack, hsuspended, hargs, htemps, -⟩ := blank_eq h
  have hflat := hgoal.standard
  refine ⟨?_, fun t ht => ?_, fun i t ht => ?_, hstandard ▸ hflat, fun c hc => ?_,
    fun {d c} hd => ?_⟩
  · rw [hbindings]
    exact Bindings.Flat.empty S _
  · rw [hargs] at ht
    rcases List.mem_append.1 ht with ht | ht
    · exact hflat t ht
    · rw [List.eq_of_mem_replicate ht]
      exact Term.flat_any S
  · rw [htemps, List.getElem?_replicate] at ht
    split at ht <;> cases ht
  · rw [hstack] at hc
    cases hc
  · rw [hsuspended] at hd
    cases hd.symm.trans Std.TreeMap.getElem?_emptyc

theorem flat_proceed : ∀ i ∈ [Instruction.proceed], i.Flat S := by
  intro i hi
  obtain rfl := List.mem_singleton.1 hi
  trivial

theorem Machine.start_flat {owner : Owner} (hP : P.Simple facts) (hgoal : goal.Over S)
    (h : Machine.start (P.world st) goal owner = .ok m) (s : Session) : m.Flat P facts S s := by
  obtain ⟨m0, hblank, rfl⟩ := start_eq h
  have hm0 : m0.Flat P facts S s := Machine.blank_flat hgoal hblank s
  refine Machine.Flat.pushed ?_ trivial flat_proceed
    ⟨hgoal.standard, fun t ht => hP.found ht⟩
  unfold Machine.pushedClauses
  split
  · exact hm0
  · exact hm0.pushed trivial flat_proceed ⟨fun cl hcl => mem_clauses_of_codeFor hcl, hm0.args⟩

end

/-! ## Sessions -/

/-- The goals, the results and the machines of all tables are made of what there is for their
goals. -/
structure Session.Flat (P : Program) (facts : List Triple) (s : Session) : Prop where
  generator_lt : ∀ {g : Nat} {gen : Generator}, s.generators[g]? = some gen → g < s.nextId
  filed : ∀ {key : Triple} {g : Nat}, (key, g) ∈ s.goals.toList →
    ∃ gen : Generator, s.generators[g]? = some gen ∧ gen.goal = key
  goal : ∀ {g : Nat} {gen : Generator}, s.generators[g]? = some gen →
    gen.goal.Over (P.stock facts gen.goal)
  results : ∀ {g : Nat} {gen : Generator}, s.generators[g]? = some gen →
    gen.results.toList.Nodup ∧ ∀ t ∈ gen.results.toList, t.Settled (P.stock facts gen.goal)
  machine : ∀ {g : Nat} {gen : Generator} {m : Machine}, s.generators[g]? = some gen →
    gen.machine = some m → m.Flat P facts (P.stock facts gen.goal) s

section

variable {P : Program} {facts : List Triple} {S : Stock} {st : Settings} {s s' : Session}
  {m m' : Machine} {g : Nat} {goal t value : Triple}

theorem Session.Flat.of_empty (hgen : s.generators = ∅) (hgoals : s.goals.toList = []) :
    s.Flat P facts := by
  have nogen : ∀ {g : Nat} {gen : Generator}, s.generators[g]? = some gen → False := by
    intro g gen h
    rw [hgen] at h
    cases h.symm.trans Std.TreeMap.getElem?_emptyc
  refine ⟨fun h => (nogen h).elim, fun h => ?_, fun h => (nogen h).elim, fun h => (nogen h).elim,
    fun h => (nogen h).elim⟩
  rw [hgoals] at h
  cases h

/-- No table gets a goal, a result or a machine. -/
theorem Session.Flat.stays (h : s.Flat P facts) (hs : s.Grows s') (hgoals : s'.goals = s.goals)
    (hold : ∀ {g : Nat} {gen : Generator}, s.generators[g]? = some gen →
      ∃ gen' : Generator, s'.generators[g]? = some gen')
    (hnew : ∀ {g : Nat} {gen' : Generator}, s'.generators[g]? = some gen' →
      ∃ gen : Generator, s.generators[g]? = some gen ∧ gen'.goal = gen.goal ∧
        gen'.results = gen.results ∧ (gen'.machine = gen.machine ∨ gen'.machine = none)) :
    s'.Flat P facts where
  generator_lt hg := by
    obtain ⟨gen, hgen, -⟩ := hnew hg
    exact Nat.lt_of_lt_of_le (h.generator_lt hgen) hs.nextId_le
  filed hkey := by
    rw [hgoals] at hkey
    obtain ⟨gen, hgen, e⟩ := h.filed hkey
    obtain ⟨gen', hgen'⟩ := hold hgen
    obtain ⟨gen1, hgen1, e1, -⟩ := hnew hgen'
    cases hgen.symm.trans hgen1
    exact ⟨gen', hgen', e1.trans e⟩
  goal hg := by
    obtain ⟨gen, hgen, e, -⟩ := hnew hg
    rw [e]
    exact h.goal hgen
  results hg := by
    obtain ⟨gen, hgen, e1, e2, -⟩ := hnew hg
    rw [e1, e2]
    exact h.results hgen
  machine hg hm := by
    obtain ⟨gen, hgen, e1, -, e2 | e2⟩ := hnew hg
    · rw [e1]
      exact (h.machine hgen (e2 ▸ hm)).grows hs
    · rw [e2] at hm
      cases hm

end

end TabledRules
