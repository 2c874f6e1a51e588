-- What an environment and its code stand for: the frames of resolution, with
-- the rules that were taken up, the values of their variables and what is
-- left of their bodies.
import TabledRules.Proofs.OperationRuns

namespace TabledRules

/-- The world in which the machines of a program run. -/
def Program.world (P : Program) (settings : Settings) : World :=
  ⟨P.store, P.rules, settings⟩

/-- An environment at a point where a goal is called, or after it. -/
inductive Models (P : Program) : Env → List Instruction → List Frame → Prop
  | root : Models P .root [.proceed] []
  | frame {i : Nat} {cl : Clause} {vars : List (Option Term)} {caller : Env}
    {back code : List Instruction} {commit : Option Nat} {known : List String} {θ : Values} {es : List Entry}
    {fs : List Frame} : cl ∈ P.rules.clauses.toList → es <:+ cl.rule.steps →
    cl.rule.Rest P.rules.layout P.registry known es code → cl.rule.Later known θ es vars →
    Models P caller back fs →
    Models P (.frame i cl vars caller back commit) code (⟨cl.rule, θ, es⟩ :: fs)

/-- A machine that stands at an entry of a body. Right after a head the arguments and the
temporary registers count as well. -/
inductive Running (P : Program) (m : Machine) : Env → List Instruction → List Frame → Prop
  | root : Running P m .root [.proceed] []
  | frame {i : Nat} {cl : Clause} {vars : List (Option Term)} {caller : Env}
    {back code : List Instruction} {commit : Option Nat} {known : List String} {θ : Values} {es : List Entry}
    {fs : List Frame} : cl ∈ P.rules.clauses.toList → es <:+ cl.rule.steps →
    cl.rule.Rest P.rules.layout P.registry known es code →
    cl.rule.Stands known θ es (m.registers (.frame i cl vars caller back commit)) →
    Models P caller back fs →
    Running P m (.frame i cl vars caller back commit) code (⟨cl.rule, θ, es⟩ :: fs)

variable {P : Program} {m : Machine} {env : Env} {code : List Instruction} {fs : List Frame}

theorem Models.running (h : Models P env code fs) (m : Machine) : Running P m env code fs := by
  cases h with
  | root => exact .root
  | frame hcl hes hrest hlater hcaller =>
    exact .frame hcl hes hrest (hlater.stands m.bindings m.args m.temps) hcaller

/-! ## Code up to the next call -/

/-- The operations before the first other instruction are uniquely determined. -/
theorem operations_unique {ops ops' : List Operation} {i i' : Instruction}
    {code code' : List Instruction} (hi : ∀ op, i ≠ .operation op) (hi' : ∀ op, i' ≠ .operation op)
    (h : ops.map Instruction.operation ++ i :: code = ops'.map Instruction.operation ++ i' :: code') :
    ops = ops' ∧ i = i' ∧ code = code' := by
  induction ops generalizing ops' with
  | nil =>
    cases ops' with
    | nil => cases h; exact ⟨rfl, rfl, rfl⟩
    | cons op ops' => cases h; exact absurd rfl (hi op)
  | cons op ops ih =>
    cases ops' with
    | nil => cases h; exact absurd rfl (hi' op)
    | cons op' ops' =>
      simp only [List.map_cons, List.cons_append, List.cons.injEq] at h
      obtain ⟨h1, h2⟩ := h
      cases h1
      obtain ⟨rfl, rfl, rfl⟩ := ih h2
      exact ⟨rfl, rfl, rfl⟩

theorem entryFault_of_suffix (hP : P.Compiled) {cl : Clause} (hcl : cl ∈ P.rules.clauses.toList)
    {es : List Entry} (hes : es <:+ cl.rule.steps) :
    ∀ e ∈ es, cl.rule.entryFault P.registry e = none := by
  intro e he
  have hf := (hP cl hcl).1
  unfold Rule.fault? at hf
  exact List.findSome?_eq_none_iff.1 (Option.or_eq_none_iff.1 (Option.or_eq_none_iff.1 hf).2).2 e
    (hes.subset he)

theorem ne_proceed_of_operations {ops : List Operation} {i : Instruction} {code : List Instruction}
    (hi : ∀ op, i ≠ .operation op) (hne : i ≠ .proceed) :
    ops.map Instruction.operation ++ i :: code ≠ [.proceed] := by
  intro h
  have hcode : ops.map Instruction.operation ++ i :: code =
      ([] : List Operation).map Instruction.operation ++ .proceed :: [] := h
  exact hne (operations_unique hi (by simp) hcode).2.1

/-- The shapes of code at an entry of a body. -/
theorem Running.shape (hP : P.Compiled) (hargs : m.args.length = maxArguments)
    (h : Running P m env code fs) :
    env = .root ∧ code = [.proceed] ∨
    env.IsFrame ∧ (code = [.proceed] ∨
      (∃ ops i code', code = ops.map .operation ++ i :: code' ∧
        ((∃ c, i = .call c) ∨ ∃ f arity, i = .builtin f arity ∧ arity ≤ maxArguments) ∧
        ∀ n, ∃ g, Operation.runAll env.name n (m.registers env) ops = some (.ok (some g)))) := by
  cases h with
  | root => exact .inl ⟨rfl, rfl⟩
  | @frame i cl vars caller back code commit known θ es fs hcl hes hrest hstands hcaller =>
    refine .inr ⟨⟨_, _, _, _, _, _, rfl⟩, ?_⟩
    have hfault := entryFault_of_suffix hP hcl hes
    cases es with
    | nil => exact .inl (rest_nil hrest)
    | cons e es =>
      cases e with
      | triple pattern =>
        obtain ⟨ops, known', code', rfl, -, hops⟩ := rest_goal hrest hfault
        refine .inr ⟨ops, _, code', rfl, .inl ⟨_, rfl⟩, fun n => ?_⟩
        obtain ⟨args, vars', hrun, -⟩ := hops n θ _ hstands hargs _ _ _ rfl
        exact ⟨_, hrun⟩
      | builtin c =>
        obtain ⟨f, ops, known', code', -, rfl, hlen, -, hops⟩ := rest_builtin hrest hfault
        refine .inr ⟨ops, _, code', rfl, .inr ⟨f, _, rfl, hlen⟩, fun n => ?_⟩
        obtain ⟨args, vars', hrun, -⟩ := hops n θ _ hstands hargs _ _ _ rfl
        exact ⟨_, hrun⟩

/-- Code that calls a goal is that of a triple pattern, and after its operations the goal
is in the arguments. -/
theorem Running.call (hP : P.Compiled) (hargs : m.args.length = maxArguments)
    {ops : List Operation} {c : Call} {code' : List Instruction}
    (h : Running P m env (ops.map .operation ++ .call c :: code') fs) :
    ∃ r θ pattern es fs', fs = ⟨r, θ, .triple pattern :: es⟩ :: fs' ∧ c = P.callFor r pattern ∧
      ∀ n g, Operation.runAll env.name n (m.registers env) ops = some (.ok (some g)) →
      ∃ goal θ', r.putGoal θ m.bindings pattern = (goal, θ', g.bindings) ∧
        g.args.length = maxArguments ∧ g.args.take 3 = goal.terms ∧ g.temps = m.temps ∧
        Models P (env.setVars g.vars) code' (⟨r, θ', es⟩ :: fs') := by
  generalize hcode : ops.map Instruction.operation ++ .call c :: code' = code at h
  cases h with
  | root =>
    exact absurd hcode (ne_proceed_of_operations (by simp) (by simp))
  | @frame i cl vars caller back code commit known θ es fs hcl hes hrest hstands hcaller =>
    have hfault := entryFault_of_suffix hP hcl hes
    cases es with
    | nil =>
      obtain rfl := rest_nil hrest
      exact absurd hcode (ne_proceed_of_operations (by simp) (by simp))
    | cons e es =>
      cases e with
      | builtin b =>
        obtain ⟨f, ops', known', code'', -, rfl, -⟩ := rest_builtin hrest hfault
        obtain ⟨-, h, -⟩ := operations_unique (by simp) (by simp) hcode
        cases h
      | triple pattern =>
        obtain ⟨ops', known', code'', rfl, hrest', hops⟩ := rest_goal hrest hfault
        obtain ⟨rfl, h, rfl⟩ := operations_unique (by simp) (by simp) hcode
        cases h
        refine ⟨_, θ, pattern, es, fs, rfl, rfl, fun n g hg => ?_⟩
        rcases hput : cl.rule.putGoal θ m.bindings pattern with ⟨goal, θ', b'⟩
        obtain ⟨args, vars', hrun, hlen, htake, hlater⟩ := hops n θ _ hstands hargs goal θ' b' hput
        obtain rfl : (⟨b', args, m.temps, vars'⟩ : Registers) = g := by
          have := hrun.symm.trans hg
          simpa [Machine.registers] using this
        refine ⟨goal, θ', rfl, hlen, htake, rfl, ?_⟩
        exact .frame hcl ((List.suffix_cons _ _).trans hes) hrest' hlater hcaller

/-- Code that calls a builtin has its arguments in the first registers. -/
theorem Running.builtin (hP : P.Compiled) (hargs : m.args.length = maxArguments)
    {ops : List Operation} {f : Builtin} {arity : Nat} {code' : List Instruction}
    (h : Running P m env (ops.map .operation ++ .builtin f arity :: code') fs) :
    ∃ r θ c es fs', fs = ⟨r, θ, .builtin c :: es⟩ :: fs' ∧ P.registry.get? c.name = some f ∧
      env.rule? = some r ∧
      ∀ n g, Operation.runAll env.name n (m.registers env) ops = some (.ok (some g)) →
      ∃ us θ', r.putLeaves true θ m.bindings c.args = (us, θ', g.bindings) ∧
        g.args.length = maxArguments ∧ g.args.take arity = us ∧ g.temps = m.temps ∧
        Models P (env.setVars g.vars) code' (⟨r, θ', es⟩ :: fs') := by
  generalize hcode : ops.map Instruction.operation ++ .builtin f arity :: code' = code at h
  cases h with
  | root =>
    exact absurd hcode (ne_proceed_of_operations (by simp) (by simp))
  | @frame i cl vars caller back code commit known θ es fs hcl hes hrest hstands hcaller =>
    have hfault := entryFault_of_suffix hP hcl hes
    cases es with
    | nil =>
      obtain rfl := rest_nil hrest
      exact absurd hcode (ne_proceed_of_operations (by simp) (by simp))
    | cons e es =>
      cases e with
      | triple pattern =>
        obtain ⟨ops', known', code'', rfl, -⟩ := rest_goal hrest hfault
        obtain ⟨-, h, -⟩ := operations_unique (by simp) (by simp) hcode
        cases h
      | builtin c =>
        obtain ⟨f', ops', known', code'', hget, rfl, hlen, hrest', hops⟩ :=
          rest_builtin hrest hfault
        obtain ⟨rfl, h, rfl⟩ := operations_unique (by simp) (by simp) hcode
        cases h
        refine ⟨_, θ, c, es, fs, rfl, hget, rfl, fun n g hg => ?_⟩
        rcases hput : cl.rule.putLeaves true θ m.bindings c.args with ⟨us, θ', b'⟩
        obtain ⟨args, vars', hrun, hlen, htake, hlater⟩ := hops n θ _ hstands hargs us θ' b' hput
        obtain rfl : (⟨b', args, m.temps, vars'⟩ : Registers) = g := by
          have := hrun.symm.trans hg
          simpa [Machine.registers] using this
        refine ⟨us, θ', rfl, hlen, htake, rfl, ?_⟩
        exact .frame hcl ((List.suffix_cons _ _).trans hes) hrest' hlater hcaller

/-- Code that only proceeds is at the end of a body. -/
theorem Running.leave (hP : P.Compiled) {i : Nat} {cl : Clause} {vars : List (Option Term)} {caller : Env}
    {back : List Instruction} {commit : Option Nat}
    (h : Running P m (.frame i cl vars caller back commit) [.proceed] fs) :
    ∃ r θ fs', fs = ⟨r, θ, []⟩ :: fs' ∧ Models P caller back fs' := by
  generalize hcode : [Instruction.proceed] = code at h
  cases h with
  | @frame i cl vars caller back code commit known θ es fs hcl hes hrest hstands hcaller =>
    have hfault := entryFault_of_suffix hP hcl hes
    cases es with
    | nil => exact ⟨_, θ, fs, rfl, hcaller⟩
    | cons e es =>
      cases e with
      | triple pattern =>
        obtain ⟨ops', known', code'', rfl, -⟩ := rest_goal hrest hfault
        exact absurd hcode.symm (ne_proceed_of_operations (by simp) (by simp))
      | builtin c =>
        obtain ⟨f', ops', known', code'', hget, rfl, -⟩ := rest_builtin hrest hfault
        exact absurd hcode.symm (ne_proceed_of_operations (by simp) (by simp))

theorem Running.root_frames {code : List Instruction} (h : Running P m .root code fs) : fs = [] := by
  cases h
  rfl

end TabledRules
