-- Operations in a row, as a machine runs them: it goes on after the last of
-- them, or goes back where one fails.
import TabledRules.Machine.Step
import TabledRules.Proofs.BodyCode

namespace TabledRules

/-! ## Operations in a row -/

theorem ok_of_bind {ε α β : Type} {x : Except ε α} {f : α → Except ε β} {b : β}
    (h : x >>= f = .ok b) : ∃ a, x = .ok a ∧ f a = .ok b := by
  cases x with
  | error e => cases h
  | ok a => exact ⟨a, rfl, h⟩

theorem ok_of_map {ε α β : Type} {x : Except ε α} {f : α → β} {b : β}
    (h : f <$> x = .ok b) : ∃ a, x = .ok a ∧ f a = b := by
  cases x with
  | error e => cases h
  | ok a => exact ⟨a, rfl, Except.ok.inj h⟩

namespace Operation

variable {clause : String} {n k : Nat} {g g' : Registers}

/-- No operation changes how many registers there are. -/
structure SameSizes (g g' : Registers) : Prop where
  args : g'.args.length = g.args.length
  temps : g'.temps.length = g.temps.length

theorem SameSizes.refl (g : Registers) : SameSizes g g := ⟨rfl, rfl⟩

theorem SameSizes.trans {g'' : Registers} (h : SameSizes g g') (h' : SameSizes g' g'') :
    SameSizes g g'' := ⟨h'.args.trans h.args, h'.temps.trans h.temps⟩

theorem sizes_setArg {i : Nat} {t : Term} (h : g.setArg clause i t = .ok g') : SameSizes g g' := by
  unfold Registers.setArg at h
  split at h
  · cases h; exact ⟨by simp, rfl⟩
  · cases h

theorem sizes_setTemp {i : Nat} {t : Term} (h : g.setTemp clause i t = .ok g') :
    SameSizes g g' := by
  unfold Registers.setTemp at h
  split at h
  · cases h; exact ⟨rfl, by simp⟩
  · cases h

theorem sizes_setVar {i : Nat} {t : Term} (h : g.setVar clause i t = .ok g') : SameSizes g g' := by
  unfold Registers.setVar at h
  split at h
  · cases h; exact ⟨rfl, rfl⟩
  · cases h

theorem sizes_setArgs {i : Nat} {ts : List Term} (h : g.setArgs clause i ts = .ok g') :
    SameSizes g g' := by
  induction ts generalizing g i with
  | nil => cases h; exact .refl _
  | cons t ts ih =>
    obtain ⟨g1, h1, h2⟩ := ok_of_bind h
    exact (sizes_setArg h1).trans (ih h2)

theorem sizes_freshen (replaced : Term → Bool) (g : Registers) (ts : List Term) :
    SameSizes g (g.freshen replaced ts).2 := by
  rw [Registers.freshen_eq]
  exact ⟨rfl, rfl⟩

theorem sizes_getFunctor {shape : Compound} (h : g.getFunctor clause shape = .ok (some g')) :
    SameSizes g g' := by
  obtain ⟨a, -, h⟩ := ok_of_bind h
  split at h
  · split at h
    · obtain ⟨g1, h1, h2⟩ := ok_of_map h
      cases h2
      exact sizes_setArgs h1
    · cases h
  · obtain ⟨g1, h1, h2⟩ := ok_of_bind h
    cases h2
    have := (sizes_freshen Term.isVar g shape.args).trans (sizes_setArgs h1)
    exact ⟨this.args, this.temps⟩
  · obtain ⟨g1, h1, h2⟩ := ok_of_map h
    cases h2
    exact (sizes_freshen _ g shape.args).trans (sizes_setArgs h1)
  · obtain ⟨g1, h1, h2⟩ := ok_of_map h
    cases h2
    exact (sizes_freshen _ g shape.args).trans (sizes_setArgs h1)
  · cases h

theorem sizes_unify {x : Except Failure (Term × Term)}
    (h : g.unify n x = some (.ok (some g'))) : SameSizes g g' := by
  rcases x with e | ⟨l, t⟩
  · cases h
  · obtain ⟨b, -, hb⟩ := Option.map_eq_some_iff.1 h
    cases b with
    | none => cases hb
    | some b => cases hb; exact ⟨rfl, rfl⟩

theorem sizes_run {op : Operation} (h : op.run clause n g = some (.ok (some g'))) :
    SameSizes g g' := by
  cases op with
  | testBound arg =>
    obtain ⟨a, -, h⟩ := ok_of_bind (Option.some.inj h)
    split at h
    · cases h; exact .refl _
    · cases h
  | testUnbound arg =>
    obtain ⟨a, -, h⟩ := ok_of_bind (Option.some.inj h)
    split at h
    · cases h
    · cases h; exact .refl _
  | getVariable slot arg =>
    obtain ⟨a, -, h⟩ := ok_of_bind (Option.some.inj h)
    obtain ⟨g1, h1, h2⟩ := ok_of_map h
    cases h2
    exact sizes_setVar h1
  | getTemp temp arg =>
    obtain ⟨a, -, h⟩ := ok_of_bind (Option.some.inj h)
    obtain ⟨g1, h1, h2⟩ := ok_of_map h
    cases h2
    exact sizes_setTemp h1
  | getConstant arg constant => exact sizes_unify h
  | getFunctor shape => exact sizes_getFunctor (Option.some.inj h)
  | unifyVariable slot arg => exact sizes_unify h
  | unifyTemp temp arg => exact sizes_unify h
  | putNewVariable slot arg =>
    obtain ⟨g1, h1, h⟩ := ok_of_bind (Option.some.inj h)
    obtain ⟨g2, h2, h3⟩ := ok_of_map h
    cases h3
    have := (sizes_setVar h1).trans (sizes_setArg h2)
    exact ⟨this.args, this.temps⟩
  | putVariable slot arg | putDerefVariable slot arg | putTemp temp arg =>
    obtain ⟨a, -, h⟩ := ok_of_bind (Option.some.inj h)
    obtain ⟨g1, h1, h2⟩ := ok_of_map h
    cases h2
    exact sizes_setArg h1
  | putConstant arg constant =>
    obtain ⟨g1, h1, h2⟩ := ok_of_map (Option.some.inj h)
    cases h2
    exact sizes_setArg h1
  | clearArg arg =>
    obtain ⟨g1, h1, h2⟩ := ok_of_map (Option.some.inj h)
    cases h2
    have := sizes_setArg h1
    exact ⟨this.args, this.temps⟩
  | makeFunctor shape =>
    obtain ⟨a, -, h⟩ := ok_of_bind (Option.some.inj h)
    obtain ⟨g1, h1, h2⟩ := ok_of_map h
    cases h2
    exact sizes_setArg h1

theorem sizes_runAll {ops : List Operation} (h : runAll clause n g ops = some (.ok (some g'))) :
    SameSizes g g' := by
  induction ops generalizing g with
  | nil => cases h; exact .refl _
  | cons op ops ih =>
    rw [runAll] at h
    split at h
    · next h1 => exact (sizes_run h1).trans (ih h)
    · next hne => exact absurd h (hne g')

/-! More depth changes no outcome. -/

theorem unify_mono {x : Except Failure (Term × Term)} (hnk : n ≤ k)
    {y : Except Failure (Option Registers)} (h : g.unify n x = some y) : g.unify k x = some y := by
  rcases x with e | ⟨l, t⟩
  · exact h
  · obtain ⟨b, hb, hy⟩ := Option.map_eq_some_iff.1 h
    exact Option.map_eq_some_iff.2 ⟨b, Bindings.unify_mono hnk hb, hy⟩

theorem run_mono {op : Operation} (hnk : n ≤ k) {y : Except Failure (Option Registers)}
    (h : op.run clause n g = some y) : op.run clause k g = some y := by
  cases op with
  | getConstant arg constant => exact unify_mono hnk h
  | unifyVariable slot arg => exact unify_mono hnk h
  | unifyTemp temp arg => exact unify_mono hnk h
  | _ => exact h

theorem runAll_mono {ops : List Operation} (hnk : n ≤ k) {y : Except Failure (Option Registers)}
    (h : runAll clause n g ops = some y) : runAll clause k g ops = some y := by
  induction ops generalizing g with
  | nil => exact h
  | cons op ops ih =>
    rw [runAll] at h ⊢
    cases h1 : op.run clause n g with
    | none => rw [h1] at h; cases h
    | some x =>
      rw [h1] at h
      rw [run_mono hnk h1]
      rcases x with e | _ | g1
      · exact h
      · exact h
      · exact ih h

end Operation

/-! ## Operations of a machine -/

@[simp] theorem Env.setVars_setVars (env : Env) (a b : List (Option Term)) :
    (env.setVars a).setVars b = env.setVars b := by
  cases env <;> rfl

@[simp] theorem Env.id_setVars (env : Env) (a : List (Option Term)) :
    (env.setVars a).id = env.id := by
  cases env <;> rfl

@[simp] theorem Env.name_setVars (env : Env) (a : List (Option Term)) :
    (env.setVars a).name = env.name := by
  cases env <;> rfl

/-- Everything of an environment that its code cannot change. -/
def Env.IsFrame (env : Env) : Prop := ∃ id clause vars caller code commit,
  env = .frame id clause vars caller code commit

theorem Env.IsFrame.vars_setVars {env : Env} (h : env.IsFrame) (a : List (Option Term)) :
    (env.setVars a).vars = a := by
  obtain ⟨_, _, _, _, _, _, rfl⟩ := h
  rfl

theorem Env.IsFrame.setVars {env : Env} (h : env.IsFrame) (a : List (Option Term)) :
    (env.setVars a).IsFrame := by
  obtain ⟨id, clause, _, caller, code, commit, rfl⟩ := h
  exact ⟨id, clause, a, caller, code, commit, rfl⟩

namespace Machine

/-- The registers of a machine while it runs in an environment. -/
def registers (env : Env) (m : Machine) : Registers := ⟨m.bindings, m.args, m.temps, env.vars⟩

/-- The machine with other registers. -/
def load (g : Registers) (m : Machine) : Machine :=
  { m with bindings := g.bindings, args := g.args, temps := g.temps }

@[simp] theorem load_registers (env : Env) (m : Machine) : m.load (m.registers env) = m := rfl

@[simp] theorem load_load (g g' : Registers) (m : Machine) : (m.load g).load g' = m.load g' := rfl

variable {w : World} {n f : Nat} {env : Env} {code : List Instruction} {m : Machine} {s : Session}
  {out : Except Failure (Option Triple) × Machine × Session}

theorem run_operation (hroom : env.id < m.envs) (op : Operation) :
    run w (f + 1) (.run env (.operation op :: code)) m s =
      match op.run env.name f (m.registers env) with
      | none => none
      | some (.error e) => some (.error e, m, s)
      | some (.ok none) => run w f .backtrack m (s.note (.clauseFailed env.name))
      | some (.ok (some g)) => run w f (.run (env.setVars g.vars) code) (m.load g) s := by
  obtain ⟨x, hx⟩ : ∃ x, op.run env.name f (m.registers env) = x := ⟨_, rfl⟩
  have hop : op.run env.name f ⟨m.bindings, m.args, m.temps, env.vars⟩ = x := hx
  rw [run, hx]
  simp only [step, if_neg (Nat.not_le.2 hroom), execute, operate, fail, hop]
  rcases x with _ | e | _ | g <;> rfl

/-- A run that begins with operations goes on after them, or goes back where one of them
fails. -/
theorem run_operations (henv : env.IsFrame) (hroom : env.id < m.envs) (ops : List Operation)
    (h : run w f (.run env (ops.map .operation ++ code)) m s = some out) :
    (∃ g, ∃ f' ≤ f, Operation.runAll env.name f (m.registers env) ops = some (.ok (some g)) ∧
      run w f' (.run (env.setVars g.vars) code) (m.load g) s = some out) ∨
    (∃ e, Operation.runAll env.name f (m.registers env) ops = some (.error e)) ∨
    (Operation.runAll env.name f (m.registers env) ops = some (.ok none) ∧
      ∃ g, ∃ f' < f, Operation.SameSizes (m.registers env) g ∧
        run w f' .backtrack (m.load g) (s.note (.clauseFailed env.name)) = some out) := by
  induction ops generalizing f env m with
  | nil =>
    refine .inl ⟨m.registers env, f, Nat.le_refl f, rfl, ?_⟩
    have hset : env.setVars (m.registers env).vars = env := by
      cases env <;> rfl
    rw [hset]
    exact h
  | cons op ops ih =>
    cases f with
    | zero => cases h
    | succ f =>
      rw [List.map_cons, List.cons_append, run_operation hroom] at h
      have hmono : ∀ y, op.run env.name f (m.registers env) = some y →
          op.run env.name (f + 1) (m.registers env) = some y :=
        fun _ => Operation.run_mono (Nat.le_succ f)
      cases hop : op.run env.name f (m.registers env) with
      | none => rw [hop] at h; cases h
      | some x =>
        rw [hop] at h
        have hop' := hmono _ hop
        rcases x with e | _ | g
        · exact .inr (.inl ⟨e, by rw [Operation.runAll, hop']⟩)
        · exact .inr (.inr ⟨by rw [Operation.runAll, hop'], m.registers env, f,
            Nat.lt_succ_self f, .refl _, h⟩)
        · have hnext : (m.load g).registers (env.setVars g.vars) = g := by
            unfold registers
            rw [henv.vars_setVars]
            rfl
          have hrest := ih (henv.setVars g.vars) (by rwa [Env.id_setVars]) h
          rw [Env.name_setVars] at hrest
          have hall : ∀ y, Operation.runAll env.name f g ops = some y →
              Operation.runAll env.name (f + 1) (m.registers env) (op :: ops) = some y := by
            intro y hy
            rw [Operation.runAll, hop']
            exact Operation.runAll_mono (Nat.le_succ f) hy
          rw [hnext] at hrest
          rcases hrest with ⟨g', f', hf', hall', hrun'⟩ | ⟨e, he⟩ | ⟨hnone, g', f', hf', hsz, hrun'⟩
          · refine .inl ⟨g', f', by omega, hall _ hall', ?_⟩
            simpa using hrun'
          · exact .inr (.inl ⟨e, hall _ he⟩)
          · exact .inr (.inr ⟨hall _ hnone, g', f', by omega, (Operation.sizes_run hop).trans hsz,
              by simpa using hrun'⟩)

end Machine

end TabledRules
