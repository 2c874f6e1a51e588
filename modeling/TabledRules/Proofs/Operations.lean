-- What single operations do when their registers are there, and runs of
-- several operations.
import TabledRules.Machine.Registers
import TabledRules.Proofs.Resolution

namespace TabledRules

variable {clause : String} {n : Nat} {r : Registers} {a t : Term} {arg slot temp : Nat}

/-- Runs operations one after the other. -/
def Operation.runAll (clause : String) (n : Nat) : Registers → List Operation →
    Option (Except Failure (Option Registers))
  | r, [] => some (.ok (some r))
  | r, op :: ops =>
    match op.run clause n r with
    | some (.ok (some r)) => runAll clause n r ops
    | other => other

namespace Operation

theorem runAll_append (r : Registers) (ops ops' : List Operation) :
    runAll clause n r (ops ++ ops') =
      match runAll clause n r ops with
      | some (.ok (some r)) => runAll clause n r ops'
      | other => other := by
  induction ops generalizing r with
  | nil => rfl
  | cons op ops ih =>
    rw [List.cons_append, runAll, runAll]
    cases h : op.run clause n r with
    | none => rfl
    | some x =>
      cases x with
      | error e => rfl
      | ok y =>
        cases y with
        | none => rfl
        | some r1 => exact ih r1

@[simp] theorem runAll_nil (r : Registers) : runAll clause n r [] = some (.ok (some r)) := rfl

@[simp] theorem runAll_single (r : Registers) (op : Operation) :
    runAll clause n r [op] = op.run clause n r := by
  rw [runAll]
  split
  · next h => rw [h]; rfl
  · rfl

/-! ## Matching the head -/

theorem run_testBound (ha : r.args[arg]? = some a) :
    (testBound arg).run clause n r = some (.ok (if r.bindings.isBound a then some r else none)) := by
  simp [run, Registers.arg, ha, bind, Except.bind]

theorem run_testUnbound (ha : r.args[arg]? = some a) :
    (testUnbound arg).run clause n r =
      some (.ok (if r.bindings.isBound a then none else some r)) := by
  simp [run, Registers.arg, ha, bind, Except.bind]

theorem run_getVariable (ha : r.args[arg]? = some a) (hs : slot < r.vars.length) :
    (getVariable slot arg).run clause n r =
      some (.ok (some { r with vars := r.vars.set slot (some a) })) := by
  simp [run, Registers.arg, Registers.setVar, ha, hs, bind, Except.bind, Functor.map, Except.map]

theorem run_getTemp (ha : r.args[arg]? = some a) (ht : temp < r.temps.length) :
    (getTemp temp arg).run clause n r =
      some (.ok (some { r with temps := r.temps.set temp (some a) })) := by
  simp [run, Registers.arg, Registers.setTemp, ha, ht, bind, Except.bind, Functor.map, Except.map]

/-- What comes of a unification in the registers. -/
def unified (r : Registers) (x : Option (Option Bindings)) :
    Option (Except Failure (Option Registers)) :=
  x.map fun b => .ok (b.map fun b => { r with bindings := b })

theorem run_getConstant (ha : r.args[arg]? = some a) :
    (getConstant arg t).run clause n r = unified r (r.bindings.unify n a t) := by
  simp [run, Registers.arg, Registers.unify, unified, ha, bind, Except.bind]

theorem run_unifyVariable (ha : r.args[arg]? = some a) (hs : r.vars[slot]? = some (some t)) :
    (unifyVariable slot arg).run clause n r = unified r (r.bindings.unify n a t) := by
  simp [run, Registers.arg, Registers.var, Registers.unify, unified, ha, hs, bind, Except.bind]

theorem run_unifyTemp (ha : r.args[arg]? = some a) (ht : r.temps[temp]? = some (some t)) :
    (unifyTemp temp arg).run clause n r = unified r (r.bindings.unify n a t) := by
  simp [run, Registers.arg, Registers.temp, Registers.unify, unified, ha, ht, bind, Except.bind]

/-! ## Passing arguments -/

theorem run_putNewVariable (hs : slot < r.vars.length) (ha : arg < r.args.length) :
    (putNewVariable slot arg).run clause n r =
      some (.ok (some
        { r with
          bindings := r.bindings.newVar.2
          vars := r.vars.set slot (some (.ref r.bindings.size))
          args := r.args.set arg (.ref r.bindings.size) })) := by
  simp [run, Registers.fresh, Registers.setVar, Registers.setArg, Bindings.newVar, ha, hs, bind,
    Except.bind, Functor.map, Except.map]

theorem run_putVariable (hs : r.vars[slot]? = some (some t)) (ha : arg < r.args.length) :
    (putVariable slot arg).run clause n r = some (.ok (some { r with args := r.args.set arg t })) := by
  simp [run, Registers.var, Registers.setArg, ha, hs, bind, Except.bind, Functor.map, Except.map]

theorem run_putDerefVariable (hs : r.vars[slot]? = some (some t)) (ha : arg < r.args.length) :
    (putDerefVariable slot arg).run clause n r =
      some (.ok (some { r with args := r.args.set arg (r.bindings.deref t) })) := by
  simp [run, Registers.var, Registers.setArg, ha, hs, bind, Except.bind, Functor.map, Except.map]

theorem run_putTemp (ht : r.temps[temp]? = some (some t)) (ha : arg < r.args.length) :
    (putTemp temp arg).run clause n r = some (.ok (some { r with args := r.args.set arg t })) := by
  simp [run, Registers.temp, Registers.setArg, ha, ht, bind, Except.bind, Functor.map, Except.map]

theorem run_putConstant (ha : arg < r.args.length) :
    (putConstant arg t).run clause n r = some (.ok (some { r with args := r.args.set arg t })) := by
  simp [run, Registers.setArg, ha, Functor.map, Except.map]

theorem run_clearArg (ha : arg < r.args.length) :
    (clearArg arg).run clause n r =
      some (.ok (some
        { r with
          bindings := r.bindings.newVar.2
          args := r.args.set arg (.ref r.bindings.size) })) := by
  simp [run, Registers.fresh, Registers.setArg, Bindings.newVar, ha, Functor.map, Except.map]

end Operation

/-! ## Compound objects -/

theorem Registers.argsFrom_eq {ts : List Term} (i : Nat)
    (h : ∀ j (hj : j < ts.length), r.args[i + j]? = some (ts.get ⟨j, hj⟩)) :
    r.argsFrom clause i ts.length = .ok ts := by
  induction ts generalizing i with
  | nil => rfl
  | cons t ts ih =>
    have h0 : r.args[i]? = some t := h 0 (by simp)
    have hrest : r.argsFrom clause (i + 1) ts.length = .ok ts := by
      refine ih (i + 1) fun j hj => ?_
      have := h (j + 1) (by simpa using hj)
      rwa [show i + 1 + j = i + (j + 1) by omega]
    simp [argsFrom, Registers.arg, h0, hrest, bind, Except.bind]

theorem Registers.setArgs_eq {ts : List Term} (r : Registers) (i : Nat)
    (h : i + ts.length ≤ r.args.length) :
    r.setArgs clause i ts =
      .ok { r with args := r.args.take i ++ ts ++ r.args.drop (i + ts.length) } := by
  induction ts generalizing r i with
  | nil => simp [setArgs]
  | cons t ts ih =>
    simp only [List.length_cons] at h
    have hi : i < r.args.length := by omega
    have hstep : r.setArgs clause i (t :: ts) =
        ({ r with args := r.args.set i t } : Registers).setArgs clause (i + 1) ts := by
      simp [setArgs, setArg, hi, bind, Except.bind]
    rw [hstep, ih _ _ (by simp; omega)]
    have htake : (r.args.set i t).take (i + 1) = r.args.take i ++ [t] := by
      rw [List.take_add_one, List.take_set_of_le (Nat.le_refl i)]
      simp [hi]
    have hdrop : (r.args.set i t).drop (i + 1 + ts.length) =
        r.args.drop (i + (t :: ts).length) := by
      rw [List.drop_set_of_lt (by omega), List.length_cons, Nat.add_right_comm, Nat.add_assoc]
    simp only [htake, hdrop, List.append_assoc, List.singleton_append]

theorem Registers.freshen_eq (replaced : Term → Bool) (r : Registers) (ts : List Term) :
    r.freshen replaced ts =
      ((r.bindings.freshen replaced ts).1,
        { r with bindings := (r.bindings.freshen replaced ts).2 }) := by
  induction ts generalizing r with
  | nil => rfl
  | cons t ts ih =>
    by_cases h : replaced t = true
    · simp [freshen, Bindings.freshen, h, fresh, ih, Bindings.newVar]
    · simp [freshen, Bindings.freshen, h, ih]

theorem Bindings.length_freshen (replaced : Term → Bool) (b : Bindings) (ts : List Term) :
    (b.freshen replaced ts).1.length = ts.length := by
  induction ts generalizing b with
  | nil => rfl
  | cons t ts ih => simp only [freshen, List.length_cons, ih]

theorem Bindings.length_openObject {b b' : Bindings} {object : Term} {f : String}
    {ts args : List Term} (h : b.openObject object f ts = some (args, b')) :
    args.length = ts.length := by
  unfold openObject at h
  split at h
  · split at h
    · next heq => cases h; exact heq.2
    · cases h
  · cases h; exact length_freshen ..
  · rw [← length_freshen (fun _ => true) b ts, Option.some.inj h]
  · rw [← length_freshen (fun _ => true) b ts, Option.some.inj h]
  · cases h

/-- Taking an object apart sets the registers of its arguments. -/
theorem Operation.run_getFunctor {shape : Compound} (ha : r.args[2]? = some a)
    (hlen : argBase + shape.args.length ≤ r.args.length) :
    (getFunctor shape).run clause n r = some (.ok
      ((r.bindings.openObject a shape.name shape.args).map fun (args, b) =>
        { r with
          bindings := b
          args := r.args.take argBase ++ args ++ r.args.drop (argBase + args.length) })) := by
  simp only [run, Registers.getFunctor, Registers.arg, ha, bind, Except.bind, Bindings.openObject]
  cases hd : r.bindings.deref a with
  | node x => rfl
  | var x =>
    simp only [Registers.freshen_eq]
    rw [Registers.setArgs_eq _ _ (by simpa [Bindings.length_freshen] using hlen)]
    rfl
  | any =>
    simp only [Registers.freshen_eq]
    rw [Registers.setArgs_eq _ _ (by simpa [Bindings.length_freshen] using hlen)]
    rfl
  | ref v =>
    simp only [Registers.freshen_eq]
    rw [Registers.setArgs_eq _ _ (by simpa [Bindings.length_freshen] using hlen)]
    rfl
  | app g args =>
    simp only
    split
    · next heq =>
      rw [Registers.setArgs_eq _ _ (by omega)]
      rfl
    · rfl

theorem Operation.run_makeFunctor {shape : Compound} {ts : List Term}
    (hts : ts.length = shape.args.length)
    (h : ∀ j (hj : j < ts.length), r.args[argBase + j]? = some (ts.get ⟨j, hj⟩))
    (hlen : 2 < r.args.length) :
    (makeFunctor shape).run clause n r =
      some (.ok (some { r with args := r.args.set 2 (.app shape.name ts) })) := by
  simp only [run, ← hts, Registers.argsFrom_eq argBase h, bind, Except.bind]
  simp [Registers.setArg, hlen, Functor.map, Except.map]

end TabledRules
