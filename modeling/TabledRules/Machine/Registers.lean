-- What the operations of a clause do to registers and bindings.
import TabledRules.Machine

namespace TabledRules

/-- `vars` are the permanent variables of the clause that runs. -/
structure Registers where
  bindings : Bindings
  args : List Term
  temps : List (Option Term)
  vars : List (Option Term)
deriving Inhabited

namespace Registers

/-! ## Reading and writing -/

def arg (clause : String) (r : Registers) (i : Nat) : Except Failure Term :=
  match r.args[i]? with
  | some t => .ok t
  | none => .error (.malformed clause s!"no argument register A{i}")

def setArg (clause : String) (r : Registers) (i : Nat) (t : Term) : Except Failure Registers :=
  if i < r.args.length then .ok { r with args := r.args.set i t }
  else .error (.malformed clause s!"no argument register A{i}")

def temp (clause : String) (r : Registers) (i : Nat) : Except Failure Term :=
  match r.temps[i]?.join with
  | some t => .ok t
  | none => .error (.malformed clause s!"temporary register T{i} not set")

def setTemp (clause : String) (r : Registers) (i : Nat) (t : Term) : Except Failure Registers :=
  if i < r.temps.length then .ok { r with temps := r.temps.set i (some t) }
  else .error (.malformed clause s!"no temporary register T{i}")

def var (clause : String) (r : Registers) (i : Nat) : Except Failure Term :=
  match r.vars[i]?.join with
  | some t => .ok t
  | none => .error (.malformed clause s!"permanent variable Y{i} not set")

def setVar (clause : String) (r : Registers) (i : Nat) (t : Term) : Except Failure Registers :=
  if i < r.vars.length then .ok { r with vars := r.vars.set i (some t) }
  else .error (.malformed clause s!"no permanent variable Y{i}")

/-- Sets the arguments from `i` on. -/
def setArgs (clause : String) (r : Registers) (i : Nat) : List Term → Except Failure Registers
  | [] => .ok r
  | t :: ts => do
    let r ← r.setArg clause i t
    r.setArgs clause (i + 1) ts

/-- The arguments from `i` on, `n` of them. -/
def argsFrom (clause : String) (r : Registers) (i : Nat) : Nat → Except Failure (List Term)
  | 0 => .ok []
  | n + 1 => do
    let t ← r.arg clause i
    let ts ← r.argsFrom clause (i + 1) n
    .ok (t :: ts)

/-- A variable that nothing else names. -/
def fresh (r : Registers) : Term × Registers :=
  let (t, b) := r.bindings.newVar
  (t, { r with bindings := b })

/-- Puts a new variable in the place of every term that `replaced` picks. -/
def freshen (replaced : Term → Bool) (r : Registers) : List Term → List Term × Registers
  | [] => ([], r)
  | t :: ts =>
    let (t, r) := if replaced t then r.fresh else (t, r)
    let (ts, r) := r.freshen replaced ts
    (t :: ts, r)

/-- Unifies two terms, if they can be read; nothing comes of it if they do not match. -/
def unify (n : Nat) (r : Registers) :
    Except Failure (Term × Term) → Option (Except Failure (Option Registers))
  | .error e => some (.error e)
  | .ok (l, t) =>
    (r.bindings.unify n l t).map fun b => .ok (b.map fun b => { r with bindings := b })

/-- Takes a compound object apart, or builds one in the place of a variable. -/
def getFunctor (clause : String) (r : Registers) (shape : Compound) :
    Except Failure (Option Registers) := do
  match r.bindings.deref (← r.arg clause 2) with
  | .app name args =>
    if name = shape.name ∧ args.length = shape.args.length then
      some <$> r.setArgs clause argBase args
    else .ok none
  | .ref v =>
    let (args, r) := r.freshen Term.isVar shape.args
    let r ← r.setArgs clause argBase args
    .ok (some { r with bindings := r.bindings.bind v (.app shape.name args) })
  | .any | .var _ =>
    let (args, r) := r.freshen (fun _ => true) shape.args
    some <$> r.setArgs clause argBase args
  | .node _ => .ok none

end Registers

/-- One operation. It has no outcome if a unification goes deeper than `n` terms. The
outcome `none` means that it fails, so that the machine goes back. -/
def Operation.run (clause : String) (n : Nat) (r : Registers) :
    Operation → Option (Except Failure (Option Registers))
  | .testBound arg => some do
    .ok (if r.bindings.isBound (← r.arg clause arg) then some r else none)
  | .testUnbound arg => some do
    .ok (if r.bindings.isBound (← r.arg clause arg) then none else some r)
  | .getVariable slot arg => some do some <$> r.setVar clause slot (← r.arg clause arg)
  | .getTemp temp arg => some do some <$> r.setTemp clause temp (← r.arg clause arg)
  | .getConstant arg constant => r.unify n do .ok (← r.arg clause arg, constant)
  | .getFunctor shape => some (r.getFunctor clause shape)
  | .unifyVariable slot arg => r.unify n do .ok (← r.arg clause arg, ← r.var clause slot)
  | .unifyTemp temp arg => r.unify n do .ok (← r.arg clause arg, ← r.temp clause temp)
  | .putNewVariable slot arg => some do
    let (t, r) := r.fresh
    let r ← r.setVar clause slot t
    some <$> r.setArg clause arg t
  | .putVariable slot arg => some do some <$> r.setArg clause arg (← r.var clause slot)
  | .putDerefVariable slot arg => some do
    some <$> r.setArg clause arg (r.bindings.deref (← r.var clause slot))
  | .putTemp temp arg => some do some <$> r.setArg clause arg (← r.temp clause temp)
  | .putConstant arg constant => some do some <$> r.setArg clause arg constant
  | .clearArg arg => some do
    let (t, r) := r.fresh
    some <$> r.setArg clause arg t
  | .makeFunctor shape => some do
    let args ← r.argsFrom clause argBase shape.args.length
    some <$> r.setArg clause 2 (.app shape.name args)

end TabledRules
