-- Builtins: tests and functions that a rule's body can call.
import TabledRules.Bindings
import TabledRules.Graph
import TabledRules.Rule

namespace TabledRules

/-- What a builtin can look at. `depth` says how many terms inside each other it may
follow. -/
structure CallContext where
  bindings : Bindings
  depth : Nat
  store : Store
  /-- The rule whose body is running. -/
  rule : Option Rule

/-- A builtin that answers `some pairs` succeeds if the pairs of terms unify, and one
that answers `none` fails. One that follows a value without end has no answer. -/
structure Builtin where
  name : String
  /-- How many arguments it takes; zero for any number. -/
  arity : Nat := 0
  call : CallContext → List Term → Option (Except Failure (Option (List (Term × Term))))

namespace CallContext

def deref (c : CallContext) (t : Term) : Option Term := c.bindings.deepDeref c.depth t

def isBound (c : CallContext) (t : Term) : Bool := c.bindings.isBound t

def integer? (c : CallContext) (t : Term) : Option (Option Int64) := (c.deref t).map Term.integer?

/-- The failure of a builtin, which names the rule it was called in. -/
def fault (c : CallContext) (builtin detail : String) : Failure :=
  match c.rule with
  | some r => .runtime (.builtin builtin (detail ++ " (in rule " ++ r.name ++ ")"))
  | none => .runtime (.builtin builtin detail)

end CallContext

namespace Builtin

/-- Runs a builtin. If it succeeds there are new bindings. -/
def run (f : Builtin) (n : Nat) (store : Store) (rule : Option Rule) (b : Bindings)
    (args : List Term) : Option (Except Failure (Option Bindings)) :=
  match f.call ⟨b, n, store, rule⟩ args with
  | none => none
  | some (.error e) => some (.error e)
  | some (.ok none) => some (.ok none)
  | some (.ok (some pairs)) => (b.unifyAll n (pairs.map (·.1)) (pairs.map (·.2))).map .ok

/-- A builtin that only tests its arguments. -/
def test (name : String) (arity : Nat) (holds : CallContext → List Term → Option Bool) : Builtin :=
  { name, arity
    call := fun c args => (holds c args).map fun yes => .ok (if yes then some [] else none) }

end Builtin

/-! ## Registries -/

/-- Builtins by name; a name stands once. -/
structure Registry where
  builtins : List Builtin := []

namespace Registry

/-- Adds a builtin in the place of one with the same name. -/
def register (r : Registry) (f : Builtin) : Registry :=
  { builtins := r.builtins.filter (·.name ≠ f.name) ++ [f] }

def get? (r : Registry) (name : String) : Option Builtin := r.builtins.find? (·.name = name)

def names (r : Registry) : List String := (r.builtins.map Builtin.name).mergeSort

def render (r : Registry) : String :=
  "BuiltinRegistry \x7b builtins: [" ++ ", ".intercalate (r.names.map Text.quote) ++ "] \x7d"

end Registry

end TabledRules
