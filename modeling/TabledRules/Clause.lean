-- The code of a rule. A clause works on three sets of registers: arguments
-- (0 to 2 hold subject, predicate and object of a call, from 3 on stand the
-- arguments of a compound object), temporaries, and the permanent
-- variables of its environment.
import TabledRules.Builtin

namespace TabledRules

/-! ## The sizes of the register sets -/

def maxPermanents : Nat := 15
def maxArguments : Nat := 8
def maxTemporaries : Nat := 8

/-- The register of the first argument of a compound object. -/
def argBase : Nat := 3

/-! ## Instructions -/

/-- An instruction that only looks at registers and bindings. -/
inductive Operation where
  /-- Fails unless the argument has a value. -/
  | testBound (arg : Nat)
  /-- Fails if the argument has a value. -/
  | testUnbound (arg : Nat)
  /-- The first time a permanent variable is met. -/
  | getVariable (slot arg : Nat)
  /-- The first time a temporary variable is met. -/
  | getTemp (temp arg : Nat)
  | getConstant (arg : Nat) (constant : Term)
  /-- Takes the object apart into its arguments, or builds it if it is unbound. -/
  | getFunctor (shape : Compound)
  | unifyVariable (slot arg : Nat)
  | unifyTemp (temp arg : Nat)
  /-- Makes a variable and passes it. -/
  | putNewVariable (slot arg : Nat)
  | putVariable (slot arg : Nat)
  /-- Passes the value of a permanent variable to a builtin. -/
  | putDerefVariable (slot arg : Nat)
  | putTemp (temp arg : Nat)
  | putConstant (arg : Nat) (constant : Term)
  /-- Passes a variable that nothing else names. -/
  | clearArg (arg : Nat)
  /-- Makes a compound object of the arguments. -/
  | makeFunctor (shape : Compound)
deriving DecidableEq, Inhabited

/-- How a goal of the body is solved. -/
inductive Call where
  /-- By the store and the clauses of a predicate. -/
  | predicate (predicate : Term)
  /-- The same, from a clause without permanent variables. -/
  | lastPredicate (predicate : Term)
  /-- The same, where a known object narrows down the clauses. -/
  | predicateIndex (predicate : Term)
  /-- By the store alone. -/
  | tripleMatch
  /-- By the results of a table. -/
  | tabled
  /-- By whatever fits the predicate once it is known. -/
  | wildTabled
deriving DecidableEq, Inhabited

inductive Instruction where
  | operation (operation : Operation)
  | call (call : Call)
  | builtin (builtin : Builtin) (arity : Nat)
  | proceed

/-- The code of one rule. `id` is its place among the rules. -/
structure Clause where
  id : Nat
  rule : Rule
  code : List Instruction
  /-- The number of its permanent variables. -/
  permanents : Nat

def Clause.name (c : Clause) : String := c.rule.name

/-! ## Listings -/

def Compound.shape (c : Compound) : String := s!"{c.name}/{c.args.length}"

def Operation.render : Operation → String
  | .testBound arg => s!"TEST_BOUND A{arg}"
  | .testUnbound arg => s!"TEST_UNBOUND A{arg}"
  | .getVariable slot arg => s!"GET_VARIABLE Y{slot}, A{arg}"
  | .getTemp temp arg => s!"GET_TEMP T{temp}, A{arg}"
  | .getConstant arg constant => s!"GET_CONSTANT A{arg}, {constant.render}"
  | .getFunctor c => s!"GET_FUNCTOR {c.shape}"
  | .unifyVariable slot arg => s!"UNIFY_VARIABLE Y{slot}, A{arg}"
  | .unifyTemp temp arg => s!"UNIFY_TEMP T{temp}, A{arg}"
  | .putNewVariable slot arg => s!"PUT_NEW_VARIABLE Y{slot}, A{arg}"
  | .putVariable slot arg => s!"PUT_VARIABLE Y{slot}, A{arg}"
  | .putDerefVariable slot arg => s!"PUT_DEREF_VARIABLE Y{slot}, A{arg}"
  | .putTemp temp arg => s!"PUT_TEMP T{temp}, A{arg}"
  | .putConstant arg constant => s!"PUT_CONSTANT A{arg}, {constant.render}"
  | .clearArg arg => s!"CLEAR_ARG A{arg}"
  | .makeFunctor c => s!"MAKE_FUNCTOR {c.shape}"

def Call.render : Call → String
  | .predicate p => s!"CALL_PREDICATE {p.render}"
  | .lastPredicate p => s!"LAST_CALL_PREDICATE {p.render}"
  | .predicateIndex p => s!"CALL_PREDICATE_INDEX {p.render}"
  | .tripleMatch => "CALL_TRIPLE_MATCH"
  | .tabled => "CALL_TABLED"
  | .wildTabled => "CALL_WILD_TABLED"

def Instruction.render : Instruction → String
  | .operation op => op.render
  | .call c => c.render
  | .builtin f arity => s!"CALL_BUILTIN {f.name}/{arity}"
  | .proceed => "PROCEED"

end TabledRules
