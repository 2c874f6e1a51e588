-- What can go wrong, by cause, and how each cause is told. A failure is
-- fatal when the tables it struck in can no longer be trusted.

namespace TabledRules

/-- Failures of a query that is being read. -/
inductive RuntimeFailure where
  | concurrentModification (expected found : Nat)
  | iteratorClosed
  | stackOverflow (detail : String)
  | builtin (name detail : String)
  | sessionInvalid (detail : String)
deriving DecidableEq, Inhabited

/-- Failures that compiled rules never meet on their own. -/
inductive OperationalFailure where
  | malformedClause (clause detail : String)
  | invalidState (detail : String)
deriving DecidableEq, Inhabited

/-- Reasons why a rule is refused. `rule` is the rule as it is written. -/
inductive CompileFailure where
  | badHead (rule : String)
  | tooComplex (rule detail : String)
  | unknownBuiltin (rule name : String)
  | builtinArity (rule name : String) (expected found : Nat)
deriving DecidableEq, Inhabited

inductive Failure where
  | runtime (cause : RuntimeFailure)
  | operational (cause : OperationalFailure)
  | compile (cause : CompileFailure)
deriving DecidableEq, Inhabited

def RuntimeFailure.message : RuntimeFailure → String
  | .concurrentModification expected found =>
    s!"Concurrent modification: triple store changed from version {expected} to {found} " ++
      "during iteration"
  | .iteratorClosed => "Iterator already closed"
  | .stackOverflow detail => "Hit a stack limit: " ++ detail
  | .builtin name detail => s!"Builtin {name} failed: {detail}"
  | .sessionInvalid detail =>
    s!"Inference session is invalid after an earlier error ({detail}); reset the engine"

def OperationalFailure.message : OperationalFailure → String
  | .malformedClause clause detail =>
    s!"Internal error in backward rule system, malformed clause {clause}: {detail}"
  | .invalidState detail => "Invalid state: " ++ detail

def CompileFailure.message : CompileFailure → String
  | .badHead rule => "Heads of backward rules must be triple patterns: " ++ rule
  | .tooComplex rule detail =>
    s!"Rule too complex for current implementation: {detail} in {rule}"
  | .unknownBuiltin rule name => s!"Unknown builtin operation {name} in {rule}"
  | .builtinArity rule name expected found =>
    s!"Wrong number of arguments to {name} in {rule}: got {found}, expected {expected}"

namespace Failure

def message : Failure → String
  | .runtime cause => cause.message
  | .operational cause => cause.message
  | .compile cause => cause.message

def isFatal : Failure → Bool
  | .operational _ | .runtime (.builtin _ _) | .runtime (.stackOverflow _) => true
  | _ => false

def invalidState (detail : String) : Failure := .operational (.invalidState detail)

def malformed (clause detail : String) : Failure := .operational (.malformedClause clause detail)

end Failure

end TabledRules
