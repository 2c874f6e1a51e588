-- A compiled rule set: its clauses and the ones that a goal may match.
import TabledRules.Clause.Compile
import TabledRules.Index
import TabledRules.Term.Digest

namespace TabledRules

/-- The number of a clause's predicate; zero if it is about every predicate. -/
def Clause.group (c : Clause) : Nat :=
  if c.rule.isWildcard then 0 else c.rule.head.predicate.digest + 1

structure RuleBase where
  /-- The clauses in the order of the rules. -/
  clauses : Index Clause.group
  layout : Layout

/-- Compiles the rules one after the other, up to the first that is refused. -/
def RuleSet.compile (s : RuleSet) (registry : Registry) : Except Failure RuleBase :=
  (s.rules.zipIdx.mapM fun (r, id) => Rule.compile id r s.layout registry).map fun clauses =>
    { clauses := .ofList clauses, layout := s.layout }

/-- The clause's head may have this object. -/
def Clause.mayHaveObject (object : Term) (c : Clause) : Bool :=
  c.rule.head.object.isVar || c.rule.head.object = object

namespace RuleBase

def clause? (b : RuleBase) (id : Nat) : Option Clause := b.clauses.get? id

/-- The clauses about one predicate. -/
def ownClauses (b : RuleBase) (predicate : Term) : List Clause :=
  (b.clauses.bucket (predicate.digest + 1)).filter fun c =>
    !c.rule.isWildcard && c.rule.head.predicate = predicate

/-- The clauses about every predicate. -/
def wildcards (b : RuleBase) : List Clause := b.clauses.bucket 0

/-- The clauses for a predicate: its own, then those about every predicate. -/
def clausesFor (b : RuleBase) (predicate : Term) : List Clause :=
  if predicate.isVar then b.clauses.toList else b.ownClauses predicate ++ b.wildcards

theorem ownClauses_eq (b : RuleBase) (predicate : Term) :
    b.ownClauses predicate = b.clauses.toList.filter fun c =>
      !c.rule.isWildcard && c.rule.head.predicate = predicate := by
  rw [ownClauses, Index.bucket_eq, List.filter_filter]
  apply List.filter_congr
  intro c _
  by_cases h : c.rule.isWildcard = true <;> by_cases e : c.rule.head.predicate = predicate <;>
    simp [h, e, Clause.group]

theorem wildcards_eq (b : RuleBase) :
    b.wildcards = b.clauses.toList.filter (·.rule.isWildcard) := by
  rw [wildcards, Index.bucket_eq]
  apply List.filter_congr
  intro c _
  by_cases h : c.rule.isWildcard = true <;> simp [h, Clause.group]

/-- The clauses that may match a goal. If the predicate is indexed and the object is
a node, clauses with another object are left out. -/
def codeFor (b : RuleBase) (goal : Triple) : List Clause :=
  let clauses := b.clausesFor goal.predicate
  if goal.object.isNode && b.layout.isIndexed goal.predicate &&
      b.layout.heads.contains goal.predicate then
    clauses.filter (Clause.mayHaveObject goal.object)
  else clauses

def isTabled (b : RuleBase) (predicate : Term) : Bool := b.layout.isTabled predicate

def isIndexed (b : RuleBase) (predicate : Term) : Bool := b.layout.isIndexed predicate

end RuleBase

/-! ## What a call looks at

The goal is the called one with its variables followed. -/

namespace Call

/-- The goal is read from its table. -/
def readsTable (rules : RuleBase) (goal : Triple) : Call → Bool
  | .tabled => true
  | .wildTabled => rules.isTabled goal.predicate
  | _ => false

/-- The clauses that a goal is tried on, besides the store. -/
def clauses (rules : RuleBase) (goal : Triple) : Call → List Clause
  | .predicate p | .lastPredicate p => rules.clausesFor p
  | .predicateIndex p =>
    if goal.object.isVar then rules.clausesFor p else rules.codeFor { goal with predicate := p }
  | .wildTabled => rules.codeFor goal
  | .tripleMatch | .tabled => []

/-- For a ground goal one clause that succeeds is enough. -/
def mayCommit : Call → Bool
  | .predicate _ | .lastPredicate _ => true
  | _ => false

end Call

end TabledRules
