-- What is known about the predicates of a rule set before any rule is
-- compiled: which have rules, which keep tables, which are indexed.
import TabledRules.Clause

namespace TabledRules

/-- A predicate with this many rules is indexed without being asked for. -/
def indexThreshold : Nat := 20

structure Layout where
  /-- The head predicates of the rules that are about one predicate. -/
  heads : List Term
  hasWildcards : Bool
  hasRules : Bool
  tabled : List Term
  allTabled : Bool
  /-- The predicates whose index was asked for. -/
  indexed : List Term

def RuleSet.layout (s : RuleSet) : Layout :=
  { heads := (s.rules.filter fun r => !r.isWildcard).map (·.head.predicate)
    hasWildcards := s.rules.any Rule.isWildcard
    hasRules := !s.rules.isEmpty
    tabled := s.tabled
    allTabled := s.allTabled
    indexed := s.indexed }

namespace Layout

/-- Some rule may be about this predicate. -/
def hasCode (l : Layout) (predicate : Term) : Bool :=
  if predicate.isVar then l.hasRules else l.hasWildcards || l.heads.contains predicate

/-- Goals on this predicate keep tables. An unknown predicate may be a tabled one. -/
def isTabled (l : Layout) (predicate : Term) : Bool :=
  l.allTabled || (predicate.isVar && !l.tabled.isEmpty) || l.tabled.contains predicate

def isIndexed (l : Layout) (predicate : Term) : Bool :=
  l.indexed.contains predicate || indexThreshold ≤ l.heads.count predicate

/-- How a goal of a body is solved. -/
def callFor (l : Layout) (hasPermanents : Bool) (goal : Triple) : Call :=
  let p := goal.predicate
  if !l.hasCode p then .tripleMatch
  else if p.isVar then .wildTabled
  else if l.isTabled p then .tabled
  else if !hasPermanents then .lastPredicate p
  else if l.isIndexed p && goal.object.isVar then .predicateIndex p
  else .predicate p

end Layout

end TabledRules
