-- Rules and rule sets. A rule derives its head from a body of goals and
-- builtin calls; a rule set adds which predicates keep tables and which
-- are indexed on the object of the head.
import TabledRules.Term.Order
import TabledRules.Term.Render

namespace TabledRules

/-- One step of a rule's body. -/
inductive Entry where
  | triple (goal : Triple)
  | builtin (call : Compound)
deriving DecidableEq, Inhabited

structure Rule where
  name : String
  head : Triple
  body : List Entry
deriving DecidableEq, Inhabited

/-- A rule whose head predicate is a variable is about every predicate. -/
def Rule.isWildcard (r : Rule) : Bool := r.head.predicate.isVar

def Entry.render : Entry → String
  | .triple t => t.render
  | .builtin c => c.render

def Rule.render (r : Rule) : String :=
  let body := if r.body.isEmpty then "" else " <- " ++ " ".intercalate (r.body.map Entry.render)
  "[" ++ r.name ++ ": " ++ r.head.render ++ body ++ "]"

/-- `tabled` and `indexed` are sets, kept in term order. -/
structure RuleSet where
  rules : List Rule := []
  tabled : List Term := []
  allTabled : Bool := false
  indexed : List Term := []
deriving DecidableEq, Inhabited

namespace RuleSet

def addRule (s : RuleSet) (r : Rule) : RuleSet := { s with rules := s.rules ++ [r] }

def table (s : RuleSet) (predicate : Term) : RuleSet :=
  { s with tabled := predicate.insertInOrder s.tabled }

def tableAll (s : RuleSet) : RuleSet := { s with allTabled := true }

def index (s : RuleSet) (predicate : Term) : RuleSet :=
  { s with indexed := predicate.insertInOrder s.indexed }

end RuleSet

end TabledRules
