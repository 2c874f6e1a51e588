-- The events of an evaluation that a journal can show, with their levels
-- and texts.
import TabledRules.Journal
import TabledRules.Term.Render

namespace TabledRules

inductive Event where
  | queryOpened (query : Nat) (pattern : Triple)
  | queryDone (query : Nat)
  | queryClosed (query : Nat)
  | tablesOutdated (old new : Nat)
  | tablesReset
  | generatorNew (generator : Nat) (goal : Triple)
  | generatorPumped (generator : Nat) (goal : Triple) (added total : Nat)
  | generatorComplete (goal : Triple) (results : Nat)
  /-- Completed because it only waited for generators that wait themselves. -/
  | generatorDeadlocked (goal : Triple) (results : Nat)
  | answer (triple : Triple)
  | clauseEntered (clause : String) (subject predicate object : Term)
  | clauseLeft (clause : String)
  | clauseFailed (clause : String)
  | builtinFailed (clause builtin : String)
  | clausesExhausted
  | factMatched (triple : Triple)
  | goalMatched (goal : Triple)
  | factsExhausted (goal : Triple)
  | consumerExhausted (consumer : Nat)
  | consumerSuspended (consumer : Nat) (goal : Triple)
  | consumerRestored (consumer : Nat) (goal : Triple)

namespace Event

def level : Event → LogLevel
  | .queryOpened _ _ => .info
  | .queryDone _ | .queryClosed _ | .tablesOutdated _ _ | .tablesReset | .generatorNew _ _
  | .generatorComplete _ _ | .generatorDeadlocked _ _ | .answer _ => .debug
  | _ => .trace

def text : Event → String
  | .queryOpened query pattern => s!"QUERY {query}: {pattern.render}"
  | .queryDone query => s!"DONE query {query}"
  | .queryClosed query => s!"CLOSE query {query}"
  | .tablesOutdated old new => s!"RESET tables: store version {old} -> {new}"
  | .tablesReset => "RESET tables"
  | .generatorNew generator goal => s!"NEW generator {generator} for {goal.render}"
  | .generatorPumped generator goal added total =>
    s!"PUMP {generator} for {goal.render}: {added} new, {total} total"
  | .generatorComplete goal results => s!"COMPLETE {goal.render} with {results} results"
  | .generatorDeadlocked goal results => s!"DEADLOCK {goal.render} with {results} results"
  | .answer triple => s!"RETURN: {triple.render}"
  | .clauseEntered clause s p o => s!"ENTER {clause} : {s.render} {p.render} {o.render}"
  | .clauseLeft clause => s!"EXIT {clause}"
  | .clauseFailed clause => s!"FAIL {clause}"
  | .builtinFailed clause builtin => s!"FAIL {clause}, due to {builtin}"
  | .clausesExhausted => "FAIL choices exhausted"
  | .factMatched triple => s!"TRIPLE match {triple.render}"
  | .goalMatched goal => s!"TRIPLE match {goal.render} ->"
  | .factsExhausted goal => s!"TRIPLE match {goal.render} -> FAIL"
  | .consumerExhausted consumer => s!"FAIL consumer {consumer}"
  | .consumerSuspended consumer goal => s!"SUSPEND consumer {consumer} in {goal.render}"
  | .consumerRestored consumer goal => s!"RESTORE consumer {consumer} of {goal.render}"

end Event

def Journal.note (j : Journal) (e : Event) : Journal :=
  if j.enabled e.level then j.log e.level e.text else j

end TabledRules
