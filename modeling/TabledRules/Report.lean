-- What an engine reports about its tables and its clauses.

namespace TabledRules

/-- The state of one table. -/
structure TableInfo where
  results : Nat
  complete : Bool
deriving DecidableEq, Inhabited

/-- How often a clause was entered. -/
structure ProfileEntry where
  clause : Nat
  rule : String
  entries : Nat
deriving DecidableEq, Inhabited

end TabledRules
