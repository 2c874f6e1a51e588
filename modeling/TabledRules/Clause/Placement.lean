-- Where the variables of a rule live. A variable that occurs once needs no
-- register. One that occurs in the head and at most the first entry of the
-- body is temporary. Any other is permanent.
import TabledRules.Clause

namespace TabledRules

/-- Entry 0 is the head. The index counts the terms of an entry, so that for a
triple it is the argument register of the term. -/
structure Occurrence where
  name : String
  entry : Nat
  index : Nat
deriving DecidableEq, Inhabited

/-- Subject, predicate, object and then the arguments of a compound object. -/
def Triple.flatten (t : Triple) : List Term :=
  [t.subject, t.predicate, t.object] ++
    match t.object with
    | .app _ args => args
    | _ => []

def Entry.flatten : Entry → List Term
  | .triple t => t.flatten
  | .builtin c => c.args

/-- The variables of a rule where they occur, from the head on. -/
def Rule.occurrences (r : Rule) : List Occurrence :=
  (r.head.flatten :: r.body.map Entry.flatten).zipIdx.flatMap fun (terms, entry) =>
    terms.zipIdx.filterMap fun
      | (.var name, index) => some ⟨name, entry, index⟩
      | _ => none

structure Placement where
  occurrences : List Occurrence
  permanent : List String
  temporary : List String

def occurrencesIn (all : List Occurrence) (name : String) : List Occurrence :=
  all.filter (·.name = name)

/-- A repeated variable outlives the first entry, or is not known from the head. -/
def isPermanentIn (all : List Occurrence) (name : String) : Bool :=
  let own := occurrencesIn all name
  own.any (1 < ·.entry) || !own.any (·.entry = 0)

/-- Registers are given in order of first occurrence. -/
def Rule.placement (r : Rule) : Placement :=
  let all := r.occurrences
  let repeated :=
    (all.map Occurrence.name).eraseDups.filter fun v => 1 < (occurrencesIn all v).length
  { occurrences := all
    permanent := repeated.filter (isPermanentIn all)
    temporary := repeated.filter fun v => !isPermanentIn all v }

namespace Placement

def isDummy (p : Placement) (name : String) : Bool := (occurrencesIn p.occurrences name).length ≤ 1

/-- The variable occurs twice, both times in the same argument register, so that it
need not be moved. -/
def inPlace (p : Placement) (name : String) : Bool :=
  match occurrencesIn p.occurrences name with
  | [first, second] => first.index = second.index
  | _ => false

/-- In place in a register that holds an argument of the call itself. -/
def inPlaceInHead (p : Placement) (name : String) : Bool :=
  match occurrencesIn p.occurrences name with
  | [first, second] => first.index < argBase && first.index = second.index
  | _ => false

def temp? (p : Placement) (name : String) : Option Nat := p.temporary.idxOf? name

def slot? (p : Placement) (name : String) : Option Nat := p.permanent.idxOf? name

end Placement

end TabledRules
