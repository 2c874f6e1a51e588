-- A store of triples in memory. Triples stand in buckets by predicate, in
-- the order they were added, and the buckets in the order of their
-- predicates. An index has all triples, to see at once if one is there.
import Std.Data.TreeSet
import TabledRules.Failure
import TabledRules.Term.Order

namespace TabledRules

/-- What an engine asks of a store. In a pattern whatever is not ground is a
wildcard. The version changes with the stored triples. -/
structure Store where
  find : Triple → Except Failure (List Triple)
  contains : Triple → Except Failure Bool
  version : Nat

structure Bucket where
  predicate : Term
  triples : List Triple
deriving DecidableEq, Inhabited

/-- `version` counts the changes. -/
structure Graph where
  buckets : List Bucket := []
  /-- The triples of all buckets. -/
  index : Std.TreeSet Triple := ∅
  version : Nat := 0
deriving Inhabited

namespace Graph

def triples (g : Graph) : List Triple := g.buckets.flatMap Bucket.triples

def size (g : Graph) : Nat := g.index.size

/-- The triples with a predicate. -/
def withPredicate (g : Graph) (predicate : Term) : List Triple :=
  match g.buckets.find? (·.predicate = predicate) with
  | some bucket => bucket.triples
  | none => []

/-- Puts a triple at the end of the bucket of its predicate. -/
def place (t : Triple) : List Bucket → List Bucket
  | [] => [⟨t.predicate, [t]⟩]
  | bucket :: rest =>
    match t.predicate.compare bucket.predicate with
    | .lt => ⟨t.predicate, [t]⟩ :: bucket :: rest
    | .eq => { bucket with triples := bucket.triples ++ [t] } :: rest
    | .gt => bucket :: place t rest

/-- Adds a triple. Says no, and changes nothing, if it is there. -/
def add (g : Graph) (t : Triple) : Bool × Graph :=
  if g.index.contains t then (false, g)
  else
    (true,
      { buckets := place t g.buckets
        index := g.index.insert t
        version := g.version + 1 })

/-- Deletes a triple. Says no, and changes nothing, if it is not there. -/
def delete (g : Graph) (t : Triple) : Bool × Graph :=
  if g.index.contains t then
    (true,
      { buckets := g.buckets.map fun bucket =>
          if bucket.predicate = t.predicate then
            { bucket with triples := bucket.triples.filter (· ≠ t) }
          else bucket
        index := g.index.erase t
        version := g.version + 1 })
  else (false, g)

def ofTriples (ts : List Triple) : Graph := ts.foldl (fun g t => (g.add t).2) {}

/-- The stored triples that answer to a pattern. -/
def find (g : Graph) (pattern : Triple) : List Triple :=
  let key := pattern.lookupKey
  let candidates := if key.predicate.isGround then g.withPredicate key.predicate else g.triples
  candidates.filter key.admits

def contains (g : Graph) (t : Triple) : Bool :=
  if t.isGround then g.index.contains t else !(g.find t).isEmpty

def toStore (g : Graph) : Store :=
  { find := fun pattern => .ok (g.find pattern)
    contains := fun t => .ok (g.contains t)
    version := g.version }

end Graph

end TabledRules
