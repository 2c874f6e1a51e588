-- The order of terms: nodes, then named variables, then numbered ones,
-- then compound terms, then the wildcard. Buckets of a store and the sets
-- of a rule set stand in this order.
import TabledRules.Term

namespace TabledRules

def Literal.compare : Literal → Literal → Ordering
  | .string a, .string b => Ord.compare a b
  | .string _, _ => .lt
  | _, .string _ => .gt
  | .integer a, .integer b => Ord.compare a.toInt b.toInt
  | .integer _, .boolean _ => .lt
  | .boolean _, .integer _ => .gt
  | .boolean a, .boolean b => Ord.compare a.toNat b.toNat

def Node.compare : Node → Node → Ordering
  | .uri a, .uri b => Ord.compare a b
  | .uri _, _ => .lt
  | _, .uri _ => .gt
  | .blank a, .blank b => Ord.compare a b
  | .blank _, .literal _ => .lt
  | .literal _, .blank _ => .gt
  | .literal a, .literal b => a.compare b

/-- The place of a term's kind in the order. -/
def Term.rank : Term → Nat
  | .node _ => 0
  | .var _ => 1
  | .ref _ => 2
  | .app _ _ => 3
  | .any => 4

mutual
/-- Compound terms go by name and then by their arguments from the left, where a
list that ends early comes first. -/
def Term.compare : Term → Term → Ordering
  | .node a, .node b => a.compare b
  | .var a, .var b => Ord.compare a b
  | .ref a, .ref b => Ord.compare a b
  | .app f as, .app g bs => (Ord.compare f g).then (Term.compareLists as bs)
  | a, b => Ord.compare a.rank b.rank

def Term.compareLists : List Term → List Term → Ordering
  | [], [] => .eq
  | [], _ :: _ => .lt
  | _ :: _, [] => .gt
  | a :: as, b :: bs => (Term.compare a b).then (Term.compareLists as bs)
end

def Triple.compare (a b : Triple) : Ordering :=
  ((a.subject.compare b.subject).then (a.predicate.compare b.predicate)).then
    (a.object.compare b.object)

instance : Ord Term := ⟨Term.compare⟩
instance : Ord Triple := ⟨Triple.compare⟩

/-- Puts a term into a list that is in order and holds each term once, and keeps
it so. -/
def Term.insertInOrder (t : Term) : List Term → List Term
  | [] => [t]
  | u :: us =>
    match t.compare u with
    | .lt => t :: u :: us
    | .eq => u :: us
    | .gt => u :: t.insertInOrder us

end TabledRules
