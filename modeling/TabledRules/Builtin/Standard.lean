-- The standard builtins: equality, bound and unbound, the order and the sum
-- of integers, and the absence of a stored triple.
import TabledRules.Builtin

namespace TabledRules.Builtin

/-- Tests the values of two arguments. -/
def testValues (name : String) (holds : Term → Term → Bool) : Builtin := test name 2 fun c args =>
  match args with
  | a :: b :: _ => do
    let x ← c.deref a
    let y ← c.deref b
    some (holds x y)
  | _ => some false

/-- Both arguments are known and the same. -/
def equal : Builtin := testValues "equal" fun x y => x.isGround && x = y

/-- Both arguments are known and differ. -/
def notEqual : Builtin := testValues "notEqual" fun x y => x.isGround && y.isGround && x ≠ y

def bound : Builtin := test "bound" 0 fun c args => some (args.all c.isBound)

def unbound : Builtin := test "unbound" 0 fun c args => some (args.all fun t => !c.isBound t)

/-- Both arguments are integers and their values are related. -/
def comparison (name : String) (holds : Int → Int → Bool) : Builtin := testValues name fun x y =>
  match x.integer?, y.integer? with
  | some x, some y => holds x.toInt y.toInt
  | _, _ => false

def lessThan : Builtin := comparison "lessThan" fun x y => x < y

def greaterThan : Builtin := comparison "greaterThan" fun x y => x > y

/-- The sum of two integers, if it is one of the 64-bit integers. -/
def checkedSum (x y : Int64) : Option Int64 :=
  let total := x.toInt + y.toInt
  if Int64.minValue.toInt ≤ total ∧ total ≤ Int64.maxValue.toInt then some (Int64.ofInt total)
  else none

/-- The third argument is the sum of the first two. -/
def sum : Builtin :=
  { name := "sum"
    arity := 3
    call := fun c args =>
      match args with
      | a :: b :: total :: _ => do
        match ← c.integer? a, ← c.integer? b with
        | some x, some y =>
          match checkedSum x y with
          | some z => some (.ok (some [(total, .node (.literal (.integer z)))]))
          | none =>
            some (.error (c.fault "sum" s!"integer overflow adding {x.toInt} and {y.toInt}"))
        | _, _ => some (.ok none)
      | _ => some (.ok none) }

/-- No stored triple has this subject and predicate, and this object if there is a
third argument. -/
def noValue : Builtin :=
  { name := "noValue"
    call := fun c args =>
      let absent (s p o : Term) := do
        let pattern ← (⟨s, p, o⟩ : Triple).mapTerms? c.deref
        some ((c.store.contains pattern).map fun found => if found then none else some [])
      match args with
      | [s, p] => absent s p .any
      | [s, p, o] => absent s p o
      | _ => some (.error (c.fault "noValue" s!"expected 2 or 3 arguments, got {args.length}")) }

def standard : Registry :=
  { builtins := [equal, notEqual, bound, unbound, lessThan, greaterThan, sum, noValue] }

end TabledRules.Builtin
