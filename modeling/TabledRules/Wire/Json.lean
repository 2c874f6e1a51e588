-- JSON values, and the shapes that structures and tagged unions take in
-- them: a structure is an object with named fields or a list of them, a
-- variant is its tag or an object with the tag as its one key. The fields
-- of a variant are always named.

namespace TabledRules

/-- `decimal m e` is the number `m / 10 ^ e`, written with a point. -/
inductive Json where
  | null
  | bool (value : Bool)
  | int (value : Int)
  | decimal (mantissa : Int) (places : Nat)
  | str (text : String)
  | arr (items : List Json)
  | obj (fields : List (String × Json))
deriving Inhabited

namespace Json

def bool? : Json → Option Bool
  | .bool b => some b
  | _ => none

def str? : Json → Option String
  | .str s => some s
  | _ => none

def arr? : Json → Option (List Json)
  | .arr items => some items
  | _ => none

/-- An integer from zero to below `2 ^ bits`. -/
def nat? (bits : Nat) : Json → Option Nat
  | .int i => if 0 ≤ i ∧ i < Nat.pow 2 bits then some i.toNat else none
  | _ => none

def int64? : Json → Option Int64
  | .int i =>
    if Int64.minValue.toInt ≤ i ∧ i ≤ Int64.maxValue.toInt then some (Int64.ofInt i) else none
  | _ => none

def list? {α : Type} (item : Json → Option α) (j : Json) : Option (List α) :=
  j.arr?.bind (·.mapM item)

def field? (name : String) : Json → Option Json
  | .obj fields => fields.lookup name
  | _ => none

/-- The fields of an object in the given order. Other fields do not matter. -/
def named? (names : List String) : Json → Option (List Json)
  | .obj fields => names.mapM fun name => fields.lookup name
  | _ => none

/-- The fields of a structure in the given order. A list has exactly the fields. -/
def fields? (names : List String) : Json → Option (List Json)
  | .arr items => if items.length = names.length then some items else none
  | j => j.named? names

/-- The tag of a variant and what it carries. -/
def variant? : Json → Option (String × Option Json)
  | .str tag => some (tag, none)
  | .obj [(tag, payload)] => some (tag, some payload)
  | _ => none

/-- A variant that carries nothing may be given `null` to carry. -/
def carriesNothing : Option Json → Bool
  | none | some .null => true
  | _ => false

def tagged (tag : String) (payload : Json) : Json := .obj [(tag, payload)]

def nat (n : Nat) : Json := .int n

end Json

end TabledRules
