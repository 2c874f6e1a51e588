-- The terms that triples and rules are made of, and the plain questions
-- about them: is it a variable, is it ground, what does it match in a
-- store.

namespace TabledRules

/-! ## Terms and triples -/

inductive Literal where
  | string (text : String)
  | integer (value : Int64)
  | boolean (value : Bool)
deriving DecidableEq, Inhabited

/-- A ground term without parts. -/
inductive Node where
  | uri (text : String)
  | blank (label : String)
  | literal (value : Literal)
deriving DecidableEq, Inhabited

/-- `var` is a variable as a rule or a query names it, `ref` a variable of a
running evaluation, known by its number. `any` is a wildcard: it matches
anything and binds nothing. -/
inductive Term where
  | node (value : Node)
  | var (name : String)
  | ref (number : Nat)
  | app (name : String) (args : List Term)
  | any
deriving Inhabited

/-- A name applied to arguments, where it is a call and not a term. -/
structure Compound where
  name : String
  args : List Term
deriving Inhabited

/-- A triple, or a pattern for triples when a position is not ground. -/
structure Triple where
  subject : Term
  predicate : Term
  object : Term
deriving Inhabited

/-! ## Equality is decidable -/

mutual
def Term.decEq : (a b : Term) → Decidable (a = b)
  | .node a, .node b =>
    if h : a = b then isTrue (by rw [h]) else isFalse (by intro e; cases e; exact h rfl)
  | .var a, .var b =>
    if h : a = b then isTrue (by rw [h]) else isFalse (by intro e; cases e; exact h rfl)
  | .ref a, .ref b =>
    if h : a = b then isTrue (by rw [h]) else isFalse (by intro e; cases e; exact h rfl)
  | .app f as, .app g bs =>
    if h : f = g then
      match Term.decEqList as bs with
      | isTrue h' => isTrue (by rw [h, h'])
      | isFalse h' => isFalse (by intro e; cases e; exact h' rfl)
    else isFalse (by intro e; cases e; exact h rfl)
  | .any, .any => isTrue rfl
  | .node _, .var _ | .node _, .ref _ | .node _, .app _ _ | .node _, .any
  | .var _, .node _ | .var _, .ref _ | .var _, .app _ _ | .var _, .any
  | .ref _, .node _ | .ref _, .var _ | .ref _, .app _ _ | .ref _, .any
  | .app _ _, .node _ | .app _ _, .var _ | .app _ _, .ref _ | .app _ _, .any
  | .any, .node _ | .any, .var _ | .any, .ref _ | .any, .app _ _ =>
    isFalse (by intro e; cases e)

def Term.decEqList : (as bs : List Term) → Decidable (as = bs)
  | [], [] => isTrue rfl
  | [], _ :: _ => isFalse (by intro e; cases e)
  | _ :: _, [] => isFalse (by intro e; cases e)
  | a :: as, b :: bs =>
    match Term.decEq a b with
    | isFalse h => isFalse (by intro e; cases e; exact h rfl)
    | isTrue h =>
      match Term.decEqList as bs with
      | isTrue h' => isTrue (by rw [h, h'])
      | isFalse h' => isFalse (by intro e; cases e; exact h' rfl)
end

instance : DecidableEq Term := Term.decEq

deriving instance DecidableEq for Compound
deriving instance DecidableEq for Triple

/-! ## Questions about a term -/

namespace Term

def isVar : Term → Bool
  | .var _ | .ref _ | .any => true
  | .node _ | .app _ _ => false

def isNode : Term → Bool
  | .node _ => true
  | _ => false

def isApp : Term → Bool
  | .app _ _ => true
  | _ => false

def integer? : Term → Option Int64
  | .node (.literal (.integer i)) => some i
  | _ => none

mutual
/-- No variable and no wildcard stands in the term. -/
def isGround : Term → Bool
  | .node _ => true
  | .app _ args => areGround args
  | .var _ | .ref _ | .any => false

def areGround : List Term → Bool
  | [] => true
  | t :: ts => isGround t && areGround ts
end

mutual
/-- How many terms stand in the term, itself among them. -/
def size : Term → Nat
  | .app _ args => sizeAll args + 1
  | .node _ | .var _ | .ref _ | .any => 1

def sizeAll : List Term → Nat
  | [] => 0
  | t :: ts => size t + sizeAll ts
end

mutual
/-- The variables and wildcards of the term, left to right. -/
def leaves : Term → List Term
  | .node _ => []
  | .app _ args => leavesOf args
  | t => [t]

def leavesOf : List Term → List Term
  | [] => []
  | t :: ts => leaves t ++ leavesOf ts
end

mutual
/-- Puts `f t` in the place of every variable or wildcard `t`. -/
def mapVars (f : Term → Term) : Term → Term
  | .node n => .node n
  | .app g args => .app g (mapVarsOf f args)
  | t => f t

def mapVarsOf (f : Term → Term) : List Term → List Term
  | [] => []
  | t :: ts => mapVars f t :: mapVarsOf f ts
end

/-- What a store is asked for in the place of this term: a term that is not
ground becomes a wildcard. -/
def lookupKey (t : Term) : Term := if t.isGround then t else .any

mutual
/-- A stored term answers to this one, position by position. -/
def admits : Term → Term → Bool
  | .node n, t => Term.node n = t
  | .app f as, .app g bs => f = g && as.length = bs.length && admitsAll as bs
  | .app _ _, _ => false
  | _, _ => true

def admitsAll : List Term → List Term → Bool
  | a :: as, b :: bs => admits a b && admitsAll as bs
  | _, _ => true
end

end Term

/-! ## Questions about a triple -/

namespace Triple

def isGround (t : Triple) : Bool :=
  t.subject.isGround && t.predicate.isGround && t.object.isGround

def leaves (t : Triple) : List Term :=
  t.subject.leaves ++ t.predicate.leaves ++ t.object.leaves

def terms (t : Triple) : List Term := [t.subject, t.predicate, t.object]

def mapTerms (f : Term → Term) (t : Triple) : Triple :=
  ⟨f t.subject, f t.predicate, f t.object⟩

/-- The triple of what `f` makes of the terms, if it makes something of each. -/
def mapTerms? (f : Term → Option Term) (t : Triple) : Option Triple := do
  let subject ← f t.subject
  let predicate ← f t.predicate
  let object ← f t.object
  some ⟨subject, predicate, object⟩

def mapVars (f : Term → Term) (t : Triple) : Triple := t.mapTerms (Term.mapVars f)

def lookupKey (t : Triple) : Triple := t.mapTerms Term.lookupKey

def admits (pattern t : Triple) : Bool :=
  pattern.subject.admits t.subject && pattern.predicate.admits t.predicate &&
    pattern.object.admits t.object

end Triple

end TabledRules
