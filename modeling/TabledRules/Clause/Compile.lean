-- From a rule to its code. What cannot be compiled is found first; after
-- that, code can be written for every rule.
import TabledRules.Clause.Layout
import TabledRules.Clause.Placement

namespace TabledRules

/-! ## Tests of the arguments -/

/-- The argument register that a variable of the head stands in. -/
def Triple.register? (head : Triple) (name : String) : Option Nat :=
  [head.subject, head.predicate, head.object].idxOf? (.var name)

/-- `bound` and `unbound` of a head variable are tests of its register. -/
def Entry.argumentTest? (head : Triple) : Entry → Option Operation
  | .builtin ⟨name, [.var v]⟩ =>
    (head.register? v).bind fun arg =>
      if name = "bound" then some (.testBound arg)
      else if name = "unbound" then some (.testUnbound arg)
      else none
  | _ => none

/-- The tests that a body begins with, and the rest of the body. -/
def leadingTests (head : Triple) : List Entry → List Operation × List Entry
  | [] => ([], [])
  | e :: es =>
    match e.argumentTest? head with
    | some test =>
      let (tests, rest) := leadingTests head es
      (test :: tests, rest)
    | none => ([], e :: es)

/-! ## Rules that are refused -/

namespace Rule

def tooComplex (r : Rule) (detail : String) : CompileFailure := .tooComplex r.render detail

def tooManyRegisters (r : Rule) (p : Placement) : Option CompileFailure :=
  if maxPermanents < p.permanent.length then
    some (r.tooComplex s!"rule clauses are limited to {maxPermanents} permanent variables")
  else if maxTemporaries < p.temporary.length then
    some (r.tooComplex s!"rule clauses are limited to {maxTemporaries} temporary variables")
  else none

def tooManyArguments (r : Rule) : CompileFailure :=
  r.tooComplex s!"rule clauses are limited to {maxArguments} argument variables"

def headFault (r : Rule) : Option CompileFailure :=
  if r.head.subject.isApp || r.head.predicate.isApp then some (.badHead r.render)
  else
    match r.head.object with
    | .app _ args =>
      if args.any Term.isApp then some (r.tooComplex "nested functors")
      else if maxArguments < argBase + args.length then
        some (r.tooComplex "too many functor arguments")
      else none
    | _ => none

def goalFault (r : Rule) (goal : Triple) : Option CompileFailure :=
  if goal.subject.isApp || goal.predicate.isApp then
    some (r.tooComplex "functor outside the object position")
  else
    match goal.object with
    | .app _ args =>
      if args.any Term.isApp then some (r.tooComplex "nested functors")
      else if maxArguments < argBase + args.length then some r.tooManyArguments
      else none
    | _ => none

/-- The first argument of a builtin, counted from `i`, that cannot be passed. -/
def argumentFault (r : Rule) (i : Nat) : List Term → Option CompileFailure
  | [] => none
  | t :: ts =>
    if t.isApp then some (r.tooComplex "functor argument to a builtin")
    else if maxArguments ≤ i then some r.tooManyArguments
    else r.argumentFault (i + 1) ts

def builtinFault (r : Rule) (registry : Registry) (c : Compound) : Option CompileFailure :=
  match registry.get? c.name with
  | none => some (.unknownBuiltin r.render c.name)
  | some f =>
    if f.arity ≠ 0 ∧ f.arity ≠ c.args.length then
      some (.builtinArity r.render c.name f.arity c.args.length)
    else r.argumentFault 0 c.args

def entryFault (r : Rule) (registry : Registry) : Entry → Option CompileFailure
  | .triple goal => r.goalFault goal
  | .builtin c => r.builtinFault registry c

/-- The first reason to refuse a rule. -/
def fault? (r : Rule) (registry : Registry) : Option CompileFailure :=
  (r.tooManyRegisters r.placement).or <| r.headFault.or <|
    (leadingTests r.head r.body).2.findSome? (r.entryFault registry)

end Rule

/-! ## Code -/

/-- The code so far, and the variables whose registers have been set by it. -/
structure Draft where
  code : List Instruction := []
  known : List String := []

namespace Draft

def emit (d : Draft) (op : Operation) : Draft := { d with code := d.code ++ [.operation op] }

def learn (d : Draft) (name : String) : Draft := { d with known := name :: d.known }

/-- Emits one operation when a variable is met first and another one later. -/
def emitFirst (d : Draft) (name : String) (first later : Operation) : Draft :=
  if d.known.contains name then d.emit later else (d.emit first).learn name

/-- Matches a term without parts with an argument of the head. -/
def getLeaf (p : Placement) (d : Draft) (arg : Nat) : Term → Draft
  | .var v =>
    if p.isDummy v then d
    else
      match p.temp? v, p.slot? v with
      | some temp, _ =>
        if p.inPlaceInHead v then d else d.emitFirst v (.getTemp temp arg) (.unifyTemp temp arg)
      | none, some slot => d.emitFirst v (.getVariable slot arg) (.unifyVariable slot arg)
      | none, none => d
  | .node n => d.emit (.getConstant arg (.node n))
  | _ => d

/-- Matches terms with the arguments from `arg` on. -/
def getLeaves (p : Placement) : Draft → Nat → List Term → Draft
  | d, _, [] => d
  | d, arg, t :: ts => getLeaves p (d.getLeaf p arg t) (arg + 1) ts

def getHead (p : Placement) (d : Draft) (head : Triple) : Draft :=
  let d := (d.getLeaf p 0 head.subject).getLeaf p 1 head.predicate
  match head.object with
  | .app f args => (d.emit (.getFunctor ⟨f, args⟩)).getLeaves p argBase args
  | t => d.getLeaf p 2 t

/-- Passes a term without parts as an argument. A builtin is passed values. -/
def putLeaf (p : Placement) (values : Bool) (d : Draft) (arg : Nat) : Term → Draft
  | .var v =>
    if p.isDummy v then d.emit (.clearArg arg)
    else
      match p.temp? v, p.slot? v with
      | some temp, _ => if p.inPlace v then d else d.emit (.putTemp temp arg)
      | none, some slot =>
        d.emitFirst v (.putNewVariable slot arg)
          (if values then .putDerefVariable slot arg else .putVariable slot arg)
      | none, none => d
  | .node n => d.emit (.putConstant arg (.node n))
  | _ => d.emit (.clearArg arg)

/-- Passes terms as the arguments from `arg` on. -/
def putLeaves (p : Placement) (values : Bool) : Draft → Nat → List Term → Draft
  | d, _, [] => d
  | d, arg, t :: ts => putLeaves p values (d.putLeaf p values arg t) (arg + 1) ts

def callGoal (p : Placement) (layout : Layout) (d : Draft) (goal : Triple) : Draft :=
  let d := (d.putLeaf p false 0 goal.subject).putLeaf p false 1 goal.predicate
  let d :=
    match goal.object with
    | .app f args => (d.putLeaves p false argBase args).emit (.makeFunctor ⟨f, args⟩)
    | t => d.putLeaf p false 2 t
  { d with code := d.code ++ [.call (layout.callFor (!p.permanent.isEmpty) goal)] }

def callBuiltin (p : Placement) (f : Builtin) (d : Draft) (args : List Term) : Draft :=
  let d := d.putLeaves p true 0 args
  { d with code := d.code ++ [.builtin f args.length] }

def addEntry (p : Placement) (layout : Layout) (registry : Registry) (d : Draft) : Entry → Draft
  | .triple goal => d.callGoal p layout goal
  | .builtin c =>
    match registry.get? c.name with
    | some f => d.callBuiltin p f c.args
    | none => d

end Draft

def Rule.code (r : Rule) (layout : Layout) (registry : Registry) : List Instruction :=
  let p := r.placement
  let (tests, body) := leadingTests r.head r.body
  let d := (Draft.mk (tests.map .operation) []).getHead p r.head
  (body.foldl (Draft.addEntry p layout registry) d).code ++ [.proceed]

def Rule.compile (id : Nat) (r : Rule) (layout : Layout) (registry : Registry) :
    Except Failure Clause :=
  match r.fault? registry with
  | some cause => .error (.compile cause)
  | none =>
    .ok
      { id
        rule := r
        code := r.code layout registry
        permanents := r.placement.permanent.length }

end TabledRules
