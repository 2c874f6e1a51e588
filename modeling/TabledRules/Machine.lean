-- A machine searches for the answers to one goal. It holds a stack of
-- choice points to go back to, and the choice points that wait for the
-- results of a table.
import Std.Data.TreeSet
import TabledRules.Bindings
import TabledRules.RuleBase
import TabledRules.Settings
import TabledRules.Term.Variant

namespace TabledRules

/-- Who a machine works for. -/
inductive Owner where
  | generator (id : Nat)
  | query (id : Nat)
deriving DecidableEq, Inhabited

/-- An entered clause with its permanent variables, and where to go on in its caller.
`id` is the number of environments kept below it. When a clause for a ground goal
succeeds, the choice point `commit` has no more to try. The environment at the
root is the first and has no clause: to proceed from it is to have an answer. -/
inductive Env where
  | root
  | frame (id : Nat) (clause : Clause) (vars : List (Option Term)) (caller : Env)
      (code : List Instruction) (commit : Option Nat)
deriving Inhabited

namespace Env

def id : Env → Nat
  | .root => 0
  | .frame id _ _ _ _ _ => id

def name : Env → String
  | .root => "anon"
  | .frame _ clause _ _ _ _ => clause.name

def rule? : Env → Option Rule
  | .root => none
  | .frame _ clause _ _ _ _ => some clause.rule

def vars : Env → List (Option Term)
  | .root => []
  | .frame _ _ vars _ _ _ => vars

def setVars (vars : List (Option Term)) : Env → Env
  | .root => .root
  | .frame id clause _ caller code commit => .frame id clause vars caller code commit

end Env

/-- What is left to try at a choice point. -/
inductive Alternatives where
  /-- Clauses for the goal in `args`. If the goal is ground, one that succeeds is
  enough. -/
  | clauses (rest : List Clause) (args : List Term) (ground : Bool)
  /-- Stored triples for a goal of a body. -/
  | facts (goal : Triple) (rest : List Triple)
  /-- Stored triples for the goal of the machine itself. -/
  | answers (goal : Triple) (rest : List Triple)
  /-- The results that a consumer has not read. -/
  | results (consumer : Nat) (goal : Triple)
deriving Inhabited

/-- How much a machine keeps. -/
structure Sizes where
  choices : Nat := 0
  envs : Nat := 0
  vars : Nat := 0
deriving DecidableEq, Inhabited

/-- A choice point. `id` is the number of choice points kept below it; `envs` is the
number of environments and `bindings` are the bindings when it was made. -/
structure Choice where
  id : Nat
  env : Env
  code : List Instruction
  envs : Nat
  bindings : Bindings
  alternatives : Alternatives
deriving Inhabited

structure Machine where
  goal : Triple
  owner : Owner
  /-- The goal with its variables numbered. -/
  standard : Triple
  bindings : Bindings
  args : List Term := List.replicate maxArguments .any
  temps : List (Option Term) := List.replicate maxTemporaries none
  /-- The choice points to go back to, the last one first. -/
  stack : List Choice := []
  /-- The choice points that wait, by their consumers. -/
  suspended : Std.TreeMap Nat Choice := ∅
  /-- The choice points that are kept. -/
  choices : Nat := 0
  /-- The environments that are kept. -/
  envs : Nat := 0
  /-- What is kept for the choice points that wait. -/
  pinned : Sizes := {}
  /-- The choice points whose other clauses are given up. -/
  committed : Std.TreeSet Nat := ∅
deriving Inhabited

/-- What machines look at and never change. -/
structure World where
  store : Store
  rules : RuleBase
  settings : Settings

namespace Machine

/-! ## Room on the stack -/

def overflow (w : World) (m : Machine) : Failure :=
  .runtime (.stackOverflow
    s!"more than {w.settings.stackLimit} frames ({m.choices} choice points, {m.envs} environments)")

def enterEnv (w : World) (m : Machine) : Except Failure Machine :=
  if w.settings.stackLimit ≤ m.envs then .error (m.overflow w)
  else .ok { m with envs := m.envs + 1 }

/-- Makes a choice point. -/
def push (w : World) (env : Env) (code : List Instruction) (alternatives : Alternatives)
    (m : Machine) : Except Failure Machine :=
  if w.settings.stackLimit ≤ m.choices then .error (m.overflow w)
  else
    let choice : Choice :=
      { id := m.choices
        env, code, alternatives
        envs := m.envs
        bindings := m.bindings }
    .ok
      { m with
        stack := choice :: m.stack
        choices := m.choices + 1
        committed := m.committed.erase m.choices }

/-- The number of variables that are pinned. -/
def pinnedVars (m : Machine) : Nat := min m.bindings.size m.pinned.vars

/-- Goes back to a choice point and the bindings it was made under, and gives up what
was made since, except for what is pinned. -/
def rewind (c : Choice) (m : Machine) : Machine :=
  { m with
    bindings := c.bindings.grow m.pinnedVars
    choices := min m.choices (max (c.id + 1) m.pinned.choices)
    envs := min m.envs (max c.envs m.pinned.envs) }

/-- Pins what there is. -/
def pin (m : Machine) : Machine :=
  { m with pinned := ⟨m.choices, m.envs, m.bindings.size⟩ }

/-- Gives up every binding, and all that is not pinned. -/
def discard (m : Machine) : Machine :=
  { m with
    bindings := { size := m.pinnedVars }
    choices := min m.choices m.pinned.choices
    envs := min m.envs m.pinned.envs }

/-- A clause for a ground goal has succeeded: the other clauses are given up. -/
def commit (id : Nat) (m : Machine) : Machine := { m with committed := m.committed.insert id }

/-! ## The goal -/

/-- The goal in the argument registers. -/
def called (m : Machine) : Triple :=
  ⟨m.args[0]?.getD .any, m.args[1]?.getD .any, m.args[2]?.getD .any⟩

/-- The goal in the argument registers, as far as it is known. -/
def calledValue (n : Nat) (m : Machine) : Option Triple := m.called.mapTerms? (m.bindings.deepDeref n)

/-- The machine's goal as the bindings answer it. -/
def solution (n : Nat) (m : Machine) : Option Triple := m.standard.mapTerms? (m.bindings.resolve n)

/-- A machine with a goal and nothing to try. -/
def blank (w : World) (goal : Triple) (owner : Owner) : Except Failure Machine :=
  let (standard, numbers) := goal.renumber .ref
  let m : Machine :=
    { goal, owner, standard
      bindings := { size := numbers.next }
      args := [standard.subject, standard.predicate, standard.object] ++
        List.replicate (maxArguments - 3) .any }
  m.enterEnv w

/-- A machine that answers its goal by the store and then by the clauses. -/
def start (w : World) (goal : Triple) (owner : Owner) : Except Failure Machine := do
  let m ← blank w goal owner
  let clauses := w.rules.codeFor m.standard
  let m ←
    if clauses.isEmpty then .ok m
    else m.push w .root [.proceed] (.clauses clauses m.args goal.isGround)
  let facts ← w.store.find m.standard.lookupKey
  m.push w .root [.proceed] (.answers m.standard facts)

end Machine

end TabledRules
