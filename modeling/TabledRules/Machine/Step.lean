-- One step of a machine, and its run up to the next answer.
import TabledRules.Machine.Registers
import TabledRules.Session

namespace TabledRules

/-- What a machine is about to do. -/
inductive Control where
  /-- Go back to the last choice point. -/
  | backtrack
  /-- Run code in an environment. -/
  | run (env : Env) (code : List Instruction)

/-- What a machine does after a step. It is done when it has an answer, when there is
nothing left to try, or when it has failed. A step without an end follows a value
that a variable of it stands inside. -/
inductive Progress where
  | go (control : Control)
  | done (outcome : Except Failure (Option Triple))
  | endless

namespace Machine

/-! ## Calls -/

/-- Ends a step in which a choice point was to be made. -/
def afterPush (m : Machine) (s : Session) : Except Failure Machine → Progress × Machine × Session
  | .ok m => (.go .backtrack, m, s)
  | .error e => (.done (.error e), m, s)

/-- Calls the store. -/
def callStore (w : World) (n : Nat) (env : Env) (code : List Instruction) (m : Machine)
    (s : Session) : Progress × Machine × Session :=
  match m.calledValue n with
  | none => (.endless, m, s)
  | some goal =>
    match w.store.find goal.lookupKey with
    | .error e => (.done (.error e), m, s)
    | .ok facts => m.afterPush s (m.push w env code (.facts m.called facts))

/-- Calls clauses and the store. The store comes first, as the last choice point. -/
def callClauses (w : World) (n : Nat) (env : Env) (code : List Instruction)
    (clauses : List Clause) (ground : Bool) (m : Machine) (s : Session) :
    Progress × Machine × Session :=
  if clauses.isEmpty then m.callStore w n env code s
  else
    match m.push w env code (.clauses clauses m.args ground) with
    | .error e => (.done (.error e), m, s)
    | .ok m => m.callStore w n env code s

/-- Calls the table of a goal, which is the value of the goal in the registers. -/
def callTable (w : World) (env : Env) (code : List Instruction) (goal : Triple) (m : Machine)
    (s : Session) : Progress × Machine × Session :=
  match s.generatorFor w goal with
  | (.error e, s) => (.done (.error e), m, s)
  | (.ok g, s) =>
    let (c, s) := s.addConsumer g m.owner
    m.afterPush s (m.push w env code (.results c m.called))

def call (w : World) (n : Nat) (env : Env) (code : List Instruction) (m : Machine) (s : Session)
    (c : Call) : Progress × Machine × Session :=
  let goal := m.called.mapTerms m.bindings.deref
  if c.readsTable w.rules goal then
    match m.calledValue n with
    | none => (.endless, m, s)
    | some goal => m.callTable w env code goal s
  else
    match if c.mayCommit then m.bindings.areGround n m.called.terms else some false with
    | none => (.endless, m, s)
    | some ground => m.callClauses w n env code (c.clauses w.rules goal) ground s

/-! ## Instructions -/

/-- The body of a clause fails. -/
def fail (env : Env) (m : Machine) (s : Session) : Progress × Machine × Session :=
  (.go .backtrack, m, s.note (.clauseFailed env.name))

def operate (n : Nat) (env : Env) (code : List Instruction) (op : Operation) (m : Machine)
    (s : Session) : Progress × Machine × Session :=
  match op.run env.name n ⟨m.bindings, m.args, m.temps, env.vars⟩ with
  | none => (.endless, m, s)
  | some (.error e) => (.done (.error e), m, s)
  | some (.ok none) => m.fail env s
  | some (.ok (some r)) =>
    (.go (.run (env.setVars r.vars) code),
      { m with bindings := r.bindings, args := r.args, temps := r.temps }, s)

def callBuiltin (w : World) (n : Nat) (env : Env) (code : List Instruction) (f : Builtin)
    (arity : Nat) (m : Machine) (s : Session) : Progress × Machine × Session :=
  if m.args.length < arity then
    (.done (.error (.malformed env.name s!"{f.name} called with {arity} arguments")), m, s)
  else
    match f.run n w.store env.rule? m.bindings (m.args.take arity) with
    | none => (.endless, m, s)
    | some (.error e) => (.done (.error e), m, s)
    | some (.ok none) => m.fail env (s.note (.builtinFailed env.name f.name))
    | some (.ok (some b)) => (.go (.run env code), { m with bindings := b }, s)

/-- Returns from a clause to its caller, or from the root with an answer. -/
def proceed (n : Nat) (env : Env) (m : Machine) (s : Session) : Progress × Machine × Session :=
  let s := s.note (.clauseLeft env.name)
  match env with
  | .root =>
    match m.solution n with
    | none => (.endless, m, s)
    | some t => (.done (.ok (some t)), m, s)
  | .frame _ _ _ caller code none => (.go (.run caller code), m, s)
  | .frame _ _ _ caller code (some id) => (.go (.run caller code), m.commit id, s)

def execute (w : World) (n : Nat) (env : Env) (code : List Instruction) (m : Machine)
    (s : Session) : Instruction → Progress × Machine × Session
  | .operation op => m.operate n env code op s
  | .call c => m.call w n env code s c
  | .builtin f arity => m.callBuiltin w n env code f arity s
  | .proceed => m.proceed n env s

/-! ## Choice points -/

/-- Leaves the choice point, which is not on the stack, for good. -/
def leave (m : Machine) (s : Session) (e : Event) : Progress × Machine × Session :=
  (.go .backtrack, m, s.note e)

/-- Puts the choice point back with fewer alternatives. -/
def keep (c : Choice) (alternatives : Alternatives) (m : Machine) : Machine :=
  { m with stack := { c with alternatives } :: m.stack }

def enterClause (w : World) (c : Choice) (clause : Clause) (args : List Term) (ground : Bool)
    (m : Machine) (s : Session) : Progress × Machine × Session :=
  let id := m.envs
  match ({ m with args } : Machine).enterEnv w with
  | .error e => (.done (.error e), m, s)
  | .ok m =>
    let s := if w.settings.profile then s.countEntry clause.id else s
    let goal := m.called.mapTerms m.bindings.deref
    let s := s.note (.clauseEntered clause.name goal.subject goal.predicate goal.object)
    let commit := if ground then some c.id else none
    let env := Env.frame id clause (List.replicate clause.permanents none) c.env c.code commit
    (.go (.run env clause.code), m, s)

/-- Goes on where a choice point was made, if its goal matches a triple. -/
def tryTriple (n : Nat) (c : Choice) (goal t : Triple) (m : Machine) (s found : Session) :
    Progress × Machine × Session :=
  match m.bindings.unifyTriple n goal t with
  | none => (.endless, m, s)
  | some none => (.go .backtrack, m, s)
  | some (some b) => (.go (.run c.env c.code), { m with bindings := b }, found)

/-- A stored triple that matches the goal of the machine is an answer itself. -/
def tryAnswer (n : Nat) (goal fact : Triple) (m : Machine) (s : Session) :
    Progress × Machine × Session :=
  match m.bindings.unifyTriple n goal fact with
  | none => (.endless, m, s)
  | some none => (.go .backtrack, m, s)
  | some (some _) => (.done (.ok (some fact)), m, s.note (.goalMatched goal))

/-- Takes a consumer's choice point off the stack until there is more to read. -/
def suspend (c : Choice) (consumer : Nat) (m : Machine) (s : Session) :
    Progress × Machine × Session :=
  let m := ({ m with suspended := m.suspended.insert consumer c } : Machine).pin
  m.leave (s.block m.owner consumer) (.consumerSuspended consumer m.goal)

def tryResult (n : Nat) (c : Choice) (consumer : Nat) (goal : Triple) (m : Machine)
    (s : Session) : Progress × Machine × Session :=
  match s.read consumer with
  | (.result t, s) => (m.keep c (.results consumer goal)).tryTriple n c goal t s s
  | (.exhausted, s) => m.leave (s.removeConsumer consumer) (.consumerExhausted consumer)
  | (.pending, s) => m.suspend c consumer s

/-- Tries the next alternative of a choice point that was taken off the stack. -/
def retry (w : World) (n : Nat) (c : Choice) (m : Machine) (s : Session) :
    Progress × Machine × Session :=
  match c.alternatives with
  | .clauses [] _ _ => m.leave s .clausesExhausted
  | .clauses (clause :: rest) args ground =>
    if m.committed.contains c.id then m.leave s .clausesExhausted
    else (m.keep c (.clauses rest args ground)).enterClause w c clause args ground s
  | .facts goal [] => m.leave s (.factsExhausted goal)
  | .facts goal (fact :: rest) =>
    (m.keep c (.facts goal rest)).tryTriple n c goal fact s (s.note (.factMatched fact))
  | .answers goal [] => m.leave s (.factsExhausted goal)
  | .answers goal (fact :: rest) => (m.keep c (.answers goal rest)).tryAnswer n goal fact s
  | .results consumer goal => m.tryResult n c consumer goal s

/-! ## Runs -/

/-- One step, which follows at most `n` terms inside each other. A choice point or an
environment that is not kept any more cannot be gone on with. -/
def step (w : World) (n : Nat) (control : Control) (m : Machine) (s : Session) :
    Progress × Machine × Session :=
  match control with
  | .backtrack =>
    match m.stack with
    | [] => (.done (.ok none), m, s)
    | c :: rest =>
      if m.choices ≤ c.id then
        (.done (.error (.invalidState s!"no choice point {c.id}")), m, s)
      else ({ m.rewind c with stack := rest } : Machine).retry w n c s
  | .run env code =>
    if m.envs ≤ env.id then
      (.done (.error (.invalidState s!"no environment frame {env.id}")), m, s)
    else
      match code with
      | [] => (.done (.error (.malformed env.name "code ends without PROCEED")), m, s)
      | i :: code => m.execute w n env code s i

/-- Takes at most `fuel` steps to the end of a run; none if the end is further away. -/
def run (w : World) : Nat → Control → Machine → Session →
    Option (Except Failure (Option Triple) × Machine × Session)
  | 0, _, _, _ => none
  | fuel + 1, control, m, s =>
    match m.step w fuel control s with
    | (.go control, m, s) => run w fuel control m s
    | (.done outcome, m, s) => some (outcome, m, s)
    | (.endless, _, _) => none

/-- The next answer. -/
def next (w : World) (fuel : Nat) (m : Machine) (s : Session) :
    Option (Except Failure (Option Triple) × Machine × Session) :=
  match run w fuel .backtrack m s with
  | some (.ok (some t), m, s) => some (.ok (some t), m, s.note (.answer t))
  | other => other

/-- Goes on with a suspended consumer. Nothing else is left to try then. -/
def restore (consumer : Nat) (m : Machine) (s : Session) :
    Except Failure Unit × Machine × Session :=
  if !m.stack.isEmpty then
    (.error (.invalidState "restoring a consumer into a running interpreter"), m, s)
  else if !s.consumers.contains consumer then
    (.error (.invalidState s!"unknown consumer {consumer}"), m, s)
  else
    let s := s.modifyConsumer consumer fun k => { k with suspended := false }
    let m := m.discard
    match (m.suspended[consumer]?).filter fun c => c.id < m.choices with
    | none => (.error (.invalidState s!"consumer {consumer} has no choice point"), m, s)
    | some c =>
      let m :=
        { m with
          bindings := c.bindings.grow m.pinnedVars
          stack := [c]
          suspended := m.suspended.erase consumer }
      (.ok (), m, s.note (.consumerRestored consumer m.goal))

/-- A machine for a query. A tabled goal is read from its table. -/
def startQuery (w : World) (goal : Triple) (query : Nat) (s : Session) :
    Except Failure Machine × Session :=
  match blank w goal (.query query) with
  | .error e => (.error e, s)
  | .ok m =>
    if (w.rules.codeFor m.standard).isEmpty || !w.rules.isTabled m.standard.predicate then
      (start w goal (.query query), s)
    else
      -- no variable has a value yet, so the goal is its own value
      match m.callTable w .root [.proceed] m.standard s with
      | (.done (.error e), _, s) => (.error e, s)
      | (_, m, s) => (.ok m, s)

end Machine

end TabledRules
