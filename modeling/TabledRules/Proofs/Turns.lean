-- The turns of a machine. A turn is what happens between two points where
-- the machine stands at an entry of a body or goes back to a choice point:
-- the operations of a head or of a call, and the instruction after them.
-- Every run is made of turns.
import TabledRules.Proofs.Frames

namespace TabledRules

variable {P : Program} {m : Machine} {env : Env} {code : List Instruction} {fs : List Frame}

/-! ## What can stop a machine -/

/-- What is asked of the store and of the builtins. -/
inductive Inquiry where
  | lookup (pattern : Triple)
  | call (builtin : Builtin) (context : CallContext) (args : List Term)

/-- What a machine that begins with the goal asks: which triples match it. -/
def Triple.inquiry (goal : Triple) : Inquiry := .lookup goal.standard.lookupKey

/-- The failures that a machine does not bring about itself when it asks `asked`: it has no room
for what it has to keep, the store cannot be read, or a builtin fails. -/
inductive Program.Raises (P : Program) (asked : Inquiry → Prop) : Failure → Prop
  | overflow {detail : String} : P.Raises asked (.runtime (.stackOverflow detail))
  | store {pattern : Triple} {e : Failure} : asked (.lookup pattern) →
    P.store.find pattern = .error e → P.Raises asked e
  | builtin {name : String} {f : Builtin} {c : CallContext} {args : List Term} {e : Failure} :
    asked (.call f c args) → P.registry.get? name = some f → c.store = P.store →
    f.call c args = some (.error e) → P.Raises asked e

theorem Program.Raises.mono {asked asked' : Inquiry → Prop} {e : Failure} (h : P.Raises asked e)
    (hsub : ∀ q, asked q → asked' q) : P.Raises asked' e := by
  cases h with
  | overflow => exact .overflow
  | store hq hfind => exact .store (hsub _ hq) hfind
  | builtin hq hget hstore hcall => exact .builtin (hsub _ hq) hget hstore hcall

theorem Program.raises_push {asked : Inquiry → Prop} {w : World} {a : Alternatives} {e : Failure}
    (h : m.push w env code a = .error e) : P.Raises asked e := by
  unfold Machine.push at h
  split at h
  · cases h
    exact .overflow
  · cases h

/-! ## Calls -/

/-- Only the journal and the counts of clause entries differ. -/
def Session.Noted (s s' : Session) : Prop :=
  ∃ journal profile, s' = { s with journal, profile }

theorem Session.Noted.refl (s : Session) : s.Noted s := ⟨s.journal, s.profile, rfl⟩

theorem Session.noted_note (s : Session) (e : Event) : s.Noted (s.note e) := ⟨_, _, rfl⟩

theorem Session.Noted.trans {s s' s'' : Session} (h : s.Noted s') (h' : s'.Noted s'') :
    s.Noted s'' := by
  obtain ⟨j, p, rfl⟩ := h
  obtain ⟨j', p', rfl⟩ := h'
  exact ⟨j', p', rfl⟩

namespace Machine

/-- The machine with one more choice point. -/
def pushed (env : Env) (code : List Instruction) (alternatives : Alternatives) (m : Machine) :
    Machine :=
  { m with
    stack := ⟨m.choices, env, code, m.envs, m.bindings, alternatives⟩ :: m.stack
    choices := m.choices + 1
    committed := m.committed.erase m.choices }

/-- The machine with a choice point for clauses, if there are any. -/
def pushedClauses (env : Env) (code : List Instruction) (clauses : List Clause) (ground : Bool)
    (m : Machine) : Machine :=
  if clauses.isEmpty then m else m.pushed env code (.clauses clauses m.args ground)

theorem push_eq (w : World) (env : Env) (code : List Instruction) (alternatives : Alternatives)
    (m : Machine) :
    (∃ e, m.push w env code alternatives = .error e) ∨
      m.push w env code alternatives = .ok (m.pushed env code alternatives) := by
  unfold push
  split
  · exact .inl ⟨_, rfl⟩
  · exact .inr rfl

end Machine

/-- What a call asks in the machine whose registers have the goal: the goal is looked up, or that
of the table if there is none yet. -/
inductive Call.Asks (P : Program) (c : Call) (m : Machine) (s : Session) : Inquiry → Prop
  | goal {n : Nat} {value : Triple} :
    c.readsTable P.rules (m.called.mapTerms m.bindings.deref) = false →
    m.calledValue n = some value → c.Asks P m s (.lookup value.lookupKey)
  | table {n : Nat} {value : Triple} :
    c.readsTable P.rules (m.called.mapTerms m.bindings.deref) = true →
    m.calledValue n = some value → s.generatorOf? value = none →
    c.Asks P m s value.variantKey.inquiry

/-- What comes of a call in the machine whose registers have the goal. -/
inductive Calls (P : Program) (w : World) (env : Env) (code : List Instruction) (c : Call)
    (m : Machine) (s : Session) : Progress → Machine → Session → Prop
  /-- The store and the clauses are tried. -/
  | search {n : Nat} {value : Triple} {ground : Bool} :
    c.readsTable P.rules (m.called.mapTerms m.bindings.deref) = false →
    (ground = true → c.mayCommit = true ∧ m.bindings.areGround n m.called.terms = some true) →
    m.calledValue n = some value →
    Calls P w env code c m s (.go .backtrack)
      ((m.pushedClauses env code (c.clauses P.rules (m.called.mapTerms m.bindings.deref))
        ground).pushed env code (.facts m.called (P.find value.lookupKey))) s
  /-- There is no room for the choice points, or the store cannot be read. -/
  | full {e : Failure} {ground : Bool} {m' : Machine} :
    c.readsTable P.rules (m.called.mapTerms m.bindings.deref) = false →
    m' = m ∨ m' = m.pushedClauses env code
      (c.clauses P.rules (m.called.mapTerms m.bindings.deref)) ground →
    P.Raises (c.Asks P m s) e → Calls P w env code c m s (.done (.error e)) m' s
  /-- The results of a table are tried. -/
  | table {n : Nat} {value : Triple} {g : Nat} {s' : Session} :
    c.readsTable P.rules (m.called.mapTerms m.bindings.deref) = true →
    m.calledValue n = some value → s.generatorFor w value = (.ok g, s') →
    Calls P w env code c m s (.go .backtrack)
      (m.pushed env code (.results (s'.addConsumer g m.owner).1 m.called))
      (s'.addConsumer g m.owner).2
  /-- There is no room for the choice point of a table. -/
  | tableFull {e : Failure} {value : Triple} {g : Nat} {s' : Session} :
    s.generatorFor w value = (.ok g, s') → P.Raises (c.Asks P m s) e →
    Calls P w env code c m s (.done (.error e)) m (s'.addConsumer g m.owner).2
  /-- There is no machine that fills the table. -/
  | tableRefused {n : Nat} {e : Failure} {value : Triple} {s' : Session} :
    s.generatorFor w value = (.error e, s') →
    c.readsTable P.rules (m.called.mapTerms m.bindings.deref) = true →
    m.calledValue n = some value → Calls P w env code c m s (.done (.error e)) m s'

/-- What looking up the goal in the registers asks. -/
def Machine.LooksUp (n : Nat) (m : Machine) (q : Inquiry) : Prop :=
  ∃ value, m.calledValue n = some value ∧ q = .lookup value.lookupKey

theorem calls_callStore {w : World} {settings : Settings} (hw : w = P.world settings) (n : Nat)
    (env : Env) (code : List Instruction) (m : Machine) (s : Session) :
    m.callStore w n env code s = (.endless, m, s) ∨
    (∃ e, P.Raises (m.LooksUp n) e ∧ m.callStore w n env code s = (.done (.error e), m, s)) ∨
    ∃ value, m.calledValue n = some value ∧ m.callStore w n env code s =
      (.go .backtrack, m.pushed env code (.facts m.called (P.find value.lookupKey)), s) := by
  unfold Machine.callStore
  cases hv : m.calledValue n with
  | none => exact .inl rfl
  | some value =>
    have hstore : w.store = P.store := by
      rw [hw]
      rfl
    simp only [hstore]
    cases hfind : P.store.find value.lookupKey with
    | error e => exact .inr (.inl ⟨e, .store ⟨value, hv, rfl⟩ hfind, rfl⟩)
    | ok facts =>
      have hfacts : P.find value.lookupKey = facts := by
        unfold Program.find
        rw [hfind]
      rcases m.push_eq w env code (.facts m.called facts) with ⟨e, he⟩ | hok
      · exact .inr (.inl ⟨e, Program.raises_push he, by simp only [he]; rfl⟩)
      · exact .inr (.inr ⟨value, rfl, by simp only [hok, hfacts]; rfl⟩)

theorem calls_callClauses {w : World} {settings : Settings} (hw : w = P.world settings) {n : Nat}
    {env : Env} {code : List Instruction} {clauses : List Clause} {ground : Bool} {m m' : Machine}
    {s s' : Session} {p : Progress}
    (h : m.callClauses w n env code clauses ground s = (p, m', s')) (hp : p ≠ .endless) :
    s' = s ∧
      ((∃ e, P.Raises (m.LooksUp n) e ∧ p = .done (.error e) ∧
        (m' = m ∨ m' = m.pushedClauses env code clauses ground)) ∨
      ∃ value, m.calledValue n = some value ∧ p = .go .backtrack ∧
        m' = (m.pushedClauses env code clauses ground).pushed env code
          (.facts m.called (P.find value.lookupKey))) := by
  -- the store is called in the machine that may have a choice point for clauses
  have store : ∀ m1 : Machine, m1 = m.pushedClauses env code clauses ground →
      m1.calledValue n = m.calledValue n → m1.called = m.called →
      m1.callStore w n env code s = (p, m', s') → s' = s ∧
        ((∃ e, P.Raises (m.LooksUp n) e ∧ p = .done (.error e) ∧
          (m' = m ∨ m' = m.pushedClauses env code clauses ground)) ∨
        ∃ value, m.calledValue n = some value ∧ p = .go .backtrack ∧
          m' = (m.pushedClauses env code clauses ground).pushed env code
            (.facts m.called (P.find value.lookupKey))) := by
    rintro m1 hm1 hval hcalled hcall
    rcases calls_callStore hw n env code m1 s with
      hend | ⟨e, hraises, he⟩ | ⟨value, hv, hgo⟩
    · rw [hend] at hcall
      cases hcall
      exact absurd rfl hp
    · rw [he] at hcall
      cases hcall
      exact ⟨rfl, .inl ⟨e, hraises.mono fun _ ⟨v, hv, hq⟩ => ⟨v, hval ▸ hv, hq⟩, rfl, .inr hm1⟩⟩
    · rw [hgo] at hcall
      cases hcall
      exact ⟨rfl, .inr ⟨value, by rw [← hval, hv], rfl, by rw [hm1, ← hcalled, hm1]⟩⟩
  unfold Machine.callClauses at h
  split at h
  · next hnil => exact store m (by simp [Machine.pushedClauses, hnil]) rfl rfl h
  · next hne =>
    rcases m.push_eq w env code (.clauses clauses m.args ground) with ⟨e, he⟩ | hok
    · rw [he] at h
      cases h
      exact ⟨rfl, .inl ⟨e, Program.raises_push he, rfl, .inl rfl⟩⟩
    · rw [hok] at h
      exact store (m.pushed env code (.clauses clauses m.args ground))
        (by simp [Machine.pushedClauses, hne]) rfl rfl h

theorem calls_callTable {w : World} {n : Nat} {env : Env} {code : List Instruction} {c : Call}
    {value : Triple} {m m' : Machine} {s s' : Session} {p : Progress}
    (hc : c.readsTable P.rules (m.called.mapTerms m.bindings.deref) = true)
    (hv : m.calledValue n = some value) (h : m.callTable w env code value s = (p, m', s')) :
    Calls P w env code c m s p m' s' := by
  unfold Machine.callTable at h
  rcases hg : s.generatorFor w value with ⟨e | g, s1⟩
  · rw [hg] at h
    cases h
    exact .tableRefused hg hc hv
  · rw [hg] at h
    simp only at h
    rcases m.push_eq w env code (.results (s1.addConsumer g m.owner).1 m.called) with ⟨e, he⟩ | hok
    · rw [he] at h
      cases h
      exact .tableFull hg (Program.raises_push he)
    · rw [hok] at h
      cases h
      exact .table hc hv hg

theorem calls_of_call {w : World} {settings : Settings} (hw : w = P.world settings) {n : Nat}
    {env : Env} {code : List Instruction} {c : Call} {m m' : Machine} {s s' : Session}
    {p : Progress} (h : m.call w n env code s c = (p, m', s')) (hp : p ≠ .endless) :
    Calls P w env code c m s p m' s' := by
  have hrules : w.rules = P.rules := by rw [hw]; rfl
  simp only [Machine.call, hrules] at h
  cases hc : c.readsTable P.rules (m.called.mapTerms m.bindings.deref) with
  | true =>
    rw [hc, if_pos rfl] at h
    cases hv : m.calledValue n with
    | none =>
      rw [hv] at h
      cases h
      exact absurd rfl hp
    | some value =>
      rw [hv] at h
      exact calls_callTable hc hv h
  | false =>
    rw [hc, if_neg (by simp)] at h
    generalize hground :
      (if c.mayCommit then m.bindings.areGround n m.called.terms else some false) = ground at h
    cases ground with
    | none =>
      cases h
      exact absurd rfl hp
    | some ground =>
      obtain ⟨rfl, ⟨e, hraises, rfl, hm⟩ | ⟨value, hv, rfl, rfl⟩⟩ := calls_callClauses hw h hp
      · exact .full hc hm (hraises.mono fun _ ⟨_, hv, hq⟩ => hq ▸ .goal hc hv)
      · refine .search hc (fun hg => ?_) hv
        subst hg
        split at hground
        · next hcommit => exact ⟨hcommit, hground⟩
        · cases hground

/-! ## Turns -/

namespace Machine

/-- The machine that has gone back to its last choice point and taken it off. -/
def popped (c : Choice) (rest : List Choice) (m : Machine) : Machine :=
  { m.rewind c with stack := rest }

/-- The machine after a clause has succeeded. -/
def left (commit : Option Nat) (m : Machine) : Machine :=
  match commit with
  | none => m
  | some id => m.commit id

/-- The machine that takes up a clause. -/
def entering (args : List Term) (m : Machine) : Machine := { m with args, envs := m.envs + 1 }

/-- The machine that has put a consumer's choice point aside. -/
def parked (c : Choice) (consumer : Nat) (m : Machine) : Machine :=
  ({ m with suspended := m.suspended.insert consumer c } : Machine).pin

end Machine

/-- Nothing is left to try at the choice point. -/
def Choice.Spent (committed : Std.TreeSet Nat) (c : Choice) : Prop :=
  match c.alternatives with
  | .clauses rest _ _ => rest = [] ∨ committed.contains c.id = true
  | .facts _ rest => rest = []
  | .answers _ rest => rest = []
  | .results _ _ => False

/-- The goal in the first three of some arguments. -/
def goalOf (args : List Term) : Triple :=
  ⟨args[0]?.getD .any, args[1]?.getD .any, args[2]?.getD .any⟩

/-- The environment, the number `i`, of a clause that is taken up at a choice point. -/
def Choice.entered (c : Choice) (i : Nat) (cl : Clause) (vars : List (Option Term))
    (ground : Bool) : Env :=
  .frame i cl vars c.env c.code (if ground then some c.id else none)

/-- What a machine asks at a point of its run. -/
inductive Control.Asks (P : Program) (m : Machine) (s : Session) : Control → Inquiry → Prop
  | call {env : Env} {ops : List Operation} {c : Call} {code : List Instruction} {n : Nat}
    {g : Registers} {q : Inquiry} :
    Operation.runAll env.name n (m.registers env) ops = some (.ok (some g)) →
    c.Asks P (m.load g) s q →
    Control.Asks P m s (.run env (ops.map .operation ++ .call c :: code)) q
  | builtin {env : Env} {ops : List Operation} {f : Builtin} {arity n k : Nat}
    {code : List Instruction} {g : Registers} :
    Operation.runAll env.name n (m.registers env) ops = some (.ok (some g)) →
    Control.Asks P m s (.run env (ops.map .operation ++ .builtin f arity :: code))
      (.call f ⟨g.bindings, k, P.store, env.rule?⟩ (g.args.take arity))

inductive Turn (P : Program) (st : Settings) :
    Control → Machine → Session → Progress → Machine → Session → Prop
  /-- A clause succeeds. -/
  | leave {i : Nat} {cl : Clause} {vars : List (Option Term)} {caller : Env}
    {back : List Instruction} {commit : Option Nat} {m : Machine} {s s' : Session} : s.Noted s' →
    Turn P st (.run (.frame i cl vars caller back commit) [.proceed]) m s (.go (.run caller back))
      (m.left commit) s'
  /-- The goal of the machine has an answer. -/
  | answer {n : Nat} {m : Machine} {s s' : Session} {t : Triple} : m.solution n = some t →
    s.Noted s' → Turn P st (.run .root [.proceed]) m s (.done (.ok (some t))) m s'
  | call {env : Env} {ops : List Operation} {c : Call} {code : List Instruction} {n : Nat}
    {g : Registers} {m m' : Machine} {s s' : Session} {p : Progress} :
    Operation.runAll env.name n (m.registers env) ops = some (.ok (some g)) →
    Calls P (P.world st) (env.setVars g.vars) code c (m.load g) s p m' s' →
    Turn P st (.run env (ops.map .operation ++ .call c :: code)) m s p m' s'
  | builtinFails {env : Env} {ops : List Operation} {f : Builtin} {arity n k : Nat}
    {code : List Instruction} {g : Registers} {m : Machine} {s s' : Session} :
    Operation.runAll env.name n (m.registers env) ops = some (.ok (some g)) →
    f.run k P.store env.rule? g.bindings (g.args.take arity) = some (.ok none) →
    s.Noted s' → Turn P st (.run env (ops.map .operation ++ .builtin f arity :: code)) m s
      (.go .backtrack) (m.load g) s'
  | builtinStops {env : Env} {ops : List Operation} {f : Builtin} {arity n k : Nat}
    {code : List Instruction} {g : Registers} {m : Machine} {s : Session} {e : Failure} :
    Operation.runAll env.name n (m.registers env) ops = some (.ok (some g)) →
    f.run k P.store env.rule? g.bindings (g.args.take arity) = some (.error e) →
    Turn P st (.run env (ops.map .operation ++ .builtin f arity :: code)) m s (.done (.error e))
      (m.load g) s
  | builtin {env : Env} {ops : List Operation} {f : Builtin} {arity n k : Nat}
    {code : List Instruction} {g : Registers} {b : Bindings} {m : Machine} {s : Session} :
    Operation.runAll env.name n (m.registers env) ops = some (.ok (some g)) →
    f.run k P.store env.rule? g.bindings (g.args.take arity) = some (.ok (some b)) →
    Turn P st (.run env (ops.map .operation ++ .builtin f arity :: code)) m s
      (.go (.run (env.setVars g.vars) code)) (m.load { g with bindings := b }) s
  /-- There is no choice point. -/
  | empty {m : Machine} {s : Session} : m.stack = [] →
    Turn P st .backtrack m s (.done (.ok none)) m s
  | spent {c : Choice} {rest : List Choice} {m : Machine} {s s' : Session} :
    m.stack = c :: rest → c.Spent m.committed → s.Noted s' →
    Turn P st .backtrack m s (.go .backtrack) (m.popped c rest) s'
  /-- There is no room for the environment of a clause. -/
  | full {c : Choice} {rest : List Choice} {cl : Clause} {cls : List Clause} {args : List Term}
    {ground : Bool} {m : Machine} {s : Session} {e : Failure} :
    m.stack = c :: rest → c.alternatives = .clauses (cl :: cls) args ground →
    P.Raises (fun _ => False) e →
    Turn P st .backtrack m s (.done (.error e))
      ((m.popped c rest).keep c (.clauses cls args ground)) s
  /-- A clause is not for the goal. -/
  | refuse {c : Choice} {rest : List Choice} {cl : Clause} {cls : List Clause} {args : List Term}
    {ground : Bool} {m : Machine} {s s' : Session} {n : Nat} {g : Registers} :
    m.stack = c :: rest → c.alternatives = .clauses (cl :: cls) args ground →
    cl.rule.enter n (goalOf args) (m.popped c rest).bindings = some none →
    g.args.length = maxArguments → g.temps.length = m.temps.length → s.Noted s' →
    Turn P st .backtrack m s (.go .backtrack)
      ((((m.popped c rest).keep c (.clauses cls args ground)).entering args).load g) s'
  /-- A clause is taken up. -/
  | enter {c : Choice} {rest : List Choice} {cl : Clause} {cls : List Clause} {args : List Term}
    {ground : Bool} {m : Machine} {s s' : Session} {n : Nat} {g : Registers} {θ : Values}
    {code : List Instruction} :
    m.stack = c :: rest → c.alternatives = .clauses (cl :: cls) args ground →
    cl.rule.enter n (goalOf args) (m.popped c rest).bindings = some (some (θ, g.bindings)) →
    g.args.length = maxArguments → g.temps.length = m.temps.length →
    (∀ m', m'.registers (c.entered (m.popped c rest).envs cl g.vars ground) = g →
      ∀ fs, Models P c.env c.code fs → Running P m' (c.entered (m.popped c rest).envs cl g.vars ground)
        code (⟨cl.rule, θ, cl.rule.steps⟩ :: fs)) →
    s.Noted s' →
    Turn P st .backtrack m s
      (.go (.run (c.entered (m.popped c rest).envs cl g.vars ground) code))
      ((((m.popped c rest).keep c (.clauses cls args ground)).entering args).load g) s'
  | missFact {c : Choice} {rest : List Choice} {goal fact : Triple} {facts : List Triple}
    {m : Machine} {s : Session} {n : Nat} :
    m.stack = c :: rest → c.alternatives = .facts goal (fact :: facts) →
    (m.popped c rest).bindings.unifyTriple n goal fact = some none →
    Turn P st .backtrack m s (.go .backtrack) ((m.popped c rest).keep c (.facts goal facts)) s
  | fact {c : Choice} {rest : List Choice} {goal fact : Triple} {facts : List Triple}
    {m : Machine} {s s' : Session} {n : Nat} {b : Bindings} :
    m.stack = c :: rest → c.alternatives = .facts goal (fact :: facts) →
    (m.popped c rest).bindings.unifyTriple n goal fact = some (some b) → s.Noted s' →
    Turn P st .backtrack m s (.go (.run c.env c.code))
      { (m.popped c rest).keep c (.facts goal facts) with bindings := b } s'
  | missAnswer {c : Choice} {rest : List Choice} {goal fact : Triple} {facts : List Triple}
    {m : Machine} {s : Session} {n : Nat} :
    m.stack = c :: rest → c.alternatives = .answers goal (fact :: facts) →
    (m.popped c rest).bindings.unifyTriple n goal fact = some none →
    Turn P st .backtrack m s (.go .backtrack) ((m.popped c rest).keep c (.answers goal facts)) s
  /-- A stored triple is an answer to the goal of the machine. -/
  | storedAnswer {c : Choice} {rest : List Choice} {goal fact : Triple} {facts : List Triple}
    {m : Machine} {s s' : Session} {n : Nat} {b : Bindings} :
    m.stack = c :: rest → c.alternatives = .answers goal (fact :: facts) →
    (m.popped c rest).bindings.unifyTriple n goal fact = some (some b) → s.Noted s' →
    Turn P st .backtrack m s (.done (.ok (some fact)))
      ((m.popped c rest).keep c (.answers goal facts)) s'
  | missResult {c : Choice} {rest : List Choice} {consumer : Nat} {goal t : Triple}
    {m : Machine} {s s' : Session} {n : Nat} :
    m.stack = c :: rest → c.alternatives = .results consumer goal →
    s.read consumer = (.result t, s') →
    (m.popped c rest).bindings.unifyTriple n goal t = some none →
    Turn P st .backtrack m s (.go .backtrack)
      ((m.popped c rest).keep c (.results consumer goal)) s'
  | result {c : Choice} {rest : List Choice} {consumer : Nat} {goal t : Triple}
    {m : Machine} {s s' : Session} {n : Nat} {b : Bindings} :
    m.stack = c :: rest → c.alternatives = .results consumer goal →
    s.read consumer = (.result t, s') →
    (m.popped c rest).bindings.unifyTriple n goal t = some (some b) →
    Turn P st .backtrack m s (.go (.run c.env c.code))
      { (m.popped c rest).keep c (.results consumer goal) with bindings := b } s'
  | exhausted {c : Choice} {rest : List Choice} {consumer : Nat} {goal : Triple}
    {m : Machine} {s s' : Session} :
    m.stack = c :: rest → c.alternatives = .results consumer goal →
    (s.read consumer).1 = .exhausted → (s.removeConsumer consumer).Noted s' →
    Turn P st .backtrack m s (.go .backtrack) (m.popped c rest) s'
  /-- A consumer has to wait. -/
  | park {c : Choice} {rest : List Choice} {consumer : Nat} {goal : Triple}
    {m : Machine} {s s' : Session} :
    m.stack = c :: rest → c.alternatives = .results consumer goal →
    (s.read consumer).1 = .pending → (s.block m.owner consumer).Noted s' →
    Turn P st .backtrack m s (.go .backtrack) ((m.popped c rest).parked c consumer) s'

/-! ## Runs are made of turns -/

/-- The clauses that are left to try are the program's. -/
def Choice.Fit (P : Program) (c : Choice) : Prop :=
  match c.alternatives with
  | .clauses rest args _ => args.length = maxArguments ∧ ∀ cl ∈ rest, cl ∈ P.rules.clauses.toList
  | _ => True

/-- The environment is among the first `n`, and its callers are older. -/
def Env.Below (n : Nat) : Env → Prop
  | .root => 0 < n
  | .frame i _ _ caller _ _ => i < n ∧ caller.Below i

/-- The choice point is among the first `choices`, and its environments among the first
`envs`. -/
def Choice.Kept (choices envs : Nat) (c : Choice) : Prop :=
  c.id < choices ∧ c.envs ≤ envs ∧ c.env.Below c.envs

/-- All choice points are kept, and so are the environments they stand in: those to go back to
are the younger the later they were made, and those put aside are pinned. -/
structure Machine.Numbered (m : Machine) : Prop where
  order : m.stack.Pairwise fun y x => x.id < y.id ∧ x.envs ≤ y.envs
  stack : ∀ c ∈ m.stack, c.Kept m.choices m.envs
  suspended : ∀ {d : Nat} {c : Choice}, m.suspended[d]? = some c →
    c.Kept m.pinned.choices m.pinned.envs
  choices_le : m.pinned.choices ≤ m.choices
  envs_le : m.pinned.envs ≤ m.envs

/-- The registers and the choice points of a machine can be used. -/
structure Machine.Fit (P : Program) (m : Machine) : Prop where
  args_length : m.args.length = maxArguments
  temps_length : m.temps.length = maxTemporaries
  stack : ∀ c ∈ m.stack, c.Fit P
  numbered : m.Numbered

/-- Code runs in environments that are kept, where it stands for something. -/
def Control.Fit (P : Program) (m : Machine) : Control → Prop
  | .backtrack => True
  | .run env code => env.Below m.envs ∧ ∃ fs, Running P m env code fs

theorem Env.Below.id_lt {n : Nat} {env : Env} (h : env.Below n) : env.id < n := by
  cases env with
  | root => exact h
  | frame => exact h.1

/-- The first turn of a run, and the run after it. -/
def FirstTurn (P : Program) (st : Settings) (f : Nat) (control : Control) (m : Machine)
    (s : Session) (o : Except Failure (Option Triple)) (m' : Machine) (s' : Session) : Prop :=
  Turn P st control m s (.done o) m' s' ∨
  ∃ control1 m1 s1 f', f' < f ∧ Turn P st control m s (.go control1) m1 s1 ∧
    Machine.run (P.world st) f' control1 m1 s1 = some (o, m', s')

variable {st : Settings} {f : Nat} {control : Control} {s s' : Session} {m' : Machine}
  {o : Except Failure (Option Triple)}

/-- A run whose first step is known. -/
theorem run_of_step {w : World} {p : Progress} {m1 : Machine} {s1 : Session}
    (hstep : m.step w f control s = (p, m1, s1))
    (h : Machine.run w (f + 1) control m s = some (o, m', s')) :
    p = .done o ∧ m1 = m' ∧ s1 = s' ∨
      ∃ control1, p = .go control1 ∧ Machine.run w f control1 m1 s1 = some (o, m', s') := by
  rw [Machine.run, hstep] at h
  cases p with
  | go control1 => exact .inr ⟨control1, rfl, h⟩
  | done o1 => cases h; exact .inl ⟨rfl, rfl, rfl⟩
  | endless => cases h

/-- The last choice point of a machine is kept, so the machine can go back to it. -/
theorem step_backtrack {w : World} {n : Nat} {c : Choice} {rest : List Choice} (hm : m.Numbered)
    (hstack : m.stack = c :: rest) :
    m.step w n .backtrack s = (m.popped c rest).retry w n c s := by
  have hkept := (hm.stack c (by rw [hstack]; exact List.mem_cons_self)).1
  simp only [Machine.step, hstack, if_neg (Nat.not_le.2 hkept)]
  rfl

theorem firstTurn_of_step {p : Progress} {m1 : Machine} {s1 : Session}
    (h : Machine.run (P.world st) (f + 1) control m s = some (o, m', s'))
    (hstep : m.step (P.world st) f control s = (p, m1, s1))
    (hturn : p ≠ .endless → Turn P st control m s p m1 s1) :
    FirstTurn P st (f + 1) control m s o m' s' := by
  rcases run_of_step hstep h with ⟨rfl, rfl, rfl⟩ | ⟨control1, rfl, hrun⟩
  · exact .inl (hturn (by simp))
  · exact .inr ⟨control1, m1, s1, f, Nat.lt_succ_self f, hturn (by simp), hrun⟩

/-- A turn that ends with a call, after the operations that pass its arguments. -/
theorem firstTurn_call {env : Env} {ops : List Operation} {c : Call} {code : List Instruction}
    {n f' : Nat} {g : Registers} (hroom : env.id < m.envs) (hf : f' ≤ f)
    (hg : Operation.runAll env.name n (m.registers env) ops = some (.ok (some g)))
    (h : Machine.run (P.world st) f' (.run (env.setVars g.vars) (.call c :: code)) (m.load g) s =
      some (o, m', s')) :
    FirstTurn P st f (.run env (ops.map .operation ++ .call c :: code)) m s o m' s' := by
  cases f' with
  | zero => cases h
  | succ f' =>
    rcases hcall : (m.load g).call (P.world st) f' (env.setVars g.vars) code s c with ⟨p, m1, s1⟩
    have hstep : (m.load g).step (P.world st) f' (.run (env.setVars g.vars) (.call c :: code)) s =
        (p, m1, s1) := by
      rw [Machine.step, if_neg (Nat.not_le.2 (by rwa [Env.id_setVars]))]
      exact hcall
    have hturn : p ≠ .endless → Turn P st (.run env (ops.map .operation ++ .call c :: code))
        m s p m1 s1 := fun hp => .call hg (calls_of_call rfl hcall hp)
    rcases run_of_step hstep h with ⟨rfl, rfl, rfl⟩ | ⟨control1, rfl, hrun1⟩
    · exact .inl (hturn (by simp))
    · exact .inr ⟨control1, m1, s1, f', by omega, hturn (by simp), hrun1⟩

theorem firstTurn_builtin {env : Env} (henv : env.IsFrame) (hroom : env.id < m.envs) {ops : List Operation} {b : Builtin}
    {arity : Nat} {code : List Instruction} {n f' : Nat} {g : Registers} (hf : f' ≤ f)
    (hg : Operation.runAll env.name n (m.registers env) ops = some (.ok (some g)))
    (hlen : arity ≤ g.args.length)
    (h : Machine.run (P.world st) f' (.run (env.setVars g.vars) (.builtin b arity :: code))
      (m.load g) s = some (o, m', s')) :
    FirstTurn P st f (.run env (ops.map .operation ++ .builtin b arity :: code)) m s o m' s' := by
  cases f' with
  | zero => cases h
  | succ f' =>
    have hrule : (env.setVars g.vars).rule? = env.rule? := by
      obtain ⟨_, _, _, _, _, _, rfl⟩ := henv
      rfl
    have hlt : ¬ (m.load g).args.length < arity := Nat.not_lt.2 hlen
    obtain ⟨x, hb⟩ : ∃ x, b.run f' P.store env.rule? g.bindings (g.args.take arity) = x := ⟨_, rfl⟩
    have hb' : b.run f' (P.world st).store env.rule? (m.load g).bindings
        ((m.load g).args.take arity) = x := hb
    have hstep : (m.load g).step (P.world st) f'
        (.run (env.setVars g.vars) (.builtin b arity :: code)) s =
        (m.load g).callBuiltin (P.world st) f' (env.setVars g.vars) code b arity s := by
      rw [Machine.step, if_neg (Nat.not_le.2 (by rwa [Env.id_setVars]))]
      rfl
    rw [Machine.callBuiltin, if_neg hlt, hrule, hb'] at hstep
    rcases x with _ | e | _ | b'
    · rcases run_of_step hstep h with ⟨hp, -⟩ | ⟨control1, hp, -⟩ <;> cases hp
    · rcases run_of_step hstep h with ⟨hp, rfl, rfl⟩ | ⟨control1, hp, -⟩
      · cases hp
        exact .inl (.builtinStops hg hb)
      · cases hp
    · rcases run_of_step hstep h with ⟨hp, -⟩ | ⟨control1, hp, hrun1⟩
      · cases hp
      · cases hp
        exact .inr ⟨_, _, _, f', by omega, .builtinFails hg hb
          ((s.noted_note _).trans (Session.noted_note _ _)), hrun1⟩
    · rcases run_of_step hstep h with ⟨hp, -⟩ | ⟨control1, hp, hrun1⟩
      · cases hp
      · cases hp
        exact .inr ⟨_, _, _, f', by omega, .builtin hg hb, hrun1⟩

/-- The first turn of code in a body. -/
theorem firstTurn_run (hP : P.Compiled) (hm : m.Fit P) {env : Env} {code : List Instruction}
    (hrun : Control.Fit P m (.run env code))
    (h : Machine.run (P.world st) f (.run env code) m s = some (o, m', s')) :
    FirstTurn P st f (.run env code) m s o m' s' := by
  obtain ⟨hbelow, fs, hfs⟩ := hrun
  have hroom := hbelow.id_lt
  rcases hfs.shape hP hm.args_length with ⟨rfl, rfl⟩ | ⟨henv, rfl | ⟨ops, i, code', rfl, hi, hops⟩⟩
  · cases f with
    | zero => cases h
    | succ f =>
      have hstep : m.step (P.world st) f (.run .root [.proceed]) s = m.proceed f .root s := by
        rw [Machine.step, if_neg (Nat.not_le.2 hroom)]
        rfl
      cases ht : m.solution f with
      | none =>
        simp only [Machine.proceed, ht] at hstep
        exact firstTurn_of_step h hstep fun hp => absurd rfl hp
      | some t =>
        simp only [Machine.proceed, ht] at hstep
        exact firstTurn_of_step h hstep fun _ => .answer ht (s.noted_note _)
  · cases f with
    | zero => cases h
    | succ f =>
      obtain ⟨i, cl, vars, caller, back, commit, rfl⟩ := henv
      have hstep : m.step (P.world st) f (.run (.frame i cl vars caller back commit) [.proceed]) s =
          (.go (.run caller back), m.left commit, s.note (.clauseLeft cl.name)) := by
        rw [Machine.step, if_neg (Nat.not_le.2 hroom)]
        cases commit <;> rfl
      exact firstTurn_of_step h hstep fun _ => .leave (s.noted_note (.clauseLeft cl.name))
  · obtain ⟨g, hg⟩ := hops f
    rcases Machine.run_operations henv hroom ops h with
      ⟨g', f', hf', hg', hrun'⟩ | ⟨e, he⟩ | ⟨hnone, -⟩
    · rcases hi with ⟨c, rfl⟩ | ⟨b, arity, rfl, harity⟩
      · exact firstTurn_call hroom hf' hg' hrun'
      · refine firstTurn_builtin henv hroom hf' hg' ?_ hrun'
        rw [(Operation.sizes_runAll hg').args]
        exact harity.trans_eq hm.args_length.symm
    · rw [hg] at he
      cases he
    · rw [hg] at hnone
      cases hnone

theorem take_three {args : List Term} (h : args.length = maxArguments) :
    args.take 3 = (goalOf args).terms := by
  match args, h with
  | a :: b :: c :: rest, _ => rfl

/-- A clause of the program has room for its temporary variables. -/
theorem temporary_le (hP : P.Compiled) {cl : Clause} (hcl : cl ∈ P.rules.clauses.toList) :
    cl.rule.placement.temporary.length ≤ maxTemporaries := by
  have hf := (hP cl hcl).1
  unfold Rule.fault? Rule.tooManyRegisters at hf
  have h := (Option.or_eq_none_iff.1 hf).1
  split at h
  · cases h
  · split at h
    · cases h
    · omega

/-- The first turn where a clause is tried: its head refuses the goal or is matched. -/
theorem firstTurn_clause (hP : P.Compiled) (hm : m.Fit P) {c : Choice} {rest : List Choice}
    {cl : Clause} {cls : List Clause} {args : List Term} {ground : Bool}
    (hstack : m.stack = c :: rest) (halt : c.alternatives = .clauses (cl :: cls) args ground)
    (hopen : m.committed.contains c.id = false)
    (h : Machine.run (P.world st) f .backtrack m s = some (o, m', s')) :
    FirstTurn P st f .backtrack m s o m' s' := by
  cases f with
  | zero => cases h
  | succ f =>
    have hfit : args.length = maxArguments ∧ ∀ d ∈ cl :: cls, d ∈ P.rules.clauses.toList := by
      have := hm.stack c (by rw [hstack]; exact List.mem_cons_self)
      unfold Choice.Fit at this
      rwa [halt] at this
    have hcl := hfit.2 cl List.mem_cons_self
    generalize hm2 : (m.popped c rest).keep c (.clauses cls args ground) = m2
    have hstep : m.step (P.world st) f .backtrack s =
        m2.enterClause (P.world st) c cl args ground s := by
      have hretry : m.step (P.world st) f .backtrack s =
          (m.popped c rest).retry (P.world st) f c s := by
        exact step_backtrack hm.numbered hstack
      have hcommitted : (m.popped c rest).committed.contains c.id = false := hopen
      rw [hretry]
      unfold Machine.retry
      simp only [halt, hcommitted, Bool.false_eq_true, if_false]
      rw [hm2]
    unfold Machine.enterClause at hstep
    by_cases hroom : (P.world st).settings.stackLimit ≤ m2.envs
    · have hfull : ({ m2 with args } : Machine).enterEnv (P.world st) =
          .error (({ m2 with args } : Machine).overflow (P.world st)) := by
        unfold Machine.enterEnv
        rw [if_pos hroom]
      rw [hfull] at hstep
      refine firstTurn_of_step h hstep fun _ => ?_
      rw [← hm2]
      exact .full hstack halt .overflow
    · have hok : ({ m2 with args } : Machine).enterEnv (P.world st) = .ok (m2.entering args) := by
        unfold Machine.enterEnv
        rw [if_neg hroom]
        rfl
      rw [hok] at hstep
      obtain ⟨s2, hnoted, hstep⟩ : ∃ s2, s.Noted s2 ∧ m.step (P.world st) f .backtrack s =
          (.go (.run (c.entered m2.envs cl (List.replicate cl.permanents none) ground) cl.code),
            m2.entering args, s2) := by
        refine ⟨_, ?_, hstep⟩
        refine Session.Noted.trans ?_ (Session.noted_note _ _)
        by_cases hprofile : (P.world st).settings.profile = true
        · rw [if_pos hprofile]
          exact ⟨_, _, rfl⟩
        · rw [if_neg hprofile]
          exact .refl s
      rcases run_of_step hstep h with ⟨hp, -⟩ | ⟨control1, hp, hrun⟩
      · cases hp
      cases hp
      obtain ⟨hfault, hcode, hperm⟩ := hP cl hcl
      obtain ⟨ops, known, code, hsplit, hrest, hagree⟩ :=
        enter_agrees cl.rule P.rules.layout P.registry hfault
      rw [hcode, hsplit] at hrun
      generalize henv0 : c.entered m2.envs cl (List.replicate cl.permanents none) ground = env0
        at hrun
      have henv : env0.IsFrame := ⟨_, _, _, _, _, _, henv0.symm⟩
      have hroom0 : env0.id < (m2.entering args).envs := by
        rw [← henv0]
        exact Nat.lt_succ_self _
      have hname : env0.name = cl.rule.name := by rw [← henv0]; rfl
      have hvars : env0.vars = List.replicate cl.rule.placement.permanent.length none := by
        rw [← henv0, ← hperm]
        rfl
      have htemps : m2.temps = m.temps := by rw [← hm2]; rfl
      have hbind : m2.bindings = (m.popped c rest).bindings := by rw [← hm2]; rfl
      have hcalled : cl.rule.Called (goalOf args) ((m2.entering args).registers env0) := by
        refine ⟨hvars, ?_, hfit.1, take_three hfit.1⟩
        change _ ≤ m2.temps.length
        rw [htemps, hm.temps_length]
        exact temporary_le hP hcl
      have hag := hagree f _ _ hcalled
      have hmatch : ((m2.entering args).registers env0).bindings = (m.popped c rest).bindings :=
        hbind
      rw [hmatch] at hag
      have hops := Machine.run_operations henv hroom0 ops hrun
      rw [hname] at hops
      rcases hy : cl.rule.enter f (goalOf args) (m.popped c rest).bindings with _ | _ | ⟨θ, b⟩
      · rw [hy] at hag
        rcases hops with ⟨g, f', -, hg, -⟩ | ⟨e, he⟩ | ⟨hnone, -⟩
        · rw [hag] at hg; cases hg
        · rw [hag] at he; cases he
        · rw [hag] at hnone; cases hnone
      · rw [hy] at hag
        rcases hops with ⟨g, f', -, hg, -⟩ | ⟨e, he⟩ | ⟨-, g, f', hf', hsz, hrun'⟩
        · rw [hag] at hg; cases hg
        · rw [hag] at he; cases he
        · refine .inr ⟨_, _, _, f', by omega, ?_, hrun'⟩
          rw [← hm2]
          exact .refuse hstack halt hy (hsz.args.trans hfit.1)
            (hsz.temps.trans (by rw [show ((m2.entering args).registers env0).temps = m2.temps from rfl, htemps]))
            (hnoted.trans (Session.noted_note _ _))
      · rw [hy] at hag
        obtain ⟨g', hg', hb, hstands, hlen⟩ := hag
        rcases hops with ⟨g, f', hf', hg, hrun'⟩ | ⟨e, he⟩ | ⟨hnone, -⟩
        · obtain rfl : g' = g := by
            rw [hg'] at hg
            simpa using hg
          refine .inr ⟨_, _, _, f', by omega, ?_, hrun'⟩
          rw [← henv0, ← hm2]
          refine .enter hstack halt (hb ▸ hy) hlen ?_ ?_ hnoted
          · rw [(Operation.sizes_runAll hg').temps]
            exact congrArg List.length htemps
          · intro m3 hm3 fs hfs
            refine .frame hcl List.suffix_rfl hrest ?_ hfs
            have : m3.registers (c.entered (m.popped c rest).envs cl g'.vars ground) = g' := hm3
            unfold Choice.entered at this
            rw [this]
            exact hstands
        · rw [hg'] at he; cases he
        · rw [hg'] at hnone; cases hnone

theorem Machine.bindings_keep (m : Machine) (c : Choice) (a : Alternatives) :
    (m.keep c a).bindings = m.bindings := rfl

theorem retry_fact {w : World} {n : Nat} {c : Choice} {goal fact : Triple} {facts : List Triple}
    (halt : c.alternatives = .facts goal (fact :: facts)) :
    m.retry w n c s = (m.keep c (.facts goal facts)).tryTriple n c goal fact s
      (s.note (.factMatched fact)) := by
  simp only [Machine.retry, halt]

theorem retry_answer {w : World} {n : Nat} {c : Choice} {goal fact : Triple}
    {facts : List Triple} (halt : c.alternatives = .answers goal (fact :: facts)) :
    m.retry w n c s = (m.keep c (.answers goal facts)).tryAnswer n goal fact s := by
  simp only [Machine.retry, halt]

theorem retry_result {w : World} {n : Nat} {c : Choice} {consumer : Nat} {goal : Triple}
    (halt : c.alternatives = .results consumer goal) :
    m.retry w n c s = m.tryResult n c consumer goal s := by
  simp only [Machine.retry, halt]

theorem retry_spent {w : World} {n : Nat} {c : Choice} (h : c.Spent m.committed) :
    ∃ s', s.Noted s' ∧ m.retry w n c s = (.go .backtrack, m, s') := by
  unfold Choice.Spent at h
  cases halt : c.alternatives with
  | clauses cls args ground =>
    refine ⟨_, s.noted_note .clausesExhausted, ?_⟩
    cases cls with
    | nil => simp only [Machine.retry, halt, Machine.leave]
    | cons cl cls =>
      rw [halt] at h
      have hc : m.committed.contains c.id = true := by simpa using h
      simp only [Machine.retry, halt, Machine.leave, hc, if_true]
  | facts goal facts =>
    rw [halt] at h
    simp only at h
    subst h
    refine ⟨_, s.noted_note (.factsExhausted goal), ?_⟩
    simp only [Machine.retry, halt, Machine.leave]
  | answers goal facts =>
    rw [halt] at h
    simp only at h
    subst h
    refine ⟨_, s.noted_note (.factsExhausted goal), ?_⟩
    simp only [Machine.retry, halt, Machine.leave]
  | results consumer goal =>
    rw [halt] at h
    exact h.elim

/-- The first turn where results are tried. -/
theorem firstTurn_results {c : Choice} {rest : List Choice} {consumer : Nat} {goal : Triple}
    (hstack : m.stack = c :: rest) (halt : c.alternatives = .results consumer goal)
    (hstep : m.step (P.world st) f .backtrack s =
      (m.popped c rest).tryResult f c consumer goal s)
    (h : Machine.run (P.world st) (f + 1) .backtrack m s = some (o, m', s')) :
    FirstTurn P st (f + 1) .backtrack m s o m' s' := by
  unfold Machine.tryResult at hstep
  rcases hread : s.read consumer with ⟨reading, s1⟩
  rw [hread] at hstep
  have hsame : ∀ r, reading = r → (∀ t, r ≠ .result t) → s1 = s := by
    rintro r rfl hne
    unfold Session.read at hread
    split at hread
    · cases hread; rfl
    · split at hread
      · cases hread; rfl
      · split at hread
        · cases hread
          exact absurd rfl (hne _)
        · cases hread; rfl
  cases reading with
  | result t =>
    simp only [Machine.tryTriple, Machine.bindings_keep] at hstep
    rcases hu : (m.popped c rest).bindings.unifyTriple f goal t with _ | _ | b
    · rw [hu] at hstep
      exact firstTurn_of_step h hstep fun hp => absurd rfl hp
    · rw [hu] at hstep
      exact firstTurn_of_step h hstep fun _ => .missResult hstack halt hread hu
    · rw [hu] at hstep
      exact firstTurn_of_step h hstep fun _ => .result hstack halt hread hu
  | exhausted =>
    obtain rfl := hsame _ rfl (by simp)
    exact firstTurn_of_step h hstep fun _ =>
      .exhausted hstack halt (by rw [hread]) (Session.noted_note _ _)
  | pending =>
    obtain rfl := hsame _ rfl (by simp)
    exact firstTurn_of_step h hstep fun _ =>
      .park hstack halt (by rw [hread]) (Session.noted_note _ _)

theorem firstTurn_backtrack (hP : P.Compiled) (hm : m.Fit P)
    (h : Machine.run (P.world st) f .backtrack m s = some (o, m', s')) :
    FirstTurn P st f .backtrack m s o m' s' := by
  cases f with
  | zero => cases h
  | succ f =>
    cases hstack : m.stack with
    | nil =>
      have hstep : m.step (P.world st) f .backtrack s = (.done (.ok none), m, s) := by
        simp only [Machine.step, hstack]
      exact firstTurn_of_step h hstep fun _ => .empty hstack
    | cons c rest =>
      have hstep : m.step (P.world st) f .backtrack s =
          (m.popped c rest).retry (P.world st) f c s := step_backtrack hm.numbered hstack
      by_cases hspent : c.Spent m.committed
      · obtain ⟨s1, hnoted, hretry⟩ := retry_spent (m := m.popped c rest) (s := s) (n := f)
          (w := P.world st) hspent
        exact firstTurn_of_step h (hstep.trans hretry) fun _ => .spent hstack hspent hnoted
      · cases halt : c.alternatives with
        | clauses cls args ground =>
          simp only [Choice.Spent, halt, not_or] at hspent
          cases cls with
          | nil => exact absurd rfl hspent.1
          | cons cl cls => exact firstTurn_clause hP hm hstack halt (Bool.eq_false_of_not_eq_true hspent.2) h
        | facts goal facts =>
          cases facts with
          | nil => simp [Choice.Spent, halt] at hspent
          | cons fact facts =>
            rw [retry_fact halt, Machine.tryTriple, Machine.bindings_keep] at hstep
            rcases hu : (m.popped c rest).bindings.unifyTriple f goal fact with _ | _ | b
            · rw [hu] at hstep
              exact firstTurn_of_step h hstep fun hp => absurd rfl hp
            · rw [hu] at hstep
              exact firstTurn_of_step h hstep fun _ => .missFact hstack halt hu
            · rw [hu] at hstep
              exact firstTurn_of_step h hstep fun _ => .fact hstack halt hu (s.noted_note _)
        | answers goal facts =>
          cases facts with
          | nil => simp [Choice.Spent, halt] at hspent
          | cons fact facts =>
            rw [retry_answer halt, Machine.tryAnswer, Machine.bindings_keep] at hstep
            rcases hu : (m.popped c rest).bindings.unifyTriple f goal fact with _ | _ | b
            · rw [hu] at hstep
              exact firstTurn_of_step h hstep fun hp => absurd rfl hp
            · rw [hu] at hstep
              exact firstTurn_of_step h hstep fun _ => .missAnswer hstack halt hu
            · rw [hu] at hstep
              exact firstTurn_of_step h hstep fun _ => .storedAnswer hstack halt hu (s.noted_note _)
        | results consumer goal =>
          exact firstTurn_results hstack halt (hstep.trans (retry_result halt)) h

/-- Every run begins with a turn. -/
theorem firstTurn_of_run (hP : P.Compiled) (hm : m.Fit P) (hcontrol : control.Fit P m)
    (h : Machine.run (P.world st) f control m s = some (o, m', s')) :
    FirstTurn P st f control m s o m' s' := by
  cases control with
  | backtrack => exact firstTurn_backtrack hP hm h
  | run env code => exact firstTurn_run hP hm hcontrol h

/-- What every turn keeps, every run keeps: `I` holds at each turn and `Q` at the end. -/
theorem run_keeps (hP : P.Compiled) {I : Control → Machine → Session → Prop}
    {Q : Except Failure (Option Triple) → Machine → Session → Prop}
    (hfit : ∀ control m s, I control m s → m.Fit P ∧ control.Fit P m)
    (hgo : ∀ {control m s control' m' s'}, I control m s →
      Turn P st control m s (.go control') m' s' → I control' m' s')
    (hdone : ∀ {control m s o m' s'}, I control m s → Turn P st control m s (.done o) m' s' →
      Q o m' s')
    (h : I control m s) (hrun : Machine.run (P.world st) f control m s = some (o, m', s')) :
    Q o m' s' := by
  induction f using Nat.strongRecOn generalizing control m s with
  | ind f ih =>
    obtain ⟨hm, hc⟩ := hfit _ _ _ h
    rcases firstTurn_of_run hP hm hc hrun with hturn | ⟨control1, m1, s1, f', hf', hturn, hrun'⟩
    · exact hdone h hturn
    · exact ih f' hf' (hgo h hturn) hrun'

end TabledRules
