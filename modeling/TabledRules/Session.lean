-- The tables of an engine. Each tabled goal has a generator, whose machine
-- derives results. A consumer reads the results of one generator on behalf
-- of another generator or of a query, and is suspended when it has read
-- them all.
import Std.Data.TreeMap
import TabledRules.Event
import TabledRules.Index
import TabledRules.Machine
import TabledRules.Queue
import TabledRules.Report
import TabledRules.Term.Digest

namespace TabledRules

/-! ## Generators and consumers -/

structure Generator where
  /-- The goal in the form that its variants share. -/
  goal : Triple
  results : Index Triple.digest := {}
  machine : Option Machine
  /-- The consumers that read the results, the last one first. -/
  consumers : List Nat := []
  /-- The suspended consumers of its own machine, the last one first. -/
  generating : List Nat := []
  /-- It has not run yet. -/
  ready : Bool := true
  complete : Bool := false
deriving Inhabited

namespace Generator

/-- A ground goal has at most one result. -/
def isSingleton (g : Generator) : Bool := g.goal.isGround

/-- The result is not there yet, and there is room for it. -/
def isNew (g : Generator) (t : Triple) : Bool :=
  if g.isSingleton then g.results.size = 0 else !g.results.contains t

end Generator

structure Consumer where
  generator : Nat
  /-- How many results it has read. -/
  read : Nat := 0
  owner : Owner
  suspended : Bool := false
  /-- It stands on the agenda. -/
  scheduled : Bool := false
deriving DecidableEq, Inhabited

inductive Task where
  | start (generator : Nat)
  | resume (consumer : Nat)
deriving DecidableEq, Inhabited

/-- The number that a goal and its generator are found by. -/
def goalKey (entry : Triple × Nat) : Nat := entry.1.digest

theorem getD_no_goals (k : Nat) : (∅ : Std.TreeMap Nat (List (Triple × Nat))).getD k [] =
    (#[] : Array (Triple × Nat)).toList.filter (goalKey · = k) :=
  getD_no_buckets goalKey k

/-- Generators, consumers and queries share their ids. -/
structure Session where
  generators : Std.TreeMap Nat Generator := ∅
  /-- The goals of the generators, with their ids. -/
  goals : Index goalKey := { getD_buckets := getD_no_goals }
  consumers : Std.TreeMap Nat Consumer := ∅
  /-- The suspended consumers of each open query, the longest waiting first. -/
  queries : Std.TreeMap Nat (List Nat) := ∅
  agenda : Queue Task := {}
  nextId : Nat := 1
  /-- The version of the store that the tables are about. -/
  version : Nat := 0
  /-- The message of the fatal failure after which the tables are not to be used. -/
  poisoned : Option String := none
  /-- How often each clause was entered. -/
  profile : Std.TreeMap Nat Nat := ∅
  journal : Journal := {}

namespace Session

def note (s : Session) (e : Event) : Session := { s with journal := s.journal.note e }

/-- Drops every table and query. Ids are never used again. -/
def clear (s : Session) (version : Nat) : Session :=
  { nextId := s.nextId, version, journal := s.journal }

/-- Drops what is about another version of the store. -/
def refresh (s : Session) (version : Nat) : Session :=
  if s.version = version then s
  else (s.note (.tablesOutdated s.version version)).clear version

/-- After a fatal failure the session is not to be used before it is cleared. -/
def poison (s : Session) (failure : Failure) : Session :=
  if failure.isFatal then { s with poisoned := some failure.message } else s

def countEntry (s : Session) (clause : Nat) : Session :=
  { s with profile := s.profile.insert clause (s.profile.getD clause 0 + 1) }

def modifyGenerator (s : Session) (g : Nat) (f : Generator → Generator) : Session :=
  { s with generators := s.generators.modify g f }

def modifyConsumer (s : Session) (c : Nat) (f : Consumer → Consumer) : Session :=
  { s with consumers := s.consumers.modify c f }

def schedule (s : Session) (task : Task) : Session := { s with agenda := s.agenda.push task }

/-! ## Tables -/

/-- The generator for the variants of a goal. -/
def generatorOf? (s : Session) (goal : Triple) : Option (Nat × Generator) :=
  let key := goal.variantKey
  match (s.goals.bucket key.digest).lookup key with
  | some g => (s.generators[g]?).map (g, ·)
  | none => none

def tableInfo (s : Session) (goal : Triple) : Option TableInfo :=
  (s.generatorOf? goal).map fun (_, g) => ⟨g.results.size, g.complete⟩

def tableResults (s : Session) (goal : Triple) : Option (List Triple) :=
  (s.generatorOf? goal).map fun (_, g) => g.results.toList

/-- The generator for a goal. A new one is put on the agenda. -/
def generatorFor (w : World) (goal : Triple) (s : Session) : Except Failure Nat × Session :=
  match s.generatorOf? goal with
  | some (g, _) => (.ok g, s)
  | none =>
    let key := goal.variantKey
    let g := s.nextId
    let s := { s with nextId := g + 1 }
    match Machine.start w key (.generator g) with
    | .error e => (.error e, s)
    | .ok m =>
      let s := s.note (.generatorNew g key)
      let s :=
        { s with
          generators := s.generators.insert g { goal := key, machine := some m }
          goals := s.goals.push (key, g) }
      (.ok g, s.schedule (.start g))

/-! ## Consumers -/

def addConsumer (s : Session) (generator : Nat) (owner : Owner) : Nat × Session :=
  let c := s.nextId
  let s :=
    { s with
      nextId := c + 1
      consumers := s.consumers.insert c { generator, owner } }
  (c, s.modifyGenerator generator fun g => { g with consumers := c :: g.consumers })

inductive Reading where
  | result (triple : Triple)
  /-- All results are read and there will be no more. -/
  | exhausted
  /-- All results are read so far. -/
  | pending

/-- Reads the next result for a consumer. -/
def read (s : Session) (c : Nat) : Reading × Session :=
  match s.consumers[c]? with
  | none => (.exhausted, s)
  | some consumer =>
    match s.generators[consumer.generator]? with
    | none => (.exhausted, s)
    | some g =>
      match g.results.get? consumer.read with
      | some t => (.result t, s.modifyConsumer c fun k => { k with read := k.read + 1 })
      | none => (if g.complete then .exhausted else .pending, s)

/-- Takes a consumer off the list of its owner's suspended consumers. -/
def unblock (s : Session) (owner : Owner) (c : Nat) : Session :=
  match owner with
  | .generator g =>
    s.modifyGenerator g fun gen => { gen with generating := gen.generating.filter (· ≠ c) }
  | .query q => { s with queries := s.queries.modify q (·.filter (· ≠ c)) }

def removeConsumer (s : Session) (c : Nat) : Session :=
  match s.consumers[c]? with
  | none => s
  | some consumer =>
    let s := { s with consumers := s.consumers.erase c }
    let s := s.modifyGenerator consumer.generator fun g =>
      { g with consumers := g.consumers.filter (· ≠ c) }
    s.unblock consumer.owner c

/-- A consumer of the owner's machine has to wait. -/
def block (s : Session) (owner : Owner) (c : Nat) : Session :=
  let s := s.modifyConsumer c fun k => { k with suspended := true }
  match owner with
  | .generator g =>
    s.modifyGenerator g fun gen => { gen with generating := gen.generating.insert c }
  | .query q =>
    { s with queries := s.queries.modify q fun ids => if ids.contains c then ids else ids ++ [c] }

/-- A suspended consumer that has a result to read, or will find that there is
none. -/
def isReady (s : Session) (c : Nat) : Bool :=
  match s.consumers[c]? with
  | none => false
  | some consumer =>
    consumer.suspended &&
      match s.generators[consumer.generator]? with
      | some g => consumer.read < g.results.size || g.complete
      | none => true

/-- Puts one suspended consumer of a generator's machine on the agenda. -/
def wake (s : Session) (c : Nat) : Session :=
  match s.consumers[c]? with
  | some { suspended := true, scheduled := false, owner := .generator _, .. } =>
    (s.modifyConsumer c fun k => { k with scheduled := true }).schedule (.resume c)
  | _ => s

/-- Wakes the consumers that wait for results of a generator, the first one first. -/
def wakeReaders (s : Session) (g : Nat) : Session :=
  match s.generators[g]? with
  | some gen => gen.consumers.reverse.foldl wake s
  | none => s

/-- The consumers of an owner's machine. -/
def ownedBy (s : Session) (owner : Owner) : List (Nat × Consumer) :=
  s.consumers.foldr (fun c k owned => if k.owner = owner then (c, k) :: owned else owned) []

/-! ## Queries -/

def openQuery (s : Session) : Nat × Session :=
  (s.nextId, { s with nextId := s.nextId + 1, queries := s.queries.insert s.nextId [] })

/-- The suspended consumers of a query. -/
def blocked (s : Session) (q : Nat) : List Nat := s.queries.getD q []

/-- The query can go on. -/
def queryReady (s : Session) (q : Nat) : Bool :=
  match s.queries[q]? with
  | some waiting => waiting.any s.isReady
  | none => true

/-- Takes the longest waiting consumer of a query that can go on. -/
def takeReady (s : Session) (q : Nat) : Option (Nat × Session) :=
  ((s.blocked q).find? s.isReady).map fun c =>
    (c, { s with queries := s.queries.modify q (·.erase c) })

/-- The generators that a query waits for. -/
def blockedOn (s : Session) (q : Nat) : List Nat :=
  (s.blocked q).filterMap fun c => (s.consumers[c]?).map Consumer.generator

end Session

end TabledRules
