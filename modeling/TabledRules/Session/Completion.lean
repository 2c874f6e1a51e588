-- Completion of generators. A generator is complete when nothing can add to
-- its results: its machine has tried everything, or all that it waits for
-- waits in turn.
import TabledRules.IdSet
import TabledRules.Session

namespace TabledRules.Session

/-- Completes a generator. Its machine and the consumers of it are given up, and the
readers of its results are woken. `event` is made from its goal and the number
of its results. -/
def complete (event : Triple → Nat → Event) (s : Session) (g : Nat) : Session :=
  match s.generators[g]? with
  | none => s
  | some gen =>
    if gen.complete then s
    else
      let s := s.modifyGenerator g fun gen =>
        { gen with complete := true, machine := none, generating := [], ready := false }
      let s := s.note (event gen.goal gen.results.size)
      let s := (s.ownedBy (.generator g)).foldl (fun s (c, _) => s.removeConsumer c) s
      s.wakeReaders g

/-- The generators that the machine of a generator waits for, the last one first. -/
def waitsFor (s : Session) (g : Nat) : List Nat :=
  match s.generators[g]? with
  | some gen => gen.generating.filterMap fun c => (s.consumers[c]?).map Consumer.generator
  | none => []

/-- The generators whose machines read the results of a generator. -/
def readersOf (s : Session) (g : Nat) : List Nat :=
  match s.generators[g]? with
  | some gen => gen.consumers.filterMap fun c =>
    match (s.consumers[c]?).map Consumer.owner with
    | some (.generator z) => some z
    | _ => none
  | none => []

def isIncomplete (s : Session) (g : Nat) : Bool :=
  match s.generators[g]? with
  | some gen => !gen.complete
  | none => false

/-- Adds to `found` the incomplete generators that are reached from `pending`, the
first of `pending` first. Each step finds one. -/
def reach (s : Session) : Nat → List Nat → IdSet → IdSet
  | 0, _, found => found
  | n + 1, pending, found =>
    match pending.dropWhile fun g => !s.isIncomplete g || found.contains g with
    | g :: pending => s.reach n (s.waitsFor g ++ pending) (found.insert g)
    | [] => found

/-- The incomplete generators that some generators wait for, directly or not, with
themselves. -/
def reachable (s : Session) (roots : List Nat) : IdSet :=
  s.reach s.generators.size roots.reverse {}

/-- The generator has not started, or one of its consumers can go on. -/
def canRun (s : Session) (g : Nat) : Bool :=
  match s.generators[g]? with
  | some gen => gen.ready || gen.generating.any s.isReady
  | none => false

/-- One generator of `all` more is live, and is fresh if it was not live before. -/
def revive (all : IdSet) : List Nat × IdSet → Nat → List Nat × IdSet
  | (fresh, live), g =>
    if all.contains g && !live.contains g then (g :: fresh, live.insert g) else (fresh, live)

/-- Adds to `live` the generators of `all` that read from `fresh`, or from those
added. Each step takes one from `fresh`; there is none to add once all are live. -/
def spread (s : Session) (all : IdSet) : Nat → List Nat → IdSet → IdSet
  | n + 1, g :: fresh, live =>
    if live.size = all.size then live
    else
      let (fresh, live) := (s.readersOf g).foldl (revive all) (fresh, live)
      s.spread all n fresh live
  | _, _, live => live

/-- Those of some generators that can run or wait for one that is live. -/
def liveAmong (s : Session) (all : IdSet) : IdSet :=
  let (fresh, live) := (all.toList.filter s.canRun).foldl (revive all) ([], {})
  s.spread all all.size fresh live

/-- Completes every generator reached from the roots that is not live. -/
def checkCompletion (s : Session) (roots : List Nat) : Session :=
  let all := s.reachable roots
  let live := s.liveAmong all
  (all.toList.filter fun g => !live.contains g).foldl (complete .generatorDeadlocked) s

/-- Gives up a query. What only waited for it may be complete then. -/
def closeQuery (s : Session) (q : Nat) : Session :=
  let owned := s.ownedBy (.query q)
  let s := owned.foldl (fun s (c, _) => s.removeConsumer c) s
  if s.queries.contains q then
    let s := { s with queries := s.queries.erase q }
    (s.checkCompletion (owned.map fun (_, c) => c.generator)).note (.queryClosed q)
  else s

end TabledRules.Session
