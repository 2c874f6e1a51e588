-- Running the generators on the agenda until a query can go on.
import TabledRules.Machine.Step
import TabledRules.Session.Completion

namespace TabledRules.Session

/-! ## One generator -/

/-- Collects the answers of a generator's machine. The outcome says whether the
generator is complete; the number counts the new results. -/
def collect (w : World) (g : Nat) : Nat → Nat → Machine → Session →
    Option (Except Failure Bool × Nat × Machine × Session)
  | 0, _, _, _ => none
  | fuel + 1, added, m, s =>
    match m.next w fuel s with
    | none => none
    | some (.error e, m, s) => some (.error e, added, m, s)
    | some (.ok none, m, s) =>
      let finished := ((s.generators[g]?).map fun gen => gen.generating.isEmpty).getD true
      some (.ok finished, added, m, s)
    | some (.ok (some t), m, s) =>
      match s.generators[g]? with
      | none => some (.ok true, added, m, s)
      | some gen =>
        if gen.isNew t then
          let singleton := gen.isSingleton
          let s := s.modifyGenerator g fun gen => { gen with results := gen.results.push t }
          if singleton then some (.ok true, added + 1, m, s)
          else collect w g fuel (added + 1) m s
        else collect w g fuel added m s

/-- Puts the machine of a generator back. -/
def endPump (g added : Nat) (m : Machine) (s : Session) : Session :=
  match s.generators[g]? with
  | none => s
  | some gen =>
    (s.modifyGenerator g fun gen => { gen with machine := some m }).note
      (.generatorPumped g gen.goal added gen.results.size)

/-- What comes of the results that a run has added. -/
def settle (g : Nat) (finished : Bool) (added : Nat) (s : Session) : Session :=
  if finished then s.complete .generatorComplete g
  else if added = 0 then s
  else s.wakeReaders g

/-- Runs a machine that was taken from its generator, from a consumer if one is
given. -/
def pumpMachine (w : World) (fuel g : Nat) (resume : Option Nat) (m : Machine) (s : Session) :
    Option (Except Failure Unit × Session) :=
  let (restored, m, s) :=
    match resume with
    | some c => m.restore c s
    | none => (.ok (), m, s)
  match restored with
  | .error e => some (.error e, s.endPump g 0 m)
  | .ok () =>
    match collect w g fuel 0 m s with
    | none => none
    | some (.error e, added, m, s) => some (.error e, s.endPump g added m)
    | some (.ok finished, added, m, s) =>
      some (.ok (), (s.endPump g added m).settle g finished added)

/-- Runs a generator's machine until there is nothing left to try in it. -/
def pump (w : World) (fuel g : Nat) (resume : Option Nat) (s : Session) :
    Option (Except Failure Unit × Session) :=
  match s.generators[g]? with
  | none => some (.ok (), s)
  | some gen =>
    if gen.complete then some (.ok (), s)
    else
      let s :=
        match resume with
        | some c => s.unblock (.generator g) c
        | none => s.modifyGenerator g fun gen => { gen with ready := false }
      match gen.machine with
      | none => some (.ok (), s)
      | some m =>
        pumpMachine w fuel g resume m (s.modifyGenerator g fun gen => { gen with machine := none })

/-! ## The agenda -/

/-- The generator that a task runs, if it can still be run, and the consumer it goes
on with. The task's consumer is no longer scheduled. -/
def takeUp (s : Session) : Task → Option (Nat × Option Nat) × Session
  | .start g =>
    match s.generators[g]? with
    | some gen => (if gen.ready && !gen.complete then some (g, none) else none, s)
    | none => (none, s)
  | .resume c =>
    let s := s.modifyConsumer c fun k => { k with scheduled := false }
    match (s.consumers[c]?).map Consumer.owner with
    | some (.generator z) => (if s.isReady c then some (z, some c) else none, s)
    | _ => (none, s)

/-- Checks completion once a batch of generators has run. -/
def endBatch (size : Nat) (batch : List Nat) (s : Session) : List Nat × Session :=
  if size ≤ batch.length then ([], s.checkCompletion batch) else (batch, s)

/-- Runs the tasks on the agenda until a query can go on or none is left. `batch` are
the generators that have run since the last completion check. -/
def runAgenda (w : World) (q : Nat) : Nat → List Nat → Session →
    Option (Except Failure Unit × Session)
  | 0, _, _ => none
  | fuel + 1, batch, s =>
    match s.queryReady q, s.agenda.pop? with
    | false, some (task, agenda) =>
      match ({ s with agenda } : Session).takeUp task with
      | (none, s) => runAgenda w q fuel batch s
      | (some (g, resume), s) =>
        match s.pump w fuel g resume with
        | none => none
        | some (.error e, s) => some (.error e, s)
        | some (.ok (), s) =>
          let (batch, s) := s.endBatch (max w.settings.completionCycles 1) (batch ++ [g])
          runAgenda w q fuel batch s
    | _, _ => some (.ok (), if batch.isEmpty then s else s.checkCompletion batch)

/-! ## The machine of a query -/

mutual
/-- The next answer of a query's machine. -/
def advance (w : World) (q : Nat) : Nat → Machine → Session →
    Option (Except Failure (Option Triple) × Machine × Session)
  | 0, _, _ => none
  | fuel + 1, m, s =>
    match m.next w fuel s with
    | some (.ok none, m, s) => await w q fuel m s
    | other => other

/-- Waits for a consumer of a query that can go on. -/
def await (w : World) (q : Nat) : Nat → Machine → Session →
    Option (Except Failure (Option Triple) × Machine × Session)
  | 0, _, _ => none
  | fuel + 1, m, s =>
    match s.takeReady q with
    | some (c, s) =>
      match m.restore c s with
      | (.error e, m, s) => some (.error e, m, s)
      | (.ok (), m, s) => advance w q fuel m s
    | none =>
      if (s.blocked q).isEmpty then some (.ok none, m, s.note (.queryDone q))
      else
        match s.runAgenda w q fuel [] with
        | none => none
        | some (.error e, s) => some (.error e, m, s)
        | some (.ok (), s) =>
          if s.queryReady q then await w q fuel m s
          else
            let waitedFor := s.blockedOn q
            let s := s.checkCompletion waitedFor
            if s.queryReady q then await w q fuel m s
            else await w q fuel m (waitedFor.foldl (complete .generatorDeadlocked) s)
end

end TabledRules.Session
