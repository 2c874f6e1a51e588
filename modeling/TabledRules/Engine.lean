-- An engine answers queries over a store by a set of compiled rules. The
-- store lives outside: whoever calls the engine says what it is now.
import TabledRules.Session.Agenda

namespace TabledRules

/-- An opened query. -/
structure Query where
  /-- The version of the store it was opened on. -/
  version : Nat
  machine : Option Machine
  /-- An answer that was found and not taken. -/
  lookahead : Option Triple := none
  closed : Bool := false
  finished : Bool := false
  /-- How many handles there are. -/
  handles : Nat := 1

/-- A handle on a query. Handles on one query share its position. `done` says that
iteration through this handle has ended. -/
structure Handle where
  query : Nat
  done : Bool := false
deriving DecidableEq, Inhabited

structure Engine where
  rules : RuleBase
  settings : Settings
  session : Session
  queries : Std.TreeMap Nat Query := ∅

namespace Engine

/-! ## The engine itself -/

def new (store : Store) (rules : RuleBase) (settings : Settings) : Engine :=
  { rules, settings
    session := { version := store.version, journal := .ofSettings settings } }

def world (e : Engine) (store : Store) : World := ⟨store, e.rules, e.settings⟩

def mapSession (e : Engine) (f : Session → Session) : Engine := { e with session := f e.session }

/-- Throws every table away. Open queries are closed. -/
def reset (store : Store) (e : Engine) : Engine :=
  e.mapSession fun s => (s.clear store.version).note .tablesReset

def tableInfo (e : Engine) (pattern : Triple) : Option TableInfo := e.session.tableInfo pattern

def tableResults (e : Engine) (pattern : Triple) : Option (List Triple) :=
  e.session.tableResults pattern

/-- How often clauses were entered, the busiest first. -/
def profile (e : Engine) : List ProfileEntry :=
  (e.session.profile.toList.map fun (clause, entries) =>
    ({ clause, entries, rule := ((e.rules.clause? clause).map Clause.name).getD "" } :
      ProfileEntry)).mergeSort fun a b => b.entries ≤ a.entries

/-- A number in at least eight places. -/
def padCount (n : Nat) : String :=
  let digits := toString n
  String.ofList (List.replicate (8 - digits.length) ' ') ++ digits

def printProfile (e : Engine) : Engine :=
  e.profile.foldl
    (fun e p => e.mapSession fun s =>
      { s with journal := s.journal.push .print (padCount p.entries ++ " " ++ p.rule) })
    e

def nextMessage (e : Engine) : Option Message × Engine :=
  let (message, journal) := e.session.journal.next
  (message, e.mapSession fun s => { s with journal })

def drainMessages (e : Engine) : List Message × Engine :=
  let (messages, journal) := e.session.journal.drain
  (messages, e.mapSession fun s => { s with journal })

/-! ## Queries -/

/-- Opens a query for the triples that match a pattern. -/
def find (store : Store) (e : Engine) (pattern : Triple) : Except Failure Handle × Engine :=
  match e.session.poisoned with
  | some detail => (.error (.runtime (.sessionInvalid detail)), e)
  | none =>
    let (q, s) := (e.session.refresh store.version).openQuery
    let s := s.note (.queryOpened q pattern)
    match Machine.startQuery (e.world store) pattern q s with
    | (.error failure, s) => (.error failure, { e with session := (s.poison failure).closeQuery q })
    | (.ok m, s) =>
      let query : Query := { version := store.version, machine := some m }
      (.ok { query := q }, { e with session := s, queries := e.queries.insert q query })

/-- Why a query cannot be read any more. -/
def obstacle (store : Store) (s : Session) (id : Nat) (q : Query) : Option Failure :=
  if q.closed then some (.runtime .iteratorClosed)
  else if store.version ≠ q.version then
    some (.runtime (.concurrentModification q.version store.version))
  else
    match s.poisoned with
    | some detail => some (.runtime (.sessionInvalid detail))
    | none => if s.queries.contains id then none else some (.runtime .iteratorClosed)

/-- Looks for an answer unless one is there or the query has ended. -/
def lookAhead (w : World) (fuel id : Nat) (q : Query) (s : Session) :
    Option (Except Failure Unit × Query × Session) :=
  if q.lookahead.isSome || q.finished then some (.ok (), q, s)
  else
    match q.machine with
    | none => some (.ok (), { q with finished := true }, s)
    | some m =>
      match s.advance w id fuel m with
      | none => none
      | some (.ok (some t), m, s) =>
        some (.ok (), { q with machine := some m, lookahead := some t }, s)
      | some (.ok none, _, s) => some (.ok (), { q with machine := none, finished := true }, s)
      | some (.error failure, _, s) =>
        some (.error failure, { q with machine := none, finished := true }, s.poison failure)

/-- The next answer of a query, taken or only looked at. It is none at the end. -/
def fill (store : Store) (fuel : Nat) (e : Engine) (id : Nat) (take : Bool) :
    Option (Except Failure (Option Triple) × Engine) :=
  match e.queries[id]? with
  | none => some (.error (.runtime .iteratorClosed), e)
  | some q =>
    match obstacle store e.session id q with
    | some failure => some (.error failure, e)
    | none =>
      match lookAhead (e.world store) fuel id q e.session with
      | none => none
      | some (.error failure, q, session) =>
        some (.error failure, { e with session, queries := e.queries.insert id q })
      | some (.ok (), q, session) =>
        let left := if take then { q with lookahead := none } else q
        some (.ok q.lookahead, { e with session, queries := e.queries.insert id left })

/-- Takes the next answer. -/
def next (store : Store) (fuel : Nat) (e : Engine) (h : Handle) :
    Option (Except Failure (Option Triple) × Engine) :=
  e.fill store fuel h.query true

/-- There is another answer. It is not taken. -/
def hasNext (store : Store) (fuel : Nat) (e : Engine) (h : Handle) :
    Option (Except Failure Bool × Engine) :=
  (e.fill store fuel h.query false).map fun (answer, e) => (answer.map Option.isSome, e)

/-- Iterates through a handle, which ends at the first failure or at the end of the
answers. -/
def iterate (store : Store) (fuel : Nat) (e : Engine) (h : Handle) :
    Option (Option (Except Failure Triple) × Handle × Engine) :=
  if h.done then some (none, h, e)
  else
    match e.next store fuel h with
    | none => none
    | some (.ok (some t), e) => some (some (.ok t), h, e)
    | some (.ok none, e) => some (none, { h with done := true }, e)
    | some (.error failure, e) => some (some (.error failure), { h with done := true }, e)

/-- Up to `limit` items of an iteration: the answers, and a failure if that was the
last item. -/
def takeUpTo (store : Store) (fuel : Nat) : Nat → Engine → Handle →
    Option (List Triple × Option Failure × Handle × Engine)
  | 0, e, h => some ([], none, h, e)
  | limit + 1, e, h =>
    match e.iterate store fuel h with
    | none => none
    | some (none, h, e) => some ([], none, h, e)
    | some (some (.error failure), h, e) => some ([], some failure, h, e)
    | some (some (.ok t), h, e) =>
      (takeUpTo store fuel limit e h).map fun (ts, failure, h, e) => (t :: ts, failure, h, e)

/-! ## Handles -/

/-- Closes a query. To close it twice does no harm. -/
def closeQuery (e : Engine) (id : Nat) : Engine :=
  match e.queries[id]? with
  | none => e
  | some q =>
    if q.closed then e
    else
      { e with
        queries := e.queries.insert id { q with closed := true, machine := none, lookahead := none }
        session := e.session.closeQuery id }

def close (e : Engine) (h : Handle) : Engine := e.closeQuery h.query

def isClosed (e : Engine) (h : Handle) : Bool := (e.queries[h.query]?).all Query.closed

/-- A second handle, which has ended if this one has. -/
def clone (e : Engine) (h : Handle) : Handle × Engine :=
  (h, { e with queries := e.queries.modify h.query fun q => { q with handles := q.handles + 1 } })

/-- Gives a handle up. Without handles a query is closed and forgotten. -/
def drop (e : Engine) (h : Handle) : Engine :=
  match e.queries[h.query]? with
  | none => e
  | some q =>
    if q.handles ≤ 1 then
      let e := e.closeQuery h.query
      { e with queries := e.queries.erase h.query }
    else
      { e with queries := e.queries.insert h.query { q with handles := q.handles - 1 } }

end Engine

end TabledRules
