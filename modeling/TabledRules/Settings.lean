-- The settings of an engine and how they are read from text.
import TabledRules.Text.Blank
import TabledRules.Text.Split

namespace TabledRules

inductive LogLevel where
  | trace
  | debug
  | info
deriving DecidableEq, Inhabited

namespace LogLevel

def rank : LogLevel → Nat
  | .trace => 0
  | .debug => 1
  | .info => 2

def name : LogLevel → String
  | .trace => "trace"
  | .debug => "debug"
  | .info => "info"

/-- A journal kept at `threshold` takes lines of this level. -/
def prints (threshold level : LogLevel) : Bool := threshold.rank ≤ level.rank

end LogLevel

structure Settings where
  logLevel : Option LogLevel := none
  /-- Log lines are echoed at once and not queued. -/
  echo : Bool := false
  /-- Runs of generators between two completion checks; zero counts as one. -/
  completionCycles : Nat := 3
  /-- The most choice points, and the most environments, one machine may hold. -/
  stackLimit : Nat := 250000
  /-- Clause entries are counted. -/
  profile : Bool := false
deriving DecidableEq, Inhabited

namespace Settings

/-- The words of a logging option: pieces between commas, without blanks at their
ends and in lower case. Only words of ASCII letters are ever asked for, and
outside ASCII no character has one of their letters as its lower case. -/
def logWords (text : String) : List String :=
  ((Text.split ',' text).filter (· ≠ "")).map fun piece =>
    String.ofList ((Text.trimBlanks piece).toList.map Char.toLower)

/-- Sets level and echo. `off` and `0` mute the journal whatever else is said, and
any other word asks for at least `info`. -/
def withLogging (s : Settings) (text : Option String) : Settings :=
  let words := logWords (text.getD "")
  let muted := words.isEmpty || words.contains "off" || words.contains "0"
  let level :=
    if words.contains "trace" then LogLevel.trace
    else if words.contains "debug" then .debug
    else .info
  { s with echo := words.contains "now", logLevel := if muted then none else some level }

/-- Digits with an optional plus sign, below `2 ^ 64`. -/
def readCount (text : String) : Option Nat :=
  let chars := (Text.trimBlanks text).toList
  let digits :=
    match chars with
    | '+' :: rest => rest
    | _ => chars
  if digits.isEmpty || !digits.all Char.isDigit then none
  else
    let n := digits.foldl (fun n c => 10 * n + (c.toNat - '0'.toNat)) 0
    if n < UInt64.size then some n else none

/-- The settings that four optional texts ask for. A text that cannot be read
leaves the default. -/
def ofTexts (log cycles limit profile : Option String) : Settings :=
  let s : Settings := withLogging {} log
  { s with
    completionCycles := (cycles.bind readCount).getD s.completionCycles
    stackLimit := (limit.bind readCount).getD s.stackLimit
    profile := profile == some "1" || profile == some "true" }

end Settings

end TabledRules
