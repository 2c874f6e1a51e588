-- The journal of an engine: log lines and messages that wait for the host.
import TabledRules.Queue
import TabledRules.Settings

namespace TabledRules

inductive MessageKind where
  | print
  | warning
deriving DecidableEq, Inhabited

structure Message where
  kind : MessageKind
  text : String
deriving DecidableEq, Inhabited

structure Journal where
  level : Option LogLevel := none
  echo : Bool := false
  /-- Messages that wait. -/
  queue : Queue Message := {}
  /-- Lines for the host to echo, oldest first. -/
  echoed : Array String := #[]
deriving Inhabited

namespace Journal

def ofSettings (s : Settings) : Journal := { level := s.logLevel, echo := s.echo }

def enabled (j : Journal) (level : LogLevel) : Bool :=
  match j.level with
  | none => false
  | some threshold => threshold.prints level

def push (j : Journal) (kind : MessageKind) (text : String) : Journal :=
  { j with queue := j.queue.push ⟨kind, text⟩ }

/-- Takes the oldest message. -/
def next (j : Journal) : Option Message × Journal :=
  match j.queue.pop? with
  | some (message, queue) => (some message, { j with queue })
  | none => (none, j)

/-- Takes every message. -/
def drain (j : Journal) : List Message × Journal := (j.queue.toList, { j with queue := {} })

def writeLine (j : Journal) (level : LogLevel) (line : String) : Journal :=
  let text := "[backchain][" ++ level.name ++ "] " ++ line
  if j.echo then { j with echoed := j.echoed.push text } else j.push .print text

/-- Writes a text, one log line for each of its lines, if the level is on. -/
def log (j : Journal) (level : LogLevel) (text : String) : Journal :=
  if j.enabled level then (Text.split '\n' text).foldl (fun j line => j.writeLine level line) j
  else j

end Journal

end TabledRules
