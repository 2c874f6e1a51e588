-- Settings, messages, reports and failures as JSON.
import TabledRules.Failure
import TabledRules.Journal
import TabledRules.Report
import TabledRules.Wire.Json

namespace TabledRules

/-! ## Settings -/

def LogLevel.encode : LogLevel → Json
  | .trace => .str "Trace"
  | .debug => .str "Debug"
  | .info => .str "Info"

def LogLevel.decode? (j : Json) : Option LogLevel :=
  match j.variant? with
  | some (tag, payload) =>
    if !Json.carriesNothing payload then none
    else if tag = "Trace" then some .trace
    else if tag = "Debug" then some .debug
    else if tag = "Info" then some .info
    else none
  | none => none

def Settings.encodeFields (s : Settings) : List (String × Json) :=
  [("log_level", (s.logLevel.map LogLevel.encode).getD .null), ("log_stderr", .bool s.echo),
    ("completion_check_cycles", .nat s.completionCycles), ("stack_limit", .nat s.stackLimit),
    ("profile", .bool s.profile)]

def Settings.encode (s : Settings) : Json := .obj s.encodeFields

/-- The level may be `null`. -/
def Settings.decodeLevel? : Json → Option (Option LogLevel)
  | .null => some none
  | j => (LogLevel.decode? j).map some

/-- An object without a level has none. -/
def Settings.fields? : Json → Option (List Json)
  | .obj fields =>
    (Json.obj fields).fields? ["log_stderr", "completion_check_cycles", "stack_limit", "profile"]
      |>.map ((fields.lookup "log_level").getD .null :: ·)
  | j =>
    j.fields? ["log_level", "log_stderr", "completion_check_cycles", "stack_limit", "profile"]

def Settings.decode? (j : Json) : Option Settings :=
  match Settings.fields? j with
  | some [l, e, c, s, p] =>
    match Settings.decodeLevel? l, e.bool?, c.nat? 64, s.nat? 64, p.bool? with
    | some logLevel, some echo, some completionCycles, some stackLimit, some profile =>
      some { logLevel, echo, completionCycles, stackLimit, profile }
    | _, _, _, _, _ => none
  | _ => none

/-- Settings with some fields replaced. -/
def Settings.update? (s : Settings) : Json → Option Settings
  | .obj fields => Settings.decode? (.obj (fields ++ s.encodeFields))
  | _ => none

/-! ## Messages and reports -/

def MessageKind.encode : MessageKind → Json
  | .print => .str "Print"
  | .warning => .str "Warning"

def MessageKind.decode? (j : Json) : Option MessageKind :=
  match j.variant? with
  | some (tag, payload) =>
    if !Json.carriesNothing payload then none
    else if tag = "Print" then some .print
    else if tag = "Warning" then some .warning
    else none
  | none => none

def Message.encode (m : Message) : Json := .obj [("kind", m.kind.encode), ("msg", .str m.text)]

def Message.decode? (j : Json) : Option Message :=
  match j.fields? ["kind", "msg"] with
  | some [k, m] =>
    match MessageKind.decode? k, m.str? with
    | some kind, some text => some ⟨kind, text⟩
    | _, _ => none
  | _ => none

def TableInfo.encode (t : TableInfo) : Json :=
  .obj [("results", .nat t.results), ("complete", .bool t.complete)]

def TableInfo.decode? (j : Json) : Option TableInfo :=
  match j.fields? ["results", "complete"] with
  | some [r, c] =>
    match r.nat? 64, c.bool? with
    | some results, some complete => some ⟨results, complete⟩
    | _, _ => none
  | _ => none

def ProfileEntry.encode (p : ProfileEntry) : Json :=
  .obj [("clause", .nat p.clause), ("rule", .str p.rule), ("entries", .nat p.entries)]

def ProfileEntry.decode? (j : Json) : Option ProfileEntry :=
  match j.fields? ["clause", "rule", "entries"] with
  | some [c, r, e] =>
    match c.nat? 64, r.str?, e.nat? 64 with
    | some clause, some rule, some entries => some ⟨clause, rule, entries⟩
    | _, _, _ => none
  | _ => none

/-! ## Failures -/

/-- Named fields that are texts. -/
def Json.texts? (names : List String) (j : Json) : Option (List String) :=
  (j.named? names).bind (·.mapM Json.str?)

def RuntimeFailure.encode : RuntimeFailure → Json
  | .concurrentModification expected found =>
    .tagged "ConcurrentModification" (.obj [("expected", .nat expected), ("found", .nat found)])
  | .iteratorClosed => .str "IteratorClosed"
  | .stackOverflow detail => .tagged "StackOverflow" (.obj [("msg", .str detail)])
  | .builtin name detail =>
    .tagged "Builtin" (.obj [("name", .str name), ("msg", .str detail)])
  | .sessionInvalid detail => .tagged "SessionInvalid" (.obj [("msg", .str detail)])

def RuntimeFailure.decode? (j : Json) : Option RuntimeFailure :=
  match j.variant? with
  | some ("ConcurrentModification", some p) =>
    match (p.named? ["expected", "found"]).bind (·.mapM (Json.nat? 64)) with
    | some [expected, found] => some (.concurrentModification expected found)
    | _ => none
  | some ("IteratorClosed", p) => if Json.carriesNothing p then some .iteratorClosed else none
  | some ("StackOverflow", some p) =>
    match p.texts? ["msg"] with
    | some [detail] => some (.stackOverflow detail)
    | _ => none
  | some ("Builtin", some p) =>
    match p.texts? ["name", "msg"] with
    | some [name, detail] => some (.builtin name detail)
    | _ => none
  | some ("SessionInvalid", some p) =>
    match p.texts? ["msg"] with
    | some [detail] => some (.sessionInvalid detail)
    | _ => none
  | _ => none

def OperationalFailure.encode : OperationalFailure → Json
  | .malformedClause clause detail =>
    .tagged "MalformedClause" (.obj [("clause", .str clause), ("msg", .str detail)])
  | .invalidState detail => .tagged "InvalidState" (.str detail)

def OperationalFailure.decode? (j : Json) : Option OperationalFailure :=
  match j.variant? with
  | some ("MalformedClause", some p) =>
    match p.texts? ["clause", "msg"] with
    | some [clause, detail] => some (.malformedClause clause detail)
    | _ => none
  | some ("InvalidState", some p) => p.str?.map .invalidState
  | _ => none

def CompileFailure.encode : CompileFailure → Json
  | .badHead rule => .tagged "BadHead" (.obj [("rule", .str rule)])
  | .tooComplex rule detail =>
    .tagged "TooComplex" (.obj [("rule", .str rule), ("msg", .str detail)])
  | .unknownBuiltin rule name =>
    .tagged "UnknownBuiltin" (.obj [("rule", .str rule), ("name", .str name)])
  | .builtinArity rule name expected found =>
    .tagged "BuiltinArity" (.obj [("rule", .str rule), ("name", .str name),
      ("expected", .nat expected), ("found", .nat found)])

def CompileFailure.decode? (j : Json) : Option CompileFailure :=
  match j.variant? with
  | some ("BadHead", some p) =>
    match p.texts? ["rule"] with
    | some [rule] => some (.badHead rule)
    | _ => none
  | some ("TooComplex", some p) =>
    match p.texts? ["rule", "msg"] with
    | some [rule, detail] => some (.tooComplex rule detail)
    | _ => none
  | some ("UnknownBuiltin", some p) =>
    match p.texts? ["rule", "name"] with
    | some [rule, name] => some (.unknownBuiltin rule name)
    | _ => none
  | some ("BuiltinArity", some p) =>
    match p.named? ["rule", "name", "expected", "found"] with
    | some [r, n, e, f] =>
      match r.str?, n.str?, e.nat? 64, f.nat? 64 with
      | some rule, some name, some expected, some found =>
        some (.builtinArity rule name expected found)
      | _, _, _, _ => none
    | _ => none
  | _ => none

def Failure.encodeKind : Failure → Json
  | .runtime cause => .tagged "Runtime" cause.encode
  | .operational cause => .tagged "Operational" cause.encode
  | .compile cause => .tagged "Compile" cause.encode

def Failure.decodeKind? (j : Json) : Option Failure :=
  match j.variant? with
  | some ("Runtime", some p) => (RuntimeFailure.decode? p).map .runtime
  | some ("Operational", some p) => (OperationalFailure.decode? p).map .operational
  | some ("Compile", some p) => (CompileFailure.decode? p).map .compile
  | _ => none

/-- A failure is written with its message. -/
def Failure.encode (e : Failure) : Json :=
  .obj [("kind", e.encodeKind), ("formatted", .str e.message)]

/-- The message that is read with a failure must be a text, and is forgotten. -/
def Failure.decode? (j : Json) : Option Failure :=
  match j.fields? ["kind", "formatted"] with
  | some [k, m] =>
    match Failure.decodeKind? k, m.str? with
    | some e, some _ => some e
    | _, _ => none
  | _ => none

end TabledRules
