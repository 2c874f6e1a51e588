-- Terms, triples and rules as JSON.
import TabledRules.Rule
import TabledRules.Wire.Json

namespace TabledRules

/-! ## Literals and nodes -/

def Literal.encode : Literal → Json
  | .string s => .tagged "String" (.str s)
  | .integer i => .tagged "Integer" (.int i.toInt)
  | .boolean b => .tagged "Boolean" (.bool b)

def Literal.decode? (j : Json) : Option Literal :=
  match j.variant? with
  | some ("String", some p) => p.str?.map .string
  | some ("Integer", some p) => p.int64?.map .integer
  | some ("Boolean", some p) => p.bool?.map .boolean
  | _ => none

def Node.encode : Node → Json
  | .uri s => .tagged "Uri" (.str s)
  | .blank s => .tagged "Blank" (.str s)
  | .literal l => .tagged "Literal" l.encode

def Node.decode? (j : Json) : Option Node :=
  match j.variant? with
  | some ("Uri", some p) => p.str?.map .uri
  | some ("Blank", some p) => p.str?.map .blank
  | some ("Literal", some p) => (Literal.decode? p).map .literal
  | _ => none

/-! ## Terms -/

mutual
def Term.encode : Term → Json
  | .node n => .tagged "Node" n.encode
  | .var name => .tagged "Var" (.str name)
  | .ref i => .tagged "Ref" (.nat i)
  | .app f args =>
    .tagged "Functor" (.obj [("name", .str f), ("args", .arr (Term.encodeAll args))])
  | .any => .str "Any"

def Term.encodeAll : List Term → List Json
  | [] => []
  | t :: ts => t.encode :: Term.encodeAll ts
end

mutual
def Term.decode? : Json → Option Term
  | .str tag => if tag = "Any" then some .any else none
  | .obj [(tag, payload)] =>
    if tag = "Node" then (Node.decode? payload).map .node
    else if tag = "Var" then payload.str?.map .var
    else if tag = "Ref" then (payload.nat? 32).map .ref
    else if tag = "Functor" then (Term.decodeApp? payload).map fun (f, args) => .app f args
    else if tag = "Any" ∧ Json.carriesNothing (some payload) then some .any
    else none
  | _ => none

/-- A name and its arguments. -/
def Term.decodeApp? : Json → Option (String × List Term)
  | .arr [name, args] =>
    match name.str?, Term.decodeList? args with
    | some f, some args => some (f, args)
    | _, _ => none
  | .obj fields =>
    match (fields.lookup "name").bind Json.str?, Term.decodeArgs? fields with
    | some f, some args => some (f, args)
    | _, _ => none
  | _ => none

/-- The arguments among the fields of an object. -/
def Term.decodeArgs? : List (String × Json) → Option (List Term)
  | [] => none
  | (key, value) :: rest => if key = "args" then Term.decodeList? value else Term.decodeArgs? rest

def Term.decodeList? : Json → Option (List Term)
  | .arr items => Term.decodeAll? items
  | _ => none

def Term.decodeAll? : List Json → Option (List Term)
  | [] => some []
  | j :: js =>
    match Term.decode? j, Term.decodeAll? js with
    | some t, some ts => some (t :: ts)
    | _, _ => none
end

def Compound.encode (c : Compound) : Json :=
  .obj [("name", .str c.name), ("args", .arr (Term.encodeAll c.args))]

def Compound.decode? (j : Json) : Option Compound :=
  (Term.decodeApp? j).map fun (name, args) => ⟨name, args⟩

/-! ## Triples and rules -/

def Triple.encode (t : Triple) : Json :=
  .obj [("subject", t.subject.encode), ("predicate", t.predicate.encode),
    ("object", t.object.encode)]

def Triple.decode? (j : Json) : Option Triple :=
  match j.fields? ["subject", "predicate", "object"] with
  | some [s, p, o] =>
    match Term.decode? s, Term.decode? p, Term.decode? o with
    | some s, some p, some o => some ⟨s, p, o⟩
    | _, _, _ => none
  | _ => none

def Entry.encode : Entry → Json
  | .triple t => .tagged "Triple" t.encode
  | .builtin c => .tagged "Builtin" c.encode

def Entry.decode? (j : Json) : Option Entry :=
  match j.variant? with
  | some ("Triple", some p) => (Triple.decode? p).map .triple
  | some ("Builtin", some p) => (Compound.decode? p).map .builtin
  | _ => none

def Rule.encode (r : Rule) : Json :=
  .obj [("name", .str r.name), ("head", r.head.encode), ("body", .arr (r.body.map Entry.encode))]

def Rule.decode? (j : Json) : Option Rule :=
  match j.fields? ["name", "head", "body"] with
  | some [n, h, b] =>
    match n.str?, Triple.decode? h, b.list? Entry.decode? with
    | some name, some head, some body => some ⟨name, head, body⟩
    | _, _, _ => none
  | _ => none

def RuleSet.encode (s : RuleSet) : Json :=
  .obj [("rules", .arr (s.rules.map Rule.encode)), ("tabled", .arr (s.tabled.map Term.encode)),
    ("all_tabled", .bool s.allTabled), ("indexed", .arr (s.indexed.map Term.encode))]

/-- The sets may stand in any order and repeat themselves. -/
def RuleSet.decode? (j : Json) : Option RuleSet :=
  match j.fields? ["rules", "tabled", "all_tabled", "indexed"] with
  | some [r, t, a, i] =>
    match r.list? Rule.decode?, t.list? Term.decode?, a.bool?, i.list? Term.decode? with
    | some rules, some tabled, some allTabled, some indexed =>
      some
        { rules, allTabled
          tabled := tabled.foldl (fun set t => t.insertInOrder set) []
          indexed := indexed.foldl (fun set t => t.insertInOrder set) [] }
    | _, _, _, _ => none
  | _ => none

end TabledRules
