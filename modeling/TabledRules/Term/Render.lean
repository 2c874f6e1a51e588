-- How terms and triples are written: `<uri>`, `_:blank`, quoted strings,
-- `?name` and `?_number` for variables, `f(a, b)`, `_` for the wildcard.
import TabledRules.Term
import TabledRules.Text.Quoted

namespace TabledRules

def Literal.render : Literal → String
  | .string s => Text.quote s
  | .integer i => toString i.toInt
  | .boolean true => "true"
  | .boolean false => "false"

def Node.render : Node → String
  | .uri u => "<" ++ u ++ ">"
  | .blank b => "_:" ++ b
  | .literal l => l.render

mutual
def Term.render : Term → String
  | .node n => n.render
  | .var name => "?" ++ name
  | .ref i => "?_" ++ toString i
  | .app f args => f ++ "(" ++ Term.renderArgs args ++ ")"
  | .any => "_"

/-- Arguments with a comma and a space between them. -/
def Term.renderArgs : List Term → String
  | [] => ""
  | [t] => t.render
  | t :: ts => t.render ++ ", " ++ Term.renderArgs ts
end

def Compound.render (c : Compound) : String := c.name ++ "(" ++ Term.renderArgs c.args ++ ")"

def Triple.render (t : Triple) : String :=
  "(" ++ t.subject.render ++ " " ++ t.predicate.render ++ " " ++ t.object.render ++ ")"

end TabledRules
