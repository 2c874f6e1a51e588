-- Text cut at a separator.

namespace TabledRules.Text

/-- The pieces of a text between separators. There is always one piece more than
there are separators. -/
def splitChars (sep : Char) : List Char → List (List Char)
  | [] => [[]]
  | c :: cs =>
    if c = sep then [] :: splitChars sep cs
    else
      match splitChars sep cs with
      | [] => [[c]]
      | piece :: pieces => (c :: piece) :: pieces

def split (sep : Char) (s : String) : List String :=
  (splitChars sep s.toList).map String.ofList

end TabledRules.Text
