-- A number for each term, to find terms by. Equal terms have equal numbers;
-- terms that differ seldom do.
import TabledRules.Term

namespace TabledRules

/-- Takes one more number into a digest, which stays small. The square keeps terms apart
that have the same parts at other places. -/
def mixDigest (digest n : Nat) : Nat :=
  let sum := (digest * 31 + n) % 1000000007
  sum * sum % 1000000007

def textDigest (s : String) : Nat := s.toList.foldl (fun d c => mixDigest d c.toNat) 1

def Literal.digest : Literal → Nat
  | .string s => mixDigest 2 (textDigest s)
  | .integer i => mixDigest 3 i.toUInt64.toNat
  | .boolean b => mixDigest 4 b.toNat

def Node.digest : Node → Nat
  | .uri s => mixDigest 5 (textDigest s)
  | .blank s => mixDigest 6 (textDigest s)
  | .literal l => mixDigest 7 l.digest

mutual
def Term.digest : Term → Nat
  | .node n => mixDigest 8 n.digest
  | .var name => mixDigest 9 (textDigest name)
  | .ref i => mixDigest 10 i
  | .app f args => Term.digestAll (mixDigest 11 (textDigest f)) args
  | .any => 12

/-- Takes the terms of a list into a digest. -/
def Term.digestAll (digest : Nat) : List Term → Nat
  | [] => digest
  | t :: ts => Term.digestAll (mixDigest digest t.digest) ts
end

def Triple.digest (t : Triple) : Nat := Term.digestAll 13 [t.subject, t.predicate, t.object]

end TabledRules
