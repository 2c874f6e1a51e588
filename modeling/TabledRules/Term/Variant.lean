-- Variants of a pattern: patterns that differ in the names of their
-- variables only. Variables are numbered by first occurrence, so that all
-- variants get the same numbers. Each wildcard counts as a variable of
-- its own.
import TabledRules.Term

namespace TabledRules

/-- The numbers given out so far, and to which variables. -/
structure Numbering where
  next : Nat := 0
  known : List (Term × Nat) := []

namespace Numbering

def fresh (n : Numbering) : Nat × Numbering := (n.next, { n with next := n.next + 1 })

/-- The number of a leaf: the one it has, or the next one. -/
def number (n : Numbering) : Term → Nat × Numbering
  | .any => n.fresh
  | t =>
    match n.known.lookup t with
    | some i => (i, n)
    | none => (n.next, ⟨n.next + 1, (t, n.next) :: n.known⟩)

end Numbering

mutual
/-- Puts `make i` in the place of the leaf with number `i`. -/
def Term.renumber (make : Nat → Term) : Term → Numbering → Term × Numbering
  | .node v, n => (.node v, n)
  | .app f args, n =>
    let (args, n) := Term.renumberAll make args n
    (.app f args, n)
  | t, n =>
    let (i, n) := n.number t
    (make i, n)

def Term.renumberAll (make : Nat → Term) : List Term → Numbering → List Term × Numbering
  | [], n => ([], n)
  | t :: ts, n =>
    let (t, n) := Term.renumber make t n
    let (ts, n) := Term.renumberAll make ts n
    (t :: ts, n)
end

namespace Triple

def renumber (make : Nat → Term) (t : Triple) : Triple × Numbering :=
  let (s, n) := t.subject.renumber make {}
  let (p, n) := t.predicate.renumber make n
  let (o, n) := t.object.renumber make n
  (⟨s, p, o⟩, n)

/-- The form that all variants of a pattern share: its variables are `_0`, `_1`
and so on, in order of first occurrence. -/
def variantKey (t : Triple) : Triple := (t.renumber fun i => .var s!"_{i}").1

end Triple

end TabledRules
