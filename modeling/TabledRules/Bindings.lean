-- The variables of one running evaluation and what they are bound to.
-- Every binding goes on a trail, so that it can be undone.
import Std.Data.TreeMap
import TabledRules.Term

namespace TabledRules

/-- There are the variables below `size`, and `values` has those that are bound. The
trail names the bound variables, last binding first. -/
structure Bindings where
  size : Nat := 0
  values : Std.TreeMap Nat Term := ∅
  trail : List Nat := []
deriving Inhabited

namespace Bindings

/-! ## Variables -/

def newVar (b : Bindings) : Term × Bindings := (.ref b.size, { b with size := b.size + 1 })

def value? (b : Bindings) (v : Nat) : Option Term := b.values[v]?

/-- A variable that does not exist is left alone. -/
def bind (b : Bindings) (v : Nat) (t : Term) : Bindings :=
  if v < b.size then { b with values := b.values.insert v t, trail := v :: b.trail } else b

/-- The same variables, bound to the same values in the same order. -/
def same (a b : Bindings) : Bool :=
  a.size = b.size && a.trail = b.trail && a.values.toList = b.values.toList

/-- At least `count` variables, of which the new ones are not bound. -/
def grow (b : Bindings) (count : Nat) : Bindings := { b with size := max b.size count }

/-! ## Undoing -/

def mark (b : Bindings) : Nat := b.trail.length

/-- Undoes the last `n` bindings. -/
def undo : Nat → Bindings → Bindings
  | n + 1, ⟨size, values, v :: trail⟩ => undo n ⟨size, values.erase v, trail⟩
  | _, b => b

/-- Undoes every binding made since the trail was `mark` long. -/
def unwind (b : Bindings) (mark : Nat) : Bindings := undo (b.mark - mark) b

/-- Forgets the variables from number `count` on. -/
def reclaim (b : Bindings) (count : Nat) : Bindings :=
  { b with size := min b.size count, values := b.values.filter fun v _ => v < count }

/-- What the variables on the trail are bound to, oldest binding first. -/
def snapshot (b : Bindings) : List (Nat × Term) :=
  b.trail.reverse.filterMap fun v => (b.value? v).map (v, ·)

/-- Undoes everything and binds as the snapshot says. -/
def restore (b : Bindings) (saved : List (Nat × Term)) : Bindings :=
  saved.foldl (fun b (v, t) => b.bind v t) (b.unwind 0)

/-! ## Values -/

/-- Follows at most `n` bindings of a variable to a variable or a value. -/
def follow (b : Bindings) : Nat → Term → Term
  | n + 1, .ref v =>
    match b.value? v with
    | some t => b.follow n t
    | none => .ref v
  | _, t => t

/-- The value of a term, or the unbound variable that stands for it. A chain of
variables is never longer than the number of variables. -/
def deref (b : Bindings) (t : Term) : Term := b.follow b.size t

/-- The value of a term with all its parts replaced by their values, if that takes no
more than `n` terms inside each other. There is no `n` for a variable that stands
inside its own value. -/
def deepDeref (b : Bindings) : Nat → Term → Option Term
  | 0, _ => none
  | n + 1, t =>
    match b.deref t with
    | .app f args => (args.mapM (b.deepDeref n)).map (.app f)
    | t => some t

/-- The value of a term for output: what is unbound is a wildcard. -/
def resolve (b : Bindings) (n : Nat) (t : Term) : Option Term :=
  (b.deepDeref n t).map (Term.mapVars fun _ => .any)

/-- All the terms have ground values. The terms after one that has not are not looked
at. -/
def areGround (b : Bindings) (n : Nat) : List Term → Option Bool
  | [] => some true
  | t :: ts =>
    match b.deepDeref n t with
    | none => none
    | some t => if t.isGround then b.areGround n ts else some false

def isBound (b : Bindings) (t : Term) : Bool := !(b.deref t).isVar

/-! ## Unification -/

/-- Makes one variable of two unbound ones: the younger is bound to the older. -/
def merge (b : Bindings) (v u : Nat) : Bindings :=
  if v = u then b else if u < v then b.bind v (.ref u) else b.bind u (.ref v)

/-- Unifies term after term, up to the first pair that does not match. -/
def unifyEach (one : Bindings → Term → Term → Option (Option Bindings)) :
    Bindings → List Term → List Term → Option (Option Bindings)
  | b, l :: ls, r :: rs =>
    match one b l r with
    | some (some b) => unifyEach one b ls rs
    | other => other
  | b, _, _ => some (some b)

/-- Unifies two terms: `some none` if they do not match. Wildcards and named variables
match anything. Where a variable stands inside its own value this may have no
end, so it stops with `none` at more than `n` terms inside each other. -/
def unify : Nat → Bindings → Term → Term → Option (Option Bindings)
  | 0, _, _, _ => none
  | n + 1, b, l, r =>
    match b.deref l, b.deref r with
    | .any, _ | .var _, _ | _, .any | _, .var _ => some (some b)
    | .ref v, .ref u => some (some (b.merge v u))
    | .ref v, t => some (some (b.bind v t))
    | t, .ref v => some (some (b.bind v t))
    | .node x, .node y => some (if x = y then some b else none)
    | .app f as, .app g bs =>
      if f = g ∧ as.length = bs.length then unifyEach (unify n) b as bs else some none
    | .node _, .app _ _ | .app _ _, .node _ => some none

/-- Unifies the terms of two lists in turn, all of them or none. -/
def unifyAll (n : Nat) (b : Bindings) (ls rs : List Term) : Option (Option Bindings) :=
  unifyEach (unify n) b ls rs

def unifyTriple (n : Nat) (b : Bindings) (goal t : Triple) : Option (Option Bindings) :=
  b.unifyAll n goal.terms t.terms

end Bindings

end TabledRules
