-- Resolution, the way of solving goals that the machines carry out, without
-- machines: no registers, no stack, no order of trying. A state is the
-- bindings and what is left to solve. `Step` is one step of it, and the
-- answers to a goal are what the steps from its clauses lead to.
import Mathlib.Logic.Relation
import TabledRules.Proofs.Unify
import TabledRules.Machine

namespace TabledRules

/-! ## Rules at work -/

/-- The values of the variables of a rule, as far as they have been met. -/
abbrev Values := String → Option Term

namespace Values

def none : Values := fun _ => Option.none

def set (θ : Values) (v : String) (t : Term) : Values := Function.update θ v (some t)

@[simp] theorem set_self (θ : Values) (v : String) (t : Term) : θ.set v t v = some t := by
  simp [set]

theorem set_of_ne (θ : Values) {v u : String} (t : Term) (h : u ≠ v) : θ.set v t u = θ u := by
  simp [set, h]

end Values

/-- Matches a term of a called goal with a term without parts of a head. -/
def matchLeaf (n : Nat) (θ : Values) (b : Bindings) (arg : Term) :
    Term → Option (Option (Values × Bindings))
  | .var v =>
    match θ v with
    | none => some (some (θ.set v arg, b))
    | some t => (b.unify n arg t).map (·.map (θ, ·))
  | .node c => (b.unify n arg (.node c)).map (·.map (θ, ·))
  | _ => some (some (θ, b))

/-- Goes on after a match that succeeded. -/
def matchThen (x : Option (Option (Values × Bindings)))
    (next : Values → Bindings → Option (Option (Values × Bindings))) :
    Option (Option (Values × Bindings)) :=
  match x with
  | some (some (θ, b)) => next θ b
  | other => other

def matchLeaves (n : Nat) : Values → Bindings → List Term → List Term →
    Option (Option (Values × Bindings))
  | θ, b, arg :: args, t :: ts =>
    matchThen (matchLeaf n θ b arg t) fun θ b => matchLeaves n θ b args ts
  | θ, b, _, _ => some (some (θ, b))

namespace Bindings

/-- Puts a new variable in the place of every term that `replaced` picks. -/
def freshen (replaced : Term → Bool) : Bindings → List Term → List Term × Bindings
  | b, [] => ([], b)
  | b, t :: ts =>
    let (t, b) := if replaced t then b.newVar else (t, b)
    let (ts, b) := freshen replaced b ts
    (t :: ts, b)

/-- The arguments of a called object that is to be a compound term of this shape. An
unbound object becomes one. -/
def openObject (b : Bindings) (object : Term) (f : String) (ts : List Term) :
    Option (List Term × Bindings) :=
  match b.deref object with
  | .app g args => if g = f ∧ args.length = ts.length then some (args, b) else none
  | .ref v =>
    let (args, b) := b.freshen Term.isVar ts
    some (args, b.bind v (.app f args))
  | .any | .var _ => some (b.freshen (fun _ => true) ts)
  | .node _ => none

end Bindings

def matchObject (n : Nat) (θ : Values) (b : Bindings) (object : Term) :
    Term → Option (Option (Values × Bindings))
  | .app f ts =>
    match b.openObject object f ts with
    | none => some none
    | some (args, b) => matchLeaves n θ b args ts
  | t => matchLeaf n θ b object t

def matchHead (n : Nat) (head goal : Triple) (b : Bindings) : Option (Option (Values × Bindings)) :=
  matchThen (matchLeaves n .none b [goal.subject, goal.predicate] [head.subject, head.predicate])
    fun θ b => matchObject n θ b goal.object head.object

/-- The called goal passes a test that a body begins with. -/
def Operation.passes (b : Bindings) (goal : Triple) : Operation → Bool
  | .testBound arg => b.isBound (goal.terms.getD arg .any)
  | .testUnbound arg => !b.isBound (goal.terms.getD arg .any)
  | _ => true

namespace Rule

/-- The body without the tests that it begins with. -/
def steps (r : Rule) : List Entry := (leadingTests r.head r.body).2

/-- Takes a rule up for a called goal. -/
def enter (n : Nat) (r : Rule) (goal : Triple) (b : Bindings) :
    Option (Option (Values × Bindings)) :=
  if (leadingTests r.head r.body).1.all (·.passes b goal) then matchHead n r.head goal b
  else some none

/-- A term without parts as it is passed on. A builtin is passed the values of
variables that live in the environment. -/
def putLeaf (r : Rule) (values : Bool) (θ : Values) (b : Bindings) :
    Term → Term × Values × Bindings
  | .var v =>
    match θ v with
    | some t => (if values && (r.placement.slot? v).isSome then b.deref t else t, θ, b)
    | none => (.ref b.size, θ.set v (.ref b.size), b.newVar.2)
  | .node c => (.node c, θ, b)
  | _ => (.ref b.size, θ, b.newVar.2)

def putLeaves (r : Rule) (values : Bool) : Values → Bindings → List Term →
    List Term × Values × Bindings
  | θ, b, [] => ([], θ, b)
  | θ, b, t :: ts =>
    let (t, θ, b) := r.putLeaf values θ b t
    let (ts, θ, b) := r.putLeaves values θ b ts
    (t :: ts, θ, b)

def putObject (r : Rule) (θ : Values) (b : Bindings) : Term → Term × Values × Bindings
  | .app f ts =>
    let (ts, θ, b) := r.putLeaves false θ b ts
    (.app f ts, θ, b)
  | t => r.putLeaf false θ b t

/-- A goal of the body as it is called. -/
def putGoal (r : Rule) (θ : Values) (b : Bindings) (goal : Triple) : Triple × Values × Bindings :=
  let (s, θ, b) := r.putLeaf false θ b goal.subject
  let (p, θ, b) := r.putLeaf false θ b goal.predicate
  let (o, θ, b) := r.putObject θ b goal.object
  (⟨s, p, o⟩, θ, b)

end Rule

/-! ## States and steps -/

instance : Coe Graph Store := ⟨Graph.toStore⟩

/-- What goals are solved by. -/
structure Program where
  registry : Registry
  rules : RuleBase
  store : Store

/-- What the store has for a pattern, if it can be read. -/
def Program.find (P : Program) (pattern : Triple) : List Triple :=
  match P.store.find pattern with
  | .ok facts => facts
  | .error _ => []

/-- The triple is what the store has for some pattern. -/
def Program.Stored (P : Program) (t : Triple) : Prop := ∃ pattern, t ∈ P.find pattern

/-- The clauses are the rules' own code. -/
def Program.Compiled (P : Program) : Prop :=
  ∀ c ∈ P.rules.clauses.toList, c.rule.fault? P.registry = none ∧
    c.code = c.rule.code P.rules.layout P.registry ∧
    c.permanents = c.rule.placement.permanent.length

/-- How a goal in the body of a rule is solved. -/
def Program.callFor (P : Program) (r : Rule) (goal : Triple) : Call :=
  P.rules.layout.callFor (!r.placement.permanent.isEmpty) goal

/-- A rule that was taken up, and what is left of its body. -/
structure Frame where
  rule : Rule
  values : Values
  rest : List Entry

/-- What is left to solve, the innermost rule first. -/
structure State where
  bindings : Bindings
  frames : List Frame

section

variable (P : Program) (table : Triple → Triple → Prop)

/-- A called goal is solved by a stored triple, by a rule whose body is left to solve, or
by a result of its table. New variables may be left out before. -/
inductive Opens (c : Call) (goal : Triple) (b : Bindings) : Bindings → List Frame → Prop
  | fact {n k : Nat} {value t : Triple} {b' : Bindings} :
    c.readsTable P.rules (goal.mapTerms b.deref) = false →
    goal.mapTerms? (b.deepDeref n) = some value → t ∈ P.find value.lookupKey →
    (b.grow k).unifyTriple n goal t = some (some b') → Opens c goal b b' []
  | clause {n k : Nat} {cl : Clause} {θ : Values} {b' : Bindings} :
    c.readsTable P.rules (goal.mapTerms b.deref) = false →
    cl ∈ c.clauses P.rules (goal.mapTerms b.deref) →
    cl.rule.enter n goal (b.grow k) = some (some (θ, b')) →
    Opens c goal b b' [⟨cl.rule, θ, cl.rule.steps⟩]
  | result {n k : Nat} {value t : Triple} {b' : Bindings} :
    c.readsTable P.rules (goal.mapTerms b.deref) = true →
    goal.mapTerms? (b.deepDeref n) = some value → table value.variantKey t →
    (b.grow k).unifyTriple n goal t = some (some b') → Opens c goal b b' []

inductive Step : State → State → Prop
  | leave {b : Bindings} {r : Rule} {θ : Values} {fs : List Frame} :
    Step ⟨b, ⟨r, θ, []⟩ :: fs⟩ ⟨b, fs⟩
  | goal {b b1 b2 : Bindings} {r : Rule} {θ θ1 : Values} {pattern g : Triple} {es : List Entry}
    {new fs : List Frame} : r.putGoal θ b pattern = (g, θ1, b1) →
    Opens P table (P.callFor r pattern) g b1 b2 new →
    Step ⟨b, ⟨r, θ, .triple pattern :: es⟩ :: fs⟩ ⟨b2, new ++ ⟨r, θ1, es⟩ :: fs⟩
  | builtin {n : Nat} {b b1 b2 : Bindings} {r : Rule} {θ θ1 : Values} {c : Compound} {f : Builtin}
    {args : List Term} {es : List Entry} {fs : List Frame} :
    P.registry.get? c.name = some f → r.putLeaves true θ b c.args = (args, θ1, b1) →
    f.run n P.store (some r) b1 args = some (.ok (some b2)) →
    Step ⟨b, ⟨r, θ, .builtin c :: es⟩ :: fs⟩ ⟨b2, ⟨r, θ1, es⟩ :: fs⟩

abbrev Steps : State → State → Prop := Relation.ReflTransGen (Step P table)

/-- Some way of solving all that is left gives this answer to the goal `standard`. -/
def State.Gives (standard : Triple) (st : State) (t : Triple) : Prop :=
  ∃ b n, Steps P table st ⟨b, []⟩ ∧ standard.mapTerms? (b.resolve n) = some t

end

/-! ## Answers -/

/-- A goal with its variables numbered. -/
def Triple.standard (goal : Triple) : Triple := (goal.renumber .ref).1

/-- The variables of a goal, all of them unbound. -/
def Triple.unbound (goal : Triple) : Bindings := { size := (goal.renumber .ref).2.next }

/-- An answer of a goal by the store and the clauses, with tables for the goals that have
them. -/
inductive Derives (P : Program) (table : Triple → Triple → Prop) (goal : Triple) : Triple → Prop
  | fact {n k : Nat} {t : Triple} {b : Bindings} : t ∈ P.find goal.standard.lookupKey →
    (goal.unbound.grow k).unifyTriple n goal.standard t = some (some b) → Derives P table goal t
  | clause {n k : Nat} {cl : Clause} {θ : Values} {b : Bindings} {t : Triple} :
    cl ∈ P.rules.codeFor goal.standard →
    cl.rule.enter n goal.standard (goal.unbound.grow k) = some (some (θ, b)) →
    State.Gives P table goal.standard ⟨b, [⟨cl.rule, θ, cl.rule.steps⟩]⟩ t → Derives P table goal t

/-- The results that a table has after `n` rounds in which all tables are filled from the
ones before. -/
def Stage (P : Program) : Nat → Triple → Triple → Prop
  | 0 => fun _ _ => False
  | n + 1 => Derives P (Stage P n)

/-- An answer of a goal by the store, the clauses and the tables. -/
def Answer (P : Program) (goal t : Triple) : Prop := ∃ n, Stage P n goal t

/-- The query for a pattern is read from a table. -/
def Program.readsTable (P : Program) (pattern : Triple) : Bool :=
  !(P.rules.codeFor pattern.standard).isEmpty && P.rules.isTabled pattern.standard.predicate

/-- An answer of the query for a pattern. -/
inductive QueryAnswer (P : Program) (pattern : Triple) : Triple → Prop
  | derived {t : Triple} : P.readsTable pattern = false → Derives P (Answer P) pattern t →
    QueryAnswer P pattern t
  | result {n k : Nat} {r t : Triple} {b : Bindings} : P.readsTable pattern = true →
    Answer P pattern.standard.variantKey r →
    (pattern.unbound.grow k).unifyTriple n pattern.standard r = some (some b) →
    pattern.standard.mapTerms? (b.resolve n) = some t → QueryAnswer P pattern t

/-! ## Tables with more results -/

section

variable {P : Program} {T U : Triple → Triple → Prop} (h : ∀ g t, T g t → U g t)
include h

theorem Opens.mono {c : Call} {g : Triple} {b b' : Bindings} {fs : List Frame}
    (ho : Opens P T c g b b' fs) : Opens P U c g b b' fs := by
  cases ho with
  | fact h1 h2 h3 h4 => exact .fact h1 h2 h3 h4
  | clause h1 h2 h3 => exact .clause h1 h2 h3
  | result h1 h2 h3 h4 => exact .result h1 h2 (h _ _ h3) h4

theorem Step.mono {st st' : State} (hs : Step P T st st') : Step P U st st' := by
  cases hs with
  | leave => exact .leave
  | goal h1 h2 => exact .goal h1 (h2.mono h)
  | builtin h1 h2 h3 => exact .builtin h1 h2 h3

theorem Steps.mono {st st' : State} (hs : Steps P T st st') : Steps P U st st' := by
  induction hs with
  | refl => exact .refl
  | tail _ h2 ih => exact ih.tail (h2.mono h)

theorem State.Gives.mono {goal t : Triple} {st : State} (hg : st.Gives P T goal t) :
    st.Gives P U goal t := by
  obtain ⟨b, n, hs, ht⟩ := hg
  exact ⟨b, n, Steps.mono h hs, ht⟩

theorem Derives.mono {goal t : Triple} (hd : Derives P T goal t) : Derives P U goal t := by
  cases hd with
  | fact h1 h2 => exact .fact h1 h2
  | clause h1 h2 h3 => exact .clause h1 h2 (h3.mono h)

end

variable {P : Program}

theorem Stage.mono {n m : Nat} (hnm : n ≤ m) {goal t : Triple} (h : Stage P n goal t) :
    Stage P m goal t := by
  induction n generalizing m goal t with
  | zero => exact h.elim
  | succ n ih =>
    obtain ⟨k, rfl⟩ : ∃ k, m = k + 1 := ⟨m - 1, by omega⟩
    exact Derives.mono (fun _ _ => ih (by omega)) h

theorem Step.stage {st st' : State} (h : Step P (Answer P) st st') :
    ∃ n, Step P (Stage P n) st st' := by
  cases h with
  | leave => exact ⟨0, .leave⟩
  | builtin h1 h2 h3 => exact ⟨0, .builtin h1 h2 h3⟩
  | goal h1 h2 =>
    cases h2 with
    | fact h2 h3 h4 h5 => exact ⟨0, .goal h1 (.fact h2 h3 h4 h5)⟩
    | clause h2 h3 h4 => exact ⟨0, .goal h1 (.clause h2 h3 h4)⟩
    | result h2 h3 h4 h5 =>
      obtain ⟨n, hn⟩ := h4
      exact ⟨n, .goal h1 (.result h2 h3 hn h5)⟩

/-- A way of solving takes finitely many results, which are all there after some round. -/
theorem Steps.stage {st st' : State} (h : Steps P (Answer P) st st') :
    ∃ n, Steps P (Stage P n) st st' := by
  induction h with
  | refl => exact ⟨0, .refl⟩
  | tail _ h2 ih =>
    obtain ⟨n, hn⟩ := ih
    obtain ⟨m, hm⟩ := h2.stage
    exact ⟨max n m, .tail (Steps.mono (fun _ _ => Stage.mono (Nat.le_max_left n m)) hn)
      (hm.mono fun _ _ => Stage.mono (Nat.le_max_right n m))⟩

theorem answer_of_derives {goal t : Triple} (h : Derives P (Answer P) goal t) :
    Answer P goal t := by
  cases h with
  | fact h1 h2 => exact ⟨1, .fact h1 h2⟩
  | clause h1 h2 h3 =>
    obtain ⟨b, n, hs, ht⟩ := h3
    obtain ⟨k, hk⟩ := hs.stage
    exact ⟨k + 1, .clause h1 h2 ⟨b, n, hk, ht⟩⟩

theorem derives_of_answer {goal t : Triple} (h : Answer P goal t) : Derives P (Answer P) goal t := by
  obtain ⟨n, hn⟩ := h
  cases n with
  | zero => exact hn.elim
  | succ n => exact Derives.mono (fun _ _ ht => ⟨n, ht⟩) hn

end TabledRules
