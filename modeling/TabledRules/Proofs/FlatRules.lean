-- Rules that build no terms. Their code only moves terms about, its goals are read
-- from tables or from the store, and its builtins are tests. So what the solving of
-- a goal can come across is known from the goal, the code and the stored triples.
import TabledRules.Proofs.FlatTerms
import TabledRules.Proofs.SoundQueries

namespace TabledRules

/-! ## Rules -/

/-- The builtins that bind nothing. -/
def Builtin.tests : List Builtin := [equal, notEqual, bound, unbound, lessThan, greaterThan, noValue]

/-- No compound term stands in the pattern, and a builtin is a test. -/
def Entry.Simple : Entry → Prop
  | .triple goal => ∀ t ∈ goal.terms, t.isApp = false
  | .builtin c => c.name ∈ Builtin.tests.map Builtin.name

/-- No compound term stands in the patterns of the rule, and its builtins are tests. -/
structure Rule.Simple (r : Rule) : Prop where
  head : ∀ t ∈ r.head.terms, t.isApp = false
  body : ∀ e ∈ r.body, e.Simple

/-- All goals keep tables, and no rule has compound terms in its patterns or builtins other than
tests. -/
structure RuleSet.Simple (rules : RuleSet) : Prop where
  allTabled : rules.allTabled = true
  rule : ∀ r ∈ rules.rules, r.Simple

/-! ## Code -/

/-- The operation neither takes a compound term apart nor builds one. -/
def Operation.Simple : Operation → Prop
  | .getFunctor _ | .makeFunctor _ => False
  | .getConstant _ t | .putConstant _ t => t.isGround = true
  | _ => True

/-- The goal is read from a table or from the store. -/
def Call.Simple : Call → Prop
  | .tabled | .wildTabled | .tripleMatch => True
  | _ => False

def Instruction.Simple : Instruction → Prop
  | .operation op => op.Simple
  | .call c => c.Simple
  | .builtin f _ => f ∈ Builtin.tests
  | .proceed => True

/-- The constant of an operation. -/
def Instruction.constant? : Instruction → Option Term
  | .operation (.getConstant _ t) | .operation (.putConstant _ t) => some t
  | _ => none

/-- The constants of all code. -/
def RuleBase.constants (b : RuleBase) : List Term :=
  b.clauses.toList.flatMap fun cl => cl.code.filterMap Instruction.constant?

def Draft.Simple (d : Draft) : Prop := ∀ i ∈ d.code, i.Simple

namespace Draft.Simple

variable {d : Draft} {op first later : Operation}

theorem add (h : d.Simple) {i : Instruction} (hi : i.Simple) :
    Draft.Simple { d with code := d.code ++ [i] } := by
  intro j hj
  rcases List.mem_append.1 hj with hj | hj
  · exact h j hj
  · obtain rfl := List.mem_singleton.1 hj
    exact hi

theorem emit (h : d.Simple) (hop : op.Simple) : (d.emit op).Simple :=
  h.add (i := .operation op) hop

theorem emitFirst (h : d.Simple) (v : String) (hfirst : first.Simple) (hlater : later.Simple) :
    (d.emitFirst v first later).Simple := by
  unfold Draft.emitFirst
  split
  · exact h.emit hlater
  · exact h.emit hfirst

theorem getLeaf (h : d.Simple) (p : Placement) (arg : Nat) (t : Term) :
    (d.getLeaf p arg t).Simple := by
  unfold Draft.getLeaf
  split
  · split
    · exact h
    · split
      · split
        · exact h
        · exact h.emitFirst _ trivial trivial
      · exact h.emitFirst _ trivial trivial
      · exact h
  · exact h.emit (Term.isGround_node _)
  · exact h

theorem getHead (h : d.Simple) (p : Placement) {head : Triple}
    (hhead : ∀ t ∈ head.terms, t.isApp = false) : (d.getHead p head).Simple := by
  have hstart := (h.getLeaf p 0 head.subject).getLeaf p 1 head.predicate
  unfold Draft.getHead
  simp only
  split
  · next f ts hobject =>
    have hno := hhead head.object (by simp [Triple.terms])
    rw [hobject] at hno
    cases hno
  · exact hstart.getLeaf p 2 _

theorem putLeaf (h : d.Simple) (p : Placement) (values : Bool) (arg : Nat) (t : Term) :
    (d.putLeaf p values arg t).Simple := by
  unfold Draft.putLeaf
  split
  · split
    · exact h.emit trivial
    · split
      · split
        · exact h
        · exact h.emit trivial
      · refine h.emitFirst _ trivial ?_
        split <;> trivial
      · exact h
  · exact h.emit (Term.isGround_node _)
  · exact h.emit trivial

theorem putLeaves (h : d.Simple) (p : Placement) (values : Bool) (arg : Nat) (ts : List Term) :
    (d.putLeaves p values arg ts).Simple := by
  induction ts generalizing d arg with
  | nil => exact h
  | cons t ts ih => exact ih (h.putLeaf p values arg t) (arg + 1)

theorem putObject (h : d.Simple) (p : Placement) {t : Term} (ht : t.isApp = false) :
    (d.putObject p t).Simple := by
  unfold Draft.putObject
  split
  · cases ht
  · exact h.putLeaf p false 2 _

/-- Where all goals keep tables, a goal that has clauses is read from its table. -/
theorem callFor {layout : Layout} (hall : layout.allTabled = true) (permanents : Bool)
    (goal : Triple) : (layout.callFor permanents goal).Simple := by
  unfold Layout.callFor
  simp only [Layout.isTabled, hall, Bool.true_or, if_true]
  split
  · trivial
  · split <;> trivial

theorem addEntry (h : d.Simple) (p : Placement) {layout : Layout} (hall : layout.allTabled = true)
    {e : Entry} (he : e.Simple) : (d.addEntry p layout Builtin.standard e).Simple := by
  cases e with
  | triple goal =>
    rw [Draft.addEntry, callGoal_eq]
    have hobject := he goal.object (by simp [Triple.terms])
    exact Simple.add (((h.putLeaf p false 0 _).putLeaf p false 1 _).putObject p hobject)
      (callFor hall _ goal)
  | builtin c =>
    rw [Draft.addEntry]
    split
    · next f hf =>
      have hname : f.name = c.name := by simpa using List.find?_some hf
      refine Simple.add (h.putLeaves p true 0 c.args) ?_
      -- of the standard builtins only those with the names of tests are left
      have hmem := List.mem_of_find?_eq_some hf
      have hc : c.name ∈ Builtin.tests.map Builtin.name := he
      rw [← hname] at hc
      simp only [Builtin.standard, List.mem_cons, List.not_mem_nil, or_false] at hmem
      change f ∈ Builtin.tests
      rcases hmem with rfl | rfl | rfl | rfl | rfl | rfl | rfl | rfl
      case inr.inr.inr.inr.inr.inr.inl =>
        exact absurd hc (by decide)
      all_goals simp [Builtin.tests]
    · exact h

theorem body (h : d.Simple) (p : Placement) {layout : Layout} (hall : layout.allTabled = true)
    {es : List Entry} (hes : ∀ e ∈ es, e.Simple) :
    (es.foldl (Draft.addEntry p layout Builtin.standard) d).Simple := by
  induction es generalizing d with
  | nil => exact h
  | cons e es ih =>
    rw [List.forall_mem_cons] at hes
    exact ih (h.addEntry p hall hes.1) hes.2

end Draft.Simple

theorem mem_body_of_leadingTests {head : Triple} {es : List Entry} {e : Entry}
    (h : e ∈ (leadingTests head es).2) : e ∈ es := by
  induction es with
  | nil => exact h
  | cons e' es ih =>
    rw [leadingTests] at h
    split at h
    · exact List.mem_cons_of_mem _ (ih h)
    · exact h

/-- The code of a rule that builds no terms is simple. -/
theorem Rule.Simple.code {r : Rule} (h : r.Simple) {layout : Layout}
    (hall : layout.allTabled = true) : ∀ i ∈ r.code layout Builtin.standard, i.Simple := by
  have htests : Draft.Simple (Draft.mk (r.tests.map .operation) []) := by
    intro i hi
    obtain ⟨op, hop, rfl⟩ := List.mem_map.1 hi
    obtain ⟨arg, -, rfl | rfl⟩ := test_of_mem hop
    · trivial
    · trivial
  have hrest : ∀ e ∈ (leadingTests r.head r.body).2, e.Simple :=
    fun e he => h.body e (mem_body_of_leadingTests he)
  exact ((htests.getHead r.placement h.head).body r.placement hall hrest).add (i := .proceed) trivial

/-! ## Programs -/

/-- The clauses are simple, all goals keep tables, and the store holds finitely many triples,
which are ground. -/
structure Program.Simple (P : Program) (facts : List Triple) : Prop where
  code : ∀ cl ∈ P.rules.clauses.toList, ∀ i ∈ cl.code, i.Simple
  tabled : ∀ p, P.rules.isTabled p = true
  found : ∀ {pattern t : Triple}, t ∈ P.find pattern → t ∈ facts
  length_le : ∀ pattern : Triple, (P.find pattern).length ≤ facts.length
  ground : ∀ t ∈ facts, t.isGround = true

/-- The ground terms that the solving of a goal can come across. -/
def Program.stock (P : Program) (facts : List Triple) (goal : Triple) : Stock :=
  .of (facts.flatMap Triple.terms ++ P.rules.constants ++ goal.terms)

/-- A lookup finds no more triples than are stored. -/
theorem Graph.length_find_le (g : Graph) (pattern : Triple) :
    (g.find pattern).length ≤ g.triples.length := by
  unfold Graph.find
  refine (List.length_filter_le _ _).trans ?_
  split
  · unfold Graph.withPredicate
    split
    · next bucket hbucket =>
      obtain ⟨before, after, hsplit⟩ := List.append_of_mem (List.mem_of_find?_eq_some hbucket)
      simp only [Graph.triples, hsplit, List.flatMap_append, List.flatMap_cons, List.length_append]
      omega
    · exact Nat.zero_le _
  · exact Nat.le_refl _

/-- Compiled rules that build no terms, over a store of ground triples, make a simple program. -/
theorem simple_of_compile {rules : RuleSet} {base : RuleBase} {graph : Graph}
    (hbase : rules.compile Builtin.standard = .ok base) (hrules : rules.Simple)
    (hground : ∀ t ∈ graph.triples, t.isGround = true) :
    (Program.mk Builtin.standard base graph.toStore).Simple graph.triples where
  code cl hcl := by
    obtain ⟨-, hall⟩ := clauses_of_compile hbase
    obtain ⟨p, hp, hcompile⟩ := exists_left hall hcl
    obtain ⟨-, rfl⟩ := of_compile hcompile
    exact (hrules.rule p.1 (List.fst_mem_of_mem_zipIdx hp)).code hrules.allTabled
  tabled p := by
    obtain ⟨hlayout, -⟩ := clauses_of_compile hbase
    change base.layout.isTabled p = true
    rw [hlayout, Layout.isTabled]
    exact Bool.or_eq_true_iff.2 (.inl (Bool.or_eq_true_iff.2 (.inl hrules.allTabled)))
  found ht := Graph.mem_triples_of_find ht
  length_le pattern := graph.length_find_le pattern
  ground := hground

end TabledRules
