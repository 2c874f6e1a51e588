-- What a machine holds. All that it may still look at, in registers, slots and
-- choice points, is made of variables that were there when it was put there and
-- are there when it is looked at; code and stored triples have none of their own,
-- and results of tables none at all.
import TabledRules.Proofs.GroundTables
import TabledRules.Proofs.Rereading
import TabledRules.Proofs.SharedFrames
import TabledRules.Proofs.Touches

namespace TabledRules

open Bindings Register

/-! ## Code without variables -/

/-- The operation is plain, or the builtin is a standard one. -/
def Instruction.Plain : Instruction → Prop
  | .operation op => op.Plain
  | .builtin f _ => ∃ name, Builtin.standard.get? name = some f
  | .call _ | .proceed => True

def Draft.Plain (d : Draft) : Prop := ∀ i ∈ d.code, i.Plain

namespace Draft.Plain

variable {d : Draft} {op first later : Operation} {p : Placement} {layout : Layout}

theorem add (h : d.Plain) {i : Instruction} (hi : i.Plain) :
    Draft.Plain { d with code := d.code ++ [i] } := by
  intro j hj
  rcases List.mem_append.1 hj with hj | hj
  · exact h j hj
  · obtain rfl := List.mem_singleton.1 hj
    exact hi

theorem emit (h : d.Plain) (hop : op.Plain) : (d.emit op).Plain :=
  h.add (i := .operation op) hop

theorem emitFirst (h : d.Plain) {v : String} (hfirst : first.Plain) (hlater : later.Plain) :
    (d.emitFirst v first later).Plain := by
  unfold Draft.emitFirst
  split
  · exact h.emit hlater
  · exact h.emit hfirst

theorem getLeaf (h : d.Plain) (p : Placement) (arg : Nat) (t : Term) :
    (d.getLeaf p arg t).Plain := by
  unfold Draft.getLeaf
  split
  · split
    · exact h
    · split
      · split
        · exact h
        · exact h.emitFirst trivial trivial
      · exact h.emitFirst trivial trivial
      · exact h
  · exact h.emit (Term.isGround_node _)
  · exact h

theorem getLeaves (h : d.Plain) (p : Placement) (arg : Nat) (ts : List Term) :
    (d.getLeaves p arg ts).Plain := by
  induction ts generalizing d arg with
  | nil => exact h
  | cons t ts ih => exact ih (h.getLeaf p arg t) (arg + 1)

theorem getHead (h : d.Plain) (p : Placement) {head : Triple}
    (hflat : ∀ f ts, head.object = .app f ts → ∀ t ∈ ts, t.isApp = false) :
    (d.getHead p head).Plain := by
  have hstart := (h.getLeaf p 0 head.subject).getLeaf p 1 head.predicate
  unfold Draft.getHead
  simp only
  split
  · next f ts hobject =>
    have hop : (Operation.getFunctor ⟨f, ts⟩).Plain := hflat f ts hobject
    exact (hstart.emit hop).getLeaves p argBase ts
  · exact hstart.getLeaf p 2 _

theorem putLeaf (h : d.Plain) (p : Placement) (values : Bool) (arg : Nat) (t : Term) :
    (d.putLeaf p values arg t).Plain := by
  unfold Draft.putLeaf
  split
  · split
    · exact h.emit trivial
    · split
      · split
        · exact h
        · exact h.emit trivial
      · refine h.emitFirst trivial ?_
        split <;> trivial
      · exact h
  · exact h.emit (Term.isGround_node _)
  · exact h.emit trivial

theorem putLeaves (h : d.Plain) (p : Placement) (values : Bool) (arg : Nat) (ts : List Term) :
    (d.putLeaves p values arg ts).Plain := by
  induction ts generalizing d arg with
  | nil => exact h
  | cons t ts ih => exact ih (h.putLeaf p values arg t) (arg + 1)

theorem putObject (h : d.Plain) (p : Placement) (t : Term) : (d.putObject p t).Plain := by
  unfold Draft.putObject
  split
  · exact (h.putLeaves p false argBase _).emit trivial
  · exact h.putLeaf p false 2 _

theorem addEntry (h : d.Plain) (p : Placement) (layout : Layout) (e : Entry) :
    (d.addEntry p layout Builtin.standard e).Plain := by
  cases e with
  | triple goal =>
    rw [Draft.addEntry, callGoal_eq]
    exact Plain.add (((h.putLeaf p false 0 _).putLeaf p false 1 _).putObject p _) trivial
  | builtin c =>
    rw [Draft.addEntry]
    split
    · next f hf => exact Plain.add (h.putLeaves p true 0 c.args) ⟨c.name, hf⟩
    · exact h

theorem body (h : d.Plain) (p : Placement) (layout : Layout) (es : List Entry) :
    (es.foldl (Draft.addEntry p layout Builtin.standard) d).Plain := by
  induction es generalizing d with
  | nil => exact h
  | cons e es ih => exact ih (h.addEntry p layout e)

end Draft.Plain

/-- The code of a rule is plain. -/
theorem Rule.plain_code {r : Rule} (hfault : r.headFault = none) (layout : Layout) :
    ∀ i ∈ r.code layout Builtin.standard, i.Plain := by
  have htests : Draft.Plain (Draft.mk (r.tests.map .operation) []) := by
    intro i hi
    obtain ⟨op, hop, rfl⟩ := List.mem_map.1 hi
    obtain ⟨arg, -, rfl | rfl⟩ := test_of_mem hop
    · trivial
    · trivial
  have hbody := (htests.getHead r.placement (flat_of_headFault hfault).2.2).body r.placement layout
    (leadingTests r.head r.body).2
  exact hbody.add (i := .proceed) trivial

/-! ## Tables without variables -/

/-- No variable stands in a result. -/
def Session.Clear (s : Session) : Prop :=
  ∀ (g : Nat) (gen : Generator), s.generators[g]? = some gen →
    ∀ t ∈ gen.results.toList, ∀ u ∈ t.terms, u.Plain

section

variable {P : Program} {R : Registry} {st : Settings} {W : World → Prop} {w : World} {n : Nat}
  {h : Happening} {x x' : Moment} {m m' : Machine} {s s' : Session} {c c' : Choice}
  {rest : List Choice} {env : Env} {code : List Instruction} {control control' : Control}
  {own goal t : Triple} {a : Alternatives} {b b' : Bindings} {d : Nat} {u : Term} {p q : Term → Prop}

theorem Session.Clear.of_empty (h : s.generators = ∅) : s.Clear := by
  intro g gen hgen
  rw [h] at hgen
  cases hgen.symm.trans Std.TreeMap.getElem?_emptyc

theorem Session.Clear.gainless (h : s.Clear) (hs : s.Gainless s') : s'.Clear := by
  intro g gen' hgen' t ht
  rcases hs.table hgen' with ⟨-, hnil⟩ | ⟨gen, hgen, -, e, -⟩
  · rw [hnil] at ht
    cases ht
  · exact h g gen hgen t (e ▸ ht)

/-- Answers have no variables. -/
theorem Session.Sound.clear (hP : ∀ t, P.Stored t → t.isGround = true) (hs : s.Sound P) :
    s.Clear :=
  fun _ _ hgen _ ht => answer_has hP (hs.results hgen ht)

theorem Session.Clear.read (h : s.Clear) (hread : s.read d = (.result t, s')) :
    ∀ u ∈ t.terms, u.Plain := by
  obtain ⟨k, gen, -, hgen, hget, -⟩ := Session.of_read_result hread
  exact h _ gen hgen t (Array.mem_toList_iff.2 (Array.mem_of_getElem? hget))

theorem Session.gainless_read (s : Session) (d : Nat) : s.Gainless (s.read d).2 := by
  unfold Session.read
  split
  · exact .refl s
  · split
    · exact .refl s
    · split
      · exact .of_eq (Nat.le_refl _) rfl
      · exact .refl s

theorem Choice.Offers.gainless (h : c.Offers s goal t a s') : s.Gainless s' := by
  cases h with
  | fact | answer => exact .refl s
  | @result d goal t s' _ hread => simpa [hread] using s.gainless_read d

/-- A step of a machine gives no table a result. -/
theorem Machine.Acts.gainless (h : m.Acts P st n s control control' m' s') : s.Gainless s' := by
  cases h with
  | operation | builtin | empty => exact .refl s
  | operationFails _ hnoted => exact hnoted.gainless
  | builtinFails hnoted => exact hnoted.gainless
  | leave hnoted => exact hnoted.gainless
  | answer _ hnoted => exact hnoted.gainless
  | spent _ _ hnoted => exact hnoted.gainless
  | enter _ _ _ hnoted => exact hnoted.gainless
  | call hcalls =>
    cases hcalls with
    | search => exact .refl s
    | table _ _ hg => exact Session.gainless_table hg _ _
  | stay _ hoffers hnoted => exact hoffers.gainless.trans hnoted.gainless
  | resume _ hoffers hnoted => exact hoffers.gainless.trans hnoted.gainless
  | @exhausted c rest d goal s1 _ _ _ hread hnoted =>
    have hs1 : s.Gainless s1 := by simpa [hread] using s.gainless_read d
    exact (hs1.trans (s1.gainless_removeConsumer d)).trans hnoted.gainless
  | @park c rest d goal s1 _ _ _ hread hnoted =>
    have hs1 : s.Gainless s1 := by simpa [hread] using s.gainless_read d
    exact (hs1.trans (s1.gainless_block m.owner d)).trans hnoted.gainless

/-- Whatever happens, no result has a variable, where others give tables none that has. -/
theorem Moment.Passes.clear (h' : x.Passes W Session.Clear h x') (hx : x.session.Clear) :
    x'.session.Clear := by
  cases h' with
  | setUp => exact hx
  | @setUpQuery w goal q m0 m s s' hw h0 hm =>
    rcases @startQuery_ok w.program w.settings _ _ _ _ _ hm with
      ⟨-, -, rfl⟩ | ⟨-, -, g, s1, -, hg, -, rfl⟩
    · exact hx
    · exact hx.gainless (Session.gainless_table hg g _)
  | @step w n control control' m m' s s' p hw hstep hp =>
    have hacts : m.Acts w.program w.settings n s control control' m' s' := acts_of_step hstep hp
    exact hx.gainless hacts.gainless
  | restore hrestore => exact hx.gainless (restore_gainless hrestore)
  | others _ hok => exact hok

/-! ## What is held -/

theorem Term.Plain.knows (h : u.Plain) (b : Bindings) : b.Knows u :=
  h.mono fun y e => ⟨trivial, fun v hv => by rw [e] at hv; cases hv⟩

/-- The values in the slots of the environment and its callers have `p`, and the code that is gone
on with there is plain. -/
def Env.Within (p : Term → Prop) : Env → List Instruction → Prop
  | .root, code => ∀ i ∈ code, i.Plain
  | .frame _ _ vars caller back _, code =>
    (∀ (i : Nat) (t : Term), vars[i]?.join = some t → p t) ∧ (∀ i ∈ code, i.Plain) ∧
      caller.Within p back

/-- The terms that goals are made of have `p`, and stored triples are ground. -/
def Alternatives.Within (p : Term → Prop) : Alternatives → Prop
  | .clauses _ args _ => ∀ j < 3, ∀ t, args[j]? = some t → p t
  | .facts goal rest | .answers goal rest =>
    (∀ t ∈ goal.terms, p t) ∧ ∀ fact ∈ rest, fact.isGround = true
  | .results _ goal => ∀ t ∈ goal.terms, p t

/-- All variables of the choice point were there when it was made. -/
structure Choice.Contained (own : Triple) (c : Choice) : Prop where
  bindings : c.bindings.Sane
  goal : ∀ t ∈ own.terms, c.bindings.Knows t
  env : c.env.Within c.bindings.Knows c.code
  alternatives : c.alternatives.Within c.bindings.Knows

/-- All variables are there of whatever the machine may look at in what it is about to do, and of
its own goal. -/
structure Machine.Confined (own : Triple) (control : Control) (m : Machine) : Prop where
  bindings : m.bindings.Sane
  standard : m.standard = own
  goal : ∀ t ∈ own.terms, m.bindings.Knows t
  control : ∀ {env : Env} {code : List Instruction}, control = .run env code →
    env.Within m.bindings.Knows code ∧ env.Runs m.bindings.Knows m code

/-- So it is for all choice points, and results of tables have no variables. -/
structure Moment.Contained (own : Triple) (x : Moment) : Prop where
  confined : x.machine.Confined own x.control
  choice : ∀ {c : Choice}, x.machine.Has c → c.Contained own
  tables : x.session.Clear

theorem Env.Within.mono (h : env.Within p code) (hpq : ∀ t, p t → q t) : env.Within q code := by
  induction env generalizing code with
  | root => exact h
  | frame i cl vars caller back commit ih =>
    exact ⟨fun i t ht => hpq t (h.1 i t ht), h.2.1, ih h.2.2⟩

theorem Env.Within.plain (h : env.Within p code) : ∀ i ∈ code, i.Plain := by
  cases env with
  | root => exact h
  | frame => exact h.2.1

/-- The rest of the code. -/
theorem Env.Within.tail {i : Instruction} (h : env.Within p (i :: code)) : env.Within p code := by
  cases env with
  | root => exact (List.forall_mem_cons.1 h).2
  | frame => exact ⟨h.1, (List.forall_mem_cons.1 h.2.1).2, h.2.2⟩

theorem Env.Within.slot (h : env.Within p code) (i : Nat) (t : Term)
    (ht : env.vars[i]?.join = some t) : p t := by
  cases env with
  | root => cases ht
  | frame => exact h.1 i t ht

theorem Alternatives.Leaves.within {a' : Alternatives} (hleft : a.Leaves a') (h : a.Within p) :
    a'.Within p := by
  cases hleft with
  | same => exact h
  | clause => exact h
  | fact | answer => exact ⟨h.1, (List.forall_mem_cons.1 h.2).2⟩

theorem Choice.Contained.left (h : c.Contained own) (hsame : c.Same c')
    (hleft : c.alternatives.Leaves c'.alternatives) : c'.Contained own := by
  have hb : c'.bindings = c.bindings := by rw [show c' = _ from hsame]
  have henv : c'.env = c.env := by rw [show c' = _ from hsame]
  have hcode : c'.code = c.code := by rw [show c' = _ from hsame]
  refine ⟨hb ▸ h.bindings, hb ▸ h.goal, ?_, ?_⟩
  · rw [hb, henv, hcode]
    exact h.env
  · rw [hb]
    exact hleft.within h.alternatives

/-- What is offered for a goal that is known is known, too. -/
theorem Choice.Offers.knows (h : c.Offers s goal t a s') (hc : c.Contained own) (hs : s.Clear) :
    (∀ u ∈ goal.terms, c.bindings.Knows u) ∧ ∀ u ∈ t.terms, ∀ b : Bindings, b.Knows u := by
  have halt := hc.alternatives
  cases h with
  | fact e | answer e =>
    rw [e] at halt
    refine ⟨halt.1, fun u hu b => .of_isGround ?_⟩
    exact Triple.isGround_iff.1 (halt.2 _ List.mem_cons_self) u hu
  | result e hread =>
    rw [e] at halt
    exact ⟨halt, fun u hu b => (hs.read hread u hu).knows b⟩

/-! ## What is looked at -/

/-- The registers that an operation reads have values that are held. -/
theorem Env.Runs.reads {op : Operation} (h : env.Runs p m (.operation op :: code)) :
    ∀ y ∈ op.reads, ∀ t, (m.registers env).value? y = some t → p t := by
  cases env with
  | root => cases h
  | frame i cl vars caller back commit =>
    obtain ⟨-, K, hgrants, hsuff⟩ := h
    exact fun y hy t ht => hgrants.value y (hsuff.1.reads y hy) t ht

theorem Env.Runs.args {k : Call} (h : env.Runs p m (.call k :: code)) :
    ∀ j < 3, ∀ t, m.args[j]? = some t → p t := by
  cases env with
  | root => cases h
  | frame i cl vars caller back commit =>
    obtain ⟨-, K, hgrants, hsuff⟩ := h
    exact fun j hj t ht => hgrants.value (.arg j) (hsuff.1 j hj) t ht

theorem Env.Runs.takes {f : Builtin} {arity : Nat}
    (h : env.Runs p m (.builtin f arity :: code)) : ∀ t ∈ m.args.take arity, p t := by
  cases env with
  | root => cases h
  | frame i cl vars caller back commit =>
    obtain ⟨-, K, hgrants, hsuff⟩ := h
    intro t ht
    obtain ⟨j, hj, rfl⟩ := List.mem_take_iff_getElem.1 ht
    have hlt : j < arity ∧ j < m.args.length := Nat.lt_min.1 hj
    exact hgrants.value (.arg j) (hsuff.1 j hlt.1) _ (List.getElem?_eq_getElem hlt.2)

theorem Machine.called_terms (hany : p .any) (h : ∀ j < 3, ∀ t, m.args[j]? = some t → p t) :
    ∀ t ∈ m.called.terms, p t := by
  have one : ∀ j < 3, p (m.args[j]?.getD .any) := by
    intro j hj
    cases ht : m.args[j]? with
    | none => exact hany
    | some t => exact h j hj t ht
  simp only [Triple.terms, List.forall_mem_cons]
  exact ⟨one 0 (by decide), one 1 (by decide), one 2 (by decide), by simp⟩

theorem Bindings.knows_any (b : Bindings) : b.Knows .any :=
  Term.has_any.2 ⟨trivial, fun _ e => nomatch e⟩

/-- The goal of a new machine is in its arguments. -/
theorem Machine.blank_args {owner : Owner} (h : Machine.blank w goal owner = .ok m) :
    m.bindings.Sane ∧ (∀ t ∈ goal.standard.terms, m.bindings.Knows t) ∧
      ∀ j < 3, ∀ t, m.args[j]? = some t → m.bindings.Knows t := by
  obtain ⟨-, hb, -, -, hargs, -⟩ := @blank_eq w.program w.settings _ _ _ h
  have hknows : ∀ t ∈ goal.standard.terms, m.bindings.Knows t := by
    intro t ht
    rw [hb]
    exact Term.Has.mono (fun _ hx => ⟨trivial, hx.2⟩) (goal.standard_scoped t ht)
  refine ⟨hb ▸ .empty _ _, hknows, fun j hj t ht => hknows t ?_⟩
  rw [hargs, List.getElem?_append_left (by simpa [Triple.terms] using hj)] at ht
  exact List.mem_of_getElem? ht

theorem Machine.standard_called {cls : List Clause} {ground : Bool} :
    ((m.pushedClauses env code cls ground).pushed env code a).standard = m.standard := by
  unfold Machine.pushedClauses
  split <;> rfl

theorem Machine.SetUp.standard (h : m.SetUp n m') : m'.standard = m.standard := by
  obtain ⟨cls, ground, a, rfl, -⟩ := h
  exact Machine.standard_called

/-- A machine that goes back looks at its bindings only. -/
theorem Machine.Confined.back (h : m.Confined own control) (hb : m'.bindings = m.bindings)
    (hs : m'.standard = m.standard) : m'.Confined own .backtrack :=
  ⟨hb ▸ h.bindings, hs.trans h.standard, hb ▸ h.goal, fun e => nomatch e⟩

/-- The bindings under which a choice point is tried again. -/
theorem Choice.Contained.popped (h : c.Contained own) (m : Machine) (rest : List Choice) :
    (m.popped c rest).bindings.Sane ∧
      ∀ t, c.bindings.Knows t → (m.popped c rest).bindings.Knows t :=
  ⟨h.bindings.grow _, fun _ ht => ht.mono (Nat.le_max_left _ _)⟩

theorem Choice.Contained.confined (h : c.Contained own) (hm : m.standard = own)
    (rest : List Choice) : (m.popped c rest).Confined own .backtrack := by
  obtain ⟨h1, h2⟩ := h.popped m rest
  exact ⟨h1, hm, fun t ht => h2 t (h.goal t ht), fun e => nomatch e⟩

/-! ## Whatever happens -/

/-- A world with the rules of the program, and with ground triples. -/
def Program.Grounds (P : Program) (w : World) : Prop :=
  P.Governs w ∧ ∀ t, w.program.Stored t → t.isGround = true

/-- The choice point of a call holds the goal that is called, or that of the machine itself. -/
theorem Machine.Makes.contained (hmakes : m.Makes w env code c) (hw : P.Grounds w)
    (hm : m.Confined own control) (henv : env.Within m.bindings.Knows code)
    (hargs : ∀ j < 3, ∀ t, m.args[j]? = some t → m.bindings.Knows t) : c.Contained own := by
  have hcalled := Machine.called_terms m.bindings.knows_any hargs
  have hfacts : ∀ pattern, ∀ fact ∈ w.program.find pattern, fact.isGround = true :=
    fun pattern fact hfact => hw.2 fact ⟨pattern, hfact⟩
  refine ⟨hmakes.bindings ▸ hm.bindings, hmakes.bindings ▸ hm.goal, ?_, ?_⟩
  · rw [hmakes.bindings, hmakes.env, hmakes.code]
    exact henv
  · have htries := hmakes.alternatives
    rw [hmakes.bindings]
    generalize c.alternatives = a at htries
    cases htries with
    | clauses => exact hargs
    | facts pattern => exact ⟨hcalled, hfacts pattern⟩
    | answers pattern => exact ⟨hm.standard ▸ hm.goal, hfacts pattern⟩
    | results => exact hcalled

/-- An operation leaves nothing in registers and slots that is not there. -/
theorem Machine.Confined.operation {op : Operation} {g : Registers}
    (hm : m.Confined own (.run env (.operation op :: code)))
    (hop : op.run env.name n (m.registers env) = some (.ok (some g))) :
    (m.load g).Confined own (.run (env.setVars g.vars) code) := by
  obtain ⟨hwithin, hruns⟩ := hm.control rfl
  have hplain : op.Plain := hwithin.plain _ List.mem_cons_self
  obtain ⟨hsane, hle, hsets⟩ := Operation.knows_run hm.bindings hplain hruns.reads hop
  have more : ∀ t, m.bindings.Knows t → (m.load g).bindings.Knows t := fun t ht => ht.mono hle
  refine ⟨hsane, hm.standard, fun t ht => more t (hm.goal t ht), fun e => ?_⟩
  cases e
  refine ⟨?_, hruns.operation hop hsets more⟩
  cases env with
  | root => cases hruns
  | frame i cl vars caller back commit =>
    refine ⟨fun j t ht => ?_, hwithin.tail.plain, hwithin.2.2.mono more⟩
    by_cases hj : .slot j ∈ op.sets
    · exact hsets _ hj t ht
    · have hsame := (Operation.value?_run hop).2 _ hj
      exact more t (hwithin.1 j t (hsame.symm.trans ht))

theorem Machine.Confined.builtin {f : Builtin} {arity : Nat} {store : Store} {rule : Option Rule}
    (hm : m.Confined own (.run env (.builtin f arity :: code)))
    (hrun : f.run n store rule m.bindings (m.args.take arity) = some (.ok (some b))) :
    ({ m with bindings := b } : Machine).Confined own (.run env code) := by
  obtain ⟨hwithin, hruns⟩ := hm.control rfl
  obtain ⟨name, hf⟩ := hwithin.plain _ List.mem_cons_self
  obtain ⟨hsane, hsize⟩ := Builtin.sane_run hf hm.bindings hruns.takes hrun
  have more : ∀ t, m.bindings.Knows t → b.Knows t := fun t ht => ht.mono (Nat.le_of_eq hsize.symm)
  refine ⟨hsane, hm.standard, fun t ht => more t (hm.goal t ht), fun e => ?_⟩
  cases e
  exact ⟨hwithin.tail.mono more, hruns.builtin more⟩

/-- After a step the machine still holds what it may look at. -/
theorem Machine.Acts.confined (hP : P.Compiled) (hstd : P.registry = Builtin.standard)
    (hacts : m.Acts w.program st n s control control' m' s')
    (hx : Moment.Contained own ⟨control, m, s⟩) (hr : Moment.Ready P ⟨control, m, s⟩) :
    m'.Confined own control' := by
  have hm := hx.confined
  -- the choice point that is gone back to
  have top : ∀ {c : Choice} {rest : List Choice}, m.stack = c :: rest →
      c.Contained own ∧ c.Ready P := fun hstack =>
    ⟨hx.choice (.inl (hstack ▸ List.mem_cons_self)), hr.choice (.inl (hstack ▸ List.mem_cons_self))⟩
  cases hacts with
  | operation hop => exact hm.operation hop
  | operationFails | builtinFails | answer | empty => exact hm.back rfl rfl
  | builtin hrun => exact hm.builtin hrun
  | call hcalls =>
    cases hcalls with
    | search => exact hm.back Machine.bindings_called Machine.standard_called
    | table => exact hm.back rfl rfl
  | @leave i cl vars caller back code commit =>
    obtain ⟨hwithin, hruns⟩ := hm.control rfl
    have hcaller : m.Confined own (.run caller back) := by
      refine ⟨hm.bindings, hm.standard, hm.goal, fun e => ?_⟩
      cases e
      exact ⟨hwithin.2.2, hruns.returns.runs hwithin.2.2.slot⟩
    cases commit with
    | none => exact hcaller
    | some id =>
      refine ⟨hcaller.bindings, hcaller.standard, hcaller.goal, fun e => ?_⟩
      cases e
      exact ⟨hwithin.2.2, hruns.returns.runs hwithin.2.2.slot⟩
  | spent hstack | exhausted hstack => exact (top hstack).1.confined hm.standard _
  | @park c rest _ _ _ _ hstack | @stay c rest _ _ _ _ _ hstack =>
    exact ((top hstack).1.confined hm.standard rest).back rfl rfl
  | @enter c rest cl cls args ground _ hstack halt =>
    obtain ⟨hc, hready⟩ := top hstack
    obtain ⟨hsane, more⟩ := hc.popped m rest
    have hargs := hc.alternatives
    rw [halt] at hargs
    have hcl := hready.clauses halt cl List.mem_cons_self
    have hplain : ∀ i ∈ cl.code, i.Plain := by
      rw [(hP cl hcl).2.1, hstd]
      exact Rule.plain_code (headFault_of_mem hP hcl) _
    refine ⟨hsane, hm.standard, fun t ht => more t (hc.goal t ht), fun e => ?_⟩
    cases e
    refine ⟨⟨fun j t ht => ?_, hplain, hc.env.mono more⟩, Env.runs_entered hP hcl hready.env
      fun j hj t ht => more t (hargs j hj t ht)⟩
    rw [List.getElem?_replicate] at ht
    split at ht <;> cases ht
  | @resume c rest goal t a b s1 _ hstack hoffers _ hu =>
    obtain ⟨hc, hready⟩ := top hstack
    obtain ⟨hsane, more⟩ := hc.popped m rest
    obtain ⟨hgoal, ht⟩ := hoffers.knows hc hx.tables
    obtain ⟨hb, hsize⟩ := sane_realm.unifyTriple hsane (fun u hu => more u (hgoal u hu))
      (fun u hu => ht u hu _) hu
    have more' : ∀ u, c.bindings.Knows u → b.Knows u :=
      fun u hu => (more u hu).mono (Nat.le_of_eq hsize.symm)
    refine ⟨hb, hm.standard, fun u hu => more' u (hc.goal u hu), fun e => ?_⟩
    cases e
    exact ⟨hc.env.mono more', hready.env.runs (hc.env.mono more').slot⟩

/-- Whatever happens, the machine holds what it may look at. -/
theorem Moment.Passes.contained (hP : P.Compiled) (hstd : P.registry = Builtin.standard)
    (h' : x.Passes P.Grounds Session.Clear h x') (hx : x.Contained own) (hr : x.Ready P) :
    x'.Contained own := by
  refine ⟨?_, fun {c} hc => ?_, h'.clear hx.tables⟩
  · have hm := hx.confined
    cases h' with
    | setUp hw h0 hset =>
      have hup := Machine.setUp_start h0 hset 0
      exact hm.back hup.bindings hup.standard
    | setUpQuery hw h0 hset =>
      obtain ⟨-, hup⟩ := Machine.setUp_startQuery h0 hset
      exact hm.back hup.bindings hup.standard
    | @step w n control control' m m' s s' p hw hstep hp =>
      have hacts : m.Acts w.program w.settings n s control control' m' s' := acts_of_step hstep hp
      exact hacts.confined hP hstd hx hr
    | @restore d m m' s s' hrestore =>
      obtain ⟨c, -, hc, -, rfl⟩ := restore_eq hrestore
      have hcontained := hx.choice (.inr ⟨d, hc⟩)
      exact ⟨hcontained.bindings.grow _, hm.standard,
        fun t ht => (hcontained.goal t ht).mono (Nat.le_max_left _ _), fun e => nomatch e⟩
    | others => exact hm
  · rcases h'.has hc with ⟨y, hy, hsame, hleft⟩ | ⟨w, env, code, hw, hcalling, hmakes, -⟩
    · exact (hx.choice hy).left hsame hleft
    · cases hcalling with
      | goal =>
        obtain ⟨hwithin, hruns⟩ := hx.confined.control rfl
        exact hmakes.contained hw hx.confined hwithin.tail hruns.args
      | own _ hblank =>
        obtain ⟨-, -, hargs⟩ := Machine.blank_args hblank
        refine hmakes.contained hw hx.confined ?_ hargs
        exact List.forall_mem_singleton.2 trivial

theorem Moment.Fresh.contained (h : x.Fresh W) (hs : x.session.Clear) :
    x.Contained x.machine.standard := by
  cases h with
  | @blank w goal owner m s hw hm =>
    obtain ⟨-, -, -, -, hno⟩ := @blank_regular 0 m goal w.program w.settings owner hm
    obtain ⟨hsane, hgoal, -⟩ := Machine.blank_args hm
    refine ⟨⟨hsane, rfl, ?_, fun e => nomatch e⟩, fun hc => absurd hc (hno _), hs⟩
    rw [show Moment.machine _ = m from rfl, (Machine.called_blank hm).2]
    exact hgoal

end

end TabledRules
