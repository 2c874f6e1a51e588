-- The life of a machine under fixed rules. Whenever it runs code, the registers
-- that the code needs are set, and so are the slots wherever it may go on later:
-- in a caller, or at a choice point.
import TabledRules.Proofs.RegisterRuns
import TabledRules.Proofs.Regularity
import TabledRules.Proofs.SingleSteps

namespace TabledRules

open Register

/-! ## Lives -/

/-- What happens to a machine. -/
inductive Happening where
  | setUp
  | step (n : Nat)
  | restore (consumer : Nat)
  | others

/-- Something happens to a machine that does not fail, in worlds of the kind `W`. The tables are
changed by others to ones of the kind `ok`. -/
inductive Moment.Passes (W : World → Prop) (ok : Session → Prop) :
    Happening → Moment → Moment → Prop
  | setUp {w : World} {goal : Triple} {owner : Owner} {m0 m : Machine} {s : Session} : W w →
    Machine.blank w goal owner = .ok m0 → Machine.start w goal owner = .ok m →
    Passes W ok .setUp ⟨.backtrack, m0, s⟩ ⟨.backtrack, m, s⟩
  | setUpQuery {w : World} {goal : Triple} {q : Nat} {m0 m : Machine} {s s' : Session} : W w →
    Machine.blank w goal (.query q) = .ok m0 → Machine.startQuery w goal q s = (.ok m, s') →
    Passes W ok .setUp ⟨.backtrack, m0, s⟩ ⟨.backtrack, m, s'⟩
  | step {w : World} {n : Nat} {control control' : Control} {m m' : Machine} {s s' : Session}
    {p : Progress} : W w → m.step w n control s = (p, m', s') → p.next? = some control' →
    Passes W ok (.step n) ⟨control, m, s⟩ ⟨control', m', s'⟩
  | restore {d : Nat} {m m' : Machine} {s s' : Session} : m.restore d s = (.ok (), m', s') →
    Passes W ok (.restore d) ⟨.backtrack, m, s⟩ ⟨.backtrack, m', s'⟩
  | others {m : Machine} {s s' : Session} : s.nextId ≤ s'.nextId → ok s' →
    Passes W ok .others ⟨.backtrack, m, s⟩ ⟨.backtrack, m, s'⟩

/-- A machine for a goal, before it is set up. -/
inductive Moment.Fresh (W : World → Prop) : Moment → Prop
  | blank {w : World} {goal : Triple} {owner : Owner} {m : Machine} (s : Session) : W w →
    Machine.blank w goal owner = .ok m → Fresh W ⟨.backtrack, m, s⟩

/-- A world with the rules of the program. -/
def Program.Governs (P : Program) (w : World) : Prop := w.rules = P.rules

/-- The world as a program. -/
def World.program (w : World) : Program := ⟨{}, w.rules, w.store⟩

/-! ## Choice points -/

/-- What is left of the alternatives, at most one of which was tried. -/
inductive Alternatives.Leaves : Alternatives → Alternatives → Prop
  | same (a : Alternatives) : Leaves a a
  | clause {cl : Clause} {cls : List Clause} {args : List Term} {ground : Bool} :
    Leaves (.clauses (cl :: cls) args ground) (.clauses cls args ground)
  | fact {goal fact : Triple} {facts : List Triple} :
    Leaves (.facts goal (fact :: facts)) (.facts goal facts)
  | answer {goal fact : Triple} {facts : List Triple} :
    Leaves (.answers goal (fact :: facts)) (.answers goal facts)

/-- The choice point is the same one, maybe with other alternatives. -/
def Choice.Same (c c' : Choice) : Prop := c' = { c with alternatives := c'.alternatives }

/-- What is tried for the goal in the registers, or for that of the machine itself. -/
inductive Machine.Tries (w : World) (m : Machine) : Alternatives → Prop
  | clauses {cls : List Clause} {ground : Bool} : (∀ cl ∈ cls, cl ∈ w.rules.clauses.toList) →
    Tries w m (.clauses cls m.args ground)
  | facts (pattern : Triple) : Tries w m (.facts m.called (w.program.find pattern))
  | answers (pattern : Triple) : Tries w m (.answers m.standard (w.program.find pattern))
  | results (d : Nat) : Tries w m (.results d m.called)

/-- The machine makes the choice point when it calls a goal. -/
structure Machine.Makes (w : World) (m : Machine) (env : Env) (code : List Instruction)
    (c : Choice) : Prop where
  id : m.choices ≤ c.id
  env : c.env = env
  code : c.code = code
  envs : c.envs = m.envs
  bindings : c.bindings = m.bindings
  alternatives : m.Tries w c.alternatives

/-- The machine was set up: it has choice points for its own goal as well. A consumer of its own
goal is a new one. -/
def Machine.SetUp (m : Machine) (new : Nat) (m' : Machine) : Prop :=
  ∃ (cls : List Clause) (ground : Bool) (a : Alternatives),
    m' = (m.pushedClauses .root [.proceed] cls ground).pushed .root [.proceed] a ∧
    ∀ d goal, a = .results d goal → new ≤ d

/-- The machine is about to call a goal, and to go on with the code after it. -/
inductive Moment.Calling (W : World → Prop) : Moment → Env → List Instruction → Prop
  | goal {env : Env} {k : Call} {code : List Instruction} {m : Machine} {s : Session} :
    Calling W ⟨.run env (.call k :: code), m, s⟩ env code
  /-- The goal is its own. -/
  | own {w : World} {goal : Triple} {owner : Owner} {m : Machine} {s : Session} : W w →
    Machine.blank w goal owner = .ok m → Calling W ⟨.backtrack, m, s⟩ .root [.proceed]

section

variable {P : Program} {st : Settings} {W : World → Prop} {ok : Session → Prop} {w : World}
  {h : Happening} {x x' : Moment} {m m' : Machine} {s s' : Session} {c c' : Choice}
  {env caller : Env} {code back : List Instruction} {n : Nat} {control control' : Control}
  {a : Alternatives} {goal : Triple} {owner : Owner} {p q : Term → Prop} {K : Set Register}

theorem Choice.Same.refl (c : Choice) : c.Same c := rfl

theorem Choice.Same.trans {c'' : Choice} (h : c.Same c') (h' : c'.Same c'') : c.Same c'' := by
  unfold Same at h h' ⊢
  refine h'.trans ?_
  rw [h]

theorem Machine.makes_choice (ha : m.Tries w a) : m.Makes w env code (m.choice env code a) :=
  ⟨Nat.le_refl _, rfl, rfl, rfl, rfl, ha⟩

/-- The choice points of a call are new ones or were there before. -/
theorem Machine.has_called {cls : List Clause} {ground : Bool}
    (hcls : ∀ cl ∈ cls, cl ∈ w.rules.clauses.toList) (ha : m.Tries w a)
    (h : ((m.pushedClauses env code cls ground).pushed env code a).Has c) :
    m.Has c ∨ m.Makes w env code c ∧
      c ∈ ((m.pushedClauses env code cls ground).pushed env code a).stack := by
  have hstack : ∀ y, y ∈ (m.pushedClauses env code cls ground).stack →
      y ∈ ((m.pushedClauses env code cls ground).pushed env code a).stack :=
    fun y hy => List.mem_cons_of_mem _ hy
  rcases Machine.has_pushed h with rfl | h
  · refine .inr ⟨⟨?_, rfl, rfl, ?_, ?_, ha⟩, List.mem_cons_self⟩
    all_goals
      simp only [Machine.choice, Machine.pushedClauses]
      split
    · exact Nat.le_refl _
    · exact Nat.le_succ _
    all_goals rfl
  · unfold Machine.pushedClauses at h hstack
    split at h
    · exact .inl h
    · next hne =>
      rcases Machine.has_pushed h with rfl | h
      · rw [if_neg hne] at hstack
        have hmem := hstack (m.choice env code (.clauses cls m.args ground)) List.mem_cons_self
        refine .inr ⟨m.makes_choice (.clauses hcls), ?_⟩
        unfold Machine.pushedClauses
        rw [if_neg hne]
        exact hmem
      · exact .inl h

theorem Machine.bindings_called {cls : List Clause} {ground : Bool} :
    ((m.pushedClauses env code cls ground).pushed env code a).bindings = m.bindings := by
  unfold Machine.pushedClauses
  split <;> rfl

theorem Machine.suspended_called {cls : List Clause} {ground : Bool} :
    ((m.pushedClauses env code cls ground).pushed env code a).suspended = m.suspended := by
  unfold Machine.pushedClauses
  split <;> rfl

theorem Choice.Offers.leaves {goal t : Triple} (h : c.Offers s goal t a s') :
    c.alternatives.Leaves a := by
  cases h with
  | fact h => rw [h]; exact .fact
  | answer h => rw [h]; exact .answer
  | result h => rw [h]; exact .same _

/-- A choice point that is kept has fewer alternatives. -/
theorem Machine.has_kept {rest : List Choice} (hstack : m.stack = c :: rest)
    (ha : c.alternatives.Leaves a) (h : ((m.popped c rest).keep c a).Has c') :
    ∃ y, m.Has y ∧ y.Same c' ∧ y.alternatives.Leaves c'.alternatives := by
  rcases Machine.has_keep hstack h with rfl | h
  · exact ⟨c, .inl (hstack ▸ List.mem_cons_self), rfl, ha⟩
  · exact ⟨c', h, .refl _, .same _⟩

/-- After a step every choice point is an old one, or it was made for a call. -/
theorem Machine.Acts.has (h : m.Acts w.program st n s control control' m' s') (hc : m'.Has c) :
    (∃ y, m.Has y ∧ y.Same c ∧ y.alternatives.Leaves c.alternatives) ∨
    ∃ env k code, control = .run env (.call k :: code) ∧ m.Makes w env code c ∧ c ∈ m'.stack ∧
      m'.bindings = m.bindings := by
  have old : ∀ {y}, m.Has y → ∃ y', m.Has y' ∧ y'.Same y ∧ y'.alternatives.Leaves y.alternatives :=
    fun hy => ⟨_, hy, .refl _, .same _⟩
  cases h with
  | operation | builtin => exact .inl (old hc)
  | operationFails | builtinFails | answer | empty => exact .inl (old hc)
  | @leave _ _ _ _ _ _ commit => cases commit <;> exact .inl (old hc)
  | call hcalls =>
    cases hcalls with
    | search _ _ hv =>
      rcases Machine.has_called (w := w) (fun cl hcl => mem_clauses_of_call hcl)
        (Machine.Tries.facts _) hc with hc | ⟨h1, h2⟩
      · exact .inl (old hc)
      · exact .inr ⟨_, _, _, rfl, h1, h2, Machine.bindings_called⟩
    | table =>
      rcases Machine.has_pushed hc with rfl | hc
      · exact .inr ⟨_, _, _, rfl, Machine.makes_choice (.results _), List.mem_cons_self, rfl⟩
      · exact .inl (old hc)
  | spent hstack => exact .inl (old (hc.popped hstack))
  | exhausted hstack => exact .inl (old (hc.popped hstack))
  | park hstack => exact .inl (old (Machine.has_parked hstack rfl hc))
  | stay hstack hoffers => exact .inl (Machine.has_kept hstack hoffers.leaves hc)
  | resume hstack hoffers => exact .inl (Machine.has_kept hstack hoffers.leaves hc)
  | @enter _ _ _ cls args ground _ hstack halt =>
    refine .inl (Machine.has_kept (a := .clauses cls args ground) hstack ?_ hc)
    rw [halt]
    exact .clause

theorem Machine.called_blank (h : Machine.blank w goal owner = .ok m) :
    m.called = goal.standard ∧ m.standard = goal.standard := by
  obtain ⟨hstd, -, -, -, hargs, -⟩ := @blank_eq w.program w.settings _ _ _ h
  refine ⟨?_, hstd⟩
  unfold Machine.called
  rw [hargs]
  rfl

theorem Machine.start_of_blank (h0 : Machine.blank w goal owner = .ok m)
    (h : Machine.start w goal owner = .ok m') :
    m' = (m.pushedClauses .root [.proceed] (w.program.rules.codeFor goal.standard)
      goal.isGround).pushed .root [.proceed]
        (.answers goal.standard (w.program.find goal.standard.lookupKey)) := by
  obtain ⟨m1, h1, rfl⟩ := @start_eq w.program w.settings _ _ _ h
  obtain rfl : m1 = m := Except.ok.inj (h1.symm.trans h0)
  rfl

theorem Machine.startQuery_of_blank {q : Nat} (h0 : Machine.blank w goal (.query q) = .ok m)
    (h : Machine.startQuery w goal q s = (.ok m', s')) :
    Machine.start w goal (.query q) = .ok m' ∧ s' = s ∨
    ∃ d, s.nextId ≤ d ∧ d < s'.nextId ∧
      m' = m.pushed .root [.proceed] (.results d goal.standard) := by
  rcases @startQuery_ok w.program w.settings _ _ _ _ _ h with
    ⟨-, hstart, rfl⟩ | ⟨-, m1, g, s1, h1, hg, rfl, rfl⟩
  · exact .inl ⟨hstart, rfl⟩
  · obtain rfl : m1 = m := Except.ok.inj (Eq.trans (Eq.symm h1) h0)
    have hle := nextId_generatorFor w goal.standard s
    rw [show s.generatorFor w goal.standard = _ from hg] at hle
    exact .inr ⟨s1.nextId, hle, Nat.lt_succ_self _, rfl⟩

theorem Machine.setUp_start (h0 : Machine.blank w goal owner = .ok m)
    (h : Machine.start w goal owner = .ok m') (new : Nat) : m.SetUp new m' :=
  ⟨_, _, _, Machine.start_of_blank h0 h, fun _ _ e => nomatch e⟩

theorem Machine.setUp_startQuery {q : Nat} (h0 : Machine.blank w goal (.query q) = .ok m)
    (h : Machine.startQuery w goal q s = (.ok m', s')) :
    s.nextId ≤ s'.nextId ∧ m.SetUp s.nextId m' := by
  rcases Machine.startQuery_of_blank h0 h with ⟨hstart, rfl⟩ | ⟨d, hle, hlt, rfl⟩
  · exact ⟨Nat.le_refl _, Machine.setUp_start h0 hstart _⟩
  · refine ⟨Nat.le_of_lt (Nat.lt_of_le_of_lt hle hlt), [], false, _, rfl, fun k goal' e => ?_⟩
    cases e
    exact hle

namespace Machine.SetUp

theorem bindings (h : m.SetUp n m') : m'.bindings = m.bindings := by
  obtain ⟨cls, ground, a, rfl, -⟩ := h
  exact Machine.bindings_called

theorem suspended (h : m.SetUp n m') : m'.suspended = m.suspended := by
  obtain ⟨cls, ground, a, rfl, -⟩ := h
  exact Machine.suspended_called

theorem has (h : m.SetUp n m') (hc : m'.Has c) :
    m.Has c ∨ c.env = .root ∧ ∀ d, c.Consumes d → n ≤ d := by
  obtain ⟨cls, ground, a, rfl, ha⟩ := h
  rcases Machine.has_pushed hc with rfl | hc
  · exact .inr ⟨rfl, fun d ⟨goal, hd⟩ => ha d goal hd⟩
  · rcases Machine.has_pushedClauses hc with rfl | hc
    · exact .inr ⟨rfl, fun d ⟨goal, hd⟩ => nomatch hd⟩
    · exact .inl hc

end Machine.SetUp

/-- Whatever happens, every choice point is an old one, or it is made for a call, which leaves
the bindings as they are. -/
theorem Moment.Passes.has (hx : x.Passes W ok h x') (hc : x'.machine.Has c) :
    (∃ y, x.machine.Has y ∧ y.Same c ∧ y.alternatives.Leaves c.alternatives) ∨
    ∃ w env code, W w ∧ x.Calling W env code ∧ x.machine.Makes w env code c ∧
      c ∈ x'.machine.stack ∧ x'.machine.bindings = x.machine.bindings := by
  have start : ∀ {w : World} {goal : Triple} {owner : Owner} {m0 m : Machine} {s : Session}, W w →
      Machine.blank w goal owner = .ok m0 → Machine.start w goal owner = .ok m → m.Has c →
      (∃ y, m0.Has y ∧ y.Same c ∧ y.alternatives.Leaves c.alternatives) ∨
      ∃ w env code, W w ∧ Moment.Calling W ⟨.backtrack, m0, s⟩ env code ∧ m0.Makes w env code c ∧
        c ∈ m.stack ∧ m.bindings = m0.bindings := by
    intro w goal owner m0 m s hw h0 hm hc
    obtain rfl := Machine.start_of_blank h0 hm
    have htries : m0.Tries w (.answers goal.standard
        (w.program.find goal.standard.lookupKey)) := by
      rw [← (Machine.called_blank h0).2]
      exact .answers _
    rcases Machine.has_called (w := w)
      (fun cl hcl => @mem_clauses_of_codeFor w.program _ _ hcl) htries hc with hc | ⟨h2, h3⟩
    · exact .inl ⟨c, hc, .refl _, .same _⟩
    · exact .inr ⟨w, _, _, hw, .own hw h0, h2, h3, Machine.bindings_called⟩
  cases hx with
  | setUp hw h0 hm => exact start hw h0 hm hc
  | @setUpQuery w goal q m0 m s s' hw h0 hm =>
    rcases Machine.startQuery_of_blank h0 hm with ⟨hstart, rfl⟩ | ⟨d, -, -, rfl⟩
    · exact start hw h0 hstart hc
    · rcases Machine.has_pushed hc with rfl | hc
      · refine .inr ⟨w, _, _, hw, .own hw h0, Machine.makes_choice ?_, List.mem_cons_self, rfl⟩
        rw [← (Machine.called_blank h0).1]
        exact .results _
      · exact .inl ⟨c, hc, .refl _, .same _⟩
  | @step w _ _ _ _ _ _ _ _ hw hstep hp =>
    rcases (@acts_of_step w.program w.settings _ _ _ _ _ _ _ _ hstep hp).has hc with
      hold | ⟨env, k, code, hcontrol, hmakes, hmem, hb⟩
    · exact .inl hold
    · subst hcontrol
      exact .inr ⟨w, env, code, hw, .goal, hmakes, hmem, hb⟩
  | restore hrestore =>
    obtain ⟨y, -, hy, -, rfl⟩ := restore_eq hrestore
    exact .inl ⟨c, Machine.has_restored hy hc, .refl _, .same _⟩
  | others => exact .inl ⟨c, hc, .refl _, .same _⟩

/-! ## Environments that code can run in -/

/-- The slots that are set. -/
def Register.assigned (vars : List (Option Term)) : Set Register :=
  {x | ∃ (i : Nat) (t : Term), x = .slot i ∧ vars[i]?.join = some t}

@[simp] theorem Register.slot_mem_assigned {vars : List (Option Term)} {i : Nat} :
    .slot i ∈ assigned vars ↔ (vars[i]?.join).isSome = true := by
  refine ⟨fun ⟨j, t, e, ht⟩ => ?_, fun h => ?_⟩
  · cases e
    rw [ht]
    rfl
  · obtain ⟨t, ht⟩ := Option.isSome_iff_exists.1 h
    exact ⟨i, t, rfl, ht⟩

/-- The code can go on in the environment with the slots that are set, and then in the
callers. -/
def Env.Ready : Env → List Instruction → Prop
  | .root, code => code = [.proceed]
  | .frame _ _ vars caller back _, code => Suffice (assigned vars) code ∧ caller.Ready back

/-- The slots that are set are those in `K`, and all values of registers in `K` have `p`. -/
structure Registers.Grants (g : Registers) (p : Term → Prop) (K : Set Register) : Prop where
  slot : ∀ i, .slot i ∈ K ↔ (g.value? (.slot i)).isSome = true
  value : ∀ x ∈ K, ∀ t, g.value? x = some t → p t

/-- The machine can run the code in the environment. The values of the registers that it may
read have `p`. -/
def Env.Runs (p : Term → Prop) (m : Machine) : Env → List Instruction → Prop
  | .root, code => code = [.proceed]
  | .frame i cl vars caller back commit, code => caller.Ready back ∧
    ∃ K, (m.registers (.frame i cl vars caller back commit)).Grants p K ∧ Suffice K code

theorem Env.Ready.runs (h : env.Ready code) (hp : ∀ (i : Nat) (t : Term), env.vars[i]?.join = some t → p t) :
    env.Runs p m code := by
  cases env with
  | root => exact h
  | frame i cl vars caller back commit =>
    refine ⟨h.2, assigned vars, ⟨fun i => slot_mem_assigned, ?_⟩, h.1⟩
    rintro x ⟨j, t, rfl, -⟩ u hu
    exact hp j u hu

/-- After a call the slots are what they were. -/
theorem Env.Runs.called {k : Call} (h : env.Runs p m (.call k :: code)) : env.Ready code := by
  cases env with
  | root => cases h
  | frame i cl vars caller back commit =>
    obtain ⟨hcaller, K, hgrants, hsuff⟩ := h
    have hK : slots K = assigned vars := by
      ext x
      cases x with
      | slot i => rw [slot_mem_slots, slot_mem_assigned]; exact hgrants.slot i
      | arg i | temp i =>
        refine ⟨?_, ?_⟩
        · rintro ⟨-, j, e⟩
          cases e
        · rintro ⟨j, t, e, -⟩
          cases e
    exact ⟨hK ▸ hsuff.2, hcaller⟩

theorem Env.Runs.returns {i : Nat} {cl : Clause} {vars : List (Option Term)} {commit : Option Nat}
    (h : (Env.frame i cl vars caller back commit).Runs p m code) : caller.Ready back := h.1

theorem Env.Runs.builtin {f : Builtin} {arity : Nat} {b : Bindings}
    (h : env.Runs p m (.builtin f arity :: code)) (hq : ∀ t, p t → q t) :
    env.Runs q { m with bindings := b } code := by
  cases env with
  | root => cases h
  | frame i cl vars caller back commit =>
    obtain ⟨hcaller, K, hgrants, hsuff⟩ := h
    refine ⟨hcaller, K, ⟨fun i => hgrants.slot i, fun x hx t ht => hq t (hgrants.value x hx t ?_)⟩,
      hsuff.2⟩
    cases x <;> exact ht

/-- What an operation sets counts afterwards, too. -/
theorem Env.Runs.operation {op : Operation} {g : Registers}
    (h : env.Runs p m (.operation op :: code))
    (hop : op.run env.name n (m.registers env) = some (.ok (some g)))
    (hsets : ∀ x ∈ op.sets, ∀ t, g.value? x = some t → q t) (hq : ∀ t, p t → q t) :
    (env.setVars g.vars).Runs q (m.load g) code := by
  cases env with
  | root => cases h
  | frame i cl vars caller back commit =>
    obtain ⟨hcaller, K, hgrants, hsuff⟩ := h
    obtain ⟨hval, hkeep⟩ := Operation.value?_run hop
    refine ⟨hcaller, after K op, ⟨fun i => ?_, fun x hx t ht => ?_⟩, hsuff.2⟩
    · by_cases hi : .slot i ∈ op.sets
      · exact ⟨fun _ => hval _ hi, fun _ => .inr hi⟩
      · refine (or_iff_left hi).trans ((hgrants.slot i).trans ?_)
        rw [← hkeep _ hi]
        rfl
    · have ht : g.value? x = some t := ht
      by_cases hmem : x ∈ op.sets
      · exact hsets x hmem t ht
      · rw [hkeep x hmem] at ht
        exact hq t (hgrants.value x (hx.resolve_right hmem) t ht)

/-- A clause that is taken up needs the three arguments only. -/
theorem Env.runs_entered (hP : P.Compiled) {cl : Clause} (hcl : cl ∈ P.rules.clauses.toList)
    (hback : caller.Ready back) {i k : Nat} {commit : Option Nat}
    (hargs : ∀ j < 3, ∀ t, m.args[j]? = some t → p t) :
    (Env.frame i cl (List.replicate k none) caller back commit).Runs p m cl.code := by
  have hnone : ∀ j : Nat, ((List.replicate k (none : Option Term))[j]?).join = none := by
    intro j
    rw [List.getElem?_replicate]
    split <;> rfl
  refine ⟨hback, called, ⟨fun j => ⟨?_, fun h => ?_⟩, ?_⟩, ?_⟩
  · rintro ⟨_, _, e⟩
    cases e
  · have h : ((List.replicate k (none : Option Term))[j]?).join.isSome = true := h
    rw [hnone] at h
    cases h
  · rintro x ⟨j, hj, rfl⟩ t ht
    exact hargs j hj t ht
  · rw [(hP cl hcl).2.1]
    exact Rule.suffice_code _ _ _

/-! ## Lives of machines that are ready -/

/-- The machine can go on from the choice point, and the clauses that are left are those of the
program. -/
structure Choice.Ready (P : Program) (c : Choice) : Prop where
  env : c.env.Ready c.code
  clauses : ∀ {cls : List Clause} {args : List Term} {ground : Bool},
    c.alternatives = .clauses cls args ground → ∀ cl ∈ cls, cl ∈ P.rules.clauses.toList

/-- The machine can go on with what it does and from every choice point. -/
structure Moment.Ready (P : Program) (x : Moment) : Prop where
  choice : ∀ {c : Choice}, x.machine.Has c → c.Ready P
  control : ∀ {env : Env} {code : List Instruction}, x.control = .run env code →
    env.Runs (fun _ => True) x.machine code

theorem Choice.Ready.left (hc : c.Ready P) (hsame : c.Same c')
    (h : c.alternatives.Leaves c'.alternatives) : c'.Ready P := by
  refine ⟨?_, fun {cls args ground} halt cl hcl => ?_⟩
  · rw [hsame]
    exact hc.env
  · rw [halt] at h
    cases hold : c.alternatives with
    | clauses cls' args' ground' =>
      rw [hold] at h
      refine hc.clauses hold cl ?_
      cases h with
      | same => exact hcl
      | clause => exact List.mem_cons_of_mem _ hcl
    | facts | answers | results =>
      rw [hold] at h
      cases h

theorem Machine.Makes.clauses (hmakes : m.Makes w env code c) (hw : P.Governs w)
    {cls : List Clause} {args : List Term} {ground : Bool}
    (halt : c.alternatives = .clauses cls args ground) :
    ∀ cl ∈ cls, cl ∈ P.rules.clauses.toList := by
  have htries := hmakes.alternatives
  rw [halt] at htries
  cases htries with
  | clauses hcls => exact fun cl hcl => hw ▸ hcls cl hcl

/-- What the machine does after a step is what it is ready for. -/
theorem Machine.Acts.runs (hP : P.Compiled)
    (h : m.Acts w.program st n s control control' m' s')
    (hx : Moment.Ready P ⟨control, m, s⟩) (hrun : control' = .run env code) :
    env.Runs (fun _ => True) m' code := by
  cases h with
  | operation hop =>
    cases hrun
    exact (hx.control rfl).operation hop (fun _ _ _ _ => trivial) fun _ => id
  | builtin =>
    cases hrun
    exact (hx.control rfl).builtin fun _ => id
  | leave =>
    cases hrun
    exact (hx.control rfl).returns.runs fun _ _ _ => trivial
  | @enter c rest cl cls args ground _ hstack halt =>
    cases hrun
    have hc := hx.choice (.inl (hstack ▸ List.mem_cons_self))
    exact Env.runs_entered hP (hc.clauses halt cl List.mem_cons_self) hc.env
      fun _ _ _ _ => trivial
  | resume hstack =>
    cases hrun
    exact (hx.choice (.inl (hstack ▸ List.mem_cons_self))).env.runs fun _ _ _ => trivial
  | operationFails | builtinFails | call | answer | empty | spent | stay | exhausted | park =>
    cases hrun

theorem Moment.Calling.ready (h : x.Calling W env code) (hx : x.Ready P) : env.Ready code := by
  cases h with
  | goal => exact (hx.control rfl).called
  | own => rfl

theorem Moment.Passes.ready (hP : P.Compiled) (h' : x.Passes P.Governs ok h x')
    (hx : x.Ready P) : x'.Ready P := by
  refine ⟨fun hc => ?_, fun hrun => ?_⟩
  · rcases h'.has hc with ⟨y, hy, hsame, hleft⟩ | ⟨w, env, code, hw, hcalling, hmakes, -⟩
    · exact (hx.choice hy).left hsame hleft
    · refine ⟨?_, hmakes.clauses hw⟩
      rw [hmakes.env, hmakes.code]
      exact hcalling.ready hx
  · cases h' with
    | @step w n control control' m m' s s' p hw hstep hp =>
      have hacts : m.Acts w.program w.settings n s control control' m' s' := acts_of_step hstep hp
      exact hacts.runs hP hx hrun
    | setUp | setUpQuery | restore | others => cases hrun

theorem Moment.Fresh.ready (h : x.Fresh W) : x.Ready P := by
  cases h with
  | @blank w goal owner m s hw hm =>
    obtain ⟨-, -, -, -, hno⟩ := @blank_regular 0 m goal w.program w.settings owner hm
    exact ⟨fun hc => absurd hc (hno _), fun hrun => nomatch hrun⟩

theorem Moment.Fresh.regular (h : x.Fresh W) : x.Regular := by
  cases h with
  | @blank w goal owner m s hw hm =>
    obtain ⟨h1, -, h3, h4, -⟩ := @blank_regular s.nextId m goal w.program w.settings owner hm
    exact ⟨h1, trivial, h3, h4⟩

theorem Moment.Passes.regular (h' : x.Passes W ok h x') (hx : x.Regular) : x'.Regular := by
  cases h' with
  | setUp _ _ hm => exact Moment.Start.regular (.generator _ hm)
  | setUpQuery _ _ hm => exact Moment.Start.regular (.query hm)
  | step _ hstep hp => exact Moment.Next.regular (.step hstep hp) hx
  | restore hrestore => exact Moment.Next.regular (.restore hrestore) hx
  | others hle => exact Moment.Next.regular (.others hle) hx

end

end TabledRules
