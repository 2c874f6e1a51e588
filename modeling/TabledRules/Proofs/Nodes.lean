-- What can come of the choice points of a machine. A property of states that
-- no step of resolution loses is kept by every turn: where it holds of all
-- that a choice point can lead to, it holds of what the machine finds there.
import TabledRules.Proofs.Numbering

namespace TabledRules

/-! ## Tables that are read -/

/-- All that the consumer will read are results of the table for `key`. -/
structure Session.Reads (s : Session) (consumer : Nat) (key : Triple) : Prop where
  exists_id : consumer < s.nextId
  generator_lt : ∀ {k}, s.consumers[consumer]? = some k → k.generator < s.nextId
  goal_eq : ∀ {k gen}, s.consumers[consumer]? = some k →
    s.generators[k.generator]? = some gen → gen.goal = key

/-- Consumers and generators keep what they are about, and new ones have new ids. The
store is the same. -/
structure Session.Grows (s s' : Session) : Prop where
  version : s'.version = s.version
  nextId_le : s.nextId ≤ s'.nextId
  consumer : ∀ {c k'}, c < s.nextId → s'.consumers[c]? = some k' →
    ∃ k, s.consumers[c]? = some k ∧ k'.generator = k.generator
  generator : ∀ {g gen'}, g < s.nextId → s'.generators[g]? = some gen' →
    ∃ gen, s.generators[g]? = some gen ∧ gen'.goal = gen.goal

theorem Session.Grows.refl (s : Session) : s.Grows s :=
  ⟨rfl, Nat.le_refl _, fun _ h => ⟨_, h, rfl⟩, fun _ h => ⟨_, h, rfl⟩⟩

theorem Session.Grows.trans {s s' s'' : Session} (h : s.Grows s') (h' : s'.Grows s'') :
    s.Grows s'' := by
  refine ⟨h'.version.trans h.version, Nat.le_trans h.nextId_le h'.nextId_le, fun hc hk => ?_,
    fun hg hgen => ?_⟩
  · obtain ⟨k, hk', e'⟩ := h'.consumer (Nat.lt_of_lt_of_le hc h.nextId_le) hk
    obtain ⟨k0, hk0, e⟩ := h.consumer hc hk'
    exact ⟨k0, hk0, e'.trans e⟩
  · obtain ⟨gen, hgen', e'⟩ := h'.generator (Nat.lt_of_lt_of_le hg h.nextId_le) hgen
    obtain ⟨gen0, hgen0, e⟩ := h.generator hg hgen'
    exact ⟨gen0, hgen0, e'.trans e⟩

theorem Session.Noted.grows {s s' : Session} (h : s.Noted s') : s.Grows s' := by
  obtain ⟨j, p, rfl⟩ := h
  exact ⟨rfl, Nat.le_refl _, fun _ h => ⟨_, h, rfl⟩, fun _ h => ⟨_, h, rfl⟩⟩

theorem Session.Reads.grows {s s' : Session} {consumer : Nat} {key : Triple}
    (h : s.Reads consumer key) (hs : s.Grows s') : s'.Reads consumer key := by
  refine ⟨Nat.lt_of_lt_of_le h.exists_id hs.nextId_le, fun hk => ?_, fun hk hgen => ?_⟩
  · obtain ⟨k, hk', e⟩ := hs.consumer h.exists_id hk
    rw [e]
    exact Nat.lt_of_lt_of_le (h.generator_lt hk') hs.nextId_le
  · obtain ⟨k, hk', e⟩ := hs.consumer h.exists_id hk
    rw [e] at hgen
    obtain ⟨gen, hgen', e'⟩ := hs.generator (h.generator_lt hk') hgen
    rw [e']
    exact h.goal_eq hk' hgen'

/-! ## Choice points -/

/-- How many clauses have been entered and not left. -/
def Env.depth : Env → Nat
  | .root => 0
  | .frame _ _ _ caller _ _ => caller.depth + 1

theorem Models.length_eq {P : Program} {env : Env} {code : List Instruction} {fs : List Frame}
    (h : Models P env code fs) : fs.length = env.depth := by
  induction h with
  | root => rfl
  | frame _ _ _ _ _ ih => simp [Env.depth, ih]

theorem Running.length_eq {P : Program} {m : Machine} {env : Env} {code : List Instruction}
    {fs : List Frame} (h : Running P m env code fs) : fs.length = env.depth := by
  cases h with
  | root => rfl
  | frame _ _ _ _ hcaller => simp [Env.depth, hcaller.length_eq]

/-- Whatever is tried at the choice point leads to states that `U` holds of, where `inner`
are the frames that are looked at. New variables may be left out before. -/
def Choice.Leads (P : Program) (s : Session) (U : State → Prop) (inner : List Frame)
    (c : Choice) : Prop :=
  match c.alternatives with
  | .clauses rest args _ => ∀ cl ∈ rest, ∀ n k θ b,
    cl.rule.enter n (goalOf args) (c.bindings.grow k) = some (some (θ, b)) →
      U ⟨b, ⟨cl.rule, θ, cl.rule.steps⟩ :: inner⟩
  | .facts goal rest => ∀ t ∈ rest, ∀ n k b,
    (c.bindings.grow k).unifyTriple n goal t = some (some b) → U ⟨b, inner⟩
  | .answers _ _ => True
  | .results consumer goal => ∃ key, s.Reads consumer key ∧ ∀ t, Answer P key t → ∀ n k b,
    (c.bindings.grow k).unifyTriple n goal t = some (some b) → U ⟨b, inner⟩

/-- The choice point leads to states that `U` holds of, up to the depth `d`. -/
def Choice.Under (P : Program) (s : Session) (U : State → Prop) (d : Nat) (c : Choice) : Prop :=
  ∃ inner fs, inner.length = d ∧ Models P c.env c.code (inner ++ fs) ∧ c.Leads P s U inner

/-- The machine is in a state that `U` holds of, up to the depth `d`. -/
def Control.Under (P : Program) (m : Machine) (U : State → Prop) (d : Nat) : Control → Prop
  | .backtrack => True
  | .run env code => ∃ inner fs, inner.length = d ∧ Running P m env code (inner ++ fs) ∧
    U ⟨m.bindings, inner⟩

/-- No step of resolution loses the property. -/
def Stable (P : Program) (U : State → Prop) : Prop :=
  ∀ st st', U st → Step P (Answer P) st st' → U st'

variable {P : Program} {U : State → Prop} {d : Nat} {c : Choice} {s s' : Session} {m m' : Machine}

/-- All that is known of a session at a choice point is which tables are read. -/
theorem Choice.Leads.reads {inner : List Frame} (h : c.Leads P s U inner)
    (hs : ∀ k key, s.Reads k key → s'.Reads k key) : c.Leads P s' U inner := by
  unfold Choice.Leads at h ⊢
  split at h
  · exact h
  · exact h
  · trivial
  · obtain ⟨key, hreads, hkey⟩ := h
    exact ⟨key, hs _ _ hreads, hkey⟩

theorem Choice.Under.reads (h : c.Under P s U d)
    (hs : ∀ k key, s.Reads k key → s'.Reads k key) : c.Under P s' U d := by
  obtain ⟨inner, fs, hd, hmodels, hleads⟩ := h
  exact ⟨inner, fs, hd, hmodels, hleads.reads hs⟩

/-- A choice point with fewer alternatives leads to no more states. -/
theorem Choice.Under.fewer {alternatives : Alternatives} (h : c.Under P s U d)
    (hfewer : ∀ inner, c.Leads P s U inner → ({ c with alternatives } : Choice).Leads P s U inner) :
    ({ c with alternatives } : Choice).Under P s U d := by
  obtain ⟨inner, fs, hd, hmodels, hleads⟩ := h
  exact ⟨inner, fs, hd, hmodels, hfewer inner hleads⟩

/-! ## Calls make choice points -/

/-- What is called in a body, and what is left of the body when it is solved. -/
structure Awaits (P : Program) (U : State → Prop) (c : Call) (goal : Triple) (b : Bindings)
    (inner : List Frame) : Prop where
  opens : ∀ {b' new}, Opens P (Answer P) c goal b b' new → U ⟨b', new ++ inner⟩

/-- The goal that the first registers have is the called one. -/
theorem called_load {g : Registers} {goal : Triple} (h : g.args.take 3 = goal.terms) :
    (m.load g).called = goal := by
  have h3 : (goalOf g.args).terms = goal.terms := by
    rw [← h]
    match g.args, h with
    | a :: b :: c :: rest, _ => rfl
  obtain ⟨s, p, o⟩ := goal
  simp only [goalOf, Triple.terms, List.cons.injEq, and_true] at h3
  simp only [Machine.called, Machine.load, h3]

/-- After the operations of a call the goal is in the registers, and every way of solving it
leads to states that `U` holds of. -/
theorem Control.Under.call (hP : P.Compiled) (hU : Stable P U) (hargs : m.args.length = maxArguments)
    {env : Env} {ops : List Operation} {c : Call} {code : List Instruction} {n : Nat}
    {g : Registers}
    (h : Control.Under P m U d (.run env (ops.map .operation ++ .call c :: code))) (hd : 0 < d)
    (hg : Operation.runAll env.name n (m.registers env) ops = some (.ok (some g))) :
    ∃ inner fs, inner.length = d ∧ Models P (env.setVars g.vars) code (inner ++ fs) ∧
      Awaits P U c (m.load g).called (m.load g).bindings inner := by
  obtain ⟨inner, fs, rfl, hrun, hu⟩ := h
  obtain ⟨r, θ, pattern, es, fs', hfs, rfl, hcall⟩ := hrun.call hP hargs
  obtain ⟨goal, θ', hput, -, htake, -, hmodels⟩ := hcall n g hg
  cases inner with
  | nil => simp at hd
  | cons f inner =>
    obtain ⟨rfl, rfl⟩ : f = ⟨r, θ, .triple pattern :: es⟩ ∧ inner ++ fs = fs' := by
      simpa using hfs
    refine ⟨⟨r, θ', es⟩ :: inner, fs, rfl, hmodels, ⟨fun hopen => ?_⟩⟩
    rw [called_load htake] at hopen
    exact hU _ _ hu (.goal hput hopen)

/-- The choice point that a machine makes for a call. -/
def Machine.choice (env : Env) (code : List Instruction) (alternatives : Alternatives)
    (m : Machine) : Choice :=
  ⟨m.choices, env, code, m.envs, m.bindings, alternatives⟩

@[simp] theorem Machine.stack_pushed (env : Env) (code : List Instruction) (a : Alternatives)
    (m : Machine) : (m.pushed env code a).stack = m.choice env code a :: m.stack := rfl

theorem mapTerms?_deepDeref_mono {b : Bindings} {n k : Nat} (hnk : n ≤ k) {goal value : Triple}
    (h : goal.mapTerms? (b.deepDeref n) = some value) :
    goal.mapTerms? (b.deepDeref k) = some value := by
  obtain ⟨h1, h2, h3⟩ := mapTerms?_eq_some_iff.1 h
  exact mapTerms?_eq_some_iff.2 ⟨Bindings.deepDeref_mono hnk h1, Bindings.deepDeref_mono hnk h2,
    Bindings.deepDeref_mono hnk h3⟩

section

variable {call : Call} {goal value : Triple} {b : Bindings} {inner : List Frame} {n : Nat}

theorem Awaits.clauses (h : Awaits P U call goal b inner)
    (hc : call.readsTable P.rules (goal.mapTerms b.deref) = false) {args : List Term}
    {ground : Bool} (hb : c.bindings = b) (hargs : goalOf args = goal)
    (halt : c.alternatives = .clauses (call.clauses P.rules (goal.mapTerms b.deref)) args ground) :
    c.Leads P s U inner := by
  unfold Choice.Leads
  rw [halt]
  intro cl hcl n k θ b' henter
  rw [hb, hargs] at henter
  exact h.opens (.clause hc hcl henter)

theorem Awaits.facts (h : Awaits P U call goal b inner)
    (hc : call.readsTable P.rules (goal.mapTerms b.deref) = false)
    (hv : goal.mapTerms? (b.deepDeref n) = some value) (hb : c.bindings = b)
    (halt : c.alternatives = .facts goal (P.find value.lookupKey)) :
    c.Leads P s U inner := by
  unfold Choice.Leads
  rw [halt]
  intro t ht k j b' hu
  rw [hb] at hu
  have hu' := Bindings.unifyAll_mono (Nat.le_max_right n k) hu
  exact h.opens (.fact hc (mapTerms?_deepDeref_mono (Nat.le_max_left n k) hv) ht hu')

theorem Awaits.results (h : Awaits P U call goal b inner)
    (hc : call.readsTable P.rules (goal.mapTerms b.deref) = true)
    (hv : goal.mapTerms? (b.deepDeref n) = some value) (hb : c.bindings = b) {consumer : Nat}
    (hreads : s.Reads consumer value.variantKey) (halt : c.alternatives = .results consumer goal) :
    c.Leads P s U inner := by
  unfold Choice.Leads
  rw [halt]
  refine ⟨_, hreads, fun t ht k j b' hu => ?_⟩
  rw [hb] at hu
  have hu' := Bindings.unifyAll_mono (Nat.le_max_right n k) hu
  exact h.opens (.result hc (mapTerms?_deepDeref_mono (Nat.le_max_left n k) hv) ht hu')

end

theorem mem_clauses_of_clausesFor {cl : Clause} {p : Term} (h : cl ∈ P.rules.clausesFor p) :
    cl ∈ P.rules.clauses.toList := by
  unfold RuleBase.clausesFor at h
  split at h
  · exact h
  · rw [RuleBase.ownClauses_eq, RuleBase.wildcards_eq] at h
    rcases List.mem_append.1 h with h | h
    · exact List.mem_of_mem_filter h
    · exact List.mem_of_mem_filter h

theorem mem_clauses_of_codeFor {cl : Clause} {goal : Triple} (h : cl ∈ P.rules.codeFor goal) :
    cl ∈ P.rules.clauses.toList := by
  unfold RuleBase.codeFor at h
  simp only at h
  split at h
  · exact mem_clauses_of_clausesFor (List.mem_of_mem_filter h)
  · exact mem_clauses_of_clausesFor h

theorem mem_clauses_of_call {cl : Clause} {call : Call} {goal : Triple}
    (h : cl ∈ call.clauses P.rules goal) : cl ∈ P.rules.clauses.toList := by
  cases call with
  | predicate p => exact mem_clauses_of_clausesFor h
  | lastPredicate p => exact mem_clauses_of_clausesFor h
  | predicateIndex p =>
    rw [Call.clauses] at h
    split at h
    · exact mem_clauses_of_clausesFor h
    · exact mem_clauses_of_codeFor h
  | wildTabled => exact mem_clauses_of_codeFor h
  | tripleMatch => cases h
  | tabled => cases h

/-- A consumer that is added for a call reads the table of the called goal. -/
def Session.Answering (s : Session) (w : World) (owner : Owner) : Prop :=
  ∀ value g s1, s.generatorFor w value = (.ok g, s1) →
    (s1.addConsumer g owner).2.Reads (s1.addConsumer g owner).1 value.variantKey

/-- The choice points that a call makes lead to states that `U` holds of. -/
theorem Calls.under {w : World} {env : Env} {code : List Instruction} {call : Call} {p : Progress}
    {inner fs : List Frame} (h : Calls P w env code call m s p m' s')
    (hargs : m.args.length = maxArguments) (hmodels : Models P env code (inner ++ fs))
    (haw : Awaits P U call m.called m.bindings inner) (hs : s.Answering w m.owner) :
    ∃ new, m'.stack = new ++ m.stack ∧ ∀ x ∈ new, x.env = env ∧ x.Fit P ∧
      x.Under P s' U inner.length ∧ ∀ goal rest, x.alternatives ≠ .answers goal rest := by
  have clauses : ∀ ground, call.readsTable P.rules (m.called.mapTerms m.bindings.deref) = false →
      ∃ new, (m.pushedClauses env code (call.clauses P.rules (m.called.mapTerms m.bindings.deref))
        ground).stack = new ++ m.stack ∧ ∀ x ∈ new, x.env = env ∧ x.Fit P ∧
      x.Under P s U inner.length ∧ ∀ goal rest, x.alternatives ≠ .answers goal rest := by
    intro ground hc
    unfold Machine.pushedClauses
    split
    · exact ⟨[], rfl, by simp⟩
    · refine ⟨[m.choice env code _], rfl, fun x hx => ?_⟩
      obtain rfl := List.mem_singleton.1 hx
      refine ⟨rfl, ⟨hargs, fun cl hcl => mem_clauses_of_call hcl⟩,
        ⟨inner, fs, rfl, hmodels, haw.clauses hc rfl rfl rfl⟩, ?_⟩
      simp [Machine.choice]
  cases h with
  | @search n value ground hc hground hv =>
    obtain ⟨new, hnew, hall⟩ := clauses ground hc
    refine ⟨_ :: new, by rw [Machine.stack_pushed, hnew, List.cons_append], fun x hx => ?_⟩
    rcases List.mem_cons.1 hx with rfl | hx
    · have hb : (m.pushedClauses env code (call.clauses P.rules
          (m.called.mapTerms m.bindings.deref)) ground).bindings = m.bindings := by
        unfold Machine.pushedClauses
        split <;> rfl
      refine ⟨rfl, trivial, ⟨inner, fs, rfl, hmodels, haw.facts hc hv hb rfl⟩, ?_⟩
      simp [Machine.choice]
    · exact hall x hx
  | full hc hm =>
    rcases hm with rfl | rfl
    · exact ⟨[], rfl, by simp⟩
    · exact clauses _ hc
  | @table n value g s1 hc hv hg =>
    refine ⟨[m.choice env code _], rfl, fun x hx => ?_⟩
    obtain rfl := List.mem_singleton.1 hx
    refine ⟨rfl, trivial, ⟨inner, fs, rfl, hmodels, haw.results hc hv rfl (hs _ _ _ hg) rfl⟩, ?_⟩
    simp [Machine.choice]
  | tableFull hg => exact ⟨[], rfl, by simp⟩
  | tableRefused hg => exact ⟨[], rfl, by simp⟩

/-! ## Trying what is left at a choice point -/

/-- What is left when the first alternative has been tried. -/
inductive Alternatives.Drops : Alternatives → Alternatives → Prop
  | clause (cl : Clause) (cls : List Clause) (args : List Term) (ground : Bool) :
    Drops (.clauses (cl :: cls) args ground) (.clauses cls args ground)
  | fact (goal t : Triple) (facts : List Triple) :
    Drops (.facts goal (t :: facts)) (.facts goal facts)
  | answer (goal t : Triple) (facts : List Triple) :
    Drops (.answers goal (t :: facts)) (.answers goal facts)
  | result (consumer : Nat) (goal : Triple) : Drops (.results consumer goal) (.results consumer goal)

section

variable {rest : List Choice}

/-- Going back takes the bindings of the choice point, with new variables left out. -/
theorem bindings_popped (m : Machine) (c : Choice) (rest : List Choice) :
    (m.popped c rest).bindings = c.bindings.grow m.pinnedVars := rfl

theorem Choice.Under.enter {i : Nat} {cl : Clause} {cls : List Clause} {args : List Term} {ground : Bool}
    (h : c.Under P s U d) (halt : c.alternatives = .clauses (cl :: cls) args ground) {n : Nat}
    {θ : Values} {g : Registers} {code : List Instruction}
    (henter : cl.rule.enter n (goalOf args) (m.popped c rest).bindings = some (some (θ, g.bindings)))
    (hrun : ∀ fs, Models P c.env c.code fs →
      Running P m' (c.entered i cl g.vars ground) code (⟨cl.rule, θ, cl.rule.steps⟩ :: fs))
    (hb : m'.bindings = g.bindings) :
    Control.Under P m' U (d + 1) (.run (c.entered i cl g.vars ground) code) := by
  obtain ⟨inner, fs, rfl, hmodels, hleads⟩ := h
  unfold Choice.Leads at hleads
  rw [halt] at hleads
  refine ⟨⟨cl.rule, θ, cl.rule.steps⟩ :: inner, fs, rfl, hrun _ hmodels, ?_⟩
  rw [hb]
  exact hleads cl List.mem_cons_self n _ θ _ henter

theorem Choice.Under.fact {goal t : Triple} {facts : List Triple} (h : c.Under P s U d)
    (halt : c.alternatives = .facts goal (t :: facts)) {n : Nat} {b : Bindings}
    (hu : (m.popped c rest).bindings.unifyTriple n goal t = some (some b))
    (hb : m'.bindings = b) : Control.Under P m' U d (.run c.env c.code) := by
  obtain ⟨inner, fs, rfl, hmodels, hleads⟩ := h
  unfold Choice.Leads at hleads
  rw [halt] at hleads
  refine ⟨inner, fs, rfl, hmodels.running m', ?_⟩
  rw [hb]
  exact hleads t List.mem_cons_self n _ b hu

theorem Choice.Under.result {goal t key : Triple} {consumer : Nat} (h : c.Under P s U d)
    (halt : c.alternatives = .results consumer goal) (hkey : ∀ k, s.Reads consumer k → k = key)
    (ht : Answer P key t) {n : Nat} {b : Bindings}
    (hu : (m.popped c rest).bindings.unifyTriple n goal t = some (some b))
    (hb : m'.bindings = b) : Control.Under P m' U d (.run c.env c.code) := by
  obtain ⟨inner, fs, rfl, hmodels, hleads⟩ := h
  unfold Choice.Leads at hleads
  rw [halt] at hleads
  obtain ⟨k, hreads, hk⟩ := hleads
  obtain rfl := hkey k hreads
  refine ⟨inner, fs, rfl, hmodels.running m', ?_⟩
  rw [hb]
  exact hk t ht n _ b hu

/-- The choice point that is put back with the first alternative gone. -/
theorem Choice.Under.tried {a : Alternatives} (h : c.Under P s U d) (ha : c.alternatives.Drops a) :
    ({ c with alternatives := a } : Choice).Under P s U d := by
  refine h.fewer fun inner hl => ?_
  unfold Choice.Leads at hl ⊢
  generalize c.alternatives = a0 at hl ha
  cases ha with
  | clause => exact fun cl hcl => hl cl (List.mem_cons_of_mem _ hcl)
  | fact => exact fun t ht => hl t (List.mem_cons_of_mem _ ht)
  | answer => trivial
  | result => exact hl

end

/-! ## Builtins and returns -/

theorem Control.Under.builtin (hP : P.Compiled) (hU : Stable P U)
    (hargs : m.args.length = maxArguments) {env : Env} {ops : List Operation} {f : Builtin}
    {arity n k : Nat} {code : List Instruction} {g : Registers} {b : Bindings}
    (h : Control.Under P m U d (.run env (ops.map .operation ++ .builtin f arity :: code)))
    (hd : 0 < d)
    (hg : Operation.runAll env.name n (m.registers env) ops = some (.ok (some g)))
    (hf : f.run k P.store env.rule? g.bindings (g.args.take arity) = some (.ok (some b))) :
    Control.Under P (m.load { g with bindings := b }) U d (.run (env.setVars g.vars) code) := by
  obtain ⟨inner, fs, rfl, hrun, hu⟩ := h
  obtain ⟨r, θ, c, es, fs', hfs, hget, hrule, hcall⟩ := hrun.builtin hP hargs
  obtain ⟨us, θ', hput, -, rfl, -, hmodels⟩ := hcall n g hg
  cases inner with
  | nil => simp at hd
  | cons fr inner =>
    obtain ⟨rfl, rfl⟩ : fr = ⟨r, θ, .builtin c :: es⟩ ∧ inner ++ fs = fs' := by
      simpa using hfs
    rw [hrule] at hf
    exact ⟨⟨r, θ', es⟩ :: inner, fs, rfl, hmodels.running _, hU _ _ hu (.builtin hget hput hf)⟩

theorem Control.Under.leave (hP : P.Compiled) (hU : Stable P U) {i : Nat} {cl : Clause}
    {vars : List (Option Term)} {caller : Env} {back : List Instruction} {commit : Option Nat}
    (h : Control.Under P m U (d + 1) (.run (.frame i cl vars caller back commit) [.proceed]))
    (hb : m'.bindings = m.bindings) : Control.Under P m' U d (.run caller back) := by
  obtain ⟨inner, fs, hd, hrun, hu⟩ := h
  obtain ⟨r, θ, fs', hfs, hmodels⟩ := hrun.leave hP
  cases inner with
  | nil => cases hd
  | cons fr inner =>
    obtain ⟨rfl, rfl⟩ : fr = ⟨r, θ, []⟩ ∧ inner ++ fs = fs' := by simpa using hfs
    refine ⟨inner, fs, by simpa using hd, hmodels.running m', ?_⟩
    rw [hb]
    exact hU _ _ hu .leave

end TabledRules
