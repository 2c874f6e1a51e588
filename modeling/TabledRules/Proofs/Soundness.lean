-- Machines find nothing but answers. All that a choice point can lead to is an
-- answer to the goal of its machine, and all results of a table are answers
-- to the goal of the table. This holds whatever is tried first, and after
-- failures too.
import TabledRules.Proofs.Tables

namespace TabledRules

/-! ## What is sound -/

/-- All answers that the state gives are in `K`. -/
def State.Only (P : Program) (standard : Triple) (K : Triple → Prop) (st : State) : Prop :=
  ∀ t, st.Gives P (Answer P) standard t → K t

theorem stable_only (P : Program) (standard : Triple) (K : Triple → Prop) :
    Stable P (State.Only P standard K) := by
  rintro st st' h hstep t ⟨b, n, hsteps, ht⟩
  exact h t ⟨b, n, .head hstep hsteps, ht⟩

/-- The choice point leads to answers in `K` only. -/
structure Choice.Sound (P : Program) (s : Session) (standard : Triple) (K : Triple → Prop)
    (c : Choice) : Prop where
  fit : c.Fit P
  under : c.Under P s (State.Only P standard K) c.env.depth
  answers : ∀ {goal rest}, c.alternatives = .answers goal rest → ∀ t ∈ rest, ∀ n k b,
    (c.bindings.grow k).unifyTriple n goal t = some (some b) → K t

structure Machine.Sound (P : Program) (s : Session) (K : Triple → Prop) (m : Machine) : Prop where
  args_length : m.args.length = maxArguments
  temps_length : m.temps.length = maxTemporaries
  stack : ∀ c ∈ m.stack, c.Sound P s m.standard K
  suspended : ∀ {consumer : Nat} {c : Choice}, m.suspended[consumer]? = some c → c.Sound P s m.standard K
  numbered : m.Numbered

/-- The state that the machine is in leads to answers in `K` only. -/
def Control.Sound (P : Program) (K : Triple → Prop) (m : Machine) : Control → Prop
  | .backtrack => True
  | .run env code => env.Below m.envs ∧
    Control.Under P m (State.Only P m.standard K) env.depth (.run env code)

/-- An answer is in `K`. -/
def Progress.Sound (P : Program) (K : Triple → Prop) (m : Machine) : Progress → Prop
  | .go control => control.Sound P K m
  | .done (.ok (some t)) => K t
  | _ => True

/-- The tables have answers to their goals only. -/
structure Session.Sound (P : Program) (s : Session) : Prop where
  generator_lt : ∀ {g : Nat} {gen : Generator}, s.generators[g]? = some gen → g < s.nextId
  consumer_lt : ∀ {c : Nat} {k : Consumer}, s.consumers[c]? = some k →
    c < s.nextId ∧ k.generator < s.nextId
  goal_lt : ∀ {key g}, (key, g) ∈ s.goals.toList → g < s.nextId
  goal_eq : ∀ {key : Triple} {g : Nat} {gen : Generator}, (key, g) ∈ s.goals.toList →
    s.generators[g]? = some gen → gen.goal = key
  results : ∀ {g : Nat} {gen : Generator} {t : Triple}, s.generators[g]? = some gen → t ∈ gen.results.toList →
    Answer P gen.goal t
  machine : ∀ {g : Nat} {gen : Generator} {m : Machine}, s.generators[g]? = some gen → gen.machine = some m →
    m.Sound P s (Answer P gen.goal)

section

variable {P : Program} {s s' : Session} {m : Machine} {c : Choice} {standard : Triple}
  {K : Triple → Prop}

theorem Choice.Sound.reads (h : c.Sound P s standard K)
    (hs : ∀ k key, s.Reads k key → s'.Reads k key) : c.Sound P s' standard K :=
  ⟨h.fit, h.under.reads hs, h.answers⟩

theorem Machine.Sound.reads (h : m.Sound P s K) (hs : ∀ k key, s.Reads k key → s'.Reads k key) :
    m.Sound P s' K :=
  ⟨h.args_length, h.temps_length, fun c hc => (h.stack c hc).reads hs,
    fun hc => (h.suspended hc).reads hs, h.numbered⟩

theorem Machine.Sound.grows (h : m.Sound P s K) (hs : s.Grows s') : m.Sound P s' K :=
  h.reads fun _ _ hreads => hreads.grows hs

theorem Machine.Sound.fit (h : m.Sound P s K) : m.Fit P :=
  ⟨h.args_length, h.temps_length, fun c hc => (h.stack c hc).fit, h.numbered⟩

theorem Control.Sound.fit {control : Control} (h : control.Sound P K m) : control.Fit P m := by
  cases control with
  | backtrack => trivial
  | run env code =>
    obtain ⟨hbelow, inner, fs, -, hrun, -⟩ := h
    exact ⟨hbelow, _, hrun⟩

theorem Session.Sound.sameTables (h : s.Sound P) (hs : s.SameTables s') : s'.Sound P := by
  refine ⟨fun hg => ?_, fun hk => ?_, fun hkey => ?_, fun hkey hg => ?_, fun hg ht => ?_,
    fun hg hm => ?_⟩
  · obtain ⟨gen, h1, -⟩ := hs.generator hg
    rw [hs.nextId]
    exact h.generator_lt h1
  · obtain ⟨k, h1, e⟩ := hs.consumer hk
    rw [hs.nextId, e]
    exact h.consumer_lt h1
  · rw [hs.goals] at hkey
    rw [hs.nextId]
    exact h.goal_lt hkey
  · rw [hs.goals] at hkey
    obtain ⟨gen, h1, e, -⟩ := hs.generator hg
    rw [e]
    exact h.goal_eq hkey h1
  · obtain ⟨gen, h1, e, e', -⟩ := hs.generator hg
    rw [e'] at ht
    rw [e]
    exact h.results h1 ht
  · obtain ⟨gen, h1, e, -, e' | e'⟩ := hs.generator hg
    · rw [e'] at hm
      rw [e]
      exact (h.machine h1 hm).grows hs.grows
    · rw [e'] at hm
      cases hm

end

/-! ## New machines -/

section

variable {P : Program} {st : Settings} {goal : Triple} {owner : Owner} {m : Machine}

theorem blank_eq (h : Machine.blank (P.world st) goal owner = .ok m) :
    m.standard = goal.standard ∧ m.bindings = goal.unbound ∧ m.stack = [] ∧ m.suspended = ∅ ∧
      m.args = goal.standard.terms ++ List.replicate (maxArguments - 3) .any ∧
      m.temps = List.replicate maxTemporaries none ∧ m.owner = owner ∧ m.choices = 0 ∧
      m.pinned = {} ∧ m.committed = ∅ := by
  unfold Machine.blank Machine.enterEnv at h
  simp only at h
  split at h
  · cases h
  · cases h
    exact ⟨rfl, rfl, rfl, rfl, rfl, rfl, rfl, rfl, rfl, rfl⟩

/-- A new machine keeps the environment at the root. -/
theorem blank_numbered (h : Machine.blank (P.world st) goal owner = .ok m) :
    m.Numbered ∧ Env.root.Below m.envs := by
  unfold Machine.blank Machine.enterEnv at h
  simp only at h
  split at h
  · cases h
  · cases h
    refine ⟨⟨.nil, fun c hc => (List.not_mem_nil hc).elim, fun hc => ?_, Nat.le_refl _,
      Nat.zero_le _⟩, Nat.zero_lt_one⟩
    cases hc.symm.trans Std.TreeMap.getElem?_emptyc

/-- The machine that `start` makes, with its choice points written out. -/
theorem start_eq (h : Machine.start (P.world st) goal owner = .ok m) :
    ∃ m0, Machine.blank (P.world st) goal owner = .ok m0 ∧
      m = (m0.pushedClauses .root [.proceed] (P.rules.codeFor goal.standard) goal.isGround).pushed
        .root [.proceed] (.answers goal.standard (P.find goal.standard.lookupKey)) := by
  have finish : ∀ m1 : Machine, m1.standard = goal.standard →
      ((P.world st).store.find m1.standard.lookupKey >>= fun facts =>
        m1.push (P.world st) .root [.proceed] (.answers m1.standard facts)) = .ok m →
      m = m1.pushed .root [.proceed]
        (.answers goal.standard (P.find goal.standard.lookupKey)) := by
    intro m1 hstd h
    rw [hstd] at h
    obtain ⟨facts, hfacts, h⟩ := ok_of_bind h
    have hfind : P.find goal.standard.lookupKey = facts := by
      change P.store.find _ = _ at hfacts
      unfold Program.find
      rw [hfacts]
    rw [← hfind] at h
    rcases m1.push_eq (P.world st) .root [.proceed]
      (.answers goal.standard (P.find goal.standard.lookupKey)) with ⟨e, he⟩ | hok
    · rw [he] at h
      cases h
    · rw [hok] at h
      cases h
      rfl
  unfold Machine.start at h
  obtain ⟨m0, h0, h⟩ := ok_of_bind h
  have hstd := (blank_eq h0).1
  have hrules : (P.world st).rules = P.rules := rfl
  refine ⟨m0, h0, ?_⟩
  rw [hstd, hrules] at h
  simp only at h
  split at h
  · next hnil =>
    rw [Machine.pushedClauses, if_pos hnil]
    exact finish m0 hstd h
  · next hne =>
    rw [Machine.pushedClauses, if_neg hne]
    rcases m0.push_eq (P.world st) .root [.proceed]
      (.clauses (P.rules.codeFor goal.standard) m0.args goal.isGround) with ⟨e, he⟩ | hok
    · rw [he] at h
      cases h
    · rw [hok] at h
      exact finish _ hstd h

/-- A new machine leads to answers of its goal. -/
theorem start_sound (h : Machine.start (P.world st) goal owner = .ok m) (s : Session) :
    m.Sound P s (Answer P goal) := by
  obtain ⟨m0, h0, rfl⟩ := start_eq h
  obtain ⟨hstd, hb, hstack, hsusp, hargs, htemps, -⟩ := blank_eq h0
  have hlen : m0.args.length = maxArguments := by rw [hargs]; rfl
  have hgoal : goalOf m0.args = goal.standard := by rw [hargs]; rfl
  have sound : ∀ m1 : Machine, m1.standard = goal.standard → m1.bindings = goal.unbound →
      ∀ a, (∀ cls args ground, a = .clauses cls args ground →
        goalOf args = goal.standard ∧ args.length = maxArguments ∧
          cls = P.rules.codeFor goal.standard) →
      (∀ g rest, a = .answers g rest → g = goal.standard ∧
        rest = P.find goal.standard.lookupKey) →
      (∀ g rest, a ≠ .facts g rest) → (∀ c g, a ≠ .results c g) →
      (m1.choice .root [.proceed] a).Sound P s goal.standard (Answer P goal) := by
    intro m1 hstd1 hb1 a hclauses hanswers hfacts hresults
    refine ⟨?_, ⟨[], [], rfl, .root, ?_⟩, fun {g rest} ha t ht n k b hu => ?_⟩
    · unfold Choice.Fit
      split
      · next cls args ground ha =>
        obtain ⟨-, hlen, rfl⟩ := hclauses _ _ _ ha
        exact ⟨hlen, fun cl hcl => mem_clauses_of_codeFor hcl⟩
      · trivial
    · unfold Choice.Leads
      split
      · next cls args ground ha =>
        obtain ⟨hg, -, rfl⟩ := hclauses _ _ _ ha
        intro cl hcl n k θ b henter t ht
        change cl.rule.enter n (goalOf args) (m1.bindings.grow k) = _ at henter
        rw [hg, hb1] at henter
        exact answer_of_derives (.clause hcl henter ht)
      · next g rest ha => exact absurd ha (hfacts g rest)
      · trivial
      · next c g ha => exact absurd ha (hresults c g)
    · obtain ⟨rfl, rfl⟩ := hanswers g rest ha
      change (m1.bindings.grow k).unifyTriple n goal.standard t = _ at hu
      rw [hb1] at hu
      exact answer_of_derives (.fact ht hu)
  generalize hm1 : m0.pushedClauses .root [.proceed] (P.rules.codeFor goal.standard) goal.isGround =
    m1
  have hfields : m1.standard = goal.standard ∧ m1.bindings = goal.unbound ∧ m1.args = m0.args ∧
      m1.temps = m0.temps ∧ m1.suspended = ∅ := by
    rw [← hm1]
    unfold Machine.pushedClauses
    split <;> exact ⟨hstd, hb, rfl, rfl, hsusp⟩
  obtain ⟨hstd1, hb1, hargs1, htemps1, hsusp1⟩ := hfields
  have hnum : (m1.pushed .root [.proceed]
      (.answers goal.standard (P.find goal.standard.lookupKey))).Numbered := by
    obtain ⟨h1, h2⟩ := blank_numbered h0
    rw [← hm1]
    exact (h1.pushedClauses h2 _ _).pushed (by rwa [Machine.Numbered.envs_pushedClauses])
  refine ⟨?_, ?_, fun c hc => ?_, fun {k c} hc => ?_, hnum⟩
  · exact (congrArg List.length hargs1).trans hlen
  · rw [show (m1.pushed .root [.proceed] _).temps = m0.temps from htemps1, htemps]
    exact List.length_replicate
  · rw [show (m1.pushed .root [.proceed] _).standard = goal.standard from hstd1]
    rcases List.mem_cons.1 hc with rfl | hc
    · refine sound m1 hstd1 hb1 _ ?_ ?_ ?_ ?_
      · simp
      · simp
      · simp
      · simp
    · rw [← hm1] at hc
      unfold Machine.pushedClauses at hc
      split at hc
      · rw [hstack] at hc
        cases hc
      · rw [Machine.stack_pushed, hstack] at hc
        obtain rfl := List.mem_singleton.1 hc
        refine sound m0 hstd hb _ ?_ ?_ ?_ ?_
        · rintro cls args ground e
          cases e
          exact ⟨hgoal, hlen, rfl⟩
        · simp
        · simp
        · simp
  · have hnone : (m1.pushed .root [.proceed]
        (.answers goal.standard (P.find goal.standard.lookupKey))).suspended[k]? = none := by
      change m1.suspended[k]? = none
      rw [hsusp1]
      exact Std.TreeMap.getElem?_emptyc
    rw [hnone] at hc
    cases hc

end

/-! ## Tables for goals -/

section

variable {P : Program} {st : Settings} {s s' : Session} {value : Triple} {g : Nat}

theorem lookup_mem {α β : Type} [BEq α] [LawfulBEq α] {a : α} {b : β} {l : List (α × β)}
    (h : l.lookup a = some b) : (a, b) ∈ l := by
  induction l with
  | nil => cases h
  | cons p l ih =>
    obtain ⟨x, y⟩ := p
    rw [List.lookup_cons] at h
    split at h
    · next e =>
      cases h
      rw [eq_of_beq e]
      exact List.mem_cons_self
    · exact List.mem_cons_of_mem _ (ih h)

/-- A generator that is found for a goal is the one for its variants. -/
theorem of_generatorOf? {gen : Generator} (h : s.generatorOf? value = some (g, gen)) :
    (value.variantKey, g) ∈ s.goals.toList ∧ s.generators[g]? = some gen := by
  unfold Session.generatorOf? at h
  simp only at h
  split at h
  · next g' hg' =>
    obtain ⟨gen', hgen, e⟩ := Option.map_eq_some_iff.1 h
    cases e
    have hmem := lookup_mem hg'
    rw [Index.bucket_eq] at hmem
    exact ⟨List.mem_of_mem_filter hmem, hgen⟩
  · cases h

/-- The session with a generator for a new goal. -/
def Session.withGenerator (s : Session) (key : Triple) (m : Machine) : Session :=
  let s := { s with nextId := s.nextId + 1 }.note (.generatorNew s.nextId key)
  { s with
    generators := s.generators.insert (s.nextId - 1) { goal := key, machine := some m }
    goals := s.goals.push (key, s.nextId - 1) }.schedule (.start (s.nextId - 1))

/-- What comes of the call of a table. -/
theorem generatorFor_cases {w : World} {x : Except Failure Nat}
    (h : s.generatorFor w value = (x, s')) :
    (∃ g gen, s.generatorOf? value = some (g, gen) ∧ x = .ok g ∧ s' = s) ∨
    (s.generatorOf? value = none ∧ ∃ e, x = .error e ∧ s' = { s with nextId := s.nextId + 1 }) ∨
    ∃ m, s.generatorOf? value = none ∧
      Machine.start w value.variantKey (.generator s.nextId) = .ok m ∧ x = .ok s.nextId ∧
      s' = s.withGenerator value.variantKey m := by
  unfold Session.generatorFor at h
  split at h
  · next g gen hg =>
    cases h
    exact .inl ⟨g, gen, hg, rfl, rfl⟩
  · next hnone =>
    simp only at h
    split at h
    · next e he =>
      cases h
      exact .inr (.inl ⟨hnone, e, rfl, rfl⟩)
    · next m hm =>
      cases h
      exact .inr (.inr ⟨m, hnone, hm, rfl, rfl⟩)

@[simp] theorem generators_withGenerator (s : Session) (key : Triple) (m : Machine) (g : Nat) :
    (s.withGenerator key m).generators[g]? =
      if s.nextId = g then some { goal := key, machine := some m } else s.generators[g]? := by
  change (s.generators.insert (s.nextId + 1 - 1) _)[g]? = _
  rw [Nat.add_sub_cancel, Std.TreeMap.getElem?_insert]
  simp only [Std.LawfulEqCmp.compare_eq_iff_eq]

@[simp] theorem goals_withGenerator (s : Session) (key : Triple) (m : Machine) :
    (s.withGenerator key m).goals.toList = s.goals.toList ++ [(key, s.nextId)] := by
  change (s.goals.push (key, s.nextId + 1 - 1)).toList = _
  rw [Index.toList_push, Nat.add_sub_cancel]

/-- A table for a new goal is empty, and its machine is new. -/
theorem Session.Sound.withGenerator (h : s.Sound P) {m : Machine} {owner : Owner}
    (hm : Machine.start (P.world st) value owner = .ok m) :
    (s.withGenerator value m).Sound P ∧ s.Grows (s.withGenerator value m) := by
  have hgrows : s.Grows (s.withGenerator value m) := by
    refine ⟨rfl, Nat.le_succ _, fun _ hk => ⟨_, hk, rfl⟩, fun {g gen'} hlt hg => ?_⟩
    rw [generators_withGenerator, if_neg (by omega)] at hg
    exact ⟨gen', hg, rfl⟩
  refine ⟨⟨fun {g gen} hg => ?_, fun hk => ?_, fun {key g} hkey => ?_, fun {key g gen} hkey hg => ?_,
    fun {g gen t} hg ht => ?_, fun {g gen m'} hg hm' => ?_⟩, hgrows⟩
  · change g < s.nextId + 1
    rw [generators_withGenerator] at hg
    split at hg
    · omega
    · exact Nat.lt_succ_of_lt (h.generator_lt hg)
  · have := h.consumer_lt hk
    exact ⟨Nat.lt_succ_of_lt this.1, Nat.lt_succ_of_lt this.2⟩
  · change g < s.nextId + 1
    rw [goals_withGenerator] at hkey
    rcases List.mem_append.1 hkey with hkey | hkey
    · exact Nat.lt_succ_of_lt (h.goal_lt hkey)
    · cases List.mem_singleton.1 hkey
      exact Nat.lt_succ_self _
  · rw [goals_withGenerator] at hkey
    rw [generators_withGenerator] at hg
    rcases List.mem_append.1 hkey with hkey | hkey
    · rw [if_neg (Nat.ne_of_gt (h.goal_lt hkey))] at hg
      exact h.goal_eq hkey hg
    · cases List.mem_singleton.1 hkey
      rw [if_pos rfl] at hg
      cases hg
      rfl
  · rw [generators_withGenerator] at hg
    split at hg
    · cases hg
      cases ht
    · exact h.results hg ht
  · rw [generators_withGenerator] at hg
    split at hg
    · cases hg
      cases hm'
      exact start_sound hm _
    · exact (h.machine hg hm').grows hgrows

/-- Ids that are given out leave everything as it is. -/
theorem Session.Sound.nextId (h : s.Sound P) {n : Nat} (hn : s.nextId ≤ n) :
    ({ s with nextId := n } : Session).Sound P ∧ s.Grows { s with nextId := n } := by
  have hgrows : s.Grows { s with nextId := n } :=
    ⟨rfl, hn, fun _ hk => ⟨_, hk, rfl⟩, fun _ hg => ⟨_, hg, rfl⟩⟩
  refine ⟨⟨fun hg => ?_, fun hk => ?_, fun hkey => ?_, h.goal_eq, h.results, fun hg hm => ?_⟩,
    hgrows⟩
  · exact Nat.lt_of_lt_of_le (h.generator_lt hg) hn
  · have := h.consumer_lt hk
    exact ⟨Nat.lt_of_lt_of_le this.1 hn, Nat.lt_of_lt_of_le this.2 hn⟩
  · exact Nat.lt_of_lt_of_le (h.goal_lt hkey) hn
  · exact (h.machine hg hm).grows hgrows

theorem Session.Sound.generatorFor (h : s.Sound P) {x : Except Failure Nat}
    (hg : s.generatorFor (P.world st) value = (x, s')) :
    s'.Sound P ∧ s.Grows s' ∧ ∀ g, x = .ok g → g < s'.nextId ∧
      ∀ gen, s'.generators[g]? = some gen → gen.goal = value.variantKey := by
  rcases generatorFor_cases hg with ⟨g, gen, hof, rfl, rfl⟩ | ⟨-, e, rfl, rfl⟩ | ⟨m, -, hm, rfl, rfl⟩
  · obtain ⟨hkey, hgen⟩ := of_generatorOf? hof
    refine ⟨h, .refl _, fun g' e => ?_⟩
    cases e
    exact ⟨h.goal_lt hkey, fun gen' hgen' => h.goal_eq hkey hgen'⟩
  · obtain ⟨h1, h2⟩ := h.nextId (Nat.le_succ s.nextId)
    exact ⟨h1, h2, fun g' e => by cases e⟩
  · obtain ⟨h1, h2⟩ := h.withGenerator hm
    refine ⟨h1, h2, fun g' e => ?_⟩
    cases e
    refine ⟨Nat.lt_succ_self _, fun gen hgen => ?_⟩
    rw [generators_withGenerator, if_pos rfl] at hgen
    cases hgen
    rfl

theorem consumers_addConsumer (s : Session) (g : Nat) (owner : Owner) (c : Nat) :
    (s.addConsumer g owner).2.consumers[c]? =
      if s.nextId = c then some { generator := g, owner } else s.consumers[c]? := by
  change (s.consumers.insert s.nextId _)[c]? = _
  rw [Std.TreeMap.getElem?_insert]
  simp only [Std.LawfulEqCmp.compare_eq_iff_eq]

theorem generators_addConsumer (s : Session) (g g' : Nat) (owner : Owner) :
    (s.addConsumer g owner).2.generators[g']? =
      if g = g' then (s.generators[g]?).map fun gen =>
        { gen with consumers := s.nextId :: gen.consumers }
      else s.generators[g']? := Session.generators_modifyGenerator _ g g' _

/-- A new consumer reads the table it was made for. -/
theorem Session.Sound.addConsumer (h : s.Sound P) (hg : g < s.nextId) (owner : Owner) :
    (s.addConsumer g owner).2.Sound P ∧ s.Grows (s.addConsumer g owner).2 := by
  -- the generator only gets one more reader
  have same : ∀ {g' : Nat} {gen' : Generator}, (s.addConsumer g owner).2.generators[g']? = some gen' →
      ∃ gen : Generator, s.generators[g']? = some gen ∧ gen'.goal = gen.goal ∧
        gen'.results = gen.results ∧ gen'.machine = gen.machine := by
    intro g' gen' hg'
    rw [generators_addConsumer] at hg'
    split at hg'
    · next e =>
      subst e
      obtain ⟨gen, hgen, rfl⟩ := Option.map_eq_some_iff.1 hg'
      exact ⟨gen, hgen, rfl, rfl, rfl⟩
    · exact ⟨gen', hg', rfl, rfl, rfl⟩
  have hgrows : s.Grows (s.addConsumer g owner).2 := by
    refine ⟨rfl, Nat.le_succ _, fun {c k'} hc hk => ?_, fun _ hg' => ?_⟩
    · rw [consumers_addConsumer, if_neg (by omega)] at hk
      exact ⟨k', hk, rfl⟩
    · obtain ⟨gen, h1, h2, -⟩ := same hg'
      exact ⟨gen, h1, h2⟩
  refine ⟨⟨fun hg' => ?_, fun {c k} hk => ?_, fun hkey => ?_, fun hkey hg' => ?_, fun hg' ht => ?_,
    fun hg' hm => ?_⟩, hgrows⟩
  · obtain ⟨gen, h1, -⟩ := same hg'
    exact Nat.lt_succ_of_lt (h.generator_lt h1)
  · change c < s.nextId + 1 ∧ k.generator < s.nextId + 1
    rw [consumers_addConsumer] at hk
    split at hk
    · cases hk
      exact ⟨by omega, Nat.lt_succ_of_lt hg⟩
    · have := h.consumer_lt hk
      exact ⟨Nat.lt_succ_of_lt this.1, Nat.lt_succ_of_lt this.2⟩
  · exact Nat.lt_succ_of_lt (h.goal_lt hkey)
  · obtain ⟨gen, h1, h2, -⟩ := same hg'
    rw [h2]
    exact h.goal_eq hkey h1
  · obtain ⟨gen, h1, h2, h3, -⟩ := same hg'
    rw [h3] at ht
    rw [h2]
    exact h.results h1 ht
  · obtain ⟨gen, h1, h2, -, h3⟩ := same hg'
    rw [h3] at hm
    rw [h2]
    exact (h.machine h1 hm).grows hgrows

theorem Session.Sound.answering (h : s.Sound P) (owner : Owner) :
    s.Answering (P.world st) owner := by
  intro value g s1 hg
  obtain ⟨h1, -, hkey⟩ := h.generatorFor hg
  obtain ⟨hlt, hgoal⟩ := hkey g rfl
  have hcons : ∀ {k : Consumer},
      (s1.addConsumer g owner).2.consumers[(s1.addConsumer g owner).1]? = some k →
      k.generator = g := by
    intro k hk
    change (s1.addConsumer g owner).2.consumers[s1.nextId]? = some k at hk
    rw [consumers_addConsumer, if_pos rfl] at hk
    cases hk
    rfl
  refine ⟨Nat.lt_succ_self _, fun hk => ?_, fun {k gen} hk hgen => ?_⟩
  · rw [hcons hk]
    exact Nat.lt_succ_of_lt hlt
  · rw [hcons hk, generators_addConsumer, if_pos rfl] at hgen
    obtain ⟨gen', hgen', rfl⟩ := Option.map_eq_some_iff.1 hgen
    exact hgoal gen' hgen'

end

/-! ## Turns -/

section

variable {P : Program} {st : Settings} {s s' : Session} {m m' : Machine} {K : Triple → Prop}
  {c : Choice} {rest : List Choice} {p : Progress} {control : Control}

/-- A machine with other registers, whose choice points are old ones or sound. -/
theorem Machine.Sound.update (h : m.Sound P s K) (hnum : m'.Numbered) (hargs : m'.args.length = maxArguments)
    (htemps : m'.temps.length = maxTemporaries) (hstd : m'.standard = m.standard)
    (hsusp : m'.suspended = m.suspended)
    (hstack : ∀ c ∈ m'.stack, c ∈ m.stack ∨ c.Sound P s m.standard K) : m'.Sound P s K := by
  refine ⟨hargs, htemps, fun c hc => ?_, fun hc => ?_, hnum⟩
  · rw [hstd]
    rcases hstack c hc with hc | hc
    · exact h.stack c hc
    · exact hc
  · rw [hsusp] at hc
    rw [hstd]
    exact h.suspended hc

theorem Choice.Sound.tried {standard : Triple} {a : Alternatives} (h : c.Sound P s standard K)
    (ha : c.alternatives.Drops a) :
    ({ c with alternatives := a } : Choice).Sound P s standard K := by
  obtain ⟨id, env, code, envs, bindings, a0⟩ := c
  refine ⟨?_, h.under.tried ha, fun {goal rest} he t ht n k b hu => ?_⟩
  · have hfit := h.fit
    unfold Choice.Fit at hfit ⊢
    cases ha with
    | clause => exact ⟨hfit.1, fun cl hcl => hfit.2 cl (List.mem_cons_of_mem _ hcl)⟩
    | fact => trivial
    | answer => trivial
    | result => trivial
  · cases ha with
    | clause => cases he
    | fact => cases he
    | answer =>
      cases he
      exact h.answers rfl _ (List.mem_cons_of_mem _ ht) n k b hu
    | result => cases he

/-- The machine whose last choice point is put back with less to try. -/
theorem Machine.Sound.keep (h : m.Sound P s K) (hnum : m'.Numbered)
    (hstack : m.stack = c :: rest) {a : Alternatives} (ha : c.alternatives.Drops a)
    (hargs : m'.args.length = maxArguments) (htemps : m'.temps.length = maxTemporaries)
    (hstd : m'.standard = m.standard) (hsusp : m'.suspended = m.suspended)
    (hstack' : m'.stack = { c with alternatives := a } :: rest) : m'.Sound P s K := by
  refine h.update hnum hargs htemps hstd hsusp fun x hx => ?_
  rw [hstack'] at hx
  rcases List.mem_cons.1 hx with rfl | hx
  · exact .inr ((h.stack c (by rw [hstack]; exact List.mem_cons_self)).tried ha)
  · exact .inl (by rw [hstack]; exact List.mem_cons_of_mem _ hx)

theorem Machine.Sound.popped (h : m.Sound P s K) (hstack : m.stack = c :: rest) :
    (m.popped c rest).Sound P s K :=
  h.update (h.numbered.popped hstack).1 h.args_length h.temps_length rfl rfl fun x hx =>
    .inl (by rw [hstack]; exact List.mem_cons_of_mem _ hx)

theorem Calls.session {w : World} {env : Env} {code : List Instruction} {call : Call}
    (hw : w = P.world st) (h : Calls P w env code call m s p m' s') (hs : s.Sound P) :
    s'.Sound P ∧ s.Grows s' := by
  subst hw
  cases h with
  | search => exact ⟨hs, .refl _⟩
  | full => exact ⟨hs, .refl _⟩
  | @table n value g s1 hc hv hg =>
    obtain ⟨h1, h2, h3⟩ := hs.generatorFor hg
    obtain ⟨h4, h5⟩ := h1.addConsumer (h3 g rfl).1 m.owner
    exact ⟨h4, h2.trans h5⟩
  | @tableFull e value g s1 hg =>
    obtain ⟨h1, h2, h3⟩ := hs.generatorFor hg
    obtain ⟨h4, h5⟩ := h1.addConsumer (h3 g rfl).1 m.owner
    exact ⟨h4, h2.trans h5⟩
  | tableRefused hg =>
    obtain ⟨h1, h2, -⟩ := hs.generatorFor hg
    exact ⟨h1, h2⟩

theorem Calls.registers {w : World} {env : Env} {code : List Instruction} {call : Call}
    (h : Calls P w env code call m s p m' s') :
    m'.args = m.args ∧ m'.temps = m.temps ∧ m'.standard = m.standard ∧
      m'.suspended = m.suspended ∧ m'.bindings = m.bindings ∧
      (p = .go .backtrack ∨ ∃ e, p = .done (.error e)) := by
  have clauses : ∀ cls ground, (m.pushedClauses env code cls ground).args = m.args ∧
      (m.pushedClauses env code cls ground).temps = m.temps ∧
      (m.pushedClauses env code cls ground).standard = m.standard ∧
      (m.pushedClauses env code cls ground).suspended = m.suspended ∧
      (m.pushedClauses env code cls ground).bindings = m.bindings := by
    intro cls ground
    unfold Machine.pushedClauses
    split <;> exact ⟨rfl, rfl, rfl, rfl, rfl⟩
  cases h with
  | search hc hground hv =>
    obtain ⟨h1, h2, h3, h4, h5⟩ := clauses (call.clauses P.rules (m.called.mapTerms m.bindings.deref)) _
    exact ⟨h1, h2, h3, h4, h5, .inl rfl⟩
  | full hc hm =>
    rcases hm with rfl | rfl
    · exact ⟨rfl, rfl, rfl, rfl, rfl, .inr ⟨_, rfl⟩⟩
    · obtain ⟨h1, h2, h3, h4, h5⟩ := clauses (call.clauses P.rules (m.called.mapTerms m.bindings.deref)) _
      exact ⟨h1, h2, h3, h4, h5, .inr ⟨_, rfl⟩⟩
  | table hc hv hg => exact ⟨rfl, rfl, rfl, rfl, rfl, .inl rfl⟩
  | tableFull hg => exact ⟨rfl, rfl, rfl, rfl, rfl, .inr ⟨_, rfl⟩⟩
  | tableRefused hg => exact ⟨rfl, rfl, rfl, rfl, rfl, .inr ⟨_, rfl⟩⟩

theorem Control.Sound.call (hP : P.Compiled) (hargs : m.args.length = maxArguments) {env : Env}
    {ops : List Operation} {call : Call} {code : List Instruction} {n : Nat} {g : Registers}
    (h : Control.Sound P K m (.run env (ops.map .operation ++ .call call :: code)))
    (hg : Operation.runAll env.name n (m.registers env) ops = some (.ok (some g))) :
    ∃ inner fs, inner.length = env.depth ∧ Models P (env.setVars g.vars) code (inner ++ fs) ∧
      Awaits P (State.Only P m.standard K) call (m.load g).called (m.load g).bindings inner := by
  refine Control.Under.call hP (stable_only P m.standard K) hargs h.2 ?_ hg
  obtain ⟨-, inner, fs, -, hrun, -⟩ := h
  obtain ⟨r, θ, pattern, es, fs', hfs, -⟩ := hrun.call hP hargs
  rw [← hrun.length_eq, hfs]
  simp

theorem Env.depth_setVars (env : Env) (vars : List (Option Term)) :
    (env.setVars vars).depth = env.depth := by
  cases env <;> rfl

theorem Turn.sound_call (hP : P.Compiled) {env : Env} {ops : List Operation} {call : Call}
    {code : List Instruction} {n : Nat} {g : Registers} (hm : m.Sound P s K)
    (hc : Control.Sound P K m (.run env (ops.map .operation ++ .call call :: code)))
    (hs : s.Sound P)
    (hg : Operation.runAll env.name n (m.registers env) ops = some (.ok (some g)))
    (hcalls : Calls P (P.world st) (env.setVars g.vars) code call (m.load g) s p m' s')
    (hnum : m'.Numbered) : m'.Sound P s' K := by
  obtain ⟨inner, fs, hd, hmodels, haw⟩ := hc.call hP hm.args_length hg
  have hsizes := Operation.sizes_runAll hg
  obtain ⟨hs', hgrows⟩ := hcalls.session rfl hs
  have hargs : g.args.length = maxArguments := hsizes.args.trans hm.args_length
  have htemps : g.temps.length = maxTemporaries := hsizes.temps.trans hm.temps_length
  obtain ⟨new, hnew, hall⟩ := hcalls.under hargs hmodels haw (hs.answering _)
  obtain ⟨h1, h2, h3, h4, h5, h6⟩ := hcalls.registers
  refine (hm.grows hgrows).update hnum ((congrArg List.length h1).trans hargs)
    ((congrArg List.length h2).trans htemps) h3 h4 fun x hx => ?_
  rw [hnew] at hx
  rcases List.mem_append.1 hx with hx | hx
  · obtain ⟨henv, hfit, hunder, hans⟩ := hall x hx
    refine .inr ⟨hfit, ?_, fun he => absurd he (hans _ _)⟩
    rw [henv, Env.depth_setVars, ← hd]
    exact hunder
  · exact .inl hx

/-- Every turn is sound. -/
theorem Turn.sound (hP : P.Compiled) (h : Turn P st control m s p m' s') (hm : m.Sound P s K)
    (hc : control.Sound P K m) (hs : s.Sound P) :
    m'.Sound P s' K ∧ s'.Sound P ∧ s.Grows s' ∧ p.Sound P K m' := by
  obtain ⟨hnum, hbelow⟩ := h.numbered hm.numbered hc.fit.below
  cases h with
  | @leave i cl vars caller back commit _ _ _ hnoted =>
    have hfields : (m.left commit).stack = m.stack ∧ (m.left commit).args = m.args ∧
        (m.left commit).temps = m.temps ∧ (m.left commit).standard = m.standard ∧
        (m.left commit).suspended = m.suspended ∧ (m.left commit).bindings = m.bindings := by
      cases commit <;> exact ⟨rfl, rfl, rfl, rfl, rfl, rfl⟩
    obtain ⟨h1, h2, h3, h4, h5, h6⟩ := hfields
    refine ⟨(hm.grows hnoted.grows).update hnum (h2 ▸ hm.args_length) (h3 ▸ hm.temps_length) h4 h5
      fun c hc => .inl (h1 ▸ hc), hs.sameTables hnoted.sameTables, hnoted.grows, ?_⟩
    have := Control.Under.leave hP (stable_only P m.standard K) hc.2 h6
    unfold Progress.Sound Control.Sound
    rw [h4]
    exact ⟨hbelow, this⟩
  | @answer n _ _ _ t ht hnoted =>
    refine ⟨hm.grows hnoted.grows, hs.sameTables hnoted.sameTables, hnoted.grows, ?_⟩
    obtain ⟨-, inner, fs, hd, hrun, honly⟩ := hc
    obtain rfl : inner = [] := by simpa [Env.depth] using hd
    exact honly t ⟨m.bindings, n, .refl, ht⟩
  | @call env ops call code n g _ _ _ _ _ hg hcalls =>
    obtain ⟨hs', hgrows⟩ := hcalls.session rfl hs
    refine ⟨Turn.sound_call hP hm hc hs hg hcalls hnum, hs', hgrows, ?_⟩
    obtain ⟨-, -, -, -, -, rfl | ⟨e, rfl⟩⟩ := hcalls.registers
    · trivial
    · trivial
  | @builtinFails env ops f arity n k code g _ _ _ hg hf hnoted =>
    have hsizes := Operation.sizes_runAll hg
    exact ⟨(hm.grows hnoted.grows).update hnum (hsizes.args.trans hm.args_length)
      (hsizes.temps.trans hm.temps_length) rfl rfl fun c hc => .inl hc,
      hs.sameTables hnoted.sameTables, hnoted.grows, trivial⟩
  | @builtinStops env ops f arity n k code g _ _ e hg =>
    have hsizes := Operation.sizes_runAll hg
    exact ⟨hm.update hnum (hsizes.args.trans hm.args_length) (hsizes.temps.trans hm.temps_length) rfl rfl
      fun c hc => .inl hc, hs, .refl _, trivial⟩
  | @builtin env ops f arity n k code g b _ _ hg hf =>
    have hsizes := Operation.sizes_runAll hg
    refine ⟨hm.update hnum (hsizes.args.trans hm.args_length) (hsizes.temps.trans hm.temps_length) rfl rfl
      fun c hc => .inl hc, hs, .refl _, ?_⟩
    have hd : 0 < env.depth := by
      obtain ⟨-, inner, fs, -, hrun, -⟩ := hc
      obtain ⟨r, θ, pattern, es, fs', hfs, -⟩ := hrun.builtin hP hm.args_length
      rw [← hrun.length_eq, hfs]
      simp
    have := Control.Under.builtin hP (stable_only P m.standard K) hm.args_length hc.2 hd hg hf
    rw [← Env.depth_setVars env g.vars] at this
    exact ⟨hbelow, this⟩
  | empty hnil => exact ⟨hm, hs, .refl _, trivial⟩
  | spent hstack hspent hnoted =>
    exact ⟨(hm.popped hstack).grows hnoted.grows, hs.sameTables hnoted.sameTables, hnoted.grows,
      trivial⟩
  | @full c rest cl cls args ground _ _ e hstack halt =>
    exact ⟨hm.keep hnum hstack (halt ▸ .clause cl cls args ground) hm.args_length hm.temps_length rfl rfl
      rfl, hs, .refl _, trivial⟩
  | @refuse c rest cl cls args ground _ _ _ n g hstack halt henter hargs htemps hnoted =>
    refine ⟨Machine.Sound.grows ?_ hnoted.grows, hs.sameTables hnoted.sameTables, hnoted.grows,
      trivial⟩
    exact hm.keep hnum hstack (halt ▸ .clause cl cls args ground) hargs (htemps.trans hm.temps_length)
      rfl rfl rfl
  | @enter c rest cl cls args ground _ _ _ n g θ code hstack halt henter hargs htemps hrun hnoted =>
    refine ⟨Machine.Sound.grows ?_ hnoted.grows, hs.sameTables hnoted.sameTables, hnoted.grows, ?_⟩
    · exact hm.keep hnum hstack (halt ▸ .clause cl cls args ground) hargs (htemps.trans hm.temps_length)
        rfl rfl rfl
    · have hunder := (hm.stack c (by rw [hstack]; exact List.mem_cons_self)).under
      exact ⟨hbelow, hunder.enter halt henter (hrun _ rfl) rfl⟩
  | @missFact c rest goal fact facts _ _ n hstack halt hu =>
    exact ⟨hm.keep hnum hstack (halt ▸ .fact goal fact facts) hm.args_length hm.temps_length rfl rfl rfl,
      hs, .refl _, trivial⟩
  | @fact c rest goal fact facts _ _ _ n b hstack halt hu hnoted =>
    refine ⟨Machine.Sound.grows ?_ hnoted.grows, hs.sameTables hnoted.sameTables, hnoted.grows, ?_⟩
    · exact hm.keep hnum hstack (halt ▸ .fact goal fact facts) hm.args_length hm.temps_length rfl rfl rfl
    · have hunder := (hm.stack c (by rw [hstack]; exact List.mem_cons_self)).under
      exact ⟨hbelow, hunder.fact halt hu rfl⟩
  | @missAnswer c rest goal fact facts _ _ n hstack halt hu =>
    exact ⟨hm.keep hnum hstack (halt ▸ .answer goal fact facts) hm.args_length hm.temps_length rfl rfl
      rfl, hs, .refl _, trivial⟩
  | @storedAnswer c rest goal fact facts _ _ _ n b hstack halt hu hnoted =>
    refine ⟨Machine.Sound.grows ?_ hnoted.grows, hs.sameTables hnoted.sameTables, hnoted.grows, ?_⟩
    · exact hm.keep hnum hstack (halt ▸ .answer goal fact facts) hm.args_length hm.temps_length rfl rfl rfl
    · have hsound := hm.stack c (by rw [hstack]; exact List.mem_cons_self)
      exact hsound.answers halt fact List.mem_cons_self n _ b hu
  | @missResult c rest consumer goal t _ _ _ n hstack halt hread hu =>
    have hsame := s.sameTables_read consumer
    rw [hread] at hsame
    refine ⟨Machine.Sound.grows ?_ hsame.grows, hs.sameTables hsame, hsame.grows, trivial⟩
    exact hm.keep hnum hstack (halt ▸ .result consumer goal) hm.args_length hm.temps_length rfl rfl rfl
  | @result c rest consumer goal t _ _ _ n b hstack halt hread hu =>
    have hsame := s.sameTables_read consumer
    rw [hread] at hsame
    refine ⟨Machine.Sound.grows ?_ hsame.grows, hs.sameTables hsame, hsame.grows, ?_⟩
    · exact hm.keep hnum hstack (halt ▸ .result consumer goal) hm.args_length hm.temps_length rfl rfl rfl
    have hunder := (hm.stack c (by rw [hstack]; exact List.mem_cons_self)).under
    obtain ⟨k, gen, hk, hgen, ht, -⟩ := Session.of_read_result hread
    have hmem : t ∈ gen.results.toList := Array.mem_toList_iff.2 (Array.mem_of_getElem? ht)
    exact ⟨hbelow, hunder.result halt (fun key hreads => (hreads.goal_eq hk hgen).symm)
      (hs.results hgen hmem) hu rfl⟩
  | @exhausted c rest consumer goal _ _ _ hstack halt hread hnoted =>
    have hsame := (s.sameTables_removeConsumer consumer).trans hnoted.sameTables
    exact ⟨(hm.popped hstack).grows hsame.grows, hs.sameTables hsame, hsame.grows, trivial⟩
  | @park c rest consumer goal _ _ _ hstack halt hread hnoted =>
    have hsame := (s.sameTables_block m.owner consumer).trans hnoted.sameTables
    refine ⟨Machine.Sound.grows ?_ hsame.grows, hs.sameTables hsame, hsame.grows, trivial⟩
    have hpop := hm.popped hstack
    refine ⟨hpop.args_length, hpop.temps_length, hpop.stack, fun {x d} hd => ?_, hnum⟩
    change ((m.popped c rest).suspended.insert consumer c)[x]? = some d at hd
    rw [Std.TreeMap.getElem?_insert] at hd
    split at hd
    · cases hd
      exact hm.stack c (by rw [hstack]; exact List.mem_cons_self)
    · exact hm.suspended hd

end

end TabledRules
