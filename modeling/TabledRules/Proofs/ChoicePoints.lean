-- Where suspended consumers go on. For as long as a consumer waits, the machine
-- that it was made for keeps its choice point, whatever the rules are and
-- whatever fails.
import TabledRules.Proofs.Histories
import TabledRules.Proofs.Quiet

namespace TabledRules

/-! ## Machines and their choice points -/

/-- The id is one of the session's. -/
def Owner.Below (n : Nat) : Owner → Prop
  | .generator g => g < n
  | .query q => q < n

/-- Whoever the consumer is of, if it is there, it was made for `o`. -/
def Session.Gave (s : Session) (o : Owner) (c : Nat) : Prop :=
  c < s.nextId ∧ ∀ k : Consumer, s.consumers[c]? = some k → k.owner = o

/-- The machine of `o` has only consumers of its own, and the choice points of those that wait
are kept. -/
structure Machine.Held (o : Owner) (s : Session) (m : Machine) : Prop where
  owner : m.owner = o
  below : o.Below s.nextId
  pinned : m.pinned.choices ≤ m.choices
  reads : ∀ c ∈ m.readers, s.Gave o c
  suspended : ∀ {d : Nat} {x : Choice}, m.suspended[d]? = some x →
    x.id < m.pinned.choices ∧ ∀ c ∈ x.consumer?, s.Gave o c
  kept : ∀ {c : Nat} {k : Consumer}, s.consumers[c]? = some k → k.owner = o →
    k.suspended = true → ∃ x, m.suspended[c]? = some x

/-- All ids are used, the machines of generators are held, and only its own consumers wait for a
query. -/
structure Session.Held (s : Session) : Prop where
  consumer : ∀ {c : Nat} {k : Consumer}, s.consumers[c]? = some k →
    c < s.nextId ∧ k.owner.Below s.nextId
  generator : ∀ {g : Nat} {gen : Generator}, s.generators[g]? = some gen →
    g < s.nextId ∧ ∀ m ∈ gen.machine, m.Held (.generator g) s
  waiting : ∀ {q c : Nat} {ids : List Nat}, s.queries[q]? = some ids → c ∈ ids →
    s.Gave (.query q) c

theorem Owner.Below.mono {o : Owner} {n n' : Nat} (h : o.Below n) (hn : n ≤ n') : o.Below n' := by
  cases o with
  | generator g => exact Nat.lt_of_lt_of_le h hn
  | query q => exact Nat.lt_of_lt_of_le h hn

section

variable {X : Owner → Prop} {o : Owner} {s s' : Session} {m m' : Machine} {c : Nat}

theorem Session.Gave.later (h : s.Gave o c) (hl : s.Later X s') : s'.Gave o c := by
  refine ⟨Nat.lt_of_lt_of_le h.1 hl.nextId_le, fun k' hk' => ?_⟩
  rcases hl.consumer hk' with ⟨k, hk, e, -⟩ | ⟨hle, -⟩
  · exact e.trans (h.2 k hk)
  · exact absurd h.1 (Nat.not_lt.2 hle)

/-- A machine at rest stays held while others run. -/
theorem Machine.Held.later (h : m.Held o s) (hl : s.Later X s') (ho : ¬ X o) : m.Held o s' := by
  refine ⟨h.owner, h.below.mono hl.nextId_le, h.pinned, fun c hc => (h.reads c hc).later hl,
    fun hx => ?_, fun hc hk hs => ?_⟩
  · obtain ⟨hlt, hgave⟩ := h.suspended hx
    exact ⟨hlt, fun c hc => (hgave c hc).later hl⟩
  · rcases hl.consumer hc with ⟨k, hk', e, hs'⟩ | ⟨-, hs'⟩
    · have hko : k.owner = o := e.symm.trans hk
      rcases hs' hs with hs' | hx
      · exact h.kept hk' hko hs'
      · exact absurd (hko ▸ hx) ho
    · exact absurd (hk ▸ hs' hs) ho

theorem Session.Held.quiet (h : s.Held) (hq : s.Quiet s') : s'.Held := by
  have hl := hq.later fun _ => False
  refine ⟨fun hc => ?_, fun hg => ?_, fun hw hc => ?_⟩
  · obtain ⟨k, hk, e, -⟩ := hq.consumer hc
    obtain ⟨hlt, hbelow⟩ := h.consumer hk
    exact ⟨Nat.lt_of_lt_of_le hlt hq.nextId_le, e ▸ hbelow.mono hq.nextId_le⟩
  · obtain ⟨gen, hgen, hm⟩ := hq.generator hg
    obtain ⟨hlt, hheld⟩ := h.generator hgen
    refine ⟨Nat.lt_of_lt_of_le hlt hq.nextId_le, fun m hmem => ?_⟩
    rcases hm with hm | hm
    · exact (hheld m (hm ▸ hmem)).later hl fun h => h
    · rw [hm] at hmem
      cases hmem
  · obtain ⟨ids, hids, hmem⟩ := hq.waiting hw hc
    exact (h.waiting hids hmem).later hl

/-- The consumers of a machine whose choice points are the same are the same. -/
structure Machine.Eased (m m' : Machine) : Prop where
  owner : m'.owner = m.owner
  suspended : m'.suspended = m.suspended
  pinned : m'.pinned = m.pinned
  choices : m.pinned.choices ≤ m.choices → m.pinned.choices ≤ m'.choices
  readers : ∀ c ∈ m'.readers, c ∈ m.readers

theorem Machine.Eased.refl (m : Machine) : m.Eased m :=
  ⟨rfl, rfl, rfl, fun h => h, fun _ h => h⟩

theorem Machine.Eased.trans {m'' : Machine} (h : m.Eased m') (h' : m'.Eased m'') : m.Eased m'' :=
  ⟨h'.owner.trans h.owner, h'.suspended.trans h.suspended, h'.pinned.trans h.pinned,
    fun hm => h.pinned ▸ h'.choices (h.pinned ▸ h.choices hm),
    fun c hc => h.readers c (h'.readers c hc)⟩

theorem Machine.Held.eased (h : m.Held o s) (he : m.Eased m') : m'.Held o s := by
  refine ⟨he.owner.trans h.owner, h.below, ?_, fun c hc => h.reads c (he.readers c hc),
    fun hx => ?_, fun hc hk hs => ?_⟩
  · rw [he.pinned]
    exact he.choices h.pinned
  · rw [he.pinned]
    exact h.suspended (he.suspended ▸ hx)
  · rw [he.suspended]
    exact h.kept hc hk hs

end

/-! ## A machine that runs -/

/-- The machine of `o` runs: it is in no generator. -/
structure Machine.Active (o : Owner) (s : Session) (m : Machine) : Prop where
  held : m.Held o s
  session : s.Held
  out : ∀ {g : Nat} {gen : Generator}, s.generators[g]? = some gen → o = .generator g →
    gen.machine = none

/-- The machine of `o` has run on from `s`. -/
structure Machine.RunsOn (o : Owner) (s : Session) (m' : Machine) (s' : Session) : Prop where
  active : m'.Active o s'
  later : s.Later (· = o) s'

section

variable {o : Owner} {s s' s'' : Session} {m m' : Machine} {w : World} {n fuel : Nat}

theorem Machine.Active.refl (h : m.Active o s) : m.RunsOn o s s := ⟨h, .refl _ _⟩

theorem Machine.RunsOn.trans (h : m.RunsOn o s s') (h' : m'.RunsOn o s' s'') :
    m'.RunsOn o s s'' :=
  ⟨h'.active, h.later.trans h'.later⟩

theorem Machine.Active.quiet (h : m.Active o s) (hq : s.Quiet s') : m.RunsOn o s s' := by
  refine ⟨⟨h.held.later (hq.later fun _ => False) fun hx => hx, h.session.quiet hq,
    fun hg ho => ?_⟩, hq.later _⟩
  obtain ⟨gen, hgen, hm⟩ := hq.generator hg
  have hnone := h.out hgen ho
  exact hm.elim (·.trans hnone) fun hm => hm

theorem Machine.Active.eases (h : m.Active o s) (he : m.Eased m') (hq : s.Quiet s') :
    m'.RunsOn o s s' := by
  obtain ⟨ha, hl⟩ := h.quiet hq
  exact ⟨⟨ha.held.eased he, ha.session, ha.out⟩, hl⟩

/-- The session stays held if all that is new in it is. -/
theorem Machine.Active.of_later (h : m.Active o s) (hl : s.Later (· = o) s')
    (hm : m'.Held o s')
    (hc : ∀ {c : Nat} {k : Consumer}, s'.consumers[c]? = some k →
      c < s'.nextId ∧ k.owner.Below s'.nextId)
    (hg : ∀ {g : Nat} {gen' : Generator}, s'.generators[g]? = some gen' →
      (∃ gen : Generator, s.generators[g]? = some gen ∧ gen'.machine = gen.machine) ∨
        s.nextId ≤ g ∧ g < s'.nextId ∧ ∀ m ∈ gen'.machine, m.Held (.generator g) s')
    (hw : ∀ {q c : Nat} {ids' : List Nat}, s'.queries[q]? = some ids' → c ∈ ids' →
      (∃ ids : List Nat, s.queries[q]? = some ids ∧ c ∈ ids) ∨ s'.Gave (.query q) c) :
    m'.RunsOn o s s' := by
  refine ⟨⟨hm, ⟨hc, fun {g gen'} hgen' => ?_, fun hids hmem => ?_⟩, fun hgen' ho => ?_⟩, hl⟩
  · rcases hg hgen' with ⟨gen, hgen, e⟩ | ⟨-, hlt, hheld⟩
    · obtain ⟨hlt, hheld⟩ := h.session.generator hgen
      refine ⟨Nat.lt_of_lt_of_le hlt hl.nextId_le, fun m1 hm1 => ?_⟩
      refine (hheld m1 (e ▸ hm1)).later hl fun ho => ?_
      rw [e, h.out hgen ho.symm] at hm1
      cases hm1
    · exact ⟨hlt, hheld⟩
  · rcases hw hids hmem with ⟨ids, hids', hmem'⟩ | hgave
    · exact (h.session.waiting hids' hmem').later hl
    · exact hgave
  · rcases hg hgen' with ⟨gen, hgen, e⟩ | ⟨hle, -⟩
    · exact e.trans (h.out hgen ho)
    · have hbelow := h.held.below
      rw [ho] at hbelow
      exact absurd hbelow (Nat.not_lt.2 hle)

/-! ### Calls -/

theorem Machine.eased_pushed (env : Env) (code : List Instruction) (a : Alternatives)
    (m : Machine) (ha : ∀ c goal, a ≠ .results c goal) : m.Eased (m.pushed env code a) := by
  refine ⟨rfl, rfl, rfl, fun h => Nat.le_succ_of_le h, fun c hc => ?_⟩
  unfold Machine.readers at hc
  rw [show (m.pushed env code a).stack = ⟨m.choices, env, code, m.envs, m.bindings, a⟩ :: m.stack
    from rfl, List.filterMap_cons_none] at hc
  · exact hc
  · cases a with
    | results c goal => exact absurd rfl (ha c goal)
    | _ => rfl

theorem Machine.push_eased {env : Env} {code : List Instruction} {a : Alternatives}
    (h : m.push w env code a = .ok m') (ha : ∀ c goal, a ≠ .results c goal) : m.Eased m' := by
  rcases m.push_eq w env code a with ⟨e, he⟩ | hok
  · rw [he] at h
    cases h
  · rw [hok] at h
    cases h
    exact m.eased_pushed env code a ha

theorem callStore_eased (w : World) (n : Nat) (env : Env) (code : List Instruction)
    (m : Machine) (s : Session) : m.Eased (m.callStore w n env code s).2.1 := by
  unfold Machine.callStore
  split
  · exact .refl m
  · split
    · exact .refl m
    · unfold Machine.afterPush
      split
      · next hpush => exact Machine.push_eased hpush fun _ _ e => by cases e
      · exact .refl m

theorem callClauses_eased (w : World) (n : Nat) (env : Env) (code : List Instruction)
    (clauses : List Clause) (ground : Bool) (m : Machine) (s : Session) :
    m.Eased (m.callClauses w n env code clauses ground s).2.1 := by
  unfold Machine.callClauses
  split
  · exact callStore_eased w n env code m s
  · split
    · exact .refl m
    · next hpush =>
      exact (Machine.push_eased hpush fun _ _ e => by cases e).trans
        (callStore_eased w n env code _ s)

/-- A machine that has not called a table is held if no consumer is its owner's. -/
theorem Machine.Unused.held (h : m.Unused) (ho : m.owner = o) (hp : m.pinned = {})
    (hb : o.Below s.nextId)
    (hnone : ∀ {c : Nat} {k : Consumer}, s.consumers[c]? = some k → k.owner ≠ o) :
    m.Held o s := by
  refine ⟨ho, hb, ?_, fun c hc => ?_, fun hx => ?_, fun hc hk => absurd hk (hnone hc)⟩
  · rw [hp]
    exact Nat.zero_le _
  · rw [h.1] at hc
    cases hc
  · rw [h.2] at hx
    cases hx.symm.trans Std.TreeMap.getElem?_emptyc

theorem blank_held {goal : Triple} (h : Machine.blank w goal o = .ok m) (hb : o.Below s.nextId)
    (hnone : ∀ {c : Nat} {k : Consumer}, s.consumers[c]? = some k → k.owner ≠ o) :
    m.Held o s := by
  have h : Machine.blank (Program.world ⟨⟨[]⟩, w.rules, w.store⟩ w.settings) goal o = .ok m := h
  obtain ⟨-, -, hstack, hsusp, -, -, howner, -, hpinned, -⟩ := blank_eq h
  refine Machine.Unused.held ⟨?_, hsusp⟩ howner hpinned hb hnone
  unfold Machine.readers
  rw [hstack]
  rfl

theorem start_held {goal : Triple} (h : Machine.start w goal o = .ok m) (hb : o.Below s.nextId)
    (hnone : ∀ {c : Nat} {k : Consumer}, s.consumers[c]? = some k → k.owner ≠ o) :
    m.Held o s := by
  have h : Machine.start (Program.world ⟨⟨[]⟩, w.rules, w.store⟩ w.settings) goal o = .ok m := h
  obtain ⟨hunused, howner⟩ := start_unused h
  obtain ⟨m0, h0, rfl⟩ := start_eq h
  have hpinned : m0.pinned = {} := (blank_eq h0).2.2.2.2.2.2.2.2.1
  refine hunused.held howner ?_ hb hnone
  change (Machine.pushedClauses _ _ _ _ m0).pinned = {}
  unfold Machine.pushedClauses
  split <;> exact hpinned

theorem Machine.Active.generatorFor (h : m.Active o s) {goal : Triple} {x : Except Failure Nat}
    (hf : s.generatorFor w goal = (x, s')) : m.RunsOn o s s' := by
  rcases generatorFor_cases hf with ⟨g, gen, -, -, rfl⟩ | ⟨-, e, -, rfl⟩ | ⟨m1, -, hm1, -, rfl⟩
  · exact h.refl
  · exact h.quiet (.of_fields (Nat.le_succ _) rfl rfl rfl)
  · have hl : ∀ X, s.Later X (s.withGenerator goal.variantKey m1) := fun X =>
      ⟨Nat.le_succ _, fun hc => .inl ⟨_, hc, rfl, .inl⟩⟩
    refine h.of_later (hl _) (h.held.later (hl fun _ => False) fun hx => hx) (fun hc => ?_)
      (fun {g gen'} hgen' => ?_) fun hids hmem => .inl ⟨_, hids, hmem⟩
    · obtain ⟨hlt, hbelow⟩ := h.session.consumer hc
      exact ⟨Nat.lt_succ_of_lt hlt, hbelow.mono (Nat.le_succ _)⟩
    · rw [generators_withGenerator] at hgen'
      split at hgen'
      · next e =>
        cases hgen'
        subst e
        refine .inr ⟨Nat.le_refl _, Nat.lt_succ_self _, fun m2 hm2 => ?_⟩
        cases hm2
        refine start_held hm1 (Nat.lt_succ_self _) fun hc ho => ?_
        have hbelow := (h.session.consumer hc).2
        rw [ho] at hbelow
        exact Nat.lt_irrefl _ hbelow
      · exact .inl ⟨gen', hgen', rfl⟩

theorem Machine.Active.addConsumer (h : m.Active o s) (g : Nat) :
    m.RunsOn o s (s.addConsumer g o).2 ∧ (s.addConsumer g o).2.Gave o (s.addConsumer g o).1 := by
  have hl : ∀ X, s.Later X (s.addConsumer g o).2 := by
    intro X
    refine ⟨Nat.le_succ _, fun {c k'} hc => ?_⟩
    rw [consumers_addConsumer] at hc
    split at hc
    · next e =>
      cases hc
      exact .inr ⟨Nat.le_of_eq e, fun hs => by cases hs⟩
    · exact .inl ⟨k', hc, rfl, .inl⟩
  refine ⟨h.of_later (hl _) (h.held.later (hl fun _ => False) fun hx => hx) (fun hc => ?_)
    (fun {g' gen'} hgen' => ?_) fun hids hmem => .inl ⟨_, hids, hmem⟩, Nat.lt_succ_self _,
    fun k hk => ?_⟩
  · rw [consumers_addConsumer] at hc
    split at hc
    · next e =>
      cases hc
      subst e
      exact ⟨Nat.lt_succ_self _, h.held.below.mono (Nat.le_succ _)⟩
    · obtain ⟨hlt, hbelow⟩ := h.session.consumer hc
      exact ⟨Nat.lt_succ_of_lt hlt, hbelow.mono (Nat.le_succ _)⟩
  · rw [generators_addConsumer] at hgen'
    split at hgen'
    · next e =>
      obtain ⟨gen, hgen, rfl⟩ := Option.map_eq_some_iff.1 hgen'
      exact .inl ⟨gen, e ▸ hgen, rfl⟩
    · exact .inl ⟨gen', hgen', rfl⟩
  · rw [show (s.addConsumer g o).1 = s.nextId from rfl, consumers_addConsumer, if_pos rfl] at hk
    cases hk
    rfl

/-- The machine gets a choice point for one of its consumers. -/
theorem Machine.Held.reading (h : m.Held o s) {c : Nat} (hc : s.Gave o c) (ho : m'.owner = m.owner)
    (hs : m'.suspended = m.suspended) (hp : m'.pinned = m.pinned) (hle : m.choices ≤ m'.choices)
    (hr : m'.readers = c :: m.readers) : m'.Held o s := by
  refine ⟨ho.trans h.owner, h.below, ?_, fun d hd => ?_, fun hx => ?_, fun hd hk hw => ?_⟩
  · rw [hp]
    exact Nat.le_trans h.pinned hle
  · rw [hr] at hd
    rcases List.mem_cons.1 hd with rfl | hd
    · exact hc
    · exact h.reads d hd
  · rw [hp]
    exact h.suspended (hs ▸ hx)
  · rw [hs]
    exact h.kept hd hk hw

theorem callTable_active (h : m.Active o s) (env : Env) (code : List Instruction) (goal : Triple) :
    (m.callTable w env code goal s).2.1.RunsOn o s (m.callTable w env code goal s).2.2 := by
  unfold Machine.callTable
  split
  · next hf => exact h.generatorFor hf
  · next g s1 hf =>
    have h1 := h.generatorFor hf
    have howner : m.owner = o := h.held.owner
    obtain ⟨h2, hgave⟩ := h1.active.addConsumer g
    rw [howner]
    simp only [Machine.afterPush]
    split
    · next hpush =>
      rcases m.push_eq w env code (.results (s1.addConsumer g o).1 m.called) with ⟨e, he⟩ | hok
      · rw [he] at hpush
        cases hpush
      · rw [hok] at hpush
        cases hpush
        refine h1.trans ⟨⟨?_, h2.active.session, h2.active.out⟩, h2.later⟩
        exact h2.active.held.reading hgave rfl rfl rfl (Nat.le_succ _) (readers_results _ rfl)
    · exact h1.trans h2

theorem call_active (h : m.Active o s) (env : Env) (code : List Instruction) (c : Call) :
    (m.call w n env code s c).2.1.RunsOn o s (m.call w n env code s c).2.2 := by
  unfold Machine.call
  simp only
  split
  · split
    · exact h.refl
    · exact callTable_active h env code _
  · split
    · exact h.refl
    · rw [callClauses_session]
      exact h.eases (callClauses_eased w n env code _ _ m s) (.refl s)

/-! ### Instructions and choice points -/

theorem execute_active (h : m.Active o s) (env : Env) (code : List Instruction)
    (i : Instruction) :
    (m.execute w n env code s i).2.1.RunsOn o s (m.execute w n env code s i).2.2 := by
  cases i with
  | call c => exact call_active h env code c
  | operation op =>
    simp only [Machine.execute, Machine.operate]
    split
    · exact h.refl
    · exact h.refl
    · exact h.quiet (s.quiet_note _)
    · exact h.eases ⟨rfl, rfl, rfl, fun h => h, fun _ h => h⟩ (.refl s)
  | builtin f arity =>
    simp only [Machine.execute, Machine.callBuiltin]
    split
    · exact h.refl
    · split
      · exact h.refl
      · exact h.refl
      · exact h.quiet ((s.quiet_note _).trans (Session.quiet_note _ _))
      · exact h.eases ⟨rfl, rfl, rfl, fun h => h, fun _ h => h⟩ (.refl s)
  | proceed =>
    have hleft := h.quiet (s.quiet_note (.clauseLeft env.name))
    simp only [Machine.execute, Machine.proceed]
    split
    · split <;> exact hleft
    · exact hleft
    · exact h.eases ⟨rfl, rfl, rfl, fun h => h, fun _ h => h⟩ (s.quiet_note _)

/-- A choice point at which no consumer reads is put back. -/
theorem Machine.eased_keep (c : Choice) (a : Alternatives) (m : Machine)
    (ha : ∀ d goal, a ≠ .results d goal) : m.Eased (m.keep c a) := by
  refine ⟨rfl, rfl, rfl, fun h => h, fun d hd => ?_⟩
  unfold Machine.readers at hd
  rw [show (m.keep c a).stack = { c with alternatives := a } :: m.stack from rfl,
    List.filterMap_cons_none] at hd
  · exact hd
  · cases a with
    | results d goal => exact absurd rfl (ha d goal)
    | _ => rfl

theorem tryTriple_eased (n : Nat) (c : Choice) (goal t : Triple) (m : Machine)
    (s found : Session) : m.Eased (m.tryTriple n c goal t s found).2.1 := by
  unfold Machine.tryTriple
  split
  · exact .refl m
  · exact .refl m
  · exact ⟨rfl, rfl, rfl, fun h => h, fun _ h => h⟩

theorem enterClause_active (h : m.Active o s) (c : Choice) (clause : Clause) (args : List Term)
    (ground : Bool) : (m.enterClause w c clause args ground s).2.1.RunsOn o s
      (m.enterClause w c clause args ground s).2.2 := by
  unfold Machine.enterClause Machine.enterEnv
  simp only
  split
  · exact h.refl
  · next m1 hm1 =>
    split at hm1
    · cases hm1
    · cases hm1
      refine h.eases ⟨rfl, rfl, rfl, fun h => h, fun _ h => h⟩ ?_
      cases w.settings.profile <;> exact Session.Noted.quiet ⟨_, _, rfl⟩

theorem tryAnswer_active (h : m.Active o s) (goal fact : Triple) :
    (m.tryAnswer n goal fact s).2.1.RunsOn o s (m.tryAnswer n goal fact s).2.2 := by
  unfold Machine.tryAnswer
  split
  · exact h.refl
  · exact h.refl
  · exact h.quiet (s.quiet_note _)

/-- A consumer waits from now on, and its choice point is kept. -/
theorem suspend_active (h : m.Active o s) {c : Choice} {d : Nat} (hid : c.id < m.choices)
    (hc : c.consumer? = some d) (hd : s.Gave o d) :
    (m.suspend c d s).2.1.RunsOn o s (m.suspend c d s).2.2 := by
  have howner : m.owner = o := h.held.owner
  have hl : s.Later (· = o) (s.block o d) := Session.later_block hd.2
  have hm : (Machine.pin { m with suspended := m.suspended.insert d c }).Held o (s.block o d) := by
    refine ⟨howner, h.held.below.mono hl.nextId_le, Nat.le_refl _,
      fun e he => (h.held.reads e he).later hl, fun {e x} hx => ?_, fun {e k} hk ho hs => ?_⟩
    · change (m.suspended.insert d c)[e]? = some x at hx
      rw [Std.TreeMap.getElem?_insert] at hx
      split at hx
      · cases hx
        refine ⟨hid, fun e he => ?_⟩
        rw [hc] at he
        cases he
        exact hd.later hl
      · obtain ⟨hlt, hgave⟩ := h.held.suspended hx
        exact ⟨Nat.lt_of_lt_of_le hlt h.held.pinned, fun e he => (hgave e he).later hl⟩
    · change ∃ x, (m.suspended.insert d c)[e]? = some x
      rw [Std.TreeMap.getElem?_insert]
      split
      · exact ⟨c, rfl⟩
      · next hne =>
        rw [Session.consumers_block, if_neg fun e => hne (by simp [e])] at hk
        exact h.held.kept hk ho hs
  have hblocked : (Machine.pin { m with suspended := m.suspended.insert d c }).RunsOn o s
      (s.block o d) := by
    refine h.of_later hl hm (fun {e k} hk => ?_) (fun hg => .inl (Session.generator_block hg))
      fun {q e ids'} hids hmem => ?_
    · rcases hl.consumer hk with ⟨k1, hk1, e1, -⟩ | ⟨hle, -⟩
      · obtain ⟨hlt, hbelow⟩ := h.session.consumer hk1
        exact ⟨Nat.lt_of_lt_of_le hlt hl.nextId_le, e1 ▸ hbelow.mono hl.nextId_le⟩
      · rw [Session.consumers_block] at hk
        split at hk
        · next e1 =>
          obtain ⟨k1, hk1, -⟩ := Option.map_eq_some_iff.1 hk
          exact absurd (e1 ▸ (h.session.consumer hk1).1) (Nat.not_lt.2 hle)
        · exact absurd (h.session.consumer hk).1 (Nat.not_lt.2 hle)
    · rcases Session.waiting_block hids hmem with hold | ⟨rfl, rfl⟩
      · exact .inl hold
      · exact .inr (hd.later hl)
  unfold Machine.suspend
  simp only [Machine.leave]
  rw [show (Machine.pin { m with suspended := m.suspended.insert d c }).owner = o from howner]
  exact hblocked.trans (hblocked.active.quiet (Session.quiet_note _ _))

theorem tryResult_active (h : m.Active o s) {c : Choice} {d : Nat} {goal : Triple}
    (hid : c.id < m.choices) (hc : c.alternatives = .results d goal) (hd : s.Gave o d) :
    (m.tryResult n c d goal s).2.1.RunsOn o s (m.tryResult n c d goal s).2.2 := by
  have hconsumer : c.consumer? = some d := by
    unfold Choice.consumer?
    rw [hc]
  have hread := s.quiet_read d
  unfold Machine.tryResult
  split
  · next t s1 hr =>
    rw [hr] at hread
    have h1 := h.quiet hread
    have hkeep : (m.keep c (.results d goal)).Held o s1 :=
      h1.active.held.reading (hd.later h1.later) rfl rfl rfl (Nat.le_refl _)
        (readers_results _ rfl)
    have hsession : ((m.keep c (.results d goal)).tryTriple n c goal t s1 s1).2.2 = s1 := by
      rcases tryTriple_session n c goal t (m.keep c (.results d goal)) s1 s1 with e | e <;> exact e
    rw [hsession]
    exact ⟨⟨hkeep.eased (tryTriple_eased n c goal t _ s1 s1), h1.active.session, h1.active.out⟩,
      h1.later⟩
  · next s1 hr =>
    rw [hr] at hread
    exact h.quiet ((hread.trans (s1.quiet_removeConsumer d)).trans (Session.quiet_note _ _))
  · next s1 hr =>
    rw [hr] at hread
    have h1 := h.quiet hread
    exact h1.trans (suspend_active h1.active hid hconsumer (hd.later h1.later))

theorem retry_active (h : m.Active o s) {c : Choice} (hid : c.id < m.choices)
    (hc : ∀ d ∈ c.consumer?, s.Gave o d) :
    (m.retry w n c s).2.1.RunsOn o s (m.retry w n c s).2.2 := by
  unfold Machine.retry
  split
  · exact h.quiet (s.quiet_note _)
  · split
    · exact h.quiet (s.quiet_note _)
    · next clause rest args ground _ _ =>
      have h1 := h.eases (m.eased_keep c (.clauses rest args ground) fun _ _ e => by cases e)
        (.refl s)
      exact h1.trans (enterClause_active h1.active c clause args ground)
  · exact h.quiet (s.quiet_note _)
  · next goal fact rest _ =>
    have h1 := m.eased_keep c (.facts goal rest) fun _ _ e => by cases e
    refine h.eases (h1.trans (tryTriple_eased n c goal fact _ s _)) ?_
    rcases tryTriple_session n c goal fact (m.keep c (.facts goal rest)) s
      (s.note (.factMatched fact)) with e | e <;> rw [e]
    · exact .refl s
    · exact s.quiet_note _
  · exact h.quiet (s.quiet_note _)
  · next goal fact rest _ =>
    have h1 := h.eases (m.eased_keep c (.answers goal rest) fun _ _ e => by cases e) (.refl s)
    exact h1.trans (tryAnswer_active h1.active goal fact)
  · next d goal ha =>
    refine tryResult_active h hid ha (hc d ?_)
    unfold Choice.consumer?
    rw [ha]
    rfl

/-- A machine that runs keeps the choice points of its consumers. -/
theorem step_active (h : m.Active o s) (control : Control) :
    (m.step w n control s).2.1.RunsOn o s (m.step w n control s).2.2 := by
  unfold Machine.step
  split
  · split
    · exact h.refl
    · next c rest hstack =>
      split
      · exact h.refl
      · next hlt =>
        have hpopped : m.Eased { m.rewind c with stack := rest } := by
          refine ⟨rfl, rfl, rfl, fun hle => Nat.le_min.2 ⟨hle, Nat.le_max_right _ _⟩,
            fun d hd => ?_⟩
          unfold Machine.readers at hd ⊢
          rw [hstack, List.filterMap_cons]
          split
          · exact hd
          · exact List.mem_cons_of_mem _ hd
        have h1 := h.eases hpopped (.refl s)
        refine h1.trans (retry_active h1.active ?_ fun d hd => h.held.reads d ?_)
        · exact Nat.lt_min.2 ⟨Nat.lt_of_not_le hlt, Nat.lt_of_lt_of_le (Nat.lt_succ_self _)
            (Nat.le_max_left _ _)⟩
        · unfold Machine.readers
          rw [hstack, List.filterMap_cons_some hd]
          exact List.mem_cons_self
  · split
    · exact h.refl
    · split
      · exact h.refl
      · exact execute_active h _ _ _

theorem run_active (h : m.Active o s) {control : Control}
    {x : Except Failure (Option Triple)}
    (hrun : Machine.run w fuel control m s = some (x, m', s')) : m'.RunsOn o s s' := by
  induction fuel generalizing control m s with
  | zero => cases hrun
  | succ fuel ih =>
    have hstep := step_active h (w := w) (n := fuel) control
    rcases he : m.step w fuel control s with ⟨p, m1, s1⟩
    rw [he] at hstep
    rcases run_of_step he hrun with ⟨rfl, rfl, rfl⟩ | ⟨control1, rfl, hrun⟩
    · exact hstep
    · exact hstep.trans (ih hstep.active hrun)

theorem next_active (h : m.Active o s) {x : Except Failure (Option Triple)}
    (hnext : m.next w fuel s = some (x, m', s')) : m'.RunsOn o s s' := by
  unfold Machine.next at hnext
  split at hnext
  · next hrun =>
    cases hnext
    have h1 := run_active h hrun
    exact h1.trans (h1.active.quiet (Session.quiet_note _ _))
  · exact run_active h hnext

/-! ### Consumers that go on -/

/-- The consumer waits for the machine of `o`. -/
def Session.Waits (s : Session) (o : Owner) (c : Nat) : Prop :=
  ∃ k : Consumer, s.consumers[c]? = some k ∧ k.owner = o ∧ k.suspended = true

theorem Session.Waits.isSome {c : Nat} (h : s.Waits o c) : (s.consumers[c]?).isSome = true := by
  obtain ⟨k, hk, -⟩ := h
  rw [hk]
  rfl

/-- The choice point of a consumer that waits is kept. -/
theorem Machine.Held.waiting (h : m.Held o s) {c : Nat} (hc : s.Waits o c) :
    ∃ x, m.suspended[c]? = some x ∧ x.id < m.discard.choices := by
  obtain ⟨k, hk, ho, hs⟩ := hc
  obtain ⟨x, hx⟩ := h.kept hk ho hs
  exact ⟨x, hx, Nat.lt_min.2
    ⟨Nat.lt_of_lt_of_le (h.suspended hx).1 h.pinned, (h.suspended hx).1⟩⟩

theorem restore_active (h : m.Active o s) {c : Nat} {x : Except Failure Unit}
    (hr : m.restore c s = (x, m', s')) : m'.RunsOn o s s' := by
  have hq : s.Quiet (s.modifyConsumer c fun k => { k with suspended := false }) :=
    s.quiet_modifyConsumer c fun _ => ⟨rfl, fun h => by cases h⟩
  have hdiscard : m.Eased m.discard :=
    ⟨rfl, rfl, rfl, fun hle => Nat.le_min.2 ⟨hle, Nat.le_refl _⟩, fun _ h => h⟩
  rcases restore_cases hr with ⟨e, -, rfl, rfl⟩ | ⟨e, -, -, rfl, rfl⟩ | ⟨y, -, -, hy, rfl, rfl⟩
  · exact h.refl
  · exact h.eases hdiscard hq
  · have h1 := (h.eases hdiscard (hq.trans (Session.quiet_note _ (.consumerRestored c m.goal))))
    refine ⟨⟨⟨h1.active.held.owner, h1.active.held.below, h1.active.held.pinned, fun d hd => ?_,
      fun hx => ?_, fun {d k} hk ho hs => ?_⟩, h1.active.session, h1.active.out⟩, h1.later⟩
    · obtain ⟨z, hz, hread⟩ := List.mem_filterMap.1 hd
      obtain rfl := List.mem_singleton.1 hz
      exact ((h.held.suspended hy).2 d hread).later h1.later
    · exact h1.active.held.suspended (Machine.suspended_restored hx).2
    · obtain ⟨z, hz⟩ := h1.active.held.kept hk ho hs
      refine ⟨z, ?_⟩
      change (m.suspended.erase c)[d]? = some z
      rw [Std.TreeMap.getElem?_erase, if_neg]
      · exact hz
      · intro e
        rw [Std.LawfulEqCmp.compare_eq_iff_eq] at e
        subst e
        change (s.modifyConsumer c fun k => { k with suspended := false }).consumers[c]? =
          some k at hk
        rw [Session.consumers_modifyConsumer, if_pos rfl] at hk
        obtain ⟨k1, -, rfl⟩ := Option.map_eq_some_iff.1 hk
        cases hs

end

/-! ## Runs of generators and queries -/

section

variable {o : Owner} {s s' : Session} {m m' : Machine} {w : World} {fuel g q : Nat}

theorem collect_active (h : m.Active o s) {added n : Nat} {x : Except Failure Bool}
    (hc : Session.collect w g fuel added m s = some (x, n, m', s')) : m'.RunsOn o s s' := by
  induction fuel generalizing added m s with
  | zero => cases hc
  | succ fuel ih =>
    rw [Session.collect] at hc
    split at hc
    · cases hc
    · next hnext =>
      cases hc
      exact next_active h hnext
    · next hnext =>
      cases hc
      exact next_active h hnext
    · next t m1 s1 hnext =>
      have h1 := next_active h hnext
      split at hc
      · cases hc
        exact h1
      · split at hc
        · have h2 := h1.trans (h1.active.quiet (s1.quiet_modifyGenerator g
            (f := fun gen => { gen with results := gen.results.push t }) fun _ => .inl rfl))
          simp only at hc
          split at hc
          · cases hc
            exact h2
          · exact h2.trans (ih h2.active hc)
        · exact h1.trans (ih h1.active hc)

/-- The session is held, and only machines with an owner of `X` have run. -/
structure Session.Goes (X : Owner → Prop) (s s' : Session) : Prop where
  held : s'.Held
  later : s.Later X s'

theorem Session.Goes.trans {X : Owner → Prop} {s'' : Session} (h : s.Goes X s')
    (h' : s'.Goes X s'') : s.Goes X s'' :=
  ⟨h'.held, h.later.trans h'.later⟩

theorem Session.Held.goes (h : s.Held) (hq : s.Quiet s') (X : Owner → Prop) : s.Goes X s' :=
  ⟨h.quiet hq, hq.later X⟩

/-- The machine of a generator is put back. -/
theorem Machine.Active.endPump (h : m.Active (.generator g) s) (added : Nat) :
    s.Goes (· = .generator g) (s.endPump g added m) := by
  unfold Session.endPump
  split
  · exact ⟨h.session, .refl _ s⟩
  · have hl : ∀ X, s.Later X (s.modifyGenerator g fun gen => { gen with machine := some m }) :=
      fun X => ⟨Nat.le_refl _, fun hc => .inl ⟨_, hc, rfl, .inl⟩⟩
    have hback : (s.modifyGenerator g fun gen => { gen with machine := some m }).Held := by
      refine ⟨fun hc => h.session.consumer hc, fun {g' gen'} hg => ?_,
        fun hids hc => (h.session.waiting hids hc).later (hl fun _ => False)⟩
      rw [Session.generators_modifyGenerator] at hg
      split at hg
      · next e =>
        subst e
        obtain ⟨gen, hgen, rfl⟩ := Option.map_eq_some_iff.1 hg
        refine ⟨(h.session.generator hgen).1, fun m1 hm1 => ?_⟩
        cases hm1
        exact h.held.later (hl fun _ => False) fun hx => hx
      · obtain ⟨hlt, hm⟩ := h.session.generator hg
        exact ⟨hlt, fun m1 hm1 => (hm m1 hm1).later (hl fun _ => False) fun hx => hx⟩
    exact ⟨hback.quiet (Session.quiet_note _ _),
      (hl _).trans ((Session.quiet_note _ _).later _)⟩

theorem Session.quiet_settle (s : Session) (g : Nat) (finished : Bool) (added : Nat) :
    s.Quiet (s.settle g finished added) := by
  unfold Session.settle
  split
  · exact s.quiet_complete _ g
  · split
    · exact .refl s
    · exact s.quiet_wakeReaders g

theorem resumed_active (h : m.Active o s) {resume : Option Nat} {x : Except Failure Unit}
    (hr : m.resumed resume s = (x, m', s')) : m'.RunsOn o s s' := by
  cases resume with
  | none =>
    cases hr
    exact h.refl
  | some c => exact restore_active h hr

theorem pumpMachine_goes (h : m.Active (.generator g) s) {resume : Option Nat}
    {x : Except Failure Unit} (hp : s.pumpMachine w fuel g resume m = some (x, s')) :
    s.Goes (· = .generator g) s' := by
  rw [pumpMachine_eq] at hp
  split at hp
  · next hr =>
    have h1 := resumed_active h hr
    have h2 := h1.active.endPump 0
    cases hp
    exact ⟨h2.held, h1.later.trans h2.later⟩
  · next hr =>
    have h1 := resumed_active h hr
    split at hp
    · cases hp
    · next added m2 s2 hc =>
      have h2 := h1.trans (collect_active h1.active hc)
      have h3 := h2.active.endPump added
      cases hp
      exact ⟨h3.held, h2.later.trans h3.later⟩
    · next finished added m2 s2 hc =>
      have h2 := h1.trans (collect_active h1.active hc)
      have h3 := h2.active.endPump added
      cases hp
      exact Session.Goes.trans ⟨h3.held, h2.later.trans h3.later⟩
        (h3.held.goes (Session.quiet_settle _ g finished added) _)

/-- The machine that a pump runs. -/
theorem Session.Held.active (h : s.Held) {gen : Generator} (hgen : s.generators[g]? = some gen)
    (hm : gen.machine = some m) (resume : Option Nat) :
    m.Active (.generator g)
      ((s.prepared g resume).modifyGenerator g fun gen => { gen with machine := none }) := by
  have hq : s.Quiet ((s.prepared g resume).modifyGenerator g
      fun gen => { gen with machine := none }) :=
    (s.quiet_prepared g resume).trans (Session.quiet_modifyGenerator _ g fun _ => .inr rfl)
  refine ⟨((h.generator hgen).2 m hm).later (hq.later fun _ => False) fun hx => hx, h.quiet hq,
    fun {g' gen'} hg ho => ?_⟩
  cases ho
  rw [Session.generators_modifyGenerator, if_pos rfl] at hg
  obtain ⟨gen', -, rfl⟩ := Option.map_eq_some_iff.1 hg
  rfl

theorem pump_goes (h : s.Held) {resume : Option Nat} {x : Except Failure Unit}
    (hp : s.pump w fuel g resume = some (x, s')) : s.Goes (· = .generator g) s' := by
  rw [pump_eq] at hp
  split at hp
  · cases hp
    exact ⟨h, .refl _ s⟩
  · next gen hgen =>
    split at hp
    · cases hp
      exact ⟨h, .refl _ s⟩
    · split at hp
      · cases hp
        exact h.goes (s.quiet_prepared g resume) _
      · next m hm =>
        obtain ⟨h1, h2⟩ := pumpMachine_goes (h.active hgen hm resume) hp
        refine ⟨h1, Session.Later.trans ?_ h2⟩
        exact ((s.quiet_prepared g resume).trans
          (Session.quiet_modifyGenerator _ g fun _ => .inr rfl)).later _

/-- Generators run for the query, and its own machine. -/
def Owner.For (q : Nat) (o : Owner) : Prop := ∀ q', o = .query q' → q' = q

theorem Session.quiet_endBatch (size : Nat) (batch : List Nat) (s : Session) :
    s.Quiet (s.endBatch size batch).2 := by
  unfold Session.endBatch
  split
  · exact s.quiet_checkCompletion batch
  · exact .refl s

/-- Only generators run while tasks are taken from the agenda. -/
theorem runAgenda_goes (h : s.Held) {batch : List Nat} {x : Except Failure Unit}
    (hr : s.runAgenda w q fuel batch = some (x, s')) :
    s.Goes (fun o => ∃ g, o = .generator g) s' := by
  induction fuel generalizing batch s with
  | zero => cases hr
  | succ fuel ih =>
    rw [Session.runAgenda] at hr
    split at hr
    · next task agenda hready hpop =>
      have htake : s.Quiet (({ s with agenda } : Session).takeUp task).2 :=
        (s.quiet_agenda agenda).trans (Session.quiet_takeUp _ task)
      split at hr
      · next hnone =>
        rw [hnone] at htake
        have h1 := h.goes htake fun o => ∃ g, o = .generator g
        exact h1.trans (ih h1.held hr)
      · next g resume s1 hsome =>
        rw [hsome] at htake
        have h1 := h.goes htake fun o => ∃ g, o = .generator g
        split at hr
        · cases hr
        · next hpump =>
          obtain ⟨h2, h3⟩ := pump_goes h1.held hpump
          cases hr
          exact h1.trans ⟨h2, h3.mono fun o ho => ⟨g, ho⟩⟩
        · next s2 hpump =>
          obtain ⟨h2, h3⟩ := pump_goes h1.held hpump
          have h4 := h1.trans ⟨h2, h3.mono fun o ho => ⟨g, ho⟩⟩
          have h5 := h4.trans (h4.held.goes (Session.quiet_endBatch
            (max w.settings.completionCycles 1) (batch ++ [g]) s2) _)
          exact h5.trans (ih h5.held hr)
    · cases hr
      split
      · exact ⟨h, .refl _ s⟩
      · exact h.goes (s.quiet_checkCompletion batch) _

theorem Machine.Active.runAgenda (h : m.Active (.query q) s) {batch : List Nat}
    {x : Except Failure Unit} (hr : s.runAgenda w q fuel batch = some (x, s')) :
    m.Active (.query q) s' ∧ s.Goes (Owner.For q) s' := by
  obtain ⟨h1, h2⟩ := runAgenda_goes h.session hr
  refine ⟨⟨h.held.later h2 fun ⟨_, hx⟩ => (by cases hx), h1, fun _ ho => (by cases ho)⟩, h1,
    h2.mono fun o ⟨g, ho⟩ q' ho' => ?_⟩
  rw [ho] at ho'
  cases ho'

theorem Machine.RunsOn.goes (h : m.RunsOn (.query q) s s') : s.Goes (Owner.For q) s' :=
  ⟨h.active.session, h.later.mono fun o ho q' ho' => by
    rw [ho] at ho'
    cases ho'
    rfl⟩

/-- The consumer that a query goes on with waits for it. -/
theorem Session.Held.takeReady (h : s.Held) {c : Nat} (htake : s.takeReady q = some (c, s')) :
    s'.Waits (.query q) c := by
  unfold Session.takeReady at htake
  obtain ⟨c', hfind, e⟩ := Option.map_eq_some_iff.1 htake
  cases e
  obtain ⟨k, hk, hs, -⟩ := Session.isReady_iff.1 (List.find?_some hfind)
  have hmem := List.mem_of_find?_eq_some hfind
  unfold Session.blocked at hmem
  rw [Std.TreeMap.getD_eq_getD_getElem?] at hmem
  cases hids : s.queries[q]? with
  | none =>
    rw [hids] at hmem
    cases hmem
  | some ids =>
    rw [hids] at hmem
    exact ⟨k, hk, (h.waiting hids hmem).2 k hk, hs⟩

/-- To look for the next answer of a query, and to wait for one of its consumers. -/
theorem search_goes {x : Except Failure (Option Triple)} (h : m.Active (.query q) s) :
    (s.advance w q fuel m = some (x, m', s') →
      m'.Active (.query q) s' ∧ s.Goes (Owner.For q) s') ∧
    (s.await w q fuel m = some (x, m', s') →
      m'.Active (.query q) s' ∧ s.Goes (Owner.For q) s') := by
  induction fuel generalizing m s with
  | zero => exact ⟨fun h => (by cases h), fun h => (by cases h)⟩
  | succ fuel ih =>
    refine ⟨fun ha => ?_, fun ha => ?_⟩
    · rw [Session.advance] at ha
      split at ha
      · next m1 s1 hnext =>
        have h1 := next_active h hnext
        obtain ⟨h2, h3⟩ := (ih h1.active).2 ha
        exact ⟨h2, h1.goes.trans h3⟩
      · have h1 := next_active h ha
        exact ⟨h1.active, h1.goes⟩
    · rw [Session.await] at ha
      split at ha
      · next c s1 htake =>
        have h1 := h.quiet (Session.quiet_takeReady htake)
        split at ha
        · next hr =>
          have h2 := h1.trans (restore_active h1.active hr)
          cases ha
          exact ⟨h2.active, h2.goes⟩
        · next hr =>
          have h2 := h1.trans (restore_active h1.active hr)
          obtain ⟨h3, h4⟩ := (ih h2.active).1 ha
          exact ⟨h3, h2.goes.trans h4⟩
      · split at ha
        · have h1 := h.quiet (s.quiet_note (.queryDone q))
          cases ha
          exact ⟨h1.active, h1.goes⟩
        · split at ha
          · cases ha
          · next hagenda =>
            cases ha
            exact h.runAgenda hagenda
          · next s1 hagenda =>
            obtain ⟨h1, h2⟩ := h.runAgenda hagenda
            split at ha
            · obtain ⟨h3, h4⟩ := (ih h1).2 ha
              exact ⟨h3, h2.trans h4⟩
            · simp only at ha
              have h3 := h1.quiet (s1.quiet_checkCompletion (s1.blockedOn q))
              split at ha
              · obtain ⟨h4, h5⟩ := (ih h3.active).2 ha
                exact ⟨h4, (h2.trans h3.goes).trans h5⟩
              · have h4 := h3.trans (h3.active.quiet (Session.quiet_completeAll
                  .generatorDeadlocked (s1.blockedOn q) _))
                obtain ⟨h5, h6⟩ := (ih h4.active).2 ha
                exact ⟨h5, (h2.trans h4.goes).trans h6⟩

/-- No consumer is an owner's whose id is not used yet. -/
theorem Session.Held.owner_ne (h : s.Held) {c : Nat} {k : Consumer}
    (hk : s.consumers[c]? = some k) (ho : ¬ o.Below s.nextId) : k.owner ≠ o := by
  rintro rfl
  exact ho (h.consumer hk).2

theorem startQuery_active (h : s.Held) (hq : q < s.nextId)
    (hnone : ∀ {c : Nat} {k : Consumer}, s.consumers[c]? = some k → k.owner ≠ .query q)
    {pattern : Triple} {x : Except Failure Machine}
    (hstart : Machine.startQuery w pattern q s = (x, s')) :
    s.Goes (Owner.For q) s' ∧ ∀ m ∈ x.toOption, m.Held (.query q) s' := by
  unfold Machine.startQuery at hstart
  split at hstart
  · cases hstart
    exact ⟨⟨h, .refl _ s⟩, fun m hm => by cases hm⟩
  · next m0 hblank =>
    have h0 : m0.Active (.query q) s :=
      ⟨blank_held hblank hq hnone, h, fun _ ho => by cases ho⟩
    split at hstart
    · cases hstart
      refine ⟨⟨h, .refl _ s⟩, fun m hm => ?_⟩
      cases hs : Machine.start w pattern (.query q) with
      | error e =>
        rw [hs] at hm
        cases hm
      | ok m1 =>
        rw [hs] at hm
        cases hm
        exact start_held hs hq hnone
    · have h1 := callTable_active h0 .root [.proceed] m0.standard (w := w)
      split at hstart
      · next hcall =>
        rw [hcall] at h1
        cases hstart
        exact ⟨h1.goes, fun m hm => by cases hm⟩
      · next hcall =>
        rw [hcall] at h1
        cases hstart
        refine ⟨h1.goes, fun m hm => ?_⟩
        cases hm
        exact h1.active.held

end

/-! ## Engines -/

/-- Every machine of an engine has the choice points of its consumers. -/
structure Engine.Held (e : Engine) : Prop where
  session : e.session.Held
  query : ∀ {id : Nat} {q : Query}, e.queries[id]? = some q →
    id < e.session.nextId ∧ ∀ m ∈ q.machine, m.Held (.query id) e.session

section

variable {e e' : Engine} {s' : Session} {id : Nat} {q : Query} {store : Store}

theorem Engine.Held.goes (h : e.Held) {X : Owner → Prop} (hs : e.session.Goes X s')
    (hX : ∀ q, ¬ X (.query q)) : Engine.Held { e with session := s' } := by
  refine ⟨hs.held, fun hq => ?_⟩
  obtain ⟨hlt, hm⟩ := h.query hq
  exact ⟨Nat.lt_of_lt_of_le hlt hs.later.nextId_le, fun m hmem => (hm m hmem).later hs.later (hX _)⟩

theorem Engine.Held.quiet (h : e.Held) (hs : e.session.Quiet s') :
    Engine.Held { e with session := s' } :=
  h.goes (h.session.goes hs fun _ => False) fun _ hx => hx

/-- One query has run. -/
theorem Engine.Held.insert (h : e.Held) (hs : e.session.Goes (Owner.For id) s')
    (hid : id < s'.nextId) (hm : ∀ m ∈ q.machine, m.Held (.query id) s') :
    Engine.Held { e with session := s', queries := e.queries.insert id q } := by
  refine ⟨hs.held, fun {id' q'} hq' => ?_⟩
  change (e.queries.insert id q)[id']? = some q' at hq'
  rw [Std.TreeMap.getElem?_insert] at hq'
  split at hq'
  · next heq =>
    rw [Std.LawfulEqCmp.compare_eq_iff_eq] at heq
    cases hq'
    subst heq
    exact ⟨hid, hm⟩
  · next hne =>
    obtain ⟨hlt, hheld⟩ := h.query hq'
    refine ⟨Nat.lt_of_lt_of_le hlt hs.later.nextId_le, fun m hmem => ?_⟩
    refine (hheld m hmem).later hs.later fun hfor => hne ?_
    rw [Std.LawfulEqCmp.compare_eq_iff_eq]
    exact (hfor id' rfl).symm

theorem Engine.Held.closeQuery (h : e.Held) (id : Nat) : (e.closeQuery id).Held := by
  unfold Engine.closeQuery
  split
  · exact h
  · next q hq =>
    split
    · exact h
    · have hs := h.session.goes (e.session.quiet_closeQuery id) (Owner.For id)
      exact h.insert hs (Nat.lt_of_lt_of_le (h.query hq).1 hs.later.nextId_le)
        fun m hm => by cases hm

theorem Engine.Held.drop (h : e.Held) (handle : Handle) : (e.drop handle).Held := by
  unfold Engine.drop
  split
  · exact h
  · next q hq =>
    split
    · refine ⟨(h.closeQuery handle.query).session, fun hq' => ?_⟩
      rw [Std.TreeMap.getElem?_erase] at hq'
      split at hq'
      · cases hq'
      · exact (h.closeQuery handle.query).query hq'
    · exact h.insert ⟨h.session, .refl _ _⟩ (h.query hq).1 (h.query hq).2

theorem Engine.Held.clone (h : e.Held) (handle : Handle) : (e.clone handle).2.Held := by
  refine ⟨h.session, fun {id q'} hq' => ?_⟩
  change (e.queries.modify handle.query _)[id]? = some q' at hq'
  rw [Std.TreeMap.getElem?_modify] at hq'
  split at hq'
  · next heq =>
    obtain ⟨q, hq, rfl⟩ := Option.map_eq_some_iff.1 hq'
    rw [Std.LawfulEqCmp.compare_eq_iff_eq] at heq
    subst heq
    exact ⟨(h.query hq).1, (h.query hq).2⟩
  · exact h.query hq'

theorem Engine.Held.find (h : e.Held) {pattern : Triple} {x : Except Failure Handle}
    (hfind : e.find store pattern = (x, e')) : e'.Held := by
  unfold Engine.find at hfind
  split at hfind
  · cases hfind
    exact h
  · simp only [Session.openQuery] at hfind
    have h0 := h.quiet (e.session.quiet_refresh store.version)
    generalize e.session.refresh store.version = s at hfind h0
    have hopened : s.Quiet (s.openQuery.2.note (.queryOpened s.nextId pattern)) :=
      s.quiet_openQuery.trans (Session.quiet_note _ _)
    have h1 := h0.session.quiet hopened
    have hnone : ∀ {c : Nat} {k : Consumer},
        (s.openQuery.2.note (.queryOpened s.nextId pattern)).consumers[c]? = some k →
          k.owner ≠ .query s.nextId :=
      fun hk => h0.session.owner_ne hk fun (hlt : s.nextId < s.nextId) => Nat.lt_irrefl _ hlt
    have ran : ∀ {x : Except Failure Machine} {s' : Session},
        Machine.startQuery (e.world store) pattern s.nextId
          (s.openQuery.2.note (.queryOpened s.nextId pattern)) = (x, s') →
        s.Goes (Owner.For s.nextId) s' ∧ ∀ m ∈ x.toOption, m.Held (.query s.nextId) s' := by
      intro x s' hstart
      obtain ⟨h2, h3⟩ := startQuery_active h1 (Nat.lt_succ_self s.nextId) hnone hstart
      exact ⟨⟨h2.held, (hopened.later _).trans h2.later⟩, h3⟩
    split at hfind
    · next failure s' hstart =>
      obtain ⟨h2, -⟩ := ran hstart
      have h3 := h2.trans (h2.held.goes ((s'.quiet_poison failure).trans
        (Session.quiet_closeQuery _ s.nextId)) _)
      cases hfind
      refine ⟨h3.held, fun hq => ?_⟩
      obtain ⟨hlt, hm⟩ := h0.query hq
      refine ⟨Nat.lt_of_lt_of_le hlt h3.later.nextId_le, fun m hmem => ?_⟩
      refine (hm m hmem).later h3.later fun hfor => ?_
      exact Nat.lt_irrefl _ ((hfor _ rfl) ▸ hlt)
    · next m s' hstart =>
      obtain ⟨h2, h3⟩ := ran hstart
      have hlt : s.nextId < s'.nextId :=
        Nat.lt_of_lt_of_le (Nat.lt_succ_self _)
          ((startQuery_active h1 (Nat.lt_succ_self s.nextId) hnone hstart).1.later.nextId_le)
      cases hfind
      refine Engine.Held.insert (e := { e with session := s }) h0 h2 hlt fun m1 hm1 => ?_
      cases hm1
      exact h3 m rfl

theorem Engine.Held.fill (h : e.Held) {fuel : Nat} {take : Bool}
    {x : Except Failure (Option Triple)} (hfill : e.fill store fuel id take = some (x, e')) :
    e'.Held := by
  -- what is kept of the query after it was looked at
  have look : ∀ {q q' : Query} {y : Except Failure Unit} {s' : Session},
      e.queries[id]? = some q →
      Engine.lookAhead (e.world store) fuel id q e.session = some (y, q', s') →
      e.session.Goes (Owner.For id) s' ∧ ∀ m ∈ q'.machine, m.Held (.query id) s' := by
    intro q q' y s' hq hlook
    obtain ⟨hlt, hm⟩ := h.query hq
    unfold Engine.lookAhead at hlook
    split at hlook
    · cases hlook
      exact ⟨⟨h.session, .refl _ _⟩, hm⟩
    · split at hlook
      · cases hlook
        exact ⟨⟨h.session, .refl _ _⟩, hm⟩
      · next m hmachine =>
        have ha : m.Active (.query id) e.session :=
          ⟨hm m hmachine, h.session, fun _ ho => by cases ho⟩
        split at hlook
        · cases hlook
        · next hadvance =>
          obtain ⟨h1, h2⟩ := (search_goes ha).1 hadvance
          cases hlook
          refine ⟨h2, fun m1 hm1 => ?_⟩
          cases hm1
          exact h1.held
        · next hadvance =>
          obtain ⟨h1, h2⟩ := (search_goes ha).1 hadvance
          cases hlook
          exact ⟨h2, fun m1 hm1 => by cases hm1⟩
        · next failure m1 s1 hadvance =>
          obtain ⟨h1, h2⟩ := (search_goes ha).1 hadvance
          cases hlook
          exact ⟨h2.trans (h2.held.goes (s1.quiet_poison failure) _), fun m1 hm1 => by cases hm1⟩
  unfold Engine.fill at hfill
  split at hfill
  · cases hfill
    exact h
  · next q hq =>
    split at hfill
    · cases hfill
      exact h
    · split at hfill
      · cases hfill
      · next hlook =>
        obtain ⟨h1, h2⟩ := look hq hlook
        cases hfill
        exact h.insert h1 (Nat.lt_of_lt_of_le (h.query hq).1 h1.later.nextId_le) h2
      · next q' s' hlook =>
        obtain ⟨h1, h2⟩ := look hq hlook
        cases hfill
        refine h.insert h1 (Nat.lt_of_lt_of_le (h.query hq).1 h1.later.nextId_le) ?_
        cases take <;> exact h2

theorem Engine.held_new (store : Store) (rules : RuleBase) (settings : Settings) :
    (Engine.new store rules settings).Held := by
  refine ⟨⟨fun h => ?_, fun h => ?_, fun h => ?_⟩, fun h => ?_⟩ <;>
    cases h.symm.trans Std.TreeMap.getElem?_emptyc

theorem Engine.Held.printProfile (h : e.Held) : e.printProfile.Held := by
  have all : ∀ (ps : List ProfileEntry) {e : Engine}, e.Held → Engine.Held
      (ps.foldl (fun e p => e.mapSession fun s =>
        { s with journal := s.journal.push .print (padCount p.entries ++ " " ++ p.rule) }) e) := by
    intro ps
    induction ps with
    | nil => exact fun h => h
    | cons p ps ih =>
      exact fun h => ih (h.quiet (.of_fields (Nat.le_refl _) rfl rfl rfl))
  exact all e.profile h

theorem Engine.Does.held {a : Act} {r : Reply} (hdoes : e.Does store a r e') (h : e.Held) :
    e'.Held := by
  cases hdoes with
  | find hfind => exact h.find hfind
  | next hnext => exact h.fill hnext
  | hasNext hnext =>
    unfold Engine.hasNext at hnext
    obtain ⟨⟨x, e1⟩, hfill, e⟩ := Option.map_eq_some_iff.1 hnext
    cases e
    exact h.fill hfill
  | close => exact h.closeQuery _
  | clone => exact h.clone _
  | drop => exact h.drop _
  | reset => exact h.quiet ((e.session.quiet_clear store.version).trans (Session.quiet_note _ _))
  | nextMessage => exact h.quiet (.of_fields (Nat.le_refl _) rfl rfl rfl)
  | printProfile => exact h.printProfile

end

/-- After any history, every consumer that waits has a choice point to go on with. -/
theorem Site.Runs.held {ok : Act → Reply → Prop} {graph : Graph} {rules : RuleBase}
    {settings : Settings} {σ : Site} (h : (Site.new graph rules settings).Runs ok σ) :
    σ.engine.Held := by
  induction h with
  | refl => exact Engine.held_new _ _ _
  | tail _ hstep ih =>
    obtain ⟨a, r, -, hdoes⟩ := hstep
    rcases hdoes.engine with hdoes | e
    · exact hdoes.held ih
    · exact e ▸ ih

end TabledRules
