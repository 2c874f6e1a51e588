-- What is still to come of a machine. A prospect says which answers are to be
-- found and by what they are given; no turn of a machine loses an answer that
-- something left to try would give.
import TabledRules.Proofs.Links

namespace TabledRules

/-! ## Prospects -/

/-- What is tried for a goal. -/
inductive Attempt where
  | clause (clause : Clause)
  | triple (triple : Triple)

/-- The answer `t` of a goal is begun with: it is a stored triple that the goal never refuses,
or some clause of the goal leads to it. -/
def Begins (P : Program) (offers : Attempt → Prop) (goal t : Triple) : Prop :=
  (t ∈ P.find goal.standard.lookupKey ∧
    ∀ n k, (goal.unbound.grow k).unifyTriple n goal.standard t ≠ some none) ∨
  ∃ cl ∈ P.rules.codeFor goal.standard, offers (.clause cl)

/-- A machine for a table or a query may find the triple. -/
def Program.Finds (P : Program) (t : Triple) : Prop :=
  (∃ goal, Answer P goal t) ∨ ∃ pattern, QueryAnswer P pattern t

/-- Answers that are to be found. The table of a goal has `due n goal` to get in `n` rounds, and
a query has `asked n pattern` to find by what tables get in `n` rounds. A state `gives` an answer
to the numbered goal of its machine, and an attempt at a goal `offers` one. What gives an answer
goes on to give it whatever the machine does, as long as the machine gets on at all. -/
structure Prospect (P : Program) where
  due : Nat → Triple → Triple → Prop
  asked : Nat → Triple → Triple → Prop
  gives : Nat → Triple → State → Triple → Prop
  offers : Nat → Triple → Triple → Bindings → List Frame → Attempt → Triple → Prop
  not_due_zero : ∀ goal t, ¬ due 0 goal t
  due_start : ∀ {n goal t}, due (n + 1) goal t →
    Begins P (offers n goal.standard goal.standard goal.unbound [] · t) goal t
  due_single : ∀ {n goal t u}, goal.isGround = true → due n goal t → Answer P goal u → u = t
  asked_start : ∀ {n pattern t}, asked n pattern t → P.readsTable pattern = false →
    Begins P (offers n pattern.standard pattern.standard pattern.unbound [] · t) pattern t
  asked_table : ∀ {n pattern t}, asked n pattern t → P.readsTable pattern = true →
    ∃ r, due n pattern.standard.variantKey r ∧
      offers n pattern.standard pattern.standard pattern.unbound [] (.triple r) t
  gives_answer : ∀ {n standard b t k u}, gives n standard ⟨b, []⟩ t → P.Finds u →
    standard.mapTerms? (b.resolve k) = some u → u = t
  gives_leave : ∀ {n standard b r θ fs t}, gives n standard ⟨b, ⟨r, θ, []⟩ :: fs⟩ t →
    gives n standard ⟨b, fs⟩ t
  gives_builtin : ∀ {n standard b b1 r θ θ1 c es fs t f args k x},
    gives n standard ⟨b, ⟨r, θ, .builtin c :: es⟩ :: fs⟩ t →
    P.registry.get? c.name = some f → r.putLeaves true θ b c.args = (args, θ1, b1) →
    f.run k P.store (some r) b1 args = some (.ok x) →
    ∃ b2, x = some b2 ∧ gives n standard ⟨b2, ⟨r, θ1, es⟩ :: fs⟩ t
  gives_table : ∀ {n standard b b1 r θ θ1 pattern es fs t goal value k},
    gives n standard ⟨b, ⟨r, θ, .triple pattern :: es⟩ :: fs⟩ t →
    r.putGoal θ b pattern = (goal, θ1, b1) →
    (P.callFor r pattern).readsTable P.rules (goal.mapTerms b1.deref) = true →
    goal.mapTerms? (b1.deepDeref k) = some value →
    ∃ u, due n value.variantKey u ∧ offers n standard goal b1 (⟨r, θ1, es⟩ :: fs) (.triple u) t
  gives_search : ∀ {n standard b b1 r θ θ1 pattern es fs t goal value k},
    gives n standard ⟨b, ⟨r, θ, .triple pattern :: es⟩ :: fs⟩ t →
    r.putGoal θ b pattern = (goal, θ1, b1) →
    (P.callFor r pattern).readsTable P.rules (goal.mapTerms b1.deref) = false →
    goal.mapTerms? (b1.deepDeref k) = some value →
    (∃ u ∈ P.find value.lookupKey,
      offers n standard goal b1 (⟨r, θ1, es⟩ :: fs) (.triple u) t) ∨
    ∃ cl ∈ (P.callFor r pattern).clauses P.rules (goal.mapTerms b1.deref),
      offers n standard goal b1 (⟨r, θ1, es⟩ :: fs) (.clause cl) t
  offers_ordered : ∀ {n standard goal b fs a t}, offers n standard goal b fs a t → b.Ordered
  offers_triple : ∀ {n standard goal b fs u t k d x}, offers n standard goal b fs (.triple u) t →
    (b.grow k).unifyTriple d goal u = some x → ∃ b', x = some b' ∧ gives n standard ⟨b', fs⟩ t
  offers_clause : ∀ {n standard goal b fs cl t k d x}, offers n standard goal b fs (.clause cl) t →
    cl.rule.enter d goal (b.grow k) = some x →
    ∃ θ b', x = some (θ, b') ∧ gives n standard ⟨b', ⟨cl.rule, θ, cl.rule.steps⟩ :: fs⟩ t
  offers_cut : ∀ {n standard goal b b' fs cl t}, offers n standard goal b fs (.clause cl) t →
    (∀ u ∈ goal.terms, ∃ g, b.Means u g) → b.Apart b' → gives n standard ⟨b', fs⟩ t

/-! ## What machines give -/

/-- Something that is left to try at the choice point leads to the answer `t`. Of a table it
is a result that has not been read, or that the table does not have yet. -/
def Choice.Gives {P : Program} (X : Prospect P) (s : Session) (committed : Std.TreeSet Nat) (n : Nat)
    (standard t : Triple) (c : Choice) : Prop :=
  match c.alternatives with
  | .clauses rest args _ => committed.contains c.id = false ∧ ∃ cl ∈ rest, ∃ fs,
    Models P c.env c.code fs ∧ X.offers n standard (goalOf args) c.bindings fs (.clause cl) t
  | .facts goal rest => ∃ u ∈ rest, ∃ fs,
    Models P c.env c.code fs ∧ X.offers n standard goal c.bindings fs (.triple u) t
  | .answers goal rest => t ∈ rest ∧ ∀ d k, (c.bindings.grow k).unifyTriple d goal t ≠ some none
  | .results consumer goal => ∃ (k : Consumer) (gen : Generator) (u : Triple) (fs : List Frame),
    s.consumers[consumer]? = some k ∧ s.generators[k.generator]? = some gen ∧
    k.read ≤ gen.results.toList.length ∧ X.due n gen.goal u ∧
    u ∉ gen.results.toList.take k.read ∧ Models P c.env c.code fs ∧
    X.offers n standard goal c.bindings fs (.triple u) t

/-- The machine has the choice point, on its stack or put aside. -/
def Machine.Holds (m : Machine) (c : Choice) : Prop :=
  c ∈ m.stack ∨ ∃ consumer : Nat, m.suspended[consumer]? = some c

/-- Some choice point of the machine gives the answer. -/
def Machine.Gives {P : Program} (X : Prospect P) (s : Session) (n : Nat) (t : Triple)
    (m : Machine) : Prop :=
  ∃ c, m.Holds c ∧ c.Gives X s m.committed n m.standard t

/-- The state that the machine is in gives the answer. -/
def Control.Gives {P : Program} (X : Prospect P) (m : Machine) (n : Nat) (t : Triple) :
    Control → Prop
  | .backtrack => False
  | .run env code => ∃ fs, Running P m env code fs ∧ X.gives n m.standard ⟨m.bindings, fs⟩ t

/-- The consumer has read as much as before, and its table has at least the same results. -/
def Session.Retains (s s' : Session) (c : Nat) : Prop :=
  ∀ (k : Consumer) (gen : Generator), s.consumers[c]? = some k →
    s.generators[k.generator]? = some gen →
    ∃ (k' : Consumer) (gen' : Generator), s'.consumers[c]? = some k' ∧
      k'.generator = k.generator ∧ k'.read = k.read ∧
      s'.generators[k.generator]? = some gen' ∧ gen'.goal = gen.goal ∧
      gen.results.toList <+: gen'.results.toList

section
variable {P : Program} {X : Prospect P} {st : Settings} {s s' s'' : Session} {m m' : Machine}
  {c : Choice} {rest : List Choice} {n : Nat} {t standard : Triple}
  {committed committed' : Std.TreeSet Nat}

theorem Session.Retains.refl (s : Session) (c : Nat) : s.Retains s c :=
  fun _ _ hk hg => ⟨_, _, hk, rfl, rfl, hg, rfl, List.prefix_refl _⟩

theorem Session.Retains.noted {c : Nat} (h : s.Retains s' c) (hs : s'.Noted s'') :
    s.Retains s'' c := by
  obtain ⟨j, p, rfl⟩ := hs
  exact h

/-- What is left to try gives what it gave while its consumer reads nothing. -/
theorem Choice.Gives.retain (h : c.Gives X s committed n standard t)
    (hs : ∀ d, c.consumer? = some d → s.Retains s' d)
    (hcommitted : committed.contains c.id = false → committed'.contains c.id = false) :
    c.Gives X s' committed' n standard t := by
  unfold Choice.Gives at h ⊢
  cases halt : c.alternatives with
  | clauses rest args ground =>
    simp only [halt] at h ⊢
    exact ⟨hcommitted h.1, h.2⟩
  | facts goal rest =>
    simp only [halt] at h ⊢
    exact h
  | answers goal rest =>
    simp only [halt] at h ⊢
    exact h
  | results consumer goal =>
    simp only [halt] at h ⊢
    obtain ⟨k, gen, u, fs, hk, hgen, hle, hdue, hu, hmodels, hoffers⟩ := h
    obtain ⟨k', gen', hk', hg, hread, hgen', hgoal, hpre⟩ :=
      hs consumer (by rw [Choice.consumer?, halt]) k gen hk hgen
    rw [← hg] at hgen'
    refine ⟨k', gen', u, fs, hk', hgen', ?_, hgoal ▸ hdue, ?_, hmodels, hoffers⟩
    · rw [hread]
      exact Nat.le_trans hle hpre.length_le
    · rw [hread]
      obtain ⟨more, hmore⟩ := hpre
      rw [← hmore, List.take_append_of_le_length hle]
      exact hu

/-- Nothing is lost where choice points stay and their consumers read nothing. -/
theorem Machine.Gives.retain (h : m.Gives X s n t) (hholds : ∀ x, m.Holds x → m'.Holds x)
    (hs : ∀ x, m.Holds x → ∀ d, x.consumer? = some d → s.Retains s' d)
    (hcommitted : ∀ id, m.committed.contains id = false → m'.committed.contains id = false)
    (hstandard : m'.standard = m.standard) : m'.Gives X s' n t := by
  obtain ⟨x, hx, hgives⟩ := h
  rw [Machine.Gives, hstandard]
  exact ⟨x, hholds x hx, hgives.retain (hs x hx) (hcommitted _)⟩

theorem Machine.Gives.noted (h : m.Gives X s n t) (hs : s.Noted s') : m.Gives X s' n t :=
  h.retain (fun _ h => h) (fun _ _ d _ => (Session.Retains.refl s d).noted hs) (fun _ h => h) rfl

/-! ## What turns leave alone -/

/-- A table that is found has its goal and at least its results. -/
theorem Session.Retains.of_extends {d : Nat} (hext : s.Extends P st s')
    (hcons : ∀ k, s.consumers[d]? = some k → ∃ k', s'.consumers[d]? = some k' ∧
      k'.generator = k.generator ∧ k'.read = k.read) : s.Retains s' d := by
  intro k gen hk hgen
  obtain ⟨k', hk', h1, h2⟩ := hcons k hk
  obtain ⟨gen', hgen', htwin⟩ := hext.find hgen
  exact ⟨k', gen', hk', h1, h2, hgen', htwin.goal,
    htwin.results ▸ List.prefix_refl _⟩

/-- A call of a table leaves all consumers alone. -/
theorem Session.Wired.retains_table {Y D : Nat → Prop} (hw : s.Wired Y D) {value : Triple} {g : Nat}
    {s1 : Session} (hg : s.generatorFor (P.world st) value = (.ok g, s1)) (owner : Owner) (d : Nat) :
    s.Retains (s1.addConsumer g owner).2 d := by
  obtain ⟨hw1, hext, -, hcons, -⟩ := hw.generatorFor hg
  refine .of_extends (hext.addConsumer g owner) fun k hk => ⟨k, ?_, rfl, rfl⟩
  have hk1 : s1.consumers[d]? = some k := by rw [hcons]; exact hk
  rw [consumers_addConsumer, if_neg (Nat.ne_of_gt (hw1.consumer_lt hk1)), hk1]

/-- A consumer that reads leaves the others alone. -/
theorem Session.retains_read {c d : Nat} (h : s.read c = (.result t, s')) (hne : d ≠ c) :
    s.Retains s' d := by
  obtain ⟨-, -, -, -, -, rfl⟩ := Session.of_read_result h
  intro k gen hk hgen
  refine ⟨k, gen, ?_, rfl, rfl, hgen, rfl, List.prefix_refl _⟩
  rw [Session.consumers_modifyConsumer, if_neg (Ne.symm hne), hk]

theorem Session.retains_removeConsumer (s : Session) {c d : Nat} (hne : d ≠ c) :
    s.Retains (s.removeConsumer c) d := by
  intro k gen hk hgen
  obtain ⟨gen', hgen', hspares⟩ := s.find_removeConsumer c hgen
  refine ⟨k, gen', ?_, rfl, rfl, hgen', hspares.goal, hspares.results ▸ List.prefix_refl _⟩
  rw [Session.consumers_removeConsumer, if_neg (Ne.symm hne), hk]

/-- A consumer that has to wait has read what it had read. -/
theorem Session.retains_block (s : Session) (owner : Owner) (c d : Nat) :
    s.Retains (s.block owner c) d := by
  intro k gen hk hgen
  obtain ⟨k', hk', h1, h2⟩ : ∃ k' : Consumer,
      (s.modifyConsumer c fun k => { k with suspended := true }).consumers[d]? = some k' ∧
        k'.generator = k.generator ∧ k'.read = k.read := by
    rw [Session.consumers_modifyConsumer]
    split
    · next e => exact ⟨{ k with suspended := true }, by rw [e, hk]; rfl, rfl, rfl⟩
    · exact ⟨k, hk, rfl, rfl⟩
  cases owner with
  | query q => exact ⟨k', gen, hk', h1, h2, hgen, rfl, List.prefix_refl _⟩
  | generator z =>
    obtain ⟨gen', hgen', ⟨-, rfl⟩ | rfl⟩ := (s.modifyConsumer c _).find_modifyGenerator z
      (fun gen => { gen with generating := gen.generating.insert c }) hgen
    · exact ⟨k', _, hk', h1, h2, hgen', rfl, List.prefix_refl _⟩
    · exact ⟨k', _, hk', h1, h2, hgen', rfl, List.prefix_refl _⟩

/-! ## Turns -/

/-- What a machine gives is given after the last choice point was taken off, unless it was this
choice point that gave it. -/
theorem Machine.Gives.popped (h : m.Gives X s n t) (hstack : m.stack = c :: rest) :
    c.Gives X s m.committed n m.standard t ∨ (m.popped c rest).Gives X s n t := by
  obtain ⟨x, hx | ⟨d, hx⟩, hgives⟩ := h
  · rw [hstack] at hx
    rcases List.mem_cons.1 hx with rfl | hx
    · exact .inl hgives
    · exact .inr ⟨x, .inl hx, hgives⟩
  · exact .inr ⟨x, .inr ⟨d, hx⟩, hgives⟩

/-- The machine `m'` comes of `m` where the last choice point is put back with `a` left to try. -/
structure Machine.Retried (m : Machine) (c : Choice) (rest : List Choice) (a : Alternatives)
    (m' : Machine) : Prop where
  stack : m'.stack = { c with alternatives := a } :: rest
  suspended : m'.suspended = m.suspended
  committed : m'.committed = m.committed
  standard : m'.standard = m.standard

/-- The last choice point is put back with less to try: what the machine gave is given by what
is left, or by what was tried. -/
theorem Machine.Gives.tried {R : Prop} {a : Alternatives} (h : m.Gives X s n t)
    (hstack : m.stack = c :: rest) (hm' : m.Retried c rest a m')
    (hfirst : c.Gives X s m.committed n m.standard t →
      ({ c with alternatives := a } : Choice).Gives X s' m.committed n m.standard t ∨ R)
    (hs : ∀ x, (m.popped c rest).Holds x → ∀ d, x.consumer? = some d → s.Retains s' d) :
    m'.Gives X s' n t ∨ R := by
  rcases h.popped hstack with hc | hrest
  · rcases hfirst hc with hc | hR
    · refine .inl ⟨_, .inl (hm'.stack ▸ List.mem_cons_self), ?_⟩
      rw [hm'.committed, hm'.standard]
      exact hc
    · exact .inr hR
  · refine .inl (hrest.retain (fun x hx => ?_) hs (fun id hid => by rw [hm'.committed]; exact hid)
      hm'.standard)
    rcases hx with hx | ⟨d, hx⟩
    · exact .inl (hm'.stack ▸ List.mem_cons_of_mem _ hx)
    · exact .inr ⟨d, by rw [hm'.suspended]; exact hx⟩

/-- The consumers of the other choice points are others. -/
theorem Machine.Tied.ne_of_popped (ht : m.Tied s) (hstack : m.stack = c :: rest) {consumer : Nat}
    (hc : c.consumer? = some consumer) (x : Choice) (hx : (m.popped c rest).Holds x) (d : Nat)
    (hd : x.consumer? = some d) : d ≠ consumer := by
  have hreaders : m.readers = consumer :: rest.filterMap Choice.consumer? := by
    rw [Machine.readers, hstack, List.filterMap_cons_some hc]
  have hnodup := ht.nodup
  rw [hreaders, List.nodup_cons] at hnodup
  rintro rfl
  rcases hx with hx | ⟨e, hx⟩
  · exact hnodup.1 (List.mem_filterMap.2 ⟨x, hx, hd⟩)
  · -- one that was put aside waits, and one of the stack does not
    obtain ⟨k, hk, -, hk'⟩ := ht.reads d (hreaders ▸ List.mem_cons_self)
    obtain ⟨hx', k', hk'', -, hw⟩ := ht.waits hx
    rw [hd] at hx'
    cases hx'
    cases hk.symm.trans hk''
    rw [hw] at hk'
    cases hk'

/-- Every table that is complete has all that is due to it. -/
def Session.Full (X : Prospect P) (s : Session) : Prop :=
  ∀ (g : Nat) (gen : Generator), s.generators[g]? = some gen → gen.complete = true →
    ∀ n t, X.due n gen.goal t → t ∈ gen.results.toList

/-- The answer is still given, or it is the one that was found. -/
def Progress.Gives (X : Prospect P) (m : Machine) (s : Session) (n : Nat) (t : Triple) :
    Progress → Prop
  | .go control => m.Gives X s n t ∨ control.Gives X m n t
  | .done (.ok (some u)) => m.Gives X s n t ∨ u = t
  | .done (.ok none) => m.Gives X s n t
  | _ => True

/-- A clause that commits gives what the other clauses of its goal give. -/
theorem Machine.Gives.commit (h : m.Gives X s n t) (hl : m.Linked P s) (ht : m.Tied s) {i : Nat}
    {cl : Clause} {vars : List (Option Term)} {caller : Env} {back code : List Instruction} {id : Nat}
    (hcl : Control.Linked P m (.run (.frame i cl vars caller back (some id)) code)) :
    (m.commit id).Gives X s n t ∨ Control.Gives X (m.commit id) n t (.run caller back) := by
  obtain ⟨x, hx, hgives⟩ := h
  by_cases hid : x.id = id ∧ ∃ rest args ground, x.alternatives = .clauses rest args ground
  · obtain ⟨hid, rest, args, ground, halt⟩ := hid
    have hstack : x ∈ m.stack := by
      rcases hx with hx | ⟨d, hx⟩
      · exact hx
      · have hnone := (ht.waits hx).1
        rw [Choice.consumer?, halt] at hnone
        cases hnone
    obtain ⟨⟨⟨rest', args', halt'⟩, rfl, rfl⟩, hunder⟩ := hcl.2 x hstack 1 caller back (hid ▸ .here)
    cases halt.symm.trans halt'
    unfold Choice.Gives at hgives
    simp only [halt] at hgives
    obtain ⟨-, cl', -, fs, hmodels, hoffers⟩ := hgives
    obtain ⟨inner, fs', -, -, hkeeps⟩ := hunder (X.offers_ordered hoffers)
    exact .inr ⟨fs, hmodels.running _, X.offers_cut hoffers (hl.ground x hstack _ _ halt)
      hkeeps.bindings⟩
  · refine .inl ⟨x, hx, ?_⟩
    unfold Choice.Gives at hgives ⊢
    cases halt : x.alternatives with
    | clauses rest args ground =>
      simp only [halt] at hgives ⊢
      refine ⟨?_, hgives.2⟩
      have hne : x.id ≠ id := fun e => hid ⟨e, _, _, _, halt⟩
      change (m.committed.insert id).contains x.id = false
      rw [Std.TreeSet.contains_insert, hgives.1]
      simpa [Std.LawfulEqCmp.compare_eq_iff_eq] using Ne.symm hne
    | facts goal rest =>
      simp only [halt] at hgives ⊢
      exact hgives
    | answers goal rest =>
      simp only [halt] at hgives ⊢
      exact hgives
    | results consumer goal =>
      simp only [halt] at hgives ⊢
      exact hgives

theorem Machine.Gives.left (h : m.Gives X s n t) (hl : m.Linked P s) (ht : m.Tied s) {i : Nat}
    {cl : Clause} {vars : List (Option Term)} {caller : Env} {back code : List Instruction}
    {commit : Option Nat}
    (hcl : Control.Linked P m (.run (.frame i cl vars caller back commit) code)) :
    (m.left commit).Gives X s n t ∨ Control.Gives X (m.left commit) n t (.run caller back) := by
  cases commit with
  | none => exact .inl h
  | some id => exact h.commit hl ht hcl

/-- A new consumer has read nothing of its table. -/
theorem reader_gives {Y D : Nat → Prop} (hwired : s.Wired Y D) (hs : s.Sound P) {value goal u : Triple}
    {g : Nat} {s1 : Session} {env : Env} {code : List Instruction} {fs : List Frame}
    (hg : s.generatorFor (P.world st) value = (.ok g, s1))
    (hm' : m' = m.pushed env code (.results (s1.addConsumer g m.owner).1 goal))
    (hdue : X.due n value.variantKey u) (hmodels : Models P env code fs)
    (hoffers : X.offers n m.standard goal m.bindings fs (.triple u) t) :
    m'.Gives X (s1.addConsumer g m.owner).2 n t := by
  subst hm'
  obtain ⟨-, -, hsome, -, -⟩ := hwired.generatorFor hg
  obtain ⟨gen, hgen⟩ := Option.isSome_iff_exists.1 hsome
  have hgoal := ((hs.generatorFor hg).2.2 g rfl).2 gen hgen
  refine ⟨_, .inl List.mem_cons_self, ⟨g, 0, m.owner, false, false⟩,
    { gen with consumers := s1.nextId :: gen.consumers }, u, fs, ?_, ?_, Nat.zero_le _, ?_, ?_,
    hmodels, hoffers⟩
  · rw [consumers_addConsumer]
    exact if_pos rfl
  · rw [generators_addConsumer]
    change (if g = g then _ else _) = _
    rw [if_pos rfl, hgen]
    rfl
  · change X.due n gen.goal u
    rw [hgoal]
    exact hdue
  · simp

/-- What the state before a call gives, the choice points of the call give. -/
theorem Calls.gives {Y D : Nat → Prop} {w : World} {env : Env} {code : List Instruction}
    {call : Call} {p : Progress} (h : Calls P w env code call m s p m' s')
    (hw : w = P.world st) (hp : ∀ e, p ≠ .done (.error e)) (hwired : s.Wired Y D) (hs : s.Sound P)
    {b : Bindings} {r : Rule} {θ θ1 : Values} {pattern : Triple} {es : List Entry}
    {fs : List Frame} (hcall : call = P.callFor r pattern)
    (hgives : X.gives n m.standard ⟨b, ⟨r, θ, .triple pattern :: es⟩ :: fs⟩ t)
    (hput : r.putGoal θ b pattern = (m.called, θ1, m.bindings))
    (hmodels : Models P env code (⟨r, θ1, es⟩ :: fs)) : m'.Gives X s' n t := by
  subst hw hcall
  cases h with
  | @search k value ground hc hground hv =>
    rcases X.gives_search hgives hput hc hv with ⟨u, hu, hoffers⟩ | ⟨cl, hcl, hoffers⟩
    · have hfields : ∀ cls, (m.pushedClauses env code cls ground).bindings = m.bindings ∧
          (m.pushedClauses env code cls ground).standard = m.standard := by
        intro cls
        unfold Machine.pushedClauses
        split <;> exact ⟨rfl, rfl⟩
      refine ⟨_, .inl List.mem_cons_self, u, hu, _, hmodels, ?_⟩
      change X.offers n (m.pushedClauses env code _ ground).standard m.called
        (m.pushedClauses env code _ ground).bindings _ _ t
      rw [(hfields _).1, (hfields _).2]
      exact hoffers
    · unfold Machine.pushedClauses
      split
      · next hempty =>
        rw [List.isEmpty_iff.1 hempty] at hcl
        cases hcl
      · refine ⟨_, .inl (List.mem_cons_of_mem _ List.mem_cons_self), ?_, cl, hcl, _, hmodels, hoffers⟩
        change ((m.committed.erase m.choices).erase (m.choices + 1)).contains m.choices = false
        simp
  | @table k value g s1 hc hv hg =>
    obtain ⟨u, hdue, hoffers⟩ := X.gives_table hgives hput hc hv
    exact reader_gives hwired hs hg rfl hdue hmodels hoffers
  | full | tableFull | tableRefused => exact absurd rfl (hp _)

/-! ## Trying what is left -/

theorem Choice.Gives.clause {cl : Clause} {cls : List Clause} {args : List Term} {ground : Bool}
    (h : c.Gives X s committed n standard t)
    (halt : c.alternatives = .clauses (cl :: cls) args ground) :
    ({ c with alternatives := .clauses cls args ground } : Choice).Gives X s' committed n standard t ∨
      ∃ fs, Models P c.env c.code fs ∧ X.offers n standard (goalOf args) c.bindings fs (.clause cl) t := by
  unfold Choice.Gives at h
  simp only [halt] at h
  obtain ⟨hopen, cl', hcl', fs, hmodels, hoffers⟩ := h
  rcases List.mem_cons.1 hcl' with rfl | hcl'
  · exact .inr ⟨fs, hmodels, hoffers⟩
  · exact .inl ⟨hopen, cl', hcl', fs, hmodels, hoffers⟩

theorem Choice.Gives.fact {goal u : Triple} {facts : List Triple}
    (h : c.Gives X s committed n standard t) (halt : c.alternatives = .facts goal (u :: facts)) :
    ({ c with alternatives := .facts goal facts } : Choice).Gives X s' committed n standard t ∨
      ∃ fs, Models P c.env c.code fs ∧ X.offers n standard goal c.bindings fs (.triple u) t := by
  unfold Choice.Gives at h
  simp only [halt] at h
  obtain ⟨v, hv, fs, hmodels, hoffers⟩ := h
  rcases List.mem_cons.1 hv with rfl | hv
  · exact .inr ⟨fs, hmodels, hoffers⟩
  · exact .inl ⟨v, hv, fs, hmodels, hoffers⟩

theorem Choice.Gives.answer {goal u : Triple} {facts : List Triple}
    (h : c.Gives X s committed n standard t) (halt : c.alternatives = .answers goal (u :: facts)) :
    ({ c with alternatives := .answers goal facts } : Choice).Gives X s' committed n standard t ∨
      u = t ∧ ∀ d k, (c.bindings.grow k).unifyTriple d goal u ≠ some none := by
  unfold Choice.Gives at h
  simp only [halt] at h
  obtain ⟨hmem, hnever⟩ := h
  rcases List.mem_cons.1 hmem with rfl | hmem
  · exact .inr ⟨rfl, hnever⟩
  · exact .inl ⟨hmem, hnever⟩

/-- A result that is read is the one that gives the answer, or another one still does. -/
theorem Choice.Gives.result {consumer : Nat} {goal u : Triple}
    (h : c.Gives X s committed n standard t) (halt : c.alternatives = .results consumer goal)
    (hread : s.read consumer = (.result u, s')) :
    ({ c with alternatives := .results consumer goal } : Choice).Gives X s' committed n standard t ∨
      ∃ fs, Models P c.env c.code fs ∧ X.offers n standard goal c.bindings fs (.triple u) t := by
  unfold Choice.Gives at h
  simp only [halt] at h
  obtain ⟨k, gen, v, fs, hk, hgen, hle, hdue, hv, hmodels, hoffers⟩ := h
  obtain ⟨k', gen', hk', hgen', hget, rfl⟩ := Session.of_read_result hread
  cases hk.symm.trans hk'
  cases hgen.symm.trans hgen'
  have hget' : gen.results.toList[k.read]? = some u := by
    rw [← hget]
    exact Array.getElem?_toList
  have hlt : k.read < gen.results.toList.length := (List.getElem?_eq_some_iff.1 hget').1
  by_cases hvu : v = u
  · exact .inr ⟨fs, hmodels, hvu ▸ hoffers⟩
  · refine .inl ⟨{ k with read := k.read + 1 }, gen, v, fs, ?_, hgen, hlt, hdue, ?_, hmodels,
      hoffers⟩
    · rw [Session.consumers_modifyConsumer, if_pos rfl, hk]
      rfl
    · change v ∉ gen.results.toList.take (k.read + 1)
      rw [List.take_add_one, hget']
      simp [hv, hvu]

/-- At a choice point where nothing is left nothing is given. -/
theorem Choice.Spent.not_gives (h : c.Spent committed) : ¬ c.Gives X s committed n standard t := by
  intro hc
  unfold Choice.Gives at hc
  unfold Choice.Spent at h
  cases halt : c.alternatives with
  | clauses cls args ground =>
    simp only [halt] at hc h
    obtain ⟨hopen, cl, hcl, -⟩ := hc
    rcases h with rfl | hcommitted
    · cases hcl
    · rw [hopen] at hcommitted
      cases hcommitted
  | facts goal facts =>
    simp only [halt] at hc h
    obtain ⟨u, hu, -⟩ := hc
    rw [h] at hu
    cases hu
  | answers goal facts =>
    simp only [halt] at hc h
    rw [h] at hc
    cases hc.1
  | results consumer goal => simp only [halt] at h

/-- A complete table that was read to its end has nothing more to give. -/
theorem Choice.Gives.not_exhausted {consumer : Nat} {goal : Triple}
    (h : c.Gives X s committed n standard t) (halt : c.alternatives = .results consumer goal)
    (hfull : s.Full X) : (s.read consumer).1 ≠ .exhausted := by
  unfold Choice.Gives at h
  simp only [halt] at h
  obtain ⟨k, gen, u, fs, hk, hgen, hle, hdue, hu, hmodels, hoffers⟩ := h
  intro hread
  unfold Session.read at hread
  simp only [hk, hgen] at hread
  cases hget : gen.results.get? k.read with
  | some v => simp [hget] at hread
  | none =>
    simp only [hget] at hread
    cases hcomplete : gen.complete with
    | false => simp [hcomplete] at hread
    | true =>
      have hlen : gen.results.toList.length ≤ k.read := by
        have : gen.results.items[k.read]? = none := hget
        simpa [Index.toList] using this
      rw [List.take_of_length_le hlen] at hu
      exact hu (hfull _ gen hgen hcomplete n u hdue)

/-! ## Every turn -/

theorem Machine.Gives.pushed (h : m.Gives X s n t) (env : Env) (code : List Instruction)
    (a : Alternatives) : (m.pushed env code a).Gives X s n t := by
  refine h.retain (fun x hx => ?_) (fun _ _ d _ => .refl s d) (fun id hid => ?_) rfl
  · rcases hx with hx | hx
    · exact .inl (List.mem_cons_of_mem _ hx)
    · exact .inr hx
  · change (m.committed.erase m.choices).contains id = false
    rw [Std.TreeSet.contains_erase, hid, Bool.and_false]

/-- The choice points that are there before a call give what they gave. -/
theorem Calls.retain {Y D : Nat → Prop} {w : World} {env : Env} {code : List Instruction}
    {call : Call} {p : Progress} (h : Calls P w env code call m s p m' s') (hw : w = P.world st)
    (hp : ∀ e, p ≠ .done (.error e)) (hwired : s.Wired Y D) (hgives : m.Gives X s n t) :
    m'.Gives X s' n t := by
  subst hw
  cases h with
  | search hc hground hv =>
    refine Machine.Gives.pushed ?_ env code _
    unfold Machine.pushedClauses
    split
    · exact hgives
    · exact hgives.pushed env code _
  | table hc hv hg =>
    exact (hgives.pushed env code _).retain (fun _ h => h)
      (fun _ _ d _ => hwired.retains_table hg m.owner d) (fun _ h => h) rfl
  | full | tableFull | tableRefused => exact absurd rfl (hp _)

/-- A call gives what the machine or the code gave that calls. -/
theorem Calls.gives_of_run {Y D : Nat → Prop} {env : Env} {ops : List Operation} {call : Call}
    {code : List Instruction} {k : Nat} {g : Registers} {p : Progress}
    (h : Calls P (P.world st) (env.setVars g.vars) code call (m.load g) s p m' s')
    (hp : ∀ e, p ≠ .done (.error e)) (hP : P.Compiled) (hm : m.args.length = maxArguments)
    (hwired : s.Wired Y D) (hs : s.Sound P)
    (hg : Operation.runAll env.name k (m.registers env) ops = some (.ok (some g)))
    (hgives : m.Gives X s n t ∨
      Control.Gives X m n t (.run env (ops.map .operation ++ .call call :: code))) :
    m'.Gives X s' n t := by
  rcases hgives with hgives | ⟨fs, hrun, hgives⟩
  · exact h.retain rfl hp hwired
      (hgives.retain (fun _ h => h) (fun _ _ d _ => .refl s d) (fun _ h => h) rfl)
  · obtain ⟨r, θ, pattern, es, fs', rfl, hcall, hargs⟩ := hrun.call hP hm
    obtain ⟨goal, θ', hput, -, htake, -, hmodels⟩ := hargs k g hg
    rw [← called_load htake] at hput
    exact h.gives rfl hp hwired hs hcall hgives hput hmodels

/-- A builtin that ends succeeds where the code before it gives an answer. -/
theorem Control.Gives.builtin {env : Env} {ops : List Operation} {f : Builtin}
    {arity j k : Nat} {code : List Instruction} {g : Registers} {x : Option Bindings}
    (h : Control.Gives X m n t (.run env (ops.map .operation ++ .builtin f arity :: code)))
    (hP : P.Compiled) (hm : m.args.length = maxArguments)
    (hg : Operation.runAll env.name j (m.registers env) ops = some (.ok (some g)))
    (hf : f.run k P.store env.rule? g.bindings (g.args.take arity) = some (.ok x)) :
    ∃ b, x = some b ∧
      Control.Gives X (m.load { g with bindings := b }) n t (.run (env.setVars g.vars) code) := by
  obtain ⟨fs, hrun, hgives⟩ := h
  obtain ⟨r, θ, call, es, fs', rfl, hreg, hrule, hargs⟩ := hrun.builtin hP hm
  obtain ⟨us, θ', hput, -, htake, -, hmodels⟩ := hargs j g hg
  rw [hrule, htake] at hf
  obtain ⟨b, rfl, hgives'⟩ := X.gives_builtin hgives hreg hput hf
  exact ⟨b, rfl, _, hmodels.running _, hgives'⟩

/-- What a clause offers is given once its head is matched. -/
theorem Machine.Gives.tryClause {cl : Clause} {cls : List Clause} {args : List Term}
    {ground : Bool} {k : Nat} {x : Option (Values × Bindings)} (h : m.Gives X s n t)
    (hstack : m.stack = c :: rest) (halt : c.alternatives = .clauses (cl :: cls) args ground)
    (henter : cl.rule.enter k (goalOf args) (m.popped c rest).bindings = some x)
    (hm' : m.Retried c rest (.clauses cls args ground) m') (hs : s.Noted s') :
    m'.Gives X s' n t ∨ ∃ θ b fs, x = some (θ, b) ∧ Models P c.env c.code fs ∧
      X.gives n m.standard ⟨b, ⟨cl.rule, θ, cl.rule.steps⟩ :: fs⟩ t := by
  refine h.tried hstack hm' (fun hc => ?_) fun _ _ d _ => (Session.Retains.refl s d).noted hs
  rcases hc.clause halt with hc | ⟨fs, hmodels, hoffers⟩
  · exact .inl hc
  · obtain ⟨θ, b, hx, hgives⟩ := X.offers_clause hoffers henter
    exact .inr ⟨θ, b, fs, hx, hmodels, hgives⟩

/-- What a triple offers is given once the goal is unified with it. -/
theorem Machine.Gives.tryTriple {goal u : Triple} {a : Alternatives} {k : Nat}
    {x : Option Bindings} (h : m.Gives X s n t) (hstack : m.stack = c :: rest)
    (hu : (m.popped c rest).bindings.unifyTriple k goal u = some x)
    (hm' : m.Retried c rest a m')
    (hfirst : c.Gives X s m.committed n m.standard t →
      ({ c with alternatives := a } : Choice).Gives X s' m.committed n m.standard t ∨
        ∃ fs, Models P c.env c.code fs ∧
          X.offers n m.standard goal c.bindings fs (.triple u) t)
    (hs : ∀ y, (m.popped c rest).Holds y → ∀ d, y.consumer? = some d → s.Retains s' d) :
    m'.Gives X s' n t ∨ ∃ b fs, x = some b ∧ Models P c.env c.code fs ∧
      X.gives n m.standard ⟨b, fs⟩ t := by
  refine h.tried hstack hm' (fun hc => ?_) hs
  rcases hfirst hc with hc | ⟨fs, hmodels, hoffers⟩
  · exact .inl hc
  · obtain ⟨b, hx, hgives⟩ := X.offers_triple hoffers hu
    exact .inr ⟨b, fs, hx, hmodels, hgives⟩

/-- A consumer that reads a result leaves those of the other choice points alone. -/
theorem Machine.Tied.retains_read (ht : m.Tied s) (hstack : m.stack = c :: rest) {consumer : Nat}
    {goal u : Triple} (halt : c.alternatives = .results consumer goal)
    (hread : s.read consumer = (.result u, s')) (x : Choice) (hx : (m.popped c rest).Holds x)
    (d : Nat) (hd : x.consumer? = some d) : s.Retains s' d :=
  Session.retains_read hread
    (ht.ne_of_popped hstack (by rw [Choice.consumer?, halt]) x hx d hd)

/-- A consumer that has read its table to the end is done with. -/
theorem Machine.Gives.exhausted {consumer : Nat} {goal : Triple} (h : m.Gives X s n t)
    (ht : m.Tied s) (hfull : s.Full X) (hstack : m.stack = c :: rest)
    (halt : c.alternatives = .results consumer goal) (hread : (s.read consumer).1 = .exhausted)
    (hs : (s.removeConsumer consumer).Noted s') : (m.popped c rest).Gives X s' n t := by
  have hconsumer : c.consumer? = some consumer := by rw [Choice.consumer?, halt]
  rcases h.popped hstack with hc | hrest
  · exact absurd hread (hc.not_exhausted halt hfull)
  · exact hrest.retain (fun _ h => h) (fun x hx d hd =>
      (s.retains_removeConsumer (ht.ne_of_popped hstack hconsumer x hx d hd)).noted hs)
      (fun _ h => h) rfl

/-- A choice point that is put aside gives what it gave. -/
theorem Machine.Gives.parked {consumer : Nat} {goal : Triple} (h : m.Gives X s n t)
    (ht : m.Tied s) (hstack : m.stack = c :: rest) (halt : c.alternatives = .results consumer goal)
    (hs : ∀ d, s.Retains s' d) : ((m.popped c rest).parked c consumer).Gives X s' n t := by
  have hconsumer : c.consumer? = some consumer := by rw [Choice.consumer?, halt]
  have hsusp : ∀ d, ((m.popped c rest).parked c consumer).suspended[d]? =
      if consumer = d then some c else m.suspended[d]? := by
    intro d
    change (m.suspended.insert consumer c)[d]? = _
    rw [Std.TreeMap.getElem?_insert]
    simp only [Std.LawfulEqCmp.compare_eq_iff_eq]
  rcases h.popped hstack with hc | hrest
  · refine ⟨c, .inr ⟨consumer, ?_⟩, hc.retain (fun d _ => hs d) fun h => h⟩
    rw [hsusp, if_pos rfl]
  · refine hrest.retain (fun x hx => ?_) (fun _ _ d _ => hs d) (fun _ h => h) rfl
    rcases hx with hx' | ⟨d, hx'⟩
    · exact .inl hx'
    · -- no other choice point was put aside for this consumer
      have hne := ht.ne_of_popped hstack hconsumer x (.inr ⟨d, hx'⟩) d (ht.waits hx').1
      exact .inr ⟨d, by rw [hsusp, if_neg (Ne.symm hne)]; exact hx'⟩

/-- No turn loses an answer. -/
theorem Turn.gives {Y D : Nat → Prop} {K : Triple → Prop} {control : Control} {p : Progress}
    (h : Turn P st control m s p m' s') (hp : ∀ e, p ≠ .done (.error e)) (hP : P.Standard)
    (hm : m.Sound P s K) (hc : control.Sound P K m) (hs : s.Sound P) (hK : ∀ u, K u → P.Finds u)
    (hl : m.Linked P s) (hcl : control.Linked P m) (ht : m.Tied s) (hw : s.Wired Y D)
    (hfull : s.Full X) (hgives : m.Gives X s n t ∨ control.Gives X m n t) : p.Gives X m' s' n t := by
  have hsound := h.sound hP.compiled hm hc hs
  cases h with
  | @leave i cl vars caller back commit _ _ _ hnoted =>
    rcases hgives with hgives | ⟨fs, hrun, hgives⟩
    · exact (hgives.left hl ht hcl).imp_left (·.noted hnoted)
    · have hbindings : (m.left commit).bindings = m.bindings := by cases commit <;> rfl
      have hstandard : (m.left commit).standard = m.standard := by cases commit <;> rfl
      obtain ⟨r, θ, fs', rfl, hmodels⟩ := hrun.leave hP.compiled
      refine .inr ⟨fs', hmodels.running _, ?_⟩
      rw [hbindings, hstandard]
      exact X.gives_leave hgives
  | answer hu hnoted =>
    rcases hgives with hgives | ⟨fs, hrun, hgives⟩
    · exact .inl (hgives.noted hnoted)
    · rw [hrun.root_frames] at hgives
      exact .inr (X.gives_answer hgives (hK _ hsound.2.2.2) hu)
  | call hg hcalls =>
    have hgives' := hcalls.gives_of_run hp hP.compiled hm.args_length hw hs hg hgives
    obtain ⟨-, -, -, -, -, rfl | ⟨e, rfl⟩⟩ := hcalls.registers
    · exact .inl hgives'
    · exact absurd rfl (hp e)
  | builtinFails hg hf hnoted =>
    rcases hgives with hgives | hgives
    · exact .inl (hgives.noted hnoted)
    · obtain ⟨b, hnone, -⟩ := hgives.builtin hP.compiled hm.args_length hg hf
      cases hnone
  | builtinStops => exact absurd rfl (hp _)
  | builtin hg hf =>
    rcases hgives with hgives | hgives
    · exact .inl (hgives.noted (.refl s))
    · obtain ⟨b, hsome, hgives'⟩ := hgives.builtin hP.compiled hm.args_length hg hf
      cases hsome
      exact .inr hgives'
  | empty => exact hgives.resolve_right id
  | spent hstack hspent hnoted =>
    rcases (hgives.resolve_right id).popped hstack with hc | hrest
    · exact absurd hc hspent.not_gives
    · exact .inl (hrest.noted hnoted)
  | full => exact absurd rfl (hp _)
  | refuse hstack halt henter _ _ hnoted =>
    refine Or.imp_right ?_ ((hgives.resolve_right id).tryClause hstack halt henter
      ⟨rfl, rfl, rfl, rfl⟩ hnoted)
    rintro ⟨θ, b, fs, hnone, -⟩
    cases hnone
  | enter hstack halt henter _ _ hrun hnoted =>
    refine Or.imp_right ?_ ((hgives.resolve_right id).tryClause hstack halt henter
      ⟨rfl, rfl, rfl, rfl⟩ hnoted)
    rintro ⟨θ, b, fs, hsome, hmodels, hgives'⟩
    cases hsome
    exact ⟨_, hrun _ rfl fs hmodels, hgives'⟩
  | missFact hstack halt hu =>
    refine Or.imp_right ?_ ((hgives.resolve_right id).tryTriple hstack hu ⟨rfl, rfl, rfl, rfl⟩
      (fun hc => hc.fact halt) fun _ _ d _ => .refl s d)
    rintro ⟨b, fs, hnone, -⟩
    cases hnone
  | fact hstack halt hu hnoted =>
    refine Or.imp_right ?_ ((hgives.resolve_right id).tryTriple hstack hu ⟨rfl, rfl, rfl, rfl⟩
      (fun hc => hc.fact halt) fun _ _ d _ => (Session.Retains.refl s d).noted hnoted)
    rintro ⟨b, fs, hsome, hmodels, hgives'⟩
    cases hsome
    exact ⟨fs, hmodels.running _, hgives'⟩
  | missAnswer hstack halt hu =>
    refine (hgives.resolve_right id).tried hstack ⟨rfl, rfl, rfl, rfl⟩ (fun hc => ?_)
      fun _ _ d _ => .refl s d
    exact (hc.answer halt).imp_right fun hnever => absurd hu (hnever.2 _ _)
  | storedAnswer hstack halt hu hnoted =>
    exact (hgives.resolve_right id).tried hstack ⟨rfl, rfl, rfl, rfl⟩
      (fun hc => (hc.answer halt).imp_right And.left)
      fun _ _ d _ => (Session.Retains.refl s d).noted hnoted
  | missResult hstack halt hread hu =>
    refine Or.imp_right ?_ ((hgives.resolve_right id).tryTriple hstack hu ⟨rfl, rfl, rfl, rfl⟩
      (fun hc => hc.result halt hread) (ht.retains_read hstack halt hread))
    rintro ⟨b, fs, hnone, -⟩
    cases hnone
  | result hstack halt hread hu =>
    refine Or.imp_right ?_ ((hgives.resolve_right id).tryTriple hstack hu ⟨rfl, rfl, rfl, rfl⟩
      (fun hc => hc.result halt hread) (ht.retains_read hstack halt hread))
    rintro ⟨b, fs, hsome, hmodels, hgives'⟩
    cases hsome
    exact ⟨fs, hmodels.running _, hgives'⟩
  | exhausted hstack halt hread hnoted =>
    exact .inl ((hgives.resolve_right id).exhausted ht hfull hstack halt hread hnoted)
  | park hstack halt hread hnoted =>
    exact .inl ((hgives.resolve_right id).parked ht hstack halt
      fun d => (s.retains_block m.owner _ d).noted hnoted)

end

end TabledRules
