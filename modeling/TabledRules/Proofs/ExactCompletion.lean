-- Completion is detected exactly: of the generators that a check looks at, it
-- completes those that wait for nothing that can still run, and no others.
import TabledRules.Proofs.Wakeups

namespace TabledRules

namespace Session

/-! ## Who waits for whom -/

/-- The machine of the generator `g` has a consumer that waits for results of `d`. -/
def Awaits (s : Session) (g d : Nat) : Prop :=
  ∃ (c : Nat) (k : Consumer), s.consumers[c]? = some k ∧ k.owner = .generator g ∧
    k.suspended = true ∧ k.generator = d

/-- There is a chain of incomplete generators from `g` to `d`, each of which waits for the
next. -/
def Reaches (s : Session) (g d : Nat) : Prop :=
  s.isIncomplete g = true ∧
    Relation.ReflTransGen (fun a b => s.Awaits a b ∧ s.isIncomplete b = true) g d

/-- The generator has not started, or has a consumer that waits and can go on. -/
def Runnable (s : Session) (g : Nat) : Prop :=
  (∃ gen : Generator, s.generators[g]? = some gen ∧ gen.ready = true) ∨
    ∃ (c : Nat) (k : Consumer), s.consumers[c]? = some k ∧ k.owner = .generator g ∧
      s.isReady c = true

/-- Nothing that the generator waits for, directly or not, can run, nor can the generator. -/
def Deadlocked (s : Session) (g : Nat) : Prop := ∀ d, s.Reaches g d → ¬ s.Runnable d

/-- A check completes those of the generators that are reached from the roots which are
deadlocked. The others stay as complete as they were, and all keep their results. -/
structure ChecksExactly (s : Session) (roots : List Nat) : Prop where
  complete : ∀ {g : Nat} {gen : Generator}, s.generators[g]? = some gen →
    ∃ gen' : Generator, (s.checkCompletion roots).generators[g]? = some gen' ∧
      gen'.results = gen.results ∧
      (gen'.complete = true ↔
        gen.complete = true ∨ (∃ r ∈ roots, s.Reaches r g) ∧ s.Deadlocked g)
  others : ∀ {g : Nat}, s.generators[g]? = none → (s.checkCompletion roots).generators[g]? = none

variable {s : Session} {roots : List Nat} {g d z : Nat}

theorem Reaches.head (hg : s.isIncomplete g = true) (hd : s.Awaits g d) (h : s.Reaches d z) :
    s.Reaches g z :=
  ⟨hg, .head ⟨hd, h.1⟩ h.2⟩

/-! ## The lists say who waits -/

/-- While no machine is out, the consumers of generators all wait. -/
theorem Idle.suspended (h : s.Idle) {c : Nat} {k : Consumer} (hk : s.consumers[c]? = some k)
    (ho : k.owner = .generator z) : k.suspended = true := by
  obtain ⟨gen, hgen, hinc, -⟩ := (h.wired.worker hk ho).resolve_left id
  obtain ⟨m, -, hown, htied, hrest⟩ := h.manned.machine hgen hinc id
  have hnone : m.readers = [] := by
    rcases hrest with ⟨-, hunused⟩ | hstack
    · exact hunused.1
    · unfold Machine.readers
      rw [hstack]
      rfl
  rcases htied.known hk (ho.trans hown.symm) with hmem | ⟨x, hx⟩
  · rw [hnone] at hmem
    cases hmem
  · obtain ⟨-, k', hk', -, hsusp⟩ := htied.waits hx
    cases hk.symm.trans hk'
    exact hsusp

theorem Idle.mem_waitsFor (h : s.Idle) (hg : s.isIncomplete g = true) :
    d ∈ s.waitsFor g ↔ s.Awaits g d := by
  obtain ⟨gen, hgen, -⟩ := isIncomplete_iff.1 hg
  unfold waitsFor
  rw [hgen]
  simp only [List.mem_filterMap, Option.map_eq_some_iff]
  constructor
  · rintro ⟨c, hc, k, hk, rfl⟩
    have ho := (h.wired.listed hgen hc).2 k hk
    exact ⟨c, k, hk, ho, h.suspended hk ho, rfl⟩
  · rintro ⟨c, k, hk, ho, hsusp, rfl⟩
    obtain ⟨gen', hgen', -, hmem⟩ := (h.wired.worker hk ho).resolve_left id
    cases hgen.symm.trans hgen'
    exact ⟨c, hmem hsusp, k, hk, rfl⟩

theorem Idle.mem_readersOf (h : s.Idle) : z ∈ s.readersOf d ↔ s.Awaits z d := by
  constructor
  · intro hz
    unfold readersOf at hz
    split at hz
    · next gen hgen =>
      obtain ⟨c, hc, hz⟩ := List.mem_filterMap.1 hz
      cases hk : s.consumers[c]? with
      | none =>
        rw [hk] at hz
        cases hz
      | some k =>
        cases ho : k.owner with
        | query q => simp [hk, ho] at hz
        | generator z' =>
          simp only [hk, Option.map_some, ho, Option.some.injEq] at hz
          subst hz
          exact ⟨c, k, hk, ho, h.suspended hk ho, (h.wired.reads hgen hc).2 k hk⟩
    · cases hz
  · rintro ⟨c, k, hk, ho, -, rfl⟩
    obtain ⟨gen, hgen, hmem⟩ := h.wired.reader hk
    unfold readersOf
    rw [hgen]
    exact List.mem_filterMap.2 ⟨c, hmem, by simp [hk, ho]⟩

theorem Idle.canRun_iff (h : s.Idle) (hg : s.isIncomplete g = true) :
    s.canRun g = true ↔ s.Runnable g := by
  obtain ⟨gen, hgen, -⟩ := isIncomplete_iff.1 hg
  unfold canRun
  rw [hgen]
  simp only [Bool.or_eq_true, List.any_eq_true]
  constructor
  · rintro (hready | ⟨c, hc, hready⟩)
    · exact .inl ⟨gen, hgen, hready⟩
    · obtain ⟨k, hk, -⟩ := isReady_iff.1 hready
      exact .inr ⟨c, k, hk, (h.wired.listed hgen hc).2 k hk, hready⟩
  · rintro (⟨gen', hgen', hready⟩ | ⟨c, k, hk, ho, hready⟩)
    · cases hgen.symm.trans hgen'
      exact .inl hready
    · obtain ⟨gen', hgen', -, hmem⟩ := (h.wired.worker hk ho).resolve_left id
      cases hgen.symm.trans hgen'
      exact .inr ⟨c, hmem (h.suspended hk ho), hready⟩

/-! ## No more is reached, and no more is live -/

/-- What is found was found before, or is reached from what is pending. -/
theorem Idle.reach_only (h : s.Idle) (n : Nat) (pending : List Nat) (found : IdSet)
    (hg : (s.reach n pending found).contains g = true) :
    found.contains g = true ∨ ∃ r ∈ pending, s.Reaches r g := by
  induction n generalizing pending found with
  | zero => exact .inl hg
  | succ n ih =>
    rw [reach] at hg
    split at hg
    · next a rest hdrop =>
      have hsub : ∀ r ∈ a :: rest, r ∈ pending := by
        rw [← hdrop]
        exact fun r hr => (List.dropWhile_suffix _).subset hr
      have ha : s.isIncomplete a = true := by
        have := List.head?_dropWhile_not (fun g => !s.isIncomplete g || found.contains g) pending
        rw [hdrop] at this
        exact (by simpa using this : s.isIncomplete a = true ∧ found.contains a = false).1
      rcases ih _ _ hg with hfound | ⟨r, hr, hreaches⟩
      · rcases IdSet.contains_insert.1 hfound with rfl | hfound
        · exact .inr ⟨g, hsub g List.mem_cons_self, ha, .refl⟩
        · exact .inl hfound
      · rcases List.mem_append.1 hr with hr | hr
        · exact .inr ⟨a, hsub a List.mem_cons_self,
            .head ha ((h.mem_waitsFor ha).1 hr) hreaches⟩
        · exact .inr ⟨r, hsub r (List.mem_cons_of_mem _ hr), hreaches⟩
    · exact .inl hg

theorem Idle.reachable_iff (h : s.Idle) (roots : List Nat) :
    (s.reachable roots).contains g = true ↔ ∃ r ∈ roots, s.Reaches r g := by
  constructor
  · intro hg
    rcases h.reach_only _ _ _ hg with hno | ⟨r, hr, hreaches⟩
    · cases hno
    · exact ⟨r, List.mem_reverse.1 hr, hreaches⟩
  · rintro ⟨r, hr, hreaches⟩
    obtain ⟨hroots, hclosed⟩ := s.reachable_spec roots
    obtain ⟨hinc, hpath⟩ := hreaches
    induction hpath with
    | refl => exact hroots r hr hinc
    | @tail a b _ hstep ih =>
      obtain ⟨hinc', hwaits⟩ := hclosed a ih
      exact hwaits b ((h.mem_waitsFor hinc').2 hstep.1) hstep.2

/-- What holds of the live ones and of those that are to be added holds of all after that. -/
theorem revive_only {Q : Nat → Prop} (all : IdSet) (gs fresh : List Nat) (live : IdSet)
    (hgs : ∀ g ∈ gs, all.contains g = true → Q g) (hfresh : ∀ g ∈ fresh, Q g)
    (hlive : ∀ g, live.contains g = true → Q g) :
    (∀ g ∈ (gs.foldl (revive all) (fresh, live)).1, Q g) ∧
      ∀ g, (gs.foldl (revive all) (fresh, live)).2.contains g = true → Q g := by
  induction gs generalizing fresh live with
  | nil => exact ⟨hfresh, hlive⟩
  | cons a gs ih =>
    have hgs' : ∀ g ∈ gs, all.contains g = true → Q g :=
      fun g hg => hgs g (List.mem_cons_of_mem _ hg)
    by_cases hnew : (all.contains a && !live.contains a) = true
    · have hstep : revive all (fresh, live) a = (a :: fresh, live.insert a) := if_pos hnew
      have ha : Q a := hgs a List.mem_cons_self (by simp_all)
      rw [List.foldl_cons, hstep]
      refine ih (a :: fresh) (live.insert a) hgs' (fun g hg => ?_) (fun g hg => ?_)
      · rcases List.mem_cons.1 hg with rfl | hg
        · exact ha
        · exact hfresh g hg
      · rcases IdSet.contains_insert.1 hg with rfl | hg
        · exact ha
        · exact hlive g hg
    · have hstep : revive all (fresh, live) a = (fresh, live) := if_neg hnew
      rw [List.foldl_cons, hstep]
      exact ih fresh live hgs' hfresh hlive

/-- What passes from the fresh and the live ones to their readers holds of all that become
live. -/
theorem spread_only {Q : Nat → Prop} {all : IdSet}
    (hQ : ∀ g z, Q g → z ∈ s.readersOf g → all.contains z = true → Q z) (n : Nat)
    (fresh : List Nat) (live : IdSet) (hfresh : ∀ g ∈ fresh, Q g)
    (hlive : ∀ g, live.contains g = true → Q g)
    (hg : (s.spread all n fresh live).contains g = true) : Q g := by
  induction n generalizing fresh live with
  | zero => exact hlive g hg
  | succ n ih =>
    cases fresh with
    | nil => exact hlive g hg
    | cons a fresh =>
      rw [spread] at hg
      split at hg
      · exact hlive g hg
      · obtain ⟨h1, h2⟩ := revive_only all (s.readersOf a) fresh live
          (fun z hz hall => hQ a z (hfresh a List.mem_cons_self) hz hall)
          (fun g hg => hfresh g (List.mem_cons_of_mem _ hg)) hlive
        exact ih _ _ h1 h2 hg

/-- Among the generators that are reached from the roots, those are live that reach one which
can run. -/
theorem Idle.live_iff (h : s.Idle) (hg : (s.reachable roots).contains g = true) :
    (s.liveAmong (s.reachable roots)).contains g = true ↔ ∃ d, s.Reaches g d ∧ s.Runnable d := by
  have hinc : ∀ {z : Nat}, (s.reachable roots).contains z = true → s.isIncomplete z = true :=
    fun hz => ((s.reachable_spec roots).2 _ hz).1
  constructor
  · intro hlive
    have hstart := revive_only (Q := fun g => ∃ d, s.Reaches g d ∧ s.Runnable d)
      (s.reachable roots) ((s.reachable roots).toList.filter s.canRun) [] {}
      (fun a ha hall => ⟨a, ⟨hinc hall, .refl⟩,
        (h.canRun_iff (hinc hall)).1 (List.mem_filter.1 ha).2⟩)
      (fun a ha => absurd ha List.not_mem_nil) (fun a ha => by cases ha)
    refine spread_only (fun a z ha hz hall => ?_) _ _ _ hstart.1 hstart.2 hlive
    obtain ⟨d, hd, hrun⟩ := ha
    exact ⟨d, .head (hinc hall) (h.mem_readersOf.1 hz) hd, hrun⟩
  · rintro ⟨d, ⟨-, hpath⟩, hrun⟩
    obtain ⟨hruns, hspread⟩ := s.liveAmong_spec (s.reachable roots)
    -- along the chain from `g` all are reached, and back from `d` all are live
    induction hpath using Relation.ReflTransGen.head_induction_on with
    | refl => exact hruns d hg ((h.canRun_iff (hinc hg)).2 hrun)
    | @head a b hstep _ ih =>
      have hb : (s.reachable roots).contains b = true :=
        ((s.reachable_spec roots).2 a hg).2 b ((h.mem_waitsFor (hinc hg)).2 hstep.1) hstep.2
      exact hspread b (ih hb) a (h.mem_readersOf.2 hstep.1) hg

theorem Idle.mem_dead_iff (h : s.Idle) (roots : List Nat) :
    g ∈ s.dead roots ↔ (∃ r ∈ roots, s.Reaches r g) ∧ s.Deadlocked g := by
  unfold dead Deadlocked
  rw [List.mem_filter, ← IdSet.contains_iff, Bool.not_eq_true', ← h.reachable_iff roots]
  refine and_congr_right fun hg => ?_
  rw [← Bool.not_eq_true, h.live_iff hg]
  push Not
  rfl

/-! ## What a check completes -/

/-- Only the generators that are to be completed are complete then and were not before. -/
theorem of_complete_completeAll (event : Triple → Nat → Event) (gs : List Nat) {gen' : Generator}
    (h : (gs.foldl (complete event) s).generators[g]? = some gen') (hc : gen'.complete = true) :
    g ∈ gs ∨ ∃ gen : Generator, s.generators[g]? = some gen ∧ gen.complete = true := by
  induction gs generalizing s with
  | nil => exact .inr ⟨gen', h, hc⟩
  | cons a gs ih =>
    rcases ih h with hmem | ⟨gen, hgen, hc'⟩
    · exact .inl (List.mem_cons_of_mem _ hmem)
    · rcases of_complete_complete event hgen hc' with rfl | hbefore
      · exact .inl List.mem_cons_self
      · exact .inr hbefore

/-- Between the runs of generators completion is detected exactly. -/
theorem Idle.checksExactly (h : s.Idle) (roots : List Nat) : s.ChecksExactly roots := by
  have hsame := s.sameTables_checkCompletion roots
  refine ⟨fun {g gen} hgen => ?_, fun {g} hnone => ?_⟩
  · obtain ⟨gen', hgen', -⟩ := (s.spares_checkCompletion roots fun _ => False).generator hgen
    obtain ⟨gen0, hgen0, -, hresults, -⟩ := hsame.generator hgen'
    cases hgen.symm.trans hgen0
    refine ⟨gen', hgen', hresults, ?_⟩
    rw [← h.mem_dead_iff roots]
    constructor
    · intro hc
      rw [checkCompletion_eq] at hgen'
      rcases of_complete_completeAll _ _ hgen' hc with hdead | ⟨gen1, hgen1, hc1⟩
      · exact .inr hdead
      · cases hgen.symm.trans hgen1
        exact .inl hc1
    · intro hcase
      have hdone : (s.checkCompletion roots).Done (.generator g) := by
        rcases hcase with hc | hdead
        · exact (s.spares_checkCompletion roots fun _ => False).done ⟨gen, hgen, hc⟩
        · rw [checkCompletion_eq]
          exact done_completeAll _ _ hgen hdead
      obtain ⟨gen1, hgen1, hc⟩ := hdone
      cases hgen'.symm.trans hgen1
      exact hc
  · by_contra hsome
    obtain ⟨gen', hgen'⟩ := Option.ne_none_iff_exists'.1 hsome
    obtain ⟨gen, hgen, -⟩ := hsame.generator hgen'
    rw [hnone] at hgen
    cases hgen

end Session

/-! ## Histories -/

/-- The machine of a generator is out. -/
def Phase.Pumping : Phase → Prop
  | .pump .. => True
  | _ => False

/-- The tables as they are at a site while no generator runs: between the acts on the engine,
when a query is closed, and in a search for the next answer of a query before, between and
after the runs of generators. -/
inductive Site.BetweenPumps (R : Registry) (σ : Site) : Session → Prop
  | rest : BetweenPumps R σ σ.engine.session
  | closing (id : Nat) : BetweenPumps R σ (σ.engine.session.dismissed id)
  | searching {id : Nat} {query : Query} {own : Machine} {phase : Phase} {s : Session} :
    σ.engine.queries[id]? = some query → query.machine = some own →
    Engine.obstacle σ.graph.toStore σ.engine.session id query = none →
    MovesTo (σ.program R) σ.engine.settings id (.search .backtrack own, σ.engine.session)
      (phase, s) → ¬ phase.Pumping → BetweenPumps R σ s
  /-- The machine of a generator has just been put back. -/
  | pumped {id : Nat} {query : Query} {own own' m m' : Machine} {batch : List Nat}
    {g added n : Nat} {control : Control} {finished : Bool} {s s' : Session} :
    σ.engine.queries[id]? = some query → query.machine = some own →
    Engine.obstacle σ.graph.toStore σ.engine.session id query = none →
    MovesTo (σ.program R) σ.engine.settings id (.search .backtrack own, σ.engine.session)
      (.pump batch g added control m own', s) →
    Ends (σ.program R) σ.engine.settings g added control m s finished n m' s' →
    BetweenPumps R σ ((s'.endPump g n m').settle g finished n)

section

variable {R : Registry} {σ : Site} {q : Nat} {s : Session}

theorem Phase.Kept.idle {phase : Phase} (h : phase.Kept q s) (hphase : ¬ phase.Pumping) :
    s.Idle := by
  cases phase with
  | pump => exact absurd trivial hphase
  | search => exact h.1
  | wait => exact h.1
  | agenda => exact h.1
  | returned => exact h.1
  | found => exact h.1

theorem Site.BetweenPumps.idle (h : σ.BetweenPumps R s) (hσ : σ.engine.Kept R) : s.Idle := by
  have search : ∀ {id : Nat} {query : Query} {own : Machine} {phase : Phase} {s : Session},
      σ.engine.queries[id]? = some query → query.machine = some own →
      Engine.obstacle σ.graph.toStore σ.engine.session id query = none →
      MovesTo (σ.program R) σ.engine.settings id (.search .backtrack own, σ.engine.session)
        (phase, s) → phase.Kept id s := by
    intro id query own phase s hq hm hobstacle hmoves
    obtain ⟨-, -, hopen⟩ := of_obstacle hobstacle
    exact (hmoves.kept ⟨hσ.idle, hσ.asks hq hm hopen⟩).1
  cases h with
  | rest => exact hσ.idle
  | closing id => exact hσ.idle.dismissed id
  | searching hq hm hobstacle hmoves hphase =>
    exact (search hq hm hobstacle hmoves).idle hphase
  | pumped hq hm hobstacle hmoves hends =>
    obtain ⟨hpumps, -⟩ := search hq hm hobstacle hmoves
    obtain ⟨h1, -, h2⟩ := hends.pumps hpumps
    exact h1.settled h2

end

/-- Completion detection is exact. Whenever no generator runs after a history without failures
since the tables were last cleared, a completion check from any roots completes exactly those
incomplete generators that are reached from the roots and reach nothing that can run. It
changes no results and completes no other generator. -/
theorem completion_exact {R : Registry} {rules : RuleSet} {base : RuleBase} {graph : Graph}
    {st : Settings} {σ : Site} {s : Session} (hbase : rules.compile R = .ok base)
    (h : (Site.new graph base st).Unfailing σ) (hs : σ.BetweenPumps R s) (roots : List Nat) :
    s.ChecksExactly roots := by
  have hnew : (Site.new graph base st).Sound R fun _ _ => True :=
    Site.new_sound (compiled_of_compile hbase graph)
  exact (hs.idle (h.kept (Engine.new_kept hbase graph st) hnew)).checksExactly roots

/-- In the chain of tables a check from the table of `p` leaves it incomplete, since it waits
for a table that can still run. -/
theorem completion_exact_chain : ∃ (s : Session) (g d : Nat),
    (Site.new {} Chain.base Chain.settings).Unfailing ⟨{}, Chain.opened.2⟩ ∧
    (Site.mk {} Chain.opened.2).BetweenPumps Builtin.standard s ∧
    s.ChecksExactly [g] ∧ s.Reaches g d ∧ s.Runnable d := by
  obtain ⟨query, own, own', s, hq, hm, hopen, hmoves, -, -, g, hg, hinc⟩ := Chain.reaches_returned
  have hbetween : (Site.mk {} Chain.opened.2).BetweenPumps Builtin.standard s :=
    .searching hq hm hopen hmoves id
  have hexact := fun roots =>
    completion_exact Chain.compile_rules Chain.unfailing_opened hbetween roots
  obtain ⟨gen', hgen', hinc'⟩ := Session.isIncomplete_iff.1 hinc
  obtain ⟨gen, hgen, -⟩ := (s.sameTables_checkCompletion (s.blockedOn 1)).generator hgen'
  obtain ⟨gen1, hgen1, -, hiff⟩ := (hexact (s.blockedOn 1)).complete hgen
  cases hgen'.symm.trans hgen1
  have hno := mt hiff.2 (by simp [hinc'])
  simp only [not_or, not_and, Session.Deadlocked, not_forall, not_not] at hno
  have hself : s.Reaches g g :=
    ⟨Session.isIncomplete_iff.2 ⟨gen, hgen, by simpa using hno.1⟩, .refl⟩
  obtain ⟨d, hd, hrun⟩ := hno.2 ⟨g, hg, hself⟩
  exact ⟨s, g, d, Chain.unfailing_opened, hbetween, hexact [g], hd, hrun⟩

end TabledRules
