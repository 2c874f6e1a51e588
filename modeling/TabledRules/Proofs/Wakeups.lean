-- No wake-up is lost. Between the runs of generators all that can go on is on
-- the agenda, so that a table which is completed by force has had all that
-- its generators could read.
import TabledRules.Proofs.KeptSites

namespace TabledRules

/-! ## Sessions -/

/-- Every generator that has not run, and every consumer of a generator that can go on, is on
the agenda. -/
structure Session.Alert (s : Session) : Prop where
  start : ∀ {g : Nat} {gen : Generator}, s.generators[g]? = some gen → gen.ready = true →
    .start g ∈ s.agenda.toList
  resume : ∀ {c z : Nat} {k : Consumer}, s.consumers[c]? = some k → k.owner = .generator z →
    s.isReady c = true → k.scheduled = true ∧ .resume c ∈ s.agenda.toList

/-- Completes generators as they are. -/
def Session.force (s : Session) (gs : List Nat) : Session :=
  gs.foldl (Session.complete .generatorDeadlocked) s

section

variable {s : Session} {q : Nat} {own : Machine}

theorem Session.Idle.alert (h : s.Idle) : s.Alert := by
  refine ⟨fun hg hr => (h.wired.start hg hr).2, fun {c z k} hc ho hready => ?_⟩
  obtain ⟨k', hc', hs, hunread⟩ := Session.isReady_iff.1 hready
  cases hc.symm.trans hc'
  obtain ⟨gen, hg, -⟩ := h.wired.reader hc
  have hsched : k.scheduled = true :=
    (h.wired.woken hc ho hs hg (hunread gen hg)).resolve_right id
  exact ⟨hsched, h.wired.resume hc hsched⟩

/-- A query that waits can go on once the tables it waits for are complete. -/
theorem Machine.Waits.goesOn {s' : Session} (h : own.Waits q s) (hs : s.Idle)
    (hspares : s.Spares (fun _ => False) s') (hs' : s'.Idle)
    (hdone : ∀ (g : Nat) (gen : Generator), g ∈ s.blockedOn q → s.generators[g]? = some gen →
      s'.Done (.generator g)) : s'.queryReady q = true := by
  obtain ⟨c, k, hk, ho, hsusp⟩ := h.waiting
  obtain ⟨gen, hgen, -⟩ := hs.wired.reader hk
  rcases hspares.consumer hk id with hgone | ⟨k', hk', hsame⟩
  · obtain ⟨waiting, hw⟩ := (h.spares hspares id).works
    rw [ho] at hgone
    cases hgone.2.symm.trans hw
  · refine hs'.wired.queryReady_of_done hk' (hsame.owner.trans ho) (hsame.suspended.trans hsusp) ?_
    rw [hsame.generator]
    exact hdone _ gen (hs.wired.mem_blockedOn hk ho hsusp) hgen

/-- With an empty agenda a check completes what the query waits for. -/
theorem Machine.Waits.checked (h : own.Waits q s) (hs : s.Idle) (hagenda : s.agenda.toList = []) :
    (s.checkCompletion (s.blockedOn q)).queryReady q = true := by
  have hspares := s.spares_checkCompletion (s.blockedOn q) fun _ => False
  refine h.goesOn hs hspares (hs.checkCompletion _) fun g gen hg hgen => ?_
  cases hc : gen.complete with
  | true => exact hspares.done ⟨gen, hgen, hc⟩
  | false =>
    rw [s.checkCompletion_eq]
    exact Session.done_completeAll _ _ hgen (Session.mem_dead_of_idle
      (hs.wired.spent hagenda).2 hg (Session.isIncomplete_iff.2 ⟨gen, hgen, hc⟩))

/-- A query can go on once the tables it waits for are completed by force. -/
theorem Machine.Waits.forced (h : own.Waits q s) (hs : s.Idle) :
    ((s.checkCompletion (s.blockedOn q)).force (s.blockedOn q)).queryReady q = true := by
  have hcheck := s.spares_checkCompletion (s.blockedOn q) fun _ => False
  refine h.goesOn hs (hcheck.trans (Session.spares_completeAll _ (s.blockedOn q) _ _))
    ((hs.checkCompletion _).completeAll _ _) fun g gen hg hgen => ?_
  obtain ⟨gen', hgen', -⟩ := hcheck.generator hgen
  exact Session.done_completeAll _ _ hgen' hg

end

/-! ## Histories -/

/-- No wake-up is lost. After every history without failures since the tables were last
cleared, and at every moment between the runs of generators in the search for the next answer
of a query, all that can go on is on the agenda. When the agenda was run and the query still
cannot go on, every generator has run and has read all that there is; if the agenda is empty
then, the completion check lets the query go on, and otherwise forced completion does. -/
theorem no_lost_wakeup {R : Registry} {rules : RuleSet} {base : RuleBase} {graph : Graph}
    {st : Settings} {σ : Site} (hbase : rules.compile R = .ok base)
    (h : (Site.new graph base st).Unfailing σ) :
    σ.engine.session.Alert ∧
    ∀ {id : Nat} {query : Query} {own : Machine}, σ.engine.queries[id]? = some query →
      query.machine = some own →
      Engine.obstacle σ.graph.toStore σ.engine.session id query = none →
      (∀ (fuel : Nat) (answer : Option Triple) (own' : Machine) (s' : Session),
        σ.engine.session.advance ((σ.program R).world σ.engine.settings) id fuel own =
          some (.ok answer, own', s') →
        MovesTo (σ.program R) σ.engine.settings id (.search .backtrack own, σ.engine.session)
          (.found answer own', s')) ∧
      ∀ (phase : Phase) (s : Session),
        MovesTo (σ.program R) σ.engine.settings id (.search .backtrack own, σ.engine.session)
          (phase, s) →
        (∀ (batch : List Nat) (own' : Machine), phase = .agenda batch own' → s.Alert) ∧
        (∀ own' : Machine, phase = .returned own' → s.queryReady id = false →
          s.Alert ∧ s.Spent ∧
          (s.agenda.toList = [] →
            (s.checkCompletion (s.blockedOn id)).queryReady id = true) ∧
          ((s.checkCompletion (s.blockedOn id)).force (s.blockedOn id)).queryReady id = true) := by
  have hnew : (Site.new graph base st).Sound R fun _ _ => True :=
    Site.new_sound (compiled_of_compile hbase graph)
  have hkept := h.kept (Engine.new_kept hbase graph st) hnew
  refine ⟨hkept.idle.alert, fun {id query own} hq hm hobstacle => ?_⟩
  obtain ⟨-, -, hopen⟩ := of_obstacle hobstacle
  refine ⟨fun fuel answer own' s' hadvance =>
    advance_moves (hkept.compiled _) (hkept.machine _ hq hm hopen) (hkept.formed _) hadvance,
    fun phase s hmoves => ?_⟩
  obtain ⟨hphase, -⟩ := hmoves.kept ⟨hkept.idle, hkept.asks hq hm hopen⟩
  refine ⟨?_, ?_⟩
  · rintro batch own' rfl
    obtain ⟨hidle, -⟩ := hphase
    exact hidle.alert
  · rintro own' rfl hno
    obtain ⟨hidle, hwaits, hready | hspent⟩ := hphase
    · rw [hno] at hready
      cases hready
    · exact ⟨hidle.alert, hspent, hwaits.checked hidle, hwaits.forced hidle⟩

/-! ## A chain of tables -/

namespace Chain

def uri (name : String) : Term := .node (.uri name)

def goal (name : String) : Triple := ⟨.var "x", uri name, .var "y"⟩

/-- What `p` has is what `q1` has, which is what `q2` has, which reads itself. -/
def rules : RuleSet :=
  { rules :=
      [⟨"p", goal "p", [.triple (goal "q1")]⟩, ⟨"q1", goal "q1", [.triple (goal "q2")]⟩,
        ⟨"q2", goal "q2", [.triple (goal "q2")]⟩]
    allTabled := true }

def base : RuleBase :=
  (rules.compile Builtin.standard).toOption.getD { clauses := {}, layout := rules.layout }

theorem compile_rules : rules.compile Builtin.standard = .ok base :=
  eq_ok_getD (by decide +kernel) _

def settings : Settings := { completionCycles := 2 }

def program : Program := ⟨Builtin.standard, base, ({} : Graph)⟩

/-- The engine after a query for `p` was opened. -/
def opened : Except Failure Handle × Engine :=
  (Engine.new (Graph.toStore {}) base settings).find (Graph.toStore {}) (goal "p")

theorem find_opened : (Engine.new (Graph.toStore {}) base settings).find (Graph.toStore {})
    (goal "p") = (.ok ⟨1, false⟩, opened.2) :=
  Engine.find_of_toOption (by decide +kernel)

theorem does_find : (Site.new {} base settings).Does (.find (goal "p"))
    (.opened (.ok ⟨1, false⟩)) ⟨{}, opened.2⟩ :=
  .find find_opened

theorem rules_opened : opened.2.rules = base ∧ opened.2.settings = settings := by
  obtain ⟨m, s', -, -, he⟩ := find_ok find_opened
  rw [he]
  exact ⟨rfl, rfl⟩

-- what the engine is made of is read by evaluation only
attribute [local irreducible] opened

/-- The machine of the query has nothing to try before the table of `p` is read. -/
def dry (own : Machine) : Option (Except Failure (Option Triple) × Machine × Session) :=
  own.next (program.world settings) 100 opened.2.session

/-- The query waits, and after the agenda was run it still waits for a table that a completion
check leaves incomplete. -/
abbrev stays (query : Query) (r : Except Failure (Option Triple) × Machine × Session)
    (x : Except Failure Unit × Session) : Prop :=
  Engine.obstacle (Graph.toStore {}) opened.2.session 1 query = none ∧
    r.1.toOption = some none ∧ (r.2.2.takeReady 1).isNone = true ∧ r.2.2.blocked 1 ≠ [] ∧
    x.1.toOption = some () ∧ x.2.queryReady 1 = false ∧
    (x.2.checkCompletion (x.2.blockedOn 1)).queryReady 1 = false ∧
    ∃ g ∈ x.2.blockedOn 1, (x.2.checkCompletion (x.2.blockedOn 1)).isIncomplete g = true

theorem returned_incomplete : (opened.2.queries[1]?.bind fun query => query.machine.bind fun own =>
    (dry own).bind fun r => (r.2.2.runAgenda (program.world settings) 1 100 []).map fun x =>
      decide (stays query r x)) = some true := by
  decide +kernel

theorem unfailing_opened : (Site.new {} base settings).Unfailing ⟨{}, opened.2⟩ :=
  .act .start id does_find

/-- The machine of the query runs dry, and then the agenda is run. -/
theorem reaches_returned : ∃ (query : Query) (own own' : Machine) (s : Session),
    opened.2.queries[1]? = some query ∧ query.machine = some own ∧
    Engine.obstacle (Graph.toStore {}) opened.2.session 1 query = none ∧
    MovesTo ((Site.mk {} opened.2).program Builtin.standard) opened.2.settings 1
      (.search .backtrack own, opened.2.session) (.returned own', s) ∧
    s.queryReady 1 = false ∧ (s.checkCompletion (s.blockedOn 1)).queryReady 1 = false ∧
    ∃ g ∈ s.blockedOn 1, (s.checkCompletion (s.blockedOn 1)).isIncomplete g = true := by
  obtain ⟨query, hquery, h⟩ := Option.bind_eq_some_iff.1 returned_incomplete
  obtain ⟨own, hown, h⟩ := Option.bind_eq_some_iff.1 h
  obtain ⟨⟨x, own', s1⟩, hdry, h⟩ := Option.bind_eq_some_iff.1 h
  obtain ⟨⟨y, s2⟩, hrun, h⟩ := Option.map_eq_some_iff.1 h
  obtain ⟨hopen, hx, htake, hblocked, hy, hready, hcheck, hinc⟩ := of_decide_eq_true h
  obtain rfl := ok_of_toOption hx
  obtain rfl := ok_of_toOption hy
  rw [Option.isNone_iff_eq_none] at htake
  have hkept : opened.2.Kept Builtin.standard :=
    does_find.kept id (Engine.new_kept compile_rules _ settings)
  obtain ⟨-, -, hq⟩ := of_obstacle hopen
  have hprogram : opened.2.program Builtin.standard (Graph.toStore {}) = program := by
    unfold Engine.program
    rw [rules_opened.1]
    rfl
  have hcompiled : program.Compiled := hprogram ▸ hkept.compiled _
  have hstart : Phase.Formed program opened.2.session (.search .backtrack own) := by
    rw [← hprogram]
    exact ⟨hkept.machine _ hquery hown hq, trivial, hkept.formed _⟩
  obtain ⟨control, m1, s0, s0', hmoves, hturn, -, he⟩ := next_moves hcompiled (q := 1) hstart
    .search .turn (fun h => ⟨h.1, h.2.1⟩) .refl hdry
  obtain rfl := he rfl
  have hagenda := (hmoves.tail (.dry hturn)).tail (.await htake hblocked)
  refine ⟨query, own, own', s2, hquery, hown, hopen, ?_, hready, hcheck, hinc⟩
  change MovesTo (opened.2.program Builtin.standard (Graph.toStore {})) _ _ _ _
  rw [hprogram, rules_opened.2]
  exact (runAgenda_moves hcompiled hstart hagenda hrun).1 rfl

end Chain

/-- In the chain of tables nothing is left to read when the table of `p` is completed by
force, and the query goes on then. -/
theorem no_lost_wakeup_chain : Chain.rules.compile Builtin.standard = .ok Chain.base ∧
    (Site.new {} Chain.base Chain.settings).Unfailing ⟨{}, Chain.opened.2⟩ ∧
    Chain.opened.2.session.Alert ∧
    ∃ s : Session, s.queryReady 1 = false ∧ s.Alert ∧ s.Spent ∧
      ((s.checkCompletion (s.blockedOn 1)).force (s.blockedOn 1)).queryReady 1 = true := by
  obtain ⟨query, own, own', s, hq, hm, hopen, hmoves, hready, -⟩ := Chain.reaches_returned
  obtain ⟨halert, hall⟩ := no_lost_wakeup Chain.compile_rules Chain.unfailing_opened
  obtain ⟨hs, hspent, -, hforced⟩ := ((hall hq hm hopen).2 _ s hmoves).2 own' rfl hready
  exact ⟨Chain.compile_rules, Chain.unfailing_opened, halert, s, hready, hs, hspent, hforced⟩

/-- Forced completion is needed: in the chain of tables the agenda was run, the completion check
does not let the query go on, and the table that it waits for is not complete. -/
theorem chain_needs_force : ∃ (σ : Site) (query : Query) (own own' : Machine) (s : Session),
    (Site.new {} Chain.base Chain.settings).Unfailing σ ∧ σ.engine.queries[1]? = some query ∧
    query.machine = some own ∧
    Engine.obstacle σ.graph.toStore σ.engine.session 1 query = none ∧
    MovesTo (σ.program Builtin.standard) σ.engine.settings 1
      (.search .backtrack own, σ.engine.session) (.returned own', s) ∧
    s.queryReady 1 = false ∧ (s.checkCompletion (s.blockedOn 1)).queryReady 1 = false ∧
    ∃ g ∈ s.blockedOn 1, (s.checkCompletion (s.blockedOn 1)).isIncomplete g = true := by
  obtain ⟨query, own, own', s, h⟩ := Chain.reaches_returned
  exact ⟨⟨{}, Chain.opened.2⟩, query, own, own', s, Chain.unfailing_opened, h⟩

end TabledRules
