-- What a failure leaves behind. One that is fatal leaves a mark, under which nothing is
-- looked for until all is cleared. One that is not leaves everything as it was, as long as
-- the builtins fail fatally or not at all: the tables are given up whenever the work on
-- them was cut short.
import TabledRules.Proofs.DeadQueries

namespace TabledRules

/-! ## Builtins that fail fatally -/

/-- Where the store can be read, every failure of a builtin is fatal. -/
def Registry.FailsFatally (R : Registry) : Prop :=
  ∀ (name : String) (f : Builtin) (g : Graph) (c : CallContext) (args : List Term)
    (failure : Failure), R.get? name = some f → c.store = g.toStore →
    f.call c args = some (.error failure) → failure.isFatal = true

/-- The standard builtins fail by faults of their own. -/
theorem Builtin.failsFatally_standard : standard.FailsFatally := by
  intro name f g c args e hget hstore h
  have hfault : ∀ name detail, (c.fault name detail).isFatal = true := by
    intro name detail
    unfold CallContext.fault
    split <;> rfl
  have htest : ∀ {name arity} {holds : CallContext → List Term → Option Bool},
      (test name arity holds).call c args = some (.error e) → e.isFatal = true := by
    intro name arity holds h
    obtain ⟨yes, -, h⟩ := Option.map_eq_some_iff.1 h
    cases h
  have habsent : ∀ {x : Option Triple}, (x.bind fun pattern =>
      some ((c.store.contains pattern).map fun found =>
        if found then (none : Option (List (Term × Term))) else some [])) =
        some (.error e) → e.isFatal = true := by
    intro x h
    obtain ⟨pattern, -, h⟩ := Option.bind_eq_some_iff.1 h
    rw [hstore] at h
    cases h
  have hmem : f = equal ∨ f = notEqual ∨ f = bound ∨ f = unbound ∨ f = lessThan ∨
      f = greaterThan ∨ f = sum ∨ f = noValue := by
    simpa [standard] using List.mem_of_find?_eq_some hget
  rcases hmem with rfl | rfl | rfl | rfl | rfl | rfl | rfl | rfl
  · exact htest h
  · exact htest h
  · exact htest h
  · exact htest h
  · exact htest h
  · exact htest h
  · rcases args with _ | ⟨a, _ | ⟨b, _ | ⟨total, _⟩⟩⟩
    · cases h
    · cases h
    · cases h
    · obtain ⟨x, -, h⟩ := Option.bind_eq_some_iff.1 h
      obtain ⟨y, -, h⟩ := Option.bind_eq_some_iff.1 h
      split at h
      · split at h
        · cases h
        · cases h
          exact hfault _ _
      · cases h
  · rcases args with _ | ⟨s, _ | ⟨p, _ | ⟨o, _ | _⟩⟩⟩
    · cases h
      exact hfault _ _
    · cases h
      exact hfault _ _
    · exact habsent h
    · exact habsent h
    · cases h
      exact hfault _ _

section

variable {R : Registry} {K : Nat → Triple → Prop} {σ σ' : Site} {g : Graph} {e e' : Engine}
  {store : Store} {a : Act} {r : Reply} {failure : Failure} {detail : String}

/-- Whatever goes wrong inside of an engine is fatal. -/
theorem Engine.fatal_of_raises (hR : R.FailsFatally)
    {asked : Inquiry → Prop} (h : (e.program R g.toStore).Raises asked failure) :
    failure.isFatal = true := by
  cases h with
  | overflow => rfl
  | store _ hfind => cases hfind
  | builtin _ hf hstore hcall => exact hR _ _ _ _ _ _ hf hstore hcall

/-! ## Failures that are not fatal -/

/-- A failure that is not fatal leaves the engine as it is. -/
theorem Engine.Kept.harmless (h : e.Kept R) (hR : R.FailsFatally)
    (hdoes : e.Does g.toStore a r e') (hr : r.Fails failure) :
    failure.isFatal = true ∨ e' = e := by
  have fill : ∀ {fuel id : Nat} {take : Bool},
      e.fill g.toStore fuel id take = some (.error failure, e') →
      failure.isFatal = true ∨ e' = e := by
    intro fuel id take hfill
    unfold Engine.fill at hfill
    split at hfill
    · cases hfill
      exact .inr rfl
    · next query hq =>
      split at hfill
      · cases hfill
        exact .inr rfl
      · next hobstacle =>
        obtain ⟨-, -, hopen⟩ := of_obstacle hobstacle
        split at hfill
        · cases hfill
        · next f q' s' hlook =>
          cases hfill
          rcases lookAhead_cases (P := e.program R g.toStore) (h.compiled g.toStore)
            (h.formed g.toStore) (fun m hm => h.machine g.toStore hq hm hopen) hlook with
            ⟨hx, -⟩ | ⟨f, m, hx, hm, x, hmoves, hstops⟩
          · cases hx
          · cases hx
            exact .inl (Engine.fatal_of_raises hR (hstops.raises (h.compiled g.toStore)
              (hmoves.kept ⟨h.idle, h.asks hq hm hopen⟩).1
              (hmoves.formed (h.compiled g.toStore)
                ⟨h.machine g.toStore hq hm hopen, trivial, h.formed g.toStore⟩)))
        · cases hfill
  cases hdoes with
  | @find _ pattern x hfind =>
    rcases hr with hr | hr | hr <;> cases hr
    unfold Engine.find at hfind
    split at hfind
    · cases hfind
      exact .inr rfl
    · simp only [Session.openQuery] at hfind
      split at hfind
      · next hstart =>
        cases hfind
        exact .inl (Engine.fatal_of_raises hR
          (startQuery_raises (P := e.program R g.toStore) hstart))
      · cases hfind
  | next hnext =>
    rcases hr with hr | hr | hr <;> cases hr
    exact fill hnext
  | hasNext hnext =>
    rcases hr with hr | hr | hr <;> cases hr
    obtain ⟨⟨y, e1⟩, hfill, hmap⟩ := Option.map_eq_some_iff.1 hnext
    cases y with
    | ok answer => cases hmap
    | error f =>
      cases hmap
      exact fill hfill
  | _ => rcases hr with hr | hr | hr <;> cases hr

theorem fails_of_failed (h : r.Failed) : ∃ failure, r.Fails failure := by
  unfold Reply.Failed at h
  split at h
  · exact ⟨_, .inl rfl⟩
  · exact ⟨_, .inr (.inl rfl)⟩
  · exact ⟨_, .inr (.inr rfl)⟩
  · exact h.elim

theorem Reply.Fails.failed (h : r.Fails failure) : r.Failed := by
  rcases h with rfl | rfl | rfl <;> trivial

/-- What fails and leaves the engine alone changes nothing. -/
theorem Site.Does.eq_of_failed (h : σ.Does a r σ') (hr : r.Failed) (hsame : σ'.engine = σ.engine) :
    σ' = σ := by
  cases h with
  | add => exact hr.elim
  | delete => exact hr.elim
  | _ => exact congrArg (Site.mk _) hsame

/-! ## The mark of a fatal failure -/

/-- Under the mark of a fatal failure nothing is looked for. -/
theorem Engine.fill_of_poisoned (store : Store) (h : e.session.poisoned = some detail) (id : Nat)
    (take : Bool) :
    ∃ failure, ∀ fuel, e.fill store fuel id take = some (.error failure, e) := by
  unfold Engine.fill
  cases hq : e.queries[id]? with
  | none => exact ⟨_, fun _ => rfl⟩
  | some query =>
    cases hobstacle : Engine.obstacle store e.session id query with
    | none =>
      rw [poisoned_of_obstacle hobstacle] at h
      cases h
    | some failure => exact ⟨failure, fun _ => by simp only [hobstacle]⟩

theorem Engine.fill_eq_of_poisoned (h : e.session.poisoned = some detail) {fuel id : Nat}
    {take : Bool} {x : Except Failure (Option Triple)}
    (hfill : e.fill store fuel id take = some (x, e')) : e' = e := by
  obtain ⟨failure, hsame⟩ := fill_of_poisoned store h id take
  cases (hsame fuel).symm.trans hfill
  rfl

/-- Under the mark no query is opened. -/
theorem Engine.find_of_poisoned (store : Store) (h : e.session.poisoned = some detail)
    (pattern : Triple) :
    e.find store pattern = (.error (.runtime (.sessionInvalid detail)), e) := by
  unfold Engine.find
  rw [h]

/-- The mark stays until all is cleared. -/
theorem Engine.Does.still_poisoned (hdoes : e.Does store a r e')
    (h : e.session.poisoned = some detail) : a = .reset ∨ e'.session.poisoned = some detail := by
  have closed : ∀ id, (e.closeQuery id).session.poisoned = some detail := by
    intro id
    unfold Engine.closeQuery
    split
    · exact h
    · split
      · exact h
      · exact (e.session.narrows_closeQuery id).poisoned.trans h
  cases hdoes with
  | find hfind =>
    rw [find_of_poisoned store h] at hfind
    cases hfind
    exact .inr h
  | next hnext =>
    rw [fill_eq_of_poisoned h hnext]
    exact .inr h
  | hasNext hnext =>
    obtain ⟨⟨y, e1⟩, hfill, hmap⟩ := Option.map_eq_some_iff.1 hnext
    cases hmap
    rw [fill_eq_of_poisoned h hfill]
    exact .inr h
  | close => exact .inr (closed _)
  | clone => exact .inr h
  | @drop handle =>
    unfold Engine.drop
    split
    · exact .inr h
    · split
      · exact .inr (closed handle.query)
      · exact .inr h
  | reset => exact .inl rfl
  | nextMessage => exact .inr h
  | printProfile =>
    obtain ⟨j, hj⟩ := e.printProfile_eq
    rw [hj]
    exact .inr h

theorem Site.Does.still_poisoned (hdoes : σ.Does a r σ')
    (h : σ.engine.session.poisoned = some detail) :
    a = .reset ∨ σ'.engine.session.poisoned = some detail := by
  rcases hdoes.engine with hengine | hsame
  · exact hengine.still_poisoned h
  · rw [hsame]
    exact .inr h

theorem Site.Runs.still_poisoned (hruns : σ.Runs (fun a _ => a ≠ .reset) σ')
    (h : σ.engine.session.poisoned = some detail) :
    σ'.engine.session.poisoned = some detail := by
  induction hruns with
  | refl => exact h
  | tail _ hstep ih =>
    obtain ⟨a, r, hno, hdoes⟩ := hstep
    exact (hdoes.still_poisoned ih).resolve_left hno

/-- Under the mark an act that fails changes nothing. -/
theorem Engine.Does.eq_of_poisoned (hdoes : e.Does store a r e')
    (h : e.session.poisoned = some detail) (hr : r.Fails failure) : e' = e := by
  cases hdoes with
  | find hfind =>
    rw [find_of_poisoned store h] at hfind
    cases hfind
    rfl
  | @next _ fuel handle x hnext => exact fill_eq_of_poisoned h hnext
  | @hasNext _ fuel handle x hnext =>
    obtain ⟨⟨y, e1⟩, hfill, hmap⟩ := Option.map_eq_some_iff.1 hnext
    cases hmap
    exact fill_eq_of_poisoned h hfill
  | _ => rcases hr with hr | hr | hr <;> cases hr

/-! ## Histories of any kind -/

/-- The engine has failed fatally, or its bookkeeping holds. -/
def Site.Guarded (R : Registry) (σ : Site) : Prop :=
  (∃ detail, σ.engine.session.poisoned = some detail) ∨ σ.engine.Kept R

/-- Whatever is done, tables that are in disorder are not used. -/
theorem Site.Guarded.does (h : σ.Guarded R) (hR : R.FailsFatally) (hσ : σ.Sound R K)
    (hdoes : σ.Does a r σ') : σ'.Guarded R := by
  rcases h with ⟨detail, hpoisoned⟩ | hkept
  · rcases hdoes.still_poisoned hpoisoned with rfl | hpoisoned
    · cases hdoes
      exact .inr (.of_cleared hσ.compiled hσ.query_lt rfl rfl rfl)
    · exact .inl ⟨detail, hpoisoned⟩
  · by_cases hr : r.Failed
    · obtain ⟨failure, hfails⟩ := fails_of_failed hr
      have hengine := hdoes.engine_of_fails hfails
      rcases hkept.harmless hR hengine hfails with hfatal | hsame
      · exact .inl ⟨_, hengine.poisons hfails hfatal⟩
      · rw [hdoes.eq_of_failed hr hsame]
        exact .inr hkept
    · exact .inr (hdoes.kept hr hkept)

theorem Site.Guarded.runs {ok : Act → Reply → Prop} (h : σ.Guarded R) (hR : R.FailsFatally)
    (hσ : σ.Sound R K) (hruns : σ.Runs ok σ') : σ'.Guarded R := by
  induction hruns with
  | refl => exact h
  | tail hbefore hstep ih =>
    obtain ⟨a, r, -, hdoes⟩ := hstep
    obtain ⟨-, -, L, hL, -⟩ := hσ.runs hbefore
    exact ih.does hR hL hdoes

end

/-! ## Failures in a history -/

/-- A failure never leaves tables in use that are half changed, where the builtins fail fatally
or not at all. After any history, one that is fatal leaves a mark: whatever is done then, no
query can be opened until all is cleared, and the reason is told. One that is not has changed
nothing. -/
theorem failure_spoils_nothing {R : Registry} {rules : RuleSet} {base : RuleBase} {g : Graph}
    {st : Settings} {σ σ' : Site} {a : Act} {r : Reply} {failure : Failure}
    (hbase : rules.compile R = .ok base) (hR : R.FailsFatally)
    (hruns : (Site.new g base st).Runs (fun _ _ => True) σ) (hdoes : σ.Does a r σ')
    (hr : r.Fails failure) :
    (failure.isFatal = true → ∀ σ'' : Site, σ'.Runs (fun a _ => a ≠ .reset) σ'' →
      ∀ pattern, σ''.engine.find σ''.graph.toStore pattern =
        (.error (.runtime (.sessionInvalid failure.message)), σ''.engine)) ∧
    (failure.isFatal = false → σ' = σ) := by
  have hengine := hdoes.engine_of_fails hr
  have hnew : (Site.new g base st).Sound R fun _ _ => True :=
    Site.new_sound (compiled_of_compile hbase g)
  have hguarded : (Site.new g base st).Guarded R := .inr (Engine.new_kept hbase _ st)
  refine ⟨fun hfatal σ'' hafter pattern => ?_, fun hno => ?_⟩
  · exact Engine.find_of_poisoned _ (hafter.still_poisoned (hengine.poisons hr hfatal)) pattern
  · refine hdoes.eq_of_failed hr.failed ?_
    rcases hguarded.runs hR hnew hruns with ⟨detail, hpoisoned⟩ | hkept
    · exact hengine.eq_of_poisoned hpoisoned hr
    · exact (hkept.harmless hR hengine hr).resolve_left (by simp [hno])

namespace Broken

def graph : Graph := .ofTriples [edge "e" (uri "a") (uri "b")]

theorem registry_failsFatally : registry.FailsFatally := by
  intro name f g c args failure hget _ hcall
  obtain rfl : f = { name := "break", call := fun _ _ => some (.error (.invalidState "broken")) } :=
    List.mem_singleton.1 (List.mem_of_find?_eq_some hget)
  cases hcall
  rfl

theorem runs_opened : (Site.new graph base {}).Runs (fun _ _ => True) ⟨graph, opened.2⟩ :=
  .single ⟨.find (edge "p" (.var "x") (.var "y")), .opened opened.1, trivial,
    .find Prod.mk.eta.symm⟩

end Broken

/-- A builtin that is called in the run of a generator breaks. Every later query is told so. -/
theorem failure_spoils_nothing_broken : Broken.registry.FailsFatally ∧
    ∃ e : Engine, Site.Does ⟨Broken.graph, Broken.opened.2⟩ (.next ⟨1, false⟩)
        (.answer (.error (.invalidState "broken"))) ⟨Broken.graph, e⟩ ∧
      ∀ pattern, e.find Broken.graph.toStore pattern =
        (.error (.runtime (.sessionInvalid "Invalid state: broken")), e) := by
  obtain ⟨e, hdoes⟩ := Broken.does_next
  have hnext : Site.Does ⟨Broken.graph, Broken.opened.2⟩ (.next ⟨1, false⟩)
      (.answer (.error (.invalidState "broken"))) ⟨Broken.graph, e⟩ := by
    cases hdoes with
    | next h => exact .next h
  obtain ⟨hmark, -⟩ := failure_spoils_nothing Broken.compile_rules Broken.registry_failsFatally
    Broken.runs_opened hnext (.inr (.inl rfl))
  exact ⟨Broken.registry_failsFatally, e, hnext, hmark rfl _ .refl⟩

/-! ## Failures that are not fatal in the middle of the work -/

namespace Lenient

open Broken (uri edge)

/-- A builtin that fails in a way that is not fatal. -/
def raise : Builtin :=
  { name := "raise"
    arity := 1
    call := fun _ _ => some (.error (.runtime .iteratorClosed)) }

def registry : Registry := Builtin.standard.register raise

def rules : RuleSet :=
  { rules := [⟨"r1", edge "p" (.var "x") (.var "y"), [.triple (edge "e" (.var "x") (.var "y")),
      .builtin ⟨"raise", [.node (.literal (.string "closed"))]⟩]⟩]
    tabled := [uri "p"] }

def base : RuleBase :=
  (rules.compile registry).toOption.getD { clauses := {}, layout := rules.layout }

theorem compile_rules : rules.compile registry = .ok base :=
  eq_ok_getD (by decide +kernel) _

def pattern : Triple := edge "p" (.var "x") (.var "y")

/-- Opens a query with the given id and reads it once. -/
def ask (id : Nat) (e : Engine) : Option (Except Failure (Option Triple) × Engine) :=
  if (e.find Broken.graph.toStore pattern).1.toOption = some ⟨id, false⟩ then
    (e.find Broken.graph.toStore pattern).2.next Broken.graph.toStore 1000 ⟨id, false⟩
  else none

/-- How a read comes out. -/
def outcome : Except Failure (Option Triple) → Failure ⊕ Option Triple
  | .error failure => .inl failure
  | .ok answer => .inr answer

theorem outcome_inj {x y : Except Failure (Option Triple)} (h : outcome x = outcome y) : x = y := by
  cases x <;> cases y <;> cases h <;> rfl

theorem does_ask {id : Nat} {e e' : Engine} {x : Except Failure (Option Triple)}
    (h : ask id e = some (x, e')) : ∃ opened : Engine,
      Site.Does ⟨Broken.graph, e⟩ (.find pattern) (.opened (.ok ⟨id, false⟩))
        ⟨Broken.graph, opened⟩ ∧
      Site.Does ⟨Broken.graph, opened⟩ (.next ⟨id, false⟩) (.answer x) ⟨Broken.graph, e'⟩ := by
  unfold ask at h
  split at h
  · next hfind => exact ⟨_, .find (Engine.find_of_toOption hfind), .next h⟩
  · cases h

/-- The first read is told of the failure, and the second finds nothing. -/
theorem asked_twice : ((ask 1 (Engine.new Broken.graph.toStore base {})).bind fun x =>
    (ask 4 x.2).map fun y => (outcome x.1, x.2.session.poisoned, outcome y.1)) =
      some (.inl (.runtime .iteratorClosed), none, .inr none) := by
  decide +kernel

end Lenient

/-- A failure of a builtin that is not fatal spoils a table: no mark is left when it cuts short the
work on the table of `p`, and the same query, which fails on a new engine, ends without an answer
then. -/
theorem lenient_failure_spoils_table : Lenient.rules.compile Lenient.registry = .ok Lenient.base ∧
    ∃ e₁ e₂ e₃ e₄ : Engine,
      (Site.new Broken.graph Lenient.base {}).Does (.find Lenient.pattern)
        (.opened (.ok ⟨1, false⟩)) ⟨Broken.graph, e₁⟩ ∧
      Site.Does ⟨Broken.graph, e₁⟩ (.next ⟨1, false⟩) (.answer (.error (.runtime .iteratorClosed)))
        ⟨Broken.graph, e₂⟩ ∧
      e₂.session.poisoned = none ∧
      Site.Does ⟨Broken.graph, e₂⟩ (.find Lenient.pattern) (.opened (.ok ⟨4, false⟩))
        ⟨Broken.graph, e₃⟩ ∧
      Site.Does ⟨Broken.graph, e₃⟩ (.next ⟨4, false⟩) (.answer (.ok none)) ⟨Broken.graph, e₄⟩ := by
  obtain ⟨⟨x, e₂⟩, hfirst, h⟩ := Option.bind_eq_some_iff.1 Lenient.asked_twice
  obtain ⟨⟨y, e₄⟩, hsecond, h⟩ := Option.map_eq_some_iff.1 h
  obtain ⟨hx, hclean, hy⟩ : Lenient.outcome x = .inl (.runtime .iteratorClosed) ∧
      e₂.session.poisoned = none ∧ Lenient.outcome y = .inr none := by simpa using h
  obtain rfl : x = .error (.runtime .iteratorClosed) := Lenient.outcome_inj hx
  obtain rfl : y = .ok none := Lenient.outcome_inj hy
  obtain ⟨e₁, hfind, hnext⟩ := Lenient.does_ask hfirst
  obtain ⟨e₃, hfind', hnext'⟩ := Lenient.does_ask hsecond
  exact ⟨Lenient.compile_rules, e₁, e₂, e₃, e₄, hfind, hnext, hclean, hfind', hnext'⟩

end TabledRules
