-- Termination under full tabling. Where all goals keep tables and the rules build no terms,
-- every call comes to an end after every history of queries, and every query returns
-- finitely many answers: a table has finitely many results, and a query that has no table
-- goes through the store once.
import TabledRules.Proofs.ReadTables
import TabledRules.Proofs.StoreQueries
import TabledRules.Proofs.TameSites

namespace TabledRules

/-! ## Sites -/

/-- The rules keep tables for all goals and build no terms, and nothing was done but to ask for
simple patterns and to store ground triples. -/
structure Site.Simple (rules : RuleSet) (σ : Site) : Prop where
  compiled : rules.compile Builtin.standard = .ok σ.engine.rules
  simple : rules.Simple
  ground : σ.Ground
  sound : ∃ K, σ.Sound Builtin.standard K
  tame : σ.Tame

section

variable {rules : RuleSet} {base : RuleBase} {graph : Graph} {st : Settings} {σ σ' : Site} {a : Act}
  {r : Reply} {ok : Act → Reply → Prop}

theorem Site.Simple.new (hbase : rules.compile Builtin.standard = .ok base) (hrules : rules.Simple)
    (hground : ∀ t ∈ graph.triples, t.isGround = true) (st : Settings) :
    (Site.new graph base st).Simple rules where
  compiled := hbase
  simple := hrules
  ground := hground
  sound := ⟨fun _ _ => True, Site.new_sound (compiled_of_compile hbase graph)⟩
  tame := .inr ⟨Engine.new_kept hbase graph st, .of_cleared rfl rfl rfl⟩

theorem Site.Simple.program (h : σ.Simple rules) :
    (σ.program Builtin.standard).Simple σ.graph.triples :=
  simple_of_compile h.compiled h.simple h.ground

theorem Site.Simple.does (h : σ.Simple rules) (hplain : a.Plain) (hdoes : σ.Does a r σ') :
    σ'.Simple rules := by
  obtain ⟨K, hK⟩ := h.sound
  obtain ⟨L, hL⟩ := hK.does hdoes
  refine ⟨?_, h.simple, hdoes.ground h.ground hplain.added, ⟨L, hL.sound⟩,
    h.tame.does hK h.program hplain hdoes⟩
  rw [hL.rules]
  exact h.compiled

theorem Site.Simple.runs (h : σ.Simple rules) (hruns : σ.Runs (fun a _ => a.Plain) σ') :
    σ'.Simple rules := by
  induction hruns with
  | refl => exact h
  | tail _ hstep ih =>
    obtain ⟨a, r, hplain, hdoes⟩ := hstep
    exact ih.does hplain hdoes

/-! ## Calls -/

/-- Every query is read to an outcome. -/
theorem Site.Simple.fill_ends (h : σ.Simple rules) (id : Nat) (take : Bool) :
    ∃ n x, ∀ k, n ≤ k → σ.engine.fill σ.graph.toStore k id take = some x := by
  rcases h.tame with hpoisoned | ⟨hkept, hflat⟩
  · obtain ⟨detail, hpoisoned⟩ := Option.isSome_iff_exists.1 hpoisoned
    obtain ⟨failure, hfill⟩ := Engine.fill_of_poisoned σ.graph.toStore hpoisoned id take
    exact ⟨0, _, fun k _ => hfill k⟩
  · obtain ⟨K, hK⟩ := h.sound
    obtain ⟨n, x, -, hsteady⟩ := (hflat.fill_settles hkept hK h.program id take).steady
    exact ⟨n, x, hsteady⟩

/-! ## Answers -/

/-- What the query returned in the course of what was done. -/
def returnedIn (id : Nat) (L : List (Act × Reply)) : List Triple :=
  L.flatMap fun x => x.2.returned id x.1

/-- What an act returns from a query: the answer that it takes, or nothing. -/
theorem returned_cases (id : Nat) (a : Act) (r : Reply) :
    (∃ handle t, a = .next handle ∧ handle.query = id ∧ r = .answer (.ok (some t)) ∧
      r.returned id a = [t]) ∨
    r.returned id a = [] ∧
      ∀ handle t, a = .next handle → handle.query = id → r ≠ .answer (.ok (some t)) := by
  unfold Reply.returned
  split
  · next handle t =>
    split
    · next hid => exact .inl ⟨handle, t, rfl, hid, rfl, rfl⟩
    · next hid =>
      refine .inr ⟨rfl, fun handle' t' e hid' => ?_⟩
      cases e
      exact absurd hid' hid
  · next hno =>
    refine .inr ⟨rfl, fun handle t e hid e' => ?_⟩
    exact hno handle t e e'

/-- A dead query returns nothing. -/
theorem Site.Dead.returned {id version : Nat} (h : σ.Dead id version) (hdoes : σ.Does a r σ') :
    r.returned id a = [] := by
  rcases returned_cases id a r with ⟨handle, t, rfl, hid, rfl, -⟩ | ⟨hnil, -⟩
  · obtain ⟨failure, -, hfill⟩ := h.fill
    cases hdoes with
    | next hnext =>
      unfold Engine.next at hnext
      rw [hid] at hnext
      cases (hfill _ _).symm.trans hnext
  · exact hnil

theorem returned_of_failed (id : Nat) (a : Act) (h : r.Failed) : r.returned id a = [] := by
  rcases returned_cases id a r with ⟨handle, t, -, -, rfl, -⟩ | ⟨hnil, -⟩
  · exact h.elim
  · exact hnil

/-- The query, which was opened on this version of the store, has returned `ts`. That is `N`
answers at most, and it is dead or `live` holds. -/
structure Site.Traces (live : List Triple → Site → Prop) (id version N : Nat) (ts : List Triple)
    (σ : Site) : Prop where
  opened : σ.Opened id version
  length_le : ts.length ≤ N
  state : σ.Dead id version ∨ live ts σ

/-- `live` limits what the query has returned, and it lasts as long as the store is the same and
nothing fails. -/
structure Site.Lasts (live : List Triple → Site → Prop) (rules : RuleSet) (id N : Nat) : Prop where
  length_le : ∀ {σ : Site} {ts : List Triple}, live ts σ → σ.Simple rules → σ.Flat → ts.length ≤ N
  does : ∀ {σ σ' : Site} {ts : List Triple} {a : Act} {r : Reply}, live ts σ → σ.Simple rules →
    σ.engine.Kept Builtin.standard → σ.Does a r σ' → ¬ r.Failed → a ≠ .reset →
    σ'.graph = σ.graph → live (ts ++ r.returned id a) σ'

section

variable {live : List Triple → Site → Prop} {id version N : Nat} {ts : List Triple}

theorem Site.Traces.does (h : σ.Traces live id version N ts) (hlive : Site.Lasts live rules id N)
    (hσ : σ.Simple rules) (hplain : a.Plain) (hdoes : σ.Does a r σ') :
    σ'.Traces live id version N (ts ++ r.returned id a) := by
  have hopened := h.opened.does hdoes
  -- the query is dead now
  have gone : r.returned id a = [] → σ'.Dead id version →
      σ'.Traces live id version N (ts ++ r.returned id a) := by
    intro hnil hdead
    rw [hnil, List.append_nil]
    exact ⟨hopened, h.length_le, .inl hdead⟩
  rcases h.state with hdead | hstate
  · exact gone (hdead.returned hdoes) (hdead.does hdoes)
  · rcases hσ.tame with hpoisoned | ⟨hkept, hflat⟩
    · have hdead : σ.Dead id version := ⟨h.opened, fun _ => .inr (.inr (.inr hpoisoned))⟩
      exact gone (hdead.returned hdoes) (hdead.does hdoes)
    · by_cases hr : r.Failed
      · obtain ⟨failure, hfails⟩ := fails_of_failed hr
        have hnil := returned_of_failed id a hr
        rcases hkept.harmless Builtin.failsFatally_standard (hdoes.engine_of_fails hfails) hfails
          with hfatal | hsame
        · exact gone hnil ((Site.Kills.failed hfails hfatal).dead hdoes h.opened)
        · rw [hdoes.eq_of_failed hr hsame, hnil, List.append_nil]
          exact h
      by_cases hreset : a = .reset
      · subst hreset
        exact gone rfl (Site.Kills.reset.dead hdoes h.opened)
      by_cases hgraph : σ'.graph = σ.graph
      · obtain ⟨K, hK⟩ := hσ.sound
        have hafter := hlive.does hstate hσ hkept hdoes hr hreset hgraph
        exact ⟨hopened, hlive.length_le hafter (hσ.does hplain hdoes)
          (hflat.does hkept hK hσ.program hplain hdoes hr), .inr hafter⟩
      · -- the store has a version that it never had before
        rcases hdoes.engine_or_store with ⟨-, hsame⟩ | ⟨-, hnil⟩
        · exact absurd hsame hgraph
        · refine gone (hnil id) ((Site.Kills.changed fun e => hgraph (hdoes.graph_eq ?_)).dead hdoes
            h.opened)
          have hle := hdoes.version_le
          have hle' := h.opened.version_le
          omega

theorem Site.Traces.trace {L : List (Act × Reply)} (h : σ.Traces live id version N ts)
    (hlive : Site.Lasts live rules id N) (hσ : σ.Simple rules) (hplain : ∀ x ∈ L, x.1.Plain)
    (htrace : σ.Trace L σ') : (ts ++ returnedIn id L).length ≤ N := by
  induction htrace generalizing ts with
  | nil =>
    rw [returnedIn, List.flatMap_nil, List.append_nil]
    exact h.length_le
  | @cons σ σ1 σ2 a r L hdoes _ ih =>
    have hact : a.Plain := hplain _ List.mem_cons_self
    rw [returnedIn, List.flatMap_cons, ← List.append_assoc]
    exact ih (h.does hlive hσ hact hdoes) (hσ.does hact hdoes)
      fun x hx => hplain x (List.mem_cons_of_mem _ hx)

end

/-- A query that reads a table returns no more than the table can hold. -/
theorem reading_lasts {pattern : Triple} (g : Graph) (id t : Nat)
    (hbase : rules.compile Builtin.standard = .ok base) :
    Site.Lasts (fun ts σ => σ.graph = g ∧ σ.Reading pattern id t [] ts) rules id
      ((Program.mk Builtin.standard base g.toStore).stock g.triples
        pattern.variantKey).results.length where
  length_le := by
    rintro σ ts ⟨rfl, hreading⟩ hσ hflat
    obtain ⟨gen, hgen, hgoal, hts⟩ := hreading.begins
    obtain ⟨hnodup, hsettled⟩ := (hflat.tables hreading.version).results hgen
    have hrules : σ.engine.rules = base := Except.ok.inj (hσ.compiled.symm.trans hbase)
    rw [← hgoal, ← hrules]
    exact hts.length_le.trans (Stock.length_le_results hnodup hsettled)
  does := by
    rintro σ σ' ts a r ⟨rfl, hreading⟩ hσ hkept hdoes hr hreset hgraph
    obtain ⟨K, hK⟩ := hσ.sound
    obtain ⟨hother, hanswer⟩ := hreading.does hkept hK hσ.ground hdoes hr hreset hgraph
    refine ⟨hgraph, ?_⟩
    rcases returned_cases id a r with ⟨handle, u, ha, hid, hu, e⟩ | ⟨hnil, hno⟩
    · rw [e]
      exact hanswer handle u ha hid hu
    · rw [hnil, List.append_nil]
      exact hother hno

/-- A query that goes through the store returns each stored triple once. -/
theorem scanning_lasts (rules : RuleSet) (id N : Nat) :
    Site.Lasts (fun ts σ => σ.Scanning id N ts) rules id N where
  length_le h _ _ := h.length_le
  does h _ hkept hdoes hr _ _ := h.does hkept hdoes hr

/-- A query that is opened returns at most so many answers, whatever is done then. -/
theorem Site.Simple.answers {pattern : Triple} {handle : Handle} (hσ : σ.Simple rules)
    (hdoes : σ.Does (.find pattern) (.opened (.ok handle)) σ')
    (hpattern : (Act.find pattern).Plain) :
    ∃ N, ∀ L σ'', σ'.Trace L σ'' → (∀ x ∈ L, x.1.Plain) →
      (returnedIn handle.query L).length ≤ N := by
  have hσ' := hσ.does hpattern hdoes
  obtain ⟨live, N, hlive, hnew⟩ : ∃ (live : List Triple → Site → Prop) (N : Nat),
      Site.Lasts live rules handle.query N ∧ live [] σ' := by
    cases hread : (σ.program Builtin.standard).readsTable pattern with
    | true =>
      obtain ⟨K, hK⟩ := hσ.sound
      cases hdoes with
      | @find g e e' _ _ hfind =>
        have hkept : e.Kept Builtin.standard := by
          rcases hσ.tame with hpoisoned | ⟨hkept, -⟩
          · unfold Engine.find at hfind
            split at hfind
            · cases hfind
            · next hclean =>
              change e.session.poisoned.isSome = true at hpoisoned
              rw [hclean] at hpoisoned
              cases hpoisoned
          · exact hkept
        obtain ⟨t, hreading⟩ := Site.Reading.opened (fun _ => hkept) hK hread hfind
        exact ⟨_, _, reading_lasts g handle.query t hσ.compiled, rfl, hreading⟩
    | false =>
      cases hdoes with
      | find hfind =>
        exact ⟨_, _, scanning_lasts rules handle.query _,
          Site.Scanning.opened (hσ.program.tabled _) hread hfind⟩
  have htraces : σ'.Traces live handle.query σ.graph.version N [] :=
    ⟨hdoes.opened, Nat.zero_le N, .inr hnew⟩
  exact ⟨N, fun L σ'' htrace hplain => htraces.trace hlive hσ' hplain htrace⟩

end

/-- Under full tabling everything comes to an end. Where all goals keep tables, no rule has
compound terms in its patterns or builtins other than tests, and only ground triples are stored,
each call for the next answer of a query has an outcome after finitely many steps, after every
history of queries for simple patterns and with any settings, and each query returns finitely many
answers, whatever is done between them. -/
theorem full_tabling_terminates {rules : RuleSet} {base : RuleBase} {graph : Graph}
    {st : Settings} {σ : Site} (hbase : rules.compile Builtin.standard = .ok base)
    (hrules : rules.Simple) (hground : ∀ t ∈ graph.triples, t.isGround = true)
    (hruns : (Site.new graph base st).Runs (fun a _ => a.Plain) σ) :
    (∀ handle,
      (∃ n x, ∀ k, n ≤ k → σ.engine.hasNext σ.graph.toStore k handle = some x) ∧
      ∃ n x, ∀ k, n ≤ k → σ.engine.next σ.graph.toStore k handle = some x) ∧
    ∀ pattern handle σ', (Act.find pattern).Plain →
      σ.Does (.find pattern) (.opened (.ok handle)) σ' →
      ∃ N, ∀ L σ'', σ'.Trace L σ'' → (∀ x ∈ L, x.1.Plain) →
        (returnedIn handle.query L).length ≤ N := by
  have hσ := (Site.Simple.new hbase hrules hground st).runs hruns
  refine ⟨fun handle => ⟨?_, ?_⟩, fun pattern handle σ' hpattern hdoes => hσ.answers hdoes hpattern⟩
  · obtain ⟨n, x, hx⟩ := hσ.fill_ends handle.query false
    refine ⟨n, (x.1.map Option.isSome, x.2), fun k hk => ?_⟩
    unfold Engine.hasNext
    rw [hx k hk]
    rfl
  · obtain ⟨n, x, hx⟩ := hσ.fill_ends handle.query true
    exact ⟨n, x, hx⟩

namespace Roads

/-- The rules of the roads, with tables for all goals. -/
def fullyTabled : RuleSet := { rules with allTabled := true }

def fullyTabledBase : RuleBase :=
  (fullyTabled.compile Builtin.standard).toOption.getD { clauses := {}, layout := rules.layout }

theorem compile_fullyTabled : fullyTabled.compile Builtin.standard = .ok fullyTabledBase :=
  eq_ok_getD (by decide +kernel) _

theorem simple_fullyTabled : fullyTabled.Simple := by
  refine ⟨rfl, fun r hr => ?_⟩
  simp only [fullyTabled, rules, List.mem_cons, List.not_mem_nil, or_false] at hr
  rcases hr with rfl | rfl
  · exact ⟨by decide, by simp [Entry.Simple, Triple.terms, leads, uri, Term.isApp]⟩
  · exact ⟨by decide, by simp [Entry.Simple, Triple.terms, uri, Term.isApp]⟩

/-- The engine after a query for where roads lead from `a` was opened. -/
def tabledOpened : Except Failure Handle × Engine :=
  (Engine.new graph.toStore fullyTabledBase {}).find graph.toStore pattern

theorem does_tabled_find : (Site.new graph fullyTabledBase {}).Does (.find pattern)
    (.opened (.ok handle)) ⟨graph, tabledOpened.2⟩ :=
  .find (Engine.find_of_toOption (by decide +kernel))

theorem plain_find : (Act.find pattern).Plain := by
  change ∀ t ∈ pattern.terms, t.isGround = true ∨ t.isVar = true
  decide

end Roads

/-- Roads there and back again: the rules for where they lead go round in circles. -/
theorem full_tabling_terminates_roads :
    (∃ n x, ∀ k, n ≤ k →
      Roads.tabledOpened.2.hasNext Roads.graph.toStore k Roads.handle = some x) ∧
    ∃ N, ∀ L σ, (Site.mk Roads.graph Roads.tabledOpened.2).Trace L σ → (∀ x ∈ L, x.1.Plain) →
      (returnedIn Roads.handle.query L).length ≤ N := by
  have hruns : (Site.new Roads.graph Roads.fullyTabledBase {}).Runs (fun a _ => a.Plain)
      ⟨Roads.graph, Roads.tabledOpened.2⟩ :=
    .single ⟨_, _, Roads.plain_find, Roads.does_tabled_find⟩
  obtain ⟨hcalls, -⟩ := full_tabling_terminates Roads.compile_fullyTabled
    Roads.simple_fullyTabled Roads.ground_graph hruns
  have hnew : (Site.new Roads.graph Roads.fullyTabledBase {}).Runs (fun a _ => a.Plain)
      (Site.new Roads.graph Roads.fullyTabledBase {}) := .refl
  obtain ⟨-, hanswers⟩ := full_tabling_terminates Roads.compile_fullyTabled
    Roads.simple_fullyTabled Roads.ground_graph hnew
  exact ⟨(hcalls Roads.handle).1, hanswers _ _ _ Roads.plain_find Roads.does_tabled_find⟩

end TabledRules
