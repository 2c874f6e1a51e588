-- Engines over rules that build no terms. After every history in which queries are
-- opened for simple patterns only, either the tables are not to be used, or all of the
-- tables and of the machines of queries is made of what was there from the start.
import TabledRules.Proofs.FatalFailures
import TabledRules.Proofs.FlatSearches

namespace TabledRules

/-! ## Sites -/

/-- Where tables and queries are about the store as it is, all of them is made of what was there
from the start. -/
structure Site.Flat (σ : Site) : Prop where
  tables : σ.engine.session.version = σ.graph.version →
    σ.engine.session.Flat (σ.program Builtin.standard) σ.graph.triples
  query : ∀ {id : Nat} {q : Query} {m : Machine}, σ.engine.queries[id]? = some q →
    q.machine = some m → q.closed = false → q.version = σ.graph.version →
    ¬ σ.engine.session.Shut id →
    ∃ S, (σ.program Builtin.standard).Serves σ.graph.triples S ∧
      m.Flat (σ.program Builtin.standard) σ.graph.triples S σ.engine.session

section

variable {σ σ' : Site} {g : Graph} {e e' : Engine} {K : Nat → Triple → Prop} {o : Owner → Prop}
  {P : Program} {facts : List Triple} {st : Settings} {s s' : Session} {query : Query} {id : Nat}

theorem Site.Flat.of_cleared (hgen : e.session.generators = ∅)
    (hgoals : e.session.goals.toList = []) (hq : e.session.queries = ∅) : (Site.mk g e).Flat := by
  refine ⟨fun _ => .of_empty hgen hgoals, fun {id q m} _ _ _ _ hopen => ?_⟩
  refine absurd (.inl ?_) hopen
  change e.session.queries[id]? = none
  rw [hq]
  exact Std.TreeMap.getElem?_emptyc

/-- The engine goes on, and its queries are old ones or flat. -/
theorem Site.Flat.update (h : (Site.mk g e).Flat) (hσ : (Site.mk g e).Sound Builtin.standard K)
    (hrules : e'.rules = e.rules) (hages : e.Ages e') (hgrows : e.session.Grows e'.session)
    (htables : e.session.version = g.version →
      e'.session.Flat (e.program Builtin.standard g.toStore) g.triples)
    (hqueries : ∀ {id : Nat} {q : Query} {m : Machine}, e'.queries[id]? = some q →
      q.machine = some m → q.closed = false → q.version = g.version →
      (∃ S, (e.program Builtin.standard g.toStore).Serves g.triples S ∧
        m.Flat (e.program Builtin.standard g.toStore) g.triples S e'.session) ∨
      ∃ old : Query, e.queries[id]? = some old ∧ old.machine = some m ∧ old.closed = false) :
    (Site.mk g e').Flat := by
  have hP : (Site.mk g e').program Builtin.standard = e.program Builtin.standard g.toStore := by
    unfold Site.program Engine.program
    rw [hrules]
  refine ⟨fun hv => ?_, fun {id q m} hq hm hclosed hv hopen => ?_⟩
  · rw [hP]
    exact htables (hgrows.version.symm.trans hv)
  · rw [hP]
    rcases hqueries hq hm hclosed hv with hnew | ⟨old, hold, hm', hc⟩
    · exact hnew
    · have hlt : id < e.session.nextId := hσ.query_lt hold
      obtain ⟨old', hold', hversion, -⟩ := hages.query hlt hq
      cases hold.symm.trans hold'
      obtain ⟨S, hS, hflat⟩ := h.query hold hm' hc (hversion.symm.trans hv)
        fun hshut => hopen (hages.session.shut hlt hshut)
      exact ⟨S, hS, hflat.grows hgrows⟩

/-- The tables keep what they have, and no query has another machine. -/
theorem Site.Flat.aside (h : (Site.mk g e).Flat) (hσ : (Site.mk g e).Sound Builtin.standard K)
    (hrules : e'.rules = e.rules) (hages : e.Ages e') (hsame : e.session.SameTables e'.session)
    (hs : e.session.Spares o e'.session)
    (hqueries : ∀ {id : Nat} {q : Query} {m : Machine}, e'.queries[id]? = some q →
      q.machine = some m → q.closed = false →
      ∃ old : Query, e.queries[id]? = some old ∧ old.machine = some m ∧ old.closed = false) :
    (Site.mk g e').Flat :=
  h.update hσ hrules hages hsame.grows (fun hv => (h.tables hv).spares hsame hs)
    fun hq hm hc _ => .inr (hqueries hq hm hc)

/-- Of a changed store there is nothing to know. -/
theorem Site.Flat.outdated (hσ : (Site.mk g e).Sound Builtin.standard K) {g' : Graph}
    (hv : g'.version = g.version + 1) : (Site.mk g' e).Flat := by
  have hle : e.session.version ≤ g.version := hσ.version_le
  refine ⟨fun hv' => ?_, fun {id q m} hq _ _ hv' _ => ?_⟩
  · change e.session.version = g'.version at hv'
    omega
  · have hq' : q.version ≤ e.session.version := hσ.query_le hq
    change q.version = g'.version at hv'
    omega

theorem Site.Flat.closeQuery (h : (Site.mk g e).Flat)
    (hσ : (Site.mk g e).Sound Builtin.standard K) (id : Nat) :
    (Site.mk g (e.closeQuery id)).Flat := by
  have hages := e.ages_closeQuery id
  unfold Engine.closeQuery at hages ⊢
  split
  · exact h
  · next query hq =>
    simp only [hq] at hages
    split
    · exact h
    · next hopen =>
      rw [if_neg hopen] at hages
      refine h.aside hσ rfl hages (e.session.sameTables_closeQuery id)
        (e.session.spares_closeQuery id) fun {id' q m} hq' hm hc => ?_
      rcases getElem?_insert_cases hq' with ⟨-, rfl⟩ | hq'
      · cases hc
      · exact ⟨q, hq', hm, hc⟩

/-! ### Queries that are opened -/

/-- The machine of a new query is flat. -/
theorem startQuery_flat {P : Program} {facts : List Triple} {st : Settings} {s s' : Session}
    {m : Machine} {pattern : Triple} {q : Nat} (hP : P.Simple facts)
    (hpattern : ∀ t ∈ pattern.terms, t.isGround = true ∨ t.isVar = true) (hs : s.Flat P facts)
    (hstart : Machine.startQuery (P.world st) pattern q s = (.ok m, s')) :
    s'.Flat P facts ∧ s.Grows s' ∧ m.Flat P facts (P.stock facts pattern) s' := by
  have hgoal : pattern.Over (P.stock facts pattern) := Triple.over_stock hpattern
  rcases startQuery_ok hstart with ⟨-, hm, rfl⟩ | ⟨-, m0, g, s1, hm0, hg, rfl, rfl⟩
  · exact ⟨hs, .refl s', Machine.start_flat hP hgoal hm _⟩
  · have hstandard := hgoal.standard
    obtain ⟨hs1, hrecedes, habout⟩ := hs.generatorFor hP hstandard.isOver.shape hg
    obtain ⟨hs2, hrecedes', hreads⟩ := hs1.addConsumer (.query q) habout
    have hgrows := (hrecedes 0).grows.trans (hrecedes' 0).grows
    exact ⟨hs2, hgrows, (Machine.blank_flat hgoal hm0 _).pushed trivial flat_proceed
      ⟨hstandard, _, hreads, hstandard.isOver.variantKey⟩⟩

/-- A query is opened, on the tables as they are or on cleared ones. -/
theorem Site.Flat.find (h : e.session.version = g.version → (Site.mk g e).Flat)
    (hσ : (Site.mk g e).Sound Builtin.standard K)
    (hP : (e.program Builtin.standard g.toStore).Simple g.triples) {pattern : Triple}
    (hpattern : ∀ t ∈ pattern.terms, t.isGround = true ∨ t.isVar = true) {handle : Handle}
    (hfind : e.find g.toStore pattern = (.ok handle, e')) : (Site.mk g e').Flat := by
  have hclean : e.session.poisoned = none := by
    unfold Engine.find at hfind
    split at hfind
    · cases hfind
    · next hclean => exact hclean
  have hages := Engine.ages_of_refresh hfind hclean
  obtain ⟨m, s', rfl, hstart, rfl⟩ := find_ok hfind
  -- the engine whose tables are about the store as it is
  have h1 : (Site.mk g { e with session := e.session.refresh g.toStore.version }).Sound
      Builtin.standard K := hσ.refresh
  have hfresh :
      (Site.mk g { e with session := e.session.refresh g.toStore.version }).Flat ∧
      (e.session.refresh g.toStore.version).version = g.version := by
    unfold Session.refresh
    split
    · next hv => exact ⟨h hv, hv⟩
    · exact ⟨.of_cleared rfl rfl rfl, rfl⟩
  obtain ⟨h2, hv⟩ := hfresh
  generalize e.session.refresh g.toStore.version = s0 at h1 h2 hv hstart hages
  have hopened : s0.Flat (e.program Builtin.standard g.toStore) g.triples := h2.tables hv
  have hgrows : s0.Grows (s0.openQuery.2.note (.queryOpened s0.nextId pattern)) :=
    ⟨rfl, Nat.le_succ _, fun _ hk => ⟨_, hk, rfl⟩, fun _ hg => ⟨_, hg, rfl⟩⟩
  obtain ⟨h3, hgrows', h4⟩ := startQuery_flat hP hpattern
    (hopened.stays hgrows rfl (fun hg => ⟨_, hg⟩) fun hg => ⟨_, hg, rfl, rfl, .inl rfl⟩) hstart
  refine h2.update h1 rfl ⟨hages, fun hlt hq => ?_⟩ (hgrows.trans hgrows') (fun _ => h3)
    fun {id q m'} hq hm _ _ => ?_
  · rcases getElem?_insert_cases hq with ⟨rfl, rfl⟩ | hq
    · exact absurd hlt (Nat.lt_irrefl _)
    · exact ⟨_, hq, rfl, fun hc => hc⟩
  · rcases getElem?_insert_cases hq with ⟨rfl, rfl⟩ | hq
    · cases hm
      exact .inl ⟨_, Program.serves_stock _ _ pattern, h4⟩
    · exact .inr ⟨q, hq, hm, ‹_›⟩

/-! ### Queries that are read -/

/-- The ground terms of a stock and of the goals of all tables. -/
def Session.stock (s : Session) (S : Stock) : Stock :=
  .of (S.terms ++ s.generators.toList.flatMap fun p => p.2.goal.terms)

theorem Session.subset_stock (s : Session) (S : Stock) : S.terms ⊆ (s.stock S).terms :=
  fun t ht => Stock.mem_of.2 ⟨List.mem_append_left _ ht, S.ground t ht⟩

theorem Session.Flat.within (h : s.Flat P facts) (S : Stock) : s.Within P facts (s.stock S) where
  toFlat := h
  goal_over {g gen} hgen t ht := by
    refine ((h.goal hgen).shape t ht).imp_left fun hground => Stock.mem_of.2
      ⟨List.mem_append_right _ (List.mem_flatMap.2 ⟨(g, gen), ?_, ht⟩), hground⟩
    exact Std.TreeMap.mem_toList_iff_getElem?_eq_some.2 hgen

/-- The machine of a query and the tables are in order. -/
structure Query.Searches (P : Program) (facts : List Triple) (id : Nat) (s : Session) (q : Query) :
    Prop where
  tables : s.Flat P facts
  formed : s.Formed P
  idle : s.Idle
  machine : ∀ m, q.machine = some m →
    ∃ S, P.Serves facts S ∧ m.Flat P facts S s ∧ m.Formed P ∧ m.Asks id s

/-- To look for the next answer of a query comes to an end. -/
theorem lookAhead_settles (st : Settings) (hP : P.Compiled) (hsimple : P.Simple facts)
    (h : query.Searches P facts id s) :
    Settles (fun n => Engine.lookAhead (P.world st) n id query s) fun x => x.1 = .ok () →
      x.2.2.Flat P facts ∧ s.Grows x.2.2 ∧ ∀ m, x.2.1.machine = some m →
        ∃ S, P.Serves facts S ∧ m.Flat P facts S x.2.2 := by
  unfold Engine.lookAhead
  split
  · refine .pure fun _ => ⟨h.tables, .refl s, fun m hm => ?_⟩
    obtain ⟨S, hS, hflat, -⟩ := h.machine m hm
    exact ⟨S, hS, hflat⟩
  · cases hm : query.machine with
    | none => exact .pure fun _ => ⟨h.tables, .refl s, fun m hm' => by cases hm'⟩
    | some m =>
      obtain ⟨S, hS, hflat, hformed, hasks⟩ := h.machine m hm
      have hbounded : P.Bounded facts S (s.stock S) := ⟨hsimple, hS, s.subset_stock S⟩
      refine (advance_settles st hP hbounded
        ⟨⟨h.tables.within S, hflat, trivial⟩, hformed, h.formed, h.idle, hasks⟩).andThen
        (fun n hn => by simp only [hn]) fun x hx => ?_
      rcases x with ⟨failure | _ | t, m1, s1⟩
      · exact ⟨fun _ => some (.error failure, { query with machine := none, finished := true },
          s1.poison failure), .pure fun e => (by cases e), fun n hn => by simp only [hn]⟩
      · exact ⟨fun _ => some (.ok (), { query with machine := none, finished := true }, s1),
          .pure fun _ => ⟨hx.active.tables.toFlat, hx.recedes.grows, fun m hm => (by cases hm)⟩,
          fun n hn => by simp only [hn]⟩
      · refine ⟨fun _ => some (.ok (), { query with machine := some m1, lookahead := some t }, s1),
          .pure fun _ => ⟨hx.active.tables.toFlat, hx.recedes.grows, fun m hm => ?_⟩,
          fun n hn => by simp only [hn]⟩
        cases hm
        exact ⟨S, hS, hx.active.machine⟩

/-- To read a query comes to an end, and where it does not fail all stays flat. -/
theorem Site.Flat.fill_settles (h : (Site.mk g e).Flat) (hkept : e.Kept Builtin.standard)
    (hσ : (Site.mk g e).Sound Builtin.standard K)
    (hP : (e.program Builtin.standard g.toStore).Simple g.triples) (id : Nat) (take : Bool) :
    Settles (fun n => e.fill g.toStore n id take)
      fun x => ∀ answer, x.1 = .ok answer → (Site.mk g x.2).Flat := by
  cases hq : e.queries[id]? with
  | none =>
    refine (Settles.pure (a := (.error (.runtime .iteratorClosed), e)) ?_).congr fun n => ?_
    · exact fun _ e => by cases e
    · unfold Engine.fill
      rw [hq]
  | some query =>
    cases hobstacle : Engine.obstacle g.toStore e.session id query with
    | some failure =>
      refine (Settles.pure (a := (.error failure, e)) ?_).congr fun n => ?_
      · exact fun _ e => by cases e
      · unfold Engine.fill
        simp only [hq, hobstacle]
    | none =>
      obtain ⟨hclosed, hv, hopen⟩ := of_obstacle hobstacle
      have hnot : ¬ e.session.Shut id := by
        rintro (hnone | hpoisoned)
        · rw [hnone] at hopen
          cases hopen
        · rw [poisoned_of_obstacle hobstacle] at hpoisoned
          cases hpoisoned
      have hsv := hσ.version_eq hq hv
      have hsearches : query.Searches (e.program Builtin.standard g.toStore) g.triples id
          e.session := by
        refine ⟨h.tables hsv, hkept.formed _, hkept.idle, fun m hm => ?_⟩
        obtain ⟨S, hS, hflat⟩ := h.query hq hm hclosed hv hnot
        exact ⟨S, hS, hflat, hkept.machine _ hq hm hopen, hkept.asks hq hm hopen⟩
      have hages : ∀ {n : Nat} {x : Except Failure (Option Triple) × Engine},
          e.fill g.toStore n id take = some x → e.Ages x.2 := fun hfill => Engine.ages_fill hfill
      have hlook := lookAhead_settles e.settings (hkept.compiled _) hP hsearches
      refine ((hlook.andThen (F := fun n => e.fill g.toStore n id take)
        (r := fun x => ∀ answer, x.1 = .ok answer → e.Ages x.2 → (Site.mk g x.2).Flat)
        (fun n hn => ?_) fun x hx => ?_).and hages).imp fun x hx answer e => hx.1 answer e hx.2
      · replace hn : Engine.lookAhead (e.world g.toStore) n id query e.session = none := hn
        simp only [Engine.fill, hq, hobstacle, hn]
      · have hF : ∀ n, Engine.lookAhead ((e.program Builtin.standard g.toStore).world e.settings) n id
            query e.session = some x → Engine.lookAhead (e.world g.toStore) n id query e.session =
              some x := fun _ hn => hn
        rcases x with ⟨failure | ok, found, s'⟩
        · exact ⟨fun _ => some (.error failure,
            { e with session := s', queries := e.queries.insert id found }),
            .pure fun _ e => (by cases e),
            fun n hn => by simp only [Engine.fill, hq, hobstacle, hF n hn]⟩
        · obtain ⟨hflat, hgrows, hmachine⟩ := hx rfl
          refine ⟨fun _ => some (.ok found.lookahead, { e with
              session := s'
              queries := e.queries.insert id
                (if take then { found with lookahead := none } else found) }),
            .pure fun _ _ hages => h.update hσ rfl hages hgrows (fun _ => hflat)
              fun {id' q m} hq' hm hc _ => ?_,
            fun n hn => by simp only [Engine.fill, hq, hobstacle, hF n hn]⟩
          rcases getElem?_insert_cases hq' with ⟨-, rfl⟩ | hq'
          · refine .inl (hmachine m ?_)
            split at hm <;> exact hm
          · exact .inr ⟨q, hq', hm, hc⟩

end

end TabledRules
