-- The bookkeeping of an engine holds after every history in which no act has
-- failed since the tables were last cleared.
import TabledRules.Proofs.SoundQueries
import TabledRules.Proofs.Upkeep

namespace TabledRules

/-! ## Queries that are opened -/

section

variable {P : Program} {st : Settings} {R : Registry} {K : Nat → Triple → Prop} {s s' : Session}
  {m : Machine} {pattern : Triple} {g : Graph} {e e' : Engine} {q : Nat} {store : Store}

/-- The machine of a query answers its goal itself, or it reads the table of its goal. -/
theorem startQuery_ok (h : Machine.startQuery (P.world st) pattern q s = (.ok m, s')) :
    (P.readsTable pattern = false ∧ Machine.start (P.world st) pattern (.query q) = .ok m ∧ s' = s) ∨
    (P.readsTable pattern = true ∧ ∃ (m0 : Machine) (g : Nat) (s1 : Session),
      Machine.blank (P.world st) pattern (.query q) = .ok m0 ∧
      s.generatorFor (P.world st) pattern.standard = (.ok g, s1) ∧
      m = m0.pushed .root [.proceed] (.results s1.nextId pattern.standard) ∧
      s' = (s1.addConsumer g (.query q)).2) := by
  unfold Machine.startQuery at h
  split at h
  · cases h
  · next m0 hm0 =>
    obtain ⟨hstd, -, -, -, hargs, -, howner, -⟩ := blank_eq hm0
    split at h
    · next hno =>
      refine .inl ⟨?_, (Prod.mk.inj h).1, (Prod.mk.inj h).2.symm⟩
      rw [hstd] at hno
      unfold Program.readsTable
      simpa [Program.world, imp_iff_not_or] using hno
    · next hyes =>
      have htable : P.readsTable pattern = true := by
        unfold Program.readsTable
        rw [hstd] at hyes
        simpa [Program.world] using hyes
      have hcalled : m0.called = pattern.standard := by
        rw [Machine.called, hargs]
        rfl
      refine .inr ⟨htable, ?_⟩
      rw [hstd] at h
      unfold Machine.callTable at h
      rcases hg : s.generatorFor (P.world st) pattern.standard with ⟨e | g, s1⟩
      · rw [hg] at h
        cases h
      · rw [hg] at h
        simp only at h
        rcases m0.push_eq (P.world st) .root [.proceed]
          (.results (s1.addConsumer g m0.owner).1 m0.called) with ⟨e, he⟩ | hok
        · rw [he] at h
          cases h
        · rw [hok, howner, hcalled] at h
          cases h
          exact ⟨m0, g, s1, hm0, rfl, rfl, rfl⟩

theorem startQuery_formed (h : Machine.startQuery (P.world st) pattern q s = (.ok m, s'))
    (hs : s.Formed P) : m.Formed P ∧ s'.Formed P := by
  rcases startQuery_ok h with ⟨-, hm, rfl⟩ | ⟨-, m0, g, s1, hm0, hg, rfl, rfl⟩
  · exact ⟨(start_sound hm s').formed, hs⟩
  · obtain ⟨-, -, hstack, hsusp, hargs, htemps, -⟩ := blank_eq hm0
    obtain ⟨hnum, hroot⟩ := blank_numbered hm0
    refine ⟨⟨?_, ?_, fun c hc => ?_, fun {d c} hd => ?_, hnum.pushed hroot⟩,
      (hs.generatorFor hg).addConsumer _ _⟩
    · change m0.args.length = maxArguments
      rw [hargs]
      rfl
    · change m0.temps.length = maxTemporaries
      rw [htemps]
      rfl
    · rw [Machine.stack_pushed, hstack] at hc
      obtain rfl := List.mem_singleton.1 hc
      exact ⟨trivial, [], .root⟩
    · change m0.suspended[d]? = some c at hd
      rw [hsusp] at hd
      cases hd.symm.trans Std.TreeMap.getElem?_emptyc

/-- A query that is opened. -/
theorem find_ok {handle : Handle} (h : e.find store pattern = (.ok handle, e')) :
    ∃ (m : Machine) (s' : Session), handle = { query := (e.session.refresh store.version).nextId } ∧
      Machine.startQuery (e.world store) pattern (e.session.refresh store.version).nextId
        ((e.session.refresh store.version).openQuery.2.note
          (.queryOpened (e.session.refresh store.version).nextId pattern)) = (.ok m, s') ∧
      e' = { e with
        session := s'
        queries := e.queries.insert (e.session.refresh store.version).nextId
          { version := store.version, machine := some m } } := by
  unfold Engine.find at h
  split at h
  · cases h
  · simp only [Session.openQuery] at h
    split at h
    · cases h
    · next m s' hstart =>
      cases h
      exact ⟨m, s', rfl, hstart, rfl⟩

/-! ## Queries that are read -/

/-- How a query gets to know its next answer: `found` is what it has then. -/
inductive Query.Looks (P : Program) (st : Settings) (id : Nat) (query : Query) (s : Session) :
    Query → Session → Prop
  /-- An answer is there, or the query has ended. -/
  | there : query.lookahead.isSome = true ∨ query.finished = true → Looks P st id query s query s
  | idle : query.lookahead = none → query.machine = none →
    Looks P st id query s { query with finished := true } s
  | answer {m m' : Machine} {t : Triple} {s' : Session} : query.lookahead = none →
    query.machine = some m → MovesTo P st id (.search .backtrack m, s) (.found (some t) m', s') →
    Looks P st id query s { query with machine := some m', lookahead := some t } s'
  | ended {m m' : Machine} {s' : Session} : query.lookahead = none → query.machine = some m →
    MovesTo P st id (.search .backtrack m, s) (.found none m', s') →
    Looks P st id query s { query with machine := none, finished := true } s'

/-- The query is open and about the store as it is now. -/
theorem of_obstacle {query : Query} {id : Nat} (h : Engine.obstacle store s id query = none) :
    query.closed = false ∧ query.version = store.version ∧ (s.queries[id]?).isSome = true := by
  unfold Engine.obstacle at h
  split at h
  · cases h
  · next hopen =>
    split at h
    · cases h
    · next hv =>
      split at h
      · cases h
      · split at h
        · next hc =>
          rw [Std.TreeMap.contains_eq_isSome_getElem?] at hc
          exact ⟨by simpa using hopen, (not_not.1 hv).symm, hc⟩
        · cases h

/-- Under the mark of a fatal failure no query is read. -/
theorem poisoned_of_obstacle {query : Query} {id : Nat}
    (h : Engine.obstacle store s id query = none) : s.poisoned = none := by
  unfold Engine.obstacle at h
  split at h
  · cases h
  · split at h
    · cases h
    · split at h
      · cases h
      · next hclean => exact hclean

/-- Where a query cannot be read, nothing is wrong inside of the engine. -/
theorem obstacle_runtime {query : Query} {id : Nat} {failure : Failure}
    (h : Engine.obstacle store s id query = some failure) :
    ∃ cause, failure = .runtime cause := by
  unfold Engine.obstacle at h
  split at h
  · cases h
    exact ⟨_, rfl⟩
  · split at h
    · cases h
      exact ⟨_, rfl⟩
    · split at h
      · cases h
        exact ⟨_, rfl⟩
      · split at h <;> cases h
        exact ⟨_, rfl⟩

/-- A query looks for its next answer and comes to one, or to its end, or a failure strikes. -/
theorem lookAhead_cases (hP : P.Compiled) {fuel id : Nat} {query found : Query}
    {x : Except Failure Unit} (hs : s.Formed P) (hm : ∀ m, query.machine = some m → m.Formed P)
    (h : Engine.lookAhead (P.world st) fuel id query s = some (x, found, s')) :
    x = .ok () ∧ query.Looks P st id s found s' ∨
    ∃ e m, x = .error e ∧ query.machine = some m ∧
      StopsAfter P st id (.search .backtrack m, s) e := by
  unfold Engine.lookAhead at h
  split at h
  · next hthere =>
    cases h
    exact .inl ⟨rfl, .there (by simpa using hthere)⟩
  · next hno =>
    have hnone : query.lookahead = none := by
      cases hl : query.lookahead with
      | none => rfl
      | some t => simp [hl] at hno
    split at h
    · next hm =>
      cases h
      exact .inl ⟨rfl, .idle hnone hm⟩
    · next m hmachine =>
      have hformed := hm m hmachine
      split at h
      · cases h
      · next t m' s1 hadvance =>
        cases h
        exact .inl ⟨rfl, .answer hnone hmachine (advance_moves hP hformed hs hadvance)⟩
      · next m' s1 hadvance =>
        cases h
        exact .inl ⟨rfl, .ended hnone hmachine (advance_moves hP hformed hs hadvance)⟩
      · next e m' s1 hadvance =>
        cases h
        exact .inr ⟨e, m, rfl, hmachine, advance_moves hP hformed hs hadvance⟩

end

/-! ## Engines -/

/-- The rules of an engine, with builtins and a store. -/
def Engine.program (R : Registry) (store : Store) (e : Engine) : Program := ⟨R, e.rules, store⟩

/-- The bookkeeping of the session holds, every machine is formed, and the machine of every open
query has its consumers. -/
structure Engine.Kept (R : Registry) (e : Engine) : Prop where
  compiled (store : Store) : (e.program R store).Compiled
  idle : e.session.Idle
  formed (store : Store) : e.session.Formed (e.program R store)
  query_lt : ∀ {id : Nat} {query : Query}, e.queries[id]? = some query → id < e.session.nextId
  asks : ∀ {id : Nat} {query : Query} {m : Machine}, e.queries[id]? = some query →
    query.machine = some m → (e.session.queries[id]?).isSome = true → m.Asks id e.session
  machine : ∀ {id : Nat} {query : Query} {m : Machine} (store : Store),
    e.queries[id]? = some query → query.machine = some m →
    (e.session.queries[id]?).isSome = true → m.Formed (e.program R store)

namespace Session

variable {s : Session} {q : Nat}

theorem Idle.of_empty (hg : s.generators = ∅) (hc : s.consumers = ∅) (hq : s.queries = ∅) :
    s.Idle := by
  refine ⟨.of_empty hg hc hq, ⟨fun h => ?_⟩⟩
  rw [hg] at h
  cases h.symm.trans Std.TreeMap.getElem?_emptyc

theorem spares_openQuery (s : Session) (o : Owner → Prop) : s.Spares o s.openQuery.2 := by
  have lists : ∀ q : Nat, s.openQuery.2.queries[q]? =
      if s.nextId = q then some [] else s.queries[q]? := by
    intro q
    change (s.queries.insert s.nextId [])[q]? = _
    simp only [Std.TreeMap.getElem?_insert, Std.LawfulEqCmp.compare_eq_iff_eq]
  refine ⟨Nat.le_succ _, fun {x} hd => ?_, fun hg => ⟨_, hg, .refl _ _⟩,
    fun hc _ => .inr ⟨_, hc, .refl _⟩, fun {q} hq _ => ?_, fun hc _ => ⟨_, hc, .refl _⟩⟩
  · cases x with
    | generator g => exact hd
    | query q =>
      refine ⟨Nat.lt_succ_of_lt hd.1, ?_⟩
      rw [lists, if_neg (Nat.ne_of_gt hd.1)]
      exact hd.2
  · rw [lists]
    split
    · rfl
    · exact hq

theorem Idle.openQuery (h : s.Idle) : s.openQuery.2.Idle := by
  refine ⟨h.wired.openQuery, h.manned.spares (s.spares_openQuery fun _ => False)
    (fun _ e => e.elim) fun hg hnone => ?_⟩
  cases hg.symm.trans hnone

/-- A query that is opened is open. -/
theorem works_openQuery (s : Session) (pattern : Triple) :
    (s.openQuery.2.note (.queryOpened s.nextId pattern)).Works (.query s.nextId) := by
  refine ⟨[], ?_⟩
  change (s.queries.insert s.nextId [])[s.nextId]? = some []
  rw [Std.TreeMap.getElem?_insert_self]

theorem spares_dismissed (s : Session) (q : Nat) : s.Spares (· = .query q) (s.dismissed q) := by
  have hremoved : s.Spares (· = .query q) (s.removeAll (s.ownedBy (.query q))) :=
    s.spares_removeOwned (.query q) (.inl rfl)
  refine hremoved.trans ⟨Nat.le_refl _, fun {x} hd => ?_, fun hg => ⟨_, hg, .refl _ _⟩,
    fun hc _ => .inr ⟨_, hc, .refl _⟩, fun {q'} hq hne => ?_, fun hc _ => ⟨_, hc, .refl _⟩⟩
  · cases x with
    | generator g => exact hd
    | query q' =>
      refine ⟨hd.1, ?_⟩
      change ((s.removeAll (s.ownedBy (.query q))).queries.erase q)[q']? = none
      rw [Std.TreeMap.getElem?_erase]
      split
      · rfl
      · exact hd.2
  · change (((s.removeAll (s.ownedBy (.query q))).queries.erase q)[q']?).isSome = true
    rw [Std.TreeMap.getElem?_erase, if_neg]
    · exact hq
    · intro e
      rw [Std.LawfulEqCmp.compare_eq_iff_eq] at e
      exact hne (by rw [e])

theorem spares_closeQuery (s : Session) (q : Nat) :
    s.Spares (· = .query q) (s.closeQuery q) := by
  rcases s.closeQuery_cases q with e | ⟨roots, e⟩
  · rw [e]
    exact s.spares_removeOwned (.query q) (.inl rfl)
  · rw [e]
    exact (s.spares_dismissed q).trans ((spares_checkCompletion _ _ _).trans (spares_note _ _ _))

theorem Idle.dismissed (h : s.Idle) (q : Nat) : (s.dismissed q).Idle := by
  refine ⟨h.wired.dismissed q, h.manned.kept (s.spares_dismissed q) (fun _ e => by cases e) ?_⟩
  exact (SameTables.foldl (fun s (a : Nat × Consumer) => s.sameTables_removeConsumer a.1) _ s).trans
    (sameTables_queries _ _)

theorem Idle.closeQuery (h : s.Idle) (q : Nat) : (s.closeQuery q).Idle :=
  ⟨h.wired.closeQuery q, h.manned.kept (s.spares_closeQuery q) (fun _ e => by cases e)
    (s.sameTables_closeQuery q)⟩

end Session

section

variable {R : Registry} {e e' : Engine} {store : Store} {o : Owner → Prop}

/-- To open a query is to call a table, or to do nothing. -/
theorem startQuery_effect {P : Program} {st : Settings} {s s' : Session} {m : Machine}
    {pattern : Triple} {q : Nat}
    (hnew : ∀ {c : Nat} {k : Consumer}, s.consumers[c]? = some k → k.owner ≠ .query q)
    (hstart : Machine.startQuery (P.world st) pattern q s = (.ok m, s')) :
    ∃ m0 : Machine, m0.owner = .query q ∧ m0.Tied s ∧ m.owner = m0.owner ∧
      Effect P st m0 s m s' := by
  rcases startQuery_ok hstart with ⟨-, hm, rfl⟩ | ⟨-, m0, g, s1, hm0, hg, rfl, rfl⟩
  · obtain ⟨hunused, howner⟩ := start_unused hm
    exact ⟨m, howner, hunused.tied (by rwa [howner]), rfl, .quiet rfl rfl (.refl _)⟩
  · obtain ⟨-, -, hstack, hsusp, -, -, howner, -⟩ := blank_eq hm0
    have hunused : m0.Unused := ⟨by unfold Machine.readers; rw [hstack]; rfl, hsusp⟩
    refine ⟨m0, howner, hunused.tied (by rwa [howner]), rfl, .table hg ?_ rfl (by rw [howner])⟩
    unfold Machine.readers
    rw [Machine.stack_pushed]
    rfl

/-- The machine of a query that is opened has its consumers. -/
theorem Session.Idle.startQuery {P : Program} {st : Settings} {s s' : Session} {m : Machine}
    {pattern : Triple} {q : Nat} (h : s.Idle) (hopen : s.Works (.query q))
    (hnew : ∀ {c : Nat} {k : Consumer}, s.consumers[c]? = some k → k.owner ≠ .query q)
    (hstart : Machine.startQuery (P.world st) pattern q s = (.ok m, s')) :
    s'.Idle ∧ m.Asks q s' ∧ s.Spares (· = .query q) s' := by
  obtain ⟨m0, howner, htied, hsame, heffect⟩ := startQuery_effect hnew hstart
  refine ⟨⟨heffect.wired h.wired htied (howner ▸ hopen), heffect.manned h.wired (fun _ => id) htied
    (howner ▸ hopen) h.manned fun g e => ?_⟩, ⟨hsame.trans howner,
    heffect.tied hsame h.wired htied, heffect.works h.wired hopen⟩,
    heffect.spares h.wired htied howner⟩
  rw [howner] at e
  cases e

/-- The engine goes on with another session and other queries. -/
theorem Engine.Kept.update (h : e.Kept R) {s' : Session} {queries : Std.TreeMap Nat Query}
    (hidle : s'.Idle) (hformed : s'.Formed (e.program R store)) (hs : e.session.Spares o s')
    (hqueries : ∀ {id : Nat} {query : Query}, queries[id]? = some query →
      (id < s'.nextId ∧
        ∀ m, query.machine = some m → m.Asks id s' ∧ m.Formed (e.program R store)) ∨
      ∃ old : Query, e.queries[id]? = some old ∧
        ∀ m, query.machine = some m → ¬ o (.query id) ∧ old.machine = some m) :
    ({ e with session := s', queries } : Engine).Kept R := by
  -- a query that is not open is never opened again
  have before : ∀ {id : Nat} {old : Query}, e.queries[id]? = some old →
      (s'.queries[id]?).isSome = true → (e.session.queries[id]?).isSome = true := by
    intro id old hold hopen
    by_contra hno
    have hdone : e.session.Done (.query id) :=
      ⟨h.query_lt hold, Option.not_isSome_iff_eq_none.1 hno⟩
    obtain ⟨waiting, hw⟩ := Option.isSome_iff_exists.1 hopen
    cases (hs.done hdone).2.symm.trans hw
  refine ⟨h.compiled, hidle, fun store' => hformed.store store', fun {id query} hq => ?_,
    fun {id query m} hq hm hopen => ?_, fun {id query m} store' hq hm hopen => ?_⟩
  · rcases hqueries hq with ⟨hlt, -⟩ | ⟨old, hold, -⟩
    · exact hlt
    · exact Nat.lt_of_lt_of_le (h.query_lt hold) hs.nextId_le
  · rcases hqueries hq with ⟨-, hnew⟩ | ⟨old, hold, hsame⟩
    · exact (hnew m hm).1
    · obtain ⟨ho, hm'⟩ := hsame m hm
      exact (h.asks hold hm' (before hold hopen)).spares hs ho
  · rcases hqueries hq with ⟨-, hnew⟩ | ⟨old, hold, hsame⟩
    · exact (hnew m hm).2.store store'
    · exact h.machine store' hold (hsame m hm).2 (before hold hopen)

/-- Only the journal changes. -/
theorem Engine.Kept.noted (h : e.Kept R) {s' : Session} {queries : Std.TreeMap Nat Query}
    (hs : e.session.Noted s')
    (hqueries : ∀ {id : Nat} {query : Query}, queries[id]? = some query →
      ∃ old : Query, e.queries[id]? = some old ∧
        ∀ m, query.machine = some m → old.machine = some m) :
    ({ e with session := s', queries } : Engine).Kept R := by
  refine h.update (h.idle.noted hs) ((h.formed (Graph.toStore {})).sameTables
    hs.sameTables) (hs.spares fun _ => False) fun hq => .inr ?_
  obtain ⟨old, hold, hold'⟩ := hqueries hq
  exact ⟨old, hold, fun m hm => ⟨id, hold' m hm⟩⟩

theorem Engine.Kept.of_cleared (hcompiled : (e.program R store).Compiled)
    (hlt : ∀ {id : Nat} {query : Query}, e.queries[id]? = some query → id < e.session.nextId)
    (hg : e.session.generators = ∅) (hc : e.session.consumers = ∅) (hq : e.session.queries = ∅) :
    e.Kept R := by
  have closed : ∀ id : Nat, (e.session.queries[id]?).isSome = true → False := by
    intro id hopen
    rw [hq, Std.TreeMap.getElem?_emptyc] at hopen
    cases hopen
  refine ⟨fun _ => hcompiled, .of_empty hg hc hq, fun _ => ⟨fun hgen => ?_⟩, hlt,
    fun {id _ _} _ _ hopen => (closed id hopen).elim,
    fun {id _ _} _ _ _ hopen => (closed id hopen).elim⟩
  rw [hg] at hgen
  cases hgen.symm.trans Std.TreeMap.getElem?_emptyc

theorem Engine.Kept.closeQuery (h : e.Kept R) (id : Nat) : (e.closeQuery id).Kept R := by
  unfold Engine.closeQuery
  split
  · exact h
  · next query hq =>
    split
    · exact h
    · refine h.update (h.idle.closeQuery id)
        ((h.formed (Graph.toStore {})).sameTables
          (e.session.sameTables_closeQuery id)) (e.session.spares_closeQuery id)
        fun {id' query'} hq' => .inr ?_
      rw [Std.TreeMap.getElem?_insert] at hq'
      split at hq'
      · next heq =>
        cases hq'
        rw [Std.LawfulEqCmp.compare_eq_iff_eq] at heq
        exact ⟨query, heq ▸ hq, fun _ hm => by cases hm⟩
      · next hne =>
        refine ⟨query', hq', fun m hm => ⟨fun e => hne ?_, hm⟩⟩
        cases e
        exact Std.LawfulEqCmp.compare_eq_iff_eq.2 rfl

/-- The tables are made fit for the store as it is. -/
theorem Engine.Kept.refresh (h : e.session.version = store.version → e.Kept R)
    (hcompiled : (e.program R store).Compiled)
    (hlt : ∀ {id : Nat} {query : Query}, e.queries[id]? = some query → id < e.session.nextId) :
    ({ e with session := e.session.refresh store.version } : Engine).Kept R := by
  unfold Session.refresh
  split
  · next hv => exact h hv
  · exact .of_cleared hcompiled hlt rfl rfl rfl

/-- A query is opened, on the tables as they are or on cleared ones. -/
theorem Engine.Kept.find (h : e.session.version = store.version → e.Kept R)
    (hcompiled : (e.program R store).Compiled)
    (hlt : ∀ {id : Nat} {query : Query}, e.queries[id]? = some query → id < e.session.nextId)
    {pattern : Triple} {handle : Handle} (hfind : e.find store pattern = (.ok handle, e')) :
    e'.Kept R := by
  obtain ⟨m, s', -, hstart, rfl⟩ := find_ok hfind
  have h1 := Engine.Kept.refresh h hcompiled hlt
  generalize e.session.refresh store.version = s0 at h1 hstart
  have hnoted := Session.noted_note s0.openQuery.2 (.queryOpened s0.nextId pattern)
  have hopened := h1.idle.openQuery.noted hnoted
  obtain ⟨h2, h3, h4⟩ := hopened.startQuery (P := e.program R store) (s0.works_openQuery pattern)
    h1.idle.wired.owner_ne hstart
  have hformed : (s0.openQuery.2.note (.queryOpened s0.nextId pattern)).Formed
      (e.program R store) := ⟨(h1.formed store).machine⟩
  obtain ⟨h5, h6⟩ := startQuery_formed (P := e.program R store) hstart hformed
  have hspares := ((s0.spares_openQuery _).trans (Session.spares_note _ _ _)).trans h4
  refine h1.update h2 h6 hspares fun {id query} hq => ?_
  rw [Std.TreeMap.getElem?_insert] at hq
  split at hq
  · next heq =>
    cases hq
    rw [Std.LawfulEqCmp.compare_eq_iff_eq] at heq
    refine .inl ⟨heq ▸ Nat.lt_of_lt_of_le (Nat.lt_succ_self s0.nextId) h4.nextId_le,
      fun m' hm => ?_⟩
    cases hm
    exact ⟨heq ▸ h3, h5⟩
  · next hne =>
    refine .inr ⟨query, hq, fun m hm => ⟨fun e => hne ?_, hm⟩⟩
    cases e
    exact Std.LawfulEqCmp.compare_eq_iff_eq.2 rfl

/-- How a query is read: it looks for its next answer, or it cannot be read, or a failure
strikes while it looks. -/
theorem Engine.Kept.fill_cases (h : e.Kept R) {fuel id : Nat} {take : Bool}
    {x : Except Failure (Option Triple)} (hfill : e.fill store fuel id take = some (x, e')) :
    (∃ (query found : Query) (s' : Session), e.queries[id]? = some query ∧
      Engine.obstacle store e.session id query = none ∧
      query.Looks (e.program R store) e.settings id e.session found s' ∧ x = .ok found.lookahead ∧
      e' = { e with
        session := s'
        queries := e.queries.insert id (if take then { found with lookahead := none } else found) }) ∨
    x = .error (.runtime .iteratorClosed) ∨
    (∃ (query : Query) (failure : Failure), x = .error failure ∧
      Engine.obstacle store e.session id query = some failure) ∨
    ∃ (query : Query) (m : Machine) (failure : Failure), x = .error failure ∧
      e.queries[id]? = some query ∧ query.machine = some m ∧
      Engine.obstacle store e.session id query = none ∧
      StopsAfter (e.program R store) e.settings id (.search .backtrack m, e.session) failure := by
  have look : ∀ {query found : Query} {y : Except Failure Unit} {s' : Session},
      e.queries[id]? = some query → Engine.obstacle store e.session id query = none →
      Engine.lookAhead (e.world store) fuel id query e.session = some (y, found, s') →
      y = .ok () ∧ query.Looks (e.program R store) e.settings id e.session found s' ∨
      ∃ failure m, y = .error failure ∧ query.machine = some m ∧
        StopsAfter (e.program R store) e.settings id (.search .backtrack m, e.session) failure := by
    intro query found y s' hq hobstacle hlook
    obtain ⟨-, -, hopen⟩ := of_obstacle hobstacle
    exact lookAhead_cases (P := e.program R store) (h.compiled store) (h.formed store)
      (fun m hm => h.machine store hq hm hopen) hlook
  unfold Engine.fill at hfill
  split at hfill
  · cases hfill
    exact .inr (.inl rfl)
  · next query hq =>
    split at hfill
    · next failure hobstacle =>
      cases hfill
      exact .inr (.inr (.inl ⟨query, failure, rfl, hobstacle⟩))
    · next hobstacle =>
      split at hfill
      · cases hfill
      · next failure found s' hlook =>
        cases hfill
        rcases look hq hobstacle hlook with ⟨hx, -⟩ | ⟨failure', m, hx, hm, hstops⟩
        · cases hx
        · cases hx
          exact .inr (.inr (.inr ⟨query, m, failure, rfl, hq, hm, hobstacle, hstops⟩))
      · next found s' hlook =>
        cases hfill
        rcases look hq hobstacle hlook with ⟨-, hlooks⟩ | ⟨failure', m, hx, -⟩
        · exact .inl ⟨query, found, s', hq, hobstacle, hlooks, rfl, rfl⟩
        · cases hx

/-- A query that is read without a failure. -/
theorem Engine.Kept.fill_ok (h : e.Kept R) {fuel id : Nat} {take : Bool} {o : Option Triple}
    (hfill : e.fill store fuel id take = some (.ok o, e')) :
    ∃ (query found : Query) (s' : Session), e.queries[id]? = some query ∧
      Engine.obstacle store e.session id query = none ∧
      query.Looks (e.program R store) e.settings id e.session found s' ∧ o = found.lookahead ∧
      e' = { e with
        session := s'
        queries := e.queries.insert id (if take then { found with lookahead := none } else found) } := by
  rcases h.fill_cases hfill with ⟨query, found, s', h1, h2, h3, hx, h4⟩ | hx | ⟨_, _, hx, -⟩ |
    ⟨_, _, _, hx, -⟩
  · cases hx
    exact ⟨query, found, s', h1, h2, h3, rfl, h4⟩
  all_goals cases hx

/-- A query is read. -/
theorem Engine.Kept.fill (h : e.Kept R) {fuel id : Nat} {take : Bool} {answer : Option Triple}
    (hfill : e.fill store fuel id take = some (.ok answer, e')) : e'.Kept R := by
  obtain ⟨query, found, s', hq, hobstacle, hlooks, -, rfl⟩ := h.fill_ok hfill
  obtain ⟨-, -, hopen⟩ := of_obstacle hobstacle
  have left : ∀ {m : Machine},
      (if take then { found with lookahead := none } else found).machine = some m →
      found.machine = some m := by
    intro m hm
    split at hm <;> exact hm
  -- only the query that is read may have another machine
  have build : ∀ {s' : Session}, s'.Idle → s'.Formed (e.program R store) →
      e.session.Spares (Owner.Involved id) s' →
      (∀ m, found.machine = some m → m.Asks id s' ∧ m.Formed (e.program R store)) →
      ({ e with
        session := s'
        queries := e.queries.insert id
          (if take then { found with lookahead := none } else found) } : Engine).Kept R := by
    intro s' hidle hformed hspares hm
    refine h.update hidle hformed hspares fun {id' query'} hq' => ?_
    rw [Std.TreeMap.getElem?_insert] at hq'
    split at hq'
    · next heq =>
      cases hq'
      rw [Std.LawfulEqCmp.compare_eq_iff_eq] at heq
      subst heq
      exact .inl ⟨Nat.lt_of_lt_of_le (h.query_lt hq) hspares.nextId_le, fun m hm' => hm m (left hm')⟩
    · next hne =>
      refine .inr ⟨query', hq', fun m hm' => ⟨fun e => hne ?_, hm'⟩⟩
      exact Std.LawfulEqCmp.compare_eq_iff_eq.2 (Eq.symm e)
  -- where the machine has moved
  have moved : ∀ {m m' : Machine} {o : Option Triple} {s' : Session}, query.machine = some m →
      MovesTo (e.program R store) e.settings id (.search .backtrack m, e.session)
        (.found o m', s') →
      s'.Idle ∧ s'.Formed (e.program R store) ∧ e.session.Spares (Owner.Involved id) s' ∧
        m'.Asks id s' ∧ m'.Formed (e.program R store) := by
    intro m m' o s' hm hmoves
    obtain ⟨⟨h1, h2, -⟩, h3⟩ := hmoves.kept ⟨h.idle, h.asks hq hm hopen⟩
    obtain ⟨h4, h5⟩ := hmoves.formed (h.compiled store)
      ⟨h.machine store hq hm hopen, trivial, h.formed store⟩
    exact ⟨h1, h5, h3, h2, h4⟩
  cases hlooks with
  | there _ =>
    exact build h.idle (h.formed store) (.refl _ _) fun m hm =>
      ⟨h.asks hq hm hopen, h.machine store hq hm hopen⟩
  | idle _ hnone =>
    refine build h.idle (h.formed store) (.refl _ _) fun m hm => ?_
    rw [hnone] at hm
    cases hm
  | answer _ hm hmoves =>
    obtain ⟨h1, h2, h3, h4⟩ := moved hm hmoves
    refine build h1 h2 h3 fun m' hm' => ?_
    cases hm'
    exact h4
  | ended _ hm hmoves =>
    obtain ⟨h1, h2, h3, -⟩ := moved hm hmoves
    refine build h1 h2 h3 fun m' hm' => ?_
    cases hm'

/-- To print the profile is to write it into the journal. -/
theorem Engine.printProfile_eq (e : Engine) :
    ∃ j : Journal, e.printProfile = { e with session := { e.session with journal := j } } := by
  have all : ∀ (ps : List ProfileEntry) (e : Engine), ∃ j : Journal,
      ps.foldl (fun e p => e.mapSession fun s =>
        { s with journal := s.journal.push .print (Engine.padCount p.entries ++ " " ++ p.rule) }) e =
        { e with session := { e.session with journal := j } } := by
    intro ps
    induction ps with
    | nil => exact fun e => ⟨e.session.journal, rfl⟩
    | cons p ps ih =>
      intro e
      obtain ⟨j, hj⟩ := ih (e.mapSession fun s =>
        { s with journal := s.journal.push .print (Engine.padCount p.entries ++ " " ++ p.rule) })
      exact ⟨j, hj⟩
  exact all e.profile e

/-- The bookkeeping holds after every act that does not fail. -/
theorem Engine.Kept.does {a : Act} {r : Reply} (h : e.Kept R) (hdoes : e.Does store a r e')
    (hr : ¬ r.Failed) : e'.Kept R := by
  cases hdoes with
  | @find _ pattern x hfind =>
    cases x with
    | error failure => exact absurd trivial hr
    | ok handle => exact Engine.Kept.find (fun _ => h) (h.compiled store) h.query_lt hfind
  | @next _ fuel handle x hnext =>
    cases x with
    | error failure => exact absurd trivial hr
    | ok answer => exact h.fill hnext
  | @hasNext _ fuel handle x hnext =>
    obtain ⟨⟨y, e1⟩, hfill, hmap⟩ := Option.map_eq_some_iff.1 hnext
    cases y with
    | error failure =>
      cases hmap
      exact absurd trivial hr
    | ok answer =>
      cases hmap
      exact h.fill hfill
  | @close handle => exact h.closeQuery handle.query
  | @clone handle =>
    refine h.noted (.refl _) fun {id query} hq => ?_
    rw [Std.TreeMap.getElem?_modify] at hq
    split at hq
    · next heq =>
      obtain ⟨old, hold, rfl⟩ := Option.map_eq_some_iff.1 hq
      rw [Std.LawfulEqCmp.compare_eq_iff_eq] at heq
      exact ⟨old, heq ▸ hold, fun _ hm => hm⟩
    · exact ⟨query, hq, fun _ hm => hm⟩
  | @drop handle =>
    unfold Engine.drop
    split
    · exact h
    · next query hq =>
      split
      · refine (h.closeQuery handle.query).noted (.refl _)
          fun {id query'} hq' => ⟨query', ?_, fun _ hm => hm⟩
        rw [Std.TreeMap.getElem?_erase] at hq'
        split at hq'
        · cases hq'
        · exact hq'
      · refine h.noted (.refl _) fun {id query'} hq' => ?_
        rcases getElem?_insert_cases hq' with ⟨rfl, rfl⟩ | hq'
        · exact ⟨query, hq, fun _ hm => hm⟩
        · exact ⟨query', hq', fun _ hm => hm⟩
  | reset => exact .of_cleared (h.compiled store) h.query_lt rfl rfl rfl
  | nextMessage => exact h.noted ⟨_, _, rfl⟩ fun {_ query} hq => ⟨query, hq, fun _ hm => hm⟩
  | printProfile =>
    obtain ⟨j, hj⟩ := e.printProfile_eq
    rw [hj]
    exact h.noted ⟨j, e.session.profile, rfl⟩ fun {_ query} hq => ⟨query, hq, fun _ hm => hm⟩

theorem Engine.kept_of_compiled {base : RuleBase} {store : Store}
    (hbase : (Program.mk R base store).Compiled) (st : Settings) :
    (Engine.new store base st).Kept R := by
  refine .of_cleared hbase (fun {id _} hq => ?_) rfl rfl rfl
  cases hq.symm.trans Std.TreeMap.getElem?_emptyc

theorem Engine.new_kept {rules : RuleSet} {base : RuleBase} (hbase : rules.compile R = .ok base)
    (store : Store) (st : Settings) : (Engine.new store base st).Kept R :=
  kept_of_compiled (compiled_of_compile hbase store) st

end

/-! ## Histories without failures -/

/-- The site comes about from `start`, and no act has failed since its tables were last
cleared: at the start, by a reset, or by a query on a store that has changed. -/
inductive Site.Unfailing (start : Site) : Site → Prop
  | start : Unfailing start start
  | reset {σ σ' : Site} : start.Runs (fun _ _ => True) σ → σ.Does .reset .done σ' →
    Unfailing start σ'
  | outdated {σ σ' : Site} {pattern : Triple} {handle : Handle} :
    start.Runs (fun _ _ => True) σ → σ.engine.session.version ≠ σ.graph.version →
    σ.Does (.find pattern) (.opened (.ok handle)) σ' → Unfailing start σ'
  | act {σ σ' : Site} {a : Act} {r : Reply} : Unfailing start σ → ¬ r.Failed → σ.Does a r σ' →
    Unfailing start σ'

section

variable {R : Registry} {K : Nat → Triple → Prop} {start σ σ' : Site} {g : Graph} {e : Engine}

/-- The tables are about the store as it is now wherever a query is. -/
theorem Site.Sound.version_eq (h : (Site.mk g e).Sound R K) {query : Query} {id : Nat}
    (hq : e.queries[id]? = some query) (hv : query.version = g.version) :
    e.session.version = g.version := by
  have h1 : query.version ≤ e.session.version := h.query_le hq
  have h2 : e.session.version ≤ g.version := h.version_le
  omega

theorem Site.Unfailing.runs (h : start.Unfailing σ) : start.Runs (fun _ _ => True) σ := by
  induction h with
  | start => exact .refl
  | reset hruns hdoes => exact hruns.tail ⟨_, _, trivial, hdoes⟩
  | outdated hruns _ hdoes => exact hruns.tail ⟨_, _, trivial, hdoes⟩
  | act _ _ hdoes ih => exact ih.tail ⟨_, _, trivial, hdoes⟩

theorem Site.Does.kept {a : Act} {r : Reply} (h : σ.Does a r σ') (hr : ¬ r.Failed)
    (hσ : σ.engine.Kept R) : σ'.engine.Kept R := by
  rcases h.engine with hdoes | hsame
  · exact hσ.does hdoes hr
  · rw [hsame]
    exact hσ

/-- The bookkeeping holds after every such history. -/
theorem Site.Unfailing.kept (h : start.Unfailing σ) (hstart : start.engine.Kept R)
    (hσ : start.Sound R K) : σ.engine.Kept R := by
  induction h with
  | start => exact hstart
  | reset hruns hdoes =>
    obtain ⟨-, -, L, hL, -⟩ := hσ.runs hruns
    cases hdoes
    exact .of_cleared hL.compiled hL.query_lt rfl rfl rfl
  | outdated hruns hv hdoes =>
    obtain ⟨-, -, L, hL, -⟩ := hσ.runs hruns
    cases hdoes with
    | find hfind =>
      exact Engine.Kept.find (fun e => absurd e hv) hL.compiled hL.query_lt hfind
  | act _ hr hdoes ih => exact hdoes.kept hr ih

theorem Site.Runs.kept {ok : Act → Reply → Prop} (h : σ.Runs ok σ')
    (hok : ∀ a r, ok a r → ¬ r.Failed) (hσ : σ.engine.Kept R) : σ'.engine.Kept R := by
  induction h with
  | refl => exact hσ
  | tail _ hstep ih =>
    obtain ⟨a, r, hr, hdoes⟩ := hstep
    exact hdoes.kept (hok a r hr) ih

end

end TabledRules
