-- Whatever is done to an engine and its store, a query returns only answers of
-- its pattern over the store that it was opened on, and these are derivable.
import TabledRules.Proofs.Derivations
import TabledRules.Proofs.Histories
import TabledRules.Proofs.SoundTables

namespace TabledRules

/-! ## New queries -/

section

variable {P : Program} {st : Settings} {s s' : Session} {K L : Triple → Prop} {m m' : Machine}

theorem Choice.Leads.imp {U V : State → Prop} {inner : List Frame} {c : Choice}
    (h : c.Leads P s U inner) (hUV : ∀ st, U st → V st) : c.Leads P s V inner := by
  unfold Choice.Leads at h ⊢
  split at h
  · exact fun cl hcl n k θ b henter => hUV _ (h cl hcl n k θ b henter)
  · exact fun t ht n k b hu => hUV _ (h t ht n k b hu)
  · trivial
  · obtain ⟨key, hreads, hkey⟩ := h
    exact ⟨key, hreads, fun t ht n k b hu => hUV _ (hkey t ht n k b hu)⟩

theorem Choice.Sound.imp {standard : Triple} {c : Choice} (h : c.Sound P s standard K)
    (hKL : ∀ t, K t → L t) : c.Sound P s standard L := by
  obtain ⟨inner, fs, hd, hmodels, hleads⟩ := h.under
  refine ⟨h.fit, ⟨inner, fs, hd, hmodels, hleads.imp fun st hst t ht => hKL t (hst t ht)⟩, ?_⟩
  exact fun ha t ht n k b hu => hKL t (h.answers ha t ht n k b hu)

theorem Machine.Sound.imp (h : m.Sound P s K) (hKL : ∀ t, K t → L t) : m.Sound P s L :=
  ⟨h.args_length, h.temps_length, fun c hc => (h.stack c hc).imp hKL,
    fun hc => (h.suspended hc).imp hKL, h.numbered⟩

/-- From no frames there is no step. -/
theorem State.Gives.of_nil {T : Triple → Triple → Prop} {standard t : Triple} {b : Bindings}
    (h : State.Gives P T standard ⟨b, []⟩ t) : ∃ n, standard.mapTerms? (b.resolve n) = some t := by
  obtain ⟨b', n, hsteps, ht⟩ := h
  rcases Relation.ReflTransGen.cases_head hsteps with e | ⟨st', hstep, -⟩
  · cases e
    exact ⟨n, ht⟩
  · cases hstep

/-- What a query that reads a table finds is an answer of it. -/
theorem queryAnswer_of_result {pattern key r t : Triple} {n k n' : Nat} {b : Bindings}
    (htable : P.readsTable pattern = true) (hkey : key = pattern.standard.variantKey)
    (hr : Answer P key r)
    (hu : (pattern.unbound.grow k).unifyTriple n pattern.standard r = some (some b))
    (ht : pattern.standard.mapTerms? (b.resolve n') = some t) : QueryAnswer P pattern t := by
  subst hkey
  refine .result (n := max n n') htable hr
    (Bindings.unifyAll_mono (Nat.le_max_left n n') hu) ?_
  obtain ⟨h1, h2, h3⟩ := mapTerms?_eq_some_iff.1 ht
  have more : ∀ {u v : Term}, b.resolve n' u = some v → b.resolve (max n n') u = some v := by
    intro u v h
    obtain ⟨x, hx, rfl⟩ := Option.map_eq_some_iff.1 h
    exact Option.map_eq_some_iff.2 ⟨x, Bindings.deepDeref_mono (Nat.le_max_right n n') hx, rfl⟩
  exact mapTerms?_eq_some_iff.2 ⟨more h1, more h2, more h3⟩

/-- A machine that reads the table of its goal finds answers of the query. -/
theorem reader_sound {pattern : Triple} {owner : Owner} {consumer : Nat}
    (hm : Machine.blank (P.world st) pattern owner = .ok m) (htable : P.readsTable pattern = true)
    (hreads : s.Reads consumer pattern.standard.variantKey) :
    (m.pushed .root [.proceed] (.results consumer pattern.standard)).Sound P s
      (QueryAnswer P pattern) := by
  obtain ⟨hstd, hb, hstack, hsusp, hargs, htemps, -⟩ := blank_eq hm
  obtain ⟨hnum, hroot⟩ := blank_numbered hm
  refine ⟨?_, ?_, fun c hc => ?_, fun {k c} hc => ?_, hnum.pushed hroot⟩
  · change m.args.length = maxArguments
    rw [hargs]
    rfl
  · change m.temps.length = maxTemporaries
    rw [htemps]
    exact List.length_replicate
  · rw [Machine.stack_pushed, hstack] at hc
    obtain rfl := List.mem_singleton.1 hc
    refine ⟨trivial, ⟨[], [], rfl, .root, _, hreads, fun r hr n k b hu t ht => ?_⟩,
      fun ha => by cases ha⟩
    obtain ⟨n', ht⟩ := ht.of_nil
    change (m.bindings.grow k).unifyTriple n pattern.standard r = _ at hu
    change m.standard.mapTerms? _ = _ at ht
    rw [hb] at hu
    rw [hstd] at ht
    exact queryAnswer_of_result htable rfl hr hu ht
  · change m.suspended[k]? = some c at hc
    rw [hsusp] at hc
    cases hc.symm.trans Std.TreeMap.getElem?_emptyc

theorem startQuery_sound {pattern : Triple} {q : Nat} {x : Except Failure Machine}
    (hs : s.Sound P) (h : Machine.startQuery (P.world st) pattern q s = (x, s')) :
    s'.Sound P ∧ s.Grows s' ∧ ∀ m, x = .ok m → m.Sound P s' (QueryAnswer P pattern) := by
  unfold Machine.startQuery at h
  split at h
  · cases h
    exact ⟨hs, .refl s, fun m e => by cases e⟩
  · next m hm =>
    obtain ⟨hstd, hb, hstack, hsusp, hargs, htemps, -⟩ := blank_eq hm
    split at h
    · next hno =>
      cases h
      refine ⟨hs, .refl s, fun m hm => (start_sound hm s).imp fun t ht => ?_⟩
      refine .derived ?_ (derives_of_answer ht)
      unfold Program.readsTable
      rw [hstd] at hno
      simpa [Program.world, imp_iff_not_or] using hno
    · next hyes =>
      have htable : P.readsTable pattern = true := by
        unfold Program.readsTable
        rw [hstd] at hyes
        simpa [Program.world] using hyes
      have hcalled : m.called = pattern.standard := by
        rw [Machine.called, hargs]
        rfl
      unfold Machine.callTable at h
      rcases hg : s.generatorFor (P.world st) m.standard with ⟨e | g, s1⟩
      · rw [hg] at h
        cases h
        obtain ⟨h1, h2, -⟩ := hs.generatorFor hg
        exact ⟨h1, h2, fun m e => by cases e⟩
      · obtain ⟨h1, h2, h3⟩ := hs.generatorFor hg
        obtain ⟨h4, h5⟩ := h1.addConsumer (h3 g rfl).1 m.owner
        have hreads := hs.answering m.owner _ g s1 hg
        rw [hg] at h
        simp only at h
        rcases m.push_eq (P.world st) .root [.proceed]
          (.results (s1.addConsumer g m.owner).1 m.called) with ⟨e, he⟩ | hok
        · rw [he] at h
          cases h
          exact ⟨h4, h2.trans h5, fun m e => by cases e⟩
        · rw [hok] at h
          cases h
          refine ⟨h4, h2.trans h5, fun m' e => ?_⟩
          cases e
          rw [hcalled]
          rw [hstd] at hreads
          exact reader_sound hm htable hreads

end

/-! ## Queries of an engine -/

/-- The query finds what `K` has, and so did it find the answer it looked ahead to. -/
structure Query.Sound (P : Program) (s : Session) (K : Triple → Prop) (q : Query) : Prop where
  machine : ∀ m, q.machine = some m → m.Sound P s K
  lookahead : ∀ t, q.lookahead = some t → K t

/-- Nothing that was known of readers is lost. -/
structure Session.Carries (s s' : Session) : Prop where
  nextId_le : s.nextId ≤ s'.nextId
  reads : ∀ k key, s.Reads k key → s'.Reads k key

section

variable {P : Program} {st : Settings} {s s' : Session} {K : Triple → Prop} {q q' : Query}

theorem Session.Carries.trans {s'' : Session} (h : s.Carries s') (h' : s'.Carries s'') :
    s.Carries s'' :=
  ⟨Nat.le_trans h.nextId_le h'.nextId_le, fun k key hk => h'.reads k key (h.reads k key hk)⟩

theorem Session.Grows.carries (h : s.Grows s') : s.Carries s' :=
  ⟨h.nextId_le, fun _ _ hk => hk.grows h⟩

theorem Query.Sound.carries (h : q.Sound P s K) (hs : s.Carries s') : q.Sound P s' K :=
  ⟨fun m hm => (h.machine m hm).reads hs.reads, h.lookahead⟩

theorem Session.carries_clear (s : Session) (v : Nat) : s.Carries (s.clear v) := by
  refine ⟨Nat.le_refl _, fun k key hk => ⟨hk.exists_id, fun h => ?_, fun h => ?_⟩⟩
  · cases h.symm.trans Std.TreeMap.getElem?_emptyc
  · cases h.symm.trans Std.TreeMap.getElem?_emptyc

/-- Without tables there is nothing that could be wrong. -/
theorem Session.Sound.of_empty (hgen : s.generators = ∅) (hgoals : s.goals = {})
    (hcons : s.consumers = ∅) : s.Sound P := by
  have nogen : ∀ {g : Nat} {gen : Generator}, s.generators[g]? = some gen → False := by
    intro g gen h
    rw [hgen] at h
    cases h.symm.trans Std.TreeMap.getElem?_emptyc
  have nokey : ∀ {key g}, (key, g) ∈ s.goals.toList → False := by
    intro key g h
    rw [hgoals] at h
    cases h
  refine ⟨fun h => (nogen h).elim, fun h => ?_, fun h => (nokey h).elim, fun h _ => (nokey h).elim,
    fun h _ => (nogen h).elim, fun h _ => (nogen h).elim⟩
  rw [hcons] at h
  cases h.symm.trans Std.TreeMap.getElem?_emptyc

theorem Session.sameTables_poison (s : Session) (e : Failure) : s.SameTables (s.poison e) := by
  unfold Session.poison
  split
  · exact ⟨rfl, rfl, rfl, fun h => ⟨_, h, rfl, rfl, .inl rfl⟩, fun h => ⟨_, h, rfl⟩⟩
  · exact .refl s

theorem Session.refresh_sound (s : Session) (v : Nat) (h : s.version = v → s.Sound P) :
    (s.refresh v).Sound P ∧ s.Carries (s.refresh v) ∧ (s.refresh v).version = v := by
  unfold Session.refresh
  split
  · next e => exact ⟨h e, (Session.Grows.refl s).carries, e⟩
  · have hnote := (s.sameTables_note (.tablesOutdated s.version v)).grows.carries
    exact ⟨.of_empty rfl rfl rfl, hnote.trans (Session.carries_clear _ v), rfl⟩

/-- Ids are given out, and no table is touched. -/
theorem Session.Sound.openQuery (hs : s.Sound P) (pattern : Triple) :
    (s.openQuery.2.note (.queryOpened s.nextId pattern)).Sound P := by
  obtain ⟨h, -⟩ := hs.nextId (Nat.le_succ s.nextId)
  exact h.sameTables ((Session.sameTables_queries { s with nextId := s.nextId + 1 }
    (s.queries.insert s.nextId [])).trans (Session.sameTables_note _ (.queryOpened s.nextId pattern)))

theorem lookAhead_sound (hP : P.Compiled) {id fuel : Nat} {x : Except Failure Unit}
    (hq : q.Sound P s K) (hs : s.Sound P)
    (h : Engine.lookAhead (P.world st) fuel id q s = some (x, q', s')) :
    q'.Sound P s' K ∧ s'.Sound P ∧ s.Grows s' ∧ q'.version = q.version := by
  have nothing : ∀ {t : Triple}, ({ q with machine := none, finished := true } : Query).lookahead =
      some t → K t := fun ht => hq.lookahead _ ht
  unfold Engine.lookAhead at h
  split at h
  · cases h
    exact ⟨hq, hs, .refl s, rfl⟩
  · split at h
    · next hnone =>
      cases h
      exact ⟨⟨fun m hm => hq.machine m hm, hq.lookahead⟩, hs, .refl s, rfl⟩
    · next m hm =>
      split at h
      · cases h
      · next t m1 s1 hadvance =>
        obtain ⟨h1, h2, h3, h4⟩ := advance_sound hP (hq.machine m hm) hs hadvance
        cases h
        refine ⟨⟨fun m' e => ?_, fun t' e => ?_⟩, h2, h3, rfl⟩
        · cases e
          exact h1
        · cases e
          exact h4 _ rfl
      · next m1 s1 hadvance =>
        obtain ⟨h1, h2, h3, h4⟩ := advance_sound hP (hq.machine m hm) hs hadvance
        cases h
        exact ⟨⟨fun m' e => (by cases e), fun t' e => nothing e⟩, h2, h3, rfl⟩
      · next failure m1 s1 hadvance =>
        obtain ⟨h1, h2, h3, h4⟩ := advance_sound hP (hq.machine m hm) hs hadvance
        have hpoison := s1.sameTables_poison failure
        cases h
        exact ⟨⟨fun m' e => (by cases e), fun t' e => nothing e⟩, h2.sameTables hpoison,
          h3.trans hpoison.grows, rfl⟩

end

/-! ## Histories -/

/-- The engine's rules over the store as it is now. -/
def Site.program (R : Registry) (σ : Site) : Program := ⟨R, σ.engine.rules, σ.graph⟩

theorem Site.stored_iff (R : Registry) (σ : Site) (t : Triple) :
    (σ.program R).Stored t ↔ t ∈ σ.graph.triples := by
  constructor
  · rintro ⟨pattern, ht⟩
    exact Graph.mem_triples_of_find ht
  · intro ht
    refine ⟨⟨.any, .any, .any⟩, ?_⟩
    change t ∈ σ.graph.find ⟨.any, .any, .any⟩
    rw [σ.graph.find_any]
    exact ht

theorem Site.Ground.stored {σ : Site} (h : σ.Ground) (R : Registry) (t : Triple)
    (ht : (σ.program R).Stored t) : t.isGround = true :=
  h t ((σ.stored_iff R t).1 ht)

/-- The tables of an engine have answers only, and `K` says for each query by its id what it
may find. -/
structure Site.Sound (R : Registry) (K : Nat → Triple → Prop) (σ : Site) : Prop where
  compiled : (σ.program R).Compiled
  version_le : σ.engine.session.version ≤ σ.graph.version
  tables : σ.engine.session.version = σ.graph.version → σ.engine.session.Sound (σ.program R)
  query_lt : ∀ {id : Nat} {q : Query}, σ.engine.queries[id]? = some q →
    id < σ.engine.session.nextId
  query_le : ∀ {id : Nat} {q : Query}, σ.engine.queries[id]? = some q →
    q.version ≤ σ.engine.session.version
  query : ∀ {id : Nat} {q : Query}, σ.engine.queries[id]? = some q → q.version = σ.graph.version →
    q.Sound (σ.program R) σ.engine.session (K id)

section

variable {R : Registry} {K L : Nat → Triple → Prop} {σ σ' : Site} {g : Graph} {e : Engine}

theorem Site.Sound.congr (h : σ.Sound R K) (hKL : ∀ id < σ.engine.session.nextId, L id = K id) :
    σ.Sound R L := by
  refine ⟨h.compiled, h.version_le, h.tables, h.query_lt, h.query_le, fun hq hv => ?_⟩
  rw [hKL _ (h.query_lt hq)]
  exact h.query hq hv

/-- The engine goes on with another session and other queries, each of which is an old one
or sound. -/
theorem Site.Sound.update (h : (Site.mk g e).Sound R K) {s' : Session}
    {queries : Std.TreeMap Nat Query} (hcarries : e.session.Carries s')
    (hle : e.session.version ≤ s'.version) (hle' : s'.version ≤ g.version)
    (htables : s'.version = g.version → s'.Sound ⟨R, e.rules, g⟩)
    (hqueries : ∀ {id : Nat} {q' : Query}, queries[id]? = some q' →
      (∃ q, e.queries[id]? = some q ∧ q'.version = q.version ∧
        ∀ J, q.Sound ⟨R, e.rules, g⟩ s' J → q'.Sound ⟨R, e.rules, g⟩ s' J) ∨
      (id < s'.nextId ∧ q'.version ≤ s'.version ∧
        (q'.version = g.version → q'.Sound ⟨R, e.rules, g⟩ s' (K id)))) :
    (Site.mk g { e with session := s', queries }).Sound R K := by
  refine ⟨h.compiled, hle', htables, fun hq => ?_, fun hq => ?_, fun hq hv => ?_⟩
  · rcases hqueries hq with ⟨q, h1, -⟩ | ⟨h1, -⟩
    · exact Nat.lt_of_lt_of_le (h.query_lt h1) hcarries.nextId_le
    · exact h1
  · rcases hqueries hq with ⟨q, h1, e1, -⟩ | ⟨-, h1, -⟩
    · rw [e1]
      exact Nat.le_trans (h.query_le h1) hle
    · exact h1
  · rcases hqueries hq with ⟨q, h1, e1, h2⟩ | ⟨-, -, h1⟩
    · exact h2 _ ((h.query h1 (e1.symm.trans hv)).carries hcarries)
    · exact h1 hv

/-- Only the session changes, and not what its tables are about. -/
theorem Site.Sound.session (h : (Site.mk g e).Sound R K) {s' : Session}
    (hs : e.session.SameTables s') : (Site.mk g { e with session := s' }).Sound R K := by
  refine h.update hs.grows.carries (Nat.le_of_eq hs.version.symm) ?_ (fun hv => ?_)
    (fun {id q} hq => .inl ⟨q, hq, rfl, fun _ hJ => hJ⟩)
  · rw [hs.version]
    exact h.version_le
  · rw [hs.version] at hv
    exact (h.tables hv).sameTables hs

theorem getElem?_insert_cases {queries : Std.TreeMap Nat Query} {id id' : Nat} {q q' : Query}
    (h : (queries.insert id q)[id']? = some q') :
    (id = id' ∧ q = q') ∨ queries[id']? = some q' := by
  rw [Std.TreeMap.getElem?_insert] at h
  split at h
  · next e =>
    cases h
    exact .inl ⟨Std.LawfulEqCmp.compare_eq_iff_eq.1 e, rfl⟩
  · exact .inr h

theorem Site.Sound.closeQuery (h : (Site.mk g e).Sound R K) (id : Nat) :
    (Site.mk g (e.closeQuery id)).Sound R K := by
  unfold Engine.closeQuery
  split
  · exact h
  · next q hq =>
    split
    · exact h
    · have hsame := e.session.sameTables_closeQuery id
      refine h.update hsame.grows.carries (Nat.le_of_eq hsame.version.symm) ?_ (fun hv => ?_)
        (fun {id' q'} hq' => ?_)
      · rw [hsame.version]
        exact h.version_le
      · rw [hsame.version] at hv
        exact (h.tables hv).sameTables hsame
      · rcases getElem?_insert_cases hq' with ⟨rfl, rfl⟩ | hq'
        · exact .inl ⟨q, hq, rfl, fun J _ => ⟨fun m hm => (by cases hm), fun t ht => (by cases ht)⟩⟩
        · exact .inl ⟨q', hq', rfl, fun _ hJ => hJ⟩

theorem Site.Sound.reset (h : (Site.mk g e).Sound R K) :
    (Site.mk g (e.reset g.toStore)).Sound R K := by
  have hnote := Session.sameTables_note (e.session.clear g.version) .tablesReset
  refine h.update ((Session.carries_clear _ _).trans hnote.grows.carries) h.version_le
    (Nat.le_refl _) (fun _ => .of_empty rfl rfl rfl)
    (fun {id q} hq => .inl ⟨q, hq, rfl, fun _ hJ => hJ⟩)

/-- A changed store has a new version, so that nothing has to be known of it. -/
theorem Site.Sound.store {g' : Graph} (h : (Site.mk g e).Sound R K)
    (hg : g' = g ∨ g'.version = g.version + 1) : (Site.mk g' e).Sound R K := by
  rcases hg with rfl | hv
  · exact h
  · have hle : e.session.version ≤ g.version := h.version_le
    refine ⟨h.compiled, ?_, fun hv' => ?_, h.query_lt, h.query_le, fun hq hv' => ?_⟩
    · change e.session.version ≤ g'.version
      omega
    · change e.session.version = g'.version at hv'
      omega
    · have := h.query_le hq
      change _ ≤ e.session.version at this
      change _ = g'.version at hv'
      omega

/-- An answer that a query finds is one that it may find. -/
theorem Site.Sound.fill (h : (Site.mk g e).Sound R K) {fuel id : Nat} {take : Bool} {e' : Engine}
    {x : Except Failure (Option Triple)} (hfill : e.fill g.toStore fuel id take = some (x, e')) :
    (Site.mk g e').Sound R K ∧ e'.rules = e.rules ∧
      e.session.nextId ≤ e'.session.nextId ∧ ∀ t, x = .ok (some t) → K id t := by
  unfold Engine.fill at hfill
  split at hfill
  · cases hfill
    exact ⟨h, rfl, Nat.le_refl _, fun t e => by cases e⟩
  · next q hq =>
    split at hfill
    · cases hfill
      exact ⟨h, rfl, Nat.le_refl _, fun t e => by cases e⟩
    · next hobstacle =>
      -- the query is about the store as it is, and so are the tables
      have hv : q.version = g.version := by
        unfold Engine.obstacle at hobstacle
        split at hobstacle
        · cases hobstacle
        · split at hobstacle
          · cases hobstacle
          · next hv => exact (not_not.1 hv).symm
      have hqle := h.query_le hq
      have hle := h.version_le
      have hsv : e.session.version = g.version := by
        change q.version ≤ e.session.version at hqle
        change e.session.version ≤ g.version at hle
        omega
      have hw : e.world g.toStore = (Program.mk R e.rules g).world e.settings := rfl
      rw [hw] at hfill
      have hnew : ∀ {q1 q2 : Query} {s1 : Session}, q1.Sound ⟨R, e.rules, g⟩ s1 (K id) →
          s1.Sound ⟨R, e.rules, g⟩ → e.session.Grows s1 → q1.version = q.version →
          q2.version = q1.version → q2.machine = q1.machine →
          (q2.lookahead = q1.lookahead ∨ q2.lookahead = none) →
          (Site.mk g { e with session := s1, queries := e.queries.insert id q2 }).Sound R K := by
        intro q1 q2 s1 h1 h2 h3 h4 h5 h6 h7
        have hlt : id < e.session.nextId := h.query_lt hq
        refine h.update h3.carries (Nat.le_of_eq h3.version.symm) (by rw [h3.version]; exact hle)
          (fun _ => h2) (fun {id' q'} hq' => ?_)
        rcases getElem?_insert_cases hq' with ⟨rfl, rfl⟩ | hq'
        · refine .inr ⟨Nat.lt_of_lt_of_le hlt h3.nextId_le, by rw [h5, h4, h3.version]; exact hqle,
            fun _ => ⟨fun m hm => h1.machine m (h6 ▸ hm), fun t ht => ?_⟩⟩
          rcases h7 with h7 | h7
          · exact h1.lookahead t (h7 ▸ ht)
          · rw [h7] at ht
            cases ht
        · exact .inl ⟨q', hq', rfl, fun _ hJ => hJ⟩
      split at hfill
      · cases hfill
      · next failure q1 s1 hlook =>
        obtain ⟨h1, h2, h3, h4⟩ := lookAhead_sound h.compiled (h.query hq hv) (h.tables hsv) hlook
        cases hfill
        exact ⟨hnew h1 h2 h3 h4 rfl rfl (.inl rfl), rfl, h3.nextId_le, fun t e => by cases e⟩
      · next q1 s1 hlook =>
        obtain ⟨h1, h2, h3, h4⟩ := lookAhead_sound h.compiled (h.query hq hv) (h.tables hsv) hlook
        cases hfill
        refine ⟨hnew h1 h2 h3 h4 ?_ ?_ ?_, rfl, h3.nextId_le, fun t e => h1.lookahead t ?_⟩
        · split <;> rfl
        · split <;> rfl
        · split
          · exact .inr rfl
          · exact .inl rfl
        · exact Except.ok.inj e

/-- The tables are cleared where they are about another version of the store. -/
theorem Site.Sound.refresh (h : (Site.mk g e).Sound R K) :
    (Site.mk g { e with session := e.session.refresh g.version }).Sound R K := by
  obtain ⟨h1, h2, h3⟩ := e.session.refresh_sound g.version h.tables
  refine h.update h2 ?_ (Nat.le_of_eq h3) (fun _ => h1)
    (fun {id q} hq => .inl ⟨q, hq, rfl, fun _ hJ => hJ⟩)
  rw [h3]
  exact h.version_le

/-- A new query may find the answers of its pattern. -/
theorem Site.Sound.find (h : (Site.mk g e).Sound R K) {pattern : Triple} {e' : Engine}
    {x : Except Failure Handle} (hfind : e.find g.toStore pattern = (x, e')) :
    e'.rules = e.rules ∧ e.session.nextId ≤ e'.session.nextId ∧
      ∃ L, (Site.mk g e').Sound R L ∧ (∀ id < e.session.nextId, L id = K id) ∧
        ∀ handle, x = .ok handle → handle.query < e'.session.nextId ∧
          L handle.query = QueryAnswer ⟨R, e.rules, g⟩ pattern := by
  unfold Engine.find at hfind
  split at hfind
  · cases hfind
    exact ⟨rfl, Nat.le_refl _, K, h, fun _ _ => rfl, fun handle e => by cases e⟩
  · obtain ⟨h1, h2, h3⟩ := e.session.refresh_sound g.toStore.version h.tables
    have hw : e.world g.toStore = (Program.mk R e.rules g).world e.settings := rfl
    have hver : e.session.version ≤ g.version := h.version_le
    generalize hs1 : e.session.refresh g.toStore.version = s1 at h1 h2 h3 hfind
    -- the session with the query opened
    obtain ⟨h4, h5⟩ := h1.nextId (Nat.le_succ s1.nextId)
    have hopen := (Session.sameTables_queries { s1 with nextId := s1.nextId + 1 }
      (s1.queries.insert s1.nextId [])).trans
        (Session.sameTables_note _ (.queryOpened s1.nextId pattern))
    have h6 := h4.sameTables hopen
    have h7 := h5.trans hopen.grows
    rw [hw] at hfind
    simp only [Session.openQuery] at hfind
    split at hfind
    · next failure s2 hstart =>
      obtain ⟨h8, h9, -⟩ := startQuery_sound h6 hstart
      have hclose := (s2.sameTables_poison failure).trans
        (Session.sameTables_closeQuery _ s1.nextId)
      have hgrows := (h7.trans h9).trans hclose.grows
      cases hfind
      have hv : _ = g.version := hgrows.version.trans h3
      exact ⟨rfl, (h2.trans hgrows.carries).nextId_le, K,
        h.update (h2.trans hgrows.carries) (by rw [hv]; exact hver) (Nat.le_of_eq hv)
          (fun _ => h8.sameTables hclose) (fun {id q} hq => .inl ⟨q, hq, rfl, fun _ hJ => hJ⟩),
        fun _ _ => rfl, fun handle e => by cases e⟩
    · next m s2 hstart =>
      obtain ⟨h8, h9, h10⟩ := startQuery_sound h6 hstart
      have hgrows := h7.trans h9
      have hv : _ = g.version := hgrows.version.trans h3
      have hle : e.session.nextId ≤ s1.nextId := h2.nextId_le
      have hlt : s1.nextId < s2.nextId := Nat.lt_of_lt_of_le (Nat.lt_succ_self _) h9.nextId_le
      let L : Nat → Triple → Prop :=
        Function.update K s1.nextId (QueryAnswer ⟨R, e.rules, g⟩ pattern)
      have hL : ∀ id < e.session.nextId, L id = K id := fun id hid =>
        Function.update_of_ne (by omega) _ _
      cases hfind
      refine ⟨rfl, Nat.le_of_lt (Nat.lt_of_le_of_lt hle hlt), L, ?_, hL, fun handle e => ?_⟩
      · refine (h.congr hL).update (h2.trans hgrows.carries) (by rw [hv]; exact hver)
          (Nat.le_of_eq hv) (fun _ => h8) (fun {id q} hq => ?_)
        rcases getElem?_insert_cases hq with ⟨rfl, rfl⟩ | hq
        · refine .inr ⟨hlt, Nat.le_of_eq hv.symm, fun _ => ⟨fun m' e => ?_, fun t e => by cases e⟩⟩
          cases e
          change m.Sound _ _ (Function.update K s1.nextId _ s1.nextId)
          rw [Function.update_self]
          exact h10 m rfl
        · exact .inl ⟨q, hq, rfl, fun _ hJ => hJ⟩
      · cases e
        exact ⟨hlt, Function.update_self _ _ _⟩

/-- What an act leaves behind: queries that were there may find what they could find before,
and an answer is one that its query may find. -/
structure Site.Follows (R : Registry) (K : Nat → Triple → Prop) (σ : Site) (a : Act) (r : Reply)
    (σ' : Site) (L : Nat → Triple → Prop) : Prop where
  rules : σ'.engine.rules = σ.engine.rules
  nextId_le : σ.engine.session.nextId ≤ σ'.engine.session.nextId
  sound : σ'.Sound R L
  old : ∀ id < σ.engine.session.nextId, L id = K id
  opened : ∀ pattern handle, a = .find pattern → r = .opened (.ok handle) →
    handle.query < σ'.engine.session.nextId ∧ L handle.query = QueryAnswer (σ.program R) pattern
  answered : ∀ handle t, a = .next handle → r = .answer (.ok (some t)) → K handle.query t

theorem Site.Sound.does {a : Act} {r : Reply} (h : σ.Sound R K) (hdoes : σ.Does a r σ') :
    ∃ L, σ.Follows R K a r σ' L := by
  -- an act that opens nothing and answers nothing
  have quiet : ∀ {a : Act} {r : Reply} {σ' : Site}, r = .done → σ'.Sound R K →
      σ'.engine.rules = σ.engine.rules → σ.engine.session.nextId ≤ σ'.engine.session.nextId →
      ∃ L, σ.Follows R K a r σ' L := by
    intro a r σ' hr h1 h2 h3
    subst hr
    exact ⟨K, h2, h3, h1, fun _ _ => rfl, fun _ _ _ hr => (by cases hr),
      fun _ _ _ hr => (by cases hr)⟩
  have closed : ∀ (g : Graph) (e : Engine) id, (e.closeQuery id).rules = e.rules ∧
      (e.closeQuery id).session.nextId = e.session.nextId := by
    intro g e id
    unfold Engine.closeQuery
    split
    · exact ⟨rfl, rfl⟩
    · split
      · exact ⟨rfl, rfl⟩
      · exact ⟨rfl, (e.session.sameTables_closeQuery id).nextId⟩
  cases hdoes with
  | @find g e e' pattern x hfind =>
    obtain ⟨h1, h2, L, h3, h4, h5⟩ := h.find hfind
    refine ⟨L, h1, h2, h3, h4, fun pattern' handle ha hr => ?_, fun _ _ ha => (by cases ha)⟩
    cases ha
    cases hr
    exact h5 handle rfl
  | @next g e e' fuel handle x hnext =>
    obtain ⟨h1, h2, h3, h4⟩ := h.fill hnext
    refine ⟨K, h2, h3, h1, fun _ _ => rfl, fun _ _ ha => (by cases ha), fun handle' t ha hr => ?_⟩
    cases ha
    cases hr
    exact h4 t rfl
  | @hasNext g e e' fuel handle x hnext =>
    obtain ⟨⟨y, e1⟩, hfill, hmap⟩ := Option.map_eq_some_iff.1 hnext
    cases hmap
    obtain ⟨h1, h2, h3, -⟩ := h.fill hfill
    exact ⟨K, h2, h3, h1, fun _ _ => rfl, fun _ _ ha => (by cases ha), fun _ _ ha => (by cases ha)⟩
  | @close g e handle =>
    exact quiet rfl (h.closeQuery handle.query) (closed g e _).1 (Nat.le_of_eq (closed g e _).2.symm)
  | @clone g e handle =>
    refine quiet rfl ?_ rfl (Nat.le_refl _)
    refine h.update (Session.Grows.refl _).carries (Nat.le_refl _) h.version_le h.tables
      (fun {id q'} hq' => ?_)
    rw [Std.TreeMap.getElem?_modify] at hq'
    split at hq'
    · obtain ⟨q, hq, rfl⟩ := Option.map_eq_some_iff.1 hq'
      next e1 =>
      rw [Std.LawfulEqCmp.compare_eq_iff_eq] at e1
      subst e1
      exact .inl ⟨q, hq, rfl, fun J hJ => ⟨hJ.machine, hJ.lookahead⟩⟩
    · exact .inl ⟨q', hq', rfl, fun _ hJ => hJ⟩
  | @drop g e handle =>
    refine quiet rfl ?_ ?_ ?_
    · unfold Engine.drop
      split
      · exact h
      · next q hq =>
        split
        · have hclosed := h.closeQuery handle.query
          refine hclosed.update (Session.Grows.refl _).carries (Nat.le_refl _) hclosed.version_le
            hclosed.tables (fun {id q'} hq' => ?_)
          rw [Std.TreeMap.getElem?_erase] at hq'
          split at hq'
          · cases hq'
          · exact .inl ⟨q', hq', rfl, fun _ hJ => hJ⟩
        · refine h.update (Session.Grows.refl _).carries (Nat.le_refl _) h.version_le h.tables
            (fun {id q'} hq' => ?_)
          rcases getElem?_insert_cases hq' with ⟨rfl, rfl⟩ | hq'
          · exact .inl ⟨q, hq, rfl, fun J hJ => ⟨hJ.machine, hJ.lookahead⟩⟩
          · exact .inl ⟨q', hq', rfl, fun _ hJ => hJ⟩
    · unfold Engine.drop
      split
      · rfl
      · split
        · exact (closed g e _).1
        · rfl
    · unfold Engine.drop
      split
      · exact Nat.le_refl _
      · split
        · exact Nat.le_of_eq (closed g e _).2.symm
        · exact Nat.le_refl _
  | reset => exact quiet rfl h.reset rfl (Nat.le_refl _)
  | @nextMessage g e =>
    exact quiet rfl (h.session ⟨rfl, rfl, rfl, fun h => ⟨_, h, rfl, rfl, .inl rfl⟩,
      fun h => ⟨_, h, rfl⟩⟩) rfl (Nat.le_refl _)
  | @printProfile g e =>
    have : ∀ (ps : List ProfileEntry) (e : Engine), (Site.mk g e).Sound R K →
        (Site.mk g (ps.foldl (fun e p => e.mapSession fun s =>
          { s with journal := s.journal.push .print (Engine.padCount p.entries ++ " " ++ p.rule) })
            e)).Sound R K ∧
        (ps.foldl (fun e p => e.mapSession fun s =>
          { s with journal := s.journal.push .print (Engine.padCount p.entries ++ " " ++ p.rule) })
            e).rules = e.rules ∧
        (ps.foldl (fun e p => e.mapSession fun s =>
          { s with journal := s.journal.push .print (Engine.padCount p.entries ++ " " ++ p.rule) })
            e).session.nextId = e.session.nextId := by
      intro ps
      induction ps with
      | nil => exact fun e h => ⟨h, rfl, rfl⟩
      | cons p ps ih =>
        intro e h
        exact ih _ (h.session ⟨rfl, rfl, rfl, fun h => ⟨_, h, rfl, rfl, .inl rfl⟩,
          fun h => ⟨_, h, rfl⟩⟩)
    obtain ⟨h1, h2, h3⟩ := this e.profile e h
    exact quiet rfl h1 h2 (Nat.le_of_eq h3.symm)
  | @add g e t => exact quiet rfl (h.store (g.add_cases t)) rfl (Nat.le_refl _)
  | @delete g e t => exact quiet rfl (h.store (g.delete_cases t)) rfl (Nat.le_refl _)

end

/-! ## Rule sets -/

section

variable {rules : RuleSet} {base : RuleBase} {R : Registry}

theorem forall₂_of_mapM {ε α β : Type} {f : α → Except ε β} {as : List α} {bs : List β}
    (h : as.mapM f = .ok bs) : List.Forall₂ (fun a b => f a = .ok b) as bs := by
  induction as generalizing bs with
  | nil =>
    cases h
    exact .nil
  | cons a as ih =>
    rw [List.mapM_cons] at h
    obtain ⟨b, hb, h⟩ := ok_of_bind h
    obtain ⟨bs', hbs, h⟩ := ok_of_bind h
    cases h
    exact .cons hb (ih hbs)

/-- The rules compiled for some layout. -/
def RuleSet.compileFor (s : RuleSet) (layout : Layout) (registry : Registry) :
    Except Failure RuleBase :=
  (s.rules.zipIdx.mapM fun (r, id) => Rule.compile id r layout registry).map fun clauses =>
    { clauses := .ofList clauses, layout }

/-- The clauses of a compiled rule set are those of its rules, in order. -/
theorem clauses_of_compileFor {layout : Layout} (h : rules.compileFor layout R = .ok base) :
    base.layout = layout ∧
      List.Forall₂ (fun p cl => Rule.compile p.2 p.1 layout R = .ok cl) rules.rules.zipIdx
        base.clauses.toList := by
  obtain ⟨clauses, hclauses, rfl⟩ := ok_of_map h
  rw [Index.toList_ofList]
  exact ⟨rfl, forall₂_of_mapM hclauses⟩

theorem clauses_of_compile (h : rules.compile R = .ok base) : base.layout = rules.layout ∧
    List.Forall₂ (fun p cl => Rule.compile p.2 p.1 rules.layout R = .ok cl) rules.rules.zipIdx
      base.clauses.toList :=
  clauses_of_compileFor h

theorem of_compile {id : Nat} {r : Rule} {layout : Layout} {cl : Clause}
    (h : Rule.compile id r layout R = .ok cl) : r.fault? R = none ∧
      cl = ⟨id, r, r.code layout R, r.placement.permanent.length⟩ := by
  unfold Rule.compile at h
  split at h
  · cases h
  · next hfault =>
    cases h
    exact ⟨hfault, rfl⟩

theorem compiled_of_compileFor {layout : Layout} (h : rules.compileFor layout R = .ok base)
    (store : Store) : (Program.mk R base store).Compiled := by
  obtain ⟨hlayout, hall⟩ := clauses_of_compileFor h
  intro cl hcl
  obtain ⟨p, -, hp⟩ := exists_left hall hcl
  obtain ⟨hfault, rfl⟩ := of_compile hp
  exact ⟨hfault, by rw [hlayout], rfl⟩

theorem compiled_of_compile (h : rules.compile R = .ok base) (store : Store) :
    (Program.mk R base store).Compiled :=
  compiled_of_compileFor h store

theorem rules_of_compileFor {layout : Layout} (h : rules.compileFor layout R = .ok base) :
    base.clauses.toList.map Clause.rule = rules.rules := by
  obtain ⟨-, hall⟩ := clauses_of_compileFor h
  have : ∀ {ps : List (Rule × Nat)} {cls : List Clause},
      List.Forall₂ (fun p cl => Rule.compile p.2 p.1 layout R = .ok cl) ps cls →
      cls.map Clause.rule = ps.map Prod.fst := by
    intro ps cls hall
    induction hall with
    | nil => rfl
    | cons hp _ ih =>
      obtain ⟨-, rfl⟩ := of_compile hp
      simp [ih]
  rw [this hall, List.zipIdx_map_fst]

theorem rules_of_compile (h : rules.compile R = .ok base) :
    base.clauses.toList.map Clause.rule = rules.rules :=
  rules_of_compileFor h

end

/-! ## Every answer is derivable -/

section

variable {R : Registry} {K : Nat → Triple → Prop} {σ σ' : Site} {ok : Act → Reply → Prop}

theorem Site.new_sound {graph : Graph} {base : RuleBase} {st : Settings}
    (h : (Program.mk R base graph).Compiled) : (Site.new graph base st).Sound R K :=
  ⟨h, Nat.le_refl _, fun _ => .of_empty rfl rfl rfl,
    fun hq => (by cases hq.symm.trans Std.TreeMap.getElem?_emptyc),
    fun hq => (by cases hq.symm.trans Std.TreeMap.getElem?_emptyc),
    fun hq => (by cases hq.symm.trans Std.TreeMap.getElem?_emptyc)⟩

theorem Site.Sound.runs (h : σ.Sound R K) (hruns : σ.Runs ok σ') :
    σ'.engine.rules = σ.engine.rules ∧ σ.engine.session.nextId ≤ σ'.engine.session.nextId ∧
      ∃ L, σ'.Sound R L ∧ ∀ id < σ.engine.session.nextId, L id = K id := by
  induction hruns with
  | refl => exact ⟨rfl, Nat.le_refl _, K, h, fun _ _ => rfl⟩
  | tail _ hstep ih =>
    obtain ⟨h1, h2, L, h3, h4⟩ := ih
    obtain ⟨a, r, -, hdoes⟩ := hstep
    obtain ⟨L', h5⟩ := h3.does hdoes
    exact ⟨h5.rules.trans h1, Nat.le_trans h2 h5.nextId_le, L', h5.sound, fun id hid =>
      (h5.old id (Nat.lt_of_lt_of_le hid h2)).trans (h4 id hid)⟩

end

/-- Soundness of queries. After any history, an answer of a query is ground, it is what the
pattern asks for, and the rules derive it from the triples that were stored when the
query was opened, if those were ground. -/
theorem answer_derivable {rules : RuleSet} {base : RuleBase} {graph : Graph} {st : Settings}
    {σ₁ σ₂ σ₃ σ₄ : Site} {pattern t : Triple} {handle handle' : Handle}
    (hbase : rules.compile Builtin.standard = .ok base) (hsafe : ∀ r ∈ rules.rules, r.Safe)
    (hbefore : (Site.new graph base st).Runs (fun _ _ => True) σ₁)
    (hground : ∀ t ∈ σ₁.graph.triples, t.isGround = true)
    (hfind : σ₁.Does (.find pattern) (.opened (.ok handle)) σ₂)
    (hbetween : σ₂.Runs (fun _ _ => True) σ₃)
    (hnext : σ₃.Does (.next handle') (.answer (.ok (some t))) σ₄)
    (hsame : handle'.query = handle.query) :
    t.isGround = true ∧ pattern.Matches t ∧
      Derivable rules.rules (· ∈ σ₁.graph.triples) t := by
  have hnew : (Site.new graph base st).Sound Builtin.standard fun _ _ => True :=
    Site.new_sound (compiled_of_compile hbase graph)
  obtain ⟨hrules, -, K, hK, -⟩ := hnew.runs hbefore
  obtain ⟨L, hL⟩ := hK.does hfind
  obtain ⟨hlt, hquery⟩ := hL.opened _ _ rfl rfl
  obtain ⟨-, -, L', hL', hold⟩ := hL.sound.runs hbetween
  obtain ⟨_, hanswer⟩ := hL'.does hnext
  have ht : QueryAnswer (σ₁.program Builtin.standard) pattern t := by
    have := hanswer.answered _ _ rfl rfl
    rw [hsame, hold _ hlt, hquery] at this
    exact this
  have hσ : σ₁.engine.rules = base := hrules
  have hP : (σ₁.program Builtin.standard).Safe := by
    refine ⟨hK.compiled, rfl, fun cl hcl => hsafe _ ?_, Site.Ground.stored hground _⟩
    rw [← rules_of_compile hbase, ← hσ]
    exact List.mem_map.2 ⟨cl, hcl, rfl⟩
  have hright := hP.queryAnswer_right ht
  refine ⟨hP.isGround hright.derivable, hright.matched, ?_⟩
  have hd := hright.derivable
  unfold Program.Derivable at hd
  rw [funext fun u => propext (σ₁.stored_iff Builtin.standard u)] at hd
  unfold Site.program at hd
  rw [hσ, rules_of_compile hbase] at hd
  exact hd

/-! ## Outcomes that are computed -/

theorem ok_of_toOption {ε α : Type} {x : Except ε α} {a : α} (h : x.toOption = some a) :
    x = .ok a := by
  cases x with
  | error e => cases h
  | ok b =>
    cases h
    rfl

/-- A default in the place of a failure is not used where nothing fails. -/
theorem eq_ok_getD {ε α : Type} {x : Except ε α} (h : x.isOk = true) (a : α) :
    x = .ok (x.toOption.getD a) := by
  cases x with
  | error e => cases h
  | ok b => rfl

theorem Engine.find_of_toOption {e : Engine} {store : Store} {pattern : Triple} {handle : Handle}
    (h : (e.find store pattern).1.toOption = some handle) :
    e.find store pattern = (.ok handle, (e.find store pattern).2) :=
  Prod.ext (ok_of_toOption h) rfl

/-! ## A tabled rule set over a cycle -/

namespace Roads

def uri (name : String) : Term := .node (.uri name)

def road (a b : String) : Triple := ⟨uri a, uri "road", uri b⟩

def leads (a b : Term) : Triple := ⟨a, uri "leads", b⟩

/-- Roads lead to where roads lead from their ends. -/
def rules : RuleSet :=
  { rules :=
      [⟨"far", leads (.var "x") (.var "z"),
        [.triple (leads (.var "x") (.var "y")), .triple ⟨.var "y", uri "road", .var "z"⟩]⟩,
        ⟨"near", leads (.var "x") (.var "y"), [.triple ⟨.var "x", uri "road", .var "y"⟩]⟩]
    tabled := [uri "leads"] }

/-- There and back again. -/
def graph : Graph := .ofTriples [road "a" "b", road "b" "a"]

def base : RuleBase :=
  (rules.compile Builtin.standard).toOption.getD { clauses := {}, layout := rules.layout }

theorem compile_rules : rules.compile Builtin.standard = .ok base :=
  eq_ok_getD (by decide +kernel) _

theorem safe_rules : ∀ r ∈ rules.rules, r.Safe := by
  intro r hr x hx
  simp only [rules, List.mem_cons, List.not_mem_nil, or_false] at hr
  rcases hr with rfl | rfl
  · have hx' : x = .var "x" ∨ x = .var "z" := by simpa [Triple.leaves, leads, uri] using hx
    rcases hx' with rfl | rfl
    · exact ⟨"x", rfl, _, List.mem_cons_self, by simp [Entry.Binds, Triple.leaves, leads]⟩
    · exact ⟨"z", rfl, _, List.mem_cons_of_mem _ List.mem_cons_self,
        by simp [Entry.Binds, Triple.leaves]⟩
  · have hx' : x = .var "x" ∨ x = .var "y" := by simpa [Triple.leaves, leads, uri] using hx
    rcases hx' with rfl | rfl
    · exact ⟨"x", rfl, _, List.mem_cons_self, by simp [Entry.Binds, Triple.leaves]⟩
    · exact ⟨"y", rfl, _, List.mem_cons_self, by simp [Entry.Binds, Triple.leaves]⟩

theorem ground_graph : ∀ t ∈ graph.triples, t.isGround = true := by decide +kernel

def pattern : Triple := leads (uri "a") (.var "z")

/-- The engine after a query for where roads lead from `a` was opened. -/
def opened : Except Failure Handle × Engine :=
  (Engine.new graph.toStore base {}).find graph.toStore pattern

def handle : Handle := ⟨1, false⟩

/-- The engine after the first answer. -/
def answered : Option (Except Failure (Option Triple) × Engine) :=
  opened.2.next graph.toStore 1000 handle

theorem does_find : (Site.new graph base {}).Does (.find pattern) (.opened (.ok handle))
    ⟨graph, opened.2⟩ :=
  .find (Engine.find_of_toOption (by decide +kernel))

theorem does_next : ∃ e, Site.Does ⟨graph, opened.2⟩ (.next handle)
    (.answer (.ok (some (leads (uri "a") (uri "b"))))) ⟨graph, e⟩ := by
  have h : (answered.bind fun p => p.1.toOption) = some (some (leads (uri "a") (uri "b"))) := by
    decide +kernel
  obtain ⟨⟨x, e⟩, he, hx⟩ := Option.bind_eq_some_iff.1 h
  obtain rfl := ok_of_toOption hx
  exact ⟨e, .next he⟩

end Roads

/-- Over a cycle of roads the first answer from `a` is derivable. -/
theorem answer_derivable_roads :
    (Roads.leads (Roads.uri "a") (Roads.uri "b")).isGround = true ∧
      Roads.pattern.Matches (Roads.leads (Roads.uri "a") (Roads.uri "b")) ∧
      Derivable Roads.rules.rules (· ∈ Roads.graph.triples)
        (Roads.leads (Roads.uri "a") (Roads.uri "b")) := by
  obtain ⟨e, he⟩ := Roads.does_next
  exact answer_derivable Roads.compile_rules Roads.safe_rules .refl Roads.ground_graph
    Roads.does_find .refl he rfl

end TabledRules
