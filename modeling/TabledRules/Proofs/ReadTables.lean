-- A query that reads a table returns what the table begins with, whatever is
-- done to the engine between two of its answers, and at its end all of it.
import TabledRules.Proofs.Bookkeeping
import TabledRules.Proofs.CoveredSites
import TabledRules.Proofs.TableReaders

namespace TabledRules

/-! ## Queries -/

/-- The query has returned `ts`. With the answer that it has looked ahead to, its table begins
with that, and where it has ended there is no more. -/
structure Query.Reads (pattern : Triple) (id g : Nat) (ts : List Triple) (s : Session)
    (q : Query) : Prop where
  begins : s.Begins pattern g (ts ++ q.lookahead.toList)
  machine : ∀ m, q.machine = some m →
    m.Ready pattern id g (ts ++ q.lookahead.toList).length s
  ended : q.finished = true ∨ q.machine = none → q.lookahead = none ∧ s.Finished pattern g ts

section

variable {P : Program} {st : Settings} {s s' : Session} {q found : Query} {pattern t : Triple}
  {id g : Nat} {ts : List Triple} {o : Owner → Prop}

theorem Query.Reads.spares (h : q.Reads pattern id g ts s) (hs : s.Spares o s')
    (hsettles : s.Settles s') (ho : ¬ o (.query id)) (hopen : (s'.queries[id]?).isSome = true) :
    q.Reads pattern id g ts s' :=
  ⟨h.begins.spares hs, fun m hm => (h.machine m hm).spares hs ho hopen,
    fun he => (h.ended he).imp_right fun hf => hf.kept hs hsettles⟩

/-- The answer that was looked ahead to is returned. -/
theorem Query.Reads.take (h : q.Reads pattern id g ts s) (ht : q.lookahead = some t) :
    ({ q with lookahead := none } : Query).Reads pattern id g (ts ++ [t]) s := by
  obtain ⟨h1, h2, h3⟩ := h
  rw [ht, Option.toList_some] at h1 h2
  refine ⟨by simpa using h1, fun m hm => by simpa using h2 m hm, fun he => ?_⟩
  have hnone := (h3 he).1
  rw [ht] at hnone
  cases hnone

/-- A complete table does not begin with more than it has. -/
theorem Session.Begins.not_finished (h : s.Begins pattern g (ts ++ [t])) :
    ¬ s.Finished pattern g ts := by
  rintro ⟨gen, hgen, -, -, e⟩
  obtain ⟨gen', hgen', -, hts⟩ := h
  cases hgen.symm.trans hgen'
  have hlen := hts.length_le
  rw [e, List.length_append] at hlen
  exact absurd hlen (by simp)

/-- A query that looks for its next answer finds the next result of its table, or the table is
complete and there is none. -/
theorem Query.Looks.reads (h : q.Looks P st id s found s') (hP : P.Compiled)
    (hground : ∀ t, P.Stored t → t.isGround = true) (hidle : s.Idle)
    (hasks : ∀ m, q.machine = some m → m.Asks id s) (hs : s.Sound P)
    (hsound : ∀ m, q.machine = some m → ∃ K, m.Sound P s K) (hq : q.Reads pattern id g ts s) :
    found.Reads pattern id g ts s' ∧ (found.lookahead = none → s'.Finished pattern g ts) := by
  have moved : ∀ {m m' : Machine} {x : Option Triple}, q.lookahead = none → q.machine = some m →
      MovesTo P st id (.search .backtrack m, s) (.found x m', s') →
      (Phase.found x m').Reads pattern id g ts s' := by
    intro m m' x hnone hm hmoves
    obtain ⟨K, hmachine⟩ := hsound m hm
    obtain ⟨h1, h2, -⟩ := hq
    rw [hnone, Option.toList_none, List.append_nil] at h1 h2
    exact hmoves.reads hP hground ⟨hidle, hasks m hm⟩ ⟨hs, hmachine, trivial⟩
      ⟨h1, .ready (h2 m hm)⟩
  cases h with
  | there hthere =>
    refine ⟨hq, fun hnone => (hq.ended (.inl (hthere.resolve_left ?_))).2⟩
    rw [hnone]
    simp
  | idle hnone hm =>
    obtain ⟨-, hfinished⟩ := hq.ended (.inr hm)
    exact ⟨⟨hq.begins, hq.machine, fun _ => ⟨hnone, hfinished⟩⟩, fun _ => hfinished⟩
  | @answer m m' t _ hnone hm hmoves =>
    obtain ⟨hbegins, hready⟩ := moved hnone hm hmoves
    refine ⟨⟨hbegins, fun m1 hm1 => ?_, fun he => ?_⟩, fun e => by cases e⟩
    · cases hm1
      rw [Option.toList_some, List.length_append]
      exact hready
    · -- at its end the query would not have looked for another answer
      have hfinished := (hq.ended (.inl (he.resolve_right (by simp)))).2
      obtain ⟨-, hspares⟩ := hmoves.kept ⟨hidle, hasks m hm⟩
      exact absurd (hfinished.kept hspares (hmoves.settles ⟨hidle, hasks m hm⟩))
        hbegins.not_finished
  | @ended m m' _ hnone hm hmoves =>
    have hfinished : s'.Finished pattern g ts := moved hnone hm hmoves
    refine ⟨⟨?_, fun m1 hm1 => (by cases hm1), fun _ => ⟨hnone, hfinished⟩⟩, fun _ => hfinished⟩
    rw [hnone, Option.toList_none, List.append_nil]
    exact hfinished.begins

/-- The machine of a query that is opened for a pattern with a table reads the table. -/
theorem startQuery_ready {m : Machine} {q : Nat} (hs : s.Sound P) (hidle : s.Idle)
    (htable : P.readsTable pattern = true)
    (hstart : Machine.startQuery (P.world st) pattern q s = (.ok m, s')) :
    ∃ g, s'.Begins pattern g [] ∧ m.Ready pattern q g 0 s' := by
  rcases startQuery_ok hstart with ⟨hno, -⟩ | ⟨-, m0, g, s1, hm0, hg, rfl, rfl⟩
  · rw [htable] at hno
    cases hno
  · obtain ⟨hstd, hbindings, hstack, hsusp, -⟩ := blank_eq hm0
    obtain ⟨-, -, hsome, -, -⟩ := hidle.wired.generatorFor hg
    obtain ⟨gen, hgen⟩ := Option.isSome_iff_exists.1 hsome
    have hgoal := ((hs.generatorFor hg).2.2 g rfl).2 gen hgen
    rw [Triple.variantKey_standard] at hgoal
    refine ⟨g, ⟨{ gen with consumers := s1.nextId :: gen.consumers }, ?_, hgoal, List.nil_prefix⟩,
      hstd, fun d y hy => ?_, s1.nextId, ⟨m0.choices, .root, [.proceed], m0.envs, m0.bindings,
        .results s1.nextId pattern.standard⟩, ?_, ⟨rfl, rfl, hbindings, rfl⟩,
      { generator := g, owner := .query q }, ?_, rfl, rfl, rfl⟩
    · rw [generators_addConsumer, if_pos rfl, hgen]
      rfl
    · change m0.suspended[d]? = some y at hy
      rw [hsusp] at hy
      cases hy.symm.trans Std.TreeMap.getElem?_emptyc
    · rw [Machine.stack_pushed, hstack]
      rfl
    · rw [consumers_addConsumer, if_pos rfl]

end

/-! ## Engines -/

/-- The query `id` on the pattern has returned `ts`, which the table `g` begins with. It began
with `known` before. -/
structure Site.Reading (pattern : Triple) (id g : Nat) (known ts : List Triple) (σ : Site) :
    Prop where
  version : σ.engine.session.version = σ.graph.version
  id_lt : id < σ.engine.session.nextId
  known : σ.engine.session.Begins pattern g known
  begins : σ.engine.session.Begins pattern g ts
  query : ∀ {q : Query}, σ.engine.queries[id]? = some q → q.closed = false →
    (σ.engine.session.queries[id]?).isSome = true → q.Reads pattern id g ts σ.engine.session

section

variable {R : Registry} {K : Nat → Triple → Prop} {gr : Graph} {e e' : Engine} {σ σ' : Site}
  {pattern : Triple} {id g : Nat} {known ts us : List Triple} {o : Owner → Prop}

/-- The engine goes on with another session and other queries. -/
theorem Site.Reading.update (h : (Site.mk gr e).Reading pattern id g known ts) {s' : Session}
    {queries : Std.TreeMap Nat Query} (hs : e.session.Spares o s')
    (hsettles : e.session.Settles s') (hv : s'.version = e.session.version)
    (hbegins : s'.Begins pattern g us)
    (hqueries : ∀ {q : Query}, queries[id]? = some q → q.closed = false →
      q.Reads pattern id g us s' ∨ us = ts ∧ ¬ o (.query id) ∧
        ∃ old : Query, e.queries[id]? = some old ∧ q = { old with handles := q.handles }) :
    (Site.mk gr { e with session := s', queries }).Reading pattern id g known us := by
  refine ⟨hv.trans h.version, Nat.lt_of_lt_of_le h.id_lt hs.nextId_le, h.known.spares hs, hbegins,
    fun {q} hq hclosed hopen => ?_⟩
  rcases hqueries hq hclosed with hreads | ⟨rfl, ho, old, hold, hsame⟩
  · exact hreads
  · -- a query that is not open is never opened again
    have hbefore : (e.session.queries[id]?).isSome = true := by
      by_contra hno
      have hdone : e.session.Done (.query id) := ⟨h.id_lt, Option.not_isSome_iff_eq_none.1 hno⟩
      obtain ⟨waiting, hw⟩ := Option.isSome_iff_exists.1 hopen
      cases (hs.done hdone).2.symm.trans hw
    rw [hsame] at hclosed ⊢
    obtain ⟨h1, h2, h3⟩ := (h.query hold hclosed hbefore).spares hs hsettles ho hopen
    exact ⟨h1, h2, h3⟩

/-- Only the journal changes, and how many handles there are. -/
theorem Site.Reading.noted (h : (Site.mk gr e).Reading pattern id g known ts) {s' : Session}
    {queries : Std.TreeMap Nat Query} (hs : e.session.Noted s')
    (hqueries : ∀ {q : Query}, queries[id]? = some q →
      ∃ old : Query, e.queries[id]? = some old ∧ q = { old with handles := q.handles }) :
    (Site.mk gr { e with session := s', queries }).Reading pattern id g known ts :=
  h.update (hs.spares fun _ => False) ((hs.spares fun _ => False).settles fun _ hg => hg.elim)
    hs.sameTables.version (h.begins.spares (hs.spares fun _ => False))
    fun hq _ => .inr ⟨rfl, fun e => e, hqueries hq⟩

theorem Site.Reading.closeQuery (h : (Site.mk gr e).Reading pattern id g known ts) (id' : Nat) :
    (Site.mk gr (e.closeQuery id')).Reading pattern id g known ts := by
  unfold Engine.closeQuery
  split
  · exact h
  · split
    · exact h
    · have hs := e.session.spares_closeQuery id'
      refine h.update hs (hs.settles fun _ e => by cases e)
        (e.session.sameTables_closeQuery id').version (h.begins.spares hs) fun {q} hq hclosed => ?_
      rw [Std.TreeMap.getElem?_insert] at hq
      split at hq
      · cases hq
        cases hclosed
      · next hne =>
        refine .inr ⟨rfl, fun e => hne ?_, q, hq, rfl⟩
        cases e
        exact Std.LawfulEqCmp.compare_eq_iff_eq.2 rfl

/-- Another query is opened. -/
theorem Site.Reading.find (h : (Site.mk gr e).Reading pattern id g known ts) (hkept : e.Kept R)
    (hσ : (Site.mk gr e).Sound R K) {pattern' : Triple} {handle : Handle}
    (hfind : e.find gr.toStore pattern' = (.ok handle, e')) :
    (Site.mk gr e').Reading pattern id g known ts := by
  obtain ⟨m, s', rfl, hstart, rfl⟩ := find_ok hfind
  have hfresh : e.session.refresh gr.toStore.version = e.session := if_pos h.version
  rw [hfresh] at hstart ⊢
  have hnoted := Session.noted_note e.session.openQuery.2 (.queryOpened e.session.nextId pattern')
  obtain ⟨-, -, hspares⟩ := (hkept.idle.openQuery.noted hnoted).startQuery
    (P := e.program R gr.toStore) (e.session.works_openQuery pattern') hkept.idle.wired.owner_ne hstart
  have hs := ((e.session.spares_openQuery _).trans (hnoted.spares _)).trans hspares
  obtain ⟨-, hgrows, -⟩ := startQuery_sound (P := ⟨R, e.rules, gr⟩)
    ((hσ.tables h.version).openQuery pattern') hstart
  refine h.update hs (hs.settles fun _ e => by cases e) hgrows.version (h.begins.spares hs) fun {q} hq _ => ?_
  have hne : e.session.nextId ≠ id := Nat.ne_of_gt h.id_lt
  rw [Std.TreeMap.getElem?_insert, if_neg (by simpa using hne)] at hq
  exact .inr ⟨rfl, fun e => hne (by cases e; rfl), q, hq, rfl⟩

/-- The query is opened, on the tables as they are or on cleared ones. -/
theorem Site.Reading.opened (hkept : e.session.version = gr.version → e.Kept R)
    (hσ : (Site.mk gr e).Sound R K) (htable : ((Site.mk gr e).program R).readsTable pattern = true)
    {handle : Handle} (hfind : e.find gr.toStore pattern = (.ok handle, e')) :
    ∃ g, (Site.mk gr e').Reading pattern handle.query g [] [] := by
  obtain ⟨m, s', rfl, hstart, rfl⟩ := find_ok hfind
  have h1 := Engine.Kept.refresh hkept hσ.compiled hσ.query_lt
  obtain ⟨h2, -, hv⟩ := e.session.refresh_sound gr.toStore.version hσ.tables
  generalize e.session.refresh gr.toStore.version = s0 at h1 h2 hv hstart
  have hnoted := Session.noted_note s0.openQuery.2 (.queryOpened s0.nextId pattern)
  obtain ⟨-, hgrows, -⟩ := startQuery_sound (P := ⟨R, e.rules, gr⟩) (h2.openQuery pattern) hstart
  obtain ⟨g, hbegins, hready⟩ := startQuery_ready (P := ⟨R, e.rules, gr⟩) (h2.openQuery pattern)
    (h1.idle.openQuery.noted hnoted) htable hstart
  refine ⟨g, hgrows.version.trans hv, Nat.lt_of_lt_of_le (Nat.lt_succ_self s0.nextId)
    hgrows.nextId_le, hbegins, hbegins, fun {q} hq _ _ => ?_⟩
  rw [Std.TreeMap.getElem?_insert_self] at hq
  cases hq
  refine ⟨hbegins, fun m' hm => ?_, fun he => ?_⟩
  · cases hm
    exact hready
  · rcases he with he | he <;> cases he

/-- A query is read. If it is the one that reads the table, it returns what comes next. -/
theorem Site.Reading.fill (h : (Site.mk gr e).Reading pattern id g known ts) (hkept : e.Kept R)
    (hσ : (Site.mk gr e).Sound R K) (hground : (Site.mk gr e).Ground) {fuel id' : Nat} {take : Bool}
    {answer : Option Triple} (hfill : e.fill gr.toStore fuel id' take = some (.ok answer, e')) :
    (Site.mk gr e').Reading pattern id g known
        (if id' = id ∧ take = true then ts ++ answer.toList else ts) ∧
      (id' = id → answer = none → e'.session.Finished pattern g ts) := by
  obtain ⟨query, found, s', hq, hobstacle, hlooks, rfl, rfl⟩ := hkept.fill_ok hfill
  obtain ⟨hclosed, hqv, hopen⟩ := of_obstacle hobstacle
  have hasks : ∀ m, query.machine = some m → m.Asks id' e.session :=
    fun m hm => hkept.asks hq hm hopen
  have hsound := (hσ.query hq hqv).machine
  obtain ⟨hs, hsettles, hv⟩ : e.session.Spares (Owner.Involved id') s' ∧ e.session.Settles s' ∧
      s'.version = e.session.version := by
    have moved : ∀ {m m' : Machine} {o : Option Triple}, query.machine = some m →
        MovesTo (e.program R gr.toStore) e.settings id' (.search .backtrack m, e.session)
          (.found o m', s') →
        e.session.Spares (Owner.Involved id') s' ∧ e.session.Settles s' ∧
          s'.version = e.session.version := fun hm hmoves =>
      have hstart := ⟨hkept.idle, hasks _ hm⟩
      ⟨(MovesTo.kept hmoves hstart).2, MovesTo.settles hmoves hstart,
        (MovesTo.sound hσ.compiled hmoves ⟨hσ.tables h.version, hsound _ hm, trivial⟩).2.version⟩
    cases hlooks with
    | there => exact ⟨.refl _ _, .refl _, rfl⟩
    | idle => exact ⟨.refl _ _, .refl _, rfl⟩
    | answer _ hm hmoves => exact moved hm hmoves
    | ended _ hm hmoves => exact moved hm hmoves
  by_cases hid : id' = id
  · subst hid
    obtain ⟨hreads, hend⟩ := hlooks.reads hσ.compiled (hground.stored R) hkept.idle hasks
      (hσ.tables h.version) (fun m hm => ⟨_, hsound m hm⟩) (h.query hq hclosed hopen)
    have left : (if take then { found with lookahead := none } else found).Reads pattern id' g
        (if id' = id' ∧ take = true then ts ++ found.lookahead.toList else ts) s' := by
      cases take with
      | false => simpa using hreads
      | true =>
        cases hl : found.lookahead with
        | none =>
          have hsame : ({ found with lookahead := none } : Query) = found := by
            rw [← hl]
          simpa [hsame] using hreads
        | some t => simpa using hreads.take hl
    have hbegins : s'.Begins pattern g
        (if id' = id' ∧ take = true then ts ++ found.lookahead.toList else ts) := by
      split
      · exact hreads.begins
      · exact h.begins.spares hs
    refine ⟨h.update hs hsettles hv hbegins fun {q} hq' _ => ?_, fun _ => hend⟩
    rw [Std.TreeMap.getElem?_insert_self] at hq'
    cases hq'
    exact .inl left
  · rw [if_neg fun e => hid e.1]
    refine ⟨h.update hs hsettles hv (h.begins.spares hs) fun {q} hq' _ => ?_,
      fun e => absurd e hid⟩
    rw [Std.TreeMap.getElem?_insert, if_neg (by simpa using hid)] at hq'
    exact .inr ⟨rfl, fun e => hid e.symm, q, hq', rfl⟩

end

/-! ## Histories -/

/-- Acts that do not fail, do not reset the engine and leave the store as it is, in which the
query with the id returns the answers `ts`. -/
inductive Site.Returns (id : Nat) (start : Site) : List Triple → Site → Prop
  | start : Returns id start [] start
  | answer {σ σ' : Site} {ts : List Triple} {handle : Handle} {t : Triple} :
    Returns id start ts σ → handle.query = id →
    σ.Does (.next handle) (.answer (.ok (some t))) σ' → Returns id start (ts ++ [t]) σ'
  | act {σ σ' : Site} {ts : List Triple} {a : Act} {r : Reply} : Returns id start ts σ →
    ¬ r.Failed → a ≠ .reset → σ'.graph = σ.graph →
    (∀ handle t, a = .next handle → handle.query = id → r ≠ .answer (.ok (some t))) →
    σ.Does a r σ' → Returns id start ts σ'

section

variable {R : Registry} {K : Nat → Triple → Prop} {start σ σ' : Site} {pattern : Triple}
  {id g : Nat} {known ts us : List Triple}

theorem Site.Returns.unfailing (h : σ.Returns id ts σ') (hσ : start.Unfailing σ) :
    start.Unfailing σ' := by
  induction h with
  | start => exact hσ
  | answer _ _ hdoes ih => exact .act (r := .answer (.ok (some _))) ih (fun hr => hr) hdoes
  | act _ hr _ _ _ hdoes ih => exact .act ih hr hdoes

theorem Site.Returns.graph_eq (h : σ.Returns id ts σ') : σ'.graph = σ.graph := by
  induction h with
  | start => rfl
  | answer _ _ hdoes ih =>
    cases hdoes
    exact ih
  | act _ _ _ hgraph _ _ ih => exact hgraph.trans ih

/-- An act that does not fail and keeps tables and store leaves what the query has returned, or
it returns the next answer. -/
theorem Site.Reading.does (h : σ.Reading pattern id g known ts) (hkept : σ.engine.Kept R)
    (hσ : σ.Sound R K) (hground : σ.Ground) {a : Act} {r : Reply} (hdoes : σ.Does a r σ')
    (hr : ¬ r.Failed) (hreset : a ≠ .reset) (hgraph : σ'.graph = σ.graph) :
    ((∀ handle t, a = .next handle → handle.query = id → r ≠ .answer (.ok (some t))) →
      σ'.Reading pattern id g known ts) ∧
    ∀ handle t, a = .next handle → handle.query = id → r = .answer (.ok (some t)) →
      σ'.Reading pattern id g known (ts ++ [t]) := by
  have quiet : (∀ handle, a ≠ .next handle) → σ'.Reading pattern id g known ts →
      ((∀ handle t, a = .next handle → handle.query = id → r ≠ .answer (.ok (some t))) →
        σ'.Reading pattern id g known ts) ∧
      ∀ handle t, a = .next handle → handle.query = id → r = .answer (.ok (some t)) →
        σ'.Reading pattern id g known (ts ++ [t]) :=
    fun hno h => ⟨fun _ => h, fun handle t e => absurd e (hno handle)⟩
  cases hdoes with
  | @find gr e e' pattern' x hfind =>
    cases x with
    | error failure => exact absurd trivial hr
    | ok handle => exact quiet (fun _ e => by cases e) (h.find hkept hσ hfind)
  | @next gr e e' fuel handle x hnext =>
    cases x with
    | error failure => exact absurd trivial hr
    | ok answer =>
      obtain ⟨h1, -⟩ := h.fill hkept hσ hground hnext
      refine ⟨fun hother => ?_, fun handle' t e hid e' => ?_⟩
      · split at h1
        · next hid =>
          cases answer with
          | none => simpa using h1
          | some t => exact absurd rfl (hother handle t rfl hid.1)
        · exact h1
      · cases e
        cases e'
        rw [if_pos ⟨hid, rfl⟩] at h1
        exact h1
  | @hasNext gr e e' fuel handle x hnext =>
    obtain ⟨⟨y, e1⟩, hfill, hmap⟩ := Option.map_eq_some_iff.1 hnext
    cases y with
    | error failure =>
      cases hmap
      exact absurd trivial hr
    | ok answer =>
      cases hmap
      obtain ⟨h1, -⟩ := h.fill hkept hσ hground hfill
      exact quiet (fun _ e => by cases e) (by simpa using h1)
  | @close gr e handle => exact quiet (fun _ e => by cases e) (h.closeQuery handle.query)
  | @clone gr e handle =>
    refine quiet (fun _ e => by cases e) (h.noted (.refl _) fun {query} hq => ?_)
    rw [Std.TreeMap.getElem?_modify] at hq
    split at hq
    · next heq =>
      obtain ⟨old, hold, rfl⟩ := Option.map_eq_some_iff.1 hq
      rw [Std.LawfulEqCmp.compare_eq_iff_eq] at heq
      exact ⟨old, heq ▸ hold, rfl⟩
    · exact ⟨query, hq, rfl⟩
  | @drop gr e handle =>
    refine quiet (fun _ e => by cases e) ?_
    unfold Engine.drop
    split
    · exact h
    · next query hq =>
      split
      · refine (h.closeQuery handle.query).noted (.refl _) fun {query'} hq' => ⟨query', ?_, rfl⟩
        rw [Std.TreeMap.getElem?_erase] at hq'
        split at hq'
        · cases hq'
        · exact hq'
      · refine h.noted (.refl _) fun {query'} hq' => ?_
        rcases getElem?_insert_cases hq' with ⟨rfl, rfl⟩ | hq'
        · exact ⟨query, hq, rfl⟩
        · exact ⟨query', hq', rfl⟩
  | reset => exact absurd rfl hreset
  | nextMessage =>
    exact quiet (fun _ e => by cases e) (h.noted ⟨_, _, rfl⟩ fun {query} hq => ⟨query, hq, rfl⟩)
  | @printProfile gr e =>
    obtain ⟨j, hj⟩ := e.printProfile_eq
    refine quiet (fun _ e => by cases e) ?_
    rw [hj]
    exact h.noted ⟨j, e.session.profile, rfl⟩ fun {query} hq => ⟨query, hq, rfl⟩
  | @add gr e t =>
    change (gr.add t).2 = gr at hgraph
    exact quiet (fun _ e => by cases e) (by rwa [hgraph])
  | @delete gr e t =>
    change (gr.delete t).2 = gr at hgraph
    exact quiet (fun _ e => by cases e) (by rwa [hgraph])

/-- Whatever is returned comes next in the table. -/
theorem Site.Returns.reading (h : σ.Returns id us σ') (hσ : start.Unfailing σ)
    (hstart : start.engine.Kept R) (hsound : start.Sound R K) (hground : σ.Ground)
    (hreading : σ.Reading pattern id g known ts) : σ'.Reading pattern id g known (ts ++ us) := by
  induction h with
  | start => rwa [List.append_nil]
  | @answer σ1 σ2 us handle t hbefore hid hdoes ih =>
    have hunfailing := hbefore.unfailing hσ
    obtain ⟨-, -, L, hL, -⟩ := hsound.runs hunfailing.runs
    obtain ⟨-, h1⟩ := ih.does (hunfailing.kept hstart hsound) hL (hground.congr hbefore.graph_eq)
      hdoes (fun hr => hr) (fun e => by cases e) (by cases hdoes; rfl)
    rw [← List.append_assoc]
    exact h1 handle t rfl hid rfl
  | act hbefore hr hreset hgraph hother hdoes ih =>
    have hunfailing := hbefore.unfailing hσ
    obtain ⟨-, -, L, hL, -⟩ := hsound.runs hunfailing.runs
    obtain ⟨h1, -⟩ := ih.does (hunfailing.kept hstart hsound) hL (hground.congr hbefore.graph_eq)
      hdoes hr hreset hgraph
    exact h1 hother

/-- What the table of the pattern begins with, as it is found by the pattern. -/
theorem Session.Begins.tableResults {s : Session} (h : s.Begins pattern g ts) (hs : s.Filed) :
    ∃ results, s.tableResults pattern = some results ∧ ts <+: results ∧ results.Nodup ∧
      s.Begins pattern g results := by
  obtain ⟨gen, hgen, hgoal, hts⟩ := h
  refine ⟨gen.results.toList, ?_, hts, hs.results hgen, gen, hgen, hgoal, List.prefix_rfl⟩
  rw [Session.tableResults, hs.generatorOf? hgen hgoal.symm, Option.map_some]

theorem Session.Finished.tableInfo {s : Session} (h : s.Finished pattern g ts) (hs : s.Filed) :
    s.tableInfo pattern = some ⟨ts.length, true⟩ ∧ s.tableResults pattern = some ts := by
  obtain ⟨gen, hgen, hgoal, hc, rfl⟩ := h
  rw [Session.tableInfo, Session.tableResults, hs.generatorOf? hgen hgoal.symm, Option.map_some,
    Option.map_some]
  exact ⟨congrArg (fun c => some (TableInfo.mk gen.results.size c)) hc, rfl⟩

end

/-- A tabled query reads its table. As long as the store, which is ground, does not change and the
engine is not reset, what the query has returned is what its table begins with, the table has no
result twice and only grows at its end. Where the query comes to its end, the table is complete and
has been returned from the first to the last result. -/
theorem query_reads_table {R : Registry} {rules : RuleSet} {base : RuleBase} {graph : Graph}
    {st : Settings} {σ₁ σ₂ σ₃ : Site} {pattern : Triple} {handle : Handle} {ts : List Triple}
    (hbase : rules.compile R = .ok base) (hbefore : (Site.new graph base st).Unfailing σ₁)
    (hground : ∀ t ∈ σ₁.graph.triples, t.isGround = true)
    (htable : (σ₁.program R).readsTable pattern = true)
    (hfind : σ₁.Does (.find pattern) (.opened (.ok handle)) σ₂)
    (hreturns : σ₂.Returns handle.query ts σ₃) :
    ∃ results, σ₃.engine.tableResults pattern = some results ∧ ts <+: results ∧
      results.Nodup ∧ ts.Nodup ∧
      (∀ us σ₄, σ₃.Returns handle.query us σ₄ →
        ∃ more, σ₄.engine.tableResults pattern = some (results ++ more)) ∧
      ∀ handle' σ₄, handle'.query = handle.query →
        σ₃.Does (.next handle') (.answer (.ok none)) σ₄ ∨
          σ₃.Does (.hasNext handle') (.more (.ok false)) σ₄ →
        σ₄.engine.tableInfo pattern = some ⟨ts.length, true⟩ ∧
          σ₄.engine.tableResults pattern = some ts := by
  have hnew : (Site.new graph base st).Sound R fun _ _ => True :=
    Site.new_sound (compiled_of_compile hbase graph)
  have hstart := Engine.new_kept hbase graph st
  have filed : ∀ {σ : Site}, (Site.new graph base st).Unfailing σ → σ.engine.session.Filed :=
    fun h => (h.balanced hstart hnew (.of_empty rfl rfl)).filed
  -- the query that was opened has returned nothing
  obtain ⟨g, hopened⟩ : ∃ g, σ₂.Reading pattern handle.query g [] [] := by
    obtain ⟨-, -, L, hL, -⟩ := hnew.runs hbefore.runs
    have hkept := hbefore.kept hstart hnew
    cases hfind with
    | find hfind => exact Site.Reading.opened (fun _ => hkept) hL htable hfind
  have hunfailing : (Site.new graph base st).Unfailing σ₂ :=
    .act (r := .opened (.ok handle)) hbefore (fun hr => hr) hfind
  have hσ₂ : σ₂.Ground := by
    cases hfind
    exact hground
  have hσ₃ : σ₃.Ground := hσ₂.congr hreturns.graph_eq
  have hreading := hreturns.reading hunfailing hstart hnew hσ₂ hopened
  have hafter := hreturns.unfailing hunfailing
  obtain ⟨results, h1, h2, h3, h4⟩ := hreading.begins.tableResults (filed hafter)
  refine ⟨results, h1, h2, h3, h2.sublist.nodup h3, fun us σ₄ hmore => ?_,
    fun handle' σ₄ hsame hend => ?_⟩
  · have hlater := hmore.reading hafter hstart hnew hσ₃ { hreading with known := h4 }
    obtain ⟨results', h5, ⟨more, rfl⟩, -⟩ :=
      hlater.known.tableResults (filed (hmore.unfailing hafter))
    exact ⟨more, h5⟩
  · have hkept := hafter.kept hstart hnew
    obtain ⟨-, -, L, hL, -⟩ := hnew.runs hafter.runs
    rcases hend with hdoes | hdoes
    · have hfiled := filed (.act (r := .answer (.ok none)) hafter (fun hr => hr) hdoes)
      cases hdoes with
      | next hnext =>
        exact ((hreading.fill hkept hL hσ₃ hnext).2 hsame rfl).tableInfo hfiled
    · have hfiled := filed (.act (r := .more (.ok false)) hafter (fun hr => hr) hdoes)
      cases hdoes with
      | hasNext hnext =>
        obtain ⟨⟨y, e1⟩, hfill, hmap⟩ := Option.map_eq_some_iff.1 hnext
        cases y with
        | error failure => cases hmap
        | ok answer =>
          cases answer with
          | some t => cases hmap
          | none =>
            cases hmap
            exact ((hreading.fill hkept hL hσ₃ hfill).2 hsame rfl).tableInfo hfiled

/-- Over a cycle of roads the table begins with the first answer from `a`. -/
theorem query_reads_table_roads : ∃ (e : Engine) (results : List Triple),
    (Site.mk Roads.graph Roads.opened.2).Returns 1 [Roads.leads (Roads.uri "a") (Roads.uri "b")]
      ⟨Roads.graph, e⟩ ∧
    e.tableResults Roads.pattern = some results ∧
    [Roads.leads (Roads.uri "a") (Roads.uri "b")] <+: results := by
  obtain ⟨e, he⟩ := Roads.does_next
  have hreturns : (Site.mk Roads.graph Roads.opened.2).Returns 1
      [Roads.leads (Roads.uri "a") (Roads.uri "b")] ⟨Roads.graph, e⟩ := .answer .start rfl he
  have htable : ((Site.new Roads.graph Roads.base {}).program Builtin.standard).readsTable
      Roads.pattern = true := by decide +kernel
  obtain ⟨results, h1, h2, -⟩ := query_reads_table Roads.compile_rules .start Roads.ground_graph
    htable Roads.does_find hreturns
  exact ⟨e, results, hreturns, h1, h2⟩

end TabledRules
