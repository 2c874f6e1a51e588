-- Queries over rules that keep no tables. Nothing that is done to the engine
-- makes such a query wait, so what it has left to return is in its own machine
-- only, and it returns what a plain reading of the rules finds, in that order.
import TabledRules.Proofs.EvaluatedSearch
import TabledRules.Proofs.FreshEngines
import TabledRules.Proofs.Quiet
import TabledRules.Proofs.Schedules
import TabledRules.Proofs.SearchRuns

namespace TabledRules

/-! ## Sessions in which no query waits -/

/-- No query waits for the results of a table. -/
def Session.Unblocked (s : Session) : Prop := ∀ q, s.blocked q = []

namespace Session

variable {s s' : Session} {w : World} {goal : Triple} {g q : Nat} {o : Owner} {m : Machine}

theorem Unblocked.of_queries (h : s.Unblocked) (hq : s'.queries = s.queries) : s'.Unblocked := by
  intro q
  unfold blocked
  rw [hq]
  exact h q

theorem Unblocked.of_empty (h : s.queries = ∅) : s.Unblocked := by
  intro q
  unfold blocked
  rw [h]
  exact Std.TreeMap.getD_emptyc

/-- Where queries only stop waiting, none waits. -/
theorem Unblocked.quiet (h : s.Unblocked) (hs : s.Quiet s') : s'.Unblocked := by
  intro q
  unfold blocked
  rw [Std.TreeMap.getD_eq_getD_getElem?]
  cases hq : s'.queries[q]? with
  | none => rfl
  | some ids' =>
    refine List.eq_nil_iff_forall_not_mem.2 fun c hc => ?_
    obtain ⟨ids, hids, hmem⟩ := hs.waiting hq hc
    have hnil := h q
    unfold blocked at hnil
    rw [Std.TreeMap.getD_eq_getD_getElem?, hids] at hnil
    change ids = [] at hnil
    rw [hnil] at hmem
    cases hmem

theorem Unblocked.noted (h : s.Unblocked) (hs : s.Noted s') : s'.Unblocked := h.quiet hs.quiet

theorem Unblocked.poison (h : s.Unblocked) (failure : Failure) :
    (s.poison failure).Unblocked := by
  apply h.of_queries
  unfold Session.poison
  split <;> rfl

theorem Unblocked.refresh (h : s.Unblocked) (version : Nat) : (s.refresh version).Unblocked := by
  unfold Session.refresh
  split
  · exact h
  · exact .of_empty rfl

theorem Unblocked.openQuery (h : s.Unblocked) : s.openQuery.2.Unblocked := by
  intro q
  change (s.queries.insert s.nextId []).getD q [] = []
  rw [Std.TreeMap.getD_insert]
  split
  · rfl
  · exact h q

theorem Unblocked.generatorFor (h : s.Unblocked) {x : Except Failure Nat}
    (hs : s.generatorFor w goal = (x, s')) : s'.Unblocked := by
  apply h.of_queries
  unfold Session.generatorFor at hs
  split at hs
  · cases hs
    rfl
  · simp only at hs
    split at hs <;> cases hs <;> rfl

end Session

/-! ## Runs without tables -/

section

variable {P : Program} {st : Settings} {goal pattern : Triple} {m m' : Machine} {s s' : Session}
  {p : Progress} {control : Control} {x : Except Failure (Option Triple)} {f q : Nat}
  {ts us : List Triple}

/-- Even a turn that fails makes no query wait. -/
theorem Turn.unblocked (hP : P.Compiled) (hun : P.Untabled) (h : Turn P st control m s p m' s')
    (hm : m.Formed P) (hc : control.Fit P m) (hplain : m.Plain goal) (hcp : control.Plain m)
    (hs : s.Unblocked) : s'.Unblocked := by
  by_cases hp : ∃ e, p = .done (.error e)
  · obtain ⟨e, rfl⟩ := hp
    cases h with
    | call hg hcalls =>
      cases hcalls with
      | full => exact hs
      | tableFull hgen =>
        have h1 := hs.generatorFor hgen
        exact h1.of_queries rfl
      | tableRefused hgen => exact hs.generatorFor hgen
    | builtinStops => exact hs
    | full => exact hs
  · obtain ⟨-, -, hnoted⟩ := h.plain hP hun (fun e he => hp ⟨e, he⟩) hm hc hplain hcp
    exact hs.noted hnoted

theorem run_unblocked (hP : P.Compiled) (hun : P.Untabled) (hm : m.Formed P)
    (hc : control.Fit P m) (hplain : m.Plain goal) (hcp : control.Plain m) (hs : s.Unblocked)
    (h : Machine.run (P.world st) f control m s = some (x, m', s')) : s'.Unblocked := by
  let I (control : Control) (m : Machine) (s : Session) : Prop :=
    m.Formed P ∧ control.Fit P m ∧ m.Plain goal ∧ control.Plain m ∧ s.Unblocked
  have hI : I control m s := ⟨hm, hc, hplain, hcp, hs⟩
  refine run_keeps hP (Q := fun _ _ s' => s'.Unblocked) ?_ ?_ ?_ hI h
  · intro control m s h
    exact ⟨h.1.fit, h.2.1⟩
  · intro control m s control' m' s' h hturn
    obtain ⟨hm, hc, hplain, hcp, hs⟩ := h
    obtain ⟨hm', hc'⟩ := hturn.formed hP hm hc
    obtain ⟨hplain', hcp', -⟩ := hturn.plain hP hun (by simp) hm hc hplain hcp
    exact ⟨hm', hc', hplain', hcp', hturn.unblocked hP hun hm hc hplain hcp hs⟩
  · intro control m s o m' s' h hturn
    obtain ⟨hm, hc, hplain, hcp, hs⟩ := h
    exact hturn.unblocked hP hun hm hc hplain hcp hs

/-- To look for the next answer is to run the machine. -/
theorem next_run (h : m.next (P.world st) f s = some (x, m', s')) :
    ∃ s1, Machine.run (P.world st) f .backtrack m s = some (x, m', s1) ∧ s1.Noted s' := by
  unfold Machine.next at h
  split at h
  · next t m1 s1 hrun =>
    cases h
    exact ⟨s1, hrun, s1.noted_note _⟩
  · exact ⟨s', h, .refl s'⟩

/-- A query for which no table is read is at its end where its machine is. -/
theorem await_unblocked (hs : s.Unblocked)
    (h : s.await (P.world st) q f m = some (x, m', s')) :
    x = .ok none ∧ m' = m ∧ s.Noted s' := by
  cases f with
  | zero => cases h
  | succ f =>
    have hready : s.takeReady q = none := by
      unfold Session.takeReady
      rw [hs q]
      rfl
    rw [Session.await, hready] at h
    simp only [hs q, List.isEmpty_nil, if_true] at h
    cases h
    exact ⟨rfl, rfl, s.noted_note _⟩

/-- A query for which no table is read comes to what its machine comes to. -/
theorem advance_unblocked (hP : P.Compiled) (hun : P.Untabled) (hm : m.Formed P)
    (hplain : m.Plain goal) (hs : s.Unblocked)
    (h : s.advance (P.world st) q f m = some (x, m', s')) :
    s'.Unblocked ∧
      ∃ f' s1, Machine.run (P.world st) f' .backtrack m s = some (x, m', s1) := by
  cases f with
  | zero => cases h
  | succ f =>
    have after : ∀ {x m1 s1}, m.next (P.world st) f s = some (x, m1, s1) →
        s1.Unblocked ∧ ∃ s2, Machine.run (P.world st) f .backtrack m s = some (x, m1, s2) := by
      intro x m1 s1 hnext
      obtain ⟨s2, hrun, hnoted⟩ := next_run hnext
      have hfit : Control.Fit P m .backtrack := trivial
      have hs2 := run_unblocked hP hun hm hfit hplain trivial hs hrun
      exact ⟨hs2.noted hnoted, s2, hrun⟩
    rw [Session.advance] at h
    split at h
    · next m1 s1 hnext =>
      obtain ⟨hs1, s2, hrun⟩ := after hnext
      obtain ⟨rfl, rfl, hnoted⟩ := await_unblocked hs1 h
      exact ⟨hs1.noted hnoted, f, s2, hrun⟩
    · obtain ⟨hs', s2, hrun⟩ := after h
      exact ⟨hs', f, s2, hrun⟩

/-- The machine of a query searches itself. -/
theorem startQuery_untabled (hun : P.Untabled) {y : Except Failure Machine}
    (h : Machine.startQuery (P.world st) pattern q s = (y, s')) :
    s' = s ∧ ∀ m, y = .ok m → Machine.start (P.world st) pattern (.query q) = .ok m := by
  unfold Machine.startQuery at h
  split at h
  · cases h
    exact ⟨rfl, fun m h => by cases h⟩
  · next m0 hblank =>
    have hno : (P.world st).rules.isTabled m0.standard.predicate = false := hun _
    simp only [hno, Bool.not_false, Bool.or_true, if_true] at h
    cases h
    exact ⟨rfl, fun m h => h⟩

/-! ## Queries -/

/-- The machine of the query has never read a table, and it is given up at the end. -/
structure Query.Plain (P : Program) (query : Query) : Prop where
  machine : ∀ m, query.machine = some m → m.Formed P ∧ m.Plain m.standard
  finished : query.finished = true → query.machine = none

/-- What the query returns from here on: the answer that was found and not taken, and then those
of its machine. -/
def Query.Left (P : Program) (query : Query) (ts : List Triple) : Prop :=
  ∃ us, ts = query.lookahead.toList ++ us ∧
    match query.machine with
    | some m => Control.Unfolds P m.standard m us .backtrack
    | none => us = []

variable {query found : Query} {id : Nat} {y : Except Failure Unit}

theorem Query.left_nil (hl : query.lookahead = none) (hm : query.machine = none) :
    query.Left P [] := by
  unfold Query.Left
  rw [hl, hm]
  exact ⟨[], rfl, rfl⟩

theorem Query.Left.of_machine (hl : query.lookahead = none) (hm : query.machine = some m)
    (h : Control.Unfolds P m.standard m ts .backtrack) : query.Left P ts := by
  unfold Query.Left
  rw [hl, hm]
  exact ⟨ts, rfl, h⟩

/-- The answer that was found is taken. -/
theorem Query.Left.taken (h : ({ query with lookahead := none } : Query).Left P ts) :
    query.Left P (query.lookahead.toList ++ ts) := by
  obtain ⟨us, hts, hus⟩ := h
  obtain rfl : ts = us := hts
  exact ⟨ts, rfl, hus⟩

theorem Query.Plain.of_machine (h : query.machine = none) : query.Plain P :=
  ⟨fun m hm => absurd (h.symm.trans hm) (by simp), fun _ => h⟩

theorem Query.Plain.congr (h : query.Plain P) (hm : found.machine = query.machine)
    (hf : found.finished = query.finished) : found.Plain P :=
  ⟨fun m hfound => h.machine m (hm ▸ hfound), fun hfound => hm.trans (h.finished (hf ▸ hfound))⟩

theorem Query.Plain.store (h : query.Plain P) (store : Store) :
    query.Plain { P with store } :=
  ⟨fun m hm => ⟨(h.machine m hm).1.store store, (h.machine m hm).2⟩, h.finished⟩

theorem Query.Plain.of_start {version : Nat} {owner : Owner}
    (h : Machine.start (P.world st) pattern owner = .ok m) :
    ({ version, machine := some m } : Query).Plain P := by
  refine ⟨?_, fun hfinished => by cases hfinished⟩
  rintro _ ⟨⟩
  have hplain := start_plain h
  exact ⟨(start_sound h {}).formed, by rwa [hplain.standard]⟩

/-- A query that looks for its next answer has as much left afterwards as before, and is at its
end where it finds nothing. -/
theorem lookAhead_plain (hP : P.Compiled) (hdeep : P.Deepens) (hun : P.Untabled)
    (hq : query.Plain P) (hs : s.Unblocked)
    (h : Engine.lookAhead (P.world st) f id query s = some (y, found, s')) :
    found.Plain P ∧ s'.Unblocked ∧ (y = .ok () →
      (∀ ts, found.Left P ts → query.Left P ts) ∧
        (found.lookahead = none → found.machine = none)) := by
  unfold Engine.lookAhead at h
  split at h
  · next hthere =>
    cases h
    refine ⟨hq, hs, fun _ => ⟨fun ts hts => hts, fun hnone => hq.finished ?_⟩⟩
    simpa [hnone] using hthere
  · next hno =>
    have hnone : query.lookahead = none := by
      cases hl : query.lookahead with
      | none => rfl
      | some t => simp [hl] at hno
    split at h
    · next hm =>
      cases h
      exact ⟨.of_machine hm, hs, fun _ => ⟨fun ts hts => hts, fun _ => hm⟩⟩
    · next m hm =>
      obtain ⟨hformed, hplain⟩ := hq.machine m hm
      have advanced : ∀ {x m' s'}, s.advance (P.world st) id f m = some (x, m', s') →
          s'.Unblocked ∧ ∀ o, x = .ok o → m'.Formed P ∧ m'.Plain m.standard ∧
            ∀ ts, (Progress.done (.ok o)).Unfolds P m.standard m' ts →
              query.Left P ts := by
        intro x m' s' hadvance
        obtain ⟨hs', f', s1, hrun⟩ := advance_unblocked hP hun hformed hplain hs hadvance
        refine ⟨hs', ?_⟩
        rintro o rfl
        have hfit : Control.Fit P m .backtrack := trivial
        obtain ⟨hm', hplain', -, hback⟩ := run_unfolds hP hdeep hun hformed hfit hplain trivial hrun
        exact ⟨hm', hplain', fun ts hts => .of_machine hnone hm (hback ts hts)⟩
      split at h
      · cases h
      · next t m' s1 hadvance =>
        cases h
        obtain ⟨hs1, hok⟩ := advanced hadvance
        obtain ⟨hm', hplain', hback⟩ := hok _ rfl
        have hstd := hplain'.standard
        refine ⟨⟨?_, ?_⟩, hs1, fun _ => ⟨?_, ?_⟩⟩
        · rintro _ ⟨⟩
          exact ⟨hm', by rwa [hstd]⟩
        · intro hfinished
          exact absurd (hq.finished hfinished) (by simp [hm])
        · rintro ts ⟨us, rfl, hus⟩
          refine hback _ ⟨us, rfl, ?_⟩
          rw [← hstd]
          exact hus
        · intro hl
          cases hl
      · next m' s1 hadvance =>
        cases h
        obtain ⟨hs1, hok⟩ := advanced hadvance
        obtain ⟨-, -, hback⟩ := hok _ rfl
        refine ⟨.of_machine rfl, hs1, fun _ => ⟨?_, fun _ => rfl⟩⟩
        rintro ts ⟨us, rfl, hus⟩
        refine hback _ ?_
        change query.lookahead.toList ++ us = []
        rw [hnone, hus]
        rfl
      · next failure m' s1 hadvance =>
        cases h
        obtain ⟨hs1, -⟩ := advanced hadvance
        exact ⟨.of_machine rfl, hs1.poison failure, fun hy => by cases hy⟩

end

/-! ## Engines -/

/-- No goal keeps a table, no query waits, and every query is plain. -/
structure Engine.Plain (R : Registry) (e : Engine) : Prop where
  compiled (store : Store) : (e.program R store).Compiled
  untabled (store : Store) : (e.program R store).Untabled
  unblocked : e.session.Unblocked
  query : ∀ {id : Nat} {query : Query} (store : Store), e.queries[id]? = some query →
    query.Plain (e.program R store)

/-- The act reads the query. -/
def Act.Asks (id : Nat) : Act → Prop
  | .next handle | .hasNext handle => handle.query = id
  | _ => False

/-- What the query returns by the act. -/
def Reply.returned (id : Nat) : Act → Reply → List Triple
  | .next handle, .answer (.ok (some t)) => if handle.query = id then [t] else []
  | _, _ => []

section

variable {R : Registry} {e e' : Engine} {store : Store} {query query' : Query} {id fuel : Nat}
  {take : Bool} {ts : List Triple} {x : Except Failure (Option Triple)} {a : Act} {r : Reply}

/-- The engine goes on with other queries, which are plain. -/
theorem Engine.Plain.of_rules (h : e.Plain R) (hrules : e'.rules = e.rules)
    (hs : e'.session.Unblocked) (hqueries : ∀ {id : Nat} {query' : Query},
      e'.queries[id]? = some query' → query'.Plain (e.program R store)) : e'.Plain R := by
  have hprogram : ∀ store, e'.program R store = e.program R store := by
    intro store
    unfold Engine.program
    rw [hrules]
  refine ⟨fun store' => ?_, fun store' => ?_, hs, fun store' hq' => ?_⟩
  · rw [hprogram]
    exact h.compiled store'
  · rw [hprogram]
    exact h.untabled store'
  · rw [hprogram]
    exact (hqueries hq').store store'

/-- To open a query leaves the old ones as they are and adds one that has left what its machine
has at its start. -/
theorem Engine.Plain.find {pattern : Triple} {y : Except Failure Handle} (h : e.Plain R)
    (hfind : e.find store pattern = (y, e')) : e'.session.Unblocked ∧
      ∀ {id : Nat} {query' : Query}, e'.queries[id]? = some query' →
        e.queries[id]? = some query' ∨ e.session.nextId ≤ id ∧ ∃ m,
          query' = { version := store.version, machine := some m } ∧
          Machine.start (e.world store) pattern (.query id) = .ok m := by
  unfold Engine.find at hfind
  split at hfind
  · cases hfind
    exact ⟨h.unblocked, .inl⟩
  · have hid : (e.session.refresh store.version).nextId = e.session.nextId := by
      unfold Session.refresh
      split <;> rfl
    have hopened := (h.unblocked.refresh store.version).openQuery
    generalize e.session.refresh store.version = s at hid hopened hfind
    have hopened := hopened.noted (s.openQuery.2.noted_note (.queryOpened s.nextId pattern))
    simp only [Session.openQuery] at hfind
    split at hfind
    · next failure s1 hx =>
      cases hfind
      obtain ⟨rfl, -⟩ := startQuery_untabled (h.untabled store) hx
      exact ⟨(hopened.poison failure).quiet (Session.quiet_closeQuery _ _), .inl⟩
    · next m s1 hx =>
      cases hfind
      obtain ⟨rfl, hstart⟩ := startQuery_untabled (h.untabled store) hx
      refine ⟨hopened, fun {id query'} hq => ?_⟩
      rcases getElem?_insert_cases hq with ⟨rfl, rfl⟩ | hq
      · exact .inr ⟨hid.ge, m, rfl, hstart m rfl⟩
      · exact .inl hq

/-- How a query is read. -/
theorem fill_cases (hfill : e.fill store fuel id take = some (x, e')) :
    (∃ failure, x = .error failure ∧ e' = e) ∨ ∃ (query found : Query) (s' : Session)
      (y : Except Failure Unit), e.queries[id]? = some query ∧
      Engine.obstacle store e.session id query = none ∧
      Engine.lookAhead (e.world store) fuel id query e.session = some (y, found, s') ∧
      ((∃ failure, x = .error failure ∧
          e' = { e with session := s', queries := e.queries.insert id found }) ∨
        y = .ok () ∧ x = .ok found.lookahead ∧
          e' = { e with
            session := s'
            queries := e.queries.insert id
              (if take then { found with lookahead := none } else found) }) := by
  unfold Engine.fill at hfill
  split at hfill
  · cases hfill
    exact .inl ⟨_, rfl, rfl⟩
  · next query hq =>
    split at hfill
    · cases hfill
      exact .inl ⟨_, rfl, rfl⟩
    · next hobstacle =>
      split at hfill
      · cases hfill
      · next failure found s' hlook =>
        cases hfill
        exact .inr ⟨query, found, s', _, hq, hobstacle, hlook, .inl ⟨failure, rfl, rfl⟩⟩
      · next found s' hlook =>
        cases hfill
        exact .inr ⟨query, found, s', _, hq, hobstacle, hlook, .inr ⟨rfl, rfl, rfl⟩⟩

/-- A query that is read has left what it had left before, without the answer that is taken. -/
theorem Engine.Plain.fill (h : e.Plain R) (hdeep : (e.program R store).Deepens)
    (hfill : e.fill store fuel id take = some (x, e')) : e'.session.Unblocked ∧
      ∀ {id' : Nat} {query' : Query}, e'.queries[id']? = some query' →
        query'.Plain (e.program R store) ∧ (id' ≠ id → e.queries[id']? = some query') ∧
        (id' = id → ∀ o, x = .ok o → ∃ query, e.queries[id]? = some query ∧ ∀ us,
          query'.Left (e.program R store) us →
            query.Left (e.program R store) ((if take then o.toList else []) ++ us)) := by
  rcases fill_cases hfill with ⟨failure, rfl, rfl⟩ | ⟨query, found, s', y, hq, -, hlook, hafter⟩
  · exact ⟨h.unblocked, fun hq' => ⟨h.query store hq', fun _ => hq', fun _ o ho => by cases ho⟩⟩
  · obtain ⟨hplain, hs', hok⟩ := lookAhead_plain (h.compiled store) hdeep (h.untabled store)
      (h.query store hq) h.unblocked hlook
    rcases hafter with ⟨failure, rfl, rfl⟩ | ⟨rfl, rfl, rfl⟩
    · refine ⟨hs', fun {id' query'} hq' => ?_⟩
      rcases getElem?_insert_cases hq' with ⟨rfl, rfl⟩ | hold
      · exact ⟨hplain, fun hne => absurd rfl hne, fun _ o ho => by cases ho⟩
      · refine ⟨h.query store hold, fun _ => hold, fun _ o ho => by cases ho⟩
    · obtain ⟨hback, -⟩ := hok rfl
      refine ⟨hs', fun {id' query'} hq' => ?_⟩
      change (e.queries.insert id _)[id']? = _ at hq'
      by_cases hid : id' = id
      · subst hid
        rw [Std.TreeMap.getElem?_insert_self] at hq'
        cases hq'
        refine ⟨?_, fun hne => absurd rfl hne, fun _ o ho => ⟨query, hq, fun us hus => ?_⟩⟩
        · split
          · exact hplain.congr rfl rfl
          · exact hplain
        · cases ho
          cases take with
          | true => exact hback _ (Query.Left.taken hus)
          | false => exact hback _ hus
      · have hold : e.queries[id']? = some query' := by
          rwa [Std.TreeMap.getElem?_insert, if_neg] at hq'
          rw [Std.LawfulEqCmp.compare_eq_iff_eq]
          exact Ne.symm hid
        exact ⟨h.query store hold, fun _ => hold, fun he => absurd he hid⟩

/-- A query that has no more answers had nothing left. -/
theorem Engine.Plain.ended (h : e.Plain R) (hdeep : (e.program R store).Deepens)
    (hfill : e.fill store fuel id take = some (.ok none, e')) : ∃ query,
      e.queries[id]? = some query ∧ query.closed = false ∧ query.version = store.version ∧
        query.Left (e.program R store) [] := by
  rcases fill_cases hfill with
    ⟨failure, hx, -⟩ | ⟨query, found, s', y, hq, hobstacle, hlook, hafter⟩
  · cases hx
  · obtain ⟨-, -, hok⟩ := lookAhead_plain (h.compiled store) hdeep (h.untabled store)
      (h.query store hq) h.unblocked hlook
    obtain ⟨hopen, hversion, -⟩ := of_obstacle hobstacle
    rcases hafter with ⟨failure, hx, -⟩ | ⟨hy, hx, -⟩
    · cases hx
    · obtain ⟨hback, hend⟩ := hok hy
      have hnone : found.lookahead = none := (Except.ok.inj hx).symm
      exact ⟨query, hq, hopen, hversion, hback [] (Query.left_nil hnone (hend hnone))⟩

theorem Engine.Plain.closeQuery (h : e.Plain R) (id : Nat) : (e.closeQuery id).Plain R ∧
    ∀ {id' : Nat} {query' : Query}, (e.closeQuery id).queries[id']? = some query' →
      query'.closed = false → e.queries[id']? = some query' := by
  unfold Engine.closeQuery
  split
  · exact ⟨h, fun hq' _ => hq'⟩
  · next query hq =>
    split
    · exact ⟨h, fun hq' _ => hq'⟩
    · refine ⟨⟨h.compiled, h.untabled, h.unblocked.quiet (Session.quiet_closeQuery _ _),
        fun {id' query'} store hq' => ?_⟩, fun {id' query'} hq' hopen => ?_⟩
      · rcases getElem?_insert_cases hq' with ⟨rfl, rfl⟩ | hq'
        · exact .of_machine rfl
        · exact h.query store hq'
      · rcases getElem?_insert_cases hq' with ⟨rfl, rfl⟩ | hq'
        · cases hopen
        · exact hq'

/-! ## Acts -/

/-- The act leaves the engine plain, and each query that is still open has left what it had left
before, without what the act returns from it. -/
structure Engine.Accounts (R : Registry) (store : Store) (e : Engine) (a : Act) (r : Reply)
    (e' : Engine) : Prop where
  plain : e'.Plain R
  left : ∀ {id : Nat} {query' : Query}, e'.queries[id]? = some query' →
    id < e.session.nextId → query'.closed = false → (a.Asks id → ¬ r.Failed) →
    ∃ query, e.queries[id]? = some query ∧ ∀ us, query'.Left (e.program R store) us →
      query.Left (e.program R store) (r.returned id a ++ us)

/-- Nothing is read, opened or closed. -/
theorem Engine.Accounts.of_same (h : e.Plain R) {s' : Session} {queries : Std.TreeMap Nat Query}
    (hs : s'.Unblocked) (hqueries : ∀ {id : Nat} {query' : Query}, queries[id]? = some query' →
      ∃ query handles, e.queries[id]? = some query ∧ query' = { query with handles })
    (hreturned : ∀ id, r.returned id a = []) :
    e.Accounts R store a r { e with session := s', queries } := by
  refine ⟨⟨h.compiled, h.untabled, hs, fun {id query'} store' hq' => ?_⟩,
    fun {id query'} hq' _ _ _ => ?_⟩
  · obtain ⟨query, handles, hq, rfl⟩ := hqueries hq'
    exact (h.query store' hq).congr rfl rfl
  · obtain ⟨query, handles, hq, rfl⟩ := hqueries hq'
    rw [hreturned]
    exact ⟨query, hq, fun us hus => hus⟩

theorem Engine.Plain.found {pattern : Triple} {y : Except Failure Handle} (h : e.Plain R)
    (hfind : e.find store pattern = (y, e')) :
    e.Accounts R store (.find pattern) (.opened y) e' := by
  obtain ⟨hs', hqueries⟩ := h.find hfind
  have hplain : ∀ {id : Nat} {query' : Query}, e'.queries[id]? = some query' →
      query'.Plain (e.program R store) := by
    intro id query' hq'
    rcases hqueries hq' with hq | ⟨-, m, rfl, hstart⟩
    · exact h.query store hq
    · exact .of_start hstart
  refine ⟨h.of_rules (Engine.Does.find hfind).configured.1 hs' hplain,
    fun {id query'} hq' hid _ _ => ?_⟩
  rcases hqueries hq' with hq | ⟨hle, -⟩
  · exact ⟨query', hq, fun us hus => hus⟩
  · exact absurd hid (Nat.not_lt.2 hle)

/-- What is read is what the act returns. -/
theorem Engine.Plain.filled (h : e.Plain R) (hdeep : (e.program R store).Deepens)
    (hdoes : e.Does store a r e') (hfill : e.fill store fuel id take = some (x, e'))
    (hasks : ∀ id', a.Asks id' ↔ id = id') (hfailed : ∀ failure, x = .error failure → r.Failed)
    (hself : ∀ o, x = .ok o → r.returned id a = if take then o.toList else [])
    (hothers : ∀ id', id' ≠ id → r.returned id' a = []) : e.Accounts R store a r e' := by
  obtain ⟨hs', hqueries⟩ := h.fill hdeep hfill
  refine ⟨h.of_rules hdoes.configured.1 hs' fun hq' => (hqueries hq').1,
    fun {id' query'} hq' _ _ hr => ?_⟩
  obtain ⟨-, hother, hsame⟩ := hqueries hq'
  by_cases hid : id' = id
  · subst hid
    cases x with
    | error failure => exact absurd (hfailed failure rfl) (hr ((hasks _).2 rfl))
    | ok o =>
      rw [hself o rfl]
      exact hsame rfl o rfl
  · rw [hothers id' hid]
    exact ⟨query', hother hid, fun us hus => hus⟩

theorem Engine.Plain.dropped (h : e.Plain R) (handle : Handle) :
    e.Accounts R store (.drop handle) .done (e.drop handle) := by
  unfold Engine.drop
  split
  · exact .of_same h h.unblocked (fun {id query'} hq' => ⟨query', _, hq', rfl⟩) fun _ => rfl
  · next query hq =>
    split
    · obtain ⟨hplain, hold⟩ := h.closeQuery handle.query
      have hleft : ∀ {id : Nat} {query' : Query},
          ((e.closeQuery handle.query).queries.erase handle.query)[id]? = some query' →
          (e.closeQuery handle.query).queries[id]? = some query' := by
        intro id query' hq'
        rw [Std.TreeMap.getElem?_erase] at hq'
        split at hq'
        · cases hq'
        · exact hq'
      exact ⟨⟨hplain.compiled, hplain.untabled, hplain.unblocked,
        fun store' hq' => hplain.query store' (hleft hq')⟩,
        fun hq' _ hopen _ => ⟨_, hold (hleft hq') hopen, fun us hus => hus⟩⟩
    · refine .of_same h h.unblocked (fun {id query'} hq' => ?_) fun _ => rfl
      rcases getElem?_insert_cases hq' with ⟨rfl, rfl⟩ | hq'
      · exact ⟨query, _, hq, rfl⟩
      · exact ⟨query', _, hq', rfl⟩

/-- Every act leaves the queries in order, whether it fails or not. -/
theorem Engine.Plain.does (h : e.Plain R) (hdeep : (e.program R store).Deepens)
    (hdoes : e.Does store a r e') : e.Accounts R store a r e' := by
  cases hdoes with
  | find hfind => exact h.found hfind
  | @next _ fuel handle x hnext =>
    refine h.filled hdeep (.next hnext) hnext (fun id' => Iff.rfl) ?_ ?_ ?_
    · rintro failure rfl
      trivial
    · rintro (_ | t) rfl
      · rfl
      · exact if_pos rfl
    · intro id' hne
      rcases x with failure | _ | t
      · rfl
      · rfl
      · exact if_neg (Ne.symm hne)
  | @hasNext _ fuel handle x hnext =>
    obtain ⟨⟨y, e1⟩, hfill, hmap⟩ := Option.map_eq_some_iff.1 hnext
    obtain ⟨rfl, rfl⟩ := Prod.mk.inj hmap
    refine h.filled hdeep (.hasNext hnext) hfill (fun id' => Iff.rfl) ?_ (fun o ho => rfl)
      fun id' _ => rfl
    rintro failure rfl
    trivial
  | @close handle =>
    obtain ⟨hplain, hold⟩ := h.closeQuery handle.query
    exact ⟨hplain, fun hq' _ hopen _ => ⟨_, hold hq' hopen, fun us hus => hus⟩⟩
  | @clone handle =>
    refine .of_same h h.unblocked (fun {id query'} hq' => ?_) fun _ => rfl
    rw [Std.TreeMap.getElem?_modify] at hq'
    split at hq'
    · next heq =>
      obtain ⟨query, hq, rfl⟩ := Option.map_eq_some_iff.1 hq'
      rw [Std.LawfulEqCmp.compare_eq_iff_eq] at heq
      exact ⟨query, _, heq ▸ hq, rfl⟩
    · exact ⟨query', _, hq', rfl⟩
  | @drop handle => exact h.dropped handle
  | reset =>
    exact .of_same h (.of_empty rfl) (fun {id query'} hq' => ⟨query', _, hq', rfl⟩) fun _ => rfl
  | nextMessage =>
    exact .of_same h (h.unblocked.of_queries rfl) (fun {id query'} hq' => ⟨query', _, hq', rfl⟩)
      fun _ => rfl
  | printProfile =>
    obtain ⟨j, hj⟩ := e.printProfile_eq
    rw [hj]
    exact .of_same h (h.unblocked.of_queries rfl) (fun {id query'} hq' => ⟨query', _, hq', rfl⟩)
      fun _ => rfl

end

/-! ## Histories -/

/-- Acts of any kind, in the course of which the query with the id is read without a failure and
returns the answers. Other acts may fail. -/
inductive Site.Lists (id : Nat) (start : Site) : List Triple → Site → Prop
  | start : Lists id start [] start
  | act {σ σ' : Site} {ts : List Triple} {a : Act} {r : Reply} : Lists id start ts σ →
    (a.Asks id → ¬ r.Failed) → σ.Does a r σ' → Lists id start (ts ++ r.returned id a) σ'

section

variable {R : Registry} {σ σ' : Site} {a : Act} {r : Reply} {id : Nat} {ts : List Triple}
  {query' : Query} {ok : Act → Reply → Prop}

/-- Acts on the store return nothing from queries, and all others leave it alone. -/
theorem Site.Does.engine_or_store (h : σ.Does a r σ') :
    σ.engine.Does σ.graph.toStore a r σ'.engine ∧ σ'.graph = σ.graph ∨
      σ'.engine = σ.engine ∧ ∀ id, r.returned id a = [] := by
  cases h with
  | find h => exact .inl ⟨.find h, rfl⟩
  | next h => exact .inl ⟨.next h, rfl⟩
  | hasNext h => exact .inl ⟨.hasNext h, rfl⟩
  | close => exact .inl ⟨.close, rfl⟩
  | clone => exact .inl ⟨.clone, rfl⟩
  | drop => exact .inl ⟨.drop, rfl⟩
  | reset => exact .inl ⟨.reset, rfl⟩
  | nextMessage => exact .inl ⟨.nextMessage, rfl⟩
  | printProfile => exact .inl ⟨.printProfile, rfl⟩
  | add => exact .inr ⟨rfl, fun _ => rfl⟩
  | delete => exact .inr ⟨rfl, fun _ => rfl⟩

theorem Site.Does.plain (h : σ.Does a r σ') (hdeep : (σ.program R).Deepens)
    (hσ : σ.engine.Plain R) : σ'.engine.Plain R := by
  rcases h.engine_or_store with ⟨hdoes, -⟩ | ⟨hsame, -⟩
  · exact (hσ.does hdeep hdoes).plain
  · rw [hsame]
    exact hσ

theorem Site.Runs.plain (h : σ.Runs ok σ') (hdeep : (σ.program R).Deepens)
    (hσ : σ.engine.Plain R) : σ'.engine.Plain R := by
  induction h with
  | refl => exact hσ
  | tail _ hstep ih =>
    obtain ⟨a, r, -, hdoes⟩ := hstep
    exact hdoes.plain hdeep ih

theorem Site.Lists.runs (h : σ.Lists id ts σ') : σ.Runs (fun _ _ => True) σ' := by
  induction h with
  | start => exact .refl
  | act _ _ hdoes ih => exact ih.tail ⟨_, _, trivial, hdoes⟩

theorem Site.Reads.lists (h : σ.Reads id ts σ') : σ.Lists id ts σ' := by
  induction h with
  | start => exact .start
  | @answer σ1 σ2 ts handle t _ hid hdoes ih =>
    have hnext := ih.act (r := .answer (.ok (some t))) (fun _ hr => hr) hdoes
    have hreturned : Reply.returned id (.next handle) (.answer (.ok (some t))) = [t] := if_pos hid
    rwa [hreturned] at hnext
  | @act σ1 σ2 ts a r _ hr hother hdoes ih =>
    have hnext := ih.act (fun _ => hr) hdoes
    have hreturned : r.returned id a = [] := by
      unfold Reply.returned
      split
      · next handle t => exact if_neg fun hid => hother handle t rfl hid rfl
      · rfl
    rwa [hreturned, List.append_nil] at hnext

/-- What the query had left at first is what it has returned and what it has left now, if it is
still open and its store has not changed. -/
theorem Site.Lists.left (h : σ.Lists id ts σ') (hdeep : (σ.program R).Deepens)
    (hσ : σ.engine.Plain R) (hopened : σ.Opened id σ.graph.version)
    (hv : σ'.graph.version = σ.graph.version) (hq' : σ'.engine.queries[id]? = some query')
    (hopen : query'.closed = false) : σ'.program R = σ.program R ∧
      ∃ query, σ.engine.queries[id]? = some query ∧ ∀ us, query'.Left (σ.program R) us →
        query.Left (σ.program R) (ts ++ us) := by
  induction h generalizing query' with
  | start => exact ⟨rfl, query', hq', fun us hus => hus⟩
  | @act σ1 σ2 ts a r hbefore hread hdoes ih =>
    have hopened1 := hopened.runs hbefore.runs
    have hid1 := hopened1.id_lt
    have hle := hopened1.version_le
    have hle' := hdoes.version_le
    obtain ⟨query1, hq1, -, hclosed⟩ := hdoes.ages.query hid1 hq'
    have hopen1 : query1.closed = false := by
      by_contra hc
      exact absurd (hclosed (by simpa using hc)) (by simp [hopen])
    obtain ⟨hprogram, query, hq, hback⟩ := ih (by omega) hq1 hopen1
    have hgraph : σ2.graph = σ1.graph := hdoes.graph_eq (by omega)
    rcases hdoes.engine_or_store with ⟨hdoes', -⟩ | ⟨hsame, hreturned⟩
    · obtain ⟨-, hleft⟩ := (hbefore.runs.plain hdeep hσ).does hdeep hdoes'
      obtain ⟨query1', hq1', hback1⟩ := hleft hq' hid1 hopen hread
      obtain rfl : query1' = query1 := Option.some.inj (hq1'.symm.trans hq1)
      replace hback1 : ∀ us, query'.Left (σ1.program R) us →
        query1'.Left (σ1.program R) (r.returned id a ++ us) := hback1
      rw [hprogram] at hback1
      refine ⟨?_, query, hq, fun us hus => ?_⟩
      · rw [← hprogram]
        unfold Site.program
        rw [hgraph, hdoes'.configured.1]
      · rw [List.append_assoc]
        exact hback _ (hback1 us hus)
    · obtain rfl : query' = query1 := by
        rw [hsame] at hq'
        exact Option.some.inj (hq'.symm.trans hq1)
      refine ⟨?_, query, hq, fun us hus => ?_⟩
      · rw [← hprogram]
        unfold Site.program
        rw [hgraph, hsame]
      · rw [hreturned, List.append_nil]
        exact hback us hus

/-- A query that is opened has left what its machine has at its start. -/
theorem Site.Does.left_of_opened {pattern : Triple} {handle : Handle} {query : Query}
    (h : σ.Does (.find pattern) (.opened (.ok handle)) σ') (hσ : σ.engine.Plain R)
    (hdeep : (σ.program R).Deepens) (hq : σ'.engine.queries[handle.query]? = some query)
    (hleft : query.Left (σ.program R) ts) :
    ∃ n, (σ.program R).search n pattern = some ts := by
  cases h with
  | @find g e e' _ _ hfind =>
    obtain ⟨m, s', rfl, hstart, rfl⟩ := find_ok hfind
    obtain ⟨-, hnew⟩ := startQuery_untabled (hσ.untabled g.toStore) hstart
    rw [Std.TreeMap.getElem?_insert_self] at hq
    cases hq
    obtain ⟨us, hts, hus⟩ := hleft
    obtain rfl : ts = us := hts
    have hmachine := hnew m rfl
    replace hus : Control.Unfolds _ m.standard m ts .backtrack := hus
    rw [(start_plain hmachine).standard] at hus
    exact search_of_start hdeep hmachine hus

/-- A query that is read to its end without a failure has returned what the search finds. -/
theorem search_of_listed {σ₁ σ₂ σ₃ σ₄ : Site} {pattern : Triple} {handle handle' : Handle}
    (hdeep : (σ₁.program R).Deepens) (hσ : σ₁.engine.Plain R)
    (hfind : σ₁.Does (.find pattern) (.opened (.ok handle)) σ₂)
    (hlists : σ₂.Lists handle.query ts σ₃) (hsame : handle'.query = handle.query)
    (hend : σ₃.Does (.next handle') (.answer (.ok none)) σ₄) :
    ∃ n, (σ₁.program R).search n pattern = some ts := by
  have hσ₂ := hfind.plain hdeep hσ
  have hprogram₂ : σ₂.program R = σ₁.program R ∧ σ₂.graph = σ₁.graph := by
    cases hfind with
    | find hfind =>
      refine ⟨?_, rfl⟩
      unfold Site.program
      rw [(Engine.Does.find hfind).configured.1]
  have hopened : σ₂.Opened handle.query σ₂.graph.version := by
    rw [hprogram₂.2]
    exact hfind.opened
  -- nothing is left at the end, so the answers were what was left at first
  obtain ⟨query₃, hq₃, hopen, hversion, hleft₃⟩ : ∃ query,
      σ₃.engine.queries[handle.query]? = some query ∧ query.closed = false ∧
        query.version = σ₃.graph.version ∧ query.Left (σ₃.program R) [] := by
    cases hend with
    | next hnext =>
      rw [← hsame]
      exact (hlists.runs.plain hdeep hσ₂).ended hdeep hnext
  have hv : σ₃.graph.version = σ₂.graph.version := by
    rw [← hversion]
    exact (hopened.runs hlists.runs).query hq₃
  obtain ⟨hprogram₃, query₂, hq₂, hback⟩ := hlists.left hdeep hσ₂ hopened hv hq₃ hopen
  rw [hprogram₃] at hleft₃
  have hleft₂ := hback [] hleft₃
  rw [hprogram₂.1, List.append_nil] at hleft₂
  exact hfind.left_of_opened hσ hdeep hq₂ hleft₂

/-- A new engine is plain where its rules are to keep no tables. -/
theorem Engine.new_plain {rules : RuleSet} {base : RuleBase}
    (hbase : rules.compile R = .ok base) (htabled : rules.tabled = [])
    (hall : rules.allTabled = false) (store : Store) (st : Settings) :
    (Engine.new store base st).Plain R := by
  have hno : ∀ p, base.isTabled p = false := by
    intro p
    unfold RuleBase.isTabled Layout.isTabled
    rw [(clauses_of_compile hbase).1]
    simp [RuleSet.layout, htabled, hall]
  refine ⟨fun store => compiled_of_compile hbase store, fun store => hno, .of_empty rfl, ?_⟩
  intro id query store hq
  cases hq.symm.trans Std.TreeMap.getElem?_emptyc

end

/-- Where no goal keeps a table, a query that is read to its end without a failure has returned the
answers that a plain reading of the rules has over the triples that were stored when the query was
opened, in the same order and each as often, if those triples were ground. Whatever was done to the
engine before, and whatever else is done meanwhile, makes no difference. -/
theorem query_lists_evaluation {rules : RuleSet} {base : RuleBase} {g : Graph} {st : Settings}
    {σ₁ σ₂ σ₃ σ₄ : Site} {pattern : Triple} {handle handle' : Handle} {ts : List Triple}
    (hbase : rules.compile Builtin.standard = .ok base)
    (htabled : rules.tabled = []) (hall : rules.allTabled = false)
    (hbefore : (Site.new g base st).Runs (fun _ _ => True) σ₁)
    (hground : ∀ t ∈ σ₁.graph.triples, t.isGround = true)
    (hfind : σ₁.Does (.find pattern) (.opened (.ok handle)) σ₂)
    (hlists : σ₂.Lists handle.query ts σ₃) (hsame : handle'.query = handle.query)
    (hend : σ₃.Does (.next handle') (.answer (.ok none)) σ₄) :
    ∃ n, ∀ k, n ≤ k →
      (Program.mk Builtin.standard base σ₁.graph).eval k pattern = some ts := by
  have hdeep : ∀ σ : Site, (σ.program Builtin.standard).Deepens :=
    fun σ => Program.deepens_of_standard rfl
  have hplain := hbefore.plain (hdeep _) (Engine.new_plain hbase htabled hall g.toStore st)
  obtain ⟨n, hsearch⟩ := search_of_listed (hdeep σ₁) hplain hfind hlists hsame hend
  have hnew : (Site.new g base st).Sound Builtin.standard fun _ _ => True :=
    Site.new_sound (compiled_of_compile hbase g)
  obtain ⟨hrules, -⟩ := hnew.runs hbefore
  have hprogram₁ : σ₁.program Builtin.standard = ⟨Builtin.standard, base, σ₁.graph⟩ := by
    unfold Site.program
    rw [hrules]
    rfl
  rw [hprogram₁] at hsearch
  have hblind : (Program.mk Builtin.standard base σ₁.graph).Blind := by
    refine blind_of_compile hbase (fun f ts hmem => ?_) hground
    rw [htabled] at hmem
    cases hmem
  exact Program.eval_of_search hblind hsearch

/-! ## Two ways to one place -/

namespace Diamond

def uri (name : String) : Term := .node (.uri name)

def rules : RuleSet :=
  { rules :=
      [⟨"near", ⟨.var "x", uri "reaches", .var "y"⟩, [.triple ⟨.var "x", uri "edge", .var "y"⟩]⟩,
        ⟨"far", ⟨.var "x", uri "reaches", .var "z"⟩,
          [.triple ⟨.var "x", uri "edge", .var "y"⟩,
            .triple ⟨.var "y", uri "reaches", .var "z"⟩]⟩] }

def base : RuleBase :=
  (rules.compile Builtin.standard).toOption.getD { clauses := {}, layout := rules.layout }

def edge (x y : String) : Triple := ⟨uri x, uri "edge", uri y⟩

def reaches (x y : String) : Triple := ⟨uri x, uri "reaches", uri y⟩

def graph : Graph := .ofTriples [edge "a" "b", edge "a" "c", edge "b" "d", edge "c" "d"]

def pattern : Triple := ⟨.var "x", uri "reaches", .var "y"⟩

/-- What is reached in one step comes first, and what is reached in two ways comes twice. -/
def reached : List Triple :=
  [reaches "a" "b", reaches "a" "c", reaches "b" "d", reaches "c" "d", reaches "a" "d",
    reaches "a" "d"]

theorem compile_rules : rules.compile Builtin.standard = .ok base :=
  eq_ok_getD (by decide +kernel) _

theorem drains : (Site.new graph base {}).Drains graph pattern reached := by
  have h : ((Engine.new graph.toStore base {}).ask graph.toStore 1000 10 pattern).map Prod.fst =
      some reached := by decide +kernel
  exact .of_ask h

end Diamond

theorem query_lists_evaluation_diamond : ∃ n, ∀ k, n ≤ k →
    (Program.mk Builtin.standard Diamond.base Diamond.graph).eval k Diamond.pattern =
      some Diamond.reached := by
  obtain ⟨id, σ, σ', handle', ⟨σ₁, σ₂, handle, hbefore, hgraph, hfind, hid, hreads⟩, hsame, hend⟩ :=
    Diamond.drains
  rw [← hgraph]
  exact query_lists_evaluation Diamond.compile_rules rfl rfl hbefore.runs
    (by rw [hgraph]; decide +kernel) hfind (by rw [hid]; exact hreads.lists)
    (hsame.trans hid.symm) hend

end TabledRules
