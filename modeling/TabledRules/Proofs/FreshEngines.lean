-- After a reset an engine is as good as new: whatever is done next gives what it
-- gives on a new engine over the same store, but for the ids, which go on from
-- where they were. Handles on older queries give failures and do no harm.
import TabledRules.Proofs.DeadQueries
import TabledRules.Proofs.RaisedRuns

namespace TabledRules

/-! ## Engines with raised ids -/

def Handle.raise (k : Nat) (h : Handle) : Handle := { h with query := h.query + k }

/-- The ids of the second query's machine are raised. -/
structure Query.Raised (k : Nat) (q q' : Query) : Prop where
  eq : q' = { q with machine := q'.machine }
  machine : Option.Rel (Machine.Raised k) q.machine q'.machine

/-- The ids of the second engine are raised. Besides, it may know queries that are older. -/
structure Engine.Raised (k : Nat) (e e' : Engine) : Prop where
  rules : e'.rules = e.rules
  settings : e'.settings = e.settings
  session : e.session.Raised k e'.session
  query : ∀ id : Nat, 0 < id → Option.Rel (Query.Raised k) e.queries[id]? e'.queries[id + k]?

section

variable {k id : Nat} {e e' : Engine} {s s' : Session} {q q' : Query} {store : Store}

/-- Sessions that were cleared differ in their ids only. -/
theorem Session.raised_clear (hn : s'.nextId = s.nextId + k) (hpos : 0 < s.nextId)
    (version : Nat) : (s.clear version).Raised k (s'.clear version) := by
  refine ⟨hn, hpos, rfl, rfl, rfl, rfl, rfl, fun g => ?_, fun c => ?_, fun q => ?_, fun i _ => ?_,
    fun i _ => ?_, fun i _ => ?_, fun hx => ?_⟩
  · rw [show (s.clear version).generators = ∅ from rfl,
      show (s'.clear version).generators = ∅ from rfl, Std.TreeMap.getElem?_emptyc,
      Std.TreeMap.getElem?_emptyc]
    exact .none
  · rw [show (s.clear version).consumers = ∅ from rfl,
      show (s'.clear version).consumers = ∅ from rfl, Std.TreeMap.getElem?_emptyc,
      Std.TreeMap.getElem?_emptyc]
    rfl
  · rw [show (s.clear version).queries = ∅ from rfl,
      show (s'.clear version).queries = ∅ from rfl, Std.TreeMap.getElem?_emptyc,
      Std.TreeMap.getElem?_emptyc]
    rfl
  · exact Std.TreeMap.getElem?_emptyc
  · exact Std.TreeMap.getElem?_emptyc
  · exact Std.TreeMap.getElem?_emptyc
  · cases hx.symm.trans Std.TreeMap.getElem?_emptyc

namespace Session.Raised

theorem clear (h : s.Raised k s') (version : Nat) :
    (s.clear version).Raised k (s'.clear version) :=
  Session.raised_clear h.nextId h.pos version

theorem refresh (h : s.Raised k s') (version : Nat) :
    (s.refresh version).Raised k (s'.refresh version) := by
  unfold Session.refresh
  rw [h.version]
  split
  · exact h
  · exact (h.note _ _).clear version

theorem poison (h : s.Raised k s') (failure : Failure) :
    (s.poison failure).Raised k (s'.poison failure) := by
  unfold Session.poison
  split
  · exact { h with poisoned := rfl }
  · exact h

end Session.Raised

/-! ## Acts on engines with raised ids -/

namespace Engine.Raised

theorem of_session (h : e.Raised k e') (hs : s.Raised k s') :
    Engine.Raised k { e with session := s } { e' with session := s' } :=
  ⟨h.rules, h.settings, hs, h.query⟩

theorem insert (h : e.Raised k e') (hs : s.Raised k s') (id : Nat) (hq : q.Raised k q') :
    Engine.Raised k { e with session := s, queries := e.queries.insert id q }
      { e' with session := s', queries := e'.queries.insert (id + k) q' } := by
  refine ⟨h.rules, h.settings, hs, fun i hi => ?_⟩
  change Option.Rel _ (e.queries.insert id q)[i]? (e'.queries.insert (id + k) q')[i + k]?
  simp only [Std.TreeMap.getElem?_insert, Std.LawfulEqCmp.compare_eq_iff_eq]
  by_cases e1 : id = i
  · rw [if_pos e1, if_pos (congrArg (· + k) e1)]
    exact .some hq
  · rw [if_neg e1, if_neg fun e2 => e1 (Nat.add_right_cancel e2)]
    exact h.query i hi

theorem world (h : e.Raised k e') (store : Store) : e'.world store = e.world store := by
  unfold Engine.world
  rw [h.rules, h.settings]

/-- The queries get ids that differ by the constant. -/
theorem find (h : e.Raised k e') (store : Store) (pattern : Triple) :
    (e'.find store pattern).1 = (e.find store pattern).1.map (Handle.raise k) ∧
      (e.find store pattern).2.Raised k (e'.find store pattern).2 := by
  unfold Engine.find
  rw [h.session.poisoned]
  cases e.session.poisoned with
  | some detail => exact ⟨rfl, h⟩
  | none =>
    simp only [Session.openQuery]
    have h0 := h.session.refresh store.version
    generalize e.session.refresh store.version = s at h0
    generalize e'.session.refresh store.version = s' at h0
    obtain ⟨-, h1⟩ := h0.openQuery
    have h2 := h1.note (.queryOpened s.nextId pattern) (.queryOpened s'.nextId pattern)
    have hstart := startQuery_raised h2 (e.world store) pattern h0.pos
    rw [← h0.nextId] at hstart
    unfold Session.openQuery at hstart
    simp only at hstart
    rw [h.world]
    rcases he : Machine.startQuery (e.world store) pattern s.nextId
      (Session.note { s with nextId := s.nextId + 1, queries := s.queries.insert s.nextId [] }
        (.queryOpened s.nextId pattern)) with ⟨x, s1⟩
    rcases he' : Machine.startQuery (e.world store) pattern s'.nextId
      (Session.note { s' with nextId := s'.nextId + 1, queries := s'.queries.insert s'.nextId [] }
        (.queryOpened s'.nextId pattern)) with ⟨x', s1'⟩
    rw [he, he'] at hstart
    obtain ⟨hx, h3⟩ := hstart
    rcases hx.elim with ⟨failure, rfl, rfl⟩ | ⟨m, m', rfl, rfl, hm⟩
    · have h4 := (h3.poison failure).closeQuery s.nextId
      rw [← h0.nextId] at h4
      exact ⟨rfl, h.of_session h4⟩
    · have hq : Query.Raised k { version := store.version, machine := some m }
          { version := store.version, machine := some m' } := ⟨rfl, .some hm⟩
      have h4 := h.insert h3 s.nextId hq
      rw [← h0.nextId] at h4
      refine ⟨?_, h4⟩
      simp only [Except.map, Handle.raise, h0.nextId]

/-- An older query cannot be read. -/
theorem obstacle_old (h : s.Raised k s') (hid : id ≤ k) (store : Store) (q : Query) :
    ∃ failure, obstacle store s' id q = some failure := by
  unfold obstacle
  split
  · exact ⟨_, rfl⟩
  · split
    · exact ⟨_, rfl⟩
    · cases s'.poisoned with
      | some detail => exact ⟨_, rfl⟩
      | none =>
        simp only
        rw [Std.TreeMap.contains_eq_isSome_getElem?, h.noQuery id hid]
        exact ⟨_, rfl⟩

theorem obstacle (h : s.Raised k s') (hq : q.Raised k q') (id : Nat) :
    Engine.obstacle store s' (id + k) q' = Engine.obstacle store s id q := by
  have hcontains : s'.queries.contains (id + k) = s.queries.contains id := by
    rw [Std.TreeMap.contains_eq_isSome_getElem?, Std.TreeMap.contains_eq_isSome_getElem?,
      h.query, Option.isSome_map]
  unfold Engine.obstacle
  rw [hq.eq, h.poisoned, hcontains]

theorem lookAhead (fuel : Nat) (hs : s.Raised k s') (hq : q.Raised k q') (hheld : s.Held)
    (hm : ∀ m ∈ q.machine, m.Held (.query id) s) (w : World) :
    Option.Rel (fun x x' => x'.1 = x.1 ∧ x.2.1.Raised k x'.2.1 ∧ x.2.2.Raised k x'.2.2)
      (Engine.lookAhead w fuel id q s) (Engine.lookAhead w fuel (id + k) q' s') := by
  obtain ⟨e, hmachine⟩ := hq
  have hq : q.Raised k q' := ⟨e, hmachine⟩
  generalize q'.machine = machine at e hmachine
  subst e
  unfold Engine.lookAhead
  simp only
  split
  · exact .some ⟨rfl, hq, hs⟩
  · rcases rel_elim hmachine with ⟨e1, e2⟩ | ⟨m, m', e1, e2, h1⟩
    · rw [e1, e2]
      exact .some ⟨rfl, ⟨rfl, .none⟩, hs⟩
    · rw [e1, e2]
      simp only
      have ha : m.Active (.query id) s := ⟨hm m e1, hheld, fun _ ho => by cases ho⟩
      rcases rel_elim (search_raised fuel h1 hs ha (w := w)).1 with
        ⟨e3, e4⟩ | ⟨⟨x, m1, s1⟩, ⟨x', m1', s1'⟩, e3, e4, hx, h2, h3⟩
      · rw [e3, e4]
        exact .none
      · rw [e3, e4]
        obtain rfl : x' = x := hx
        rcases x' with failure | - | t
        · exact .some ⟨rfl, ⟨rfl, .none⟩, h3.poison failure⟩
        · exact .some ⟨rfl, ⟨rfl, .none⟩, h3⟩
        · exact .some ⟨rfl, ⟨rfl, .some h2⟩, h3⟩

theorem fill (h : e.Raised k e') (hheld : e.Held) (hid : 0 < id) (store : Store) (fuel : Nat)
    (take : Bool) :
    Option.Rel (fun x x' => x'.1 = x.1 ∧ x.2.Raised k x'.2) (e.fill store fuel id take)
      (e'.fill store fuel (id + k) take) := by
  unfold Engine.fill
  rcases rel_elim (h.query id hid) with ⟨e1, e2⟩ | ⟨q, q', e1, e2, hq⟩
  · rw [e1, e2]
    exact .some ⟨rfl, h⟩
  · rw [e1, e2]
    simp only [obstacle h.session hq, h.world]
    cases Engine.obstacle store e.session id q with
    | some failure => exact .some ⟨rfl, h⟩
    | none =>
      simp only
      rcases rel_elim (lookAhead fuel h.session hq hheld.session (hheld.query e1).2
        (e.world store)) with
        ⟨e3, e4⟩ | ⟨⟨x, q1, s1⟩, ⟨x', q1', s1'⟩, e3, e4, hx, h1, h2⟩
      · rw [e3, e4]
        exact .none
      · rw [e3, e4]
        obtain rfl : x' = x := hx
        cases x' with
        | error failure => exact .some ⟨rfl, h.insert h2 id h1⟩
        | ok u =>
          have h1 : q1.Raised k q1' := h1
          have hlook : q1'.lookahead = q1.lookahead := by rw [h1.eq]
          have htaken : Query.Raised k { q1 with lookahead := none }
              { q1' with lookahead := none } := by
            rw [h1.eq]
            exact ⟨rfl, h1.machine⟩
          simp only [hlook]
          refine .some ⟨rfl, h.insert h2 id ?_⟩
          cases take with
          | true => exact htaken
          | false => exact h1

theorem fill_old (h : e.Raised k e') (hid : id ≤ k) (store : Store) (fuel : Nat) (take : Bool) :
    ∃ failure, e'.fill store fuel id take = some (.error failure, e') := by
  unfold Engine.fill
  cases hq : e'.queries[id]? with
  | none => exact ⟨_, rfl⟩
  | some q =>
    obtain ⟨failure, hobstacle⟩ := obstacle_old h.session hid store q
    simp only [hobstacle]
    exact ⟨failure, rfl⟩

/-- Only an older query has changed. -/
theorem of_old (h : e.Raised k e') {e1 : Engine} (hr : e1.rules = e'.rules)
    (hst : e1.settings = e'.settings) (hs : e1.session = e'.session)
    (hq : ∀ i : Nat, k < i → e1.queries[i]? = e'.queries[i]?) : e.Raised k e1 :=
  ⟨hr.trans h.rules, hst.trans h.settings, hs ▸ h.session, fun i hi => by
    rw [hq (i + k) (by omega)]
    exact h.query i hi⟩

theorem closeQuery (h : e.Raised k e') (hid : 0 < id) :
    (e.closeQuery id).Raised k (e'.closeQuery (id + k)) := by
  unfold Engine.closeQuery
  rcases rel_elim (h.query id hid) with ⟨e1, e2⟩ | ⟨q, q', e1, e2, hq⟩
  · rw [e1, e2]
    exact h
  · obtain ⟨eq, hm⟩ := hq
    rw [e1, e2]
    simp only
    rw [eq]
    simp only
    split
    · exact h
    · exact h.insert (h.session.closeQuery id) id ⟨rfl, .none⟩

theorem closeQuery_old (h : e.Raised k e') (hid : id ≤ k) : e.Raised k (e'.closeQuery id) := by
  unfold Engine.closeQuery
  split
  · exact h
  · split
    · exact h
    · refine h.of_old rfl rfl (h.session.closeQuery_old hid) fun i hi => ?_
      change (e'.queries.insert id _)[i]? = _
      rw [Std.TreeMap.getElem?_insert, if_neg]
      rw [Std.LawfulEqCmp.compare_eq_iff_eq]
      omega

theorem clone (h : e.Raised k e') {handle : Handle} :
    (e.clone handle).2.Raised k (e'.clone (handle.raise k)).2 := by
  refine ⟨h.rules, h.settings, h.session, fun i hi => ?_⟩
  change Option.Rel _ (e.queries.modify handle.query _)[i]?
    (e'.queries.modify (handle.query + k) _)[i + k]?
  simp only [Std.TreeMap.getElem?_modify, Std.LawfulEqCmp.compare_eq_iff_eq]
  by_cases e1 : handle.query = i
  · rw [if_pos e1, if_pos (congrArg (· + k) e1), e1]
    rcases rel_elim (h.query i hi) with ⟨e2, e3⟩ | ⟨q, q', e2, e3, hq⟩
    · rw [e2, e3]
      exact .none
    · obtain ⟨eq, hm⟩ := hq
      rw [e2, e3, eq]
      exact .some ⟨rfl, hm⟩
  · rw [if_neg e1, if_neg fun e2 => e1 (Nat.add_right_cancel e2)]
    exact h.query i hi

theorem clone_old (h : e.Raised k e') {handle : Handle} (hid : handle.query ≤ k) :
    e.Raised k (e'.clone handle).2 := by
  refine h.of_old rfl rfl rfl fun i hi => ?_
  change (e'.queries.modify handle.query _)[i]? = _
  rw [Std.TreeMap.getElem?_modify, if_neg]
  rw [Std.LawfulEqCmp.compare_eq_iff_eq]
  omega

theorem drop (h : e.Raised k e') {handle : Handle} (hid : 0 < handle.query) :
    (e.drop handle).Raised k (e'.drop (handle.raise k)) := by
  unfold Engine.drop Handle.raise
  simp only
  rcases rel_elim (h.query handle.query hid) with ⟨e1, e2⟩ | ⟨q, q', e1, e2, hq⟩
  · rw [e1, e2]
    exact h
  · obtain ⟨eq, hm⟩ := hq
    rw [e1, e2]
    simp only
    rw [eq]
    simp only
    split
    · have hclosed := h.closeQuery hid
      refine ⟨hclosed.rules, hclosed.settings, hclosed.session, fun i hi => ?_⟩
      change Option.Rel _ ((e.closeQuery handle.query).queries.erase handle.query)[i]?
        ((e'.closeQuery (handle.query + k)).queries.erase (handle.query + k))[i + k]?
      simp only [Std.TreeMap.getElem?_erase, Std.LawfulEqCmp.compare_eq_iff_eq]
      by_cases e3 : handle.query = i
      · rw [if_pos e3, if_pos (congrArg (· + k) e3)]
        exact .none
      · rw [if_neg e3, if_neg fun e4 => e3 (Nat.add_right_cancel e4)]
        exact hclosed.query i hi
    · exact h.insert h.session handle.query ⟨rfl, hm⟩

theorem drop_old (h : e.Raised k e') {handle : Handle} (hid : handle.query ≤ k) :
    e.Raised k (e'.drop handle) := by
  unfold Engine.drop
  split
  · exact h
  · split
    · refine (h.closeQuery_old hid).of_old rfl rfl rfl fun i hi => ?_
      change ((e'.closeQuery handle.query).queries.erase handle.query)[i]? = _
      rw [Std.TreeMap.getElem?_erase, if_neg]
      rw [Std.LawfulEqCmp.compare_eq_iff_eq]
      omega
    · refine h.of_old rfl rfl rfl fun i hi => ?_
      change (e'.queries.insert handle.query _)[i]? = _
      rw [Std.TreeMap.getElem?_insert, if_neg]
      rw [Std.LawfulEqCmp.compare_eq_iff_eq]
      omega

theorem profile (h : e.Raised k e') : e'.profile = e.profile := by
  unfold Engine.profile
  rw [h.session.profile, h.rules]

theorem printProfile (h : e.Raised k e') : e.printProfile.Raised k e'.printProfile := by
  obtain ⟨j, hj⟩ := e.printProfile_eq
  obtain ⟨j', hj'⟩ := e'.printProfile_eq
  rw [hj, hj']
  exact h.of_session { h.session with }

theorem reset (h : e.Raised k e') : (e.reset store).Raised k (e'.reset store) :=
  h.of_session ((h.session.clear store.version).note _ _)

end Engine.Raised

/-- An engine keeps its rules and settings. -/
theorem Engine.Does.configured {a : Act} {r : Reply} (h : e.Does store a r e') :
    e'.rules = e.rules ∧ e'.settings = e.settings := by
  have closed : ∀ id, (e.closeQuery id).rules = e.rules ∧
      (e.closeQuery id).settings = e.settings := by
    intro id
    unfold Engine.closeQuery
    split
    · exact ⟨rfl, rfl⟩
    · split <;> exact ⟨rfl, rfl⟩
  have filled : ∀ {fuel id take x e'}, e.fill store fuel id take = some (x, e') →
      e'.rules = e.rules ∧ e'.settings = e.settings := by
    intro fuel id take x e' hfill
    unfold Engine.fill at hfill
    split at hfill
    · cases hfill
      exact ⟨rfl, rfl⟩
    · split at hfill
      · cases hfill
        exact ⟨rfl, rfl⟩
      · split at hfill
        · cases hfill
        · cases hfill
          exact ⟨rfl, rfl⟩
        · cases hfill
          exact ⟨rfl, rfl⟩
  cases h with
  | find hfind =>
    unfold Engine.find at hfind
    split at hfind
    · cases hfind
      exact ⟨rfl, rfl⟩
    · simp only at hfind
      split at hfind <;> cases hfind <;> exact ⟨rfl, rfl⟩
  | next hnext => exact filled hnext
  | hasNext hnext =>
    unfold Engine.hasNext at hnext
    obtain ⟨⟨x, e1⟩, hfill, e⟩ := Option.map_eq_some_iff.1 hnext
    cases e
    exact filled hfill
  | @close handle => exact closed handle.query
  | clone => exact ⟨rfl, rfl⟩
  | @drop handle =>
    unfold Engine.drop
    split
    · exact ⟨rfl, rfl⟩
    · split
      · exact closed handle.query
      · exact ⟨rfl, rfl⟩
  | reset => exact ⟨rfl, rfl⟩
  | nextMessage => exact ⟨rfl, rfl⟩
  | printProfile =>
    obtain ⟨j, hj⟩ := e.printProfile_eq
    rw [hj]
    exact ⟨rfl, rfl⟩

end

/-! ## Acts at sites -/

/-- The handle that an act goes through. -/
def Act.handle? : Act → Option Handle
  | .next h | .hasNext h | .close h | .clone h | .drop h => some h
  | _ => none

def Act.raise (k : Nat) : Act → Act
  | .next h => .next (h.raise k)
  | .hasNext h => .hasNext (h.raise k)
  | .close h => .close (h.raise k)
  | .clone h => .clone (h.raise k)
  | .drop h => .drop (h.raise k)
  | .find pattern => .find pattern
  | .reset => .reset
  | .nextMessage => .nextMessage
  | .printProfile => .printProfile
  | .add t => .add t
  | .delete t => .delete t

def Reply.raise (k : Nat) : Reply → Reply
  | .opened x => .opened (x.map (Handle.raise k))
  | .answer x => .answer x
  | .more x => .more x
  | .done => .done

/-- The act goes through a handle on an older query. -/
def Act.isOld (k : Nat) (a : Act) : Bool := a.handle?.any fun h => h.query ≤ k

/-- What comes of an act, if it comes to an end within the fuel. -/
def Site.outcome (fuel : Nat) (σ : Site) : Act → Option (Reply × Site)
  | .find pattern =>
    let (x, e) := σ.engine.find σ.graph.toStore pattern
    some (.opened x, ⟨σ.graph, e⟩)
  | .next h =>
    (σ.engine.next σ.graph.toStore fuel h).map fun (x, e) => (.answer x, ⟨σ.graph, e⟩)
  | .hasNext h =>
    (σ.engine.hasNext σ.graph.toStore fuel h).map fun (x, e) => (.more x, ⟨σ.graph, e⟩)
  | .close h => some (.done, ⟨σ.graph, σ.engine.close h⟩)
  | .clone h => some (.done, ⟨σ.graph, (σ.engine.clone h).2⟩)
  | .drop h => some (.done, ⟨σ.graph, σ.engine.drop h⟩)
  | .reset => some (.done, ⟨σ.graph, σ.engine.reset σ.graph.toStore⟩)
  | .nextMessage => some (.done, ⟨σ.graph, σ.engine.nextMessage.2⟩)
  | .printProfile => some (.done, ⟨σ.graph, σ.engine.printProfile⟩)
  | .add t => some (.done, ⟨(σ.graph.add t).2, σ.engine⟩)
  | .delete t => some (.done, ⟨(σ.graph.delete t).2, σ.engine⟩)

theorem Site.does_iff {σ σ' : Site} {a : Act} {r : Reply} :
    σ.Does a r σ' ↔ ∃ fuel, σ.outcome fuel a = some (r, σ') := by
  obtain ⟨g, e⟩ := σ
  constructor
  · intro h
    cases h with
    | find h => exact ⟨0, by rw [Site.outcome, h]⟩
    | @next _ _ _ fuel _ _ h => exact ⟨fuel, by rw [Site.outcome, h]; rfl⟩
    | @hasNext _ _ _ fuel _ _ h => exact ⟨fuel, by rw [Site.outcome, h]; rfl⟩
    | _ => exact ⟨0, rfl⟩
  · rintro ⟨fuel, h⟩
    cases a with
    | find pattern =>
      cases h
      exact .find rfl
    | next handle =>
      obtain ⟨⟨x, e'⟩, hnext, e⟩ := Option.map_eq_some_iff.1 h
      cases e
      exact .next hnext
    | hasNext handle =>
      obtain ⟨⟨x, e'⟩, hnext, e⟩ := Option.map_eq_some_iff.1 h
      cases e
      exact .hasNext hnext
    | close => cases h; exact .close
    | clone => cases h; exact .clone
    | drop => cases h; exact .drop
    | reset => cases h; exact .reset
    | nextMessage => cases h; exact .nextMessage
    | printProfile => cases h; exact .printProfile
    | add => cases h; exact .add
    | delete => cases h; exact .delete

/-- The second site is the same but for raised ids and older queries. -/
structure Site.Raised (k : Nat) (σ σ' : Site) : Prop where
  graph : σ'.graph = σ.graph
  engine : σ.engine.Raised k σ'.engine
  held : σ.engine.Held

section

variable {k : Nat} {σ σ' σ₁ σ₁' : Site} {a : Act} {r : Reply}

/-- Every act is a raised one, unless it goes through an older query. -/
theorem Act.exists_raise (h : a.isOld k = false) : ∃ a' : Act, a = a'.raise k := by
  have handle : ∀ h : Handle, decide (h.query ≤ k) = false → ∃ h' : Handle, h = h'.raise k := by
    intro h hlt
    refine ⟨{ h with query := h.query - k }, ?_⟩
    unfold Handle.raise
    simp only
    rw [Nat.sub_add_cancel (Nat.le_of_not_le (of_decide_eq_false hlt))]
  cases a with
  | next h1 =>
    obtain ⟨h2, rfl⟩ := handle h1 h
    exact ⟨.next h2, rfl⟩
  | hasNext h1 =>
    obtain ⟨h2, rfl⟩ := handle h1 h
    exact ⟨.hasNext h2, rfl⟩
  | close h1 =>
    obtain ⟨h2, rfl⟩ := handle h1 h
    exact ⟨.close h2, rfl⟩
  | clone h1 =>
    obtain ⟨h2, rfl⟩ := handle h1 h
    exact ⟨.clone h2, rfl⟩
  | drop h1 =>
    obtain ⟨h2, rfl⟩ := handle h1 h
    exact ⟨.drop h2, rfl⟩
  | find pattern => exact ⟨.find pattern, rfl⟩
  | reset => exact ⟨.reset, rfl⟩
  | nextMessage => exact ⟨.nextMessage, rfl⟩
  | printProfile => exact ⟨.printProfile, rfl⟩
  | add t => exact ⟨.add t, rfl⟩
  | delete t => exact ⟨.delete t, rfl⟩

theorem Site.Does.held (h : σ.Does a r σ₁) (hheld : σ.engine.Held) : σ₁.engine.Held := by
  rcases h.engine with h | e
  · exact h.held hheld
  · exact e ▸ hheld

/-- An act through a new query has the same outcome at both sites. -/
theorem Site.Raised.outcome (h : σ.Raised k σ') (fuel : Nat) (ha : (a.raise k).isOld k = false) :
    Option.Rel (fun x x' => x'.1 = x.1.raise k ∧ x.2.Raised k x'.2) (σ.outcome fuel a)
      (σ'.outcome fuel (a.raise k)) := by
  have pos : ∀ {handle : Handle}, decide ((handle.raise k).query ≤ k) = false →
      0 < handle.query := by
    intro handle hlt
    have hlt : ¬ handle.query + k ≤ k := of_decide_eq_false hlt
    omega
  -- the fresh engine stays held whatever is done
  have kept : ∀ {r : Reply} {σ₁ : Site}, σ.outcome fuel a = some (r, σ₁) → σ₁.engine.Held :=
    fun ho => (Site.does_iff.2 ⟨fuel, ho⟩).held h.held
  obtain ⟨g, e⟩ := σ
  obtain ⟨g', e'⟩ := σ'
  obtain ⟨hg, he, hheld⟩ := h
  obtain rfl : g' = g := hg
  cases a with
  | find pattern =>
    obtain ⟨hx, h1⟩ := he.find g'.toStore pattern
    refine .some ⟨?_, rfl, h1, kept rfl⟩
    exact congrArg Reply.opened hx
  | next handle =>
    have hfill := he.fill hheld (pos ha) g'.toStore fuel true
    unfold Site.outcome Act.raise Engine.next at *
    rcases rel_elim hfill with ⟨e1, e2⟩ | ⟨⟨x, e1⟩, ⟨x', e1'⟩, e2, e3, hx, h1⟩
    · simp only [e1, show e'.fill g'.toStore fuel (handle.raise k).query true = none from e2]
      exact .none
    · obtain rfl : x' = x := hx
      simp only [e2] at kept
      simp only [e2, show e'.fill g'.toStore fuel (handle.raise k).query true = some (x', e1')
        from e3]
      exact .some ⟨rfl, rfl, h1, kept rfl⟩
  | hasNext handle =>
    have hfill := he.fill hheld (pos ha) g'.toStore fuel false
    unfold Site.outcome Act.raise Engine.hasNext at *
    rcases rel_elim hfill with ⟨e1, e2⟩ | ⟨⟨x, e1⟩, ⟨x', e1'⟩, e2, e3, hx, h1⟩
    · simp only [e1, show e'.fill g'.toStore fuel (handle.raise k).query false = none from e2]
      exact .none
    · obtain rfl : x' = x := hx
      simp only [e2] at kept
      simp only [e2, show e'.fill g'.toStore fuel (handle.raise k).query false = some (x', e1')
        from e3]
      exact .some ⟨rfl, rfl, h1, kept rfl⟩
  | close handle => exact .some ⟨rfl, rfl, he.closeQuery (pos ha), kept rfl⟩
  | clone handle => exact .some ⟨rfl, rfl, he.clone, kept rfl⟩
  | drop handle => exact .some ⟨rfl, rfl, he.drop (pos ha), kept rfl⟩
  | reset => exact .some ⟨rfl, rfl, he.reset, kept rfl⟩
  | nextMessage =>
    exact .some ⟨rfl, rfl, he.of_session { he.session with }, kept rfl⟩
  | printProfile => exact .some ⟨rfl, rfl, he.printProfile, kept rfl⟩
  | add t => exact .some ⟨rfl, rfl, he, kept rfl⟩
  | delete t => exact .some ⟨rfl, rfl, he, kept rfl⟩

/-- An act through an older query comes to an end, and nothing comes of it. -/
theorem Site.Raised.outcome_old (h : σ.Raised k σ') (fuel : Nat) (ha : a.isOld k = true) :
    ∃ r σ₁', σ'.outcome fuel a = some (r, σ₁') ∧ σ.Raised k σ₁' := by
  obtain ⟨g, e⟩ := σ
  obtain ⟨g', e'⟩ := σ'
  obtain ⟨hg, he, hheld⟩ := h
  obtain rfl : g' = g := hg
  cases a with
  | next handle =>
    obtain ⟨failure, hfill⟩ := he.fill_old (of_decide_eq_true ha) g'.toStore fuel true
    refine ⟨.answer (.error failure), ⟨g', e'⟩, ?_, rfl, he, hheld⟩
    rw [Site.outcome, Engine.next, hfill]
    rfl
  | hasNext handle =>
    obtain ⟨failure, hfill⟩ := he.fill_old (of_decide_eq_true ha) g'.toStore fuel false
    refine ⟨.more (.error failure), ⟨g', e'⟩, ?_, rfl, he, hheld⟩
    rw [Site.outcome, Engine.hasNext, hfill]
    rfl
  | close handle => exact ⟨_, _, rfl, rfl, he.closeQuery_old (of_decide_eq_true ha), hheld⟩
  | clone handle => exact ⟨_, _, rfl, rfl, he.clone_old (of_decide_eq_true ha), hheld⟩
  | drop handle => exact ⟨_, _, rfl, rfl, he.drop_old (of_decide_eq_true ha), hheld⟩
  | _ => cases ha

/-! ## What is done after a reset -/

/-- What was done, with what came back, from one site to another. -/
inductive Site.Trace : Site → List (Act × Reply) → Site → Prop
  | nil {σ : Site} : Trace σ [] σ
  | cons {σ σ₁ σ₂ : Site} {a : Act} {r : Reply} {L : List (Act × Reply)} :
    σ.Does a r σ₁ → Trace σ₁ L σ₂ → Trace σ ((a, r) :: L) σ₂

/-- What was not done through older queries. -/
def newer (k : Nat) (L : List (Act × Reply)) : List (Act × Reply) := L.filter fun x => !x.1.isOld k

/-- Whatever is done at the one site is done at the other, but for acts through older queries. -/
theorem Site.Raised.trace {L : List (Act × Reply)} (h : σ.Raised k σ') (ht : σ'.Trace L σ₁') :
    ∃ L₁ σ₁, σ.Trace L₁ σ₁ ∧ newer k L = L₁.map (fun x => (x.1.raise k, x.2.raise k)) ∧
      σ₁.Raised k σ₁' := by
  induction ht generalizing σ with
  | nil => exact ⟨[], σ, .nil, rfl, h⟩
  | @cons _ σ2 _ a r L hdoes _ ih =>
    obtain ⟨fuel, ho⟩ := Site.does_iff.1 hdoes
    cases ha : a.isOld k with
    | true =>
      obtain ⟨r', σ3, ho', h'⟩ := h.outcome_old fuel ha
      rw [ho] at ho'
      cases ho'
      obtain ⟨L₁, σ₁, h1, h2, h3⟩ := ih h'
      refine ⟨L₁, σ₁, h1, ?_, h3⟩
      unfold newer
      rw [List.filter_cons_of_neg (by simp [ha])]
      exact h2
    | false =>
      obtain ⟨a', rfl⟩ := Act.exists_raise ha
      rcases rel_elim (h.outcome fuel ha) with ⟨-, e⟩ | ⟨⟨r0, σ0⟩, x', e1, e2, hr, h'⟩
      · rw [ho] at e
        cases e
      · rw [ho] at e2
        cases e2
        obtain ⟨L₁, σ₁, h1, h2, h3⟩ := ih h'
        refine ⟨(a', r0) :: L₁, σ₁, .cons (Site.does_iff.2 ⟨fuel, e1⟩) h1, ?_, h3⟩
        unfold newer
        rw [List.filter_cons_of_pos (by simp [ha]), List.map_cons]
        exact congrArg₂ List.cons (Prod.ext rfl hr) h2

/-- The handle that comes back. -/
def Reply.handle? : Reply → Option Handle
  | .opened (.ok h) => some h
  | _ => none

/-- The handles that are given out in a history. -/
def handles (L : List (Act × Reply)) : List Handle := L.filterMap fun x => x.2.handle?

theorem Site.Does.handle_lt (h : σ.Does a r σ₁) :
    ∀ handle ∈ r.handle?, handle.query < σ₁.engine.session.nextId := by
  intro handle hr
  cases h with
  | @find g e e' pattern x hfind =>
    cases x with
    | error failure => cases hr
    | ok handle' =>
      cases hr
      exact (Site.Does.find hfind).opened.id_lt
  | _ => cases hr

/-- The ids of the handles that were given out are used. -/
theorem Site.Trace.handles_lt {L : List (Act × Reply)} (h : σ.Trace L σ₁) :
    σ.engine.session.nextId ≤ σ₁.engine.session.nextId ∧
      ∀ handle ∈ handles L, handle.query < σ₁.engine.session.nextId := by
  induction h with
  | nil => exact ⟨Nat.le_refl _, fun _ h => by cases h⟩
  | @cons _ _ _ a r L hdoes _ ih =>
    refine ⟨Nat.le_trans hdoes.ages.session.nextId_le ih.1, fun handle hmem => ?_⟩
    obtain ⟨x, hx, hr⟩ := List.mem_filterMap.1 hmem
    rcases List.mem_cons.1 hx with rfl | hx
    · exact Nat.lt_of_lt_of_le (hdoes.handle_lt handle hr) ih.1
    · exact ih.2 handle (List.mem_filterMap.2 ⟨x, hx, hr⟩)

theorem Site.Raised.does (h : σ.Raised k σ') (hdoes : σ'.Does a r σ₁') :
    ∃ σ₁ : Site, σ₁.Raised k σ₁' := by
  obtain ⟨L, σ₁, -, -, h'⟩ := h.trace (.cons hdoes .nil)
  exact ⟨σ₁, h'⟩

theorem Site.Trace.configured {L : List (Act × Reply)} (h : σ.Trace L σ₁) :
    σ₁.engine.rules = σ.engine.rules ∧ σ₁.engine.settings = σ.engine.settings := by
  induction h with
  | nil => exact ⟨rfl, rfl⟩
  | cons hdoes _ ih =>
    rcases hdoes.engine with hdoes | e
    · exact ⟨ih.1.trans hdoes.configured.1, ih.2.trans hdoes.configured.2⟩
    · exact ⟨ih.1.trans (e ▸ rfl), ih.2.trans (e ▸ rfl)⟩

theorem Site.Trace.runs {L : List (Act × Reply)} (h : σ.Trace L σ₁) :
    σ.Runs (fun _ _ => True) σ₁ := by
  induction h with
  | nil => exact .refl
  | cons hdoes _ ih => exact .head ⟨_, _, trivial, hdoes⟩ ih

/-- An engine that is reset is a new one with raised ids. -/
theorem Site.Trace.reset {graph : Graph} {rules : RuleBase} {settings : Settings}
    {L : List (Act × Reply)} (h : (Site.new graph rules settings).Trace L σ)
    (hreset : σ.Does .reset .done σ₁) :
    (Site.new σ.graph rules settings).Raised (σ.engine.session.nextId - 1) σ₁ := by
  have hpos : 1 ≤ σ.engine.session.nextId := h.handles_lt.1
  obtain ⟨hrules, hsettings⟩ := h.configured
  have hheld := h.runs.held
  cases hreset with
  | @reset g e =>
    refine ⟨rfl, ⟨hrules, hsettings, ?_, fun id hid => ?_⟩, Engine.held_new _ _ _⟩
    · have hclear : Session.Raised (e.session.nextId - 1)
          (Session.clear { journal := .ofSettings settings } g.toStore.version)
          (e.session.clear g.toStore.version) :=
        Session.raised_clear (Nat.add_sub_cancel' hpos).symm Nat.one_pos _
      exact { hclear with }
    · have hnone : e.queries[id + (e.session.nextId - 1)]? = none := by
        cases hq : e.queries[id + (e.session.nextId - 1)]? with
        | none => rfl
        | some q =>
          have hlt := (hheld.query hq).1
          change 1 ≤ e.session.nextId at hpos
          change id + (e.session.nextId - 1) < e.session.nextId at hlt
          omega
      change Option.Rel _ (∅ : Std.TreeMap Nat Query)[id]? e.queries[id + (e.session.nextId - 1)]?
      rw [hnone, Std.TreeMap.getElem?_emptyc]
      exact .none

end

end TabledRules
