-- A query that cannot be read any more stays that way. Ids of queries and
-- versions of the store are never used again, and the mark of a fatal
-- failure goes only when all queries go.
import TabledRules.Proofs.Changes
import TabledRules.Proofs.Failures
import TabledRules.Proofs.Lives

namespace TabledRules

/-! ## Sessions that keep their queries -/

/-- The same queries are open, and the session can be used as before. -/
structure Session.Maintains (s s' : Session) : Prop where
  nextId_le : s.nextId ≤ s'.nextId
  poisoned : s'.poisoned = s.poisoned
  isOpen : ∀ q : Nat, (s'.queries[q]?).isSome = (s.queries[q]?).isSome

namespace Session

variable {s s' s'' : Session} {g c q : Nat}

theorem Maintains.refl (s : Session) : s.Maintains s := ⟨Nat.le_refl _, rfl, fun _ => rfl⟩

theorem Maintains.trans (h : s.Maintains s') (h' : s'.Maintains s'') : s.Maintains s'' :=
  ⟨Nat.le_trans h.nextId_le h'.nextId_le, h'.poisoned.trans h.poisoned, fun q =>
    (h'.isOpen q).trans (h.isOpen q)⟩

theorem Maintains.foldl {α : Type} {f : Session → α → Session}
    (h : ∀ (s : Session) (a : α), s.Maintains (f s a)) (as : List α) (s : Session) :
    s.Maintains (as.foldl f s) := by
  induction as generalizing s with
  | nil => exact .refl s
  | cons a as ih => exact (h s a).trans (ih (f s a))

/-- The queries stay as they are. -/
theorem Maintains.of_queries (hid : s.nextId ≤ s'.nextId) (hp : s'.poisoned = s.poisoned)
    (hq : s'.queries = s.queries) : s.Maintains s' :=
  ⟨hid, hp, fun _ => by rw [hq]⟩

theorem Noted.maintains (h : s.Noted s') : s.Maintains s' := by
  obtain ⟨j, p, rfl⟩ := h
  exact .of_queries (Nat.le_refl _) rfl rfl

theorem maintains_modifyQueries (s : Session) (q : Nat) (f : List Nat → List Nat) :
    s.Maintains { s with queries := s.queries.modify q f } :=
  ⟨Nat.le_refl _, rfl, fun q' => isSome_modify s.queries q q' f⟩

theorem maintains_unblock (s : Session) (owner : Owner) (c : Nat) :
    s.Maintains (s.unblock owner c) := by
  cases owner with
  | generator g => exact .of_queries (Nat.le_refl _) rfl rfl
  | query q => exact s.maintains_modifyQueries q _

theorem maintains_removeConsumer (s : Session) (c : Nat) : s.Maintains (s.removeConsumer c) := by
  unfold removeConsumer
  split
  · exact .refl s
  · next k _ =>
    refine Maintains.trans (.of_queries ?_ ?_ ?_) (maintains_unblock _ k.owner c)
    · exact Nat.le_refl _
    · rfl
    · rfl

theorem maintains_wake (s : Session) (c : Nat) : s.Maintains (s.wake c) := by
  unfold wake
  split
  · exact .of_queries (Nat.le_refl _) rfl rfl
  · exact .refl s

theorem maintains_wakeReaders (s : Session) (g : Nat) : s.Maintains (s.wakeReaders g) := by
  unfold wakeReaders
  split
  · exact .foldl maintains_wake _ s
  · exact .refl s

theorem maintains_removeAll (owned : List (Nat × Consumer)) (s : Session) :
    s.Maintains (s.removeAll owned) :=
  .foldl (fun s (p : Nat × Consumer) => s.maintains_removeConsumer p.1) owned s

theorem maintains_complete (event : Triple → Nat → Event) (s : Session) (g : Nat) :
    s.Maintains (s.complete event g) := by
  rcases s.complete_cases event g with e | ⟨gen, hgen, hinc⟩
  · rw [e]
    exact .refl s
  · rw [complete_eq event hgen hinc]
    have hfinish : s.Maintains ((s.finish g).note (event gen.goal gen.results.size)) :=
      .of_queries (Nat.le_refl _) rfl rfl
    exact (hfinish.trans (maintains_removeAll _ _)).trans (maintains_wakeReaders _ g)

/-- Whatever runs, no query is opened and none is closed. -/
theorem Change.maintains (h : s.Change s') : s.Maintains s' := by
  cases h with
  | noted h => exact h.maintains
  | newTable w goal =>
    refine .of_queries (nextId_generatorFor w goal s) ?_ ?_ <;>
    · unfold generatorFor
      split
      · rfl
      · simp only
        split <;> rfl
  | newConsumer g owner => exact .of_queries (Nat.le_succ _) rfl rfl
  | read c =>
    unfold Session.read
    split
    · exact .refl s
    · split
      · exact .refl s
      · split
        · exact .of_queries (Nat.le_refl _) rfl rfl
        · exact .refl s
  | removed c => exact s.maintains_removeConsumer c
  | blocked owner c =>
    cases owner with
    | generator g => exact .of_queries (Nat.le_refl _) rfl rfl
    | query q =>
      have hmarked : s.Maintains (s.modifyConsumer c fun k => { k with suspended := true }) :=
        .of_queries (Nat.le_refl _) rfl rfl
      exact hmarked.trans (maintains_modifyQueries _ q _)
  | restored c => exact .of_queries (Nat.le_refl _) rfl rfl
  | result g t => exact .of_queries (Nat.le_refl _) rfl rfl
  | machine g m => exact .of_queries (Nat.le_refl _) rfl rfl
  | prepared g resume =>
    cases resume with
    | none => exact .of_queries (Nat.le_refl _) rfl rfl
    | some c => exact s.maintains_unblock (.generator g) c
  | completed event g => exact s.maintains_complete event g
  | woken g => exact s.maintains_wakeReaders g
  | agenda a => exact .of_queries (Nat.le_refl _) rfl rfl
  | takenUp task =>
    cases task with
    | start g =>
      simp only [Session.takeUp]
      split <;> exact .refl s
    | resume c =>
      simp only [Session.takeUp]
      split <;> exact .of_queries (Nat.le_refl _) rfl rfl
  | @taken q c s' htake =>
    unfold takeReady at htake
    obtain ⟨c', -, e⟩ := Option.map_eq_some_iff.1 htake
    cases e
    exact s.maintains_modifyQueries q _

theorem Changes.maintains (h : s.Changes s') : s.Maintains s' :=
  h.keeps .refl .trans Change.maintains

/-! ## Sessions that lose queries -/

/-- No query that is not open becomes open, and the session can be used as before. -/
structure Narrows (s s' : Session) : Prop where
  nextId_le : s.nextId ≤ s'.nextId
  poisoned : s'.poisoned = s.poisoned
  shut : ∀ {q : Nat}, q < s.nextId → s.queries[q]? = none → s'.queries[q]? = none

theorem Narrows.trans (h : s.Narrows s') (h' : s'.Narrows s'') : s.Narrows s'' :=
  ⟨Nat.le_trans h.nextId_le h'.nextId_le, h'.poisoned.trans h.poisoned, fun hlt hq =>
    h'.shut (Nat.lt_of_lt_of_le hlt h.nextId_le) (h.shut hlt hq)⟩

theorem Maintains.narrows (h : s.Maintains s') : s.Narrows s' := by
  refine ⟨h.nextId_le, h.poisoned, fun {q} _ hq => ?_⟩
  have hopen := h.isOpen q
  rw [hq] at hopen
  exact Option.not_isSome_iff_eq_none.1 (by rw [hopen]; simp)

theorem Noted.narrows (h : s.Noted s') : s.Narrows s' := h.maintains.narrows

theorem Changes.narrows (h : s.Changes s') : s.Narrows s' := h.maintains.narrows

theorem narrows_openQuery (s : Session) : s.Narrows s.openQuery.2 := by
  refine ⟨Nat.le_succ _, rfl, fun {q} hlt hq => ?_⟩
  change (s.queries.insert s.nextId [])[q]? = none
  rw [Std.TreeMap.getElem?_insert, if_neg]
  · exact hq
  · rw [Std.LawfulEqCmp.compare_eq_iff_eq]
    exact Nat.ne_of_gt hlt

theorem narrows_closeQuery (s : Session) (q : Nat) : s.Narrows (s.closeQuery q) := by
  rcases s.closeQuery_cases q with e | ⟨roots, e⟩
  · rw [e]
    exact (s.maintains_removeAll _).narrows
  · have hgone : s.Narrows (s.dismissed q) := by
      refine (s.maintains_removeAll (s.ownedBy (.query q))).narrows.trans
        ⟨Nat.le_refl _, rfl, fun {q'} _ hq => ?_⟩
      change ((s.removeAll (s.ownedBy (.query q))).queries.erase q)[q']? = none
      rw [Std.TreeMap.getElem?_erase]
      split
      · rfl
      · exact hq
    rw [e]
    exact (hgone.trans (changes_checkCompletion _ roots).narrows).trans (noted_note _ _).narrows

/-! ## Queries that are shut -/

/-- No query with this id is open, or a fatal failure has struck. -/
def Shut (s : Session) (id : Nat) : Prop :=
  s.queries[id]? = none ∨ s.poisoned.isSome = true

/-- No id is used again, and what is shut is not opened. -/
structure Ages (s s' : Session) : Prop where
  nextId_le : s.nextId ≤ s'.nextId
  shut : ∀ {id : Nat}, id < s.nextId → s.Shut id → s'.Shut id

theorem Ages.refl (s : Session) : s.Ages s := ⟨Nat.le_refl _, fun _ h => h⟩

theorem Ages.trans (h : s.Ages s') (h' : s'.Ages s'') : s.Ages s'' :=
  ⟨Nat.le_trans h.nextId_le h'.nextId_le, fun hlt hs =>
    h'.shut (Nat.lt_of_lt_of_le hlt h.nextId_le) (h.shut hlt hs)⟩

theorem Narrows.ages (h : s.Narrows s') : s.Ages s' :=
  ⟨h.nextId_le, fun hlt hs => hs.imp (h.shut hlt) fun hp => by rw [h.poisoned]; exact hp⟩

theorem shut_clear (s : Session) (version id : Nat) : (s.clear version).Shut id :=
  .inl Std.TreeMap.getElem?_emptyc

theorem ages_clear (s : Session) (version : Nat) : s.Ages (s.clear version) :=
  ⟨Nat.le_refl _, fun _ _ => s.shut_clear version _⟩

theorem ages_refresh (s : Session) (version : Nat) : s.Ages (s.refresh version) := by
  unfold refresh
  split
  · exact .refl s
  · exact (s.noted_note _).narrows.ages.trans (ages_clear _ version)

/-- A fatal failure leaves its mark. -/
theorem poisoned_poison (s : Session) {failure : Failure} (h : failure.isFatal = true) :
    (s.poison failure).poisoned = some failure.message := by
  unfold poison
  rw [if_pos h]

theorem ages_poison (s : Session) (failure : Failure) : s.Ages (s.poison failure) := by
  unfold poison
  split
  · exact ⟨Nat.le_refl _, fun _ _ => .inr rfl⟩
  · exact .refl s

end Session

/-! ## Engines -/

/-- Queries are about the store they were opened on, those that were closed stay closed, and
those that are shut stay shut. -/
structure Engine.Ages (e e' : Engine) : Prop where
  session : e.session.Ages e'.session
  query : ∀ {id : Nat} {q' : Query}, id < e.session.nextId → e'.queries[id]? = some q' →
    ∃ q : Query, e.queries[id]? = some q ∧ q'.version = q.version ∧
      (q.closed = true → q'.closed = true)

section

variable {e e' e'' : Engine} {store : Store}

theorem Engine.Ages.refl (e : Engine) : e.Ages e := ⟨.refl _, fun _ h => ⟨_, h, rfl, id⟩⟩

theorem Engine.Ages.trans (h : e.Ages e') (h' : e'.Ages e'') : e.Ages e'' := by
  refine ⟨h.session.trans h'.session, fun hlt hq => ?_⟩
  obtain ⟨q', hq', e1, hclosed'⟩ := h'.query (Nat.lt_of_lt_of_le hlt h.session.nextId_le) hq
  obtain ⟨q, hq, e2, hclosed⟩ := h.query hlt hq'
  exact ⟨q, hq, e1.trans e2, fun hc => hclosed' (hclosed hc)⟩

/-- Only the session changes. -/
theorem Engine.Ages.of_session {s' : Session} (h : e.session.Ages s') :
    e.Ages { e with session := s' } :=
  ⟨h, fun _ hq => ⟨_, hq, rfl, id⟩⟩

/-- One query and the session change. -/
theorem Engine.Ages.insert {s' : Session} {id : Nat} {q q' : Query} (h : e.session.Ages s')
    (hq : e.queries[id]? = some q) (hv : q'.version = q.version)
    (hclosed : q.closed = true → q'.closed = true) :
    e.Ages { e with session := s', queries := e.queries.insert id q' } := by
  refine ⟨h, fun _ hq' => ?_⟩
  rcases getElem?_insert_cases hq' with ⟨rfl, rfl⟩ | hq'
  · exact ⟨q, hq, hv, hclosed⟩
  · exact ⟨_, hq', rfl, fun h => h⟩

theorem Engine.ages_closeQuery (e : Engine) (id : Nat) : e.Ages (e.closeQuery id) := by
  unfold Engine.closeQuery
  split
  · exact .refl e
  · next q hq =>
    split
    · exact .refl e
    · exact .insert (e.session.narrows_closeQuery id).ages hq rfl fun _ => rfl

theorem Engine.ages_clone (e : Engine) (h : Handle) : e.Ages (e.clone h).2 := by
  refine ⟨.refl _, fun {id q'} _ hq' => ?_⟩
  change (e.queries.modify h.query _)[id]? = some q' at hq'
  rw [Std.TreeMap.getElem?_modify] at hq'
  split at hq'
  · next heq =>
    obtain ⟨q, hq, rfl⟩ := Option.map_eq_some_iff.1 hq'
    rw [Std.LawfulEqCmp.compare_eq_iff_eq] at heq
    exact ⟨q, heq ▸ hq, rfl, fun h => h⟩
  · exact ⟨q', hq', rfl, fun h => h⟩

theorem Engine.ages_drop (e : Engine) (h : Handle) : e.Ages (e.drop h) := by
  unfold Engine.drop
  split
  · exact .refl e
  · next q hq =>
    split
    · refine (e.ages_closeQuery h.query).trans ⟨.refl _, fun _ hq' => ?_⟩
      rw [Std.TreeMap.getElem?_erase] at hq'
      split at hq'
      · cases hq'
      · exact ⟨_, hq', rfl, fun h => h⟩
    · exact .insert (.refl _) hq rfl fun h => h

/-- What is shut when the tables are fit for the store is shut after a query was opened. -/
theorem Engine.ages_of_refresh {pattern : Triple} {x : Except Failure Handle}
    (h : e.find store pattern = (x, e')) (hclean : e.session.poisoned = none) :
    (e.session.refresh store.version).Ages e'.session := by
  unfold Engine.find at h
  rw [hclean] at h
  simp only [Session.openQuery] at h
  generalize e.session.refresh store.version = s at h ⊢
  have hopened := (s.narrows_openQuery.trans
    (s.openQuery.2.noted_note (.queryOpened s.nextId pattern)).narrows).ages
  have hstarted := hopened.trans
    (startQuery_changes (e.world store) pattern s.nextId _).narrows.ages
  split at h
  · next failure s' hstart =>
    change (Machine.startQuery _ _ _ (s.openQuery.2.note _)) = _ at hstart
    rw [hstart] at hstarted
    cases h
    exact (hstarted.trans (s'.ages_poison failure)).trans
      (Session.narrows_closeQuery _ s.nextId).ages
  · next m s' hstart =>
    change (Machine.startQuery _ _ _ (s.openQuery.2.note _)) = _ at hstart
    rw [hstart] at hstarted
    cases h
    exact hstarted

/-- To open a query makes no other one readable. -/
theorem Engine.ages_find {pattern : Triple} {x : Except Failure Handle}
    (h : e.find store pattern = (x, e')) : e.Ages e' := by
  cases hp : e.session.poisoned with
  | some detail =>
    unfold Engine.find at h
    rw [hp] at h
    cases h
    exact .refl e
  | none =>
    have hfresh := e.session.ages_refresh store.version
    refine ⟨hfresh.trans (Engine.ages_of_refresh h hp), fun hlt hq' => ?_⟩
    cases x with
    | ok handle =>
      obtain ⟨m, s', -, -, rfl⟩ := find_ok h
      rcases getElem?_insert_cases hq' with ⟨rfl, rfl⟩ | hq'
      · have := hfresh.nextId_le
        omega
      · exact ⟨_, hq', rfl, fun h => h⟩
    | error failure =>
      unfold Engine.find at h
      rw [hp] at h
      simp only at h
      split at h <;> cases h
      exact ⟨_, hq', rfl, fun h => h⟩

/-- A query that is looked at stays as open as it was. -/
theorem ages_lookAhead {w : World} {fuel id : Nat} {q found : Query} {x : Except Failure Unit}
    {s s' : Session} (h : Engine.lookAhead w fuel id q s = some (x, found, s')) :
    s.Ages s' ∧ found.version = q.version ∧ found.closed = q.closed := by
  unfold Engine.lookAhead at h
  split at h
  · cases h
    exact ⟨.refl s, rfl, rfl⟩
  · split at h
    · cases h
      exact ⟨.refl s, rfl, rfl⟩
    · split at h
      · cases h
      · next hadvance =>
        cases h
        exact ⟨(search_changes.1 hadvance).narrows.ages, rfl, rfl⟩
      · next hadvance =>
        cases h
        exact ⟨(search_changes.1 hadvance).narrows.ages, rfl, rfl⟩
      · next failure _ s1 hadvance =>
        cases h
        exact ⟨(search_changes.1 hadvance).narrows.ages.trans (s1.ages_poison failure), rfl, rfl⟩

theorem Engine.ages_fill {fuel id : Nat} {take : Bool} {x : Except Failure (Option Triple)}
    (h : e.fill store fuel id take = some (x, e')) : e.Ages e' := by
  unfold Engine.fill at h
  split at h
  · cases h
    exact .refl e
  · next q hq =>
    split at h
    · cases h
      exact .refl e
    · split at h
      · cases h
      · next hlook =>
        obtain ⟨hs, hv, hclosed⟩ := ages_lookAhead hlook
        cases h
        exact .insert hs hq hv fun hc => hclosed.trans hc
      · next hlook =>
        obtain ⟨hs, hv, hclosed⟩ := ages_lookAhead hlook
        cases h
        refine .insert hs hq ?_ fun hc => ?_
        · split <;> exact hv
        · split <;> exact hclosed.trans hc

theorem Engine.Does.ages {a : Act} {r : Reply} (h : e.Does store a r e') : e.Ages e' := by
  cases h with
  | find h => exact Engine.ages_find h
  | next h => exact Engine.ages_fill h
  | hasNext h =>
    obtain ⟨⟨y, e1⟩, hfill, hmap⟩ := Option.map_eq_some_iff.1 h
    cases hmap
    exact Engine.ages_fill hfill
  | @close handle => exact e.ages_closeQuery handle.query
  | @clone handle => exact e.ages_clone handle
  | @drop handle => exact e.ages_drop handle
  | reset =>
    exact .of_session ((e.session.ages_clear store.version).trans
      (Session.noted_note _ _).narrows.ages)
  | nextMessage => exact .of_session (Session.Noted.narrows ⟨_, _, rfl⟩).ages
  | printProfile =>
    obtain ⟨j, hj⟩ := e.printProfile_eq
    rw [hj]
    exact .of_session (Session.Noted.narrows ⟨_, _, rfl⟩).ages

end

/-! ## Sites -/

/-- The query was opened on this version of the store. -/
structure Site.Opened (σ : Site) (id version : Nat) : Prop where
  id_lt : id < σ.engine.session.nextId
  version_le : version ≤ σ.graph.version
  query : ∀ {q : Query}, σ.engine.queries[id]? = some q → q.version = version

/-- The query, which was opened on this version of the store, is closed or forgotten, or its
store has changed, or its tables are gone or not to be used. -/
structure Site.Dead (σ : Site) (id version : Nat) : Prop extends σ.Opened id version where
  why : ∀ {q : Query}, σ.engine.queries[id]? = some q →
    q.closed = true ∨ version < σ.graph.version ∨ σ.engine.session.Shut id

/-- Why a query that is dead is not read. -/
inductive Failure.Shuts : Failure → Prop
  | closed : Shuts (.runtime .iteratorClosed)
  | modified (expected found : Nat) : Shuts (.runtime (.concurrentModification expected found))
  | invalid (detail : String) : Shuts (.runtime (.sessionInvalid detail))

section

variable {σ σ' : Site} {a : Act} {r : Reply} {id version : Nat} {ok : Act → Reply → Prop}

theorem Site.Does.ages (h : σ.Does a r σ') : σ.engine.Ages σ'.engine := by
  rcases h.engine with hdoes | hsame
  · exact hdoes.ages
  · rw [hsame]
    exact .refl _

theorem Site.Opened.does (h : σ.Opened id version) (hdoes : σ.Does a r σ') :
    σ'.Opened id version := by
  have hages := hdoes.ages
  refine ⟨Nat.lt_of_lt_of_le h.id_lt hages.session.nextId_le,
    Nat.le_trans h.version_le hdoes.version_le, fun hq => ?_⟩
  obtain ⟨q, hq, hv, -⟩ := hages.query h.id_lt hq
  exact hv.trans (h.query hq)

/-- What is dead stays dead, whatever is done. -/
theorem Site.Dead.does (h : σ.Dead id version) (hdoes : σ.Does a r σ') :
    σ'.Dead id version := by
  have hages := hdoes.ages
  refine ⟨h.toOpened.does hdoes, fun hq => ?_⟩
  obtain ⟨q, hq, -, hclosed⟩ := hages.query h.id_lt hq
  rcases h.why hq with hc | hlt | hshut
  · exact .inl (hclosed hc)
  · exact .inr (.inl (Nat.lt_of_lt_of_le hlt hdoes.version_le))
  · exact .inr (.inr (hages.session.shut h.id_lt hshut))

theorem Site.Opened.runs (h : σ.Opened id version) (hruns : σ.Runs ok σ') :
    σ'.Opened id version := by
  induction hruns with
  | refl => exact h
  | tail _ hstep ih =>
    obtain ⟨a, r, -, hdoes⟩ := hstep
    exact ih.does hdoes

theorem Site.Dead.runs (h : σ.Dead id version) (hruns : σ.Runs ok σ') :
    σ'.Dead id version := by
  induction hruns with
  | refl => exact h
  | tail _ hstep ih =>
    obtain ⟨a, r, -, hdoes⟩ := hstep
    exact ih.does hdoes

/-- A dead query gives a failure and nothing else, and to read it changes nothing. -/
theorem Site.Dead.fill (h : σ.Dead id version) : ∃ failure : Failure, failure.Shuts ∧
    ∀ fuel take, σ.engine.fill σ.graph.toStore fuel id take =
      some (.error failure, σ.engine) := by
  unfold Engine.fill
  cases hq : σ.engine.queries[id]? with
  | none => exact ⟨_, .closed, fun _ _ => rfl⟩
  | some q =>
    suffices hobstacle : ∃ failure : Failure, failure.Shuts ∧
        Engine.obstacle σ.graph.toStore σ.engine.session id q = some failure by
      obtain ⟨failure, hshuts, hsome⟩ := hobstacle
      exact ⟨failure, hshuts, fun _ _ => by simp only [hsome]⟩
    unfold Engine.obstacle
    split
    · exact ⟨_, .closed, rfl⟩
    · next hopen =>
      split
      · exact ⟨_, .modified _ _, rfl⟩
      · next hsame =>
        have hv : σ.graph.version = q.version := not_not.1 hsame
        split
        · exact ⟨_, .invalid _, rfl⟩
        · next hclean =>
          rcases h.why hq with hc | hlt | hnone | hp
          · exact absurd hc hopen
          · have := h.query hq
            omega
          · rw [if_neg (by simp [Std.TreeMap.contains_eq_isSome_getElem?, hnone])]
            exact ⟨_, .closed, rfl⟩
          · rw [hclean] at hp
            cases hp

/-! ## What queries die of -/

/-- The act puts an end to the query, which was opened on this version of the store. -/
inductive Site.Kills (id version : Nat) (σ : Site) : Act → Reply → Site → Prop
  /-- The store is not what it was any more. -/
  | changed {a : Act} {r : Reply} {σ' : Site} : σ'.graph.version ≠ version →
    Kills id version σ a r σ'
  | closed {h : Handle} {r : Reply} {σ' : Site} : h.query = id → Kills id version σ (.close h) r σ'
  /-- It was the last handle. -/
  | dropped {h : Handle} {r : Reply} {σ' : Site} : h.query = id →
    σ'.engine.queries[id]? = none → Kills id version σ (.drop h) r σ'
  | reset {r : Reply} {σ' : Site} : Kills id version σ .reset r σ'
  /-- A query is opened where the tables are about another version of the store. -/
  | outdated {pattern : Triple} {r : Reply} {σ' : Site} : σ.engine.session.poisoned = none →
    σ.engine.session.version ≠ σ.graph.version → Kills id version σ (.find pattern) r σ'
  | failed {a : Act} {r : Reply} {σ' : Site} {failure : Failure} : r.Fails failure →
    failure.isFatal = true → Kills id version σ a r σ'

theorem closed_closeQuery {e : Engine} {q : Query} (h : (e.closeQuery id).queries[id]? = some q) :
    q.closed = true := by
  unfold Engine.closeQuery at h
  split at h
  · next hnone => cases hnone.symm.trans h
  · next q' hq' =>
    split at h
    · next hc =>
      cases hq'.symm.trans h
      exact hc
    · change (e.queries.insert id _)[id]? = some q at h
      rw [Std.TreeMap.getElem?_insert_self] at h
      cases h
      rfl

/-- An operation of an engine that reports a fatal failure leaves its mark. -/
theorem Engine.Does.poisons {e e' : Engine} {store : Store} {failure : Failure}
    (h : e.Does store a r e') (hr : r.Fails failure) (hfatal : failure.isFatal = true) :
    e'.session.poisoned = some failure.message := by
  have fill : ∀ {fuel id : Nat} {take : Bool},
      e.fill store fuel id take = some (.error failure, e') →
      e'.session.poisoned = some failure.message := by
    intro fuel id take hfill
    unfold Engine.fill at hfill
    split at hfill
    · cases hfill
      cases hfatal
    · split at hfill
      · next hobstacle =>
        -- what makes a query unreadable is not fatal
        cases hfill
        unfold Engine.obstacle at hobstacle
        split at hobstacle
        · cases hobstacle
          cases hfatal
        · split at hobstacle
          · cases hobstacle
            cases hfatal
          · split at hobstacle
            · cases hobstacle
              cases hfatal
            · split at hobstacle <;> cases hobstacle
              cases hfatal
      · split at hfill
        · cases hfill
        · next hlook =>
          cases hfill
          unfold Engine.lookAhead at hlook
          split at hlook
          · cases hlook
          · split at hlook
            · cases hlook
            · split at hlook <;> cases hlook
              exact Session.poisoned_poison _ hfatal
        · cases hfill
  cases h with
  | @find _ pattern x hfind =>
    rcases hr with hr | hr | hr <;> cases hr
    unfold Engine.find at hfind
    split at hfind
    · cases hfind
      cases hfatal
    · simp only at hfind
      split at hfind <;> cases hfind
      exact (Session.narrows_closeQuery _ _).poisoned.trans (Session.poisoned_poison _ hfatal)
  | next hnext =>
    rcases hr with hr | hr | hr <;> cases hr
    exact fill hnext
  | hasNext hnext =>
    rcases hr with hr | hr | hr <;> cases hr
    obtain ⟨⟨y, e1⟩, hfill, hmap⟩ := Option.map_eq_some_iff.1 hnext
    cases y with
    | ok answer => cases hmap
    | error failure' =>
      cases hmap
      exact fill hfill
  | _ => rcases hr with hr | hr | hr <;> cases hr

/-- Only an operation of the engine can fail. -/
theorem Site.Does.engine_of_fails {failure : Failure} (h : σ.Does a r σ')
    (hr : r.Fails failure) : σ.engine.Does σ.graph.toStore a r σ'.engine := by
  cases h with
  | find h => exact .find h
  | next h => exact .next h
  | hasNext h => exact .hasNext h
  | _ => rcases hr with hr | hr | hr <;> cases hr

theorem Site.Kills.dead (hkills : σ.Kills id version a r σ') (hdoes : σ.Does a r σ')
    (h : σ.Opened id version) : σ'.Dead id version := by
  refine ⟨h.does hdoes, fun hq => ?_⟩
  cases hkills with
  | changed hne =>
    have hle : version ≤ σ'.graph.version := (h.does hdoes).version_le
    exact .inr (.inl (Nat.lt_of_le_of_ne hle (Ne.symm hne)))
  | closed hid =>
    subst hid
    cases hdoes
    exact .inl (closed_closeQuery hq)
  | dropped _ hnone => cases hnone.symm.trans hq
  | reset =>
    cases hdoes
    exact .inr (.inr (.inl Std.TreeMap.getElem?_emptyc))
  | @outdated pattern _ _ hclean hne =>
    cases hdoes with
    | @find g e e' _ x hfind =>
      have hcleared : (e.session.refresh g.version).Shut id := by
        unfold Session.refresh
        rw [if_neg hne]
        exact Session.shut_clear _ _ id
      have hlt : id < (e.session.refresh g.version).nextId :=
        Nat.lt_of_lt_of_le h.id_lt (e.session.ages_refresh g.version).nextId_le
      exact .inr (.inr ((Engine.ages_of_refresh hfind hclean).shut hlt hcleared))
  | failed hr hfatal =>
    have hpoisoned := (hdoes.engine_of_fails hr).poisons hr hfatal
    exact .inr (.inr (.inr (by rw [hpoisoned]; rfl)))

/-- A query that is opened is about the store as it is. -/
theorem Site.Does.opened {pattern : Triple} {handle : Handle}
    (h : σ.Does (.find pattern) (.opened (.ok handle)) σ') :
    σ'.Opened handle.query σ.graph.version := by
  cases h with
  | @find g e e' _ x hfind =>
    obtain ⟨m, s', rfl, hstart, rfl⟩ := find_ok hfind
    refine ⟨?_, Nat.le_refl _, fun hq => ?_⟩
    · have hchanges := startQuery_changes (e.world g.toStore) pattern
        (e.session.refresh g.toStore.version).nextId
        ((e.session.refresh g.toStore.version).openQuery.2.note
          (.queryOpened (e.session.refresh g.toStore.version).nextId pattern))
      rw [hstart] at hchanges
      exact Nat.lt_of_lt_of_le (Nat.lt_succ_self _) hchanges.narrows.nextId_le
    · rw [Std.TreeMap.getElem?_insert_self] at hq
      cases hq
      rfl

end

/-- A dead query stays dead. Once a query was closed through any of its handles, or the store has
another version than the one it was opened on, or the tables were cleared, by a reset or by a
later query, or an operation has reported a fatal failure, every handle of the query gives a
failure and nothing else, whatever was done before and whatever is done then. -/
theorem dead_query_stays_dead {σ₁ σ₂ σ₃ σ₄ σ₅ : Site} {pattern : Triple}
    {handle handle' : Handle} {a : Act} {r : Reply}
    (hfind : σ₁.Does (.find pattern) (.opened (.ok handle)) σ₂)
    (hbetween : σ₂.Runs (fun _ _ => True) σ₃)
    (hdoes : σ₃.Does a r σ₄) (hkills : σ₃.Kills handle.query σ₁.graph.version a r σ₄)
    (hafter : σ₄.Runs (fun _ _ => True) σ₅) (hsame : handle'.query = handle.query) :
    ∃ failure : Failure, failure.Shuts ∧
      (∀ fuel, σ₅.engine.next σ₅.graph.toStore fuel handle' =
        some (.error failure, σ₅.engine)) ∧
      ∀ fuel, σ₅.engine.hasNext σ₅.graph.toStore fuel handle' =
        some (.error failure, σ₅.engine) := by
  have hdead : σ₅.Dead handle.query σ₁.graph.version :=
    (hkills.dead hdoes (hfind.opened.runs hbetween)).runs hafter
  obtain ⟨failure, hshuts, hfill⟩ := hdead.fill
  refine ⟨failure, hshuts, fun fuel => ?_, fun fuel => ?_⟩
  · rw [Engine.next, hsame]
    exact hfill fuel true
  · rw [Engine.hasNext, hsame, hfill fuel false]
    rfl

namespace Roads

/-- The graph after a road was added and deleted again. -/
def restored : Graph := ((graph.add (road "b" "c")).2.delete (road "b" "c")).2

end Roads

/-- The store holds again what it held when the query was opened, and the tables are about it:
the query is dead all the same. -/
theorem dead_query_stays_dead_roads : ∃ failure : Failure, failure.Shuts ∧
    (∀ fuel, (Roads.opened.2.reset Roads.restored.toStore).next Roads.restored.toStore fuel
      Roads.handle = some (.error failure, Roads.opened.2.reset Roads.restored.toStore)) ∧
    ∀ fuel, (Roads.opened.2.reset Roads.restored.toStore).hasNext Roads.restored.toStore fuel
      Roads.handle = some (.error failure, Roads.opened.2.reset Roads.restored.toStore) := by
  have hadd : Site.Does ⟨Roads.graph, Roads.opened.2⟩ (.add (Roads.road "b" "c")) .done
      ⟨(Roads.graph.add (Roads.road "b" "c")).2, Roads.opened.2⟩ := .add
  have hdelete : Site.Does ⟨(Roads.graph.add (Roads.road "b" "c")).2, Roads.opened.2⟩
      (.delete (Roads.road "b" "c")) .done ⟨Roads.restored, Roads.opened.2⟩ := .delete
  have hreset : Site.Does ⟨Roads.restored, Roads.opened.2⟩ .reset .done
      ⟨Roads.restored, Roads.opened.2.reset Roads.restored.toStore⟩ := .reset
  have hafter : Site.Runs (fun _ _ => True)
      ⟨(Roads.graph.add (Roads.road "b" "c")).2, Roads.opened.2⟩
      ⟨Roads.restored, Roads.opened.2.reset Roads.restored.toStore⟩ :=
    .tail (.single ⟨_, _, trivial, hdelete⟩) ⟨_, _, trivial, hreset⟩
  exact dead_query_stays_dead Roads.does_find .refl hadd
    (.changed (by decide +kernel)) hafter rfl

end TabledRules
