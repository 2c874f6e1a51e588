-- Timelines. A history without failures goes on move by move wherever a query
-- looks for an answer, and each reading of a consumer leaves a mark. From the
-- marks it shows that no result is lost, repeated or changed.
import TabledRules.Proofs.Completeness
import TabledRules.Proofs.Readings
import TabledRules.Proofs.TableReaders

namespace TabledRules

/-! ## Timelines -/

/-- What is put down of a history. -/
inductive Mark where
  | read (consumer : Nat) (reading : Session.Reading)
  /-- All tables are thrown away. -/
  | cleared
  /-- A triple is added to the store. -/
  | added (triple : Triple)

/-- A moment of a history: between two acts, or while an act has the query `id` look for its next
answer. -/
inductive Instant where
  | rest (σ : Site)
  | search (σ : Site) (act : Act) (id : Nat) (phase : Phase) (s : Session)

def Instant.session : Instant → Session
  | .rest σ => σ.engine.session
  | .search _ _ _ _ s => s

/-- The consumer that is read with next, if one is. -/
def Instant.reader? : Instant → Option Nat
  | .rest _ => none
  | .search _ _ _ phase _ => phase.reader?

/-- What the reading gives that comes next. -/
def Instant.marks (x : Instant) : List Mark :=
  (x.reader?.map fun c => Mark.read c (x.session.read c).1).toList

/-- The tables are thrown away when the engine is reset, and when a query is opened after the
store has changed. Of changes to the store, only what is added is put down. -/
def Site.marks (σ : Site) : Act → List Mark
  | .reset => [.cleared]
  | .find _ => if σ.engine.session.version = σ.graph.version then [] else [.cleared]
  | .add t => [.added t]
  | _ => []

/-- The act reads the query `id`, which has no answer at hand: its machine has to run. -/
def Site.Asks (σ : Site) (act : Act) (id : Nat) (own : Machine) : Prop :=
  (∃ handle : Handle, handle.query = id ∧ (act = .next handle ∨ act = .hasNext handle)) ∧
  ∃ query : Query, σ.engine.queries[id]? = some query ∧ query.machine = some own ∧
    query.lookahead = none ∧ query.finished = false ∧
    Engine.obstacle σ.graph.toStore σ.engine.session id query = none

/-- How a history without failures goes on, and the marks that this leaves. -/
inductive Instant.Step (R : Registry) : Instant → List Mark → Instant → Prop
  | act {σ σ' : Site} {a : Act} {r : Reply} : σ.Does a r σ' → ¬ r.Failed →
    (∀ id own, ¬ σ.Asks a id own) → Step R (.rest σ) (σ.marks a) (.rest σ')
  | ask {σ : Site} {a : Act} {id : Nat} {own : Machine} : σ.Asks a id own →
    Step R (.rest σ) [] (.search σ a id (.search .backtrack own) σ.engine.session)
  | move {σ : Site} {a : Act} {id : Nat} {phase phase' : Phase} {s s' : Session} :
    Moves (σ.program R) σ.engine.settings id (phase, s) (phase', s') →
    Step R (.search σ a id phase s) (Instant.search σ a id phase s).marks
      (.search σ a id phase' s')
  | answer {σ σ' : Site} {a : Act} {r : Reply} {id : Nat} {found : Option Triple} {own : Machine} :
    σ.Does a r σ' → ¬ r.Failed →
    Step R (.search σ a id (.found found own) σ'.engine.session) [] (.rest σ')

/-- A stretch of a history, with the marks that it has left. -/
inductive Timeline (R : Registry) (x : Instant) : List Mark → Instant → Prop
  | start : Timeline R x [] x
  | step {y z : Instant} {ms ns : List Mark} : Timeline R x ms y → Instant.Step R y ns z →
    Timeline R x (ms ++ ns) z

/-- The results that a consumer has been given. -/
def given (c : Nat) (ms : List Mark) : List Triple :=
  ms.filterMap fun
    | .read d (.result t) => if d = c then some t else none
    | _ => none

theorem given_append (c : Nat) (ms ns : List Mark) :
    given c (ms ++ ns) = given c ms ++ given c ns :=
  List.filterMap_append

theorem given_marks (x : Instant) (c : Nat) : given c x.marks =
    if x.reader? = some c then
      match (x.session.read c).1 with
      | .result t => [t]
      | _ => []
    else [] := by
  unfold Instant.marks
  cases x.reader? with
  | none => rfl
  | some d =>
    simp only [Option.map_some, Option.toList_some, Option.some.injEq, given]
    split
    · next e =>
      subst e
      cases (x.session.read d).1 <;> simp
    · next hne => cases (x.session.read d).1 <;> simp [hne]

/-- The reading is the right one for a consumer of the table that was given some results. -/
def Session.Reading.Follows (gen : Generator) (ts : List Triple) : Session.Reading → Prop
  | .result t => ts ++ [t] <+: gen.results.toList
  | .exhausted => gen.complete = true ∧ ts = gen.results.toList
  | .pending => gen.complete = false ∧ ts = gen.results.toList

/-- The tables last: they grow at their ends only, those that are complete stay as they are, and
consumers read the tables that they have always read, and for the same owners. -/
structure Session.Lasts (s s' : Session) : Prop where
  nextId_le : s.nextId ≤ s'.nextId
  table : ∀ {g : Nat} {gen : Generator}, s.generators[g]? = some gen →
    ∃ gen' : Generator, s'.generators[g]? = some gen' ∧ gen'.goal = gen.goal ∧
      gen.results.toList <+: gen'.results.toList ∧
      (gen.complete = true → gen'.complete = true ∧ gen'.results = gen.results)
  reader : ∀ {c : Nat} {k' : Consumer}, s'.consumers[c]? = some k' → c < s.nextId →
    ∃ k : Consumer, s.consumers[c]? = some k ∧ k.Kin k'

/-- No consumer is left, but there may be new ones. -/
structure Session.Renews (s s' : Session) : Prop where
  nextId_le : s.nextId ≤ s'.nextId
  reader : ∀ {c : Nat} {k' : Consumer}, s'.consumers[c]? = some k' → s.nextId ≤ c ∧ k'.read = 0

section

variable {R : Registry} {s s' s'' : Session} {o : Owner → Prop} {σ σ' : Site} {a : Act} {r : Reply}
  {x y : Instant} {ms ns : List Mark} {reader? : Option Nat}

theorem Session.Lasts.refl (s : Session) : s.Lasts s :=
  ⟨Nat.le_refl _, fun hg => ⟨_, hg, rfl, List.prefix_rfl, fun hc => ⟨hc, rfl⟩⟩,
    fun hk _ => ⟨_, hk, .refl _⟩⟩

theorem Session.Lasts.trans (h : s.Lasts s') (h' : s'.Lasts s'') : s.Lasts s'' := by
  refine ⟨Nat.le_trans h.nextId_le h'.nextId_le, fun hg => ?_, fun hk hlt => ?_⟩
  · obtain ⟨gen1, hg1, e1, hp1, hc1⟩ := h.table hg
    obtain ⟨gen2, hg2, e2, hp2, hc2⟩ := h'.table hg1
    refine ⟨gen2, hg2, e2.trans e1, hp1.trans hp2, fun hc => ?_⟩
    obtain ⟨h1, h2⟩ := hc1 hc
    obtain ⟨h3, h4⟩ := hc2 h1
    exact ⟨h3, h4.trans h2⟩
  · obtain ⟨k1, hk1, e1⟩ := h'.reader hk (Nat.lt_of_lt_of_le hlt h.nextId_le)
    obtain ⟨k2, hk2, e2⟩ := h.reader hk1 hlt
    exact ⟨k2, hk2, e2.trans e1⟩

theorem Session.Hands.reader (h : s.Hands reader? s') {c : Nat} {k' : Consumer}
    (hk : s'.consumers[c]? = some k') (hlt : c < s.nextId) :
    ∃ k : Consumer, s.consumers[c]? = some k ∧ k.Kin k' := by
  cases h with
  | @result d t s1 _ hread hs =>
    obtain ⟨k0, gen, hk0, -, -, rfl⟩ := Session.of_read_result hread
    rcases hs.consumer hk with ⟨k1, hk1, e1, -⟩ | ⟨hle, -⟩
    · rw [Session.consumers_modifyConsumer] at hk1
      split at hk1
      · next e =>
        subst e
        obtain ⟨k, hk2, rfl⟩ := Option.map_eq_some_iff.1 hk1
        exact ⟨k, hk2, e1.generator, e1.owner⟩
      · exact ⟨k1, hk1, e1⟩
    · exact absurd hlt (Nat.not_lt.2 hle)
  | none _ hs =>
    rcases hs.consumer hk with ⟨k, hk0, e, -⟩ | ⟨hle, -⟩
    · exact ⟨k, hk0, e⟩
    · exact absurd hlt (Nat.not_lt.2 hle)

/-- Where at most machines of tables that are not complete have run, the tables last. -/
theorem Session.Spares.lasts (h : s.Spares o s')
    (ho : ∀ g, o (.generator g) → s.Works (.generator g)) (hs : s.Hands reader? s') :
    s.Lasts s' := by
  refine ⟨h.nextId_le, fun {g gen} hg => ?_, hs.reader⟩
  obtain ⟨gen', hg', hfollows⟩ := h.generator hg
  refine ⟨gen', hg', hfollows.goal, hfollows.results, fun hc => ?_⟩
  obtain ⟨gen1, hg1, hsettled⟩ := h.settles ho g gen hg hc
  cases hg'.symm.trans hg1
  exact hsettled

/-! ## Acts -/

/-- Where a query is opened, other machines do not run. -/
theorem Engine.Kept.spares_find {e e' : Engine} {store : Store} {pattern : Triple}
    {handle : Handle} (h : e.Kept R) (hv : e.session.version = store.version)
    (hfind : e.find store pattern = (.ok handle, e')) :
    e.session.Spares (fun x => ∃ q, x = .query q) e'.session ∧ e.session.Unread e'.session := by
  obtain ⟨m, s', -, hstart, rfl⟩ := find_ok hfind
  rw [show e.session.refresh store.version = e.session from if_pos hv] at hstart
  have hnoted := Session.noted_note e.session.openQuery.2 (.queryOpened e.session.nextId pattern)
  obtain ⟨-, -, hspares⟩ := (h.idle.openQuery.noted hnoted).startQuery
    (P := e.program R store) (e.session.works_openQuery pattern) h.idle.wired.owner_ne hstart
  have hs := ((e.session.spares_openQuery _).trans (hnoted.spares _)).trans hspares
  exact ⟨hs.mono fun _ e => ⟨_, e⟩, Session.unread_opened (P := e.program R store) hstart⟩

/-- A query that has an answer at hand, or that has ended, does nothing when it is read. -/
theorem Engine.Kept.fill_idle {e e' : Engine} {store : Store} {fuel id : Nat} {take : Bool}
    {answer : Option Triple} (h : e.Kept R)
    (hfill : e.fill store fuel id take = some (.ok answer, e'))
    (hno : ∀ query own, e.queries[id]? = some query → query.machine = some own →
      query.lookahead = none → query.finished = false →
      Engine.obstacle store e.session id query ≠ none) : e'.session = e.session := by
  obtain ⟨query, found, s', hq, hobstacle, hlooks, -, rfl⟩ := h.fill_ok hfill
  cases hf : query.finished with
  | false =>
    cases hlooks with
    | there => rfl
    | idle => rfl
    | answer hl hm => exact absurd hobstacle (hno _ _ hq hm hl hf)
    | ended hl hm => exact absurd hobstacle (hno _ _ hq hm hl hf)
  | true =>
    unfold Engine.fill Engine.lookAhead at hfill
    simp only [hq, hobstacle, hf, Bool.or_true, if_true] at hfill
    exact congrArg (fun x => x.session) (Prod.mk.inj (Option.some.inj hfill)).2.symm

/-- An act that has no query look for an answer closes or opens a query, or throws all tables away,
or it does nothing but write. -/
theorem Site.Does.idle_cases (h : σ.Does a r σ') (hr : ¬ r.Failed) (hσ : σ.engine.Kept R)
    (hno : ∀ id own, ¬ σ.Asks a id own) :
    (σ.marks a = [] ∨ ∃ t, σ.marks a = [.added t]) ∧
      (σ.engine.session.Noted σ'.engine.session ∨
        ∃ q, σ'.engine.session = σ.engine.session.closeQuery q) ∨
    (∃ pattern handle, a = .find pattern ∧
      σ.engine.find σ.graph.toStore pattern = (.ok handle, σ'.engine)) ∨
    a = .reset ∧ σ'.engine = σ.engine.reset σ.graph.toStore := by
  have same : σ'.engine.session = σ.engine.session →
      σ.engine.session.Noted σ'.engine.session := fun e => e ▸ .refl _
  have close : ∀ (e : Engine) (id : Nat), e.session.Noted (e.closeQuery id).session ∨
      ∃ q, (e.closeQuery id).session = e.session.closeQuery q := fun e id => by
    unfold Engine.closeQuery
    split
    · exact .inl (.refl _)
    · split
      · exact .inl (.refl _)
      · exact .inr ⟨id, rfl⟩
  cases h with
  | @find gr e e' pattern x hfind =>
    cases x with
    | error failure => exact absurd trivial hr
    | ok handle => exact .inr (.inl ⟨pattern, handle, rfl, hfind⟩)
  | @next gr e e' fuel handle x hnext =>
    cases x with
    | error failure => exact absurd trivial hr
    | ok answer =>
      exact .inl ⟨.inl rfl, .inl (same (hσ.fill_idle hnext fun query own h1 h2 h3 h4 h5 =>
        hno handle.query own ⟨⟨handle, rfl, .inl rfl⟩, query, h1, h2, h3, h4, h5⟩))⟩
  | @hasNext gr e e' fuel handle x hnext =>
    obtain ⟨⟨y, e1⟩, hfill, hmap⟩ := Option.map_eq_some_iff.1 hnext
    cases y with
    | error failure =>
      cases hmap
      exact absurd trivial hr
    | ok answer =>
      cases hmap
      exact .inl ⟨.inl rfl, .inl (same (hσ.fill_idle hfill fun query own h1 h2 h3 h4 h5 =>
        hno handle.query own ⟨⟨handle, rfl, .inr rfl⟩, query, h1, h2, h3, h4, h5⟩))⟩
  | close => exact .inl ⟨.inl rfl, close _ _⟩
  | clone => exact .inl ⟨.inl rfl, .inl (same rfl)⟩
  | @drop gr e handle =>
    refine .inl ⟨.inl rfl, ?_⟩
    unfold Engine.drop
    split
    · exact .inl (.refl _)
    · split
      · exact close e handle.query
      · exact .inl (.refl _)
  | reset => exact .inr (.inr ⟨rfl, rfl⟩)
  | nextMessage => exact .inl ⟨.inl rfl, .inl ⟨_, _, rfl⟩⟩
  | @printProfile gr e =>
    obtain ⟨j, hj⟩ := e.printProfile_eq
    refine .inl ⟨.inl rfl, .inl ?_⟩
    rw [hj]
    exact ⟨j, e.session.profile, rfl⟩
  | add => exact .inl ⟨.inr ⟨_, rfl⟩, .inl (same rfl)⟩
  | delete => exact .inl ⟨.inl rfl, .inl (same rfl)⟩

/-- A query that is opened after the store has changed finds no consumer. -/
theorem Engine.renews_find {e e' : Engine} {store : Store} {pattern : Triple} {handle : Handle}
    (hv : e.session.version ≠ store.version) (hfind : e.find store pattern = (.ok handle, e')) :
    e.session.Renews e'.session := by
  obtain ⟨m, s', -, hstart, rfl⟩ := find_ok hfind
  rw [show e.session.refresh store.version = _ from if_neg hv] at hstart
  have hs := Session.unread_opened (P := ⟨⟨[]⟩, e.rules, store⟩) hstart
  refine ⟨hs.nextId_le, fun hk => (hs.consumer hk).resolve_left ?_⟩
  rintro ⟨k, hk0, -⟩
  cases hk0.symm.trans Std.TreeMap.getElem?_emptyc

/-- An act that has no query look for an answer leaves what consumers have read, or it throws all
of them away. -/
theorem Site.Does.lasts (h : σ.Does a r σ') (hr : ¬ r.Failed) (hσ : σ.engine.Kept R)
    (hno : ∀ id own, ¬ σ.Asks a id own) :
    (σ.marks a = [] ∨ ∃ t, σ.marks a = [.added t]) ∧
      σ.engine.session.Unread σ'.engine.session ∧ σ.engine.session.Lasts σ'.engine.session ∨
    σ.marks a = [.cleared] ∧ σ.engine.session.Renews σ'.engine.session := by
  rcases h.idle_cases hr hσ hno with
    ⟨hmarks, hnoted | ⟨q, e⟩⟩ | ⟨pattern, handle, rfl, hfind⟩ | ⟨rfl, e⟩
  · have hlasts := (hnoted.spares fun _ => False).lasts (fun _ e => e.elim) hnoted.unread.hands
    exact .inl ⟨hmarks, hnoted.unread, hlasts⟩
  · rw [e]
    have hunread := σ.engine.session.unread_closeQuery q
    have hlasts := (σ.engine.session.spares_closeQuery q).lasts (fun _ e => by cases e) hunread.hands
    exact .inl ⟨hmarks, hunread, hlasts⟩
  · by_cases hv : σ.engine.session.version = σ.graph.version
    · obtain ⟨h1, h2⟩ := hσ.spares_find hv hfind
      exact .inl ⟨.inl (if_pos hv), h2, h1.lasts (fun g ⟨_, e⟩ => by cases e) h2.hands⟩
    · exact .inr ⟨if_neg hv, Engine.renews_find hv hfind⟩
  · rw [e]
    refine .inr ⟨rfl, Nat.le_refl _, fun hk => ?_⟩
    cases hk.symm.trans Std.TreeMap.getElem?_emptyc

/-! ## What holds at every moment -/

/-- The bookkeeping holds at the moment. -/
def Instant.Kept (R : Registry) : Instant → Prop
  | .rest σ => σ.engine.Kept R ∧ σ.engine.session.Balanced fun _ => False
  | .search σ _ id phase s => (σ.engine.Kept R ∧ σ.engine.session.Balanced fun _ => False) ∧
    phase.Kept id s ∧ s.Balanced phase.Out

theorem Phase.Kept.wired {phase : Phase} {q : Nat} (h : phase.Kept q s) :
    ∃ X, s.Wired X fun _ => False := by
  cases phase with
  | pump => exact ⟨_, h.1.wired⟩
  | search => exact ⟨_, h.1.wired⟩
  | wait => exact ⟨_, h.1.wired⟩
  | agenda => exact ⟨_, h.1.wired⟩
  | returned => exact ⟨_, h.1.wired⟩
  | found => exact ⟨_, h.1.wired⟩

theorem Instant.Kept.wired (h : x.Kept R) : ∃ X, x.session.Wired X fun _ => False := by
  cases x with
  | rest σ => exact ⟨_, h.1.idle.wired⟩
  | search => exact Phase.Kept.wired h.2.1

theorem Instant.Kept.balanced (h : x.Kept R) : ∃ out, x.session.Balanced out := by
  cases x with
  | rest σ => exact ⟨_, h.2⟩
  | search => exact ⟨_, h.2.2⟩

theorem Site.Does.rests (h : σ.Does a r σ') (hr : ¬ r.Failed) (hσ : (Instant.rest σ).Kept R) :
    (Instant.rest σ').Kept R := by
  refine ⟨h.kept hr hσ.1, ?_⟩
  rcases h.engine with hdoes | hsame
  · exact hσ.2.does hσ.1 hdoes hr
  · rw [hsame]
    exact hσ.2

theorem Instant.Step.kept (h : Step R x ns y) (hx : x.Kept R) : y.Kept R := by
  cases h with
  | act hdoes hr => exact hdoes.rests hr hx
  | ask hasks =>
    obtain ⟨-, query, hq, hm, -, -, hobstacle⟩ := hasks
    obtain ⟨-, -, hopen⟩ := of_obstacle hobstacle
    exact ⟨hx, ⟨hx.1.idle, hx.1.asks hq hm hopen⟩, hx.2⟩
  | move hmove => exact ⟨hx.1, (hmove.kept hx.2.1).1, hmove.balanced hx.2.1 hx.2.2⟩
  | answer hdoes hr => exact hdoes.rests hr hx.1

/-- What a step does to consumers shows in the mark that it leaves. -/
theorem Instant.Step.hands (h : Step R x ns y) (hx : x.Kept R) :
    (ns = x.marks ∨ x.reader? = none ∧ ∃ t, ns = [.added t]) ∧
        x.session.Hands x.reader? y.session ∧ x.session.Lasts y.session ∨
      ns = [.cleared] ∧ x.reader? = none ∧ x.session.Renews y.session := by
  cases h with
  | act hdoes hr hno =>
    rcases hdoes.lasts hr hx.1 hno with ⟨h1, h2, h3⟩ | ⟨h1, h2⟩
    · exact .inl ⟨h1.imp_right fun hadded => ⟨rfl, hadded⟩, h2.hands, h3⟩
    · exact .inr ⟨h1, rfl, h2⟩
  | ask => exact .inl ⟨.inl rfl, (Session.Unread.refl _).hands, .refl _⟩
  | @move σ a id phase phase' s s' hmove =>
    exact .inl ⟨.inl rfl, hmove.hands, (hmove.kept hx.2.1).2.lasts (fun _ => Phase.Runs.works) hmove.hands⟩
  | answer => exact .inl ⟨.inl rfl, (Session.Unread.refl _).hands, .refl _⟩

theorem Timeline.kept (h : Timeline R x ms y) (hx : x.Kept R) : y.Kept R := by
  induction h with
  | start => exact hx
  | step _ hstep ih => exact hstep.kept ih

theorem Timeline.lasts (h : Timeline R x ms y) (hx : x.Kept R) (hms : .cleared ∉ ms) :
    x.session.Lasts y.session := by
  induction h with
  | start => exact .refl _
  | step hbefore hstep ih =>
    simp only [List.mem_append, not_or] at hms
    rcases hstep.hands (hbefore.kept hx) with ⟨-, -, h1⟩ | ⟨rfl, -⟩
    · exact (ih hms.1).trans h1
    · exact absurd List.mem_cons_self hms.2

/-! ## What consumers were given -/

/-- Every consumer was given as many results of its table as it has read, from the first on. -/
structure Session.Served (ms : List Mark) (s : Session) : Prop where
  taken : ∀ {c : Nat} {k : Consumer} {gen : Generator}, s.consumers[c]? = some k →
    s.generators[k.generator]? = some gen →
    given c ms <+: gen.results.toList ∧ (given c ms).length = k.read
  fresh : ∀ {c : Nat}, s.nextId ≤ c → given c ms = []

/-- A consumer that is new was given nothing. -/
theorem Session.Served.new (h : s.Served ms) {c : Nat} {k : Consumer} {gen : Generator}
    (hns : given c ns = []) (hle : s.nextId ≤ c) (hk : k.read = 0) :
    given c (ms ++ ns) <+: gen.results.toList ∧ (given c (ms ++ ns)).length = k.read := by
  rw [given_append, hns, h.fresh hle, hk]
  exact ⟨List.nil_prefix, rfl⟩

theorem Session.Served.renew (h : s.Served ms) (hs : s.Renews s')
    (hns : ∀ c, given c ns = []) : s'.Served (ms ++ ns) := by
  refine ⟨fun hk _ => ?_, fun hle => ?_⟩
  · obtain ⟨hle, e⟩ := hs.reader hk
    exact h.new (hns _) hle e
  · rw [given_append, hns, h.fresh (Nat.le_trans hs.nextId_le hle)]
    rfl

/-- The table of a consumer lasts. -/
theorem Session.Lasts.behind (h : s.Lasts s') {X D : Nat → Prop} (hw : s.Wired X D) {c : Nat}
    {k : Consumer} {gen' : Generator} (hk : s.consumers[c]? = some k)
    (hgen' : s'.generators[k.generator]? = some gen') : ∃ gen : Generator,
      s.generators[k.generator]? = some gen ∧ gen.results.toList <+: gen'.results.toList := by
  obtain ⟨gen, hgen, -⟩ := hw.reader hk
  obtain ⟨gen1, hgen1, -, hprefix, -⟩ := h.table hgen
  cases hgen'.symm.trans hgen1
  exact ⟨gen, hgen, hprefix⟩

theorem Session.Served.hands (h : s.Served ms) {X D : Nat → Prop} (hw : s.Wired X D)
    (hs : s.Hands reader? s') (hlasts : s.Lasts s')
    (hns : ∀ c, given c ns = if reader? = some c then
        match (s.read c).1 with
        | .result t => [t]
        | _ => []
      else []) : s'.Served (ms ++ ns) := by
  -- a consumer that is given nothing stays where it is
  have idle : ∀ {c : Nat} {k k' : Consumer} {gen' : Generator}, s.consumers[c]? = some k →
      k.Kin k' → k'.read = k.read → given c ns = [] →
      s'.generators[k'.generator]? = some gen' →
      given c (ms ++ ns) <+: gen'.results.toList ∧ (given c (ms ++ ns)).length = k'.read := by
    intro c k k' gen' hk e1 e2 hnone hgen'
    obtain ⟨gen, hgen, hprefix⟩ := hlasts.behind hw hk (e1.generator ▸ hgen')
    obtain ⟨h1, h2⟩ := h.taken hk hgen
    rw [given_append, hnone, List.append_nil, e2]
    exact ⟨h1.trans hprefix, h2⟩
  cases hs with
  | @result d t s1 hd hread hs =>
    obtain ⟨k0, gen0, hk0, hgen0, ht, rfl⟩ := Session.of_read_result hread
    have hdt : given d ns = [t] := by
      rw [hns, if_pos hd, hread]
    have other : ∀ {c : Nat}, d ≠ c → given c ns = [] := fun hne => by
      rw [hns, if_neg fun e => hne (Option.some.inj (hd.symm.trans e))]
    have old : ∀ {c : Nat}, s.nextId ≤ c → d ≠ c := fun hle =>
      Nat.ne_of_lt (Nat.lt_of_lt_of_le (hw.consumer_lt hk0) hle)
    refine ⟨fun {c k' gen'} hk' hgen' => ?_, fun {c} hle => ?_⟩
    · rcases hs.consumer hk' with ⟨k1, hk1, e1, e2⟩ | ⟨hle, e⟩
      · rw [Session.consumers_modifyConsumer] at hk1
        split at hk1
        · next e =>
          subst e
          rw [hk0] at hk1
          cases hk1
          obtain ⟨gen, hgen, hprefix⟩ := hlasts.behind hw hk0 (e1.generator ▸ hgen')
          cases hgen0.symm.trans hgen
          obtain ⟨h1, h2⟩ := h.taken hk0 hgen0
          rw [given_append, hdt, e2]
          exact ⟨(prefix_of_get? h1 (h2 ▸ ht)).trans hprefix, by simp [h2]⟩
        · next hne => exact idle hk1 e1 e2 (other hne) hgen'
      · exact h.new (other (old hle)) hle e
    · have hle := Nat.le_trans hlasts.nextId_le hle
      rw [given_append, other (old hle), h.fresh hle]
      rfl
  | none hno hs =>
    have nothing : ∀ c, given c ns = [] := fun c => by
      rw [hns]
      split
      · next hc =>
        cases hr : (s.read c).1 with
        | result t => exact absurd hr (hno c t hc)
        | _ => rfl
      · rfl
    refine ⟨fun {c k' gen'} hk' hgen' => ?_, fun {c} hle => ?_⟩
    · rcases hs.consumer hk' with ⟨k, hk, e1, e2⟩ | ⟨hle, e⟩
      · exact idle hk e1 e2 (nothing c) hgen'
      · exact h.new (nothing c) hle e
    · rw [given_append, nothing, h.fresh (Nat.le_trans hlasts.nextId_le hle)]
      rfl

theorem Timeline.served (h : Timeline R x ms y) (hx : x.Kept R) (hs : x.session.Served []) :
    y.session.Served ms := by
  induction h with
  | start => exact hs
  | @step y z ms ns hbefore hstep ih =>
    have hy := hbefore.kept hx
    obtain ⟨X, hw⟩ := hy.wired
    rcases hstep.hands hy with ⟨rfl | ⟨hnone, t, rfl⟩, h1, h2⟩ | ⟨rfl, -, h1⟩
    · exact ih.hands hw h1 h2 (given_marks y)
    · exact ih.hands hw h1 h2 fun c => by simp [hnone, given]
    · exact ih.renew h1 fun _ => rfl

/-- A consumer that is read with is there. -/
theorem Instant.Kept.reads (h : x.Kept R) {c : Nat} (hc : x.reader? = some c) :
    ∃ k : Consumer, x.session.consumers[c]? = some k := by
  have tied : ∀ {m : Machine} {control : Control} {s : Session}, m.Tied s →
      m.reader? control = some c → ∃ k : Consumer, s.consumers[c]? = some k := by
    intro m control s ht hc
    cases control with
    | run => cases hc
    | backtrack =>
      obtain ⟨choice, hchoice, hconsumer⟩ := Option.bind_eq_some_iff.1 hc
      obtain ⟨k, hk, -⟩ := ht.reads c
        (List.mem_filterMap.2 ⟨choice, List.mem_of_head? hchoice, hconsumer⟩)
      exact ⟨k, hk⟩
  cases x with
  | rest => cases hc
  | search σ a id phase s =>
    cases phase with
    | search control m => exact tied h.2.1.2.tied hc
    | pump batch g added control m own => exact tied h.2.1.1.tied hc
    | wait => cases hc
    | agenda => cases hc
    | returned => cases hc
    | found => cases hc

/-- What a consumer is told comes next after what it was given. -/
theorem Session.Served.follows (h : s.Served ms) {c : Nat} {k : Consumer} {gen : Generator}
    (hk : s.consumers[c]? = some k) (hgen : s.generators[k.generator]? = some gen) :
    (s.read c).1.Follows gen (given c ms) := by
  obtain ⟨h1, h2⟩ := h.taken hk hgen
  unfold Session.read
  simp only [hk, hgen]
  cases ht : gen.results.get? k.read with
  | some t => exact prefix_of_get? h1 (h2 ▸ ht)
  | none =>
    have hall := eq_of_get?_eq_none h1 (h2 ▸ ht)
    cases hcomp : gen.complete with
    | true => exact ⟨hcomp, hall.symm⟩
    | false => exact ⟨hcomp, hall.symm⟩

/-! ## Histories are timelines -/

theorem Timeline.single (h : Instant.Step R x ms y) : Timeline R x ms y := .step .start h

theorem Timeline.trans {z : Instant} (h : Timeline R x ms y) (h' : Timeline R y ns z) :
    Timeline R x (ms ++ ns) z := by
  induction h' with
  | start =>
    rw [List.append_nil]
    exact h
  | step _ hstep ih =>
    rw [← List.append_assoc]
    exact .step ih hstep

theorem MovesTo.timeline {id : Nat} {phase phase' : Phase}
    (h : MovesTo (σ.program R) σ.engine.settings id (phase, s) (phase', s')) :
    ∃ ms, Timeline R (.search σ a id phase s) ms (.search σ a id phase' s') := by
  generalize hz : (phase', s') = z at h
  induction h generalizing phase' s' with
  | refl =>
    cases hz
    exact ⟨[], .start⟩
  | @tail y z _ hmove ih =>
    obtain ⟨phase1, s1⟩ := y
    subst hz
    obtain ⟨ms, hms⟩ := ih rfl
    exact ⟨_, .step hms (.move hmove)⟩

/-- An answer that is not at hand is found by moves. -/
theorem Engine.Kept.fill_moves {e e' : Engine} {store : Store} {fuel id : Nat} {take : Bool}
    {answer : Option Triple} {query : Query} {own : Machine} (h : e.Kept R)
    (hfill : e.fill store fuel id take = some (.ok answer, e')) (hq : e.queries[id]? = some query)
    (hm : query.machine = some own) (hl : query.lookahead = none) (hf : query.finished = false) :
    ∃ (found : Option Triple) (own' : Machine), MovesTo (e.program R store) e.settings id
      (.search .backtrack own, e.session) (.found found own', e'.session) := by
  obtain ⟨query', found, s', hq', -, hlooks, -, rfl⟩ := h.fill_ok hfill
  cases hq.symm.trans hq'
  cases hlooks with
  | there hthere => simp [hl, hf] at hthere
  | idle _ hnone => cases hm.symm.trans hnone
  | answer _ hm' hmoves =>
    cases hm.symm.trans hm'
    exact ⟨_, _, hmoves⟩
  | ended _ hm' hmoves =>
    cases hm.symm.trans hm'
    exact ⟨_, _, hmoves⟩

/-- An act that does not fail is a step, or it goes from step to step. -/
theorem Site.Does.timeline (h : σ.Does a r σ') (hr : ¬ r.Failed) (hσ : σ.engine.Kept R) :
    ∃ ms, Timeline R (.rest σ) ms (.rest σ') := by
  by_cases hasks : ∃ id own, σ.Asks a id own
  · obtain ⟨id, own, hasks⟩ := hasks
    have hasks' := hasks
    obtain ⟨⟨handle, rfl, hact⟩, query, hq, hm, hl, hf, -⟩ := hasks'
    obtain ⟨found, own', hmoves⟩ : ∃ (found : Option Triple) (own' : Machine),
        MovesTo (σ.program R) σ.engine.settings handle.query
          (.search .backtrack own, σ.engine.session) (.found found own', σ'.engine.session) := by
      rcases hact with rfl | rfl
      · cases h with
        | @next gr e e' fuel _ x hnext =>
          cases x with
          | error failure => exact absurd trivial hr
          | ok answer => exact hσ.fill_moves hnext hq hm hl hf
      · cases h with
        | @hasNext gr e e' fuel _ x hnext =>
          obtain ⟨⟨y, e1⟩, hfill, hmap⟩ := Option.map_eq_some_iff.1 hnext
          cases y with
          | error failure =>
            cases hmap
            exact absurd trivial hr
          | ok answer =>
            cases hmap
            exact hσ.fill_moves hfill hq hm hl hf
    obtain ⟨ms, hms⟩ := hmoves.timeline
    exact ⟨_, .step (Timeline.trans (.single (.ask hasks)) hms) (.answer h hr)⟩
  · simp only [not_exists] at hasks
    exact ⟨_, .single (.act h hr hasks)⟩

theorem Site.Runs.timeline {ok : Act → Reply → Prop} (h : σ.Runs ok σ')
    (hok : ∀ a r, ok a r → ¬ r.Failed) (hσ : σ.engine.Kept R) :
    ∃ ms, Timeline R (.rest σ) ms (.rest σ') := by
  induction h with
  | refl => exact ⟨[], .start⟩
  | tail hbefore hstep ih =>
    obtain ⟨ms, hms⟩ := ih
    obtain ⟨a, r, hr, hdoes⟩ := hstep
    obtain ⟨ns, hns⟩ := hdoes.timeline (hok a r hr) (Site.Runs.kept hbefore hok hσ)
    exact ⟨_, hms.trans hns⟩

end

/-- No result is lost, repeated or changed. Every history without failures is a timeline, and at
every moment of a timeline no table has a result twice; until the tables are thrown away they grow
at their ends only, and those that are complete stay as they are; every consumer was given the
results of its table one by one from the first on; and where a consumer is read with, it is given
the next result, or it is told that there will be no more when the table is complete and all its
results have been given to it, or it has to wait when they have and the table is not complete. -/
theorem results_in_order {R : Registry} {rules : RuleSet} {base : RuleBase} {graph : Graph}
    {st : Settings} (hbase : rules.compile R = .ok base) :
    (∀ σ, (Site.new graph base st).Runs (fun _ r => ¬ r.Failed) σ →
      ∃ ms, Timeline R (.rest (Site.new graph base st)) ms (.rest σ)) ∧
    ∀ ms x, Timeline R (.rest (Site.new graph base st)) ms x →
      (∀ (g : Nat) (gen : Generator), x.session.generators[g]? = some gen →
        gen.results.toList.Nodup) ∧
      (∀ ns y, Timeline R x ns y → .cleared ∉ ns → x.session.Lasts y.session) ∧
      (∀ (c : Nat) (k : Consumer), x.session.consumers[c]? = some k → ∃ gen : Generator,
        x.session.generators[k.generator]? = some gen ∧ given c ms <+: gen.results.toList ∧
          (given c ms).length = k.read) ∧
      ∀ ns y c r, Instant.Step R x ns y → .read c r ∈ ns → ∃ (k : Consumer) (gen : Generator),
        x.session.consumers[c]? = some k ∧ x.session.generators[k.generator]? = some gen ∧
          r.Follows gen (given c ms) := by
  have hnew : (Instant.rest (Site.new graph base st)).Kept R :=
    ⟨Engine.new_kept hbase graph st, .of_empty rfl rfl⟩
  have hempty : (Instant.rest (Site.new graph base st)).session.Served [] := by
    refine ⟨fun hk => ?_, fun _ => rfl⟩
    cases hk.symm.trans Std.TreeMap.getElem?_emptyc
  refine ⟨fun σ hruns => hruns.timeline (fun _ _ => id) hnew.1, fun ms x hx => ?_⟩
  have hkept := hx.kept hnew
  have hserved := hx.served hnew hempty
  obtain ⟨X, hw⟩ := hkept.wired
  obtain ⟨out, hb⟩ := hkept.balanced
  refine ⟨fun g gen hgen => hb.filed.results hgen, fun ns y hy hns => hy.lasts hkept hns,
    fun c k hk => ?_, fun ns y c r hstep hr => ?_⟩
  · obtain ⟨gen, hgen, -⟩ := hw.reader hk
    exact ⟨gen, hgen, hserved.taken hk hgen⟩
  · rcases hstep.hands hkept with ⟨rfl | ⟨-, t, rfl⟩, -⟩ | ⟨rfl, -⟩
    · obtain ⟨d, hd, he⟩ := Option.map_eq_some_iff.1 (Option.mem_toList.1 hr)
      obtain ⟨rfl, rfl⟩ := Mark.read.inj he
      obtain ⟨k, hk⟩ := hkept.reads hd
      obtain ⟨gen, hgen, -⟩ := hw.reader hk
      exact ⟨k, gen, hk, hgen, hserved.follows hk hgen⟩
    · cases List.mem_singleton.1 hr
    · cases List.mem_singleton.1 hr

namespace Roads

theorem runs_readings {n : Nat} {xs : List (Option Triple)} {e : Engine}
    (h : readings n = some (xs, e)) :
    (Site.new graph base {}).Runs (fun _ r => ¬ r.Failed) ⟨graph, e⟩ := by
  induction n generalizing xs e with
  | zero =>
    cases h
    exact .tail .refl ⟨_, _, id, does_find⟩
  | succ n ih =>
    obtain ⟨ys, x, e', hbefore, -, hdoes⟩ := does_readings h
    exact (ih hbefore).tail ⟨_, _, id, hdoes⟩

/-- What the consumer of the query has read after two answers, and what its table has then. -/
theorem reader_readings : (readings 2).map (fun p => (p.2.session.consumers[3]?).bind fun k =>
    (p.2.session.generators[k.generator]?).map fun gen => (k.read, gen.results.toList)) =
      some (some (2, answers)) := by
  decide +kernel

end Roads

/-- Over a cycle of roads the consumer of the query was given both answers, in the order of the
table. -/
theorem results_in_order_roads : ∃ ms σ,
    Timeline Builtin.standard (.rest (Site.new Roads.graph Roads.base {})) ms (.rest σ) ∧
    given 3 ms = Roads.answers ∧ Roads.answers.Nodup := by
  obtain ⟨⟨xs, e⟩, hread, h⟩ := Option.map_eq_some_iff.1 Roads.reader_readings
  obtain ⟨k, hk, h⟩ := Option.bind_eq_some_iff.1 h
  obtain ⟨gen, hgen, h⟩ := Option.map_eq_some_iff.1 h
  obtain ⟨hcount, hresults⟩ := Prod.mk.inj h
  obtain ⟨histories, moments⟩ :=
    @results_in_order _ _ _ Roads.graph {} Roads.compile_rules
  obtain ⟨ms, hms⟩ := histories _ (Roads.runs_readings hread)
  obtain ⟨nodup, -, taken, -⟩ := moments ms _ hms
  obtain ⟨gen', hgen', hprefix, hlength⟩ := taken 3 k hk
  cases hgen.symm.trans hgen'
  refine ⟨ms, _, hms, ?_, hresults ▸ nodup _ gen hgen⟩
  rw [← hresults]
  exact hprefix.eq_of_length (by rw [hlength, hcount, hresults]; rfl)

end TabledRules
