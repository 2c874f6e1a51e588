-- The bookkeeping between the runs of generators: what is written down twice
-- agrees, complete tables are at rest, and tables that are not complete and
-- have run wait for something.
import TabledRules.Proofs.Enrolment
import TabledRules.Proofs.ExactCompletion

namespace TabledRules

namespace Session

/-! ## Tables that are not complete -/

/-- Every generator that has run, is not complete and not in `out` has a consumer that waits. -/
structure Busy (out : Nat → Prop) (s : Session) : Prop where
  waits : ∀ {g : Nat} {gen : Generator}, s.generators[g]? = some gen → gen.complete = false →
    gen.ready = false → ¬ out g → ∃ (c : Nat) (k : Consumer), s.consumers[c]? = some k ∧
      k.owner = .generator g ∧ k.suspended = true

/-- Goals, lists and consumers agree, and the generators that are not in `out` have something
to wait for. -/
structure Balanced (out : Nat → Prop) (s : Session) : Prop where
  filed : s.Filed
  enrolled : s.Enrolled
  busy : s.Busy out

variable {out : Nat → Prop} {o : Owner → Prop} {s s' : Session} {g : Nat}

theorem Busy.mono {out' : Nat → Prop} (h : s.Busy out) (ho : ∀ g, out g → out' g) : s.Busy out' :=
  ⟨fun hg hinc hrun hout => h.waits hg hinc hrun fun hg' => hout (ho _ hg')⟩

theorem Balanced.mono {out' : Nat → Prop} (h : s.Balanced out) (ho : ∀ g, out g → out' g) :
    s.Balanced out' :=
  { h with busy := h.busy.mono ho }

/-- What other generators wait for is spared. -/
theorem Busy.spares (h : s.Busy out) (hs : s.Spares o s') (ho : ∀ g, o (.generator g) → out g)
    (hnew : ∀ {g : Nat} {gen' : Generator}, s'.generators[g]? = some gen' →
      s.generators[g]? = none → gen'.ready = true) : s'.Busy out := by
  refine ⟨fun {g gen'} hg hinc hrun hout => ?_⟩
  cases hold : s.generators[g]? with
  | none =>
    rw [hnew hg hold] at hrun
    cases hrun
  | some gen =>
    obtain ⟨gen1, hg1, hfollows⟩ := hs.generator hold
    cases hg.symm.trans hg1
    obtain ⟨-, hcomp | ⟨-, hready⟩⟩ := hfollows.idle fun hg' => hout (ho g hg')
    · rw [hinc] at hcomp
      cases hcomp
    · have hinc0 : gen.complete = false := by
        cases hc : gen.complete with
        | false => rfl
        | true => exact (hinc.symm.trans (hfollows.complete hc)).symm
      obtain ⟨c, k, hk, hown, hsusp⟩ := h.waits hold hinc0 (hready.symm.trans hrun) hout
      rcases hs.consumer hk fun hk' => hout (ho g (hown ▸ hk')) with hdone | ⟨k', hk', hsame⟩
      · rw [hown] at hdone
        obtain ⟨gen2, hg2, hc⟩ := hdone
        cases hg.symm.trans hg2
        rw [hinc] at hc
        cases hc
      · exact ⟨c, k', hk', hsame.owner.trans hown, hsame.suspended.trans hsusp⟩

/-- No table is new. -/
theorem Balanced.spares (h : s.Balanced out) (hs : s.Spares o s')
    (ho : ∀ g, o (.generator g) → out g) (hsame : s.SameTables s') (he : s'.Enrolled) :
    s'.Balanced out := by
  refine ⟨h.filed.spares hs hsame, he, h.busy.spares hs ho fun hg hnone => ?_⟩
  obtain ⟨gen, hgen, -⟩ := hsame.generator hg
  rw [hnone] at hgen
  cases hgen

theorem Balanced.congr (h : s.Balanced out) (hgoals : s'.goals = s.goals)
    (hgen : s'.generators = s.generators) (hcons : s'.consumers = s.consumers) :
    s'.Balanced out := by
  refine ⟨h.filed.of_same hgoals hgen, h.enrolled.congr hgen hcons, ⟨?_⟩⟩
  simp only [hgen, hcons]
  exact h.busy.waits

theorem Balanced.noted (h : s.Balanced out) (hs : s.Noted s') : s'.Balanced out := by
  obtain ⟨j, p, rfl⟩ := hs
  exact h.congr rfl rfl rfl

theorem Balanced.of_empty (hgoals : s.goals = {}) (hgen : s.generators = ∅) : s.Balanced out := by
  refine ⟨.of_empty hgen hgoals, .of_empty hgen, ⟨fun hg => ?_⟩⟩
  rw [hgen] at hg
  cases hg.symm.trans Std.TreeMap.getElem?_emptyc

theorem Balanced.completeAll (h : s.Balanced out) (event : Triple → Nat → Event)
    (gs : List Nat) : (gs.foldl (complete event) s).Balanced out :=
  h.spares (spares_completeAll event gs s fun _ => False) (fun _ e => e.elim)
    (.foldl (fun s g => s.sameTables_complete event g) gs s) (h.enrolled.completeAll event gs)

theorem Balanced.checkCompletion (h : s.Balanced out) (roots : List Nat) :
    (s.checkCompletion roots).Balanced out :=
  h.completeAll _ _

theorem Balanced.endBatch (h : s.Balanced out) (size : Nat) (batch : List Nat) :
    (s.endBatch size batch).2.Balanced out := by
  unfold Session.endBatch
  split
  · exact h.checkCompletion batch
  · exact h

theorem Balanced.dismissed (h : s.Balanced out) (q : Nat) : (s.dismissed q).Balanced out := by
  refine h.spares (s.spares_dismissed q) (fun g e => by cases e) ?_ (h.enrolled.dismissed q)
  exact (SameTables.foldl (fun s (a : Nat × Consumer) => s.sameTables_removeConsumer a.1) _ s).trans
    (sameTables_queries _ _)

theorem Balanced.closeQuery (h : s.Balanced out) (q : Nat) : (s.closeQuery q).Balanced out :=
  h.spares (s.spares_closeQuery q) (fun g e => by cases e) (s.sameTables_closeQuery q)
    (h.enrolled.closeQuery q)

/-! ## Runs of generators -/

/-- The generator whose machine is out gets a result that is new. -/
theorem Balanced.push (h : s.Balanced (· = g)) {gen : Generator}
    (hgen : s.generators[g]? = some gen) {t : Triple} (hnew : gen.isNew t = true) :
    (s.modifyGenerator g fun gen => { gen with results := gen.results.push t }).Balanced (· = g) := by
  refine ⟨h.filed.push hgen hnew, h.enrolled.push g t, h.busy.spares (s.spares_result g t)
    (fun g' e => by cases e; rfl) fun {g' gen'} hg' hnone => ?_⟩
  rw [generators_modifyGenerator] at hg'
  split at hg'
  · next e =>
    subst e
    rw [hnone] at hg'
    cases hg'
  · rw [hnone] at hg'
    cases hg'

end Session

section

variable {P : Program} {st : Settings} {q g added : Nat} {s s' : Session} {m m' own : Machine}
  {out : Nat → Prop} {control : Control} {p : Progress} {X D : Nat → Prop}

theorem Effect.balanced (h : Effect P st m s m' s') (hs : s.Wired X D) (ht : m.Tied s)
    (hw : s.Works m.owner) (hb : s.Balanced out) (ho : ∀ g, m.owner = .generator g → out g) :
    s'.Balanced out := by
  have hspares := h.spares (o := fun x => x = m.owner) hs ht rfl
  have hbusy : s'.Busy out := by
    refine hb.busy.spares hspares (fun g e => ho g e.symm) fun hg hnone => ?_
    rcases (h.extends hs).look hg with ⟨gen, hgen, -⟩ | ⟨-, m0, -, e⟩
    · rw [hnone] at hgen
      cases hgen
    · rw [e]
  cases h with
  | quiet _ _ hnoted => exact hb.noted hnoted
  | @table value g s1 hg _ _ e =>
    have h1 : s1.Filed ∧ s1.Enrolled := by
      rcases generatorFor_cases hg with ⟨_, _, -, -, rfl⟩ | ⟨-, e, hx, -⟩ | ⟨m0, hnone, -, -, rfl⟩
      · exact ⟨hb.filed, hb.enrolled⟩
      · cases hx
      · exact ⟨hb.filed.withGenerator hs hnone m0, hb.enrolled.withGenerator hs _ m0⟩
    have hs1 := (hs.generatorFor hg).1
    subst e
    exact ⟨h1.1.addConsumer g m.owner, h1.2.addConsumer hs1 g m.owner, hbusy⟩
  | @read c t _ _ _ hread =>
    have hsame := s.sameTables_read c
    have he := hb.enrolled.read_next c
    rw [hread] at hsame he
    exact ⟨hb.filed.spares hspares hsame, he, hbusy⟩
  | exhausted _ _ _ hnoted =>
    exact ⟨hb.filed.spares hspares ((s.sameTables_removeConsumer _).trans hnoted.sameTables),
      (hb.enrolled.removeConsumer _).noted hnoted, hbusy⟩
  | @park c x hc _ _ _ hnoted =>
    obtain ⟨k, hk, hown, -⟩ := ht.reads c (by rw [hc]; exact List.mem_cons_self)
    have he := hb.enrolled.block hk (hown ▸ hw)
    rw [hown] at he
    exact ⟨hb.filed.spares hspares ((s.sameTables_block _ _).trans hnoted.sameTables),
      he.noted hnoted, hbusy⟩

theorem Turn.asks_balanced (h : Turn P st control m s p m' s') (hp : ∀ e, p ≠ .done (.error e))
    (hs : s.Idle) (hm : m.Asks q s) (hb : s.Balanced fun _ => False) :
    s'.Balanced fun _ => False :=
  (h.effect hp).2.balanced hs.wired hm.tied (hm.owner ▸ hm.works) hb fun g e => by
    rw [hm.owner] at e
    cases e

theorem Turn.pumps_balanced (h : Turn P st control m s p m' s') (hp : ∀ e, p ≠ .done (.error e))
    (hm : m.Pumps g added s) (hb : s.Balanced (· = g)) : s'.Balanced (· = g) :=
  (h.effect hp).2.balanced hm.wired hm.tied (hm.owner ▸ hm.works) hb fun g' e => by
    rw [hm.owner] at e
    cases e
    rfl

theorem Session.Filed.endPump (h : s.Filed) (g n : Nat) (m : Machine) : (s.endPump g n m).Filed := by
  unfold Session.endPump
  split
  · exact h
  · have hback : (s.modifyGenerator g fun gen => { gen with machine := some m }).Filed := by
      refine h.congr rfl (fun hg => ?_) (fun {g' gen'} hg => ?_)
      · obtain ⟨gen', hgen', ⟨-, rfl⟩ | rfl⟩ := s.find_modifyGenerator g
          (fun gen => { gen with machine := some m }) hg
        · exact ⟨_, hgen', rfl⟩
        · exact ⟨_, hgen', rfl⟩
      · rw [Session.generators_modifyGenerator] at hg
        split at hg
        · next e =>
          subst e
          obtain ⟨gen0, hgen0, rfl⟩ := Option.map_eq_some_iff.1 hg
          exact ⟨gen0, hgen0, rfl, rfl⟩
        · exact ⟨gen', hg, rfl, rfl⟩
    exact hback.of_same rfl rfl

theorem Session.consumers_endPump (s : Session) (g n : Nat) (m : Machine) :
    (s.endPump g n m).consumers = s.consumers := by
  unfold Session.endPump
  split <;> rfl

/-- A machine is put back. Its generator is complete then, or its machine has a consumer that
waits. -/
theorem Session.Balanced.settled (hb : s.Balanced (· = g)) (hm : m.Pumps g added s)
    {finished : Bool} (hstack : finished = false → m.stack = [])
    (hwaits : finished = false → ∃ gen : Generator, s.generators[g]? = some gen ∧
      gen.generating ≠ []) :
    ((s.endPump g added m).settle g finished added).Balanced fun _ => False := by
  have hidle := hm.settled hstack
  have hback := s.spares_endPump g added m
  have hsame := (s.endPump g added m).sameTables_settle g finished added
  have hspares : ∀ o, (s.endPump g added m).Spares o
      ((s.endPump g added m).settle g finished added) :=
    fun o => (s.endPump g added m).spares_settle g finished added o
  have hwork := (hm.endPump added).1.works
  have hout : (s.endPump g added m).Busy (· = g) := by
    refine hb.busy.spares hback (fun g' e => by cases e; rfl) fun {g' gen'} hg hnone => ?_
    unfold Session.endPump at hg
    split at hg
    · rw [hnone] at hg
      cases hg
    · change (s.modifyGenerator g _).generators[g']? = _ at hg
      rw [Session.generators_modifyGenerator] at hg
      split at hg
      · next e =>
        subst e
        rw [hnone] at hg
        cases hg
      · rw [hnone] at hg
        cases hg
  refine ⟨(hb.filed.endPump g added m).spares (hspares fun _ => False) hsame,
    (hb.enrolled.endPump hm.works added m).settle g finished added,
    ⟨fun {g' gen'} hg hinc hrun _ => ?_⟩⟩
  by_cases e : g' = g
  · subst e
    cases finished with
    | true =>
      obtain ⟨gen1, hgen1, -⟩ := hwork
      obtain ⟨gen2, hgen2, hc⟩ := Session.done_complete .generatorComplete hgen1
      cases hg.symm.trans hgen2
      rw [hinc] at hc
      cases hc
    | false =>
      -- what waited when the machine ran dry waits still
      obtain ⟨gen, hgen, hne⟩ := hwaits rfl
      obtain ⟨c, hc⟩ := List.exists_mem_of_ne_nil _ hne
      obtain ⟨k, hk, hown⟩ := hb.enrolled.worker hgen hc
      rw [← s.consumers_endPump g' added m] at hk
      rcases (hspares fun _ => False).consumer hk id with hdone | ⟨k', hk', hk2⟩
      · rw [hown] at hdone
        obtain ⟨gen2, hgen2, hcomp⟩ := hdone
        cases hg.symm.trans hgen2
        rw [hinc] at hcomp
        cases hcomp
      · have hown' := hk2.owner.trans hown
        exact ⟨c, k', hk', hown', hidle.suspended hk' hown'⟩
  · refine (hout.spares (hspares fun _ => False) (fun _ e => e.elim) fun hg hnone => ?_).waits
      hg hinc hrun e
    obtain ⟨gen, hgen, -⟩ := hsame.generator hg
    rw [hnone] at hgen
    cases hgen

theorem Ends.balanced {finished : Bool} {n : Nat} (h : Ends P st g added control m s finished n m' s')
    (hm : m.Pumps g added s) (hb : s.Balanced (· = g)) : s'.Balanced (· = g) ∧
      (finished = false → ∃ gen : Generator, s'.generators[g]? = some gen ∧
        gen.generating ≠ []) := by
  obtain ⟨gen, hgen, -⟩ := (h.pumps hm).1.works
  cases h with
  | dry hturn =>
    refine ⟨hturn.pumps_balanced (by simp) hm hb, fun e => ⟨gen, hgen, fun hnil => ?_⟩⟩
    simp [hgen, hnil] at e
  | single hturn hnoted hgen' hnew =>
    exact ⟨((hturn.pumps_balanced (by simp) hm hb).noted hnoted).push hgen' hnew,
      fun e => by cases e⟩
  | gone hturn hnoted =>
    exact ⟨(hturn.pumps_balanced (by simp) hm hb).noted hnoted, fun e => by cases e⟩

/-- A machine is taken out to run. -/
theorem Session.Balanced.takeOut (hb : s.Balanced fun _ => False) (hs : s.Idle) {task : Task}
    {agenda : Queue Task} {resume : Option Nat} {s1 : Session} {gen : Generator}
    (hpop : s.agenda.pop? = some (task, agenda))
    (htake : ({ s with agenda } : Session).takeUp task = (some (g, resume), s1))
    (hgen : s1.generators[g]? = some gen) (hinc : gen.complete = false)
    (hm : gen.machine = some m)
    (hr : m.resumed resume ((s1.prepared g resume).modifyGenerator g
      fun gen => { gen with machine := none }) = (.ok (), m', s')) :
    s'.Balanced (· = g) := by
  obtain ⟨-, hspares⟩ := hs.takeOut hpop htake hgen hinc hm hr
  have hout : ((s1.prepared g resume).modifyGenerator g
      fun gen => { gen with machine := none }).Enrolled := by
    have hpopped : ({ s with agenda } : Session).Enrolled := hb.enrolled.congr rfl rfl
    exact ((hpopped.takeUp htake).prepared g resume).out g
  have hsame : s.SameTables ((s1.prepared g resume).modifyGenerator g
      fun gen => { gen with machine := none }) := by
    have h1 := (s.sameTables_agenda agenda).trans
      (Session.sameTables_takeUp { s with agenda } task)
    rw [htake] at h1
    exact (h1.trans (s1.sameTables_prepared g resume)).trans
      (Session.sameTables_modifyGenerator _ g fun _ => ⟨rfl, rfl, .inr rfl⟩)
  have hnoted : (((s1.prepared g resume).modifyGenerator g
      fun gen => { gen with machine := none }).released resume).Noted s' := by
    cases resume with
    | none =>
      cases hr
      exact .refl _
    | some c =>
      obtain ⟨x, -, -, hnoted, -⟩ := restore_eq hr
      exact hnoted
  exact (hb.mono fun _ e => e.elim).spares hspares (fun g' e => by cases e; rfl)
    ((hsame.trans (Session.sameTables_released _ resume)).trans hnoted.sameTables)
    ((hout.released resume).noted hnoted)

/-! ## Moves -/

/-- No machine is out but that of the generator which runs. -/
def Phase.Out : Phase → Nat → Prop
  | .pump _ g .., g' => g' = g
  | _, _ => False

/-- The bookkeeping is balanced after every move. -/
theorem Moves.balanced {x y : Phase × Session} (h : Moves P st q x y) (hx : x.1.Kept q x.2)
    (hb : x.2.Balanced x.1.Out) : y.2.Balanced y.1.Out := by
  cases h with
  | turn hturn => exact hturn.asks_balanced (by simp) hx.1 hx.2 hb
  | answer hturn hnoted => exact (hturn.asks_balanced (by simp) hx.1 hx.2 hb).noted hnoted
  | dry hturn => exact hturn.asks_balanced (by simp) hx.1 hx.2 hb
  | @restore c m m' s s1 s' htake hr =>
    obtain ⟨hs, hm, -⟩ := hx
    obtain ⟨-, -, hspares⟩ := hs.restore hm htake hr
    obtain ⟨x, -, -, hnoted, -⟩ := restore_eq hr
    exact hb.spares hspares (fun g e => by cases e)
      ((Session.sameTables_takeReady htake).trans (restore_sameTables hr))
      (((hb.enrolled.takeReady htake).released (some c)).noted hnoted)
  | ended => exact hb.noted (Session.noted_note _ _)
  | await => exact hb
  | @skip batch own s s' task agenda hready hpop htake =>
    have hsame := (s.sameTables_agenda agenda).trans
      (Session.sameTables_takeUp { s with agenda } task)
    rw [htake] at hsame
    have hpopped : ({ s with agenda } : Session).Enrolled := hb.enrolled.congr rfl rfl
    exact hb.spares (o := fun _ => False)
      ((s.spares_agenda agenda _).trans (Session.spares_takeUp _ htake _)) (fun _ e => e.elim)
      hsame (hpopped.takeUp htake)
  | rests hready hpop htake hrests => exact (hx.1.not_rests hpop htake hrests).elim
  | start hready hpop htake hgen hinc hmachine hr =>
    exact hb.takeOut hx.1 hpop htake hgen hinc hmachine hr
  | work hturn => exact hturn.pumps_balanced (by simp) hx.1 hb
  | known hturn hnoted => exact (hturn.pumps_balanced (by simp) hx.1 hb).noted hnoted
  | result hturn hnoted hgen hnew =>
    exact ((hturn.pumps_balanced (by simp) hx.1 hb).noted hnoted).push hgen hnew
  | @pumped batch batch' g added n control m m' own finished s s1 s' hends hbatch =>
    obtain ⟨hpumps, -, hstack⟩ := hends.pumps hx.1
    obtain ⟨h1, hwaits⟩ := hends.balanced hx.1 hb
    have h2 := (h1.settled hpumps hstack hwaits).endBatch (max st.completionCycles 1) (batch ++ [g])
    rw [hbatch] at h2
    exact h2
  | leave =>
    split
    · exact hb
    · exact hb.checkCompletion _
  | ready => exact hb
  | check => exact hb.checkCompletion _
  | force => exact (hb.checkCompletion _).completeAll _ _

theorem MovesTo.balanced {x y : Phase × Session} (h : MovesTo P st q x y) (hx : x.1.Kept q x.2)
    (hb : x.2.Balanced x.1.Out) : y.2.Balanced y.1.Out := by
  induction h with
  | refl => exact hb
  | tail hmoves hmove ih => exact hmove.balanced (MovesTo.kept hmoves hx).1 ih

end

/-! ## Histories -/

section

variable {R : Registry} {e e' : Engine} {store : Store} {s : Session} {σ σ' start : Site}
  {K : Nat → Triple → Prop}

/-- A query is opened, on the tables as they are or on cleared ones. -/
theorem Session.Balanced.find (h : e.session.version = store.version →
      e.session.Balanced (fun _ => False) ∧ e.session.Idle) {pattern : Triple}
    {handle : Handle} (hfind : e.find store pattern = (.ok handle, e')) :
    e'.session.Balanced fun _ => False := by
  obtain ⟨m, s', -, hstart, rfl⟩ := find_ok hfind
  have hfresh : (e.session.refresh store.version).Balanced (fun _ => False) ∧
      (e.session.refresh store.version).Idle := by
    unfold Session.refresh
    split
    · next hv => exact h hv
    · exact ⟨.of_empty rfl rfl, .of_empty rfl rfl rfl⟩
  generalize e.session.refresh store.version = s0 at hfresh hstart
  obtain ⟨hb, hs⟩ := hfresh
  have hnoted := Session.noted_note s0.openQuery.2 (.queryOpened s0.nextId pattern)
  have hopened : s0.openQuery.2.Balanced fun _ => False := hb.congr rfl rfl rfl
  obtain ⟨m0, howner, htied, -, heffect⟩ := startQuery_effect (P := e.program Builtin.standard store)
    (s := s0.openQuery.2.note (.queryOpened s0.nextId pattern)) hs.wired.owner_ne hstart
  refine heffect.balanced (hs.openQuery.noted hnoted).wired htied
    (howner ▸ s0.works_openQuery pattern) (hopened.noted hnoted) fun g e => ?_
  · rw [howner] at e
    cases e

/-- A query is read. -/
theorem Session.Balanced.fill (hb : e.session.Balanced fun _ => False) (h : e.Kept R)
    {fuel id : Nat} {take : Bool} {answer : Option Triple}
    (hfill : e.fill store fuel id take = some (.ok answer, e')) :
    e'.session.Balanced fun _ => False := by
  obtain ⟨query, found, s', hq, hobstacle, hlooks, -, rfl⟩ := h.fill_ok hfill
  obtain ⟨-, -, hopen⟩ := of_obstacle hobstacle
  have moved : ∀ {m m' : Machine} {o : Option Triple}, query.machine = some m →
      MovesTo (e.program R store) e.settings id (.search .backtrack m, e.session)
        (.found o m', s') → s'.Balanced fun _ => False :=
    fun hm hmoves => MovesTo.balanced hmoves ⟨h.idle, h.asks hq hm hopen⟩ hb
  cases hlooks with
  | there => exact hb
  | idle => exact hb
  | answer _ hm hmoves => exact moved hm hmoves
  | ended _ hm hmoves => exact moved hm hmoves

theorem Session.Balanced.close (hb : e.session.Balanced fun _ => False) (id : Nat) :
    (e.closeQuery id).session.Balanced fun _ => False := by
  unfold Engine.closeQuery
  split
  · exact hb
  · split
    · exact hb
    · exact hb.closeQuery id

/-- The bookkeeping is balanced after every act that does not fail. -/
theorem Session.Balanced.does (hb : e.session.Balanced fun _ => False) (h : e.Kept R) {a : Act}
    {r : Reply} (hdoes : e.Does store a r e') (hr : ¬ r.Failed) :
    e'.session.Balanced fun _ => False := by
  cases hdoes with
  | @find _ pattern x hfind =>
    cases x with
    | error failure => exact absurd trivial hr
    | ok handle => exact .find (fun _ => ⟨hb, h.idle⟩) hfind
  | @next _ fuel handle x hnext =>
    cases x with
    | error failure => exact absurd trivial hr
    | ok answer => exact hb.fill h hnext
  | @hasNext _ fuel handle x hnext =>
    obtain ⟨⟨y, e1⟩, hfill, hmap⟩ := Option.map_eq_some_iff.1 hnext
    cases y with
    | error failure =>
      cases hmap
      exact absurd trivial hr
    | ok answer =>
      cases hmap
      exact hb.fill h hfill
  | @close handle => exact hb.close handle.query
  | @clone handle => exact hb
  | @drop handle =>
    unfold Engine.drop
    split
    · exact hb
    · split
      · exact hb.close handle.query
      · exact hb
  | reset => exact .of_empty rfl rfl
  | nextMessage => exact hb.congr rfl rfl rfl
  | printProfile =>
    obtain ⟨j, hj⟩ := e.printProfile_eq
    rw [hj]
    exact hb.congr rfl rfl rfl

theorem Site.Unfailing.balanced (h : start.Unfailing σ) (hstart : start.engine.Kept R)
    (hσ : start.Sound R K) (hb : start.engine.session.Balanced fun _ => False) :
    σ.engine.session.Balanced fun _ => False := by
  induction h with
  | start => exact hb
  | reset _ hdoes =>
    cases hdoes
    exact .of_empty rfl rfl
  | outdated _ hv hdoes =>
    cases hdoes with
    | find hfind => exact .find (fun e => absurd e hv) hfind
  | act hbefore hr hdoes ih =>
    rcases hdoes.engine with hdoes | hsame
    · exact ih.does (hbefore.kept hstart hσ) hdoes hr
    · rw [hsame]
      exact ih

theorem Site.BetweenPumps.balanced (h : σ.BetweenPumps R s) (hσ : σ.engine.Kept R)
    (hb : σ.engine.session.Balanced fun _ => False) : s.Balanced fun _ => False := by
  have start : ∀ {id : Nat} {query : Query} {own : Machine},
      σ.engine.queries[id]? = some query → query.machine = some own →
      Engine.obstacle σ.graph.toStore σ.engine.session id query = none →
      Phase.Kept id σ.engine.session (.search .backtrack own) := by
    intro id query own hq hm hobstacle
    obtain ⟨-, -, hopen⟩ := of_obstacle hobstacle
    exact ⟨hσ.idle, hσ.asks hq hm hopen⟩
  cases h with
  | rest => exact hb
  | closing id => exact hb.dismissed id
  | @searching id query own phase s hq hm hobstacle hmoves hphase =>
    have hout := MovesTo.balanced hmoves (start hq hm hobstacle) hb
    cases phase with
    | pump => exact absurd trivial hphase
    | _ => exact hout
  | pumped hq hm hobstacle hmoves hends =>
    have hkept := start hq hm hobstacle
    obtain ⟨hpumps, -⟩ := (MovesTo.kept hmoves hkept).1
    obtain ⟨h1, -, h2⟩ := hends.pumps hpumps
    obtain ⟨h3, h4⟩ := hends.balanced hpumps (MovesTo.balanced hmoves hkept hb)
    exact h3.settled h1 h2 h4

end

/-! ## The tables as they are found -/

/-- The bookkeeping of the tables between the runs of generators. -/
structure Session.Consistent (s : Session) : Prop where
  /-- A goal stands for its variants, and has one table. -/
  goal : ∀ {key : Triple} {g : Nat}, (key, g) ∈ s.goals.toList → key.variantKey = key ∧
    ∃ gen : Generator, s.generators[g]? = some gen ∧ gen.goal = key
  goal_once : (s.goals.toList.map Prod.fst).Nodup
  /-- Every table is found by its goal, which is no other table's. -/
  found : ∀ {g : Nat} {gen : Generator}, s.generators[g]? = some gen →
    (gen.goal, g) ∈ s.goals.toList ∧ s.generatorOf? gen.goal = some (g, gen)
  /-- Every consumer is listed once by the table that it reads. -/
  reader : ∀ {c : Nat} {k : Consumer}, s.consumers[c]? = some k →
    ∃ gen : Generator, s.generators[k.generator]? = some gen ∧ gen.consumers.count c = 1
  /-- No list names a consumer that is gone. -/
  readers : ∀ {g c : Nat} {gen : Generator}, s.generators[g]? = some gen →
    c ∈ gen.consumers ∨ c ∈ gen.generating → ∃ k : Consumer, s.consumers[c]? = some k
  blocked : ∀ {q c : Nat} {waiting : List Nat}, s.queries[q]? = some waiting → c ∈ waiting →
    ∃ k : Consumer, s.consumers[c]? = some k
  /-- The consumers of generators wait, and their generators list them once. -/
  worker : ∀ {c z : Nat} {k : Consumer}, s.consumers[c]? = some k → k.owner = .generator z →
    k.suspended = true ∧
      ∃ gen : Generator, s.generators[z]? = some gen ∧ gen.generating.count c = 1
  /-- The consumers of open queries that wait are listed once, the others not at all. -/
  asker : ∀ {c q : Nat} {k : Consumer} {waiting : List Nat}, s.consumers[c]? = some k →
    k.owner = .query q → s.queries[q]? = some waiting →
    waiting.count c = if k.suspended then 1 else 0
  /-- A complete generator is at rest. -/
  complete : ∀ {g : Nat} {gen : Generator}, s.generators[g]? = some gen → gen.complete = true →
    gen.machine = none ∧ gen.ready = false ∧ gen.generating = [] ∧
      ∀ {c : Nat} {k : Consumer}, s.consumers[c]? = some k → k.owner ≠ .generator g
  /-- A generator that has run and is not complete waits for something. -/
  incomplete : ∀ {g : Nat} {gen : Generator}, s.generators[g]? = some gen →
    gen.complete = false → gen.ready = false → ∃ (c : Nat) (k : Consumer),
      s.consumers[c]? = some k ∧ k.owner = .generator g ∧ k.suspended = true
  /-- No consumer has read more results than there are. -/
  read : ∀ {c : Nat} {k : Consumer} {gen : Generator}, s.consumers[c]? = some k →
    s.generators[k.generator]? = some gen → k.read ≤ gen.results.size

theorem Session.Idle.consistent {s : Session} (h : s.Idle) (hb : s.Balanced fun _ => False) :
    s.Consistent where
  goal hmem := ⟨hb.filed.canonical hmem, hb.filed.goal hmem⟩
  goal_once := hb.filed.once
  found hgen :=
    ⟨hb.filed.found hgen, hb.filed.generatorOf? hgen (hb.filed.canonical (hb.filed.found hgen))⟩
  reader hk := by
    obtain ⟨gen, hgen, hmem⟩ := h.wired.reader hk
    exact ⟨gen, hgen, List.count_eq_one_of_mem (hb.enrolled.readers hgen) hmem⟩
  readers hgen hc := by
    rcases hc with hc | hc
    · obtain ⟨k, hk, -⟩ := hb.enrolled.reader hgen hc
      exact ⟨k, hk⟩
    · obtain ⟨k, hk, -⟩ := hb.enrolled.worker hgen hc
      exact ⟨k, hk⟩
  blocked hq hc := by
    obtain ⟨k, hk, -⟩ := h.wired.waiter hq hc
    exact ⟨k, hk⟩
  worker hk ho := by
    have hsusp := h.suspended hk ho
    obtain ⟨gen, hgen, -, hmem⟩ := (h.wired.worker hk ho).resolve_left id
    exact ⟨hsusp, gen, hgen, List.count_eq_one_of_mem (hb.enrolled.workers hgen) (hmem hsusp)⟩
  asker {c q k waiting} hk ho hq := by
    obtain ⟨waiting', hq', hmem⟩ := h.wired.asker hk ho
    cases hq.symm.trans hq'
    split
    · next hsusp => exact List.count_eq_one_of_mem (h.wired.nodup hq) (hmem hsusp)
    · next hno =>
      refine List.count_eq_zero.2 fun hc => hno ?_
      obtain ⟨k', hk', -, hsusp⟩ := h.wired.waiter hq hc
      cases hk.symm.trans hk'
      exact hsusp
  complete {g gen} hgen hc := by
    obtain ⟨h1, h2⟩ := hb.enrolled.complete hgen hc
    refine ⟨h1, ?_, h2, fun hk ho => ?_⟩
    · cases hr : gen.ready with
      | false => rfl
      | true => exact hc.symm.trans (h.wired.start hgen hr).1
    · obtain ⟨gen', hgen', hinc, -⟩ := (h.wired.worker hk ho).resolve_left id
      cases hgen.symm.trans hgen'
      rw [hc] at hinc
      cases hinc
  incomplete hgen hinc hrun := hb.busy.waits hgen hinc hrun id
  read hk hgen := hb.enrolled.read hk hgen

/-- The bookkeeping agrees. Whenever no generator runs after a history without failures since
the tables were last cleared, goals, tables, consumers and the lists that name them say the
same. -/
theorem tables_consistent {R : Registry} {rules : RuleSet} {base : RuleBase} {graph : Graph}
    {st : Settings} {σ : Site} {s : Session} (hbase : rules.compile R = .ok base)
    (h : (Site.new graph base st).Unfailing σ) (hs : σ.BetweenPumps R s) : s.Consistent := by
  have hnew : (Site.new graph base st).Sound R fun _ _ => True :=
    Site.new_sound (compiled_of_compile hbase graph)
  have hstart := Engine.new_kept hbase graph st
  have hkept := h.kept hstart hnew
  exact (hs.idle hkept).consistent (hs.balanced hkept (h.balanced hstart hnew (.of_empty rfl rfl)))

/-- In the chain of tables a table is not complete when the agenda was run. -/
theorem tables_consistent_chain : ∃ (s : Session) (g : Nat) (gen : Generator),
    Chain.rules.compile Builtin.standard = .ok Chain.base ∧
    (Site.new {} Chain.base Chain.settings).Unfailing ⟨{}, Chain.opened.2⟩ ∧
    (Site.mk {} Chain.opened.2).BetweenPumps Builtin.standard s ∧ s.Consistent ∧
    s.generators[g]? = some gen ∧ gen.complete = false := by
  obtain ⟨query, own, own', s, hq, hm, hopen, hmoves, -, -, g, hg, hinc⟩ := Chain.reaches_returned
  have hbetween : (Site.mk {} Chain.opened.2).BetweenPumps Builtin.standard s :=
    .searching hq hm hopen hmoves id
  have hconsistent := tables_consistent Chain.compile_rules Chain.unfailing_opened hbetween
  obtain ⟨gen', hgen', hinc'⟩ := Session.isIncomplete_iff.1 hinc
  obtain ⟨gen, hgen, -⟩ := (s.sameTables_checkCompletion (s.blockedOn 1)).generator hgen'
  refine ⟨s, g, gen, Chain.compile_rules, Chain.unfailing_opened, hbetween, hconsistent, hgen, ?_⟩
  -- what is complete before the check is complete after it
  obtain ⟨gen1, hgen1, hfollows⟩ :=
    (s.spares_checkCompletion (s.blockedOn 1) fun _ => False).generator hgen
  cases hgen'.symm.trans hgen1
  cases hc : gen.complete with
  | false => rfl
  | true => exact hinc'.symm.trans (hfollows.complete hc) |>.symm

end TabledRules
