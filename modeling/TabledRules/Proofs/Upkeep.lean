-- The bookkeeping holds at every move: between the runs of generators all
-- that can go on is on the agenda, and every machine has its consumers.
import TabledRules.Proofs.Deadlocks
import TabledRules.Proofs.Moves

namespace TabledRules

/-! ## Machines that go on -/

section

variable {s s' : Session} {m m' : Machine} {c : Nat} {resume : Option Nat}

/-- What is restored is the choice point of the consumer, which does not wait any more. -/
theorem restore_eq (h : m.restore c s = (.ok (), m', s')) :
    ∃ x, m.stack = [] ∧ m.suspended[c]? = some x ∧ (s.released (some c)).Noted s' ∧
      m' = m.restored c x := by
  rcases restore_cases h with ⟨e, hx, -⟩ | ⟨e, hx, -⟩ | ⟨x, -, hstack, hx, rfl, rfl⟩
  · cases hx
  · cases hx
  · exact ⟨x, hstack, hx, Session.noted_note _ _, rfl⟩

/-- Only the owner of a consumer and whether it waits count for the machine. -/
theorem Machine.Tied.congr (h : m.Tied s)
    (hs : ∀ {c : Nat} {k : Consumer}, s.consumers[c]? = some k → k.owner = m.owner →
      ∃ k' : Consumer, s'.consumers[c]? = some k' ∧ k'.owner = k.owner ∧
        k'.suspended = k.suspended)
    (hs' : ∀ {c : Nat} {k' : Consumer}, s'.consumers[c]? = some k' →
      ∃ k : Consumer, s.consumers[c]? = some k ∧ k.owner = k'.owner) : m.Tied s' := by
  refine ⟨h.nodup, fun c hc => ?_, fun hx => ?_, fun hc hk => ?_⟩
  · obtain ⟨k, hk, h1, h2⟩ := h.reads c hc
    obtain ⟨k', hk', e1, e2⟩ := hs hk h1
    exact ⟨k', hk', e1.trans h1, e2.trans h2⟩
  · obtain ⟨hx', k, hk, h1, h2⟩ := h.waits hx
    obtain ⟨k', hk', e1, e2⟩ := hs hk h1
    exact ⟨hx', k', hk', e1.trans h1, e2.trans h2⟩
  · obtain ⟨k, hk', e⟩ := hs' hc
    exact h.known hk' (e.trans hk)

theorem Session.sameTables_released (s : Session) (resume : Option Nat) :
    s.SameTables (s.released resume) := by
  cases resume with
  | none => exact .refl s
  | some c => exact s.sameTables_modifyConsumer c fun _ => rfl

theorem restore_tied (h : m.restore c s = (.ok (), m', s')) (ht : m.Tied s) :
    m'.Tied s' ∧ m'.owner = m.owner := by
  obtain ⟨x, hstack, hx, ⟨j, p, rfl⟩, rfl⟩ := restore_eq h
  obtain ⟨hconsumer, k, hk, ho, -⟩ := ht.waits hx
  have hreaders : ([x] : List Choice).filterMap Choice.consumer? = [c] := by
    rw [List.filterMap_cons_some hconsumer]
    rfl
  refine ⟨⟨?_, fun d hd => ?_, fun {d y} hy => ?_, fun {d k'} hd hd' => ?_⟩, rfl⟩
  · exact (hreaders.symm ▸ List.nodup_singleton c :
      (([x] : List Choice).filterMap Choice.consumer?).Nodup)
  · change d ∈ ([x] : List Choice).filterMap Choice.consumer? at hd
    rw [hreaders] at hd
    obtain rfl := List.mem_singleton.1 hd
    refine ⟨{ k with suspended := false }, ?_, ho, rfl⟩
    change (s.modifyConsumer d fun k => { k with suspended := false }).consumers[d]? = _
    rw [Session.consumers_modifyConsumer, if_pos rfl, hk]
    rfl
  · obtain ⟨hne, hy⟩ := Machine.suspended_restored hy
    obtain ⟨hy', k', hk', hrest⟩ := ht.waits hy
    refine ⟨hy', k', ?_, hrest⟩
    change (s.modifyConsumer c fun k => { k with suspended := false }).consumers[d]? = _
    rw [Session.consumers_modifyConsumer, if_neg (Ne.symm hne), hk']
  · change d ∈ ([x] : List Choice).filterMap Choice.consumer? ∨
      ∃ y, (m.suspended.erase c)[d]? = some y
    rw [hreaders, List.mem_singleton]
    by_cases e : d = c
    · exact .inl e
    · right
      change (s.modifyConsumer c fun k => { k with suspended := false }).consumers[d]? = _ at hd
      rw [Session.consumers_modifyConsumer, if_neg (Ne.symm e)] at hd
      rcases ht.known hd hd' with hmem | ⟨y, hy⟩
      · unfold Machine.readers at hmem
        rw [hstack] at hmem
        cases hmem
      · refine ⟨y, ?_⟩
        rw [Std.TreeMap.getElem?_erase, if_neg, hy]
        rw [Std.LawfulEqCmp.compare_eq_iff_eq]
        exact Ne.symm e

theorem resumed_tied (h : m.resumed resume s = (.ok (), m', s')) (ht : m.Tied s) :
    m'.Tied s' ∧ m'.owner = m.owner ∧ (s.released resume).Noted s' := by
  cases resume with
  | none =>
    cases h
    exact ⟨ht, rfl, .refl s⟩
  | some c =>
    obtain ⟨x, -, -, hnoted, -⟩ := restore_eq h
    exact ⟨(restore_tied h ht).1, (restore_tied h ht).2, hnoted⟩

end

/-! ## Phases -/

/-- No reader is yet to be woken and no machine is out. -/
structure Session.Idle (s : Session) : Prop where
  wired : s.Wired (fun _ => False) (fun _ => False)
  manned : s.Manned fun _ => False

/-- The machine works for a query that is open. -/
structure Machine.Asks (q : Nat) (s : Session) (m : Machine) : Prop where
  owner : m.owner = .query q
  tied : m.Tied s
  works : s.Works (.query q)

/-- The machine of the generator `g` is out, and readers of the results that it added are yet
to be woken. -/
structure Machine.Pumps (g added : Nat) (s : Session) (m : Machine) : Prop where
  wired : s.Wired (fun g' => g' = g ∧ 0 < added) (fun _ => False)
  manned : s.Manned (· = g)
  owner : m.owner = .generator g
  tied : m.Tied s
  works : s.Works (.generator g)

/-- The machine of a query has nothing to try before one of its consumers goes on. -/
structure Machine.Waits (q : Nat) (s : Session) (m : Machine) : Prop extends m.Asks q s where
  stack : m.stack = []
  waiting : ∃ (c : Nat) (k : Consumer), s.consumers[c]? = some k ∧ k.owner = .query q ∧
    k.suspended = true

/-- What holds in each phase of the search for the next answer of a query. -/
def Phase.Kept (q : Nat) (s : Session) : Phase → Prop
  | .search _ own => s.Idle ∧ own.Asks q s
  | .wait own => s.Idle ∧ own.Asks q s ∧ own.stack = []
  | .agenda _ own => s.Idle ∧ own.Waits q s
  | .pump _ g added _ m own => m.Pumps g added s ∧ own.Waits q s
  | .returned own => s.Idle ∧ own.Waits q s ∧ (s.queryReady q = true ∨ s.Spent)
  | .found answer own => s.Idle ∧ own.Asks q s ∧ (answer = none → own.stack = [] ∧ s.blocked q = [])

section

variable {P : Program} {st : Settings} {q g added : Nat} {s s' s'' : Session} {m m' own : Machine}
  {o : Owner → Prop} {control : Control} {p : Progress}

theorem Machine.Asks.spares (h : m.Asks q s) (hs : s.Spares o s') (ho : ¬ o (.query q)) :
    m.Asks q s' := by
  have hopen := hs.query (Option.isSome_iff_exists.2 h.works) ho
  refine ⟨h.owner, h.tied.spares hs (h.owner ▸ ho) ?_, Option.isSome_iff_exists.1 hopen⟩
  rw [h.owner]
  rintro ⟨-, hnone⟩
  rw [hnone] at hopen
  cases hopen

theorem Machine.Waits.spares (h : m.Waits q s) (hs : s.Spares o s') (ho : ¬ o (.query q)) :
    m.Waits q s' := by
  have hasks := h.toAsks.spares hs ho
  refine ⟨hasks, h.stack, ?_⟩
  obtain ⟨c, k, hk, howner, hsusp⟩ := h.waiting
  rcases hs.consumer hk (howner ▸ ho) with hdone | ⟨k', hk', hsame⟩
  · obtain ⟨waiting, hopen⟩ := hasks.works
    rw [howner] at hdone
    cases hdone.2.symm.trans hopen
  · exact ⟨c, k', hk', hsame.owner.trans howner, hsame.suspended.trans hsusp⟩

/-- Tables may be completed while no machine is out. -/
theorem Session.Idle.spares (h : s.Idle) (hs : s.Spares (fun _ => False) s')
    (hwired : s'.Wired (fun _ => False) (fun _ => False)) (hsame : s.SameTables s') : s'.Idle :=
  ⟨hwired, h.manned.kept hs (fun _ hg => hg) hsame⟩

theorem Session.Idle.checkCompletion (h : s.Idle) (roots : List Nat) :
    (s.checkCompletion roots).Idle :=
  h.spares (s.spares_checkCompletion roots _) (h.wired.checkCompletion roots)
    (s.sameTables_checkCompletion roots)

theorem Session.Idle.completeAll (h : s.Idle) (event : Triple → Nat → Event) (gs : List Nat) :
    (gs.foldl (Session.complete event) s).Idle :=
  h.spares (Session.spares_completeAll event gs s _) (h.wired.completeAll event gs)
    (.foldl (fun s g => s.sameTables_complete event g) gs s)

theorem Session.Idle.noted (h : s.Idle) (hs : s.Noted s') : s'.Idle :=
  h.spares (hs.spares _) (h.wired.noted hs) hs.sameTables

theorem Session.Idle.endBatch (h : s.Idle) (size : Nat) (batch : List Nat) :
    (s.endBatch size batch).2.Idle := by
  unfold Session.endBatch
  split
  · exact h.checkCompletion batch
  · exact h

theorem Session.spares_endBatch (s : Session) (size : Nat) (batch : List Nat) (o : Owner → Prop) :
    s.Spares o (s.endBatch size batch).2 := by
  unfold Session.endBatch
  split
  · exact s.spares_checkCompletion batch o
  · exact .refl o s

/-- A turn of the machine of the query. -/
theorem Turn.asks (h : Turn P st control m s p m' s') (hp : ∀ e, p ≠ .done (.error e))
    (hs : s.Idle) (hm : m.Asks q s) : s'.Idle ∧ m'.Asks q s' := by
  obtain ⟨howner, heffect⟩ := h.effect hp
  refine ⟨⟨heffect.wired hs.wired hm.tied (hm.owner ▸ hm.works),
    heffect.manned hs.wired (fun _ => id) hm.tied (hm.owner ▸ hm.works) hs.manned fun g e => ?_⟩,
    howner.trans hm.owner,
    heffect.tied howner hs.wired hm.tied, heffect.works hs.wired hm.works⟩
  rw [hm.owner] at e
  cases e

/-- A turn of the machine of a generator. -/
theorem Turn.pumps (h : Turn P st control m s p m' s') (hp : ∀ e, p ≠ .done (.error e))
    (hm : m.Pumps g added s) : m'.Pumps g added s' ∧ s.Spares (· = .generator g) s' := by
  obtain ⟨howner, heffect⟩ := h.effect hp
  refine ⟨⟨heffect.wired hm.wired hm.tied (hm.owner ▸ hm.works),
    heffect.manned hm.wired (fun _ => id) hm.tied (hm.owner ▸ hm.works) hm.manned fun g' e => ?_,
    howner.trans hm.owner,
    heffect.tied howner hm.wired hm.tied, heffect.works hm.wired hm.works⟩,
    heffect.spares hm.wired hm.tied hm.owner⟩
  rw [hm.owner] at e
  cases e
  rfl

theorem Machine.Pumps.noted (hm : m.Pumps g added s) (hs : s.Noted s') : m.Pumps g added s' := by
  obtain ⟨j, p, rfl⟩ := hs
  have hnoted : s.Noted _ := ⟨j, p, rfl⟩
  exact ⟨hm.wired.noted hnoted,
    hm.manned.kept (hnoted.spares fun _ => False) (fun _ e => e.elim) hnoted.sameTables, hm.owner,
    hm.tied.of_same rfl rfl rfl rfl, hm.works⟩

theorem Session.spares_result (s : Session) (g : Nat) (t : Triple) : s.Spares (· = .generator g)
    (s.modifyGenerator g fun gen => { gen with results := gen.results.push t }) := by
  refine s.spares_modifyGenerator g fun gen _ => ⟨rfl, ?_, id, fun hno => absurd rfl hno⟩
  rw [Index.toList_push]
  exact List.prefix_append _ _

/-- The generator whose machine is out gets another result. -/
theorem Machine.Pumps.push (hm : m.Pumps g added s) (t : Triple) :
    m.Pumps g (added + 1)
      (s.modifyGenerator g fun gen => { gen with results := gen.results.push t }) := by
  obtain ⟨gen, hgen, hinc⟩ := hm.works
  refine ⟨?_, ?_, hm.owner, hm.tied.of_same rfl rfl rfl rfl, ?_⟩
  · refine (hm.wired.mono (Y := fun g' => g' = g ∧ 0 < added + 1) (fun _ h => ⟨h.1, by omega⟩)
      (fun _ => id)).modifyGenerator (fun _ _ _ _ _ hm => hm) (fun _ _ _ _ _ _ hm => .inl hm)
      (fun _ _ hr => hr) (fun _ _ => .inl rfl) (fun _ _ => .inr ⟨rfl, by omega⟩)
      (fun _ _ _ hm => .inl hm) (fun _ _ hm => hm)
  · refine hm.manned.spares (s.spares_result g t) (fun g' e => by cases e; rfl)
      (fun {g' gen'} hg' hnone => ?_)
    rw [Session.generators_modifyGenerator] at hg'
    split at hg'
    · next e =>
      subst e
      rw [hnone] at hg'
      cases hg'
    · rw [hnone] at hg'
      cases hg'
  · refine ⟨{ gen with results := gen.results.push t }, ?_, hinc⟩
    rw [Session.generators_modifyGenerator, if_pos rfl, hgen]
    rfl

/-! ## Machines that are taken out and put back -/

theorem Session.spares_endPump (s : Session) (g added : Nat) (m : Machine) :
    s.Spares (· = .generator g) (s.endPump g added m) := by
  unfold Session.endPump
  split
  · exact .refl _ s
  · have hback : s.Spares (· = .generator g)
        (s.modifyGenerator g fun gen => { gen with machine := some m }) :=
      s.spares_modifyGenerator g fun gen _ =>
        ⟨rfl, List.prefix_rfl, id, fun hno => absurd rfl hno⟩
    exact hback.trans (Session.spares_note _ _ _)

theorem Session.spares_settle (s : Session) (g : Nat) (finished : Bool) (added : Nat)
    (o : Owner → Prop) : s.Spares o (s.settle g finished added) := by
  unfold Session.settle
  split
  · exact s.spares_complete _ g o
  · split
    · exact .refl o s
    · exact s.spares_wakeReaders g o

theorem Machine.Pumps.endPump (hm : m.Pumps g added s) (n : Nat) :
    m.Pumps g added (s.endPump g n m) ∧
      ∃ gen : Generator, (s.endPump g n m).generators[g]? = some gen ∧ gen.machine = some m := by
  obtain ⟨gen, hgen, hinc⟩ := hm.works
  have e : s.endPump g n m = (s.modifyGenerator g fun gen => { gen with machine := some m }).note
      (.generatorPumped g gen.goal n gen.results.size) := by
    unfold Session.endPump
    rw [hgen]
  have hfind : (s.endPump g n m).generators[g]? = some { gen with machine := some m } := by
    rw [e]
    change (s.modifyGenerator g _).generators[g]? = _
    rw [Session.generators_modifyGenerator, if_pos rfl, hgen]
    rfl
  refine ⟨⟨?_, ?_, hm.owner, hm.tied.of_same rfl rfl rfl (by rw [e]; rfl), ⟨_, hfind, hinc⟩⟩,
    _, hfind, rfl⟩
  · rw [e]
    refine Session.Wired.note (hm.wired.modifyGenerator
      (f := fun gen => { gen with machine := some m }) (fun _ _ _ _ _ hm => hm)
      (fun _ _ _ _ _ _ hm => .inl hm) (fun _ _ hr => hr) (fun _ _ => .inl rfl)
      (fun _ _ => .inl rfl) (fun _ _ _ hm => .inl hm) (fun _ _ hm => hm)) _
  · refine hm.manned.spares (s.spares_endPump g n m) (fun g' e => by cases e; rfl)
      (fun {g' gen'} hg' hnone => ?_)
    rw [e] at hg'
    change (s.modifyGenerator g _).generators[g']? = _ at hg'
    rw [Session.generators_modifyGenerator] at hg'
    split at hg'
    · next e =>
      subst e
      rw [hnone] at hg'
      cases hg'
    · rw [hnone] at hg'
      cases hg'

/-- A machine is put back: its generator is complete, or the machine has nothing to try before
a consumer goes on. -/
theorem Machine.Pumps.settled (hm : m.Pumps g added s) {finished : Bool}
    (hstack : finished = false → m.stack = []) :
    ((s.endPump g added m).settle g finished added).Idle := by
  obtain ⟨h1, gen, hgen, hmachine⟩ := hm.endPump added
  generalize s.endPump g added m = s1 at h1 hgen
  have hsettle := s1.spares_settle g finished added (fun _ => False)
  have hout := h1.manned.kept hsettle (fun _ e => e.elim) (s1.sameTables_settle g finished added)
  obtain ⟨gen1, hgen1, hinc⟩ := h1.works
  cases hgen.symm.trans hgen1
  cases finished with
  | true =>
    have e : s1.settle g true added = s1.complete .generatorComplete g := by
      unfold Session.settle
      rw [if_pos rfl]
    rw [e] at hout ⊢
    refine ⟨(h1.wired.complete_now _ hgen hinc).mono (fun g' h => h.2 h.1.1) (fun _ => id),
      ⟨fun {g' gen'} hg' hinc' _ => hout.machine hg' hinc' ?_⟩⟩
    rintro rfl
    obtain ⟨gen2, hg2, hc⟩ := Session.done_complete .generatorComplete hgen
    cases hg'.symm.trans hg2
    rw [hinc'] at hc
    cases hc
  | false =>
    refine ⟨?_, ⟨fun {g' gen'} hg' hinc' _ => ?_⟩⟩
    · unfold Session.settle
      rw [if_neg (by simp)]
      split
      · next e => exact h1.wired.mono (fun g' h => by omega) (fun _ => id)
      · exact (h1.wired.wakeReaders g).mono (fun g' h => h.2 h.1.1) (fun _ => id)
    · by_cases e : g' = g
      · subst e
        have hsame : (s1.settle g' false added).generators = s1.generators := by
          unfold Session.settle
          rw [if_neg (by simp)]
          split
          · rfl
          · exact s1.wakeReaders_generators g'
        rw [hsame, hgen] at hg'
        cases hg'
        refine ⟨m, hmachine, h1.owner, h1.tied.spares hsettle id ?_, .inr (hstack rfl)⟩
        rw [h1.owner]
        rintro ⟨gen2, hg2, hc⟩
        rw [hsame, hgen] at hg2
        cases hg2
        rw [hinc] at hc
        cases hc
      · exact hout.machine hg' hinc' e

/-- There is always something to run in the generator of a task. -/
theorem Session.Idle.not_rests (h : s.Idle) {task : Task} {agenda : Queue Task}
    {resume : Option Nat} {s1 s2 : Session} (hpop : s.agenda.pop? = some (task, agenda))
    (htake : ({ s with agenda } : Session).takeUp task = (some (g, resume), s1)) :
    ¬ s1.Rests g resume s2 := by
  intro hrests
  obtain ⟨-, hworks, -⟩ := h.wired.takeUp (fun _ => id) hpop htake
  have hspares1 : s.Spares (fun _ => False) s1 :=
    (s.spares_agenda agenda _).trans (Session.spares_takeUp _ htake _)
  have hsame := (s.sameTables_agenda agenda).trans
    (Session.sameTables_takeUp { s with agenda } task)
  rw [htake] at hsame
  have hmanned := h.manned.kept hspares1 (fun _ e => e) hsame
  have hgen : s1.generators = s.generators := by
    rcases Session.takeUp_cases htake with ⟨g', -, rfl, -⟩ | ⟨c, -, rfl, -⟩ <;> rfl
  obtain ⟨gen, hg, hinc⟩ := hworks
  rw [← hgen] at hg
  rcases hrests with ⟨-, hcomp⟩ | ⟨-, gen', hg', hnone⟩
  · rw [hcomp gen hg] at hinc
    cases hinc
  · cases hg.symm.trans hg'
    obtain ⟨m, hm, -⟩ := hmanned.machine hg hinc id
    rw [hnone] at hm
    cases hm

/-- The steps from the agenda to a machine that is out. -/
theorem Session.Idle.takeOut (h : s.Idle) {task : Task} {agenda : Queue Task}
    {resume : Option Nat} {s1 : Session} {gen : Generator}
    (hpop : s.agenda.pop? = some (task, agenda))
    (htake : ({ s with agenda } : Session).takeUp task = (some (g, resume), s1))
    (hgen : s1.generators[g]? = some gen) (hinc : gen.complete = false)
    (hm : gen.machine = some m)
    (hr : m.resumed resume ((s1.prepared g resume).modifyGenerator g
      fun gen => { gen with machine := none }) = (.ok (), m', s')) :
    m'.Pumps g 0 s' ∧ s.Spares (· = .generator g) s' := by
  obtain ⟨hwired, -, hresume⟩ := h.wired.takeUp (fun _ => id) hpop htake
  -- up to the machine nothing is lost of the session
  have hsame1 : s.SameTables s1 := by
    have := (s.sameTables_agenda agenda).trans (Session.sameTables_takeUp { s with agenda } task)
    rw [htake] at this
    exact this
  have hspares1 : s.Spares (fun _ => False) s1 :=
    (s.spares_agenda agenda _).trans (Session.spares_takeUp _ htake _)
  have hspares2 : s1.Spares (· = .generator g) ((s1.prepared g resume).modifyGenerator g
      fun gen => { gen with machine := none }) := by
    refine Session.Spares.trans (s1.spares_prepared g resume rfl) ?_
    exact Session.spares_modifyGenerator _ g fun gen _ =>
      ⟨rfl, List.prefix_rfl, id, fun hno => absurd rfl hno⟩
  have hspares : s.Spares (· = .generator g) ((s1.prepared g resume).modifyGenerator g
      fun gen => { gen with machine := none }) :=
    (hspares1.mono fun _ e => e.elim).trans hspares2
  have hsame2 : s1.SameTables ((s1.prepared g resume).modifyGenerator g
      fun gen => { gen with machine := none }) := by
    refine Session.SameTables.trans (s1.sameTables_prepared g resume) ?_
    exact Session.sameTables_modifyGenerator _ g fun _ => ⟨rfl, rfl, .inr rfl⟩
  -- the machine is the one that was there
  have hmanned1 := h.manned.kept hspares1 (fun _ e => e) hsame1
  obtain ⟨m0, hm0, hown0, htied0, -⟩ := hmanned1.machine hgen hinc id
  cases hm.symm.trans hm0
  have hcons : ((s1.prepared g resume).modifyGenerator g
      fun gen => { gen with machine := none }).consumers = s1.consumers := by
    cases resume <;> rfl
  obtain ⟨htied, hown, hnoted⟩ := resumed_tied hr
    (htied0.congr (fun hk _ => ⟨_, by rw [hcons]; exact hk, rfl, rfl⟩)
      fun hk => ⟨_, by rw [← hcons]; exact hk, rfl⟩)
  have howner : ∀ c ∈ resume, ∀ k : Consumer, ((s1.prepared g resume).modifyGenerator g
      fun gen => { gen with machine := none }).consumers[c]? = some k → k.owner = .generator g := by
    intro c hc k hk
    obtain ⟨-, k0, hk0, ho⟩ := hresume c hc
    rw [hcons] at hk
    rcases Session.takeUp_cases htake with ⟨g', -, rfl, ⟨e, -⟩ | ⟨e, -⟩⟩ | ⟨c', -, rfl, -⟩
    · cases e
      cases hc
    · cases e
    · rw [Session.unscheduled, Session.consumers_modifyConsumer] at hk
      split at hk
      · next e =>
        subst e
        obtain ⟨k1, hk1, rfl⟩ := Option.map_eq_some_iff.1 hk
        cases hk0.symm.trans hk1
        exact ho
      · cases hk0.symm.trans hk
        exact ho
  have hspares3 := (Session.spares_released (o := (· = .generator g)) _ resume howner).trans
    (hnoted.spares _)
  have hfinal := hspares.trans hspares3
  have hsame3 := (Session.sameTables_released ((s1.prepared g resume).modifyGenerator g
    fun gen => { gen with machine := none }) resume).trans hnoted.sameTables
  refine ⟨⟨?_, ?_, hown.trans hown0, htied, ?_⟩, hfinal⟩
  · refine Session.Wired.noted ?_ hnoted
    have hw := hwired.modifyGenerator (g := g) (f := fun gen => { gen with machine := none })
      (fun _ _ _ _ _ hm => hm) (fun _ _ _ _ _ _ hm => .inl hm) (fun _ _ hr => hr)
      (fun _ _ => .inl rfl) (fun _ _ => .inl rfl) (fun _ _ _ hm => .inl hm) (fun _ _ hm => hm)
    have hcomm : ((s1.prepared g resume).modifyGenerator g
        fun gen => { gen with machine := none }).released resume =
        ((s1.prepared g resume).released resume).modifyGenerator g
          fun gen => { gen with machine := none } := by
      cases resume <;> rfl
    rw [hcomm]
    exact hw.mono (fun _ e => e.elim) (fun _ => id)
  · exact (hmanned1.mono fun _ e => e.elim).kept (hspares2.trans hspares3)
      (fun g' e => by cases e; rfl) (hsame2.trans hsame3)
  · have hfind : ∃ gen1 : Generator, (s1.prepared g resume).generators[g]? = some gen1 ∧
        gen1.complete = false := by
      cases resume with
      | none =>
        refine ⟨{ gen with ready := false }, ?_, hinc⟩
        change (s1.modifyGenerator g _).generators[g]? = _
        rw [Session.generators_modifyGenerator, if_pos rfl, hgen]
        rfl
      | some c =>
        obtain ⟨gen1, h1, h2⟩ := s1.find_unblock (.generator g) c hgen
        exact ⟨gen1, h1, h2.complete.trans hinc⟩
    obtain ⟨gen1, h1, hinc1⟩ := hfind
    refine ⟨{ gen1 with machine := none }, ?_, hinc1⟩
    obtain ⟨j, p, rfl⟩ := hnoted
    cases resume <;>
    · change ((s1.prepared g _).modifyGenerator g _).generators[g]? = _
      rw [Session.generators_modifyGenerator, if_pos rfl, h1]
      rfl

/-- The machine of a query goes on with a consumer. -/
theorem Session.Idle.restore (h : s.Idle) (hown : own.Asks q s) {c : Nat} {s1 : Session}
    (htake : s.takeReady q = some (c, s1)) (hr : own.restore c s1 = (.ok (), m', s')) :
    s'.Idle ∧ m'.Asks q s' ∧ s.Spares (· = .query q) s' := by
  obtain ⟨hwired, -, k, hk, ho⟩ := h.wired.takeReady htake
  have hs1 : s1.consumers = s.consumers ∧ s.Spares (· = .query q) s1 := by
    unfold Session.takeReady at htake
    obtain ⟨c', -, e⟩ := Option.map_eq_some_iff.1 htake
    cases e
    exact ⟨rfl, .of_generators rfl rfl (fun q' => Session.isSome_modify _ _ _ _)
      fun hg => ⟨_, hg, .refl _ _⟩⟩
  obtain ⟨x, -, -, hnoted, -⟩ := restore_eq hr
  obtain ⟨htied, howner⟩ := restore_tied hr
    (hown.tied.congr (fun hk _ => ⟨_, by rw [hs1.1]; exact hk, rfl, rfl⟩)
      fun hk => ⟨_, by rw [← hs1.1]; exact hk, rfl⟩)
  have hspares : s.Spares (· = .query q) s' := by
    refine (hs1.2.trans (Session.spares_released s1 (some c) fun c' hc' k' hk' => ?_)).trans
      (hnoted.spares _)
    cases hc'
    rw [hs1.1] at hk'
    cases hk.symm.trans hk'
    exact ho
  have hsame : s.SameTables s' := (Session.sameTables_takeReady htake).trans
    ((s1.sameTables_released (some c)).trans hnoted.sameTables)
  refine ⟨⟨hwired.noted hnoted, h.manned.kept hspares (fun g e => by cases e) hsame⟩,
    ⟨howner.trans hown.owner, htied, ?_⟩, hspares⟩
  -- the query is still open
  obtain ⟨waiting, hw, -⟩ := (hwired.noted hnoted).asker (c := c)
    (k := { k with suspended := false }) (by
      obtain ⟨j, p, rfl⟩ := hnoted
      change (s1.modifyConsumer c _).consumers[c]? = _
      rw [Session.consumers_modifyConsumer, if_pos rfl, hs1.1, hk]
      rfl) ho
  exact ⟨waiting, hw⟩

/-! ## Moves -/

theorem Turn.stack_of_dry (h : Turn P st control m s (.done (.ok none)) m' s') :
    m'.stack = [] := by
  cases h with
  | call hg hcalls =>
    obtain ⟨-, -, -, -, -, e | ⟨e, he⟩⟩ := hcalls.registers
    · cases e
    · cases he
  | empty hnil => exact hnil

/-- How a pump ends, the bookkeeping holds. -/
theorem Ends.pumps {finished : Bool} {n : Nat} (h : Ends P st g added control m s finished n m' s')
    (hm : m.Pumps g added s) : m'.Pumps g n s' ∧ s.Spares (· = .generator g) s' ∧
      (finished = false → m'.stack = []) := by
  cases h with
  | dry hturn =>
    obtain ⟨h1, h2⟩ := hturn.pumps (by simp) hm
    exact ⟨h1, h2, fun _ => hturn.stack_of_dry⟩
  | @single t gen m' s1 s2 hturn hnoted hgen hnew hsingle =>
    obtain ⟨h1, h2⟩ := hturn.pumps (by simp) hm
    exact ⟨(h1.noted hnoted).push t, (h2.trans (hnoted.spares _)).trans (s2.spares_result g t),
      fun e => by cases e⟩
  | gone hturn hnoted hnone =>
    obtain ⟨h1, h2⟩ := hturn.pumps (by simp) hm
    obtain ⟨gen, hgen, -⟩ := (h1.noted hnoted).works
    rw [hnone] at hgen
    cases hgen

/-- The owners whose machines may run while a query looks for its next answer. -/
def Owner.Involved (q : Nat) : Owner → Prop
  | .generator _ => True
  | .query q' => q' = q

/-- The owners whose machines may run in a phase: while the agenda is run, generators that are
not complete, and else the query itself. -/
def Phase.Runs (q : Nat) (s : Session) : Phase → Owner → Prop
  | .agenda .. | .pump .. | .returned .. => fun x => ∃ g, x = .generator g ∧ s.Works x
  | _ => (· = .query q)

theorem Phase.Runs.involved {phase : Phase} {x : Owner} (h : phase.Runs q s x) :
    Owner.Involved q x := by
  cases phase with
  | agenda =>
    obtain ⟨g, rfl, -⟩ := h
    trivial
  | pump =>
    obtain ⟨g, rfl, -⟩ := h
    trivial
  | returned =>
    obtain ⟨g, rfl, -⟩ := h
    trivial
  | _ =>
    cases h
    rfl

theorem Phase.Runs.works {phase : Phase} {g : Nat} (h : phase.Runs q s (.generator g)) :
    s.Works (.generator g) := by
  cases phase with
  | agenda => exact h.choose_spec.2
  | pump => exact h.choose_spec.2
  | returned => exact h.choose_spec.2
  | _ => cases h

/-- Tables that are complete stay so, with the results that they have. -/
def Session.Settles (s s' : Session) : Prop :=
  ∀ (g : Nat) (gen : Generator), s.generators[g]? = some gen → gen.complete = true →
    ∃ gen' : Generator, s'.generators[g]? = some gen' ∧ gen'.complete = true ∧
      gen'.results = gen.results

theorem Session.Settles.refl (s : Session) : s.Settles s :=
  fun _ _ hgen hc => ⟨_, hgen, hc, rfl⟩

theorem Session.Settles.trans (h : s.Settles s') (h' : s'.Settles s'') : s.Settles s'' := by
  intro g gen hgen hc
  obtain ⟨gen1, h1, h2, h3⟩ := h g gen hgen hc
  obtain ⟨gen2, h4, h5, h6⟩ := h' g gen1 h1 h2
  exact ⟨gen2, h4, h5, h6.trans h3⟩

/-- What only the machines of other tables do leaves a complete table as it is. -/
theorem Session.Spares.settles (h : s.Spares o s')
    (ho : ∀ g, o (.generator g) → s.Works (.generator g)) : s.Settles s' := by
  intro g gen hgen hc
  obtain ⟨gen', hgen', hfollows⟩ := h.generator hgen
  refine ⟨gen', hgen', hfollows.complete hc, (hfollows.idle fun hg => ?_).1⟩
  obtain ⟨gen1, hgen1, hinc⟩ := ho g hg
  cases hgen.symm.trans hgen1
  cases hc.symm.trans hinc

/-- While the agenda is run, the machine of the query waits. -/
theorem Machine.Waits.aside (h : own.Waits q s) (hs : s.Spares o s')
    (ho : ∀ x, o x → ∃ g, x = .generator g ∧ s.Works x) :
    own.Waits q s' ∧ s.Spares (fun x => ∃ g, x = .generator g ∧ s.Works x) s' := by
  refine ⟨h.spares hs fun hq => ?_, hs.mono ho⟩
  obtain ⟨g, e, -⟩ := ho _ hq
  cases e

/-- The bookkeeping holds after every move, and the machines of other queries are spared. -/
theorem Moves.kept {x y : Phase × Session} (h : Moves P st q x y) (hx : x.1.Kept q x.2) :
    y.1.Kept q y.2 ∧ x.2.Spares (x.1.Runs q x.2) y.2 := by
  have own : ∀ {control : Control} {m m' : Machine} {s s' : Session} {p : Progress},
      Turn P st control m s p m' s' → (∀ e, p ≠ .done (.error e)) → s.Idle → m.Asks q s →
      s.Spares (· = .query q) s' := fun hturn hp hs hm =>
    (hturn.effect hp).2.spares hs.wired hm.tied hm.owner
  cases h with
  | turn hturn =>
    obtain ⟨hs, hm⟩ := hx
    exact ⟨hturn.asks (by simp) hs hm, own hturn (by simp) hs hm⟩
  | answer hturn hnoted =>
    obtain ⟨hs, hm⟩ := hx
    obtain ⟨h1, h2⟩ := hturn.asks (by simp) hs hm
    exact ⟨⟨h1.noted hnoted, h2.spares (hnoted.spares fun _ => False) id, fun e => by cases e⟩,
      (own hturn (by simp) hs hm).trans (hnoted.spares _)⟩
  | dry hturn =>
    obtain ⟨hs, hm⟩ := hx
    obtain ⟨h1, h2⟩ := hturn.asks (by simp) hs hm
    exact ⟨⟨h1, h2, hturn.stack_of_dry⟩, own hturn (by simp) hs hm⟩
  | restore htake hr =>
    obtain ⟨hs, hm, -⟩ := hx
    obtain ⟨h1, h2, h3⟩ := hs.restore hm htake hr
    exact ⟨⟨h1, h2⟩, h3⟩
  | @ended m s hnone hempty =>
    obtain ⟨hs, hm, hstack⟩ := hx
    have hnoted := s.noted_note (.queryDone q)
    exact ⟨⟨hs.noted hnoted, hm.spares (hnoted.spares fun _ => False) id, fun _ => ⟨hstack, hempty⟩⟩,
      hnoted.spares _⟩
  | @await m s hnone hne =>
    obtain ⟨hs, hm, hstack⟩ := hx
    obtain ⟨waiting, hw⟩ := hm.works
    obtain ⟨c, hc⟩ := List.exists_mem_of_ne_nil _ hne
    rw [Session.blocked, Std.TreeMap.getD_eq_getD_getElem?, hw] at hc
    exact ⟨⟨hs, hm, hstack, c, hs.wired.waiter hw hc⟩, .refl _ _⟩
  | @skip batch own s s' task agenda hready hpop htake =>
    obtain ⟨hs, hm⟩ := hx
    have hspares : s.Spares (fun _ => False) s' :=
      (s.spares_agenda agenda _).trans (Session.spares_takeUp _ htake _)
    have hsame := (s.sameTables_agenda agenda).trans
      (Session.sameTables_takeUp { s with agenda } task)
    rw [htake] at hsame
    obtain ⟨h1, h2⟩ := hm.aside hspares (fun _ e => e.elim)
    exact ⟨⟨hs.spares hspares (hs.wired.skip hpop htake) hsame, h1⟩, h2⟩
  | rests hready hpop htake hrests hbatch => exact (hx.1.not_rests hpop htake hrests).elim
  | start hready hpop htake hgen hinc hmachine hr =>
    obtain ⟨hs, hm⟩ := hx
    obtain ⟨h1, h2⟩ := hs.takeOut hpop htake hgen hinc hmachine hr
    have hworks := (hs.wired.takeUp (fun _ => id) hpop htake).2.1
    obtain ⟨h3, h4⟩ := hm.aside h2 (fun _ e => ⟨_, e, e ▸ hworks⟩)
    exact ⟨⟨h1, h3⟩, h4⟩
  | work hturn =>
    obtain ⟨hm, hown⟩ := hx
    obtain ⟨h1, h2⟩ := hturn.pumps (by simp) hm
    obtain ⟨h3, h4⟩ := hown.aside h2 (fun _ e => ⟨_, e, e ▸ hm.works⟩)
    exact ⟨⟨h1, h3⟩, h4⟩
  | known hturn hnoted hgen hold =>
    obtain ⟨hm, hown⟩ := hx
    obtain ⟨h1, h2⟩ := hturn.pumps (by simp) hm
    obtain ⟨h3, h4⟩ := hown.aside (h2.trans (hnoted.spares _))
      (fun _ e => ⟨_, e, e ▸ hm.works⟩)
    exact ⟨⟨h1.noted hnoted, h3⟩, h4⟩
  | @result batch g added control m m' own t gen s s1 s2 hturn hnoted hgen hnew hmany =>
    obtain ⟨hm, hown⟩ := hx
    obtain ⟨h1, h2⟩ := hturn.pumps (by simp) hm
    obtain ⟨h3, h4⟩ := hown.aside ((h2.trans (hnoted.spares _)).trans (s2.spares_result g t))
      (fun _ e => ⟨_, e, e ▸ hm.works⟩)
    exact ⟨⟨(h1.noted hnoted).push t, h3⟩, h4⟩
  | @pumped batch batch' g added n control m m' own finished s s1 s' hends hbatch =>
    obtain ⟨hm, hown⟩ := hx
    obtain ⟨h1, h2, h3⟩ := hends.pumps hm
    have hspares := ((h2.trans (s1.spares_endPump g n m')).trans
      (Session.spares_settle _ g finished n _)).trans
      (Session.spares_endBatch ((s1.endPump g n m').settle g finished n)
        (max st.completionCycles 1) (batch ++ [g]) (· = .generator g))
    have hs' := (h1.settled h3).endBatch (max st.completionCycles 1) (batch ++ [g])
    rw [hbatch] at hspares hs'
    obtain ⟨h4, h5⟩ := hown.aside hspares (fun _ e => ⟨_, e, e ▸ hm.works⟩)
    exact ⟨⟨hs', h4⟩, h5⟩
  | @leave batch own s hstop =>
    obtain ⟨hs, hm⟩ := hx
    obtain ⟨gs, hgs⟩ : ∃ gs : List Nat, (if batch.isEmpty then s else s.checkCompletion batch) =
        gs.foldl (Session.complete .generatorDeadlocked) s := by
      split
      · exact ⟨[], rfl⟩
      · exact ⟨_, s.checkCompletion_eq batch⟩
    rw [hgs]
    have hspares := Session.spares_completeAll .generatorDeadlocked gs s fun _ => False
    have hidle := hs.completeAll .generatorDeadlocked gs
    obtain ⟨h1, h2⟩ := hm.aside hspares (fun _ e => e.elim)
    refine ⟨⟨hidle, h1, ?_⟩, h2⟩
    rcases hstop with hready | hempty
    · exact .inl (hs.wired.queryReady hidle.wired hspares id hm.works hready)
    · have hspent := (hs.wired.spent ((Queue.pop?_eq_none _).1 hempty)).1
      exact .inr (hspent.completeAll hs.wired _ gs)
  | ready hready =>
    obtain ⟨hs, hm, -⟩ := hx
    exact ⟨⟨hs, hm.toAsks, hm.stack⟩, .refl _ _⟩
  | @check own s hno hready =>
    obtain ⟨hs, hm, -⟩ := hx
    obtain ⟨h1, h2⟩ := hm.aside (s.spares_checkCompletion (s.blockedOn q) fun _ => False)
      (fun _ e => e.elim)
    exact ⟨⟨hs.checkCompletion _, h1.toAsks, h1.stack⟩, h2⟩
  | @force own s hno hstill =>
    obtain ⟨hs, hm, -⟩ := hx
    obtain ⟨h1, h2⟩ := hm.aside ((s.spares_checkCompletion (s.blockedOn q) fun _ => False).trans
      (Session.spares_completeAll .generatorDeadlocked (s.blockedOn q) _ _)) (fun _ e => e.elim)
    exact ⟨⟨(hs.checkCompletion _).completeAll _ _, h1.toAsks, h1.stack⟩, h2⟩

theorem MovesTo.kept {x y : Phase × Session} (h : MovesTo P st q x y) (hx : x.1.Kept q x.2) :
    y.1.Kept q y.2 ∧ x.2.Spares (Owner.Involved q) y.2 := by
  induction h with
  | refl => exact ⟨hx, .refl _ _⟩
  | tail _ hmove ih =>
    obtain ⟨h1, h2⟩ := hmove.kept ih.1
    exact ⟨h1, ih.2.trans (h2.mono fun _ => Phase.Runs.involved)⟩

theorem Moves.settles {x y : Phase × Session} (h : Moves P st q x y) (hx : x.1.Kept q x.2) :
    x.2.Settles y.2 :=
  (h.kept hx).2.settles fun _ => Phase.Runs.works

/-- Tables that are complete are not touched by any move. -/
theorem MovesTo.settles {x y : Phase × Session} (h : MovesTo P st q x y) (hx : x.1.Kept q x.2) :
    x.2.Settles y.2 := by
  induction h with
  | refl => exact .refl _
  | tail hmoves hmove ih => exact ih.trans (hmove.settles (MovesTo.kept hmoves hx).1)

end

end TabledRules
