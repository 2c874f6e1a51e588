-- Running generators and queries keeps the tables sound, whatever stands on
-- the agenda and whatever fails.
import TabledRules.Proofs.Soundness

namespace TabledRules

variable {P : Program} {st : Settings} {s s' : Session} {m m' : Machine} {K : Triple → Prop}
  {f g : Nat}

/-! ## Runs -/

theorem run_sound (hP : P.Compiled) (control : Control) {o : Except Failure (Option Triple)}
    (hm : m.Sound P s K) (hc : control.Sound P K m) (hs : s.Sound P)
    (h : Machine.run (P.world st) f control m s = some (o, m', s')) :
    m'.Sound P s' K ∧ s'.Sound P ∧ s.Grows s' ∧ ∀ t, o = .ok (some t) → K t := by
  refine run_keeps hP
    (I := fun control m1 s1 => m1.Sound P s1 K ∧ control.Sound P K m1 ∧ s1.Sound P ∧ s.Grows s1)
    (Q := fun o m1 s1 => m1.Sound P s1 K ∧ s1.Sound P ∧ s.Grows s1 ∧ ∀ t, o = .ok (some t) → K t)
    ?_ ?_ ?_ ⟨hm, hc, hs, .refl s⟩ h
  · rintro control m1 s1 ⟨h1, h2, -⟩
    exact ⟨h1.fit, h2.fit⟩
  · rintro control m1 s1 control' m2 s2 ⟨h1, h2, h3, h4⟩ hturn
    obtain ⟨h5, h6, h7, h8⟩ := hturn.sound hP h1 h2 h3
    exact ⟨h5, h8, h6, h4.trans h7⟩
  · rintro control m1 s1 o m2 s2 ⟨h1, h2, h3, h4⟩ hturn
    obtain ⟨h5, h6, h7, h8⟩ := hturn.sound hP h1 h2 h3
    refine ⟨h5, h6, h4.trans h7, ?_⟩
    rintro t rfl
    exact h8

theorem next_sound (hP : P.Compiled) {o : Except Failure (Option Triple)} (hm : m.Sound P s K)
    (hs : s.Sound P) (h : m.next (P.world st) f s = some (o, m', s')) :
    m'.Sound P s' K ∧ s'.Sound P ∧ s.Grows s' ∧ ∀ t, o = .ok (some t) → K t := by
  unfold Machine.next at h
  split at h
  · next t m1 s1 hrun =>
    obtain ⟨h1, h2, h3, h4⟩ := run_sound hP .backtrack hm trivial hs hrun
    cases h
    have hnote := s1.sameTables_note (.answer t)
    exact ⟨h1.grows hnote.grows, h2.sameTables hnote, h3.trans hnote.grows, h4⟩
  · exact run_sound hP .backtrack hm trivial hs h

theorem restore_sound {consumer : Nat} {x : Except Failure Unit} (hm : m.Sound P s K)
    (hs : s.Sound P) (h : m.restore consumer s = (x, m', s')) :
    m'.Sound P s' K ∧ s'.Sound P ∧ s.Grows s' := by
  have hnum := restore_numbered h hm.numbered
  have hsame := s.sameTables_modifyConsumer consumer (f := fun k => { k with suspended := false })
    fun _ => rfl
  rcases restore_cases h with ⟨e, -, rfl, rfl⟩ | ⟨e, -, -, rfl, rfl⟩ | ⟨c, -, -, hc, rfl, rfl⟩
  · exact ⟨hm, hs, .refl _⟩
  · exact ⟨(hm.grows hsame.grows).update hnum hm.args_length hm.temps_length rfl rfl
      fun c hc => .inl hc, hs.sameTables hsame, hsame.grows⟩
  · have hsame' := hsame.trans (Session.sameTables_note _ (.consumerRestored consumer m.goal))
    refine ⟨Machine.Sound.grows ?_ hsame'.grows, hs.sameTables hsame', hsame'.grows⟩
    refine ⟨hm.args_length, hm.temps_length, fun d hd => ?_,
      fun hd => hm.suspended (Machine.suspended_restored hd).2, hnum⟩
    obtain rfl := List.mem_singleton.1 hd
    exact hm.suspended hc

/-! ## Generators -/

/-- Results may be added to a table if they are answers, and a machine put back if it is
sound. -/
theorem Session.Sound.modifyGenerator (hs : s.Sound P) {f : Generator → Generator}
    (hgoal : ∀ gen, (f gen).goal = gen.goal)
    (hresults : ∀ gen, s.generators[g]? = some gen → ∀ t ∈ (f gen).results.toList,
      t ∈ gen.results.toList ∨ Answer P gen.goal t)
    (hmachine : ∀ gen, s.generators[g]? = some gen → ∀ m, (f gen).machine = some m →
      gen.machine = some m ∨ m.Sound P s (Answer P gen.goal)) :
    (s.modifyGenerator g f).Sound P ∧ s.Grows (s.modifyGenerator g f) := by
  have hlook : ∀ {g' gen'}, (s.modifyGenerator g f).generators[g']? = some gen' →
      s.generators[g']? = some gen' ∨
        ∃ gen, g = g' ∧ s.generators[g]? = some gen ∧ gen' = f gen := by
    intro g' gen' h
    rw [Session.generators_modifyGenerator] at h
    split at h
    · next e =>
      obtain ⟨gen, hgen, rfl⟩ := Option.map_eq_some_iff.1 h
      exact .inr ⟨gen, e, hgen, rfl⟩
    · exact .inl h
  have hgrows : s.Grows (s.modifyGenerator g f) := by
    refine ⟨rfl, Nat.le_refl _, fun _ hk => ⟨_, hk, rfl⟩, fun _ hg' => ?_⟩
    rcases hlook hg' with h1 | ⟨gen, rfl, h1, rfl⟩
    · exact ⟨_, h1, rfl⟩
    · exact ⟨gen, h1, hgoal gen⟩
  refine ⟨⟨fun hg' => ?_, hs.consumer_lt, hs.goal_lt, fun hkey hg' => ?_, fun hg' ht => ?_,
    fun hg' hm => ?_⟩, hgrows⟩
  · rcases hlook hg' with h1 | ⟨gen, rfl, h1, rfl⟩
    · exact hs.generator_lt h1
    · exact hs.generator_lt h1
  · rcases hlook hg' with h1 | ⟨gen, rfl, h1, rfl⟩
    · exact hs.goal_eq hkey h1
    · rw [hgoal]
      exact hs.goal_eq hkey h1
  · rcases hlook hg' with h1 | ⟨gen, rfl, h1, rfl⟩
    · exact hs.results h1 ht
    · rw [hgoal]
      rcases hresults gen h1 _ ht with ht | ht
      · exact hs.results h1 ht
      · exact ht
  · rcases hlook hg' with h1 | ⟨gen, rfl, h1, rfl⟩
    · exact (hs.machine h1 hm).grows hgrows
    · rw [hgoal]
      rcases hmachine gen h1 _ hm with hm | hm
      · exact (hs.machine h1 hm).grows hgrows
      · exact hm.grows hgrows

/-- The generator `g` is, or was, about this goal. -/
def Session.About (s : Session) (g : Nat) (goal : Triple) : Prop :=
  g < s.nextId ∧ ∀ gen, s.generators[g]? = some gen → gen.goal = goal

theorem Session.About.grows {goal : Triple} (h : s.About g goal) (hs : s.Grows s') :
    s'.About g goal := by
  refine ⟨Nat.lt_of_lt_of_le h.1 hs.nextId_le, fun gen hgen => ?_⟩
  obtain ⟨gen0, h0, e⟩ := hs.generator h.1 hgen
  rw [e]
  exact h.2 gen0 h0

theorem collect_sound (hP : P.Compiled) {goal : Triple} {added n : Nat} {x : Except Failure Bool}
    (hm : m.Sound P s (Answer P goal)) (hs : s.Sound P) (hg : s.About g goal)
    (h : Session.collect (P.world st) g f added m s = some (x, n, m', s')) :
    m'.Sound P s' (Answer P goal) ∧ s'.Sound P ∧ s.Grows s' := by
  induction f generalizing added m s with
  | zero => cases h
  | succ f ih =>
    rw [Session.collect] at h
    split at h
    · cases h
    · next e m1 s1 hnext =>
      obtain ⟨h1, h2, h3, -⟩ := next_sound hP hm hs hnext
      cases h
      exact ⟨h1, h2, h3⟩
    · next m1 s1 hnext =>
      obtain ⟨h1, h2, h3, -⟩ := next_sound hP hm hs hnext
      cases h
      exact ⟨h1, h2, h3⟩
    · next t m1 s1 hnext =>
      obtain ⟨h1, h2, h3, h4⟩ := next_sound hP hm hs hnext
      have hg1 := hg.grows h3
      split at h
      · cases h
        exact ⟨h1, h2, h3⟩
      · next gen hgen =>
        obtain ⟨h5, h6⟩ := h2.modifyGenerator (g := g)
          (f := fun gen => { gen with results := gen.results.push t }) (fun _ => rfl)
          (fun gen' hgen' t' ht' => by
            rw [Index.toList_push] at ht'
            rcases List.mem_append.1 ht' with ht' | ht'
            · exact .inl ht'
            · obtain rfl := List.mem_singleton.1 ht'
              rw [hg1.2 gen' hgen']
              exact .inr (h4 _ rfl))
          (fun _ _ _ hm => .inl hm)
        split at h
        · simp only at h
          split at h
          · cases h
            exact ⟨h1.grows h6, h5, h3.trans h6⟩
          · obtain ⟨h7, h8, h9⟩ := ih (h1.grows h6) h5 (hg1.grows h6) h
            exact ⟨h7, h8, (h3.trans h6).trans h9⟩
        · obtain ⟨h7, h8, h9⟩ := ih h1 h2 hg1 h
          exact ⟨h7, h8, h3.trans h9⟩

theorem endPump_sound {goal : Triple} (added : Nat) (hm : m.Sound P s (Answer P goal))
    (hs : s.Sound P) (hg : s.About g goal) :
    (s.endPump g added m).Sound P ∧ s.Grows (s.endPump g added m) := by
  unfold Session.endPump
  split
  · exact ⟨hs, .refl s⟩
  · next gen hgen =>
    obtain ⟨h1, h2⟩ := hs.modifyGenerator (g := g) (f := fun gen => { gen with machine := some m })
      (fun _ => rfl) (fun _ _ _ ht => .inl ht)
      (fun gen' hgen' m' hm' => by
        cases hm'
        rw [hg.2 gen' hgen']
        exact .inr hm)
    have hnote := (s.modifyGenerator g fun gen => { gen with machine := some m }).sameTables_note
      (.generatorPumped g gen.goal added gen.results.size)
    exact ⟨h1.sameTables hnote, h2.trans hnote.grows⟩

theorem Session.sameTables_settle (s : Session) (g : Nat) (finished : Bool) (added : Nat) :
    s.SameTables (s.settle g finished added) := by
  unfold Session.settle
  split
  · exact s.sameTables_complete _ g
  · split
    · exact .refl s
    · exact s.sameTables_wakeReaders g

/-- The machine that is to run, from a consumer if one is given. -/
def Machine.resumed (resume : Option Nat) (m : Machine) (s : Session) :
    Except Failure Unit × Machine × Session :=
  match resume with
  | some c => m.restore c s
  | none => (.ok (), m, s)

theorem pumpMachine_eq (w : World) (f g : Nat) (resume : Option Nat) (m : Machine) (s : Session) :
    s.pumpMachine w f g resume m =
      match m.resumed resume s with
      | (.error e, m, s) => some (.error e, s.endPump g 0 m)
      | (.ok (), m, s) =>
        match Session.collect w g f 0 m s with
        | none => none
        | some (.error e, added, m, s) => some (.error e, s.endPump g added m)
        | some (.ok finished, added, m, s) =>
          some (.ok (), (s.endPump g added m).settle g finished added) := by
  unfold Session.pumpMachine Machine.resumed
  cases resume with
  | none => rfl
  | some c =>
    simp only
    rcases m.restore c s with ⟨e | ⟨⟩, m1, s1⟩ <;> rfl

theorem resumed_sound {resume : Option Nat} {x : Except Failure Unit} (hm : m.Sound P s K)
    (hs : s.Sound P) (h : m.resumed resume s = (x, m', s')) :
    m'.Sound P s' K ∧ s'.Sound P ∧ s.Grows s' := by
  cases resume with
  | none =>
    cases h
    exact ⟨hm, hs, .refl s⟩
  | some c => exact restore_sound hm hs h

theorem pumpMachine_sound (hP : P.Compiled) {goal : Triple} {resume : Option Nat}
    {x : Except Failure Unit} (hm : m.Sound P s (Answer P goal)) (hs : s.Sound P)
    (hg : s.About g goal) (h : s.pumpMachine (P.world st) f g resume m = some (x, s')) :
    s'.Sound P ∧ s.Grows s' := by
  rw [pumpMachine_eq] at h
  split at h
  · next e m1 s1 hr =>
    obtain ⟨h1, h2, h3⟩ := resumed_sound hm hs hr
    cases h
    obtain ⟨h4, h5⟩ := endPump_sound 0 h1 h2 (hg.grows h3)
    exact ⟨h4, h3.trans h5⟩
  · next m1 s1 hr =>
    obtain ⟨h1, h2, h3⟩ := resumed_sound hm hs hr
    split at h
    · cases h
    · next e added m2 s2 hcollect =>
      obtain ⟨h4, h5, h6⟩ := collect_sound hP h1 h2 (hg.grows h3) hcollect
      obtain ⟨h7, h8⟩ := endPump_sound added h4 h5 ((hg.grows h3).grows h6)
      cases h
      exact ⟨h7, (h3.trans h6).trans h8⟩
    · next finished added m2 s2 hcollect =>
      obtain ⟨h4, h5, h6⟩ := collect_sound hP h1 h2 (hg.grows h3) hcollect
      obtain ⟨h7, h8⟩ := endPump_sound added h4 h5 ((hg.grows h3).grows h6)
      have hsame := (s2.endPump g added m2).sameTables_settle g finished added
      cases h
      exact ⟨h7.sameTables hsame, ((h3.trans h6).trans h8).trans hsame.grows⟩

/-- The generator whose machine is to run is no longer new, or its consumer no longer
waits. -/
def Session.prepared (s : Session) (g : Nat) (resume : Option Nat) : Session :=
  match resume with
  | some c => s.unblock (.generator g) c
  | none => s.modifyGenerator g fun gen => { gen with ready := false }

theorem Session.sameTables_prepared (s : Session) (g : Nat) (resume : Option Nat) :
    s.SameTables (s.prepared g resume) := by
  cases resume with
  | none => exact s.sameTables_modifyGenerator g fun _ => ⟨rfl, rfl, .inl rfl⟩
  | some c => exact s.sameTables_unblock (.generator g) c

theorem pump_eq (w : World) (f g : Nat) (resume : Option Nat) (s : Session) :
    s.pump w f g resume =
      match s.generators[g]? with
      | none => some (.ok (), s)
      | some gen =>
        if gen.complete then some (.ok (), s)
        else
          match gen.machine with
          | none => some (.ok (), s.prepared g resume)
          | some m => Session.pumpMachine w f g resume m
            ((s.prepared g resume).modifyGenerator g fun gen => { gen with machine := none }) := by
  unfold Session.pump Session.prepared
  cases resume <;> rfl

theorem pump_sound (hP : P.Compiled) {resume : Option Nat} {x : Except Failure Unit}
    (hs : s.Sound P) (h : s.pump (P.world st) f g resume = some (x, s')) :
    s'.Sound P ∧ s.Grows s' := by
  rw [pump_eq] at h
  split at h
  · cases h
    exact ⟨hs, .refl s⟩
  · next gen hgen =>
    have hprep := s.sameTables_prepared g resume
    have habout : s.About g gen.goal := by
      refine ⟨hs.generator_lt hgen, fun gen' hgen' => ?_⟩
      rw [hgen] at hgen'
      cases hgen'
      rfl
    split at h
    · cases h
      exact ⟨hs, .refl s⟩
    · split at h
      · cases h
        exact ⟨hs.sameTables hprep, hprep.grows⟩
      · next m hm =>
        have hout := (s.prepared g resume).sameTables_modifyGenerator g
          (f := fun gen => { gen with machine := none }) fun _ => ⟨rfl, rfl, .inr rfl⟩
        have hall := hprep.trans hout
        obtain ⟨h1, h2⟩ := pumpMachine_sound hP ((hs.machine hgen hm).grows hall.grows)
          (hs.sameTables hall) (habout.grows hall.grows) h
        exact ⟨h1, hall.grows.trans h2⟩

/-! ## The agenda -/

theorem Session.sameTables_takeUp (s : Session) (task : Task) :
    s.SameTables (s.takeUp task).2 := by
  cases task with
  | start g =>
    simp only [Session.takeUp]
    split <;> exact .refl s
  | resume c =>
    have hsame := s.sameTables_modifyConsumer c (f := fun k => { k with scheduled := false })
      fun _ => rfl
    simp only [Session.takeUp]
    split <;> exact hsame

theorem Session.sameTables_endBatch (s : Session) (size : Nat) (batch : List Nat) :
    s.SameTables (s.endBatch size batch).2 := by
  unfold Session.endBatch
  split
  · exact s.sameTables_checkCompletion batch
  · exact .refl s

theorem runAgenda_sound (hP : P.Compiled) {q : Nat} {batch : List Nat} {x : Except Failure Unit}
    (hs : s.Sound P) (h : s.runAgenda (P.world st) q f batch = some (x, s')) :
    s'.Sound P ∧ s.Grows s' := by
  induction f generalizing batch s with
  | zero => cases h
  | succ f ih =>
    rw [Session.runAgenda] at h
    split at h
    · next task agenda hready hpop =>
      have hsame := (s.sameTables_agenda agenda).trans
        (Session.sameTables_takeUp { s with agenda } task)
      split at h
      · next s1 htake =>
        rw [htake] at hsame
        obtain ⟨h1, h2⟩ := ih (hs.sameTables hsame) h
        exact ⟨h1, hsame.grows.trans h2⟩
      · next g resume s1 htake =>
        rw [htake] at hsame
        split at h
        · cases h
        · next e s2 hpump =>
          obtain ⟨h1, h2⟩ := pump_sound hP (hs.sameTables hsame) hpump
          cases h
          exact ⟨h1, hsame.grows.trans h2⟩
        · next s2 hpump =>
          obtain ⟨h1, h2⟩ := pump_sound hP (hs.sameTables hsame) hpump
          have hbatch := s2.sameTables_endBatch
            (max (P.world st).settings.completionCycles 1) (batch ++ [g])
          obtain ⟨h3, h4⟩ := ih (h1.sameTables hbatch) h
          exact ⟨h3, (hsame.grows.trans h2).trans (hbatch.grows.trans h4)⟩
    · have hsame := Session.sameTables_checkCompletion s batch
      cases h
      split
      · exact ⟨hs, .refl _⟩
      · exact ⟨hs.sameTables hsame, hsame.grows⟩

/-! ## The machine of a query -/

theorem Session.sameTables_takeReady {q c : Nat} (h : s.takeReady q = some (c, s')) :
    s.SameTables s' := by
  unfold Session.takeReady at h
  obtain ⟨c', -, e⟩ := Option.map_eq_some_iff.1 h
  cases e
  exact s.sameTables_queries _

/-- What a query finds, now and later, is in `K`. -/
def FindsOnly (P : Program) (K : Triple → Prop) (s : Session) (o : Except Failure (Option Triple))
    (m' : Machine) (s' : Session) : Prop :=
  m'.Sound P s' K ∧ s'.Sound P ∧ s.Grows s' ∧ ∀ t, o = .ok (some t) → K t

theorem FindsOnly.after {o : Except Failure (Option Triple)} {s1 : Session} (hs : s.Grows s1)
    (h : FindsOnly P K s1 o m' s') : FindsOnly P K s o m' s' :=
  ⟨h.1, h.2.1, hs.trans h.2.2.1, h.2.2.2⟩

-- `advance` and `await` call each other with less fuel
theorem advance_await_sound (hP : P.Compiled) {q : Nat} (f : Nat) :
    (∀ {m s o m' s'}, m.Sound P s K → s.Sound P →
      Session.advance (P.world st) q f m s = some (o, m', s') → FindsOnly P K s o m' s') ∧
    ∀ {m s o m' s'}, m.Sound P s K → s.Sound P →
      Session.await (P.world st) q f m s = some (o, m', s') → FindsOnly P K s o m' s' := by
  induction f with
  | zero =>
    refine ⟨fun _ _ h => ?_, fun _ _ h => ?_⟩
    · cases h
    · cases h
  | succ f ih =>
    obtain ⟨ihadvance, ihawait⟩ := ih
    -- what is waited for is not lost when tables are only completed
    have again : ∀ {m s s1 o m' s'}, s.SameTables s1 → m.Sound P s K → s.Sound P →
        Session.await (P.world st) q f m s1 = some (o, m', s') → FindsOnly P K s o m' s' :=
      fun hsame hm hs h =>
        (ihawait (hm.grows hsame.grows) (hs.sameTables hsame) h).after hsame.grows
    refine ⟨fun {m s o m' s'} hm hs h => ?_, fun {m s o m' s'} hm hs h => ?_⟩
    · rw [Session.advance] at h
      split at h
      · next m1 s1 hnext =>
        obtain ⟨h1, h2, h3, -⟩ := next_sound hP hm hs hnext
        exact (ihawait h1 h2 h).after h3
      · exact next_sound hP hm hs h
    · rw [Session.await] at h
      split at h
      · next c s1 htake =>
        have hsame := Session.sameTables_takeReady htake
        have hm1 := hm.grows hsame.grows
        have hs1 := hs.sameTables hsame
        split at h
        · next e m2 s2 hrestore =>
          obtain ⟨h1, h2, h3⟩ := restore_sound hm1 hs1 hrestore
          cases h
          exact ⟨h1, h2, hsame.grows.trans h3, fun t e => by cases e⟩
        · next m2 s2 hrestore =>
          obtain ⟨h1, h2, h3⟩ := restore_sound hm1 hs1 hrestore
          exact (ihadvance h1 h2 h).after (hsame.grows.trans h3)
      · split at h
        · cases h
          have hnote := s.sameTables_note (.queryDone q)
          exact ⟨hm.grows hnote.grows, hs.sameTables hnote, hnote.grows, fun t e => by cases e⟩
        · split at h
          · cases h
          · next e s1 hrun =>
            obtain ⟨h1, h2⟩ := runAgenda_sound hP hs hrun
            cases h
            exact ⟨hm.grows h2, h1, h2, fun t e => by cases e⟩
          · next s1 hrun =>
            obtain ⟨h1, h2⟩ := runAgenda_sound hP hs hrun
            have hm1 := hm.grows h2
            have hcheck := s1.sameTables_checkCompletion (s1.blockedOn q)
            simp only at h
            split at h
            · exact (ihawait hm1 h1 h).after h2
            · split at h
              · exact (again hcheck hm1 h1 h).after h2
              · exact (again (hcheck.trans (.foldl (fun s g => s.sameTables_complete _ g) _ _))
                  hm1 h1 h).after h2

theorem advance_sound (hP : P.Compiled) {q : Nat} {o : Except Failure (Option Triple)}
    (hm : m.Sound P s K) (hs : s.Sound P)
    (h : Session.advance (P.world st) q f m s = some (o, m', s')) : FindsOnly P K s o m' s' :=
  (advance_await_sound hP f).1 hm hs h

end TabledRules
