-- Pumps of tables over rules that build no terms. The machine of a table runs until it
-- has nothing to try, and the agenda is run until no task is left: each of these comes
-- to an end, since it is paid for.
import TabledRules.Proofs.FlatRuns
import TabledRules.Proofs.Upkeep

namespace TabledRules

section

variable {P : Program} {facts : List Triple} {S T : Stock} {st : Settings} {s s' s1 : Session}
  {m m' : Machine} {goal : Triple} {g added q : Nat} {c : Choice}

/-! ## Machines that go on -/

/-- A machine that goes on with a consumer that has something to read. -/
theorem restore_fares {d : Nat} (hs : s.Within P facts T) (hm : m.Flat P facts S s)
    (hready : ∀ c, m.suspended[d]? = some c → (s.read d).1 ≠ .pending) (hr : m.restore d s = (.ok (), m', s')) :
    s'.Within P facts T ∧ m'.Flat P facts S s' ∧ s.Ebbs s' ∧
      m'.cost (P.scale facts T) s' + s'.cost P facts T <
        m.cost (P.scale facts T) s + s.cost P facts T := by
  obtain ⟨c, hstack, hc, hnoted, rfl⟩ := restore_eq hr
  have hebbs := (s.ebbs_released (some d)).trans hnoted.ebbs
  have hnext : Underway P facts S T .backtrack (m.restored d c) s := ⟨hs, hm.restored hc, trivial⟩
  obtain ⟨h1, h2, hle⟩ := hnext.ebbs hebbs
  obtain ⟨-, goal, halt⟩ := hm.suspended hc
  have hback := hm.cost_restored (P.scale facts T) hstack hc
  have hlt := Choice.cost_lt_waitCost halt (hready c hc) (P.scale facts T)
  exact ⟨h1, h2, hebbs, by omega⟩

theorem Session.read_ne_pending {d : Nat} (h : s.isReady d = true) : (s.read d).1 ≠ .pending := by
  intro hp
  obtain ⟨k, gen, hk, hgen, hsize, hinc⟩ := of_read_pending hp
  obtain ⟨k', hk', -, hready⟩ := isReady_iff.1 h
  cases hk.symm.trans hk'
  rcases hready gen hgen with hlt | hc
  · exact absurd hlt (Nat.not_lt.2 hsize)
  · rw [hc] at hinc
    cases hinc

/-! ## Pumps -/

/-- What comes of a collection that does not fail: all of it is paid for, unless there was nothing
to try. -/
structure Gathers (P : Program) (facts : List Triple) (S T : Stock) (added : Nat) (m : Machine)
    (s : Session) (n : Nat) (m' : Machine) (s' : Session) : Prop where
  active : Underway P facts S T .backtrack m' s'
  recedes : s.Recedes (P.scale facts T).results s'
  paid : toll P facts T .backtrack m' s' < toll P facts T .backtrack m s ∨
    n = added ∧ m' = m ∧ s' = s

def Gathered (P : Program) (facts : List Triple) (S T : Stock) (added : Nat) (m : Machine)
    (s : Session) : Except Failure Bool × Nat × Machine × Session → Prop
  | (.ok _, n, m', s') => Gathers P facts S T added m s n m' s'
  | (.error _, _, _, _) => True

theorem Gathered.after {x : Except Failure Bool × Nat × Machine × Session} {added1 : Nat}
    {m1 : Machine} (h : Gathered P facts S T added1 m1 s1 x)
    (hs : s.Recedes (P.scale facts T).results s1)
    (hlt : toll P facts T .backtrack m1 s1 < toll P facts T .backtrack m s) :
    Gathered P facts S T added m s x := by
  obtain ⟨e | finished, n, m', s'⟩ := x
  · trivial
  · obtain ⟨h1, h2, hpaid⟩ := h
    refine ⟨h1, hs.trans h2, .inl ?_⟩
    rcases hpaid with hpaid | ⟨-, rfl, rfl⟩
    · exact hpaid.trans hlt
    · exact hlt

theorem collect_settles (st : Settings) (added : Nat)
    (hP : P.Bounded facts (P.stock facts goal) T) (hg : s.About g goal)
    (ha : Underway P facts (P.stock facts goal) T .backtrack m s) :
    Settles (fun n => Session.collect (P.world st) g n added m s)
      (Gathered P facts (P.stock facts goal) T added m s) := by
  generalize htoll : toll P facts T .backtrack m s = k
  induction k using Nat.strong_induction_on generalizing added m s with
  | h k ih =>
    refine .succ (g := fun n => Session.collect (P.world st) g (n + 1) added m s) ?_ rfl
      fun n => rfl
    refine (next_settles st hP ha).andThen (fun n hn => by rw [Session.collect, hn]) fun x hx => ?_
    rcases x with ⟨e | _ | t, m1, s1⟩
    · exact ⟨fun _ => some (.error e, added, m1, s1), .pure trivial,
        fun n hn => by rw [Session.collect, hn]⟩
    · obtain ⟨h1, h2, -, hpaid⟩ := hx
      refine ⟨fun _ => some (.ok (((s1.generators[g]?).map fun gen =>
        gen.generating.isEmpty).getD true), added, m1, s1), .pure ⟨h1, h2, ?_⟩,
        fun n hn => by rw [Session.collect, hn]⟩
      rcases hpaid with hlt | ⟨-, -, rfl, rfl⟩
      · exact .inl hlt
      · exact .inr ⟨rfl, rfl, rfl⟩
    · have hlt : toll P facts T .backtrack m1 s1 < toll P facts T .backtrack m s := by
        rcases hx.paid with hlt | ⟨e, -⟩
        · exact hlt
        · cases e
      have hg1 := hg.grows hx.recedes.grows
      have ht := hx.settled t rfl
      cases hgen : s1.generators[g]? with
      | none =>
        exact ⟨fun _ => some (.ok true, added, m1, s1), .pure ⟨hx.active, hx.recedes, .inl hlt⟩,
          fun n hn => by simp only [Session.collect, hn, hgen]⟩
      | some gen =>
        by_cases hnew : gen.isNew t = true
        · -- a new result
          have hresult : t.Settled (P.stock facts gen.goal) := by
            rw [hg1.2 gen hgen]
            exact ht
          have hrecedes := (hx.active.tables.toFlat.push hgen hnew hresult).2 (P.scale facts T).results
          obtain ⟨hs2, hcost⟩ := hx.active.tables.push hgen hnew hresult
          have hmcost := hx.active.machine.cost_le (P.scale facts T) hrecedes
          generalize hpush : s1.modifyGenerator g
            (fun gen => { gen with results := gen.results.push t }) = s2 at hrecedes hs2 hcost hmcost
          have ha2 : Underway P facts (P.stock facts goal) T .backtrack m1 s2 :=
            ⟨hs2, hx.active.machine.grows hrecedes.grows, trivial⟩
          have hlt2 : toll P facts T .backtrack m1 s2 < toll P facts T .backtrack m s := by
            refine Nat.lt_of_le_of_lt ?_ hlt
            unfold toll
            omega
          by_cases hsingle : gen.isSingleton = true
          · exact ⟨fun _ => some (.ok true, added + 1, m1, s2), .pure
              ⟨ha2, hx.recedes.trans hrecedes, .inl hlt2⟩,
              fun n hn => by simp only [Session.collect, hn, hgen, hnew, hsingle, hpush, if_true]⟩
          · exact ⟨_, (ih _ (htoll ▸ hlt2) (added + 1) (hg1.grows hrecedes.grows) ha2 rfl).imp fun x hx2 =>
              hx2.after (hx.recedes.trans hrecedes) hlt2,
              fun n hn => by simp only [Session.collect, hn, hgen, hnew, hsingle, hpush, if_true,
                Bool.false_eq_true, if_false]⟩
        · exact ⟨_, (ih _ (htoll ▸ hlt) added hg1 hx.active rfl).imp fun x hx2 =>
            hx2.after hx.recedes hlt,
            fun n hn => by simp only [Session.collect, hn, hgen, hnew, Bool.false_eq_true, if_false]⟩

/-- What comes of a pump that does not fail, with `k` to pay for the machine that is out: all of it
is paid for, unless nothing new is on the agenda. -/
structure Session.Pays (P : Program) (facts : List Triple) (T : Stock) (k : Nat) (s s' : Session) :
    Prop where
  tables : s'.Within P facts T
  recedes : s.Recedes (P.scale facts T).results s'
  paid : s'.cost P facts T < s.cost P facts T + k ∨
    s'.cost P facts T ≤ s.cost P facts T + k ∧ s'.agenda = s.agenda

def Session.Paid (P : Program) (facts : List Triple) (T : Stock) (k : Nat) (s : Session) :
    Except Failure Unit × Session → Prop
  | (.ok (), s') => s.Pays P facts T k s'
  | (.error _, _) => True

theorem agenda_endPump (s : Session) (g n : Nat) (m : Machine) :
    (s.endPump g n m).agenda = s.agenda := by
  unfold Session.endPump
  split <;> rfl

/-- Where results were added, or the table becomes complete, that is paid for. -/
theorem Session.Within.settle (h : s.Within P facts T) (g : Nat) (finished : Bool) (added : Nat) :
    s.Ebbs (s.settle g finished added) ∧
      (s.settle g finished added = s ∨ 0 < added ∨
        (s.settle g finished added).cost P facts T < s.cost P facts T) := by
  unfold Session.settle
  split
  · exact ⟨s.ebbs_complete _ g, (h.complete _ g).imp_right .inr⟩
  · split
    · exact ⟨.refl s, .inl rfl⟩
    · exact ⟨s.ebbs_wakeReaders g, .inr (.inl (by omega))⟩

/-- The machine is put back. -/
theorem Gathers.settled {n : Nat} (finished : Bool)
    (h : Gathers P facts (P.stock facts goal) T 0 m s n m' s') (hg : s.About g goal) :
    s.Pays P facts T (m.cost (P.scale facts T) s) ((s'.endPump g n m').settle g finished n) := by
  obtain ⟨⟨hs, hm, -⟩, hrecedes, hpaid⟩ := h
  obtain ⟨h1, h2, h3⟩ := hs.endPump (hg.grows hrecedes.grows) hm n
  obtain ⟨hebbs, hsettle⟩ := h1.settle g finished n
  have hcost := h1.toFlat.cost_ebbs (T := T) hebbs
  refine ⟨h1.ebbs hebbs, (hrecedes.trans (h2 _)).trans (hebbs.recedes _), ?_⟩
  rcases hpaid with hlt | ⟨rfl, rfl, rfl⟩
  · refine .inl ?_
    unfold toll at hlt
    omega
  · rcases hsettle with e | hpos | hlt
    · rw [e]
      exact .inr ⟨h3, agenda_endPump _ _ _ _⟩
    · omega
    · exact .inl (by omega)

theorem pumpMachine_settles (hP : P.Bounded facts (P.stock facts goal) T) {resume : Option Nat}
    (hs : s.Within P facts T) (hg : s.About g goal) (hm : m.Flat P facts (P.stock facts goal) s)
    (hresume : ∀ d ∈ resume, ∀ c, m.suspended[d]? = some c → (s.read d).1 ≠ .pending) :
    Settles (fun n => s.pumpMachine (P.world st) n g resume m)
      (s.Paid P facts T (m.cost (P.scale facts T) s)) := by
  -- whether it goes on with a consumer or not, the machine has something to run
  have hgo : ∀ m1 s1, m.resumed resume s = (.ok (), m1, s1) →
      s1.Within P facts T ∧ m1.Flat P facts (P.stock facts goal) s1 ∧ s.Ebbs s1 ∧
        (m1.cost (P.scale facts T) s1 + s1.cost P facts T <
          m.cost (P.scale facts T) s + s.cost P facts T ∨ m1 = m ∧ s1 = s) := by
    intro m1 s1 hr
    cases resume with
    | none =>
      cases hr
      exact ⟨hs, hm, .refl s, .inr ⟨rfl, rfl⟩⟩
    | some d =>
      obtain ⟨h1, h2, h3, h4⟩ := restore_fares hs hm (hresume d rfl) hr
      exact ⟨h1, h2, h3, .inl h4⟩
  simp only [pumpMachine_eq]
  rcases hr : m.resumed resume s with ⟨e | ok, m1, s1⟩
  · exact .pure trivial
  · cases ok
    obtain ⟨hs1, hm1, hebbs, hcost⟩ := hgo m1 s1 hr
    refine (collect_settles st 0 hP (hg.grows hebbs.grows) ⟨hs1, hm1, trivial⟩).andThen
      (fun n hn => by simp only [hn]) fun x hx => ?_
    obtain ⟨e | finished, added, m2, s2⟩ := x
    · exact ⟨fun _ => some (.error e, s2.endPump g added m2), .pure trivial,
        fun n hn => by simp only [hn]⟩
    · obtain ⟨h1, h2, h3⟩ := Gathers.settled finished hx (hg.grows hebbs.grows)
      refine ⟨fun _ => some (.ok (), (s2.endPump g added m2).settle g finished added), .pure
        ⟨h1, (hebbs.recedes _).trans h2, ?_⟩, fun n hn => by simp only [hn]⟩
      rcases hcost with hlt | ⟨rfl, rfl⟩
      · exact .inl (by omega)
      · exact h3

theorem Session.find_prepared {gen : Generator} (hgen : s.generators[g]? = some gen)
    (resume : Option Nat) : ∃ gen' : Generator, (s.prepared g resume).generators[g]? = some gen' ∧
      gen'.complete = gen.complete ∧ gen'.machine = gen.machine := by
  cases resume with
  | none =>
    refine ⟨{ gen with ready := false }, ?_, rfl, rfl⟩
    change (s.modifyGenerator g _).generators[g]? = _
    rw [generators_modifyGenerator, if_pos rfl, hgen]
    rfl
  | some d =>
    refine ⟨{ gen with generating := gen.generating.filter (· ≠ d) }, ?_, rfl, rfl⟩
    change (s.modifyGenerator g _).generators[g]? = _
    rw [generators_modifyGenerator, if_pos rfl, hgen]
    rfl

/-- The pump of a table comes to an end. -/
theorem pump_settles (st : Settings) (hP : P.Simple facts) (hT : P.Serves facts T) {resume : Option Nat}
    (hs : s.Within P facts T) (hresume : ∀ c ∈ resume, s.isReady c = true) :
    Settles (fun n => s.pump (P.world st) n g resume) (s.Paid P facts T 0) := by
  have hprepared : ∀ s1, s.Ebbs s1 → s1.agenda = s.agenda → s.Pays P facts T 0 s1 :=
    fun s1 hebbs e => ⟨hs.ebbs hebbs, hebbs.recedes _, .inr ⟨hs.toFlat.cost_ebbs hebbs, e⟩⟩
  have hagenda : (s.prepared g resume).agenda = s.agenda := by
    cases resume <;> rfl
  simp only [pump_eq]
  cases hgen : s.generators[g]? with
  | none => exact .pure (hprepared s (.refl s) rfl)
  | some gen =>
    simp only
    split
    · exact .pure (hprepared s (.refl s) rfl)
    · next hinc =>
      cases hmachine : gen.machine with
      | none => exact .pure (hprepared _ (s.ebbs_prepared g resume) hagenda)
      | some m =>
        have hebbs := s.ebbs_prepared g resume
        have hout := (s.prepared g resume).ebbs_takeOut g
        have hboth := hebbs.trans hout
        have hm := hs.machine hgen hmachine
        obtain ⟨gen1, hgen1, hinc1, hmachine1⟩ := Session.find_prepared hgen resume
        have hcost := (hs.ebbs hebbs).cost_takeOut hgen1
          (hinc1.trans (by simpa using hinc)) (hmachine1.trans hmachine)
        have hprep := hs.toFlat.cost_ebbs (T := T) hebbs
        have hmcost := (hm.grows hebbs.grows).cost_le (P.scale facts T) (hout.recedes _)
        have habout : s.About g gen.goal :=
          ⟨hs.generator_lt hgen, fun gen' hgen' => by cases hgen.symm.trans hgen'; rfl⟩
        have hbounded : P.Bounded facts (P.stock facts gen.goal) T :=
          ⟨hP, P.serves_stock facts gen.goal, hT.stock (hs.goal_over hgen)⟩
        refine (pumpMachine_settles hbounded (hs.ebbs hboth) (habout.grows hboth.grows)
          (hm.grows hboth.grows) fun d hd c hc hp => ?_).imp fun x hx => ?_
        · -- the consumer has as much to read as before
          obtain ⟨hflat, goal, halt⟩ := hm.suspended hc
          have hall := hflat.alternatives
          rw [halt] at hall
          obtain ⟨-, key, hreads, -⟩ := hall
          exact Session.read_ne_pending (hresume d hd) (hboth.pending hreads hp)
        · obtain ⟨e | ok, s1⟩ := x
          · trivial
          · obtain ⟨h1, h2, h3⟩ := hx
            have hnone : ((s.prepared g resume).modifyGenerator g
                fun gen => { gen with machine := none }).agenda = s.agenda := hagenda
            rw [hnone] at h3
            refine ⟨h1, (hboth.recedes _).trans h2, ?_⟩
            rcases h3 with hlt | ⟨hle, e⟩
            · exact .inl (by omega)
            · exact .inr ⟨by omega, e⟩

/-! ## The agenda -/

theorem Session.ebbs_completeAll (event : Triple → Nat → Event) (gs : List Nat) (s : Session) :
    s.Ebbs (gs.foldl (complete event) s) := by
  induction gs generalizing s with
  | nil => exact .refl s
  | cons g gs ih => exact (s.ebbs_complete event g).trans (ih _)

/-- Tables that become complete cost nothing any more. -/
theorem Session.Within.completeAll (h : s.Within P facts T) (event : Triple → Nat → Event)
    (gs : List Nat) : gs.foldl (Session.complete event) s = s ∨
      (gs.foldl (Session.complete event) s).cost P facts T < s.cost P facts T := by
  induction gs generalizing s with
  | nil => exact .inl rfl
  | cons g gs ih =>
    rw [List.foldl_cons]
    have hrest := ih (h.ebbs (s.ebbs_complete event g))
    rcases h.complete event g with e | hlt
    · rw [e] at hrest ⊢
      exact hrest
    · rcases hrest with e | hlt'
      · exact .inr (by rw [e]; exact hlt)
      · exact .inr (hlt'.trans hlt)

theorem Session.ebbs_checkCompletion (s : Session) (roots : List Nat) :
    s.Ebbs (s.checkCompletion roots) := by
  rw [checkCompletion_eq]
  exact Session.ebbs_completeAll _ _ s

theorem Session.Within.endBatch (h : s.Within P facts T) (size : Nat) (batch : List Nat) :
    s.Ebbs (s.endBatch size batch).2 ∧ ((s.endBatch size batch).2 = s ∨
      (s.endBatch size batch).2.cost P facts T < s.cost P facts T) := by
  unfold Session.endBatch
  split
  · refine ⟨s.ebbs_checkCompletion batch, ?_⟩
    rw [Session.checkCompletion_eq]
    exact h.completeAll _ _
  · exact ⟨.refl s, .inl rfl⟩

/-- The tables are in order, and nothing has become dearer. -/
structure Session.Wanes (P : Program) (facts : List Triple) (T : Stock) (s s' : Session) :
    Prop where
  tables : s'.Within P facts T
  recedes : s.Recedes (P.scale facts T).results s'
  cost_le : s'.cost P facts T ≤ s.cost P facts T

def Session.Waned (P : Program) (facts : List Triple) (T : Stock) (s : Session) :
    Except Failure Unit × Session → Prop
  | (.ok (), s') => s.Wanes P facts T s'
  | (.error _, _) => True

theorem Session.Within.wanes (h : s.Within P facts T) (hs : s.Ebbs s') : s.Wanes P facts T s' :=
  ⟨h.ebbs hs, hs.recedes _, h.toFlat.cost_ebbs hs⟩

theorem Session.Wanes.trans (h : s.Wanes P facts T s1) (h' : s1.Wanes P facts T s') :
    s.Wanes P facts T s' :=
  ⟨h'.tables, h.recedes.trans h'.recedes, h'.cost_le.trans h.cost_le⟩

theorem Session.Waned.after {x : Except Failure Unit × Session} (h : s1.Waned P facts T x)
    (hs : s.Wanes P facts T s1) : s.Waned P facts T x := by
  obtain ⟨e | ok, s'⟩ := x
  · trivial
  · exact hs.trans h

theorem isReady_takeUp {task : Task} {d : Nat} (h : s.takeUp task = (some (g, some d), s')) :
    s'.isReady d = true := by
  cases task with
  | start g' =>
    simp only [Session.takeUp] at h
    split at h
    · split at h <;> cases h
    · cases h
  | resume c =>
    simp only [Session.takeUp] at h
    split at h
    · split at h
      · next hready =>
        cases h
        exact hready
      · cases h
    · cases h

theorem agenda_takeUp {task : Task} {x : Option (Nat × Option Nat)} (h : s.takeUp task = (x, s')) :
    s'.agenda = s.agenda := by
  rcases Session.takeUp_cases h with ⟨g, -, rfl, -⟩ | ⟨d, -, rfl, -⟩ <;> rfl

/-- The agenda is run until the query can go on or no task is left: each task that it takes makes
the tables cheaper, or the agenda shorter. -/
theorem runAgenda_settles (st : Settings) (hP : P.Simple facts) (hT : P.Serves facts T)
    (batch : List Nat) (hs : s.Within P facts T) :
    Settles (fun n => s.runAgenda (P.world st) q n batch) (s.Waned P facts T) := by
  generalize hcost : s.cost P facts T = k
  induction k using Nat.strong_induction_on generalizing s batch with
  | h k ihcost =>
    generalize hlen : s.agenda.toList.length = j
    induction j using Nat.strong_induction_on generalizing s batch with
    | h j ihlen =>
      -- what is cheaper, or has less on its agenda
      have hnext : ∀ s1 batch', s.Wanes P facts T s1 → (s1.cost P facts T < k ∨
          s1.agenda.toList.length < j) →
          Settles (fun n => s1.runAgenda (P.world st) q n batch') (s.Waned P facts T) := by
        intro s1 batch' hwanes hless
        by_cases hlt : s1.cost P facts T < k
        · exact (ihcost _ hlt batch' hwanes.tables rfl).imp fun x hx => hx.after hwanes
        · have hle := hwanes.cost_le
          exact (ihlen _ (hless.resolve_left hlt) batch' hwanes.tables (by omega) rfl).imp
            fun x hx => hx.after hwanes
      refine .succ (g := fun n => s.runAgenda (P.world st) q (n + 1) batch) ?_ rfl fun n => rfl
      simp only [Session.runAgenda]
      split
      · next task agenda hready hpop =>
        have hshort : agenda.toList.length < j := by
          rw [← hlen, Queue.toList_of_pop? hpop]
          exact Nat.lt_succ_self _
        rcases htake : ({ s with agenda } : Session).takeUp task with ⟨_ | ⟨g, resume⟩, s1⟩
        · refine hnext s1 batch (hs.wanes (Session.ebbs_takeUp htake)) (.inr ?_)
          rw [agenda_takeUp htake]
          exact hshort
        · have hup := hs.wanes (Session.ebbs_takeUp htake)
          have hresume : ∀ d ∈ resume, s1.isReady d = true := fun d hd => by
            cases hd
            exact isReady_takeUp htake
          refine (pump_settles st (g := g) hP hT hup.tables hresume).andThen
            (fun n hn => by simp only [hn]) fun x hx => ?_
          obtain ⟨e | ok, s2⟩ := x
          · exact ⟨fun _ => some (.error e, s2), .pure trivial, fun n hn => by simp only [hn]⟩
          · obtain ⟨h1, h2, hpaid⟩ := hx
            rw [Nat.add_zero] at hpaid
            have hle : s2.cost P facts T ≤ s1.cost P facts T :=
              hpaid.elim Nat.le_of_lt And.left
            obtain ⟨hebbs, hend⟩ := h1.endBatch (max st.completionCycles 1) (batch ++ [g])
            have hwanes := (hup.trans ⟨h1, h2, hle⟩).trans (h1.wanes hebbs)
            refine ⟨_, hnext _ _ hwanes ?_, fun n hn => by simp only [hn]; rfl⟩
            have hcost2 := hup.cost_le
            rcases hend with e | hlt
            · rw [e]
              rcases hpaid with hlt | ⟨-, e'⟩
              · exact .inl (by omega)
              · rw [e', agenda_takeUp htake]
                exact .inr hshort
            · exact .inl (by omega)
      · refine .pure ?_
        split
        · exact hs.wanes (.refl s)
        · exact hs.wanes (s.ebbs_checkCompletion batch)

end

end TabledRules
