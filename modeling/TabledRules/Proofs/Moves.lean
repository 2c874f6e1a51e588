-- What happens while a query looks for its next answer, move by move: its own
-- machine takes turns, it waits, tasks are taken from the agenda and the
-- machines of generators take turns. The search comes to an answer by moves, and
-- a failure strikes in place of one.
import Mathlib.Logic.Relation
import TabledRules.Proofs.Forms

namespace TabledRules

/-! ## Moves -/

/-- How far the search for the next answer has come. `own` is the machine of the query, and
`batch` are the generators that have run since the last completion check. -/
inductive Phase where
  /-- The machine of the query runs. -/
  | search (control : Control) (own : Machine)
  /-- The query has nothing left to try before a consumer goes on. -/
  | wait (own : Machine)
  /-- Tasks are to be taken from the agenda. -/
  | agenda (batch : List Nat) (own : Machine)
  /-- The machine `m` of the generator `g` runs and has added `added` results. -/
  | pump (batch : List Nat) (g added : Nat) (control : Control) (m own : Machine)
  /-- The tasks have been run, until the query can go on or none is left. -/
  | returned (own : Machine)
  /-- The query has an answer or has come to its end. -/
  | found (answer : Option Triple) (own : Machine)

/-- How the run of a generator's machine ends: whether the generator is complete then, how many
results were added, and what the machine and the session are. -/
inductive Ends (P : Program) (st : Settings) (g added : Nat) (control : Control) (m : Machine)
    (s : Session) : Bool → Nat → Machine → Session → Prop
  /-- There is nothing left to try. -/
  | dry {m' : Machine} {s' : Session} : Turn P st control m s (.done (.ok none)) m' s' →
    Ends P st g added control m s
      (((s'.generators[g]?).map fun gen => gen.generating.isEmpty).getD true) added m' s'
  /-- A ground goal has its one result. -/
  | single {t : Triple} {gen : Generator} {m' : Machine} {s1 s2 : Session} :
    Turn P st control m s (.done (.ok (some t))) m' s1 → s1.Noted s2 →
    s2.generators[g]? = some gen → gen.isNew t = true → gen.isSingleton = true →
    Ends P st g added control m s true (added + 1) m'
      (s2.modifyGenerator g fun gen => { gen with results := gen.results.push t })
  | gone {t : Triple} {m' : Machine} {s1 s2 : Session} :
    Turn P st control m s (.done (.ok (some t))) m' s1 → s1.Noted s2 →
    s2.generators[g]? = none → Ends P st g added control m s true added m' s2

/-- There is nothing to run in the generator of a task. -/
def Session.Rests (s : Session) (g : Nat) (resume : Option Nat) (s' : Session) : Prop :=
  (s' = s ∧ ∀ gen : Generator, s.generators[g]? = some gen → gen.complete = true) ∨
  (s' = s.prepared g resume ∧
    ∃ gen : Generator, s.generators[g]? = some gen ∧ gen.machine = none)

/-- One move of the search for the next answer of the query `q`. -/
inductive Moves (P : Program) (st : Settings) (q : Nat) :
    Phase × Session → Phase × Session → Prop
  | turn {control control' : Control} {m m' : Machine} {s s' : Session} :
    Turn P st control m s (.go control') m' s' →
    Moves P st q (.search control m, s) (.search control' m', s')
  | answer {control : Control} {m m' : Machine} {s s1 s' : Session} {t : Triple} :
    Turn P st control m s (.done (.ok (some t))) m' s1 → s1.Noted s' →
    Moves P st q (.search control m, s) (.found (some t) m', s')
  | dry {control : Control} {m m' : Machine} {s s' : Session} :
    Turn P st control m s (.done (.ok none)) m' s' →
    Moves P st q (.search control m, s) (.wait m', s')
  | restore {c : Nat} {m m' : Machine} {s s1 s' : Session} : s.takeReady q = some (c, s1) →
    m.restore c s1 = (.ok (), m', s') →
    Moves P st q (.wait m, s) (.search .backtrack m', s')
  | ended {m : Machine} {s : Session} : s.takeReady q = none → s.blocked q = [] →
    Moves P st q (.wait m, s) (.found none m, s.note (.queryDone q))
  | await {m : Machine} {s : Session} : s.takeReady q = none → s.blocked q ≠ [] →
    Moves P st q (.wait m, s) (.agenda [] m, s)
  /-- A task has nothing to do any more. -/
  | skip {batch : List Nat} {own : Machine} {s s' : Session} {task : Task} {agenda : Queue Task} :
    s.queryReady q = false → s.agenda.pop? = some (task, agenda) →
    ({ s with agenda } : Session).takeUp task = (none, s') →
    Moves P st q (.agenda batch own, s) (.agenda batch own, s')
  | rests {batch batch' : List Nat} {own : Machine} {s s1 s2 s' : Session} {task : Task}
    {agenda : Queue Task} {g : Nat} {resume : Option Nat} :
    s.queryReady q = false → s.agenda.pop? = some (task, agenda) →
    ({ s with agenda } : Session).takeUp task = (some (g, resume), s1) → s1.Rests g resume s2 →
    s2.endBatch (max st.completionCycles 1) (batch ++ [g]) = (batch', s') →
    Moves P st q (.agenda batch own, s) (.agenda batch' own, s')
  /-- The machine of a generator is taken out to run. -/
  | start {batch : List Nat} {own m m' : Machine} {s s1 s' : Session} {task : Task}
    {agenda : Queue Task} {g : Nat} {resume : Option Nat} {gen : Generator} :
    s.queryReady q = false → s.agenda.pop? = some (task, agenda) →
    ({ s with agenda } : Session).takeUp task = (some (g, resume), s1) →
    s1.generators[g]? = some gen → gen.complete = false → gen.machine = some m →
    m.resumed resume ((s1.prepared g resume).modifyGenerator g
      fun gen => { gen with machine := none }) = (.ok (), m', s') →
    Moves P st q (.agenda batch own, s) (.pump batch g 0 .backtrack m' own, s')
  | work {batch : List Nat} {g added : Nat} {control control' : Control} {m m' own : Machine}
    {s s' : Session} : Turn P st control m s (.go control') m' s' →
    Moves P st q (.pump batch g added control m own, s) (.pump batch g added control' m' own, s')
  /-- The machine has found what is not new. -/
  | known {batch : List Nat} {g added : Nat} {control : Control} {m m' own : Machine} {t : Triple}
    {gen : Generator} {s s1 s' : Session} : Turn P st control m s (.done (.ok (some t))) m' s1 →
    s1.Noted s' → s'.generators[g]? = some gen → gen.isNew t = false →
    Moves P st q (.pump batch g added control m own, s) (.pump batch g added .backtrack m' own, s')
  /-- The machine has found a new result. -/
  | result {batch : List Nat} {g added : Nat} {control : Control} {m m' own : Machine} {t : Triple}
    {gen : Generator} {s s1 s2 : Session} : Turn P st control m s (.done (.ok (some t))) m' s1 →
    s1.Noted s2 → s2.generators[g]? = some gen → gen.isNew t = true → gen.isSingleton = false →
    Moves P st q (.pump batch g added control m own, s)
      (.pump batch g (added + 1) .backtrack m' own,
        s2.modifyGenerator g fun gen => { gen with results := gen.results.push t })
  /-- The machine of a generator is put back. -/
  | pumped {batch batch' : List Nat} {g added n : Nat} {control : Control} {m m' own : Machine}
    {finished : Bool} {s s1 s' : Session} : Ends P st g added control m s finished n m' s1 →
    ((s1.endPump g n m').settle g finished n).endBatch (max st.completionCycles 1) (batch ++ [g]) =
      (batch', s') →
    Moves P st q (.pump batch g added control m own, s) (.agenda batch' own, s')
  | leave {batch : List Nat} {own : Machine} {s : Session} :
    (s.queryReady q = true ∨ s.agenda.pop? = none) →
    Moves P st q (.agenda batch own, s)
      (.returned own, if batch.isEmpty then s else s.checkCompletion batch)
  | ready {own : Machine} {s : Session} : s.queryReady q = true →
    Moves P st q (.returned own, s) (.wait own, s)
  | check {own : Machine} {s : Session} : s.queryReady q = false →
    (s.checkCompletion (s.blockedOn q)).queryReady q = true →
    Moves P st q (.returned own, s) (.wait own, s.checkCompletion (s.blockedOn q))
  /-- The generators that the query waits for are completed as they are. -/
  | force {own : Machine} {s : Session} : s.queryReady q = false →
    (s.checkCompletion (s.blockedOn q)).queryReady q = false →
    Moves P st q (.returned own, s) (.wait own, (s.blockedOn q).foldl
      (Session.complete .generatorDeadlocked) (s.checkCompletion (s.blockedOn q)))

/-- Any number of moves. -/
abbrev MovesTo (P : Program) (st : Settings) (q : Nat) : Phase × Session → Phase × Session → Prop :=
  Relation.ReflTransGen (Moves P st q)

/-- What goes wrong in place of a move. -/
inductive Stops (P : Program) (st : Settings) (q : Nat) : Phase × Session → Failure → Prop
  | turn {control : Control} {m m' : Machine} {s s' : Session} {e : Failure} :
    Turn P st control m s (.done (.error e)) m' s' → Stops P st q (.search control m, s) e
  | restore {c : Nat} {m m' : Machine} {s s1 s' : Session} {e : Failure} :
    s.takeReady q = some (c, s1) → m.restore c s1 = (.error e, m', s') →
    Stops P st q (.wait m, s) e
  | start {batch : List Nat} {own m m' : Machine} {s s1 s' : Session} {task : Task}
    {agenda : Queue Task} {g : Nat} {resume : Option Nat} {gen : Generator} {e : Failure} :
    s.queryReady q = false → s.agenda.pop? = some (task, agenda) →
    ({ s with agenda } : Session).takeUp task = (some (g, resume), s1) →
    s1.generators[g]? = some gen → gen.complete = false → gen.machine = some m →
    m.resumed resume ((s1.prepared g resume).modifyGenerator g
      fun gen => { gen with machine := none }) = (.error e, m', s') →
    Stops P st q (.agenda batch own, s) e
  | work {batch : List Nat} {g added : Nat} {control : Control} {m m' own : Machine}
    {s s' : Session} {e : Failure} : Turn P st control m s (.done (.error e)) m' s' →
    Stops P st q (.pump batch g added control m own, s) e

/-- A failure after any number of moves. -/
def StopsAfter (P : Program) (st : Settings) (q : Nat) (start : Phase × Session) (e : Failure) :
    Prop :=
  ∃ x, MovesTo P st q start x ∧ Stops P st q x e

/-! ## Machines keep their form -/

/-- All machines are formed, and the one that runs has code to run. -/
def Phase.Formed (P : Program) (s : Session) : Phase → Prop
  | .search control own => own.Formed P ∧ control.Fit P own ∧ s.Formed P
  | .pump _ _ _ control m own => (m.Formed P ∧ control.Fit P m) ∧ own.Formed P ∧ s.Formed P
  | .wait own | .agenda _ own | .returned own | .found _ own => own.Formed P ∧ s.Formed P

section

variable {P : Program} {st : Settings} {q g added : Nat} {s s' : Session} {m m' : Machine}
  {control : Control}

theorem Ends.formed (hP : P.Compiled) {finished : Bool} {n : Nat}
    (h : Ends P st g added control m s finished n m' s') (hm : m.Formed P) (hc : control.Fit P m)
    (hs : s.Formed P) : m'.Formed P ∧ s'.Formed P := by
  cases h with
  | dry hturn => exact ⟨(hturn.formed hP hm hc).1, hturn.session_formed hs⟩
  | single hturn hnoted =>
    exact ⟨(hturn.formed hP hm hc).1, ((hturn.session_formed hs).sameTables
      hnoted.sameTables).modifyGenerator fun _ _ _ hm => .inl hm⟩
  | gone hturn hnoted =>
    exact ⟨(hturn.formed hP hm hc).1, (hturn.session_formed hs).sameTables hnoted.sameTables⟩

theorem Moves.formed (hP : P.Compiled) {x y : Phase × Session} (h : Moves P st q x y)
    (hx : x.1.Formed P x.2) : y.1.Formed P y.2 := by
  cases h with
  | turn hturn =>
    obtain ⟨hm, hc, hs⟩ := hx
    obtain ⟨h1, h2⟩ := hturn.formed hP hm hc
    exact ⟨h1, h2, hturn.session_formed hs⟩
  | answer hturn hnoted =>
    obtain ⟨hm, hc, hs⟩ := hx
    exact ⟨(hturn.formed hP hm hc).1, (hturn.session_formed hs).sameTables hnoted.sameTables⟩
  | dry hturn =>
    obtain ⟨hm, hc, hs⟩ := hx
    exact ⟨(hturn.formed hP hm hc).1, hturn.session_formed hs⟩
  | restore htake hr =>
    obtain ⟨hm, hs⟩ := hx
    exact ⟨restore_formed hm hr, trivial,
      (hs.sameTables (Session.sameTables_takeReady htake)).sameTables (restore_sameTables hr)⟩
  | ended => exact ⟨hx.1, hx.2.sameTables (Session.sameTables_note _ _)⟩
  | await => exact hx
  | @skip batch own s s' task agenda hready hpop htake =>
    have hsame := (s.sameTables_agenda agenda).trans
      (Session.sameTables_takeUp { s with agenda } task)
    rw [htake] at hsame
    exact ⟨hx.1, hx.2.sameTables hsame⟩
  | @rests batch batch' own s s1 s2 s' task agenda g resume hready hpop htake hrests hbatch =>
    have hsame := (s.sameTables_agenda agenda).trans
      (Session.sameTables_takeUp { s with agenda } task)
    have hend := s2.sameTables_endBatch (max st.completionCycles 1) (batch ++ [g])
    rw [htake] at hsame
    rw [hbatch] at hend
    refine ⟨hx.1, Session.Formed.sameTables ?_ hend⟩
    rcases hrests with ⟨rfl, -⟩ | ⟨rfl, -⟩
    · exact hx.2.sameTables hsame
    · exact (hx.2.sameTables hsame).sameTables (s1.sameTables_prepared g resume)
  | @start batch own m m' s s1 s' task agenda g resume gen hready hpop htake hgen hinc hm hr =>
    have hsame := (s.sameTables_agenda agenda).trans
      (Session.sameTables_takeUp { s with agenda } task)
    rw [htake] at hsame
    have hs := hx.2.sameTables hsame
    obtain ⟨h1, h2⟩ := resumed_formed (hs.machine hgen hm) hr
    refine ⟨⟨h1, trivial⟩, hx.1, Session.Formed.sameTables ?_ h2⟩
    exact (hs.sameTables (s1.sameTables_prepared g resume)).sameTables
      (Session.sameTables_modifyGenerator _ g fun _ => ⟨rfl, rfl, .inr rfl⟩)
  | work hturn =>
    obtain ⟨⟨hm, hc⟩, hown, hs⟩ := hx
    exact ⟨hturn.formed hP hm hc, hown, hturn.session_formed hs⟩
  | known hturn hnoted =>
    obtain ⟨⟨hm, hc⟩, hown, hs⟩ := hx
    exact ⟨⟨(hturn.formed hP hm hc).1, trivial⟩, hown,
      (hturn.session_formed hs).sameTables hnoted.sameTables⟩
  | result hturn hnoted =>
    obtain ⟨⟨hm, hc⟩, hown, hs⟩ := hx
    exact ⟨⟨(hturn.formed hP hm hc).1, trivial⟩, hown, ((hturn.session_formed hs).sameTables
      hnoted.sameTables).modifyGenerator fun _ _ _ hm => .inl hm⟩
  | @pumped batch batch' g added n control m m' own finished s s1 s' hends hbatch =>
    obtain ⟨⟨hm, hc⟩, hown, hs⟩ := hx
    obtain ⟨h1, h2⟩ := hends.formed hP hm hc hs
    have hend := ((s1.endPump g n m').sameTables_settle g finished n).trans
      (Session.sameTables_endBatch _ (max st.completionCycles 1) (batch ++ [g]))
    rw [hbatch] at hend
    exact ⟨hown, (h2.endPump g n h1).sameTables hend⟩
  | @leave batch own s hstop =>
    refine ⟨hx.1, ?_⟩
    split
    · exact hx.2
    · exact hx.2.sameTables (s.sameTables_checkCompletion batch)
  | ready => exact hx
  | @check own s hno hready => exact ⟨hx.1, hx.2.sameTables (s.sameTables_checkCompletion _)⟩
  | @force own s hno hstill =>
    exact ⟨hx.1, hx.2.sameTables ((s.sameTables_checkCompletion _).trans
      (.foldl (fun s g => s.sameTables_complete .generatorDeadlocked g) _ _))⟩

theorem MovesTo.formed (hP : P.Compiled) {x y : Phase × Session} (h : MovesTo P st q x y)
    (hx : x.1.Formed P x.2) : y.1.Formed P y.2 := by
  induction h with
  | refl => exact hx
  | tail _ hmove ih => exact hmove.formed hP ih

end

/-! ## Every search is made of moves -/

section

variable {P : Program} {st : Settings} {q f : Nat} {s s' : Session} {m m' : Machine}
  {start : Phase × Session}

/-- A run in a phase in which each turn is a move. -/
theorem run_moves (hP : P.Compiled) (hstart : start.1.Formed P start.2)
    (phase : Control → Machine → Phase)
    (hphase : ∀ {control m s control' m' s'}, Turn P st control m s (.go control') m' s' →
      Moves P st q (phase control m, s) (phase control' m', s'))
    (hfit : ∀ {control m s}, (phase control m).Formed P s → m.Formed P ∧ control.Fit P m)
    (control : Control) {o : Except Failure (Option Triple)}
    (hreach : MovesTo P st q start (phase control m, s))
    (hrun : Machine.run (P.world st) f control m s = some (o, m', s')) :
    ∃ control1 m1 s1, MovesTo P st q start (phase control1 m1, s1) ∧
      Turn P st control1 m1 s1 (.done o) m' s' :=
  run_keeps hP
    (I := fun control m s => MovesTo P st q start (phase control m, s))
    (Q := fun o m' s' => ∃ control1 m1 s1, MovesTo P st q start (phase control1 m1, s1) ∧
      Turn P st control1 m1 s1 (.done o) m' s')
    (fun _ _ _ h => (hfit (h.formed hP hstart)).imp_left Machine.Formed.fit)
    (fun h hturn => h.tail (hphase hturn)) (fun h hturn => ⟨_, _, _, h, hturn⟩) hreach hrun

theorem next_moves (hP : P.Compiled) (hstart : start.1.Formed P start.2)
    (phase : Control → Machine → Phase)
    (hphase : ∀ {control m s control' m' s'}, Turn P st control m s (.go control') m' s' →
      Moves P st q (phase control m, s) (phase control' m', s'))
    (hfit : ∀ {control m s}, (phase control m).Formed P s → m.Formed P ∧ control.Fit P m)
    {o : Except Failure (Option Triple)}
    (hreach : MovesTo P st q start (phase .backtrack m, s))
    (hnext : m.next (P.world st) f s = some (o, m', s')) :
    ∃ control1 m1 s1 s2, MovesTo P st q start (phase control1 m1, s1) ∧
      Turn P st control1 m1 s1 (.done o) m' s2 ∧ s2.Noted s' ∧ (o = .ok none → s2 = s') := by
  unfold Machine.next at hnext
  split at hnext
  · next t m1 s1 hrun =>
    cases hnext
    obtain ⟨control1, m2, s2, h1, h2⟩ := run_moves hP hstart phase hphase hfit .backtrack hreach
      hrun
    exact ⟨control1, m2, s2, s1, h1, h2, s1.noted_note _, fun e => by cases e⟩
  · obtain ⟨control1, m2, s2, h1, h2⟩ := run_moves hP hstart phase hphase hfit .backtrack hreach
      hnext
    exact ⟨control1, m2, s2, s', h1, h2, .refl _, fun _ => rfl⟩

/-- The run of a generator's machine comes to its end, or a turn of it fails. -/
theorem collect_moves (hP : P.Compiled) (hstart : start.1.Formed P start.2) {g added n : Nat}
    {batch : List Nat} {own : Machine} {x : Except Failure Bool}
    (hreach : MovesTo P st q start (.pump batch g added .backtrack m own, s))
    (h : Session.collect (P.world st) g f added m s = some (x, n, m', s')) :
    (∀ finished, x = .ok finished → ∃ added1 control1 m1 s1,
      MovesTo P st q start (.pump batch g added1 control1 m1 own, s1) ∧
        Ends P st g added1 control1 m1 s1 finished n m' s') ∧
    ∀ e, x = .error e → StopsAfter P st q start e := by
  induction f generalizing added m s with
  | zero => cases h
  | succ f ih =>
    rw [Session.collect] at h
    split at h
    · cases h
    · next e m1 s1 hnext =>
      obtain ⟨control1, m2, s2, s3, h1, h2, -⟩ := next_moves hP hstart
        (fun control m => .pump batch g added control m own) .work And.left hreach hnext
      cases h
      refine ⟨fun _ e => (by cases e), fun _ e => ?_⟩
      cases e
      exact ⟨_, h1, .work h2⟩
    · next m1 s1 hnext =>
      obtain ⟨control1, m2, s2, s3, h1, h2, -, e⟩ := next_moves hP hstart
        (fun control m => .pump batch g added control m own) .work And.left hreach hnext
      cases h
      obtain rfl := e rfl
      refine ⟨fun _ e => ?_, fun _ e => by cases e⟩
      cases e
      exact ⟨_, control1, m2, s2, h1, .dry h2⟩
    · next t m1 s1 hnext =>
      obtain ⟨control1, m2, s2, s3, h1, h2, h3, -⟩ := next_moves hP hstart
        (fun control m => .pump batch g added control m own) .work And.left hreach hnext
      split at h
      · next hnone =>
        cases h
        refine ⟨fun _ e => ?_, fun _ e => by cases e⟩
        cases e
        exact ⟨_, control1, m2, s2, h1, .gone h2 h3 hnone⟩
      · next gen hgen =>
        split at h
        · next hnew =>
          simp only at h
          split at h
          · next hsingle =>
            cases h
            refine ⟨fun _ e => ?_, fun _ e => by cases e⟩
            cases e
            exact ⟨_, control1, m2, s2, h1, .single h2 h3 hgen hnew hsingle⟩
          · next hmany =>
            exact ih (h1.tail (.result h2 h3 hgen hnew (by simpa using hmany))) h
        · next hold =>
          exact ih (h1.tail (.known h2 h3 hgen (by simpa using hold))) h

/-- A pump that comes to its end and the check of its batch, or a pump that fails. -/
theorem pump_moves (hP : P.Compiled) (hstart : start.1.Formed P start.2) {g : Nat}
    {resume : Option Nat} {batch : List Nat} {own : Machine} {task : Task} {agenda : Queue Task}
    {s1 s2 : Session} {x : Except Failure Unit}
    (hreach : MovesTo P st q start (.agenda batch own, s)) (hready : s.queryReady q = false)
    (hpop : s.agenda.pop? = some (task, agenda))
    (htake : ({ s with agenda } : Session).takeUp task = (some (g, resume), s1))
    (h : s1.pump (P.world st) f g resume = some (x, s2)) :
    (∀ batch' s', x = .ok () →
      s2.endBatch (max st.completionCycles 1) (batch ++ [g]) = (batch', s') →
      MovesTo P st q start (.agenda batch' own, s')) ∧
    ∀ e, x = .error e → StopsAfter P st q start e := by
  rw [pump_eq] at h
  split at h
  · next hnone =>
    cases h
    refine ⟨fun batch' s' _ hbatch => hreach.tail (.rests hready hpop htake
      (.inl ⟨rfl, fun gen hgen => ?_⟩) hbatch), fun _ e => by cases e⟩
    rw [hnone] at hgen
    cases hgen
  · next gen hgen =>
    split at h
    · next hcomplete =>
      cases h
      refine ⟨fun batch' s' _ hbatch => hreach.tail (.rests hready hpop htake
        (.inl ⟨rfl, fun gen' hgen' => ?_⟩) hbatch), fun _ e => by cases e⟩
      cases hgen.symm.trans hgen'
      exact hcomplete
    · next hinc =>
      split at h
      · next hnone =>
        cases h
        exact ⟨fun batch' s' _ hbatch => hreach.tail (.rests hready hpop htake
          (.inr ⟨rfl, gen, hgen, hnone⟩) hbatch), fun _ e => by cases e⟩
      · next m hm =>
        rw [pumpMachine_eq] at h
        split at h
        · next e m1 s3 hr =>
          cases h
          refine ⟨fun _ _ e => (by cases e), fun _ e => ?_⟩
          cases e
          exact ⟨_, hreach, .start hready hpop htake hgen (by simpa using hinc) hm hr⟩
        · next m1 s3 hr =>
          have hout := hreach.tail (.start hready hpop htake hgen (by simpa using hinc) hm hr)
          split at h
          · cases h
          · next e added m2 s4 hcollect =>
            obtain ⟨-, hfails⟩ := collect_moves hP hstart hout hcollect
            cases h
            exact ⟨fun _ _ e => (by cases e), fun _ e => hfails _ (by cases e; rfl)⟩
          · next finished added m2 s4 hcollect =>
            obtain ⟨hends, -⟩ := collect_moves hP hstart hout hcollect
            obtain ⟨added1, control1, m3, s5, h1, h2⟩ := hends finished rfl
            cases h
            exact ⟨fun batch' s' _ hbatch => h1.tail (.pumped h2 hbatch), fun _ e => by cases e⟩

/-- The agenda is run until the query can go on or no task is left, or a pump fails. -/
theorem runAgenda_moves (hP : P.Compiled) (hstart : start.1.Formed P start.2) {batch : List Nat}
    {own : Machine} {x : Except Failure Unit}
    (hreach : MovesTo P st q start (.agenda batch own, s))
    (h : s.runAgenda (P.world st) q f batch = some (x, s')) :
    (x = .ok () → MovesTo P st q start (.returned own, s')) ∧
    ∀ e, x = .error e → StopsAfter P st q start e := by
  induction f generalizing batch s with
  | zero => cases h
  | succ f ih =>
    rw [Session.runAgenda] at h
    split at h
    · next task agenda hready hpop =>
      split at h
      · next s1 htake => exact ih (hreach.tail (.skip hready hpop htake)) h
      · next g resume s1 htake =>
        split at h
        · cases h
        · next e s2 hpump =>
          cases h
          obtain ⟨-, hfails⟩ := pump_moves hP hstart hreach hready hpop htake hpump
          exact ⟨fun e => (by cases e), fun _ e => hfails _ e⟩
        · next s2 hpump =>
          obtain ⟨hmoves, -⟩ := pump_moves hP hstart hreach hready hpop htake hpump
          exact ih (hmoves _ _ rfl rfl) h
    · next hstop =>
      cases h
      refine ⟨fun _ => hreach.tail (.leave ?_), fun _ e => by cases e⟩
      cases hready : s.queryReady q with
      | true => exact .inl rfl
      | false =>
        refine .inr ?_
        cases hpop : s.agenda.pop? with
        | none => rfl
        | some p => exact absurd hpop (hstop p.1 p.2 hready)

/-- What a search comes to: an answer or the end by moves, or a failure. -/
def ComesTo (P : Program) (st : Settings) (q : Nat) (start : Phase × Session) :
    Except Failure (Option Triple) → Machine → Session → Prop
  | .ok o, m, s => MovesTo P st q start (.found o m, s)
  | .error e, _, _ => StopsAfter P st q start e

-- `advance` and `await` call each other with less fuel
theorem advance_await_moves (hP : P.Compiled) (hstart : start.1.Formed P start.2) (f : Nat) :
    (∀ {m s o m' s'}, MovesTo P st q start (.search .backtrack m, s) →
      Session.advance (P.world st) q f m s = some (o, m', s') →
      ComesTo P st q start o m' s') ∧
    ∀ {m s o m' s'}, MovesTo P st q start (.wait m, s) →
      Session.await (P.world st) q f m s = some (o, m', s') →
      ComesTo P st q start o m' s' := by
  induction f with
  | zero =>
    refine ⟨fun _ h => ?_, fun _ h => ?_⟩
    · cases h
    · cases h
  | succ f ih =>
    obtain ⟨ihadvance, ihawait⟩ := ih
    refine ⟨fun {m s o m' s'} hreach h => ?_, fun {m s o m' s'} hreach h => ?_⟩
    · rw [Session.advance] at h
      split at h
      · next m1 s1 hnext =>
        obtain ⟨control1, m2, s2, s3, h1, h2, -, e⟩ := next_moves hP hstart .search .turn
          (fun hformed => ⟨hformed.1, hformed.2.1⟩) hreach hnext
        obtain rfl := e rfl
        exact ihawait (h1.tail (.dry h2)) h
      · next hother =>
        obtain ⟨control1, m2, s2, s3, h1, h2, h3, -⟩ := next_moves hP hstart .search .turn
          (fun hformed => ⟨hformed.1, hformed.2.1⟩) hreach h
        rcases o with e | _ | t
        · exact ⟨_, h1, .turn h2⟩
        · exact absurd h (hother m' s')
        · exact h1.tail (.answer h2 h3)
    · rw [Session.await] at h
      split at h
      · next c s1 htake =>
        split at h
        · next e m2 s2 hrestore =>
          cases h
          exact ⟨_, hreach, .restore htake hrestore⟩
        · next m2 s2 hrestore => exact ihadvance (hreach.tail (.restore htake hrestore)) h
      · next hnone =>
        split at h
        · next hempty =>
          cases h
          exact hreach.tail (.ended hnone (by simpa using hempty))
        · next hne =>
          have hout := hreach.tail (.await hnone (by simpa using hne))
          split at h
          · cases h
          · next e s1 hrun =>
            obtain ⟨-, hfails⟩ := runAgenda_moves hP hstart hout hrun
            cases h
            exact hfails e rfl
          · next s1 hrun =>
            obtain ⟨hmoves, -⟩ := runAgenda_moves hP hstart hout hrun
            have hreturned := hmoves rfl
            simp only at h
            split at h
            · next hready => exact ihawait (hreturned.tail (.ready hready)) h
            · next hno =>
              split at h
              · next hready =>
                exact ihawait (hreturned.tail (.check (by simpa using hno) hready)) h
              · next hstill =>
                exact ihawait
                  (hreturned.tail (.force (by simpa using hno) (by simpa using hstill))) h

/-- The next answer of a query is found by moves, and so is what goes wrong. -/
theorem advance_moves (hP : P.Compiled) {o : Except Failure (Option Triple)} (hm : m.Formed P)
    (hs : s.Formed P) (h : Session.advance (P.world st) q f m s = some (o, m', s')) :
    ComesTo P st q (.search .backtrack m, s) o m' s' :=
  (advance_await_moves hP (show Phase.Formed P s (.search .backtrack m) from ⟨hm, trivial, hs⟩)
    f).1 .refl h

end

end TabledRules
