-- All that can happen to the tables while a query is opened, read or closed,
-- change by change, whatever the rules and the tables are and whatever fails.
import TabledRules.Proofs.SoundTables

namespace TabledRules

/-! ## Changes -/

/-- One change of a session. -/
inductive Session.Change (s : Session) : Session → Prop
  | noted {s' : Session} : s.Noted s' → Change s s'
  | newTable (w : World) (goal : Triple) : Change s (s.generatorFor w goal).2
  | newConsumer (g : Nat) (owner : Owner) : Change s (s.addConsumer g owner).2
  | read (c : Nat) : Change s (s.read c).2
  | removed (c : Nat) : Change s (s.removeConsumer c)
  | blocked (owner : Owner) (c : Nat) : Change s (s.block owner c)
  | restored (c : Nat) : Change s (s.modifyConsumer c fun k => { k with suspended := false })
  | result (g : Nat) (t : Triple) :
    Change s (s.modifyGenerator g fun gen => { gen with results := gen.results.push t })
  | machine (g : Nat) (m : Option Machine) :
    Change s (s.modifyGenerator g fun gen => { gen with machine := m })
  | prepared (g : Nat) (resume : Option Nat) : Change s (s.prepared g resume)
  | completed (event : Triple → Nat → Event) (g : Nat) : Change s (s.complete event g)
  | woken (g : Nat) : Change s (s.wakeReaders g)
  | agenda (agenda : Queue Task) : Change s { s with agenda }
  | takenUp (task : Task) : Change s (s.takeUp task).2
  | taken {q c : Nat} {s' : Session} : s.takeReady q = some (c, s') → Change s s'

/-- A session changes step by step. -/
def Session.Changes : Session → Session → Prop := Relation.ReflTransGen Session.Change

namespace Session

variable {s s' : Session}

theorem Noted.changes (h : s.Noted s') : s.Changes s' := .single (.noted h)

theorem changes_note (s : Session) (e : Event) : s.Changes (s.note e) := (s.noted_note e).changes

theorem changes_completeAll (event : Triple → Nat → Event) (gs : List Nat) (s : Session) :
    s.Changes (gs.foldl (complete event) s) := by
  induction gs generalizing s with
  | nil => exact .refl
  | cons g gs ih => exact .head (.completed event g) (ih _)

theorem changes_checkCompletion (s : Session) (roots : List Nat) :
    s.Changes (s.checkCompletion roots) :=
  changes_completeAll _ _ s

/-- What is kept by every change is kept all along. -/
theorem Changes.keeps {R : Session → Session → Prop} (h : s.Changes s') (refl : ∀ s, R s s)
    (trans : ∀ {s s' s''}, R s s' → R s' s'' → R s s'') (change : ∀ {s s'}, s.Change s' → R s s') :
    R s s' := by
  induction h with
  | refl => exact refl s
  | tail _ hstep ih => exact trans ih (change hstep)

end Session

/-! ## Steps of a machine -/

section

variable {w : World} {n fuel : Nat} {m : Machine} {s : Session}

theorem callStore_session (w : World) (n : Nat) (env : Env) (code : List Instruction)
    (m : Machine) (s : Session) : (m.callStore w n env code s).2.2 = s := by
  unfold Machine.callStore
  split
  · rfl
  · split
    · rfl
    · unfold Machine.afterPush
      split <;> rfl

theorem callClauses_session (w : World) (n : Nat) (env : Env) (code : List Instruction)
    (clauses : List Clause) (ground : Bool) (m : Machine) (s : Session) :
    (m.callClauses w n env code clauses ground s).2.2 = s := by
  unfold Machine.callClauses
  split
  · exact callStore_session w n env code m s
  · split
    · rfl
    · exact callStore_session w n env code _ s

theorem callTable_changes (w : World) (env : Env) (code : List Instruction) (goal : Triple)
    (m : Machine) (s : Session) : s.Changes (m.callTable w env code goal s).2.2 := by
  have hfor : s.Change (s.generatorFor w goal).2 := .newTable w goal
  unfold Machine.callTable
  split
  · next hg =>
    rw [hg] at hfor
    exact .single hfor
  · next g s1 hg =>
    rw [hg] at hfor
    unfold Machine.afterPush
    simp only
    split <;> exact .tail (.single hfor) (.newConsumer g m.owner)

theorem call_changes (w : World) (n : Nat) (env : Env) (code : List Instruction) (m : Machine)
    (s : Session) (c : Call) : s.Changes (m.call w n env code s c).2.2 := by
  unfold Machine.call
  simp only
  split
  · split
    · exact .refl
    · exact callTable_changes w env code _ m s
  · split
    · exact .refl
    · rw [callClauses_session]
      exact .refl

theorem execute_changes (w : World) (n : Nat) (env : Env) (code : List Instruction) (m : Machine)
    (s : Session) (i : Instruction) : s.Changes (m.execute w n env code s i).2.2 := by
  cases i with
  | call c => exact call_changes w n env code m s c
  | operation op =>
    simp only [Machine.execute, Machine.operate]
    split
    · exact .refl
    · exact .refl
    · exact s.changes_note _
    · exact .refl
  | builtin f arity =>
    simp only [Machine.execute, Machine.callBuiltin]
    split
    · exact .refl
    · split
      · exact .refl
      · exact .refl
      · exact (s.changes_note _).trans (Session.changes_note _ _)
      · exact .refl
  | proceed =>
    simp only [Machine.execute, Machine.proceed]
    split
    · split <;> exact s.changes_note _
    · exact s.changes_note _
    · exact s.changes_note _

theorem tryTriple_session (n : Nat) (c : Choice) (goal t : Triple) (m : Machine)
    (s found : Session) :
    (m.tryTriple n c goal t s found).2.2 = s ∨ (m.tryTriple n c goal t s found).2.2 = found := by
  unfold Machine.tryTriple
  split
  · exact .inl rfl
  · exact .inl rfl
  · exact .inr rfl

theorem tryResult_changes (n : Nat) (c : Choice) (consumer : Nat) (goal : Triple) (m : Machine)
    (s : Session) : s.Changes (m.tryResult n c consumer goal s).2.2 := by
  have hread : s.Change (s.read consumer).2 := .read consumer
  unfold Machine.tryResult
  split
  · next t s1 hr =>
    rw [hr] at hread
    rcases tryTriple_session n c goal t (m.keep c (.results consumer goal)) s1 s1 with e | e <;>
    · rw [e]
      exact .single hread
  · next s1 hr =>
    rw [hr] at hread
    exact (Relation.ReflTransGen.tail (.single hread) (.removed consumer)).trans
      (Session.changes_note _ _)
  · next s1 hr =>
    rw [hr] at hread
    exact (Relation.ReflTransGen.tail (.single hread) (.blocked m.owner consumer)).trans
      (Session.changes_note _ _)

theorem retry_changes (w : World) (n : Nat) (c : Choice) (m : Machine) (s : Session) :
    s.Changes (m.retry w n c s).2.2 := by
  unfold Machine.retry
  split
  · exact s.changes_note _
  · split
    · exact s.changes_note _
    · unfold Machine.enterClause
      simp only
      split
      · exact .refl
      · cases w.settings.profile <;> exact Session.Noted.changes ⟨_, _, rfl⟩
  · exact s.changes_note _
  · next goal fact rest _ =>
    rcases tryTriple_session n c goal fact (m.keep c (.facts goal rest)) s
      (s.note (.factMatched fact)) with h | h <;> rw [h]
    · exact .refl
    · exact s.changes_note _
  · exact s.changes_note _
  · unfold Machine.tryAnswer
    split
    · exact .refl
    · exact .refl
    · exact s.changes_note _
  · exact tryResult_changes n c _ _ m s

theorem step_changes (w : World) (n : Nat) (control : Control) (m : Machine) (s : Session) :
    s.Changes (m.step w n control s).2.2 := by
  unfold Machine.step
  split
  · split
    · exact .refl
    · split
      · exact .refl
      · exact retry_changes w n _ _ s
  · split
    · exact .refl
    · split
      · exact .refl
      · exact execute_changes w n _ _ m s _

theorem run_changes {control : Control} {x : Except Failure (Option Triple)} {m' : Machine}
    {s' : Session} (h : Machine.run w fuel control m s = some (x, m', s')) : s.Changes s' := by
  induction fuel generalizing control m s with
  | zero => cases h
  | succ fuel ih =>
    have hstep := step_changes w fuel control m s
    rcases he : m.step w fuel control s with ⟨p, m1, s1⟩
    rw [he] at hstep
    rcases run_of_step he h with ⟨rfl, rfl, rfl⟩ | ⟨control1, rfl, hrun⟩
    · exact hstep
    · exact hstep.trans (ih hrun)

theorem next_changes {x : Except Failure (Option Triple)} {m' : Machine} {s' : Session}
    (h : m.next w fuel s = some (x, m', s')) : s.Changes s' := by
  unfold Machine.next at h
  split at h
  · next hrun =>
    cases h
    exact (run_changes hrun).trans (Session.changes_note _ _)
  · exact run_changes h

theorem restore_changes (c : Nat) (m : Machine) (s : Session) :
    s.Changes (m.restore c s).2.2 := by
  unfold Machine.restore
  split
  · exact .refl
  · split
    · exact .refl
    · simp only
      split
      · exact .single (.restored c)
      · exact .head (.restored c) (Session.changes_note _ _)

theorem startQuery_changes (w : World) (goal : Triple) (q : Nat) (s : Session) :
    s.Changes (Machine.startQuery w goal q s).2 := by
  unfold Machine.startQuery
  split
  · exact .refl
  · next m _ =>
    have hcall := callTable_changes w .root [.proceed] m.standard m s
    split
    · exact .refl
    · split
      · next hc =>
        rw [hc] at hcall
        exact hcall
      · next hc =>
        rw [hc] at hcall
        exact hcall

end

/-! ## Runs of generators and queries -/

section

variable {w : World} {fuel g q : Nat} {m m' : Machine} {s s' : Session}

theorem collect_changes {added n : Nat} {x : Except Failure Bool}
    (h : Session.collect w g fuel added m s = some (x, n, m', s')) : s.Changes s' := by
  induction fuel generalizing added m s with
  | zero => cases h
  | succ fuel ih =>
    rw [Session.collect] at h
    split at h
    · cases h
    · next hnext =>
      cases h
      exact next_changes hnext
    · next hnext =>
      cases h
      exact next_changes hnext
    · next t m1 s1 hnext =>
      have hstep := next_changes hnext
      split at h
      · cases h
        exact hstep
      · split at h
        · have hpush := hstep.tail (.result g t)
          simp only at h
          split at h
          · cases h
            exact hpush
          · exact hpush.trans (ih h)
        · exact hstep.trans (ih h)

theorem endPump_changes (g added : Nat) (m : Machine) (s : Session) :
    s.Changes (s.endPump g added m) := by
  unfold Session.endPump
  split
  · exact .refl
  · exact .head (.machine g (some m)) (Session.changes_note _ _)

theorem settle_changes (g : Nat) (finished : Bool) (added : Nat) (s : Session) :
    s.Changes (s.settle g finished added) := by
  unfold Session.settle
  split
  · exact .single (.completed _ g)
  · split
    · exact .refl
    · exact .single (.woken g)

theorem pumpMachine_changes {resume : Option Nat} {x : Except Failure Unit}
    (h : s.pumpMachine w fuel g resume m = some (x, s')) : s.Changes s' := by
  have hresumed : s.Changes (m.resumed resume s).2.2 := by
    cases resume with
    | none => exact .refl
    | some c => exact restore_changes c m s
  rw [pumpMachine_eq] at h
  split at h
  · next hr =>
    rw [hr] at hresumed
    cases h
    exact hresumed.trans (endPump_changes g 0 _ _)
  · next hr =>
    rw [hr] at hresumed
    split at h
    · cases h
    · next hcollect =>
      cases h
      exact (hresumed.trans (collect_changes hcollect)).trans (endPump_changes g _ _ _)
    · next hcollect =>
      cases h
      exact ((hresumed.trans (collect_changes hcollect)).trans (endPump_changes g _ _ _)).trans
        (settle_changes g _ _ _)

theorem pump_changes {resume : Option Nat} {x : Except Failure Unit}
    (h : s.pump w fuel g resume = some (x, s')) : s.Changes s' := by
  rw [pump_eq] at h
  split at h
  · cases h
    exact .refl
  · split at h
    · cases h
      exact .refl
    · split at h
      · cases h
        exact .single (.prepared g resume)
      · exact .head (.prepared g resume) (.head (.machine g none) (pumpMachine_changes h))

theorem endBatch_changes (size : Nat) (batch : List Nat) (s : Session) :
    s.Changes (s.endBatch size batch).2 := by
  unfold Session.endBatch
  split
  · exact s.changes_checkCompletion batch
  · exact .refl

theorem runAgenda_changes {batch : List Nat} {x : Except Failure Unit}
    (h : s.runAgenda w q fuel batch = some (x, s')) : s.Changes s' := by
  induction fuel generalizing batch s with
  | zero => cases h
  | succ fuel ih =>
    rw [Session.runAgenda] at h
    split at h
    · next task agenda hready hpop =>
      have htake : s.Changes (({ s with agenda } : Session).takeUp task).2 :=
        .tail (.single (.agenda agenda)) (.takenUp task)
      split at h
      · next hnone =>
        rw [hnone] at htake
        exact htake.trans (ih h)
      · next hsome =>
        rw [hsome] at htake
        split at h
        · cases h
        · next hpump =>
          cases h
          exact htake.trans (pump_changes hpump)
        · next hpump =>
          exact ((htake.trans (pump_changes hpump)).trans (endBatch_changes _ _ _)).trans (ih h)
    · cases h
      split
      · exact .refl
      · exact s.changes_checkCompletion batch

/-- To look for the next answer of a query, and to wait for one of its consumers. -/
theorem search_changes {x : Except Failure (Option Triple)} :
    (s.advance w q fuel m = some (x, m', s') → s.Changes s') ∧
    (s.await w q fuel m = some (x, m', s') → s.Changes s') := by
  induction fuel generalizing m s with
  | zero => exact ⟨fun h => (by cases h), fun h => (by cases h)⟩
  | succ fuel ih =>
    refine ⟨fun h => ?_, fun h => ?_⟩
    · rw [Session.advance] at h
      split at h
      · next hnext => exact (next_changes hnext).trans (ih.2 h)
      · exact next_changes h
    · rw [Session.await] at h
      split at h
      · next c s1 htake =>
        have hrestored : s.Changes (m.restore c s1).2.2 :=
          .head (.taken htake) (restore_changes c m s1)
        split at h
        · next hr =>
          rw [hr] at hrestored
          cases h
          exact hrestored
        · next hr =>
          rw [hr] at hrestored
          exact hrestored.trans (ih.1 h)
      · split at h
        · cases h
          exact s.changes_note _
        · split at h
          · cases h
          · next hagenda =>
            cases h
            exact runAgenda_changes hagenda
          · next s1 hagenda =>
            refine (runAgenda_changes hagenda).trans ?_
            split at h
            · exact ih.2 h
            · simp only at h
              refine (s1.changes_checkCompletion (s1.blockedOn q)).trans ?_
              split at h
              · exact ih.2 h
              · exact (Session.changes_completeAll _ _ _).trans (ih.2 h)

end

end TabledRules
