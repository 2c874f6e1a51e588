-- Runs of generators and queries do not depend on ids: they come to the same
-- answers and failures in sessions that are the same but for their ids.
import TabledRules.Proofs.ChoicePoints
import TabledRules.Proofs.RaisedMachines

namespace TabledRules

/-- Two runs on the tables come to the same end, or neither comes to one. -/
abbrev PumpAlong (k : Nat) {α : Type} : Option (α × Session) → Option (α × Session) → Prop :=
  Option.Rel fun x x' => x'.1 = x.1 ∧ x.2.Raised k x'.2

section

variable {k g q : Nat} {w : World} {m m' : Machine} {s s' : Session}

/-! ## One generator -/

theorem collect_raised (fuel : Nat) (hm : m.Raised k m') (hs : s.Raised k s') (added : Nat) :
    Option.Rel (fun x x' => x'.1 = x.1 ∧ x'.2.1 = x.2.1 ∧ x.2.2.1.Raised k x'.2.2.1 ∧
        x.2.2.2.Raised k x'.2.2.2)
      (Session.collect w g fuel added m s) (Session.collect w (g + k) fuel added m' s') := by
  induction fuel generalizing added m m' s s' with
  | zero => exact .none
  | succ fuel ih =>
    rw [Session.collect, Session.collect]
    rcases rel_elim (next_raised fuel hm hs (w := w)) with
      ⟨e1, e2⟩ | ⟨⟨x, m1, s1⟩, ⟨x', m1', s1'⟩, e1, e2, hx, h1, h2⟩
    · rw [e1, e2]
      exact .none
    · rw [e1, e2]
      obtain rfl : x' = x := hx
      rcases x' with e | - | t
      · exact .some ⟨rfl, rfl, h1, h2⟩
      · refine .some ⟨?_, rfl, h1, h2⟩
        rcases rel_elim (h2.generator g) with ⟨e1, e2⟩ | ⟨gen, gen', e1, e2, hgen⟩
        · simp only [e1, e2]
        · simp only [e1, e2, Option.map_some, hgen.fields.2.2.2.2.2, List.isEmpty_map]
      · rcases rel_elim (h2.generator g) with ⟨e1, e2⟩ | ⟨gen, gen', e1, e2, hgen⟩
        · simp only [e1, e2]
          exact .some ⟨rfl, rfl, h1, h2⟩
        · obtain ⟨hgoal, hresults, -⟩ := hgen.fields
          have hnew : gen'.isNew t = gen.isNew t := by
            unfold Generator.isNew Generator.isSingleton
            rw [hgoal, hresults]
          have hsingle : gen'.isSingleton = gen.isSingleton := by
            unfold Generator.isSingleton
            rw [hgoal]
          have hpush : Session.Raised k
              (s1.modifyGenerator g fun gen => { gen with results := gen.results.push t })
              (s1'.modifyGenerator (g + k) fun gen =>
                { gen with results := gen.results.push t }) :=
            h2.modifyGenerator g fun {gen gen'} hgen => by
              rw [hgen.eq]
              exact ⟨rfl, hgen.machine⟩
          simp only [e1, e2, hnew, hsingle]
          split
          · split
            · exact .some ⟨rfl, rfl, h1, hpush⟩
            · exact ih h1 hpush (added + 1)
          · exact ih h1 h2 added

theorem Session.Raised.endPump (hs : s.Raised k s') (hm : m.Raised k m') (g added : Nat) :
    (s.endPump g added m).Raised k (s'.endPump (g + k) added m') := by
  unfold Session.endPump
  rcases rel_elim (hs.generator g) with ⟨e1, e2⟩ | ⟨gen, gen', e1, e2, hgen⟩
  · rw [e1, e2]
    exact hs
  · rw [e1, e2]
    exact (hs.modifyGenerator g fun {gen gen'} hgen => by
      rw [hgen.eq]
      exact ⟨rfl, .some hm⟩).note _ _

theorem Session.Raised.settle (hs : s.Raised k s') (g : Nat) (finished : Bool) (added : Nat) :
    (s.settle g finished added).Raised k (s'.settle (g + k) finished added) := by
  unfold Session.settle
  split
  · exact hs.complete _ _ g
  · split
    · exact hs
    · exact hs.wakeReaders g

/-- A machine that waits for the consumer goes on alike. -/
theorem resumed_raised (hm : m.Raised k m') (hs : s.Raised k s') {o : Owner} (hheld : m.Held o s)
    {resume : Option Nat} (hwaits : ∀ c ∈ resume, s.Waits o c) :
    (m'.resumed (resume.map (· + k)) s').1 = (m.resumed resume s).1 ∧
      (m.resumed resume s).2.1.Raised k (m'.resumed (resume.map (· + k)) s').2.1 ∧
      (m.resumed resume s).2.2.Raised k (m'.resumed (resume.map (· + k)) s').2.2 := by
  cases resume with
  | none => exact ⟨rfl, hm, hs⟩
  | some c => exact restore_raised hm hs (hwaits c rfl).isSome (hheld.waiting (hwaits c rfl))

theorem pumpMachine_raised (fuel : Nat) (hm : m.Raised k m') (hs : s.Raised k s')
    (hheld : m.Held (.generator g) s) {resume : Option Nat}
    (hwaits : ∀ c ∈ resume, s.Waits (.generator g) c) :
    PumpAlong k (s.pumpMachine w fuel g resume m)
      (s'.pumpMachine w fuel (g + k) (resume.map (· + k)) m') := by
  have hresumed := resumed_raised hm hs hheld hwaits
  rw [pumpMachine_eq, pumpMachine_eq]
  rcases he : m.resumed resume s with ⟨x, m1, s1⟩
  rcases he' : m'.resumed (resume.map (· + k)) s' with ⟨x', m1', s1'⟩
  rw [he, he'] at hresumed
  obtain ⟨hx, h1, h2⟩ := hresumed
  obtain rfl : x' = x := hx
  cases x' with
  | error e => exact .some ⟨rfl, h2.endPump h1 g 0⟩
  | ok u =>
    simp only
    rcases rel_elim (collect_raised fuel h1 h2 (w := w) (g := g) 0) with
      ⟨e1, e2⟩ | ⟨⟨y, n, m2, s2⟩, ⟨y', n', m2', s2'⟩, e1, e2, hy, hn, h3, h4⟩
    · rw [e1, e2]
      exact .none
    · rw [e1, e2]
      obtain rfl : y' = y := hy
      obtain rfl : n' = n := hn
      cases y' with
      | error e => exact .some ⟨rfl, h4.endPump h3 g _⟩
      | ok finished => exact .some ⟨rfl, (h4.endPump h3 g _).settle g finished _⟩

theorem Session.Raised.prepared (hs : s.Raised k s') (g : Nat) (resume : Option Nat) :
    (s.prepared g resume).Raised k (s'.prepared (g + k) (resume.map (· + k))) := by
  cases resume with
  | none =>
    exact hs.modifyGenerator g fun {gen gen'} hgen => by
      rw [hgen.eq]
      exact ⟨rfl, hgen.machine⟩
  | some c => exact hs.unblock (.generator g) c

theorem Session.waits_prepared {o : Owner} {c : Nat} (h : s.Waits o c) (g : Nat)
    (resume : Option Nat) (f : Generator → Generator) :
    ((s.prepared g resume).modifyGenerator g f).Waits o c := by
  cases resume <;> exact h

theorem pump_raised (fuel : Nat) (hs : s.Raised k s') (hheld : s.Held) {resume : Option Nat}
    (hwaits : ∀ c ∈ resume, s.Waits (.generator g) c) :
    PumpAlong k (s.pump w fuel g resume) (s'.pump w fuel (g + k) (resume.map (· + k))) := by
  rw [pump_eq, pump_eq]
  rcases rel_elim (hs.generator g) with ⟨e1, e2⟩ | ⟨gen, gen', e1, e2, hgen⟩
  · rw [e1, e2]
    exact .some ⟨rfl, hs⟩
  · rw [e1, e2]
    simp only [hgen.fields.2.2.2.1]
    split
    · exact .some ⟨rfl, hs⟩
    · rcases rel_elim hgen.machine with ⟨e3, e4⟩ | ⟨m, m', e3, e4, hm⟩
      · rw [e3, e4]
        exact .some ⟨rfl, hs.prepared g resume⟩
      · rw [e3, e4]
        refine pumpMachine_raised fuel hm ((hs.prepared g resume).modifyGenerator g fun hgen => ?_)
          (hheld.active e1 e3 resume).held
          fun c hc => Session.waits_prepared (hwaits c hc) g resume _
        rw [hgen.eq]
        exact ⟨rfl, .none⟩

/-! ## The agenda -/

theorem Session.Raised.takeUp (hs : s.Raised k s') (task : Task) :
    (s'.takeUp (task.raise k)).1 =
        (s.takeUp task).1.map (fun x => (x.1 + k, x.2.map (· + k))) ∧
      (s.takeUp task).2.Raised k (s'.takeUp (task.raise k)).2 := by
  cases task with
  | start g =>
    simp only [Session.takeUp, Task.raise]
    rcases rel_elim (hs.generator g) with ⟨e1, e2⟩ | ⟨gen, gen', e1, e2, hgen⟩
    · rw [e1, e2]
      exact ⟨rfl, hs⟩
    · obtain ⟨-, -, hready, hcomplete, -⟩ := hgen.fields
      rw [e1, e2]
      simp only [hready, hcomplete]
      refine ⟨?_, hs⟩
      split <;> rfl
  | resume c =>
    have h1 : Session.Raised k (s.modifyConsumer c fun x => { x with scheduled := false })
        (s'.modifyConsumer (c + k) fun x => { x with scheduled := false }) :=
      hs.modifyConsumer c (fun _ => rfl) fun _ => rfl
    simp only [Session.takeUp, Task.raise, h1.consumer, h1.isReady]
    rcases (s.modifyConsumer c fun x => { x with scheduled := false }).consumers[c]? with
      - | ⟨gen, read, o, suspended, scheduled⟩
    · exact ⟨rfl, h1⟩
    · cases o with
      | generator z =>
        refine ⟨?_, h1⟩
        simp only [Option.map_some, Consumer.raise, Owner.raise]
        split <;> rfl
      | query z => exact ⟨rfl, h1⟩

/-- A task is taken up for a consumer that waits. -/
theorem Session.takeUp_waits {task : Task} {resume : Option Nat}
    (h : s.takeUp task = (some (g, resume), s')) : ∀ c ∈ resume, s'.Waits (.generator g) c := by
  intro c hc
  obtain rfl : resume = some c := hc
  cases task with
  | start g' =>
    simp only [Session.takeUp] at h
    split at h
    · split at h <;> cases h
    · cases h
  | resume c' =>
    simp only [Session.takeUp] at h
    split at h
    · next z ho =>
      split at h
      · next hready =>
        cases h
        obtain ⟨x, hx, hsusp, -⟩ := Session.isReady_iff.1 hready
        rw [hx] at ho
        exact ⟨x, hx, Option.some.inj ho, hsusp⟩
      · cases h
    · cases h

theorem Session.Raised.endBatch (hs : s.Raised k s') (size : Nat) (batch : List Nat) :
    (s'.endBatch size (batch.map (· + k))).1 = (s.endBatch size batch).1.map (· + k) ∧
      (s.endBatch size batch).2.Raised k (s'.endBatch size (batch.map (· + k))).2 := by
  unfold Session.endBatch
  rw [List.length_map]
  split
  · exact ⟨rfl, hs.checkCompletion batch⟩
  · exact ⟨rfl, hs⟩

theorem runAgenda_raised (fuel : Nat) (hs : s.Raised k s') (hheld : s.Held) (batch : List Nat) :
    PumpAlong k (s.runAgenda w q fuel batch)
      (s'.runAgenda w (q + k) fuel (batch.map (· + k))) := by
  have leave : ∀ {s s' : Session} (batch : List Nat), s.Raised k s' →
      PumpAlong k
        (some ((.ok () : Except Failure Unit),
          if batch.isEmpty then s else s.checkCompletion batch))
        (some ((.ok () : Except Failure Unit), if (batch.map (· + k)).isEmpty then s'
          else s'.checkCompletion (batch.map (· + k)))) := by
    intro s s' batch hs
    refine .some ⟨rfl, ?_⟩
    rw [List.isEmpty_map]
    split
    · exact hs
    · exact hs.checkCompletion batch
  induction fuel generalizing batch s s' with
  | zero => exact .none
  | succ fuel ih =>
    rw [Session.runAgenda, Session.runAgenda, hs.queryReady]
    cases s.queryReady q with
    | true => exact leave batch hs
    | false =>
      rcases rel_elim hs.pop? with
        ⟨e1, e2⟩ | ⟨⟨task, agenda⟩, ⟨task', agenda'⟩, e1, e2, htask, hagenda⟩
      · rw [e1, e2]
        exact leave batch hs
      · rw [e1, e2]
        obtain rfl : task' = task.raise k := htask
        have htake := (hs.setAgenda hagenda).takeUp task
        have hheld1 := hheld.quiet ((s.quiet_agenda agenda).trans (Session.quiet_takeUp _ task))
        simp only
        rcases he : ({ s with agenda } : Session).takeUp task with ⟨x, s1⟩
        rcases he' : ({ s' with agenda := agenda' } : Session).takeUp (task.raise k) with ⟨x', s1'⟩
        rw [he, he'] at htake
        rw [he] at hheld1
        obtain ⟨hx, h1⟩ := htake
        obtain rfl : x' = x.map (fun x => (x.1 + k, x.2.map (· + k))) := hx
        rcases x with - | ⟨g, resume⟩
        · exact ih h1 hheld1 batch
        · simp only [Option.map_some]
          rcases rel_elim (pump_raised fuel h1 hheld1 (Session.takeUp_waits he) (w := w)) with ⟨e3, e4⟩ | ⟨⟨y, s2⟩, ⟨y', s2'⟩, e3, e4, hy, h2⟩
          · rw [e3, e4]
            exact .none
          · rw [e3, e4]
            obtain rfl : y' = y := hy
            cases y' with
            | error e => exact .some ⟨rfl, h2⟩
            | ok u =>
              have hheld2 := (pump_goes hheld1 e3).held
              obtain ⟨hbatch, h3⟩ := h2.endBatch (max w.settings.completionCycles 1) (batch ++ [g])
              rw [List.map_append] at hbatch h3
              simp only
              rw [show [g + k] = [g].map (· + k) from rfl, hbatch]
              exact ih h3 (hheld2.quiet (Session.quiet_endBatch _ _ s2)) _

/-! ## The machine of a query -/

/-- To look for the next answer of a query, and to wait for one of its consumers. -/
theorem search_raised (fuel : Nat) (hm : m.Raised k m') (hs : s.Raised k s') (ha : m.Active (.query q) s) :
    RunAlong k (s.advance w q fuel m) (s'.advance w (q + k) fuel m') ∧
      RunAlong k (s.await w q fuel m) (s'.await w (q + k) fuel m') := by
  induction fuel generalizing m m' s s' with
  | zero => exact ⟨.none, .none⟩
  | succ fuel ih =>
    constructor
    · rw [Session.advance, Session.advance]
      rcases rel_elim (next_raised fuel hm hs (w := w)) with
        ⟨e1, e2⟩ | ⟨⟨x, m1, s1⟩, ⟨x', m1', s1'⟩, e1, e2, hx, h1, h2⟩
      · rw [e1, e2]
        exact .none
      · rw [e1, e2]
        obtain rfl : x' = x := hx
        rcases x' with e | - | t
        · exact .some ⟨rfl, h1, h2⟩
        · exact (ih h1 h2 (next_active ha e1).active).2
        · exact .some ⟨rfl, h1, h2⟩
    · rw [Session.await, Session.await]
      rcases rel_elim (hs.takeReady q) with ⟨e1, e2⟩ | ⟨⟨c, s1⟩, ⟨c', s1'⟩, e1, e2, hc, h1⟩
      · rw [e1, e2]
        simp only [hs.blocked, List.isEmpty_map]
        split
        · exact .some ⟨rfl, hm, hs.note _ _⟩
        · rcases rel_elim (runAgenda_raised fuel hs ha.session (w := w) (q := q) []) with
            ⟨e3, e4⟩ | ⟨⟨y, s2⟩, ⟨y', s2'⟩, e3, e4, hy, h2⟩
          · rw [List.map_nil] at e4
            rw [e3, e4]
            exact .none
          · rw [List.map_nil] at e4
            rw [e3, e4]
            obtain rfl : y' = y := hy
            cases y' with
            | error e => exact .some ⟨rfl, hm, h2⟩
            | ok u =>
              have ha2 := (ha.runAgenda e3).1
              simp only [h2.queryReady, h2.blockedOn]
              split
              · exact (ih hm h2 ha2).2
              · have h3 := h2.checkCompletion (s2.blockedOn q)
                have ha3 := (ha2.quiet (s2.quiet_checkCompletion (s2.blockedOn q))).active
                rw [h3.queryReady]
                split
                · exact (ih hm h3 ha3).2
                · exact (ih hm (h3.completeAll .generatorDeadlocked (s2.blockedOn q))
                    (ha3.quiet (Session.quiet_completeAll _ _ _)).active).2
      · rw [e1, e2]
        obtain rfl : c' = c + k := hc
        have hwaits := ha.session.takeReady e1
        have ha1 := (ha.quiet (Session.quiet_takeReady e1)).active
        have hr := restore_raised hm h1 hwaits.isSome (ha1.held.waiting hwaits)
        simp only
        rcases he : m.restore c s1 with ⟨y, m2, s2⟩
        rcases he' : m'.restore (c + k) s1' with ⟨y', m2', s2'⟩
        rw [he, he'] at hr
        obtain ⟨hy, h2, h3⟩ := hr
        obtain rfl : y' = y := hy
        cases y' with
        | error e => exact .some ⟨rfl, h2, h3⟩
        | ok u => exact (ih h2 h3 (restore_active ha1 he).active).1

end

end TabledRules
