-- What tables gain. A table gets a result where the machine of its generator
-- finds one that is new, and in no other way. A ground goal that gets its one
-- result is complete then.
import TabledRules.Proofs.Bookkeeping

namespace TabledRules

namespace Session

/-! ## Tables that gain nothing -/

/-- No table has gained a result, and tables that were complete still are. New tables have new ids,
and no results. -/
structure Gainless (s s' : Session) : Prop where
  nextId_le : s.nextId ≤ s'.nextId
  table : ∀ {g : Nat} {gen' : Generator}, s'.generators[g]? = some gen' →
    s.nextId ≤ g ∧ gen'.results.toList = [] ∨
    ∃ gen : Generator, s.generators[g]? = some gen ∧ gen'.goal = gen.goal ∧
      gen'.results = gen.results ∧ (gen.complete = true → gen'.complete = true)

variable {s s' s'' : Session} {g c q : Nat} {o : Owner → Prop}

theorem Gainless.of_eq (hid : s.nextId ≤ s'.nextId) (h : s'.generators = s.generators) :
    s.Gainless s' :=
  ⟨hid, fun hgen => .inr ⟨_, h ▸ hgen, rfl, rfl, id⟩⟩

theorem Gainless.of_empty (hid : s.nextId ≤ s'.nextId) (h : s'.generators = ∅) : s.Gainless s' := by
  refine ⟨hid, fun hgen' => ?_⟩
  rw [h] at hgen'
  cases hgen'.symm.trans Std.TreeMap.getElem?_emptyc

theorem Gainless.refl (s : Session) : s.Gainless s := .of_eq (Nat.le_refl _) rfl

theorem Gainless.trans (h : s.Gainless s') (h' : s'.Gainless s'') : s.Gainless s'' := by
  refine ⟨Nat.le_trans h.nextId_le h'.nextId_le, fun {g gen''} hgen => ?_⟩
  rcases h'.table hgen with ⟨hle, hnil⟩ | ⟨gen', hgen', e1, e2, hc'⟩
  · exact .inl ⟨Nat.le_trans h.nextId_le hle, hnil⟩
  · rw [e2]
    rcases h.table hgen' with hnew | ⟨gen, hgen, e3, e4, hc⟩
    · exact .inl hnew
    · exact .inr ⟨gen, hgen, e1.trans e3, e4, fun h => hc' (hc h)⟩

theorem Noted.gainless (h : s.Noted s') : s.Gainless s' := by
  obtain ⟨j, p, rfl⟩ := h
  exact .of_eq (Nat.le_refl _) rfl

theorem SameTables.gainless (h : s.SameTables s') (hs : s.Spares o s') : s.Gainless s' := by
  refine ⟨Nat.le_of_eq h.nextId.symm, fun {g gen'} hgen' => ?_⟩
  obtain ⟨gen, hgen, e1, e2, -⟩ := h.generator hgen'
  obtain ⟨gen1, hgen1, hfollows⟩ := hs.generator hgen
  cases hgen'.symm.trans hgen1
  exact .inr ⟨gen, hgen, e1, e2, hfollows.complete⟩

theorem gainless_modifyGenerator (s : Session) (g : Nat) {f : Generator → Generator}
    (hf : ∀ gen, (f gen).goal = gen.goal ∧ (f gen).results = gen.results ∧
      (f gen).complete = gen.complete) : s.Gainless (s.modifyGenerator g f) := by
  refine ⟨Nat.le_refl _, fun {g' gen'} hgen' => ?_⟩
  rw [generators_modifyGenerator] at hgen'
  split at hgen'
  · next e =>
    subst e
    obtain ⟨gen, hgen, rfl⟩ := Option.map_eq_some_iff.1 hgen'
    obtain ⟨e1, e2, e3⟩ := hf gen
    exact .inr ⟨gen, hgen, e1, e2, fun hc => e3.trans hc⟩
  · exact .inr ⟨gen', hgen', rfl, rfl, id⟩

theorem gainless_removeConsumer (s : Session) (c : Nat) : s.Gainless (s.removeConsumer c) :=
  (s.sameTables_removeConsumer c).gainless
    (s.spares_removeConsumer (o := fun _ => True) c fun _ _ => .inl trivial)

theorem gainless_block (s : Session) (owner : Owner) (c : Nat) : s.Gainless (s.block owner c) :=
  (s.sameTables_block owner c).gainless
    (s.spares_block (o := fun _ => True) owner c fun _ _ => trivial)

/-- A table that is called is there, or it is new. -/
theorem gainless_generatorFor {w : World} {value : Triple} {x : Except Failure Nat}
    (h : s.generatorFor w value = (x, s')) : s.Gainless s' := by
  rcases generatorFor_cases h with ⟨_, _, -, -, rfl⟩ | ⟨-, _, -, rfl⟩ | ⟨m, -, -, -, rfl⟩
  · exact .refl _
  · exact .of_eq (Nat.le_succ _) rfl
  · refine ⟨Nat.le_succ _, fun {g gen'} hgen' => ?_⟩
    rw [generators_withGenerator] at hgen'
    split at hgen'
    · next e =>
      cases hgen'
      exact .inl ⟨Nat.le_of_eq e, rfl⟩
    · exact .inr ⟨gen', hgen', rfl, rfl, id⟩

theorem gainless_table {w : World} {value : Triple} {x : Except Failure Nat}
    (h : s.generatorFor w value = (x, s')) (g : Nat) (owner : Owner) :
    s.Gainless (s'.addConsumer g owner).2 :=
  (gainless_generatorFor h).trans <| (s'.gainless_modifyGenerator g
    (f := fun gen => { gen with consumers := s'.nextId :: gen.consumers }) fun _ =>
      ⟨rfl, rfl, rfl⟩).trans (.of_eq (Nat.le_succ _) rfl)

theorem gainless_checkCompletion (s : Session) (roots : List Nat) :
    s.Gainless (s.checkCompletion roots) :=
  (s.sameTables_checkCompletion roots).gainless (s.spares_checkCompletion roots fun _ => False)

theorem gainless_completeAll (event : Triple → Nat → Event) (gs : List Nat) (s : Session) :
    s.Gainless (gs.foldl (complete event) s) :=
  (SameTables.foldl (fun s g => s.sameTables_complete event g) gs s).gainless
    (spares_completeAll event gs s fun _ => False)

theorem gainless_endBatch (s : Session) (size : Nat) (batch : List Nat) :
    s.Gainless (s.endBatch size batch).2 := by
  unfold endBatch
  split
  · exact s.gainless_checkCompletion batch
  · exact .refl s

theorem gainless_endPump (s : Session) (g n : Nat) (m : Machine) :
    s.Gainless (s.endPump g n m) := by
  unfold endPump
  split
  · exact .refl s
  · have hback := s.gainless_modifyGenerator g (f := fun gen => { gen with machine := some m })
      fun _ => ⟨rfl, rfl, rfl⟩
    exact hback.trans (noted_note _ _).gainless

theorem gainless_settle (s : Session) (g : Nat) (finished : Bool) (added : Nat) :
    s.Gainless (s.settle g finished added) :=
  (s.sameTables_settle g finished added).gainless (s.spares_settle g finished added fun _ => False)

theorem gainless_takeUp {task : Task} {agenda : Queue Task} {x : Option (Nat × Option Nat)}
    (h : ({ s with agenda } : Session).takeUp task = (x, s')) : s.Gainless s' := by
  rcases takeUp_cases h with ⟨g, -, rfl, -⟩ | ⟨c, -, rfl, -⟩ <;>
    exact .of_eq (Nat.le_refl _) rfl

theorem gainless_prepared (s : Session) (g : Nat) (resume : Option Nat) :
    s.Gainless (s.prepared g resume) := by
  cases resume <;> exact s.gainless_modifyGenerator g fun _ => ⟨rfl, rfl, rfl⟩

theorem gainless_takeReady (h : s.takeReady q = some (c, s')) : s.Gainless s' := by
  unfold takeReady at h
  obtain ⟨c', -, e⟩ := Option.map_eq_some_iff.1 h
  cases e
  exact .of_eq (Nat.le_refl _) rfl

theorem gainless_closeQuery (s : Session) (q : Nat) : s.Gainless (s.closeQuery q) :=
  (s.sameTables_closeQuery q).gainless (s.spares_closeQuery q)

/-! ## Tables that gain a result -/

/-- One table has gained a result that was new to it. If its goal is ground, it is complete. -/
def Gains (g : Nat) (s s' : Session) : Prop :=
  ∃ (s1 : Session) (gen gen' : Generator) (t : Triple), s.Gainless s1 ∧
    s1.generators[g]? = some gen ∧ gen.isNew t = true ∧
    (s1.modifyGenerator g fun gen => { gen with results := gen.results.push t }).Gainless s' ∧
    s'.generators[g]? = some gen' ∧ (gen.goal.isGround = true → gen'.complete = true)

theorem Gains.nextId_le (h : s.Gains g s') : s.nextId ≤ s'.nextId := by
  obtain ⟨s1, -, -, t, h1, -, -, h2, -⟩ := h
  exact Nat.le_trans h1.nextId_le h2.nextId_le

/-- Other tables gain nothing. -/
theorem Gains.other (h : s.Gains g s') {g' : Nat} (hne : g' ≠ g) {gen' : Generator}
    (hgen' : s'.generators[g']? = some gen') : s.nextId ≤ g' ∧ gen'.results.toList = [] ∨
      ∃ gen : Generator, s.generators[g']? = some gen ∧ gen'.goal = gen.goal ∧
        gen'.results = gen.results ∧ (gen.complete = true → gen'.complete = true) := by
  obtain ⟨s1, -, -, t, h1, -, -, h2, -⟩ := h
  rcases h2.table hgen' with ⟨hle, hnil⟩ | ⟨gen1, hgen1, e1, e2, hc1⟩
  · exact .inl ⟨Nat.le_trans h1.nextId_le hle, hnil⟩
  · rw [generators_modifyGenerator, if_neg (Ne.symm hne)] at hgen1
    rw [e2]
    rcases h1.table hgen1 with hnew | ⟨gen, hgen, e3, e4, hc⟩
    · exact .inl hnew
    · exact .inr ⟨gen, hgen, e1.trans e3, e4, fun h => hc1 (hc h)⟩

end Session

section

variable {P : Program} {st : Settings} {q g added n : Nat} {control : Control} {p : Progress}
  {m m' : Machine} {s s' : Session}

theorem Effect.gainless (h : Effect P st m s m' s') : s.Gainless s' := by
  cases h with
  | quiet _ _ hnoted => exact hnoted.gainless
  | table hg _ _ e =>
    rw [e]
    exact Session.gainless_table hg _ _
  | read _ _ _ hread =>
    obtain ⟨k, gen, -, -, -, rfl⟩ := Session.of_read_result hread
    exact .of_eq (Nat.le_refl _) rfl
  | exhausted _ _ _ hnoted => exact (s.gainless_removeConsumer _).trans hnoted.gainless
  | park _ _ _ _ hnoted => exact (s.gainless_block _ _).trans hnoted.gainless

theorem Turn.gainless (h : Turn P st control m s p m' s') (hp : ∀ e, p ≠ .done (.error e)) :
    s.Gainless s' :=
  (h.effect hp).2.gainless

theorem restore_gainless {c : Nat} (h : m.restore c s = (.ok (), m', s')) : s.Gainless s' := by
  obtain ⟨x, -, -, hnoted, -⟩ := restore_eq h
  have hreleased : s.Gainless (s.released (some c)) := .of_eq (Nat.le_refl _) rfl
  exact hreleased.trans hnoted.gainless

theorem resumed_gainless {resume : Option Nat} (h : m.resumed resume s = (.ok (), m', s')) :
    s.Gainless s' := by
  cases resume with
  | none =>
    cases h
    exact .refl s
  | some c => exact restore_gainless h

/-- In a move the table whose machine is out may gain a result. -/
theorem Moves.gains {x y : Phase × Session} (h : Moves P st q x y) (hx : x.1.Kept q x.2) :
    x.2.Gainless y.2 ∨ ∃ g, x.1.Out g ∧ x.2.Gains g y.2 := by
  cases h with
  | turn hturn => exact .inl (hturn.gainless (by simp))
  | answer hturn hnoted => exact .inl ((hturn.gainless (by simp)).trans hnoted.gainless)
  | dry hturn => exact .inl (hturn.gainless (by simp))
  | restore htake hr => exact .inl ((Session.gainless_takeReady htake).trans (restore_gainless hr))
  | ended => exact .inl (Session.noted_note _ _).gainless
  | await => exact .inl (.refl _)
  | skip _ _ htake => exact .inl (Session.gainless_takeUp htake)
  | @rests batch batch' own s s1 s2 s' task agenda g resume hready hpop htake hrests hbatch =>
    have hend := s2.gainless_endBatch (max st.completionCycles 1) (batch ++ [g])
    rw [hbatch] at hend
    refine .inl (((Session.gainless_takeUp htake).trans ?_).trans hend)
    rcases hrests with ⟨rfl, -⟩ | ⟨rfl, -⟩
    · exact .refl _
    · exact s1.gainless_prepared g resume
  | @start batch own m m' s s1 s' task agenda g resume gen hready hpop htake hgen hinc hm hr =>
    have hout := (s1.prepared g resume).gainless_modifyGenerator g
      (f := fun gen => { gen with machine := none }) fun _ => ⟨rfl, rfl, rfl⟩
    exact .inl (((Session.gainless_takeUp htake).trans (s1.gainless_prepared g resume)).trans
      (hout.trans (resumed_gainless hr)))
  | work hturn => exact .inl (hturn.gainless (by simp))
  | known hturn hnoted => exact .inl ((hturn.gainless (by simp)).trans hnoted.gainless)
  | @result batch g added control m m' own t gen s s1 s2 hturn hnoted hgen hnew hmany =>
    refine .inr ⟨g, rfl, s2, gen, { gen with results := gen.results.push t }, t,
      (hturn.gainless (by simp)).trans hnoted.gainless, hgen, hnew, .refl _, ?_,
      fun hground => ?_⟩
    · rw [Session.generators_modifyGenerator, if_pos rfl, hgen]
      rfl
    · cases hground.symm.trans hmany
  | @pumped batch batch' g added n control m m' own finished s s1 s' hends hbatch =>
    have hend := Session.gainless_endBatch ((s1.endPump g n m').settle g finished n)
      (max st.completionCycles 1) (batch ++ [g])
    have hspares := Session.spares_endBatch ((s1.endPump g n m').settle g finished n)
      (max st.completionCycles 1) (batch ++ [g]) fun _ => False
    rw [hbatch] at hend hspares
    have hback := ((s1.gainless_endPump g n m').trans
      (Session.gainless_settle _ g finished n)).trans hend
    have hdone := hends.pumps hx.1
    cases hends with
    | dry hturn => exact .inl ((hturn.gainless (by simp)).trans hback)
    | gone hturn hnoted =>
      exact .inl (((hturn.gainless (by simp)).trans hnoted.gainless).trans hback)
    | @single t gen _ _ s2 hturn hnoted hgen hnew hsingle =>
      -- what is put back is complete, and a completion check leaves it so
      obtain ⟨gen1, hgen1, -⟩ := (hdone.1.endPump (added + 1)).2
      obtain ⟨gen', hgen', hc⟩ := hspares.done
        (Session.done_complete .generatorComplete hgen1)
      exact .inr ⟨g, rfl, s2, gen, gen', t, (hturn.gainless (by simp)).trans
        hnoted.gainless, hgen, hnew, hback, hgen', fun _ => hc⟩
  | @leave batch own s hstop =>
    refine .inl ?_
    split
    · exact .refl s
    · exact s.gainless_checkCompletion batch
  | ready => exact .inl (.refl _)
  | check => exact .inl (Session.gainless_checkCompletion _ _)
  | force =>
    exact .inl ((Session.gainless_checkCompletion _ _).trans (Session.gainless_completeAll _ _ _))

end

end TabledRules
