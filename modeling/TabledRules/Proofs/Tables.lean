-- What the operations on a session do to its tables. Most of them leave the
-- goals and the results of all tables alone, and what consumers read.
import TabledRules.Proofs.Nodes
import TabledRules.Session.Agenda

namespace TabledRules.Session

variable {s s' s'' : Session} {g g' c c' : Nat}

/-! ## Looking things up -/

@[simp] theorem generators_modifyGenerator (s : Session) (g g' : Nat) (f : Generator → Generator) :
    (s.modifyGenerator g f).generators[g']? =
      if g = g' then (s.generators[g]?).map f else s.generators[g']? := by
  simp only [modifyGenerator, Std.TreeMap.getElem?_modify, Std.LawfulEqCmp.compare_eq_iff_eq]

@[simp] theorem consumers_modifyConsumer (s : Session) (c c' : Nat) (f : Consumer → Consumer) :
    (s.modifyConsumer c f).consumers[c']? =
      if c = c' then (s.consumers[c]?).map f else s.consumers[c']? := by
  simp only [modifyConsumer, Std.TreeMap.getElem?_modify, Std.LawfulEqCmp.compare_eq_iff_eq]

/-! ## Tables that stay as they are -/

/-- The tables have the same goals and results, and no consumer or machine is new. -/
structure SameTables (s s' : Session) : Prop where
  version : s'.version = s.version
  goals : s'.goals = s.goals
  nextId : s'.nextId = s.nextId
  generator : ∀ {g : Nat} {gen' : Generator}, s'.generators[g]? = some gen' →
    ∃ gen : Generator, s.generators[g]? = some gen ∧ gen'.goal = gen.goal ∧
      gen'.results = gen.results ∧ (gen'.machine = gen.machine ∨ gen'.machine = none)
  consumer : ∀ {c : Nat} {k' : Consumer}, s'.consumers[c]? = some k' → ∃ k : Consumer, s.consumers[c]? = some k ∧
    k'.generator = k.generator

theorem SameTables.refl (s : Session) : s.SameTables s :=
  ⟨rfl, rfl, rfl, fun h => ⟨_, h, rfl, rfl, .inl rfl⟩, fun h => ⟨_, h, rfl⟩⟩

theorem SameTables.trans (h : s.SameTables s') (h' : s'.SameTables s'') : s.SameTables s'' := by
  refine ⟨h'.version.trans h.version, h'.goals.trans h.goals, h'.nextId.trans h.nextId,
    fun hg => ?_, fun hc => ?_⟩
  · obtain ⟨gen1, h1, e1, e2, e3⟩ := h'.generator hg
    obtain ⟨gen2, h2, e4, e5, e6⟩ := h.generator h1
    refine ⟨gen2, h2, e1.trans e4, e2.trans e5, ?_⟩
    rcases e3 with e3 | e3
    · rcases e6 with e6 | e6
      · exact .inl (e3.trans e6)
      · exact .inr (e3.trans e6)
    · exact .inr e3
  · obtain ⟨k1, h1, e1⟩ := h'.consumer hc
    obtain ⟨k2, h2, e2⟩ := h.consumer h1
    exact ⟨k2, h2, e1.trans e2⟩

theorem SameTables.grows (h : s.SameTables s') : s.Grows s' := by
  refine ⟨h.version, Nat.le_of_eq h.nextId.symm, fun _ hk => h.consumer hk, fun _ hg => ?_⟩
  obtain ⟨gen, h1, e, -⟩ := h.generator hg
  exact ⟨gen, h1, e⟩

theorem SameTables.foldl {α : Type} {f : Session → α → Session}
    (h : ∀ (s : Session) (a : α), s.SameTables (f s a)) (as : List α) (s : Session) :
    s.SameTables (as.foldl f s) := by
  induction as generalizing s with
  | nil => exact .refl s
  | cons a as ih => exact (h s a).trans (ih (f s a))

theorem Noted.sameTables (h : s.Noted s') : s.SameTables s' := by
  obtain ⟨j, p, rfl⟩ := h
  exact ⟨rfl, rfl, rfl, fun h => ⟨_, h, rfl, rfl, .inl rfl⟩, fun h => ⟨_, h, rfl⟩⟩

theorem sameTables_note (s : Session) (e : Event) : s.SameTables (s.note e) :=
  (s.noted_note e).sameTables

theorem sameTables_modifyGenerator (s : Session) (g : Nat) {f : Generator → Generator}
    (hf : ∀ gen, (f gen).goal = gen.goal ∧ (f gen).results = gen.results ∧
      ((f gen).machine = gen.machine ∨ (f gen).machine = none)) :
    s.SameTables (s.modifyGenerator g f) := by
  refine ⟨rfl, rfl, rfl, fun {g' gen'} h => ?_, fun h => ⟨_, h, rfl⟩⟩
  rw [generators_modifyGenerator] at h
  split at h
  · next e =>
    subst e
    obtain ⟨gen, hgen, rfl⟩ := Option.map_eq_some_iff.1 h
    exact ⟨gen, hgen, hf gen⟩
  · exact ⟨gen', h, rfl, rfl, .inl rfl⟩

theorem sameTables_modifyConsumer (s : Session) (c : Nat) {f : Consumer → Consumer}
    (hf : ∀ k, (f k).generator = k.generator) : s.SameTables (s.modifyConsumer c f) := by
  refine ⟨rfl, rfl, rfl, fun h => ⟨_, h, rfl, rfl, .inl rfl⟩, fun {c' k'} h => ?_⟩
  rw [consumers_modifyConsumer] at h
  split at h
  · next e =>
    subst e
    obtain ⟨k, hk, rfl⟩ := Option.map_eq_some_iff.1 h
    exact ⟨k, hk, hf k⟩
  · exact ⟨k', h, rfl⟩

theorem sameTables_queries (s : Session) (q : Std.TreeMap Nat (List Nat)) :
    s.SameTables { s with queries := q } :=
  ⟨rfl, rfl, rfl, fun h => ⟨_, h, rfl, rfl, .inl rfl⟩, fun h => ⟨_, h, rfl⟩⟩

theorem sameTables_agenda (s : Session) (agenda : Queue Task) :
    s.SameTables { s with agenda } :=
  ⟨rfl, rfl, rfl, fun h => ⟨_, h, rfl, rfl, .inl rfl⟩, fun h => ⟨_, h, rfl⟩⟩

theorem sameTables_schedule (s : Session) (task : Task) : s.SameTables (s.schedule task) :=
  s.sameTables_agenda _

/-! ## Consumers -/

theorem sameTables_read (s : Session) (c : Nat) : s.SameTables (s.read c).2 := by
  unfold read
  split
  · exact .refl s
  · split
    · exact .refl s
    · split
      · exact s.sameTables_modifyConsumer c fun _ => rfl
      · exact .refl s

/-- A result that is read is one of the table that the consumer reads. -/
theorem of_read_result {t : Triple} (h : s.read c = (.result t, s')) :
    ∃ k gen, s.consumers[c]? = some k ∧ s.generators[k.generator]? = some gen ∧
      gen.results.get? k.read = some t ∧
      s' = s.modifyConsumer c fun k => { k with read := k.read + 1 } := by
  unfold read at h
  split at h
  · cases h
  · next k hk =>
    split at h
    · cases h
    · next gen hgen =>
      split at h
      · next t' ht => cases h; exact ⟨k, gen, hk, hgen, ht, rfl⟩
      · split at h <;> cases h

theorem sameTables_unblock (s : Session) (owner : Owner) (c : Nat) :
    s.SameTables (s.unblock owner c) := by
  cases owner with
  | generator g => exact s.sameTables_modifyGenerator g fun _ => ⟨rfl, rfl, .inl rfl⟩
  | query q => exact s.sameTables_queries _

theorem sameTables_removeConsumer (s : Session) (c : Nat) : s.SameTables (s.removeConsumer c) := by
  unfold removeConsumer
  split
  · exact .refl s
  · next k hk =>
    have herase : s.SameTables { s with consumers := s.consumers.erase c } := by
      refine ⟨rfl, rfl, rfl, fun h => ⟨_, h, rfl, rfl, .inl rfl⟩, fun {c' k'} h => ?_⟩
      rw [Std.TreeMap.getElem?_erase] at h
      split at h
      · cases h
      · exact ⟨k', h, rfl⟩
    refine herase.trans (SameTables.trans ?_ (sameTables_unblock _ k.owner c))
    exact sameTables_modifyGenerator _ k.generator fun _ => ⟨rfl, rfl, .inl rfl⟩

theorem sameTables_block (s : Session) (owner : Owner) (c : Nat) :
    s.SameTables (s.block owner c) := by
  have hc := s.sameTables_modifyConsumer c (f := fun k => { k with suspended := true }) fun _ => rfl
  cases owner with
  | generator g =>
    exact hc.trans (sameTables_modifyGenerator _ g fun _ => ⟨rfl, rfl, .inl rfl⟩)
  | query q => exact hc.trans (sameTables_queries _ _)

theorem sameTables_wake (s : Session) (c : Nat) : s.SameTables (s.wake c) := by
  unfold wake
  split
  · refine SameTables.trans ?_ (sameTables_schedule _ _)
    exact s.sameTables_modifyConsumer c fun _ => rfl
  · exact .refl s

theorem sameTables_wakeReaders (s : Session) (g : Nat) : s.SameTables (s.wakeReaders g) := by
  unfold wakeReaders
  split
  · exact SameTables.foldl sameTables_wake _ s
  · exact .refl s

/-! ## Completion -/

theorem sameTables_complete (event : Triple → Nat → Event) (s : Session) (g : Nat) :
    s.SameTables (s.complete event g) := by
  unfold complete
  split
  · exact .refl s
  · split
    · exact .refl s
    · refine SameTables.trans (SameTables.trans ?_
        (SameTables.foldl (fun s (a : Nat × Consumer) => s.sameTables_removeConsumer a.1) _ _))
        (sameTables_wakeReaders _ g)
      refine SameTables.trans ?_ (sameTables_note _ _)
      exact s.sameTables_modifyGenerator g fun _ => ⟨rfl, rfl, .inr rfl⟩

theorem sameTables_checkCompletion (s : Session) (roots : List Nat) :
    s.SameTables (s.checkCompletion roots) :=
  SameTables.foldl (sameTables_complete .generatorDeadlocked) _ s

theorem sameTables_closeQuery (s : Session) (q : Nat) : s.SameTables (s.closeQuery q) := by
  unfold closeQuery
  simp only
  have hremoved : s.SameTables
      ((s.ownedBy (.query q)).foldl (fun s a => s.removeConsumer a.1) s) :=
    SameTables.foldl (fun s (a : Nat × Consumer) => s.sameTables_removeConsumer a.1) _ s
  split
  · exact ((hremoved.trans (sameTables_queries _ _)).trans (sameTables_checkCompletion _ _)).trans
      (sameTables_note _ _)
  · exact hremoved

end TabledRules.Session
