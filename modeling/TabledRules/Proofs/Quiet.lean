-- Who comes to wait. Most of what happens to a session is quiet: no consumer is
-- new or comes to wait, and no machine is put into a generator. While a machine
-- runs, only consumers of its own come to wait.
import TabledRules.Proofs.Changes
import TabledRules.Proofs.Ties

namespace TabledRules

/-! ## What happens to consumers -/

/-- While machines run whose owners are in `X`, no other machine's consumer comes to wait. -/
structure Session.Later (X : Owner → Prop) (s s' : Session) : Prop where
  nextId_le : s.nextId ≤ s'.nextId
  consumer : ∀ {c : Nat} {k' : Consumer}, s'.consumers[c]? = some k' →
    (∃ k : Consumer, s.consumers[c]? = some k ∧ k'.owner = k.owner ∧
      (k'.suspended = true → k.suspended = true ∨ X k.owner)) ∨
    (s.nextId ≤ c ∧ (k'.suspended = true → X k'.owner))

/-- No consumer is new or comes to wait, and no machine is put into a generator. -/
structure Session.Quiet (s s' : Session) : Prop where
  nextId_le : s.nextId ≤ s'.nextId
  consumer : ∀ {c : Nat} {k' : Consumer}, s'.consumers[c]? = some k' →
    ∃ k : Consumer, s.consumers[c]? = some k ∧ k'.owner = k.owner ∧
      (k'.suspended = true → k.suspended = true)
  generator : ∀ {g : Nat} {gen' : Generator}, s'.generators[g]? = some gen' →
    ∃ gen : Generator, s.generators[g]? = some gen ∧
      (gen'.machine = gen.machine ∨ gen'.machine = none)
  waiting : ∀ {q c : Nat} {ids' : List Nat}, s'.queries[q]? = some ids' → c ∈ ids' →
    ∃ ids : List Nat, s.queries[q]? = some ids ∧ c ∈ ids

namespace Session

variable {X Y : Owner → Prop} {s s' s'' : Session} {g c q : Nat}

theorem Later.refl (X : Owner → Prop) (s : Session) : s.Later X s :=
  ⟨Nat.le_refl _, fun h => .inl ⟨_, h, rfl, .inl⟩⟩

theorem Later.trans (h : s.Later X s') (h' : s'.Later X s'') : s.Later X s'' := by
  refine ⟨Nat.le_trans h.nextId_le h'.nextId_le, fun {c k''} hc => ?_⟩
  rcases h'.consumer hc with ⟨k', hk', e', hs'⟩ | ⟨hle, hs'⟩
  · rcases h.consumer hk' with ⟨k, hk, e, hs⟩ | ⟨hle, hs⟩
    · refine .inl ⟨k, hk, e'.trans e, fun hw => ?_⟩
      rcases hs' hw with hw | hx
      · exact hs hw
      · exact .inr (e ▸ hx)
    · refine .inr ⟨hle, fun hw => ?_⟩
      rw [e']
      exact (hs' hw).elim hs fun hx => hx
  · exact .inr ⟨Nat.le_trans h.nextId_le hle, hs'⟩

theorem Later.mono (h : s.Later X s') (hXY : ∀ o, X o → Y o) : s.Later Y s' := by
  refine ⟨h.nextId_le, fun hc => ?_⟩
  rcases h.consumer hc with ⟨k, hk, e, hs⟩ | ⟨hle, hs⟩
  · exact .inl ⟨k, hk, e, fun hw => (hs hw).imp_right (hXY _)⟩
  · exact .inr ⟨hle, fun hw => hXY _ (hs hw)⟩

theorem Quiet.later (h : s.Quiet s') (X : Owner → Prop) : s.Later X s' := by
  refine ⟨h.nextId_le, fun hc => ?_⟩
  obtain ⟨k, hk, e, hs⟩ := h.consumer hc
  exact .inl ⟨k, hk, e, fun hw => .inl (hs hw)⟩

theorem Quiet.refl (s : Session) : s.Quiet s :=
  ⟨Nat.le_refl _, fun h => ⟨_, h, rfl, fun h => h⟩, fun h => ⟨_, h, .inl rfl⟩,
    fun h hc => ⟨_, h, hc⟩⟩

theorem Quiet.trans (h : s.Quiet s') (h' : s'.Quiet s'') : s.Quiet s'' := by
  refine ⟨Nat.le_trans h.nextId_le h'.nextId_le, fun hc => ?_, fun hg => ?_, fun hq hc => ?_⟩
  · obtain ⟨k', hk', e', hs'⟩ := h'.consumer hc
    obtain ⟨k, hk, e, hs⟩ := h.consumer hk'
    exact ⟨k, hk, e'.trans e, fun hw => hs (hs' hw)⟩
  · obtain ⟨gen', hg', h1⟩ := h'.generator hg
    obtain ⟨gen, hg, h2⟩ := h.generator hg'
    refine ⟨gen, hg, ?_⟩
    rcases h1 with h1 | h1
    · exact h2.imp h1.trans h1.trans
    · exact .inr h1
  · obtain ⟨ids', hq', hc'⟩ := h'.waiting hq hc
    exact h.waiting hq' hc'

theorem Quiet.foldl {α : Type} {f : Session → α → Session}
    (h : ∀ (s : Session) (a : α), s.Quiet (f s a)) (as : List α) (s : Session) :
    s.Quiet (as.foldl f s) := by
  induction as generalizing s with
  | nil => exact .refl s
  | cons a as ih => exact (h s a).trans (ih (f s a))

/-! ### Quiet changes -/

/-- Only what consumers have nothing to do with has changed. -/
theorem Quiet.of_fields (hid : s.nextId ≤ s'.nextId) (hc : s'.consumers = s.consumers)
    (hg : s'.generators = s.generators) (hq : s'.queries = s.queries) : s.Quiet s' :=
  ⟨hid, fun h => ⟨_, hc ▸ h, rfl, fun h => h⟩, fun h => ⟨_, hg ▸ h, .inl rfl⟩,
    fun h hc => ⟨_, hq ▸ h, hc⟩⟩

theorem Noted.quiet (h : s.Noted s') : s.Quiet s' := by
  obtain ⟨j, p, rfl⟩ := h
  exact .of_fields (Nat.le_refl _) rfl rfl rfl

theorem quiet_note (s : Session) (e : Event) : s.Quiet (s.note e) := (s.noted_note e).quiet

theorem quiet_agenda (s : Session) (agenda : Queue Task) : s.Quiet { s with agenda } :=
  .of_fields (Nat.le_refl _) rfl rfl rfl

theorem quiet_modifyGenerator (s : Session) (g : Nat) {f : Generator → Generator}
    (hf : ∀ gen, (f gen).machine = gen.machine ∨ (f gen).machine = none) :
    s.Quiet (s.modifyGenerator g f) := by
  refine ⟨Nat.le_refl _, fun h => ⟨_, h, rfl, fun h => h⟩, fun {g' gen'} h => ?_,
    fun h hc => ⟨_, h, hc⟩⟩
  rw [generators_modifyGenerator] at h
  split at h
  · next e =>
    subst e
    obtain ⟨gen, hgen, rfl⟩ := Option.map_eq_some_iff.1 h
    exact ⟨gen, hgen, hf gen⟩
  · exact ⟨gen', h, .inl rfl⟩

theorem quiet_modifyConsumer (s : Session) (c : Nat) {f : Consumer → Consumer}
    (hf : ∀ k, (f k).owner = k.owner ∧ ((f k).suspended = true → k.suspended = true)) :
    s.Quiet (s.modifyConsumer c f) := by
  refine ⟨Nat.le_refl _, fun {c' k'} h => ?_, fun h => ⟨_, h, .inl rfl⟩,
    fun h hc => ⟨_, h, hc⟩⟩
  rw [consumers_modifyConsumer] at h
  split at h
  · next e =>
    subst e
    obtain ⟨k, hk, rfl⟩ := Option.map_eq_some_iff.1 h
    exact ⟨k, hk, hf k⟩
  · exact ⟨k', h, rfl, fun h => h⟩

theorem quiet_modifyQueries (s : Session) (q : Nat) {f : List Nat → List Nat}
    (hf : ∀ ids c, c ∈ f ids → c ∈ ids) :
    s.Quiet { s with queries := s.queries.modify q f } := by
  refine ⟨Nat.le_refl _, fun h => ⟨_, h, rfl, fun h => h⟩, fun h => ⟨_, h, .inl rfl⟩,
    fun {q' c ids'} h hc => ?_⟩
  change (s.queries.modify q f)[q']? = some ids' at h
  rw [Std.TreeMap.getElem?_modify] at h
  split at h
  · next e =>
    rw [Std.LawfulEqCmp.compare_eq_iff_eq] at e
    obtain ⟨ids, hids, rfl⟩ := Option.map_eq_some_iff.1 h
    exact ⟨ids, e ▸ hids, hf ids c hc⟩
  · exact ⟨ids', h, hc⟩

theorem quiet_read (s : Session) (c : Nat) : s.Quiet (s.read c).2 := by
  unfold Session.read
  split
  · exact .refl s
  · split
    · exact .refl s
    · split
      · exact s.quiet_modifyConsumer c fun _ => ⟨rfl, fun h => h⟩
      · exact .refl s

theorem quiet_unblock (s : Session) (owner : Owner) (c : Nat) :
    s.Quiet (s.unblock owner c) := by
  cases owner with
  | generator g => exact s.quiet_modifyGenerator g fun _ => .inl rfl
  | query q => exact s.quiet_modifyQueries q fun _ _ h => List.mem_of_mem_filter h

theorem quiet_removeConsumer (s : Session) (c : Nat) : s.Quiet (s.removeConsumer c) := by
  unfold removeConsumer
  split
  · exact .refl s
  · next k _ =>
    have herase : s.Quiet { s with consumers := s.consumers.erase c } := by
      refine ⟨Nat.le_refl _, fun {c' k'} h => ?_, fun h => ⟨_, h, .inl rfl⟩,
        fun h hc => ⟨_, h, hc⟩⟩
      rw [Std.TreeMap.getElem?_erase] at h
      split at h
      · cases h
      · exact ⟨k', h, rfl, fun h => h⟩
    refine (herase.trans ?_).trans (quiet_unblock _ k.owner c)
    exact quiet_modifyGenerator _ k.generator fun _ => .inl rfl

theorem quiet_wake (s : Session) (c : Nat) : s.Quiet (s.wake c) := by
  unfold wake
  split
  · have hmarked := s.quiet_modifyConsumer c
      (f := fun k => { k with scheduled := true }) fun _ => ⟨rfl, fun h => h⟩
    exact hmarked.trans (.of_fields (Nat.le_refl _) rfl rfl rfl)
  · exact .refl s

theorem quiet_wakeReaders (s : Session) (g : Nat) : s.Quiet (s.wakeReaders g) := by
  unfold wakeReaders
  split
  · exact .foldl quiet_wake _ s
  · exact .refl s

theorem quiet_removeAll (owned : List (Nat × Consumer)) (s : Session) :
    s.Quiet (s.removeAll owned) :=
  .foldl (fun s (p : Nat × Consumer) => s.quiet_removeConsumer p.1) owned s

theorem quiet_complete (event : Triple → Nat → Event) (s : Session) (g : Nat) :
    s.Quiet (s.complete event g) := by
  rcases s.complete_cases event g with e | ⟨gen, hgen, hinc⟩
  · rw [e]
    exact .refl s
  · rw [complete_eq event hgen hinc]
    have hfinish : s.Quiet (s.finish g) := s.quiet_modifyGenerator g fun _ => .inr rfl
    exact ((hfinish.trans (quiet_note _ _)).trans (quiet_removeAll _ _)).trans
      (quiet_wakeReaders _ g)

theorem quiet_completeAll (event : Triple → Nat → Event) (gs : List Nat) (s : Session) :
    s.Quiet (gs.foldl (complete event) s) := .foldl (quiet_complete event) gs s

theorem quiet_checkCompletion (s : Session) (roots : List Nat) :
    s.Quiet (s.checkCompletion roots) := quiet_completeAll _ _ s

theorem quiet_takeUp (s : Session) (task : Task) : s.Quiet (s.takeUp task).2 := by
  cases task with
  | start g =>
    simp only [Session.takeUp]
    split <;> exact .refl s
  | resume c =>
    have hmarked := s.quiet_modifyConsumer c
      (f := fun k => { k with scheduled := false }) fun _ => ⟨rfl, fun h => h⟩
    simp only [Session.takeUp]
    split <;> exact hmarked

theorem quiet_prepared (s : Session) (g : Nat) (resume : Option Nat) :
    s.Quiet (s.prepared g resume) := by
  cases resume with
  | none => exact s.quiet_modifyGenerator g fun _ => .inl rfl
  | some c => exact s.quiet_unblock (.generator g) c

theorem quiet_openQuery (s : Session) : s.Quiet s.openQuery.2 := by
  refine ⟨Nat.le_succ _, fun h => ⟨_, h, rfl, fun h => h⟩, fun h => ⟨_, h, .inl rfl⟩,
    fun {q c ids'} h hc => ?_⟩
  change (s.queries.insert s.nextId [])[q]? = some ids' at h
  rw [Std.TreeMap.getElem?_insert] at h
  split at h
  · cases h
    cases hc
  · exact ⟨ids', h, hc⟩

theorem quiet_closeQuery (s : Session) (q : Nat) : s.Quiet (s.closeQuery q) := by
  have hremoved := s.quiet_removeAll (s.ownedBy (.query q))
  rcases s.closeQuery_cases q with e | ⟨roots, e⟩
  · rw [e]
    exact hremoved
  · have herase : (s.removeAll (s.ownedBy (.query q))).Quiet (s.dismissed q) := by
      refine ⟨Nat.le_refl _, fun h => ⟨_, h, rfl, fun h => h⟩, fun h => ⟨_, h, .inl rfl⟩,
        fun {q' c ids'} h hc => ?_⟩
      change ((s.removeAll (s.ownedBy (.query q))).queries.erase q)[q']? = some ids' at h
      rw [Std.TreeMap.getElem?_erase] at h
      split at h
      · cases h
      · exact ⟨ids', h, hc⟩
    rw [e]
    exact ((hremoved.trans herase).trans (quiet_checkCompletion _ roots)).trans (quiet_note _ _)

theorem quiet_clear (s : Session) (version : Nat) : s.Quiet (s.clear version) := by
  refine ⟨Nat.le_refl _, fun h => ?_, fun h => ?_, fun h => ?_⟩
  · rw [show (s.clear version).consumers = ∅ from rfl, Std.TreeMap.getElem?_emptyc] at h
    cases h
  · rw [show (s.clear version).generators = ∅ from rfl, Std.TreeMap.getElem?_emptyc] at h
    cases h
  · rw [show (s.clear version).queries = ∅ from rfl, Std.TreeMap.getElem?_emptyc] at h
    cases h

theorem quiet_refresh (s : Session) (version : Nat) : s.Quiet (s.refresh version) := by
  unfold refresh
  split
  · exact .refl s
  · exact (s.quiet_note _).trans (quiet_clear _ version)

theorem quiet_poison (s : Session) (failure : Failure) : s.Quiet (s.poison failure) := by
  unfold poison
  split
  · exact .of_fields (Nat.le_refl _) rfl rfl rfl
  · exact .refl s

theorem quiet_takeReady (h : s.takeReady q = some (c, s')) : s.Quiet s' := by
  unfold takeReady at h
  obtain ⟨c', -, e⟩ := Option.map_eq_some_iff.1 h
  cases e
  exact s.quiet_modifyQueries q fun _ _ h => List.mem_of_mem_erase h

/-! ### Consumers that come to wait -/

@[simp] theorem consumers_block (s : Session) (o : Owner) (c c' : Nat) :
    (s.block o c).consumers[c']? =
      if c = c' then (s.consumers[c]?).map fun k => { k with suspended := true }
      else s.consumers[c']? := by
  rw [← consumers_modifyConsumer]
  cases o <;> rfl

theorem generator_block {o : Owner} {gen' : Generator}
    (h : (s.block o c).generators[g]? = some gen') :
    ∃ gen : Generator, s.generators[g]? = some gen ∧ gen'.machine = gen.machine := by
  cases o with
  | generator z =>
    change ((s.modifyConsumer c _).modifyGenerator z _).generators[g]? = _ at h
    rw [generators_modifyGenerator] at h
    split at h
    · next e =>
      subst e
      obtain ⟨gen, hgen, rfl⟩ := Option.map_eq_some_iff.1 h
      exact ⟨gen, hgen, rfl⟩
    · exact ⟨gen', h, rfl⟩
  | query z => exact ⟨gen', h, rfl⟩

theorem waiting_block {o : Owner} {d : Nat} {ids' : List Nat}
    (h : (s.block o c).queries[q]? = some ids') (hd : d ∈ ids') :
    (∃ ids : List Nat, s.queries[q]? = some ids ∧ d ∈ ids) ∨ d = c ∧ o = .query q := by
  cases o with
  | generator z => exact .inl ⟨ids', h, hd⟩
  | query z =>
    change (s.queries.modify z _)[q]? = some ids' at h
    rw [Std.TreeMap.getElem?_modify] at h
    split at h
    · next e =>
      rw [Std.LawfulEqCmp.compare_eq_iff_eq] at e
      subst e
      obtain ⟨ids, hids, rfl⟩ := Option.map_eq_some_iff.1 h
      split at hd
      · exact .inl ⟨ids, hids, hd⟩
      · rcases List.mem_append.1 hd with hd | hd
        · exact .inl ⟨ids, hids, hd⟩
        · exact .inr ⟨List.mem_singleton.1 hd, rfl⟩
    · exact .inl ⟨ids', h, hd⟩

theorem later_block {o : Owner} (h : ∀ k : Consumer, s.consumers[c]? = some k → k.owner = o) :
    s.Later (· = o) (s.block o c) := by
  refine ⟨by cases o <;> exact Nat.le_refl _, fun {c' k'} hk' => ?_⟩
  rw [consumers_block] at hk'
  split at hk'
  · next e =>
    obtain ⟨k, hk, rfl⟩ := Option.map_eq_some_iff.1 hk'
    exact .inl ⟨k, e ▸ hk, rfl, fun _ => .inr (h k hk)⟩
  · exact .inl ⟨k', hk', rfl, .inl⟩

end Session

end TabledRules
