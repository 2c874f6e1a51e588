-- Tables by their goals, and consumers on the lists of tables and machines.
-- Every operation on a session keeps both: a goal has one table, and a list
-- names each of its consumers once and none that is gone.
import TabledRules.Proofs.Ties
import TabledRules.Proofs.Variants

namespace TabledRules

/-! ## Tables by their goals -/

/-- The goals have one table each, under the form that their variants share, and each table has
a result once. -/
structure Session.Filed (s : Session) : Prop where
  goal : ∀ {key : Triple} {g : Nat}, (key, g) ∈ s.goals.toList →
    ∃ gen : Generator, s.generators[g]? = some gen ∧ gen.goal = key
  found : ∀ {g : Nat} {gen : Generator}, s.generators[g]? = some gen →
    (gen.goal, g) ∈ s.goals.toList
  canonical : ∀ {key : Triple} {g : Nat}, (key, g) ∈ s.goals.toList → key.variantKey = key
  once : (s.goals.toList.map Prod.fst).Nodup
  results : ∀ {g : Nat} {gen : Generator}, s.generators[g]? = some gen →
    gen.results.toList.Nodup

namespace Session

variable {s s' : Session} {g c : Nat} {gen : Generator} {o : Owner → Prop}

/-- In a list of pairs without a key twice, the key of a pair is found. -/
theorem lookup_of_mem {α β : Type} [BEq α] [LawfulBEq α] {a : α} {b : β} {l : List (α × β)}
    (hl : (l.map Prod.fst).Nodup) (h : (a, b) ∈ l) : l.lookup a = some b := by
  induction l with
  | nil => cases h
  | cons p l ih =>
    rw [List.map_cons, List.nodup_cons] at hl
    rw [List.lookup_cons]
    rcases List.mem_cons.1 h with rfl | h
    · rw [beq_self_eq_true]
    · have hne : a ≠ p.1 := by
        rintro rfl
        exact hl.1 (List.mem_map.2 ⟨_, h, rfl⟩)
      rw [beq_false_of_ne hne]
      exact ih hl.2 h

/-- A goal that stands among the goals is found. -/
theorem Filed.generatorOf?_of_mem (h : s.Filed) {value : Triple}
    (hmem : (value.variantKey, g) ∈ s.goals.toList) :
    ∃ gen, s.generatorOf? value = some (g, gen) := by
  have hbucket : (s.goals.bucket value.variantKey.digest).lookup value.variantKey = some g := by
    rw [Index.bucket_eq]
    refine lookup_of_mem (h.once.sublist (List.filter_sublist.map _)) ?_
    exact List.mem_filter.2 ⟨hmem, by simp [goalKey]⟩
  obtain ⟨gen, hgen, -⟩ := h.goal hmem
  refine ⟨gen, ?_⟩
  unfold generatorOf?
  simp only [hbucket, hgen, Option.map_some]

/-- Every table is found by the variants of its goal. -/
theorem Filed.generatorOf? (h : s.Filed) (hgen : s.generators[g]? = some gen) {value : Triple}
    (hv : value.variantKey = gen.goal) : s.generatorOf? value = some (g, gen) := by
  have hmem := h.found hgen
  rw [← hv] at hmem
  obtain ⟨gen', hgen'⟩ := h.generatorOf?_of_mem hmem
  cases hgen.symm.trans (of_generatorOf? hgen').2
  exact hgen'

theorem Filed.of_empty (hgen : s.generators = ∅) (hgoals : s.goals = {}) : s.Filed := by
  have nogen : ∀ {g : Nat} {gen : Generator}, s.generators[g]? = some gen → False := by
    intro g gen h
    rw [hgen] at h
    cases h.symm.trans Std.TreeMap.getElem?_emptyc
  have nogoal : s.goals.toList = [] := by
    rw [hgoals]
    rfl
  refine ⟨fun h => ?_, fun h => (nogen h).elim, fun h => ?_, ?_, fun h => (nogen h).elim⟩
  · rw [nogoal] at h
    cases h
  · rw [nogoal] at h
    cases h
  · rw [nogoal]
    exact List.nodup_nil

/-- The tables have the same goals and the same results. -/
theorem Filed.congr (h : s.Filed) (hgoals : s'.goals = s.goals)
    (hfind : ∀ {g : Nat} {gen : Generator}, s.generators[g]? = some gen →
      ∃ gen' : Generator, s'.generators[g]? = some gen' ∧ gen'.goal = gen.goal)
    (hlook : ∀ {g : Nat} {gen' : Generator}, s'.generators[g]? = some gen' →
      ∃ gen : Generator, s.generators[g]? = some gen ∧ gen'.goal = gen.goal ∧
        gen'.results = gen.results) : s'.Filed := by
  refine ⟨fun hmem => ?_, fun hg => ?_, fun hmem => ?_, ?_, fun hg => ?_⟩
  · rw [hgoals] at hmem
    obtain ⟨gen, hgen, rfl⟩ := h.goal hmem
    exact hfind hgen
  · obtain ⟨gen, hgen, e, -⟩ := hlook hg
    rw [hgoals, e]
    exact h.found hgen
  · rw [hgoals] at hmem
    exact h.canonical hmem
  · rw [hgoals]
    exact h.once
  · obtain ⟨gen, hgen, -, e⟩ := hlook hg
    rw [e]
    exact h.results hgen

theorem Filed.of_same (h : s.Filed) (hgoals : s'.goals = s.goals)
    (hgen : s'.generators = s.generators) : s'.Filed :=
  h.congr hgoals (fun hg => ⟨_, by rw [hgen]; exact hg, rfl⟩)
    (fun hg => ⟨_, by rw [← hgen]; exact hg, rfl, rfl⟩)

theorem Filed.spares (h : s.Filed) (hs : s.Spares o s') (hsame : s.SameTables s') : s'.Filed := by
  refine h.congr hsame.goals (fun hg => ?_) (fun hg => ?_)
  · obtain ⟨gen', hgen', hfollows⟩ := hs.generator hg
    exact ⟨gen', hgen', hfollows.goal⟩
  · obtain ⟨gen, hgen, e1, e2, -⟩ := hsame.generator hg
    exact ⟨gen, hgen, e1, e2⟩

theorem Filed.addConsumer (h : s.Filed) (g : Nat) (owner : Owner) :
    (s.addConsumer g owner).2.Filed := by
  refine h.congr rfl (fun {g' gen} hg => ?_) (fun {g' gen'} hg => ?_)
  · rw [generators_addConsumer]
    split
    · next e =>
      subst e
      rw [hg]
      exact ⟨_, rfl, rfl⟩
    · exact ⟨gen, hg, rfl⟩
  · rw [generators_addConsumer] at hg
    split at hg
    · next e =>
      subst e
      obtain ⟨gen, hgen, rfl⟩ := Option.map_eq_some_iff.1 hg
      exact ⟨gen, hgen, rfl, rfl⟩
    · exact ⟨gen', hg, rfl, rfl⟩

/-- The table of a goal that has none yet. -/
theorem Filed.withGenerator {X D : Nat → Prop} (h : s.Filed) (hs : s.Wired X D) {value : Triple}
    (hnone : s.generatorOf? value = none) (m : Machine) :
    (s.withGenerator value.variantKey m).Filed := by
  have hnew : ∀ {g : Nat}, (value.variantKey, g) ∉ s.goals.toList := by
    intro g hmem
    obtain ⟨gen, hgen⟩ := h.generatorOf?_of_mem hmem
    rw [hnone] at hgen
    cases hgen
  refine ⟨fun {key g} hmem => ?_, fun {g gen} hg => ?_, fun {key g} hmem => ?_, ?_,
    fun {g gen} hg => ?_⟩
  · rw [goals_withGenerator] at hmem
    rw [generators_withGenerator]
    rcases List.mem_append.1 hmem with hmem | hmem
    · obtain ⟨gen, hgen, e⟩ := h.goal hmem
      rw [if_neg (Nat.ne_of_gt (hs.generator_lt hgen))]
      exact ⟨gen, hgen, e⟩
    · cases List.mem_singleton.1 hmem
      rw [if_pos rfl]
      exact ⟨_, rfl, rfl⟩
  · rw [generators_withGenerator] at hg
    rw [goals_withGenerator]
    split at hg
    · next e =>
      cases hg
      rw [e]
      exact List.mem_append_right _ List.mem_cons_self
    · exact List.mem_append_left _ (h.found hg)
  · rw [goals_withGenerator] at hmem
    rcases List.mem_append.1 hmem with hmem | hmem
    · exact h.canonical hmem
    · cases List.mem_singleton.1 hmem
      exact value.variantKey_variantKey
  · rw [goals_withGenerator, List.map_append]
    refine List.Nodup.append h.once (List.nodup_singleton _) fun key hkey hnewkey => ?_
    obtain ⟨⟨key, g⟩, hmem, rfl⟩ := List.mem_map.1 hkey
    cases List.mem_singleton.1 hnewkey
    exact hnew hmem
  · rw [generators_withGenerator] at hg
    split at hg
    · cases hg
      exact List.nodup_nil
    · exact h.results hg

/-- A table gets a result that is new. -/
theorem Filed.push (h : s.Filed) (hgen : s.generators[g]? = some gen) {t : Triple}
    (hnew : gen.isNew t = true) : (s.modifyGenerator g fun gen =>
      { gen with results := gen.results.push t }).Filed := by
  have look : ∀ {g' : Nat} {gen' : Generator}, (s.modifyGenerator g fun gen =>
      { gen with results := gen.results.push t }).generators[g']? = some gen' →
      ∃ gen0 : Generator, s.generators[g']? = some gen0 ∧ gen'.goal = gen0.goal ∧
        (gen'.results = gen0.results ∨ gen0 = gen ∧ gen'.results = gen.results.push t) := by
    intro g' gen' hg'
    rw [generators_modifyGenerator] at hg'
    split at hg'
    · next e =>
      subst e
      rw [hgen] at hg'
      cases hg'
      exact ⟨gen, hgen, rfl, .inr ⟨rfl, rfl⟩⟩
    · exact ⟨gen', hg', rfl, .inl rfl⟩
  refine ⟨fun hmem => ?_, fun hg => ?_, h.canonical, h.once, fun hg => ?_⟩
  · obtain ⟨gen0, hgen0, rfl⟩ := h.goal hmem
    obtain ⟨gen', hgen', ⟨-, rfl⟩ | rfl⟩ := s.find_modifyGenerator g (fun gen =>
      { gen with results := gen.results.push t }) hgen0
    · exact ⟨_, hgen', rfl⟩
    · exact ⟨_, hgen', rfl⟩
  · obtain ⟨gen0, hgen0, e, -⟩ := look hg
    rw [e]
    exact h.found hgen0
  · obtain ⟨gen0, hgen0, -, e | ⟨rfl, e⟩⟩ := look hg
    · rw [e]
      exact h.results hgen0
    · rw [e, Index.toList_push]
      refine List.Nodup.append (h.results hgen0) (List.nodup_singleton t) fun u hu hmem => ?_
      cases List.mem_singleton.1 hmem
      unfold Generator.isNew at hnew
      split at hnew
      · have hnil : gen0.results.toList = [] := by
          simpa [Index.toList, Index.size] using hnew
        rw [hnil] at hu
        cases hu
      · rw [Bool.not_eq_true', ← Bool.not_eq_true, Index.contains_iff] at hnew
        exact hnew hu

end Session

/-! ## Consumers on lists -/

/-- Tables list their readers and machines the consumers that wait, each once and only such as
are there. What is complete runs no more. No consumer has read more than there is. -/
structure Session.Enrolled (s : Session) : Prop where
  readers : ∀ {g : Nat} {gen : Generator}, s.generators[g]? = some gen → gen.consumers.Nodup
  reader : ∀ {g c : Nat} {gen : Generator}, s.generators[g]? = some gen → c ∈ gen.consumers →
    ∃ k : Consumer, s.consumers[c]? = some k ∧ k.generator = g
  workers : ∀ {g : Nat} {gen : Generator}, s.generators[g]? = some gen → gen.generating.Nodup
  worker : ∀ {g c : Nat} {gen : Generator}, s.generators[g]? = some gen → c ∈ gen.generating →
    ∃ k : Consumer, s.consumers[c]? = some k ∧ k.owner = .generator g
  complete : ∀ {g : Nat} {gen : Generator}, s.generators[g]? = some gen → gen.complete = true →
    gen.machine = none ∧ gen.generating = []
  read : ∀ {c : Nat} {k : Consumer} {gen : Generator}, s.consumers[c]? = some k →
    s.generators[k.generator]? = some gen → k.read ≤ gen.results.size

namespace Session

variable {s s' : Session} {g c : Nat} {gen : Generator}

theorem Enrolled.congr (h : s.Enrolled) (hgen : s'.generators = s.generators)
    (hcons : s'.consumers = s.consumers) : s'.Enrolled := by
  refine ⟨?_, ?_, ?_, ?_, ?_, ?_⟩ <;> simp only [hgen, hcons]
  · exact h.readers
  · exact h.reader
  · exact h.workers
  · exact h.worker
  · exact h.complete
  · exact h.read

theorem Enrolled.noted (h : s.Enrolled) (hs : s.Noted s') : s'.Enrolled := by
  obtain ⟨j, p, rfl⟩ := hs
  exact h.congr rfl rfl

theorem Enrolled.of_empty (hgen : s.generators = ∅) : s.Enrolled := by
  have nogen : ∀ {g : Nat} {gen : Generator}, s.generators[g]? = some gen → False := by
    intro g gen h
    rw [hgen] at h
    cases h.symm.trans Std.TreeMap.getElem?_emptyc
  exact ⟨fun h => (nogen h).elim, fun h => (nogen h).elim, fun h => (nogen h).elim,
    fun h => (nogen h).elim, fun h => (nogen h).elim, fun _ h => (nogen h).elim⟩

/-- Consumers may go from the lists of a generator, and results may come. -/
theorem Enrolled.modifyGenerator (h : s.Enrolled) {f : Generator → Generator}
    (hf : ∀ gen : Generator, s.generators[g]? = some gen →
      (f gen).consumers.Sublist gen.consumers ∧ (f gen).generating.Sublist gen.generating ∧
        gen.results.size ≤ (f gen).results.size ∧
        ((f gen).complete = true → (f gen).machine = none ∧ (f gen).generating = [])) :
    (s.modifyGenerator g f).Enrolled := by
  have look : ∀ {g' : Nat} {gen' : Generator},
      (s.modifyGenerator g f).generators[g']? = some gen' →
      ∃ gen : Generator, s.generators[g']? = some gen ∧ gen'.consumers.Sublist gen.consumers ∧
        gen'.generating.Sublist gen.generating ∧ gen.results.size ≤ gen'.results.size ∧
        (gen'.complete = true → gen'.machine = none ∧ gen'.generating = []) := by
    intro g' gen' hg'
    rw [generators_modifyGenerator] at hg'
    split at hg'
    · next e =>
      subst e
      obtain ⟨gen, hgen, rfl⟩ := Option.map_eq_some_iff.1 hg'
      exact ⟨gen, hgen, hf gen hgen⟩
    · exact ⟨gen', hg', .refl _, .refl _, Nat.le_refl _, h.complete hg'⟩
  refine ⟨fun hg => ?_, fun hg hc => ?_, fun hg => ?_, fun hg hc => ?_, fun hg hcomp => ?_,
    fun hc hg => ?_⟩
  · obtain ⟨gen, hgen, hsub, -⟩ := look hg
    exact (h.readers hgen).sublist hsub
  · obtain ⟨gen, hgen, hsub, -⟩ := look hg
    exact h.reader hgen (hsub.subset hc)
  · obtain ⟨gen, hgen, -, hsub, -⟩ := look hg
    exact (h.workers hgen).sublist hsub
  · obtain ⟨gen, hgen, -, hsub, -⟩ := look hg
    exact h.worker hgen (hsub.subset hc)
  · obtain ⟨gen, hgen, -, -, -, hrest⟩ := look hg
    exact hrest hcomp
  · obtain ⟨gen, hgen, -, -, hle, -⟩ := look hg
    exact Nat.le_trans (h.read hc hgen) hle

/-- A consumer stays the consumer of its table and of its machine. -/
theorem Enrolled.modifyConsumer (h : s.Enrolled) {f : Consumer → Consumer}
    (hf : ∀ k : Consumer, s.consumers[c]? = some k → (f k).generator = k.generator ∧
      (f k).owner = k.owner ∧ ((f k).read = k.read ∨ ∀ gen : Generator,
        s.generators[k.generator]? = some gen → (f k).read ≤ gen.results.size)) :
    (s.modifyConsumer c f).Enrolled := by
  have find : ∀ {d : Nat} {k : Consumer}, s.consumers[d]? = some k → ∃ k' : Consumer,
      (s.modifyConsumer c f).consumers[d]? = some k' ∧ k'.generator = k.generator ∧
        k'.owner = k.owner := by
    intro d k hk
    rw [consumers_modifyConsumer]
    split
    · next e =>
      subst e
      rw [hk]
      exact ⟨f k, rfl, (hf k hk).1, (hf k hk).2.1⟩
    · exact ⟨k, hk, rfl, rfl⟩
  refine ⟨h.readers, fun hg hd => ?_, h.workers, fun hg hd => ?_, h.complete, fun hd hg => ?_⟩
  · obtain ⟨k, hk, e⟩ := h.reader hg hd
    obtain ⟨k', hk', e', -⟩ := find hk
    exact ⟨k', hk', e'.trans e⟩
  · obtain ⟨k, hk, e⟩ := h.worker hg hd
    obtain ⟨k', hk', -, e'⟩ := find hk
    exact ⟨k', hk', e'.trans e⟩
  · rw [consumers_modifyConsumer] at hd
    split at hd
    · next e =>
      subst e
      obtain ⟨k, hk, rfl⟩ := Option.map_eq_some_iff.1 hd
      obtain ⟨e1, -, e2⟩ := hf k hk
      rw [e1] at hg
      rcases e2 with e2 | e2
      · rw [e2]
        exact h.read hk hg
      · exact e2 _ hg
    · exact h.read hd hg

theorem Enrolled.read_next (h : s.Enrolled) (c : Nat) : (s.read c).2.Enrolled := by
  unfold Session.read
  split
  · exact h
  · next k hk =>
    split
    · exact h
    · next gen hgen =>
      split
      · next t ht =>
        refine h.modifyConsumer fun k' hk' => ⟨rfl, rfl, .inr fun gen' hgen' => ?_⟩
        cases hk.symm.trans hk'
        cases hgen.symm.trans hgen'
        exact (Array.getElem?_eq_some_iff.1 ht).1
      · exact h

theorem Enrolled.withGenerator {X D : Nat → Prop} (h : s.Enrolled) (hs : s.Wired X D)
    (key : Triple) (m : Machine) : (s.withGenerator key m).Enrolled := by
  have look : ∀ {g' : Nat} {gen' : Generator},
      (s.withGenerator key m).generators[g']? = some gen' →
      s.generators[g']? = some gen' ∨
        g' = s.nextId ∧ gen' = { goal := key, machine := some m } := by
    intro g' gen' hg'
    rw [generators_withGenerator] at hg'
    split at hg'
    · next e =>
      cases hg'
      exact .inr ⟨e.symm, rfl⟩
    · exact .inl hg'
  refine ⟨fun hg => ?_, fun hg hc => ?_, fun hg => ?_, fun hg hc => ?_, fun hg hcomp => ?_,
    fun {c k gen'} hc hg => ?_⟩
  · rcases look hg with hg | ⟨-, rfl⟩
    · exact h.readers hg
    · exact List.nodup_nil
  · rcases look hg with hg | ⟨-, rfl⟩
    · exact h.reader hg hc
    · cases hc
  · rcases look hg with hg | ⟨-, rfl⟩
    · exact h.workers hg
    · exact List.nodup_nil
  · rcases look hg with hg | ⟨-, rfl⟩
    · exact h.worker hg hc
    · cases hc
  · rcases look hg with hg | ⟨-, rfl⟩
    · exact h.complete hg hcomp
    · cases hcomp
  · obtain ⟨gen0, hgen0, -⟩ := hs.reader hc
    rcases look hg with hg | ⟨e, -⟩
    · exact h.read hc hg
    · exact absurd (hs.generator_lt hgen0) (by omega)

theorem Enrolled.addConsumer {X D : Nat → Prop} (h : s.Enrolled) (hs : s.Wired X D) (g : Nat)
    (owner : Owner) : (s.addConsumer g owner).2.Enrolled := by
  have look : ∀ {g' : Nat} {gen' : Generator},
      (s.addConsumer g owner).2.generators[g']? = some gen' → ∃ gen : Generator,
        s.generators[g']? = some gen ∧ gen'.generating = gen.generating ∧
          gen'.machine = gen.machine ∧ gen'.complete = gen.complete ∧ gen'.results = gen.results ∧
          (gen'.consumers = gen.consumers ∨ g = g' ∧ gen'.consumers = s.nextId :: gen.consumers) := by
    intro g' gen' hg'
    rw [generators_addConsumer] at hg'
    split at hg'
    · next e =>
      subst e
      obtain ⟨gen, hgen, rfl⟩ := Option.map_eq_some_iff.1 hg'
      exact ⟨gen, hgen, rfl, rfl, rfl, rfl, .inr ⟨rfl, rfl⟩⟩
    · exact ⟨gen', hg', rfl, rfl, rfl, rfl, .inl rfl⟩
  have old : ∀ {c : Nat} {k : Consumer}, s.consumers[c]? = some k →
      (s.addConsumer g owner).2.consumers[c]? = some k := by
    intro c k hk
    rw [consumers_addConsumer, if_neg (Nat.ne_of_gt (hs.consumer_lt hk)), hk]
  refine ⟨fun hg => ?_, fun {g' c gen'} hg hc => ?_, fun hg => ?_, fun hg hc => ?_,
    fun hg hcomp => ?_, fun {c k gen'} hc hg => ?_⟩
  · obtain ⟨gen, hgen, -, -, -, -, e | ⟨-, e⟩⟩ := look hg
    · rw [e]
      exact h.readers hgen
    · rw [e, List.nodup_cons]
      refine ⟨fun hmem => ?_, h.readers hgen⟩
      obtain ⟨k, hk, -⟩ := h.reader hgen hmem
      exact Nat.lt_irrefl _ (hs.consumer_lt hk)
  · obtain ⟨gen, hgen, -, -, -, -, e | ⟨rfl, e⟩⟩ := look hg
    · rw [e] at hc
      obtain ⟨k, hk, hkg⟩ := h.reader hgen hc
      exact ⟨k, old hk, hkg⟩
    · rw [e] at hc
      rcases List.mem_cons.1 hc with rfl | hc
      · exact ⟨{ generator := g, owner }, by rw [consumers_addConsumer, if_pos rfl], rfl⟩
      · obtain ⟨k, hk, hkg⟩ := h.reader hgen hc
        exact ⟨k, old hk, hkg⟩
  · obtain ⟨gen, hgen, e, -⟩ := look hg
    rw [e]
    exact h.workers hgen
  · obtain ⟨gen, hgen, e, -⟩ := look hg
    rw [e] at hc
    obtain ⟨k, hk, ho⟩ := h.worker hgen hc
    exact ⟨k, old hk, ho⟩
  · obtain ⟨gen, hgen, e1, e2, e3, -⟩ := look hg
    rw [e1, e2]
    exact h.complete hgen (e3 ▸ hcomp)
  · obtain ⟨gen, hgen, -, -, -, e, -⟩ := look hg
    rw [e]
    rw [consumers_addConsumer] at hc
    split at hc
    · cases hc
      exact Nat.zero_le _
    · exact h.read hc hgen

/-! ## Consumers that go -/

theorem Enrolled.unblock (h : s.Enrolled) (owner : Owner) (c : Nat) :
    (s.unblock owner c).Enrolled := by
  cases owner with
  | query q => exact h.congr rfl rfl
  | generator z =>
    refine h.modifyGenerator fun gen hgen =>
      ⟨.refl _, List.filter_sublist, Nat.le_refl _, fun hcomp => ?_⟩
    obtain ⟨h1, h2⟩ := h.complete hgen hcomp
    exact ⟨h1, by simp [h2]⟩

theorem generators_unblock (s : Session) (owner : Owner) (c g : Nat) :
    (s.unblock owner c).generators[g]? = (s.generators[g]?).map fun gen =>
      { gen with generating :=
          if owner = .generator g then gen.generating.filter (· ≠ c) else gen.generating } := by
  cases owner with
  | query q => simp [Session.unblock]
  | generator z =>
    change (s.modifyGenerator z _).generators[g]? = _
    rw [generators_modifyGenerator]
    split
    · next e => simp [e]
    · next e => simp [e]

/-- A consumer that is given up is taken off the list of its table and that of its machine. -/
theorem generators_removeConsumer {k : Consumer} (hk : s.consumers[c]? = some k) (g : Nat) :
    (s.removeConsumer c).generators[g]? = (s.generators[g]?).map fun gen =>
      { gen with
        consumers := if k.generator = g then gen.consumers.filter (· ≠ c) else gen.consumers
        generating :=
          if k.owner = .generator g then gen.generating.filter (· ≠ c) else gen.generating } := by
  unfold removeConsumer
  simp only [hk]
  rw [generators_unblock, generators_modifyGenerator]
  by_cases e : k.generator = g
  · subst e
    simp [Function.comp_def]
  · simp [e]

theorem Enrolled.removeConsumer (h : s.Enrolled) (c : Nat) : (s.removeConsumer c).Enrolled := by
  cases hk : s.consumers[c]? with
  | none =>
    have e : s.removeConsumer c = s := by
      unfold Session.removeConsumer
      rw [hk]
    rw [e]
    exact h
  | some k =>
    have stays : ∀ {d : Nat} {k' : Consumer}, s.consumers[d]? = some k' → d ≠ c →
        (s.removeConsumer c).consumers[d]? = some k' := by
      intro d k' hk' hne
      rw [consumers_removeConsumer, if_neg (Ne.symm hne), hk']
    have look : ∀ {g : Nat} {gen' : Generator}, (s.removeConsumer c).generators[g]? = some gen' →
        ∃ gen : Generator, s.generators[g]? = some gen ∧ gen' = { gen with
          consumers := if k.generator = g then gen.consumers.filter (· ≠ c) else gen.consumers
          generating :=
            if k.owner = .generator g then gen.generating.filter (· ≠ c) else gen.generating } := by
      intro g gen' hg
      rw [generators_removeConsumer hk] at hg
      obtain ⟨gen, hgen, e⟩ := Option.map_eq_some_iff.1 hg
      exact ⟨gen, hgen, e.symm⟩
    refine ⟨fun {g gen'} hg => ?_, fun {g d gen'} hg hd => ?_, fun {g gen'} hg => ?_,
      fun {g d gen'} hg hd => ?_, fun {g gen'} hg hcomp => ?_, fun {d k' gen'} hd hg => ?_⟩
    · obtain ⟨gen, hgen, rfl⟩ := look hg
      simp only
      split
      · exact (h.readers hgen).filter _
      · exact h.readers hgen
    · obtain ⟨gen, hgen, rfl⟩ := look hg
      simp only at hd
      split at hd
      · obtain ⟨hd, hne⟩ := List.mem_filter.1 hd
        obtain ⟨k', hk', e⟩ := h.reader hgen hd
        exact ⟨k', stays hk' (by simpa using hne), e⟩
      · next hother =>
        obtain ⟨k', hk', e⟩ := h.reader hgen hd
        refine ⟨k', stays hk' ?_, e⟩
        rintro rfl
        cases hk.symm.trans hk'
        exact hother e
    · obtain ⟨gen, hgen, rfl⟩ := look hg
      simp only
      split
      · exact (h.workers hgen).filter _
      · exact h.workers hgen
    · obtain ⟨gen, hgen, rfl⟩ := look hg
      simp only at hd
      split at hd
      · obtain ⟨hd, hne⟩ := List.mem_filter.1 hd
        obtain ⟨k', hk', e⟩ := h.worker hgen hd
        exact ⟨k', stays hk' (by simpa using hne), e⟩
      · next hother =>
        obtain ⟨k', hk', e⟩ := h.worker hgen hd
        refine ⟨k', stays hk' ?_, e⟩
        rintro rfl
        cases hk.symm.trans hk'
        exact hother e
    · obtain ⟨gen, hgen, rfl⟩ := look hg
      obtain ⟨h1, h2⟩ := h.complete hgen hcomp
      exact ⟨h1, by simp [h2]⟩
    · obtain ⟨gen, hgen, rfl⟩ := look hg
      rw [consumers_removeConsumer] at hd
      split at hd
      · cases hd
      · have hle := h.read hd hgen
        exact hle

theorem Enrolled.removeAll (h : s.Enrolled) (owned : List (Nat × Consumer)) :
    (s.removeAll owned).Enrolled := by
  induction owned generalizing s with
  | nil => exact h
  | cons p ps ih => exact ih (h.removeConsumer p.1)

/-! ## Consumers that wait and go on -/

/-- A consumer of a machine that is not done has to wait. -/
theorem Enrolled.block (h : s.Enrolled) {k : Consumer} (hk : s.consumers[c]? = some k)
    (hworks : s.Works k.owner) : (s.block k.owner c).Enrolled := by
  have hmarked : (s.modifyConsumer c fun k => { k with suspended := true }).Enrolled :=
    h.modifyConsumer fun _ _ => ⟨rfl, rfl, .inl rfl⟩
  cases ho : k.owner with
  | query q => exact hmarked.congr rfl rfl
  | generator z =>
    rw [ho] at hworks
    obtain ⟨gen0, hgen0, hinc⟩ := hworks
    have hmark : (s.modifyConsumer c fun k => { k with suspended := true }).consumers[c]? =
        some { k with suspended := true } := by
      rw [consumers_modifyConsumer, if_pos rfl, hk]
      rfl
    have look : ∀ {g : Nat} {gen' : Generator},
        (s.block (.generator z) c).generators[g]? = some gen' → ∃ gen : Generator,
          s.generators[g]? = some gen ∧ (gen' = gen ∨ z = g ∧ gen.complete = false ∧
            gen' = { gen with generating := gen.generating.insert c }) := by
      intro g gen' hg
      change (Session.modifyGenerator _ z _).generators[g]? = some gen' at hg
      rw [generators_modifyGenerator] at hg
      split at hg
      · next e =>
        subst e
        obtain ⟨gen, hgen, rfl⟩ := Option.map_eq_some_iff.1 hg
        change s.generators[z]? = some gen at hgen
        cases hgen0.symm.trans hgen
        exact ⟨gen0, hgen0, .inr ⟨rfl, hinc, rfl⟩⟩
      · exact ⟨gen', hg, .inl rfl⟩
    refine ⟨fun hg => ?_, fun hg hd => ?_, fun hg => ?_, fun hg hd => ?_, fun hg hcomp => ?_,
      fun hd hg => ?_⟩
    · obtain ⟨gen, hgen, e⟩ := look hg
      have hnodup := hmarked.readers hgen
      rcases e with rfl | ⟨-, -, rfl⟩ <;> exact hnodup
    · obtain ⟨gen, hgen, rfl | ⟨-, -, rfl⟩⟩ := look hg <;> exact hmarked.reader hgen hd
    · obtain ⟨gen, hgen, rfl | ⟨-, -, rfl⟩⟩ := look hg
      · exact hmarked.workers hgen
      · exact (hmarked.workers hgen).insert
    · obtain ⟨gen, hgen, rfl | ⟨rfl, -, rfl⟩⟩ := look hg
      · exact hmarked.worker hgen hd
      · rcases List.mem_insert_iff.1 hd with rfl | hd
        · exact ⟨_, hmark, ho⟩
        · exact hmarked.worker hgen hd
    · obtain ⟨gen, hgen, rfl | ⟨-, hno, rfl⟩⟩ := look hg
      · exact hmarked.complete hgen hcomp
      · rw [hno] at hcomp
        cases hcomp
    · obtain ⟨gen, hgen, e⟩ := look hg
      have hle := hmarked.read hd hgen
      rcases e with rfl | ⟨-, -, rfl⟩ <;> exact hle

theorem Enrolled.released (h : s.Enrolled) (resume : Option Nat) :
    (s.released resume).Enrolled := by
  cases resume with
  | none => exact h
  | some c => exact h.modifyConsumer fun _ _ => ⟨rfl, rfl, .inl rfl⟩

theorem Enrolled.wake (h : s.Enrolled) (c : Nat) : (s.wake c).Enrolled := by
  unfold Session.wake
  split
  · have hmarked : (s.modifyConsumer c fun k => { k with scheduled := true }).Enrolled :=
      h.modifyConsumer fun _ _ => ⟨rfl, rfl, .inl rfl⟩
    exact hmarked.congr rfl rfl
  · exact h

theorem Enrolled.wakeReaders (h : s.Enrolled) (g : Nat) : (s.wakeReaders g).Enrolled := by
  unfold Session.wakeReaders
  split
  · next gen hgen =>
    generalize gen.consumers.reverse = cs
    clear hgen
    induction cs generalizing s with
    | nil => exact h
    | cons c cs ih => exact ih (h.wake c)
  · exact h

theorem Enrolled.takeUp (h : s.Enrolled) {task : Task} {x : Option (Nat × Option Nat)}
    (htake : s.takeUp task = (x, s')) : s'.Enrolled := by
  rcases takeUp_cases htake with ⟨g, -, rfl, -⟩ | ⟨c, -, rfl, -⟩
  · exact h
  · exact h.modifyConsumer fun _ _ => ⟨rfl, rfl, .inl rfl⟩

theorem Enrolled.takeReady (h : s.Enrolled) {q : Nat} (htake : s.takeReady q = some (c, s')) :
    s'.Enrolled := by
  unfold Session.takeReady at htake
  obtain ⟨c', -, e⟩ := Option.map_eq_some_iff.1 htake
  cases e
  exact h.congr rfl rfl

theorem Enrolled.prepared (h : s.Enrolled) (g : Nat) (resume : Option Nat) :
    (s.prepared g resume).Enrolled := by
  cases resume with
  | none =>
    refine h.modifyGenerator fun gen hgen => ?_
    have hcomplete := h.complete hgen
    exact ⟨.refl _, .refl _, Nat.le_refl _, hcomplete⟩
  | some c => exact h.unblock (.generator g) c

/-- A machine is taken out. -/
theorem Enrolled.out (h : s.Enrolled) (g : Nat) :
    (s.modifyGenerator g fun gen => { gen with machine := none }).Enrolled :=
  h.modifyGenerator fun _ hgen =>
    ⟨.refl _, .refl _, Nat.le_refl _, fun hcomp => ⟨rfl, (h.complete hgen hcomp).2⟩⟩

theorem Enrolled.push (h : s.Enrolled) (g : Nat) (t : Triple) :
    (s.modifyGenerator g fun gen => { gen with results := gen.results.push t }).Enrolled := by
  refine h.modifyGenerator fun gen hgen => ?_
  have hcomplete := h.complete hgen
  exact ⟨.refl _, .refl _, by simp [Index.push, Index.size], hcomplete⟩

/-! ## Completion -/

theorem Enrolled.complete_generator (h : s.Enrolled) (event : Triple → Nat → Event) (g : Nat) :
    (s.complete event g).Enrolled := by
  rcases s.complete_cases event g with e | ⟨gen, hgen, hinc⟩
  · rw [e]
    exact h
  · rw [complete_eq event hgen hinc]
    have hfinish : (s.finish g).Enrolled := h.modifyGenerator fun _ _ =>
      ⟨.refl _, List.nil_sublist _, Nat.le_refl _, fun _ => ⟨rfl, rfl⟩⟩
    exact ((hfinish.noted (noted_note _ _)).removeAll _).wakeReaders g

theorem Enrolled.completeAll (h : s.Enrolled) (event : Triple → Nat → Event) (gs : List Nat) :
    (gs.foldl (Session.complete event) s).Enrolled := by
  induction gs generalizing s with
  | nil => exact h
  | cons g gs ih => exact ih (h.complete_generator event g)

theorem Enrolled.checkCompletion (h : s.Enrolled) (roots : List Nat) :
    (s.checkCompletion roots).Enrolled :=
  h.completeAll _ _

/-- The machine of a generator that is not complete is put back. -/
theorem Enrolled.endPump (h : s.Enrolled) (hworks : s.Works (.generator g)) (n : Nat)
    (m : Machine) : (s.endPump g n m).Enrolled := by
  obtain ⟨gen, hgen, hinc⟩ := hworks
  unfold Session.endPump
  rw [hgen]
  have hback : (s.modifyGenerator g fun gen => { gen with machine := some m }).Enrolled := by
    refine h.modifyGenerator fun gen' hgen' => ⟨.refl _, .refl _, Nat.le_refl _, fun hcomp => ?_⟩
    cases hgen.symm.trans hgen'
    rw [hinc] at hcomp
    cases hcomp
  exact hback.noted (noted_note _ _)

theorem Enrolled.settle (h : s.Enrolled) (g : Nat) (finished : Bool) (added : Nat) :
    (s.settle g finished added).Enrolled := by
  unfold Session.settle
  split
  · exact h.complete_generator _ g
  · split
    · exact h
    · exact h.wakeReaders g

theorem Enrolled.dismissed (h : s.Enrolled) (q : Nat) : (s.dismissed q).Enrolled :=
  (h.removeAll _).congr rfl rfl

theorem Enrolled.closeQuery (h : s.Enrolled) (q : Nat) : (s.closeQuery q).Enrolled := by
  rcases s.closeQuery_cases q with e | ⟨roots, e⟩
  · rw [e]
    exact h.removeAll _
  · rw [e]
    exact ((h.dismissed q).checkCompletion roots).noted (noted_note _ _)

end Session

end TabledRules
