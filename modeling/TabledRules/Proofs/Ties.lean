-- Machines and the consumers that read for them. While the machine of one
-- owner runs, what the machines of the others rely on stays as it is.
import TabledRules.Proofs.Wiring

namespace TabledRules

/-! ## What is spared -/

/-- Nothing that counts for the machine it reads for has happened to the consumer. -/
structure Consumer.Same (k k' : Consumer) : Prop where
  generator : k'.generator = k.generator
  owner : k'.owner = k.owner
  read : k'.read = k.read
  suspended : k'.suspended = k.suspended

theorem Consumer.Same.refl (k : Consumer) : k.Same k := ⟨rfl, rfl, rfl, rfl⟩

theorem Consumer.Same.trans {k k' k'' : Consumer} (h : k.Same k') (h' : k'.Same k'') :
    k.Same k'' :=
  ⟨h'.generator.trans h.generator, h'.owner.trans h.owner, h'.read.trans h.read,
    h'.suspended.trans h.suspended⟩

/-- The table keeps its results. Unless its machine `ran`, it has no others, and its machine is
the same as long as it is not complete. -/
structure Generator.Follows (ran : Prop) (gen gen' : Generator) : Prop where
  goal : gen'.goal = gen.goal
  results : gen.results.toList <+: gen'.results.toList
  complete : gen.complete = true → gen'.complete = true
  idle : ¬ ran → gen'.results = gen.results ∧
    (gen'.complete = true ∨ gen'.machine = gen.machine ∧ gen'.ready = gen.ready)

theorem Generator.Follows.refl (ran : Prop) (gen : Generator) : gen.Follows ran gen :=
  ⟨rfl, List.prefix_rfl, id, fun _ => ⟨rfl, .inr ⟨rfl, rfl⟩⟩⟩

theorem Generator.Follows.trans {ran : Prop} {gen gen' gen'' : Generator}
    (h : gen.Follows ran gen') (h' : gen'.Follows ran gen'') : gen.Follows ran gen'' := by
  refine ⟨h'.goal.trans h.goal, h.results.trans h'.results, fun hc => h'.complete (h.complete hc),
    fun hran => ?_⟩
  obtain ⟨e1, h1⟩ := h.idle hran
  obtain ⟨e2, h2⟩ := h'.idle hran
  refine ⟨e2.trans e1, ?_⟩
  rcases h1 with hc | ⟨h3, h4⟩
  · exact .inl (h'.complete hc)
  · rcases h2 with hc | ⟨h5, h6⟩
    · exact .inl hc
    · exact .inr ⟨h5.trans h3, h6.trans h4⟩

namespace Session

/-- The owner's machine will not run any more. -/
def Done (s : Session) : Owner → Prop
  | .generator g => ∃ gen : Generator, s.generators[g]? = some gen ∧ gen.complete = true
  | .query q => q < s.nextId ∧ s.queries[q]? = none

/-- What the machines of other owners than those in `o` rely on is as it was. -/
structure Spares (o : Owner → Prop) (s s' : Session) : Prop where
  nextId_le : s.nextId ≤ s'.nextId
  done : ∀ {x : Owner}, s.Done x → s'.Done x
  generator : ∀ {g : Nat} {gen : Generator}, s.generators[g]? = some gen →
    ∃ gen' : Generator, s'.generators[g]? = some gen' ∧ gen.Follows (o (.generator g)) gen'
  consumer : ∀ {c : Nat} {k : Consumer}, s.consumers[c]? = some k → ¬ o k.owner →
    s'.Done k.owner ∨ ∃ k' : Consumer, s'.consumers[c]? = some k' ∧ k.Same k'
  query : ∀ {q : Nat}, (s.queries[q]?).isSome = true → ¬ o (.query q) →
    (s'.queries[q]?).isSome = true
  old : ∀ {c : Nat} {k' : Consumer}, s'.consumers[c]? = some k' → ¬ o k'.owner →
    ∃ k : Consumer, s.consumers[c]? = some k ∧ k.Same k'

variable {o o' : Owner → Prop} {s s' s'' : Session} {g c q : Nat}

theorem Spares.refl (o : Owner → Prop) (s : Session) : s.Spares o s :=
  ⟨Nat.le_refl _, id, fun h => ⟨_, h, .refl _ _⟩, fun h _ => .inr ⟨_, h, .refl _⟩, fun h _ => h,
    fun h _ => ⟨_, h, .refl _⟩⟩

theorem Spares.trans (h : s.Spares o s') (h' : s'.Spares o s'') : s.Spares o s'' := by
  refine ⟨Nat.le_trans h.nextId_le h'.nextId_le, fun hd => h'.done (h.done hd), fun hg => ?_,
    fun hc ho => ?_, fun hq ho => h'.query (h.query hq ho) ho, fun hc ho => ?_⟩
  · obtain ⟨gen', hg', h1⟩ := h.generator hg
    obtain ⟨gen'', hg'', h2⟩ := h'.generator hg'
    exact ⟨gen'', hg'', h1.trans h2⟩
  · rcases h.consumer hc ho with hd | ⟨k', hc', h1⟩
    · exact .inl (h'.done hd)
    · rcases h'.consumer hc' (h1.owner ▸ ho) with hd | ⟨k'', hc'', h2⟩
      · exact .inl (h1.owner ▸ hd)
      · exact .inr ⟨k'', hc'', h1.trans h2⟩
  · obtain ⟨k', hc', h2⟩ := h'.old hc ho
    obtain ⟨k, hk, h1⟩ := h.old hc' (h2.owner ▸ ho)
    exact ⟨k, hk, h1.trans h2⟩

theorem Spares.mono (h : s.Spares o s') (ho : ∀ x, o x → o' x) : s.Spares o' s' := by
  refine ⟨h.nextId_le, h.done, fun hg => ?_, fun hc hx => h.consumer hc fun hx' => hx (ho _ hx'),
    fun hq hx => h.query hq fun hx' => hx (ho _ hx'),
    fun hc hx => h.old hc fun hx' => hx (ho _ hx')⟩
  obtain ⟨gen', hg', h1⟩ := h.generator hg
  exact ⟨gen', hg', h1.goal, h1.results, h1.complete, fun hx => h1.idle fun hx' => hx (ho _ hx')⟩

theorem Spares.foldl {α : Type} {f : Session → α → Session} {as : List α}
    (h : ∀ (s : Session), ∀ a ∈ as, s.Spares o (f s a)) (s : Session) :
    s.Spares o (as.foldl f s) := by
  induction as generalizing s with
  | nil => exact .refl o s
  | cons a as ih =>
    exact (h s a List.mem_cons_self).trans
      (ih (fun s b hb => h s b (List.mem_cons_of_mem _ hb)) (f s a))

/-! ## Steps that spare the others -/

/-- Consumers stay, and what becomes of generators spares them. -/
theorem Spares.of_generators (hid : s'.nextId = s.nextId) (hcons : s'.consumers = s.consumers)
    (hqueries : ∀ q : Nat, (s'.queries[q]?).isSome = (s.queries[q]?).isSome)
    (hgen : ∀ {g : Nat} {gen : Generator}, s.generators[g]? = some gen →
      ∃ gen' : Generator, s'.generators[g]? = some gen' ∧ gen.Follows (o (.generator g)) gen') :
    s.Spares o s' := by
  refine ⟨Nat.le_of_eq hid.symm, fun {x} hd => ?_, hgen,
    fun hc _ => .inr ⟨_, by rw [hcons]; exact hc, .refl _⟩, fun {q} hq _ => (hqueries q).trans hq,
    fun hc _ => ⟨_, by rw [← hcons]; exact hc, .refl _⟩⟩
  cases x with
  | generator g =>
    obtain ⟨gen, hg, hc⟩ := hd
    obtain ⟨gen', hg', h⟩ := hgen hg
    exact ⟨gen', hg', h.complete hc⟩
  | query q =>
    refine ⟨hid ▸ hd.1, ?_⟩
    have := hqueries q
    rw [hd.2] at this
    exact Option.not_isSome_iff_eq_none.1 (by rw [this]; simp)

theorem Noted.spares (h : s.Noted s') (o : Owner → Prop) : s.Spares o s' := by
  obtain ⟨j, p, rfl⟩ := h
  exact .of_generators rfl rfl (fun _ => rfl) fun hg => ⟨_, hg, .refl _ _⟩

theorem spares_note (s : Session) (e : Event) (o : Owner → Prop) : s.Spares o (s.note e) :=
  (s.noted_note e).spares o

theorem spares_agenda (s : Session) (agenda : Queue Task) (o : Owner → Prop) :
    s.Spares o { s with agenda } :=
  .of_generators rfl rfl (fun _ => rfl) fun hg => ⟨_, hg, .refl _ _⟩

theorem spares_modifyGenerator (s : Session) (g : Nat) {f : Generator → Generator}
    (hf : ∀ gen : Generator, s.generators[g]? = some gen → gen.Follows (o (.generator g)) (f gen)) :
    s.Spares o (s.modifyGenerator g f) := by
  refine .of_generators rfl rfl (fun _ => rfl) fun {g' gen} hg => ?_
  obtain ⟨gen', h1, ⟨rfl, rfl⟩ | rfl⟩ := s.find_modifyGenerator g f hg
  · exact ⟨_, h1, hf gen hg⟩
  · exact ⟨_, h1, .refl _ _⟩

/-- A consumer that changes is one of the owners that are not spared. -/
theorem spares_modifyConsumer (s : Session) (c : Nat) {f : Consumer → Consumer}
    (hf : ∀ k : Consumer, s.consumers[c]? = some k →
      (f k).owner = k.owner ∧ o k.owner ∨ k.Same (f k)) :
    s.Spares o (s.modifyConsumer c f) := by
  refine ⟨Nat.le_refl _, fun {x} hd => by cases x <;> exact hd, fun hg => ⟨_, hg, .refl _ _⟩,
    fun {c' k} hc ho => .inr ?_, fun hq _ => hq, fun {c' k'} hc ho => ?_⟩
  · rw [consumers_modifyConsumer]
    split
    · next e =>
      subst e
      rw [hc]
      exact ⟨f k, rfl, (hf k hc).resolve_left fun h => ho h.2⟩
    · exact ⟨k, hc, .refl k⟩
  · rw [consumers_modifyConsumer] at hc
    split at hc
    · next e =>
      subst e
      obtain ⟨k, hk, rfl⟩ := Option.map_eq_some_iff.1 hc
      exact ⟨k, hk, (hf k hk).resolve_left fun h => ho (h.1 ▸ h.2)⟩
    · exact ⟨k', hc, .refl k'⟩

theorem isSome_modify (queries : Std.TreeMap Nat (List Nat)) (q q' : Nat)
    (f : List Nat → List Nat) : ((queries.modify q f)[q']?).isSome = (queries[q']?).isSome := by
  rw [Std.TreeMap.getElem?_modify]
  split
  · next e =>
    rw [Std.LawfulEqCmp.compare_eq_iff_eq] at e
    rw [Option.isSome_map, e]
  · rfl

theorem spares_unblock (s : Session) (owner : Owner) (c : Nat) (o : Owner → Prop) :
    s.Spares o (s.unblock owner c) := by
  cases owner with
  | generator z =>
    exact s.spares_modifyGenerator z fun gen _ =>
      ⟨rfl, List.prefix_rfl, id, fun _ => ⟨rfl, .inr ⟨rfl, rfl⟩⟩⟩
  | query q =>
    exact .of_generators rfl rfl (fun q' => isSome_modify _ _ _ _) fun hg => ⟨_, hg, .refl _ _⟩

theorem queries_removeConsumer_isSome (s : Session) (c q : Nat) :
    ((s.removeConsumer c).queries[q]?).isSome = (s.queries[q]?).isSome := by
  rcases s.queries_removeConsumer c q with e | ⟨e, -⟩
  · rw [e]
  · rw [e, Option.isSome_map]

/-- A consumer that is given up is one of the owners that are not spared, or its owner is
done. -/
theorem spares_removeConsumer (s : Session) (c : Nat)
    (hc : ∀ k : Consumer, s.consumers[c]? = some k → o k.owner ∨ s.Done k.owner) :
    s.Spares o (s.removeConsumer c) := by
  have hdone : ∀ {x : Owner}, s.Done x → (s.removeConsumer c).Done x := by
    intro x hd
    cases x with
    | generator g =>
      obtain ⟨gen, hg, hcomp⟩ := hd
      obtain ⟨gen', hg', h⟩ := s.find_removeConsumer c hg
      exact ⟨gen', hg', h.complete.trans hcomp⟩
    | query q =>
      refine ⟨by rw [nextId_removeConsumer]; exact hd.1, ?_⟩
      have := s.queries_removeConsumer_isSome c q
      rw [hd.2] at this
      exact Option.not_isSome_iff_eq_none.1 (by rw [this]; simp)
  refine ⟨Nat.le_of_eq (s.nextId_removeConsumer c).symm, hdone, fun hg => ?_, fun {c' k} hk ho => ?_,
    fun {q} hq _ => (s.queries_removeConsumer_isSome c q).trans hq, fun {c' k'} hc' _ => ?_⟩
  · obtain ⟨gen', hg', h⟩ := s.find_removeConsumer c hg
    exact ⟨gen', hg', h.goal, h.results ▸ List.prefix_rfl, fun hcomp => h.complete.trans hcomp,
      fun _ => ⟨h.results, .inr ⟨h.machine, h.ready⟩⟩⟩
  · rw [consumers_removeConsumer]
    split
    · next e =>
      subst e
      exact .inl (hdone ((hc k hk).resolve_left ho))
    · exact .inr ⟨k, hk, .refl k⟩
  · rw [consumers_removeConsumer] at hc'
    split at hc'
    · cases hc'
    · exact ⟨k', hc', .refl k'⟩

theorem spares_wake (s : Session) (c : Nat) (o : Owner → Prop) : s.Spares o (s.wake c) := by
  unfold wake
  split
  · have hmarked : s.Spares o (s.modifyConsumer c fun k => { k with scheduled := true }) :=
      s.spares_modifyConsumer c fun _ _ => .inr ⟨rfl, rfl, rfl, rfl⟩
    exact hmarked.trans (spares_agenda _ _ o)
  · exact .refl o s

theorem spares_wakeReaders (s : Session) (g : Nat) (o : Owner → Prop) :
    s.Spares o (s.wakeReaders g) := by
  unfold wakeReaders
  split
  · exact .foldl (fun s c _ => s.spares_wake c o) s
  · exact .refl o s

theorem spares_removeAll (owned : List (Nat × Consumer)) (s : Session)
    (h : ∀ p ∈ owned, o p.2.owner ∨ s.Done p.2.owner)
    (hs : ∀ p ∈ owned, ∀ k : Consumer, s.consumers[p.1]? = some k → k.owner = p.2.owner) :
    s.Spares o (s.removeAll owned) := by
  induction owned generalizing s with
  | nil => exact .refl o s
  | cons p owned ih =>
    have h1 : s.Spares o (s.removeConsumer p.1) := by
      refine s.spares_removeConsumer p.1 fun k hk => ?_
      rw [hs p List.mem_cons_self k hk]
      exact h p List.mem_cons_self
    refine h1.trans (ih _ (fun p' hp' => ?_) (fun p' hp' k hk => ?_))
    · exact (h p' (List.mem_cons_of_mem _ hp')).imp_right h1.done
    · rw [consumers_removeConsumer] at hk
      split at hk
      · cases hk
      · exact hs p' (List.mem_cons_of_mem _ hp') k hk

/-- The consumers of one owner are given up. -/
theorem spares_removeOwned (s : Session) (x : Owner) (h : o x ∨ s.Done x) :
    s.Spares o (s.removeAll (s.ownedBy x)) := by
  refine spares_removeAll _ s (fun p hp => ?_) (fun p hp k hk => ?_)
  · rw [(mem_ownedBy.1 hp).2]
    exact h
  · cases hk.symm.trans (mem_ownedBy.1 hp).1
    rfl

theorem done_finish {gen : Generator} (hgen : s.generators[g]? = some gen) :
    (s.finish g).Done (.generator g) := by
  refine ⟨{ gen with complete := true, machine := none, generating := [], ready := false }, ?_, rfl⟩
  rw [finish, generators_modifyGenerator, if_pos rfl, hgen]
  rfl

/-- What comes after a generator is complete spares all but its own consumers. -/
theorem spares_finish (event : Triple → Nat → Event) {gen : Generator}
    (hgen : s.generators[g]? = some gen) (hinc : gen.complete = false) (o : Owner → Prop) :
    (s.finish g).Spares o (s.complete event g) := by
  rw [complete_eq event hgen hinc]
  have h1 := (s.finish g).spares_note (event gen.goal gen.results.size) o
  have h2 := spares_removeOwned (o := o) ((s.finish g).note (event gen.goal gen.results.size))
    (.generator g) (.inr (done_finish hgen))
  exact (h1.trans h2).trans (spares_wakeReaders _ g o)

theorem done_complete (event : Triple → Nat → Event) {gen : Generator}
    (hgen : s.generators[g]? = some gen) : (s.complete event g).Done (.generator g) := by
  cases hinc : gen.complete with
  | false => exact (spares_finish event hgen hinc fun _ => False).done (done_finish hgen)
  | true =>
    unfold complete
    simp only [hgen, hinc, if_true]
    exact ⟨gen, hgen, hinc⟩

/-- A generator that is completed loses its own consumers and nothing else. -/
theorem spares_complete (event : Triple → Nat → Event) (s : Session) (g : Nat)
    (o : Owner → Prop) : s.Spares o (s.complete event g) := by
  rcases s.complete_cases event g with e | ⟨gen, hgen, hinc⟩
  · rw [e]
    exact .refl o s
  · have hfinish : s.Spares o (s.finish g) := s.spares_modifyGenerator g fun gen _ =>
      ⟨rfl, List.prefix_rfl, fun _ => rfl, fun _ => ⟨rfl, .inl rfl⟩⟩
    exact hfinish.trans (spares_finish event hgen hinc o)

theorem spares_completeAll (event : Triple → Nat → Event) (gs : List Nat) (s : Session)
    (o : Owner → Prop) : s.Spares o (gs.foldl (complete event) s) :=
  .foldl (fun s g _ => s.spares_complete event g o) s

theorem spares_checkCompletion (s : Session) (roots : List Nat) (o : Owner → Prop) :
    s.Spares o (s.checkCompletion roots) :=
  spares_completeAll _ _ s o

theorem spares_nextId (s : Session) {n : Nat} (hn : s.nextId ≤ n) (o : Owner → Prop) :
    s.Spares o { s with nextId := n } := by
  refine ⟨hn, fun {x} hd => ?_, fun hg => ⟨_, hg, .refl _ _⟩, fun hc _ => .inr ⟨_, hc, .refl _⟩,
    fun hq _ => hq, fun hc _ => ⟨_, hc, .refl _⟩⟩
  cases x with
  | generator g => exact hd
  | query q => exact ⟨Nat.lt_of_lt_of_le hd.1 hn, hd.2⟩

theorem Wired.spares_withGenerator {X D : Nat → Prop} (h : s.Wired X D) (key : Triple)
    (m : Machine) (o : Owner → Prop) : s.Spares o (s.withGenerator key m) := by
  have find : ∀ {g : Nat} {gen : Generator}, s.generators[g]? = some gen →
      (s.withGenerator key m).generators[g]? = some gen := by
    intro g gen hg
    rw [generators_withGenerator, if_neg (Nat.ne_of_gt (h.generator_lt hg)), hg]
  refine ⟨Nat.le_succ _, fun {x} hd => ?_, fun hg => ⟨_, find hg, .refl _ _⟩,
    fun hc _ => .inr ⟨_, hc, .refl _⟩, fun hq _ => hq, fun hc _ => ⟨_, hc, .refl _⟩⟩
  cases x with
  | generator g =>
    obtain ⟨gen, hg, hc⟩ := hd
    exact ⟨gen, find hg, hc⟩
  | query q => exact ⟨Nat.lt_succ_of_lt hd.1, hd.2⟩

theorem Wired.spares_generatorFor {X D : Nat → Prop} (h : s.Wired X D) {w : World} {value : Triple}
    {x : Except Failure Nat} (hg : s.generatorFor w value = (x, s')) (o : Owner → Prop) :
    s.Spares o s' := by
  rcases generatorFor_cases hg with ⟨g, gen, -, -, rfl⟩ | ⟨-, e, -, rfl⟩ | ⟨m, -, -, -, rfl⟩
  · exact .refl o _
  · exact s.spares_nextId (Nat.le_succ _) o
  · exact h.spares_withGenerator _ m o

theorem Wired.spares_addConsumer {X D : Nat → Prop} (h : s.Wired X D) (g : Nat) {owner : Owner}
    (ho : o owner) : s.Spares o (s.addConsumer g owner).2 := by
  have find : ∀ {g' : Nat} {gen : Generator}, s.generators[g']? = some gen →
      ∃ gen' : Generator, (s.addConsumer g owner).2.generators[g']? = some gen' ∧
        gen.Follows (o (.generator g')) gen' := by
    intro g' gen hg'
    rw [generators_addConsumer]
    split
    · next e =>
      subst e
      rw [hg']
      exact ⟨_, rfl, rfl, List.prefix_rfl, id, fun _ => ⟨rfl, .inr ⟨rfl, rfl⟩⟩⟩
    · exact ⟨gen, hg', .refl _ _⟩
  refine ⟨Nat.le_succ _, fun {x} hd => ?_, find, fun {c k} hc _ => .inr ⟨k, ?_, .refl k⟩,
    fun hq _ => hq, fun {c k'} hc hno => ?_⟩
  · cases x with
    | generator g =>
      obtain ⟨gen, hg, hc⟩ := hd
      obtain ⟨gen', hg', h1⟩ := find hg
      exact ⟨gen', hg', h1.complete hc⟩
    | query q => exact ⟨Nat.lt_succ_of_lt hd.1, hd.2⟩
  · rw [consumers_addConsumer, if_neg (Nat.ne_of_gt (h.consumer_lt hc)), hc]
  · rw [consumers_addConsumer] at hc
    split at hc
    · cases hc
      exact absurd ho hno
    · exact ⟨k', hc, .refl k'⟩

theorem spares_read (s : Session) (c : Nat)
    (hc : ∀ k : Consumer, s.consumers[c]? = some k → o k.owner) : s.Spares o (s.read c).2 := by
  unfold read
  split
  · exact .refl o s
  · split
    · exact .refl o s
    · split
      · exact s.spares_modifyConsumer c fun k hk => .inl ⟨rfl, hc k hk⟩
      · exact .refl o s

theorem queries_block_isSome (s : Session) (owner : Owner) (c q : Nat) :
    ((s.block owner c).queries[q]?).isSome = (s.queries[q]?).isSome := by
  cases owner with
  | generator z => rfl
  | query q' => exact isSome_modify _ _ _ _

theorem spares_block (s : Session) (owner : Owner) (c : Nat)
    (hc : ∀ k : Consumer, s.consumers[c]? = some k → o k.owner) : s.Spares o (s.block owner c) := by
  have h1 := s.spares_modifyConsumer (o := o) c (f := fun k => { k with suspended := true })
    fun k hk => .inl ⟨rfl, hc k hk⟩
  have hqueries := s.queries_block_isSome owner c
  cases owner with
  | generator z =>
    exact h1.trans (spares_modifyGenerator _ z fun gen _ =>
      ⟨rfl, List.prefix_rfl, id, fun _ => ⟨rfl, .inr ⟨rfl, rfl⟩⟩⟩)
  | query q => exact h1.trans (.of_generators rfl rfl hqueries fun hg => ⟨_, hg, .refl _ _⟩)

theorem spares_released (s : Session) (resume : Option Nat)
    (hc : ∀ c ∈ resume, ∀ k : Consumer, s.consumers[c]? = some k → o k.owner) :
    s.Spares o (s.released resume) := by
  cases resume with
  | none => exact .refl o s
  | some c => exact s.spares_modifyConsumer c fun k hk => .inl ⟨rfl, hc c rfl k hk⟩

theorem spares_takeUp (s : Session) {task : Task} {x : Option (Nat × Option Nat)}
    (h : s.takeUp task = (x, s')) (o : Owner → Prop) : s.Spares o s' := by
  rcases takeUp_cases h with ⟨g, -, rfl, -⟩ | ⟨c, -, rfl, -⟩
  · exact .refl o _
  · exact s.spares_modifyConsumer c fun _ _ => .inr ⟨rfl, rfl, rfl, rfl⟩

theorem spares_prepared (s : Session) (g : Nat) (resume : Option Nat) (ho : o (.generator g)) :
    s.Spares o (s.prepared g resume) := by
  cases resume with
  | none =>
    exact s.spares_modifyGenerator g fun gen _ =>
      ⟨rfl, List.prefix_rfl, id, fun hno => absurd ho hno⟩
  | some c => exact s.spares_unblock (.generator g) c o

end Session

/-! ## Machines and their consumers -/

/-- The consumer whose results are tried at a choice point. -/
def Choice.consumer? (x : Choice) : Option Nat :=
  match x.alternatives with
  | .results c _ => some c
  | _ => none

/-- The consumers that read for the choice points of the stack. -/
def Machine.readers (m : Machine) : List Nat := m.stack.filterMap Choice.consumer?

/-- The consumers of a machine's choice points are there, and there are no others of its owner.
They wait if the choice point was put aside, and only then. -/
structure Machine.Tied (s : Session) (m : Machine) : Prop where
  nodup : m.readers.Nodup
  reads : ∀ c ∈ m.readers, ∃ k : Consumer, s.consumers[c]? = some k ∧ k.owner = m.owner ∧
    k.suspended = false
  waits : ∀ {c : Nat} {x : Choice}, m.suspended[c]? = some x → x.consumer? = some c ∧
    ∃ k : Consumer, s.consumers[c]? = some k ∧ k.owner = m.owner ∧ k.suspended = true
  known : ∀ {c : Nat} {k : Consumer}, s.consumers[c]? = some k → k.owner = m.owner →
    c ∈ m.readers ∨ ∃ x, m.suspended[c]? = some x

/-- No table has been called. -/
def Machine.Unused (m : Machine) : Prop := m.readers = [] ∧ m.suspended = ∅

section

variable {P : Program} {st : Settings} {o : Owner → Prop} {s s' : Session} {m m' : Machine}
  {X D : Nat → Prop} {control : Control} {p : Progress}

/-- The machines of others stay tied until their owner is done. -/
theorem Machine.Tied.spares (h : m.Tied s) (hs : s.Spares o s') (ho : ¬ o m.owner)
    (hd : ¬ s'.Done m.owner) : m.Tied s' := by
  have keep : ∀ {c : Nat} {k : Consumer}, s.consumers[c]? = some k → k.owner = m.owner →
      ∃ k' : Consumer, s'.consumers[c]? = some k' ∧ k'.owner = m.owner ∧
        k'.suspended = k.suspended := by
    intro c k hc hk
    rcases hs.consumer hc (hk ▸ ho) with hdone | ⟨k', hc', hsame⟩
    · exact absurd (hk ▸ hdone) hd
    · exact ⟨k', hc', hsame.owner.trans hk, hsame.suspended⟩
  refine ⟨h.nodup, fun c hc => ?_, fun hx => ?_, fun hc hk => ?_⟩
  · obtain ⟨k, hk, ho, hsusp⟩ := h.reads c hc
    obtain ⟨k', hk', ho', e⟩ := keep hk ho
    exact ⟨k', hk', ho', e.trans hsusp⟩
  · obtain ⟨hx', k, hk, ho, hsusp⟩ := h.waits hx
    obtain ⟨k', hk', ho', e⟩ := keep hk ho
    exact ⟨hx', k', hk', ho', e.trans hsusp⟩
  · obtain ⟨k, hk', hsame⟩ := hs.old hc (hk ▸ ho)
    exact h.known hk' (hsame.owner.symm.trans hk)

theorem Machine.Tied.of_same (h : m.Tied s) (hreaders : m'.readers = m.readers)
    (hsusp : m'.suspended = m.suspended) (howner : m'.owner = m.owner)
    (hcons : s'.consumers = s.consumers) : m'.Tied s' := by
  refine ⟨hreaders ▸ h.nodup, fun c hc => ?_, fun {c x} hx => ?_, fun hc hk => ?_⟩
  · rw [hcons, howner]
    exact h.reads c (hreaders ▸ hc)
  · rw [hcons, howner]
    exact h.waits (by rw [← hsusp]; exact hx)
  · rw [hreaders, hsusp]
    exact h.known (hcons ▸ hc) (howner ▸ hk)

theorem Machine.Unused.tied (h : m.Unused)
    (hnone : ∀ {c : Nat} {k : Consumer}, s.consumers[c]? = some k → k.owner ≠ m.owner) :
    m.Tied s := by
  refine ⟨h.1 ▸ List.nodup_nil, fun c hc => ?_, fun hx => ?_, fun hc hk => absurd hk (hnone hc)⟩
  · rw [h.1] at hc
    cases hc
  · rw [h.2] at hx
    cases hx.symm.trans Std.TreeMap.getElem?_emptyc

/-- A new machine has no consumers. -/
theorem start_unused {goal : Triple} {owner : Owner}
    (h : Machine.start (P.world st) goal owner = .ok m) : m.Unused ∧ m.owner = owner := by
  obtain ⟨m0, h0, rfl⟩ := start_eq h
  obtain ⟨-, -, hstack, hsusp, -, -, howner, -⟩ := blank_eq h0
  have hm : ∀ cls ground, (m0.pushedClauses .root [.proceed] cls ground).readers = [] ∧
      (m0.pushedClauses .root [.proceed] cls ground).suspended = ∅ ∧
      (m0.pushedClauses .root [.proceed] cls ground).owner = owner := by
    intro cls ground
    unfold Machine.pushedClauses Machine.readers
    split
    · exact ⟨by rw [hstack]; rfl, hsusp, howner⟩
    · exact ⟨by rw [Machine.stack_pushed, hstack]; rfl, hsusp, howner⟩
  obtain ⟨h1, h2, h3⟩ := hm (P.rules.codeFor goal.standard) goal.isGround
  exact ⟨⟨h1, h2⟩, h3⟩

/-! ## What a turn does to consumers -/

/-- What a turn changes besides registers, bindings and the journal. -/
inductive Effect (P : Program) (st : Settings) (m : Machine) (s : Session) (m' : Machine)
    (s' : Session) : Prop
  | quiet : m'.readers = m.readers → m'.suspended = m.suspended → s.Noted s' → Effect P st m s m' s'
  /-- A table is called. -/
  | table {value : Triple} {g : Nat} {s1 : Session} :
    s.generatorFor (P.world st) value = (.ok g, s1) → m'.readers = s1.nextId :: m.readers →
    m'.suspended = m.suspended → s' = (s1.addConsumer g m.owner).2 → Effect P st m s m' s'
  | read {c : Nat} {t : Triple} : c ∈ m.readers → m'.readers = m.readers →
    m'.suspended = m.suspended → s.read c = (.result t, s') → Effect P st m s m' s'
  /-- A table has no more results. -/
  | exhausted {c : Nat} : m.readers = c :: m'.readers → m'.suspended = m.suspended →
    (s.read c).1 = .exhausted → (s.removeConsumer c).Noted s' → Effect P st m s m' s'
  /-- A consumer has to wait. -/
  | park {c : Nat} {x : Choice} : m.readers = c :: m'.readers → x.consumer? = some c →
    m'.suspended = m.suspended.insert c x → (s.read c).1 = .pending →
    (s.block m.owner c).Noted s' → Effect P st m s m' s'

theorem readers_keep {x : Choice} {a : Alternatives} (rest : List Choice)
    (ha : x.alternatives.Drops a) :
    ({ x with alternatives := a } :: rest).filterMap Choice.consumer? =
      (x :: rest).filterMap Choice.consumer? := by
  obtain ⟨id, env, code, envs, bindings, a0⟩ := x
  cases ha <;> rfl

/-- At a choice point without a consumer nothing is read. -/
theorem readers_spent {x : Choice} {committed : Std.TreeSet Nat} (rest : List Choice)
    (hx : x.Spent committed) :
    rest.filterMap Choice.consumer? = (x :: rest).filterMap Choice.consumer? := by
  unfold Choice.Spent at hx
  have : x.consumer? = none := by
    unfold Choice.consumer?
    split at hx <;> rename_i h <;> first | exact hx.elim | rw [h]
  rw [List.filterMap_cons_none this]

theorem readers_results {x : Choice} {c : Nat} {goal : Triple} (rest : List Choice)
    (hx : x.alternatives = .results c goal) :
    (x :: rest).filterMap Choice.consumer? = c :: rest.filterMap Choice.consumer? := by
  have : x.consumer? = some c := by
    unfold Choice.consumer?
    rw [hx]
  rw [List.filterMap_cons_some this]

theorem Calls.effect {w : World} {env : Env} {code : List Instruction} {call : Call}
    (hw : w = P.world st) (h : Calls P w env code call m s p m' s')
    (hp : ∀ e, p ≠ .done (.error e)) : m'.owner = m.owner ∧ Effect P st m s m' s' := by
  subst hw
  have clauses : ∀ cls ground, (m.pushedClauses env code cls ground).readers = m.readers ∧
      (m.pushedClauses env code cls ground).suspended = m.suspended ∧
      (m.pushedClauses env code cls ground).owner = m.owner := by
    intro cls ground
    unfold Machine.pushedClauses
    split
    · exact ⟨rfl, rfl, rfl⟩
    · exact ⟨rfl, rfl, rfl⟩
  cases h with
  | @search n value ground hc hground hv =>
    obtain ⟨h1, h2, h3⟩ :=
      clauses (call.clauses P.rules (m.called.mapTerms m.bindings.deref)) ground
    exact ⟨h3, .quiet h1 h2 (.refl s)⟩
  | full hc hm => exact absurd rfl (hp _)
  | @table n value g s1 hc hv hg => exact ⟨rfl, .table hg rfl rfl rfl⟩
  | tableFull hg => exact absurd rfl (hp _)
  | tableRefused hg => exact absurd rfl (hp _)

theorem Turn.effect (h : Turn P st control m s p m' s') (hp : ∀ e, p ≠ .done (.error e)) :
    m'.owner = m.owner ∧ Effect P st m s m' s' := by
  have kept : ∀ {x : Choice} {rest : List Choice} {a : Alternatives}, m.stack = x :: rest →
      x.alternatives.Drops a → m'.stack = { x with alternatives := a } :: rest →
      m'.readers = m.readers := by
    intro x rest a hstack ha hstack'
    unfold Machine.readers
    rw [hstack', hstack]
    exact readers_keep rest ha
  cases h with
  | @leave i cl vars caller back commit _ _ _ hnoted =>
    cases commit <;> exact ⟨rfl, .quiet rfl rfl hnoted⟩
  | answer ht hnoted => exact ⟨rfl, .quiet rfl rfl hnoted⟩
  | call hg hcalls =>
    obtain ⟨h1, h2⟩ := hcalls.effect rfl hp
    refine ⟨h1, ?_⟩
    cases h2 with
    | quiet h3 h4 h5 => exact .quiet h3 h4 h5
    | table h3 h4 h5 h6 => exact .table h3 h4 h5 h6
    | read h3 h4 h5 h6 => exact .read h3 h4 h5 h6
    | exhausted h3 h4 h5 h6 => exact .exhausted h3 h4 h5 h6
    | park h3 h4 h5 h6 h7 => exact .park h3 h4 h5 h6 h7
  | builtinFails hg hf hnoted => exact ⟨rfl, .quiet rfl rfl hnoted⟩
  | builtinStops hg => exact absurd rfl (hp _)
  | builtin hg hf => exact ⟨rfl, .quiet rfl rfl (.refl s)⟩
  | empty hnil => exact ⟨rfl, .quiet rfl rfl (.refl s)⟩
  | @spent x rest _ _ _ hstack hspent hnoted =>
    refine ⟨rfl, .quiet ?_ rfl hnoted⟩
    unfold Machine.readers
    rw [hstack]
    exact readers_spent rest hspent
  | full hstack halt => exact absurd rfl (hp _)
  | @refuse x rest cl cls args ground _ _ _ n g hstack halt henter hargs htemps hnoted =>
    exact ⟨rfl, .quiet (kept hstack (halt ▸ .clause cl cls args ground) rfl) rfl hnoted⟩
  | @enter x rest cl cls args ground _ _ _ n g θ code hstack halt henter hargs htemps hrun hnoted =>
    exact ⟨rfl, .quiet (kept hstack (halt ▸ .clause cl cls args ground) rfl) rfl hnoted⟩
  | @missFact x rest goal fact facts _ _ n hstack halt hu =>
    exact ⟨rfl, .quiet (kept hstack (halt ▸ .fact goal fact facts) rfl) rfl (.refl s)⟩
  | @fact x rest goal fact facts _ _ _ n b hstack halt hu hnoted =>
    exact ⟨rfl, .quiet (kept hstack (halt ▸ .fact goal fact facts) rfl) rfl hnoted⟩
  | @missAnswer x rest goal fact facts _ _ n hstack halt hu =>
    exact ⟨rfl, .quiet (kept hstack (halt ▸ .answer goal fact facts) rfl) rfl (.refl s)⟩
  | @storedAnswer x rest goal fact facts _ _ _ n b hstack halt hu hnoted =>
    exact ⟨rfl, .quiet (kept hstack (halt ▸ .answer goal fact facts) rfl) rfl hnoted⟩
  | @missResult x rest c goal t _ _ _ n hstack halt hread hu =>
    refine ⟨rfl, .read ?_ (kept hstack (halt ▸ .result c goal) rfl) rfl hread⟩
    unfold Machine.readers
    rw [hstack, readers_results rest halt]
    exact List.mem_cons_self
  | @result x rest c goal t _ _ _ n b hstack halt hread hu =>
    refine ⟨rfl, .read ?_ (kept hstack (halt ▸ .result c goal) rfl) rfl hread⟩
    unfold Machine.readers
    rw [hstack, readers_results rest halt]
    exact List.mem_cons_self
  | @exhausted x rest c goal _ _ _ hstack halt hread hnoted =>
    refine ⟨rfl, .exhausted ?_ rfl hread hnoted⟩
    unfold Machine.readers
    rw [hstack, readers_results rest halt]
    rfl
  | @park x rest c goal _ _ _ hstack halt hread hnoted =>
    refine ⟨rfl, .park (x := x) ?_ ?_ rfl hread hnoted⟩
    · unfold Machine.readers
      rw [hstack, readers_results rest halt]
      rfl
    · unfold Choice.consumer?
      rw [halt]

/-! ## What a turn keeps -/

end

/-- The generators differ only in the lists of their consumers. -/
structure Generator.Twin (gen gen' : Generator) : Prop where
  goal : gen'.goal = gen.goal
  results : gen'.results = gen.results
  machine : gen'.machine = gen.machine
  ready : gen'.ready = gen.ready
  complete : gen'.complete = gen.complete

theorem Generator.Twin.refl (gen : Generator) : gen.Twin gen := ⟨rfl, rfl, rfl, rfl, rfl⟩

theorem Generator.Twin.trans {gen gen' gen'' : Generator} (h : gen.Twin gen')
    (h' : gen'.Twin gen'') : gen.Twin gen'' :=
  ⟨h'.goal.trans h.goal, h'.results.trans h.results, h'.machine.trans h.machine,
    h'.ready.trans h.ready, h'.complete.trans h.complete⟩

/-- The generator is new, and its machine has not run. -/
def Generator.New (P : Program) (st : Settings) (g : Nat) (gen : Generator) : Prop :=
  ∃ m, Machine.start (P.world st) gen.goal (.generator g) = .ok m ∧
    gen = { goal := gen.goal, machine := some m, consumers := gen.consumers }

/-- Every generator of `s'` is one of `s` or new. -/
def Session.Extends (P : Program) (st : Settings) (s s' : Session) : Prop :=
  ∀ g : Nat, match s.generators[g]? with
    | some gen => ∃ gen' : Generator, s'.generators[g]? = some gen' ∧ gen.Twin gen'
    | none => ∀ gen' : Generator, s'.generators[g]? = some gen' → gen'.New P st g

section

variable {P : Program} {st : Settings} {o : Owner → Prop} {s s' s'' : Session} {m m' : Machine}
  {X D : Nat → Prop} {control : Control} {p : Progress} {c g : Nat}

theorem Session.Extends.find (h : s.Extends P st s') {gen : Generator}
    (hg : s.generators[g]? = some gen) :
    ∃ gen' : Generator, s'.generators[g]? = some gen' ∧ gen.Twin gen' := by
  have := h g
  rw [hg] at this
  exact this

theorem Session.Extends.look (h : s.Extends P st s') {gen' : Generator}
    (hg : s'.generators[g]? = some gen') :
    (∃ gen : Generator, s.generators[g]? = some gen ∧ gen.Twin gen') ∨
      s.generators[g]? = none ∧ gen'.New P st g := by
  have := h g
  cases hs : s.generators[g]? with
  | some gen =>
    rw [hs] at this
    obtain ⟨gen1, h1, htwin⟩ := this
    cases hg.symm.trans h1
    exact .inl ⟨gen, rfl, htwin⟩
  | none =>
    rw [hs] at this
    exact .inr ⟨rfl, this gen' hg⟩

theorem Session.Extends.of_twins (hfind : ∀ {g : Nat} {gen : Generator},
      s.generators[g]? = some gen → ∃ gen' : Generator, s'.generators[g]? = some gen' ∧ gen.Twin gen')
    (hlook : ∀ {g : Nat} {gen' : Generator}, s'.generators[g]? = some gen' →
      (s.generators[g]?).isSome = true) : s.Extends P st s' := by
  intro g
  cases hs : s.generators[g]? with
  | some gen => exact hfind hs
  | none =>
    intro gen' hg
    have := hlook hg
    rw [hs] at this
    cases this

theorem Session.Extends.of_eq (h : s'.generators = s.generators) : s.Extends P st s' :=
  .of_twins (fun hg => ⟨_, by rw [h]; exact hg, .refl _⟩)
    (fun hg => by rw [h] at hg; rw [hg]; rfl)

theorem Session.Noted.extends (h : s.Noted s') : s.Extends P st s' := by
  obtain ⟨j, p, rfl⟩ := h
  exact .of_eq rfl

theorem Session.Extends.noted (h : s.Extends P st s') (hs : s'.Noted s'') :
    s.Extends P st s'' := by
  obtain ⟨j, p, rfl⟩ := hs
  exact h

theorem Session.extends_modifyGenerator (s : Session) (g : Nat) {f : Generator → Generator}
    (hf : ∀ gen : Generator, gen.Twin (f gen)) : s.Extends P st (s.modifyGenerator g f) := by
  refine .of_twins (fun hg => ?_) (fun {g' gen'} hg => ?_)
  · obtain ⟨gen', h1, ⟨-, rfl⟩ | rfl⟩ := s.find_modifyGenerator g f hg
    · exact ⟨_, h1, hf _⟩
    · exact ⟨_, h1, .refl _⟩
  · rw [Session.generators_modifyGenerator] at hg
    split at hg
    · next e =>
      subst e
      obtain ⟨gen, hgen, -⟩ := Option.map_eq_some_iff.1 hg
      rw [hgen]
      rfl
    · rw [hg]
      rfl

theorem Session.extends_removeConsumer (s : Session) (c : Nat) :
    s.Extends P st (s.removeConsumer c) := by
  refine .of_twins (fun hg => ?_) (fun hg => ?_)
  · obtain ⟨gen', h1, h⟩ := s.find_removeConsumer c hg
    exact ⟨gen', h1, h.goal, h.results, h.machine, h.ready, h.complete⟩
  · obtain ⟨gen, hgen, -⟩ := s.look_removeConsumer c hg
    rw [hgen]
    rfl

theorem Session.extends_read (s : Session) (c : Nat) : s.Extends P st (s.read c).2 := by
  refine .of_eq ?_
  unfold Session.read
  split
  · rfl
  · split
    · rfl
    · split <;> rfl

theorem Session.extends_block (s : Session) (owner : Owner) (c : Nat) :
    s.Extends P st (s.block owner c) := by
  cases owner with
  | query q => exact .of_eq rfl
  | generator z =>
    exact Session.extends_modifyGenerator (s.modifyConsumer c _) z
      fun _ => ⟨rfl, rfl, rfl, rfl, rfl⟩

/-- The generator that is found for a goal is there. -/
theorem Session.Wired.generatorFor (h : s.Wired X D) {value : Triple}
    (hg : s.generatorFor (P.world st) value = (.ok g, s')) :
    s'.Wired X D ∧ s.Extends P st s' ∧ (s'.generators[g]?).isSome = true ∧
      s'.consumers = s.consumers ∧ s'.queries = s.queries := by
  rcases generatorFor_cases hg with ⟨g', gen, hof, e, rfl⟩ | ⟨-, e, he, -⟩ | ⟨m, -, hm, e, rfl⟩
  · cases e
    refine ⟨h, .of_eq rfl, ?_, rfl, rfl⟩
    rw [(of_generatorOf? hof).2]
    rfl
  · cases he
  · cases e
    refine ⟨h.withGenerator _ m, fun g => ?_, ?_, rfl, rfl⟩
    · cases hs : s.generators[g]? with
      | some gen =>
        refine ⟨gen, ?_, .refl gen⟩
        rw [generators_withGenerator, if_neg (Nat.ne_of_gt (h.generator_lt hs)), hs]
      | none =>
        intro gen' hg'
        rw [generators_withGenerator] at hg'
        split at hg'
        · next e =>
          subst e
          cases hg'
          exact ⟨m, hm, rfl⟩
        · rw [hs] at hg'
          cases hg'
    · rw [generators_withGenerator, if_pos rfl]
      rfl

theorem Session.Extends.addConsumer (h : s.Extends P st s') (g : Nat) (owner : Owner) :
    s.Extends P st (s'.addConsumer g owner).2 := by
  have twin : ∀ {g' : Nat} {gen : Generator}, s'.generators[g']? = some gen →
      ∃ gen' : Generator, (s'.addConsumer g owner).2.generators[g']? = some gen' ∧
        gen.Twin gen' := by
    intro g' gen hg'
    rw [generators_addConsumer]
    split
    · next e =>
      subst e
      rw [hg']
      exact ⟨_, rfl, rfl, rfl, rfl, rfl, rfl⟩
    · exact ⟨gen, hg', .refl gen⟩
  intro g'
  cases hs : s.generators[g']? with
  | some gen =>
    obtain ⟨gen1, h1, htwin1⟩ := h.find hs
    obtain ⟨gen2, h2, htwin2⟩ := twin h1
    exact ⟨gen2, h2, htwin1.trans htwin2⟩
  | none =>
    intro gen' hg'
    rw [generators_addConsumer] at hg'
    have hnew := h g'
    rw [hs] at hnew
    split at hg'
    · next e =>
      subst e
      obtain ⟨gen, hgen, rfl⟩ := Option.map_eq_some_iff.1 hg'
      obtain ⟨m, hm, e⟩ := hnew gen hgen
      refine ⟨m, hm, ?_⟩
      rw [e]
    · exact hnew gen' hg'

/-- What there is to read is all read, and there may be more later. -/
theorem Session.of_read_pending (h : (s.read c).1 = .pending) :
    ∃ (k : Consumer) (gen : Generator), s.consumers[c]? = some k ∧
      s.generators[k.generator]? = some gen ∧ gen.results.size ≤ k.read ∧ gen.complete = false := by
  unfold Session.read at h
  split at h
  · cases h
  · next k hk =>
    split at h
    · cases h
    · next gen hgen =>
      split at h
      · cases h
      · next hnone =>
        refine ⟨k, gen, hk, hgen, ?_, ?_⟩
        · exact Array.getElem?_eq_none_iff.1 hnone
        · cases hc : gen.complete with
          | false => rfl
          | true =>
            rw [hc] at h
            cases h

theorem Effect.wired (h : Effect P st m s m' s') (hs : s.Wired X D) (ht : m.Tied s)
    (hw : s.Works m.owner) : s'.Wired X D := by
  cases h with
  | quiet _ _ hnoted => exact hs.noted hnoted
  | @table value g s1 hg _ _ e =>
    obtain ⟨h1, h2, h3, h4, h5⟩ := hs.generatorFor hg
    obtain ⟨gen, hgen⟩ := Option.isSome_iff_exists.1 h3
    rw [e]
    refine h1.addConsumer hgen ?_
    cases ho : m.owner with
    | generator z =>
      rw [ho] at hw
      obtain ⟨gen1, hgen1, hinc⟩ := hw
      obtain ⟨gen2, hgen2, htwin⟩ := h2.find hgen1
      exact ⟨gen2, hgen2, htwin.complete.trans hinc⟩
    | query q =>
      rw [ho] at hw
      unfold Session.Works
      rw [h5]
      exact hw
  | @read c t hc _ _ hread =>
    have h1 := hs.read (c := c) fun k hk => by
      obtain ⟨k', hk', -, hsusp⟩ := ht.reads c hc
      cases hk.symm.trans hk'
      exact hsusp
    rw [hread] at h1
    exact h1
  | exhausted _ _ _ hnoted => exact (hs.removeConsumer _).noted hnoted
  | @park c x hc _ _ hread hnoted =>
    refine Session.Wired.noted ?_ hnoted
    obtain ⟨k, gen, hk, hgen, hall, hinc⟩ := Session.of_read_pending hread
    obtain ⟨k', hk', ho, -⟩ := ht.reads c (by rw [hc]; exact List.mem_cons_self)
    cases hk.symm.trans hk'
    rw [← ho]
    refine hs.block hk fun gen' hgen' => ?_
    cases hgen.symm.trans hgen'
    exact ⟨hall, hinc⟩

theorem Effect.extends (h : Effect P st m s m' s') (hs : s.Wired X D) : s.Extends P st s' := by
  cases h with
  | quiet _ _ hnoted => exact hnoted.extends
  | table hg _ _ e =>
    rw [e]
    exact (hs.generatorFor hg).2.1.addConsumer _ _
  | @read c t _ _ _ hread =>
    have hextends : s.Extends P st (s.read c).2 := s.extends_read c
    rw [hread] at hextends
    exact hextends
  | exhausted _ _ _ hnoted => exact (s.extends_removeConsumer _).noted hnoted
  | park _ _ _ _ hnoted => exact (s.extends_block _ _).noted hnoted

theorem Effect.spares (h : Effect P st m s m' s') (hs : s.Wired X D) (ht : m.Tied s)
    (ho : o m.owner) : s.Spares o s' := by
  -- the consumers of the machine itself are those that it does not spare
  have own : ∀ c ∈ m.readers, ∀ k : Consumer, s.consumers[c]? = some k → o k.owner := by
    intro c hc k hk
    obtain ⟨k', hk', e, -⟩ := ht.reads c hc
    cases hk.symm.trans hk'
    rw [e]
    exact ho
  cases h with
  | quiet _ _ hnoted => exact hnoted.spares o
  | table hg _ _ e =>
    rw [e]
    exact (hs.spares_generatorFor hg o).trans ((hs.generatorFor hg).1.spares_addConsumer _ ho)
  | @read c t hc _ _ hread =>
    have := s.spares_read (o := o) c (own c hc)
    rw [hread] at this
    exact this
  | @exhausted c hc _ _ hnoted =>
    have hmem : c ∈ m.readers := by rw [hc]; exact List.mem_cons_self
    exact (s.spares_removeConsumer c fun k hk => .inl (own c hmem k hk)).trans (hnoted.spares o)
  | @park c x hc _ _ _ hnoted =>
    have hmem : c ∈ m.readers := by rw [hc]; exact List.mem_cons_self
    exact (s.spares_block m.owner c (own c hmem)).trans (hnoted.spares o)

theorem Effect.works (h : Effect P st m s m' s') (hs : s.Wired X D) {x : Owner} (hw : s.Works x) :
    s'.Works x := by
  cases x with
  | generator z =>
    obtain ⟨gen, hgen, hinc⟩ := hw
    obtain ⟨gen', hgen', htwin⟩ := (h.extends hs).find hgen
    exact ⟨gen', hgen', htwin.complete.trans hinc⟩
  | query q =>
    have hsome : (s.queries[q]?).isSome = true := Option.isSome_iff_exists.2 hw
    refine Option.isSome_iff_exists.1 ?_
    cases h with
    | quiet _ _ hnoted =>
      obtain ⟨j, p, rfl⟩ := hnoted
      exact hsome
    | table hg _ _ e =>
      rw [e]
      exact ((hs.generatorFor hg).2.2.2.2.symm ▸ hsome :)
    | @read c t _ _ _ hread =>
      obtain ⟨k, gen, -, -, -, rfl⟩ := Session.of_read_result hread
      exact hsome
    | exhausted _ _ _ hnoted =>
      obtain ⟨j, p, rfl⟩ := hnoted
      exact (s.queries_removeConsumer_isSome _ q).trans hsome
    | park _ _ _ _ hnoted =>
      obtain ⟨j, p, rfl⟩ := hnoted
      exact (s.queries_block_isSome _ _ q).trans hsome

theorem Effect.tied (h : Effect P st m s m' s') (howner : m'.owner = m.owner) (hs : s.Wired X D)
    (ht : m.Tied s) : m'.Tied s' := by
  -- a consumer of a choice point that is put aside is not one of the stack
  have apart : ∀ {c : Nat} {x : Choice}, m.suspended[c]? = some x → c ∉ m.readers := by
    intro c x hx hc
    obtain ⟨k, hk, -, h1⟩ := ht.reads c hc
    obtain ⟨-, k', hk', -, h2⟩ := ht.waits hx
    cases hk.symm.trans hk'
    rw [h1] at h2
    cases h2
  cases h with
  | quiet hreaders hsusp hnoted =>
    obtain ⟨j, p, rfl⟩ := hnoted
    exact ht.of_same hreaders hsusp howner rfl
  | @table value g s1 hg hreaders hsusp e =>
    obtain ⟨h1, -, -, hcons, -⟩ := hs.generatorFor hg
    have old : ∀ {c : Nat} {k : Consumer}, s.consumers[c]? = some k →
        s'.consumers[c]? = some k := by
      intro c k hk
      rw [← hcons] at hk
      rw [e, consumers_addConsumer, if_neg (Nat.ne_of_gt (h1.consumer_lt hk)), hk]
    refine ⟨?_, fun c hc => ?_, fun hx => ?_, fun {c k} hc ho => ?_⟩
    · rw [hreaders, List.nodup_cons]
      refine ⟨fun hc => ?_, ht.nodup⟩
      obtain ⟨k, hk, -⟩ := ht.reads _ hc
      rw [← hcons] at hk
      exact Nat.lt_irrefl _ (h1.consumer_lt hk)
    · rw [hreaders] at hc
      rw [howner]
      rcases List.mem_cons.1 hc with rfl | hc
      · refine ⟨{ generator := g, owner := m.owner }, ?_, rfl, rfl⟩
        rw [e, consumers_addConsumer, if_pos rfl]
      · obtain ⟨k, hk, hrest⟩ := ht.reads c hc
        exact ⟨k, old hk, hrest⟩
    · rw [hsusp] at hx
      rw [howner]
      obtain ⟨hx', k, hk, hrest⟩ := ht.waits hx
      exact ⟨hx', k, old hk, hrest⟩
    · rw [e, consumers_addConsumer] at hc
      rw [hreaders, hsusp]
      split at hc
      · next e => exact .inl (e ▸ List.mem_cons_self)
      · rw [hcons] at hc
        exact (ht.known hc (ho.trans howner)).imp_left (List.mem_cons_of_mem _)
  | @read c t hc hreaders hsusp hread =>
    obtain ⟨-, -, -, -, -, rfl⟩ := Session.of_read_result hread
    have old : ∀ {d : Nat} {k : Consumer}, s.consumers[d]? = some k → ∃ k' : Consumer,
        (s.modifyConsumer c fun k => { k with read := k.read + 1 }).consumers[d]? = some k' ∧
          k'.owner = k.owner ∧ k'.suspended = k.suspended := by
      intro d k hk
      rw [Session.consumers_modifyConsumer]
      split
      · next e =>
        subst e
        rw [hk]
        exact ⟨_, rfl, rfl, rfl⟩
      · exact ⟨k, hk, rfl, rfl⟩
    refine ⟨hreaders ▸ ht.nodup, fun d hd => ?_, fun hx => ?_, fun {d k'} hd ho => ?_⟩
    · obtain ⟨k, hk, h1, h2⟩ := ht.reads d (hreaders ▸ hd)
      obtain ⟨k', hk', e1, e2⟩ := old hk
      exact ⟨k', hk', (e1.trans h1).trans howner.symm, e2.trans h2⟩
    · rw [hsusp] at hx
      obtain ⟨hx', k, hk, h1, h2⟩ := ht.waits hx
      obtain ⟨k', hk', e1, e2⟩ := old hk
      exact ⟨hx', k', hk', (e1.trans h1).trans howner.symm, e2.trans h2⟩
    · rw [hreaders, hsusp]
      cases hk : s.consumers[d]? with
      | some k =>
        obtain ⟨k1, hk1, e1, -⟩ := old hk
        cases hd.symm.trans hk1
        exact ht.known hk (e1.symm.trans (ho.trans howner))
      | none =>
        rw [Session.consumers_modifyConsumer] at hd
        split at hd
        · next e => simp [e, hk] at hd
        · simp [hk] at hd
  | @exhausted c hc hsusp _ hnoted =>
    obtain ⟨j, p, rfl⟩ := hnoted
    have hnodup := ht.nodup
    rw [hc, List.nodup_cons] at hnodup
    refine ⟨hnodup.2, fun d hd => ?_, fun {d x} hx => ?_, fun {d k} hd ho => ?_⟩
    · obtain ⟨k, hk, hrest⟩ := ht.reads d (by rw [hc]; exact List.mem_cons_of_mem _ hd)
      have hne : c ≠ d := fun e => hnodup.1 (e ▸ hd)
      refine ⟨k, ?_, howner ▸ hrest⟩
      change (s.removeConsumer c).consumers[d]? = some k
      rw [Session.consumers_removeConsumer, if_neg hne, hk]
    · rw [hsusp] at hx
      obtain ⟨hx', k, hk, hrest⟩ := ht.waits hx
      have hne : c ≠ d := fun e => apart hx (by rw [hc, e]; exact List.mem_cons_self)
      refine ⟨hx', k, ?_, howner ▸ hrest⟩
      change (s.removeConsumer c).consumers[d]? = some k
      rw [Session.consumers_removeConsumer, if_neg hne, hk]
    · change (s.removeConsumer c).consumers[d]? = some k at hd
      rw [Session.consumers_removeConsumer] at hd
      split at hd
      · cases hd
      · next hne =>
        rw [hsusp]
        refine (ht.known hd (ho.trans howner)).imp_left fun hmem => ?_
        rw [hc] at hmem
        exact (List.mem_cons.1 hmem).resolve_left (Ne.symm hne)
  | @park c x hc hx hsusp _ hnoted =>
    obtain ⟨j, p, rfl⟩ := hnoted
    have hnodup := ht.nodup
    rw [hc, List.nodup_cons] at hnodup
    have hcons : ∀ d : Nat, (s.block m.owner c).consumers[d]? =
        (s.modifyConsumer c fun k => { k with suspended := true }).consumers[d]? := by
      intro d
      unfold Session.block
      cases m.owner <;> rfl
    refine ⟨hnodup.2, fun d hd => ?_, fun {d y} hy => ?_, fun {d k} hd ho => ?_⟩
    · obtain ⟨k, hk, hrest⟩ := ht.reads d (by rw [hc]; exact List.mem_cons_of_mem _ hd)
      have hne : c ≠ d := fun e => hnodup.1 (e ▸ hd)
      refine ⟨k, ?_, howner ▸ hrest⟩
      change (s.block m.owner c).consumers[d]? = some k
      rw [hcons, Session.consumers_modifyConsumer, if_neg hne, hk]
    · rw [hsusp, Std.TreeMap.getElem?_insert] at hy
      change _ ∧ ∃ k, (s.block m.owner c).consumers[d]? = some k ∧ _
      rw [hcons, Session.consumers_modifyConsumer]
      split at hy
      · next e =>
        rw [Std.LawfulEqCmp.compare_eq_iff_eq] at e
        subst e
        cases hy
        obtain ⟨k, hk, h1, -⟩ := ht.reads c (by rw [hc]; exact List.mem_cons_self)
        refine ⟨hx, { k with suspended := true }, ?_, h1.trans howner.symm, rfl⟩
        rw [if_pos rfl, hk]
        rfl
      · next e =>
        rw [Std.LawfulEqCmp.compare_eq_iff_eq] at e
        obtain ⟨hy', k, hk, hrest⟩ := ht.waits hy
        exact ⟨hy', k, by rw [if_neg e, hk], howner ▸ hrest⟩
    · rw [hsusp]
      by_cases e : c = d
      · exact .inr ⟨x, by rw [e, Std.TreeMap.getElem?_insert_self]⟩
      · change (s.block m.owner c).consumers[d]? = some k at hd
        rw [hcons, Session.consumers_modifyConsumer, if_neg e] at hd
        rw [Std.TreeMap.getElem?_insert, if_neg (by rwa [Std.LawfulEqCmp.compare_eq_iff_eq])]
        refine (ht.known hd (ho.trans howner)).imp_left fun hmem => ?_
        rw [hc] at hmem
        exact (List.mem_cons.1 hmem).resolve_left (Ne.symm e)

/-! ## Generators and their machines -/

/-- Every generator that is not complete and not in `out` has its machine, which has not started
or has nothing to try before a consumer goes on. -/
structure Session.Manned (out : Nat → Prop) (s : Session) : Prop where
  machine : ∀ {g : Nat} {gen : Generator}, s.generators[g]? = some gen → gen.complete = false →
    ¬ out g → ∃ m, gen.machine = some m ∧ m.owner = .generator g ∧ m.Tied s ∧
      (gen.ready = true ∧ m.Unused ∨ m.stack = [])

theorem Session.Manned.mono {out out' : Nat → Prop} (h : s.Manned out) (ho : ∀ g, out g → out' g) :
    s.Manned out' :=
  ⟨fun hg hinc hout => h.machine hg hinc fun hg' => hout (ho _ hg')⟩

/-- The machines of other generators are spared. -/
theorem Session.Manned.spares {out : Nat → Prop} (h : s.Manned out) (hs : s.Spares o s')
    (ho : ∀ g, o (.generator g) → out g)
    (hnew : ∀ {g : Nat} {gen' : Generator}, s'.generators[g]? = some gen' →
      s.generators[g]? = none → ∃ m, gen'.machine = some m ∧ m.owner = .generator g ∧ m.Tied s' ∧
        gen'.ready = true ∧ m.Unused) : s'.Manned out := by
  refine ⟨fun {g gen'} hg' hinc hout => ?_⟩
  have hnot : ¬ o (.generator g) := fun hg => hout (ho g hg)
  cases hg : s.generators[g]? with
  | some gen =>
    obtain ⟨gen1, hg1, hfollows⟩ := hs.generator hg
    cases hg'.symm.trans hg1
    obtain ⟨-, hcomp | ⟨hmachine, hready⟩⟩ := hfollows.idle hnot
    · rw [hinc] at hcomp
      cases hcomp
    · have hinc0 : gen.complete = false := by
        cases hc : gen.complete with
        | false => rfl
        | true => exact (hinc.symm.trans (hfollows.complete hc)).symm
      obtain ⟨m, hm, hown, htied, hrest⟩ := h.machine hg hinc0 hout
      refine ⟨m, hmachine.trans hm, hown, htied.spares hs (hown ▸ hnot) ?_, hready ▸ hrest⟩
      rw [hown]
      rintro ⟨gen2, hg2, hc⟩
      cases hg'.symm.trans hg2
      rw [hinc] at hc
      cases hc
  | none =>
    obtain ⟨m, hm, hown, htied, hready⟩ := hnew hg' hg
    exact ⟨m, hm, hown, htied, .inl hready⟩

/-- No generator is new. -/
theorem Session.Manned.kept {out : Nat → Prop} (h : s.Manned out) (hs : s.Spares o s')
    (ho : ∀ g, o (.generator g) → out g) (hsame : s.SameTables s') : s'.Manned out := by
  refine h.spares hs ho fun hg hnone => ?_
  obtain ⟨gen, hgen, -⟩ := hsame.generator hg
  rw [hnone] at hgen
  cases hgen

theorem Effect.manned {out : Nat → Prop} (h : Effect P st m s m' s') (hs : s.Wired X D)
    (hD : ∀ z, ¬ D z) (ht : m.Tied s) (hw : s.Works m.owner) (hm : s.Manned out)
    (ho : ∀ g, m.owner = .generator g → out g) : s'.Manned out := by
  have hspares := h.spares (o := fun x => x = m.owner) hs ht rfl
  refine hm.spares hspares (fun g e => ho g e.symm) (fun {g gen'} hg hnone => ?_)
  rcases (h.extends hs).look hg with ⟨gen, hgen, -⟩ | ⟨-, m0, hm0, e⟩
  · rw [hnone] at hgen
    cases hgen
  · obtain ⟨hunused, hown⟩ := start_unused hm0
    rw [e]
    refine ⟨m0, rfl, hown, hunused.tied fun {c k'} hk' hown' => ?_, rfl, hunused⟩
    -- a consumer of the new generator would be one of an old one
    rw [hown] at hown'
    have hother : k'.owner ≠ m.owner := by
      intro e
      rw [← e, hown'] at hw
      obtain ⟨gen, hgen, -⟩ := hw
      rw [hnone] at hgen
      cases hgen
    obtain ⟨k, hk, hsame⟩ := hspares.old hk' hother
    obtain ⟨gen, hgen, -⟩ := (hs.worker hk (hsame.owner.symm.trans hown')).resolve_left (hD g)
    rw [hnone] at hgen
    cases hgen

end

end TabledRules
