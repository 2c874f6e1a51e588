-- Tables over rules that build no terms. Whatever happens to them, their results are
-- made of what there is for their goals, and no consumer has more to read than before,
-- up to the most that a table can hold.
import TabledRules.Proofs.Costs

namespace TabledRules

/-! ## Nothing new -/

/-- Nothing is added to a table, and nothing is read. -/
structure Session.Ebbs (s s' : Session) : Prop where
  sameTables : s.SameTables s'
  unread : s.Unread s'
  spares : s.Spares (fun _ => True) s'

namespace Session

variable {s s' s'' : Session} {g c q n : Nat}

theorem Ebbs.refl (s : Session) : s.Ebbs s := ⟨.refl s, .refl s, .refl _ s⟩

theorem Ebbs.trans (h : s.Ebbs s') (h' : s'.Ebbs s'') : s.Ebbs s'' :=
  ⟨h.sameTables.trans h'.sameTables, h.unread.trans h'.unread, h.spares.trans h'.spares⟩

theorem Noted.ebbs (h : s.Noted s') : s.Ebbs s' := ⟨h.sameTables, h.unread, h.spares _⟩

theorem ebbs_removeConsumer (s : Session) (c : Nat) : s.Ebbs (s.removeConsumer c) :=
  ⟨s.sameTables_removeConsumer c, s.unread_removeConsumer c,
    s.spares_removeConsumer c fun _ _ => .inl trivial⟩

theorem ebbs_block (s : Session) (owner : Owner) (c : Nat) : s.Ebbs (s.block owner c) :=
  ⟨s.sameTables_block owner c, s.unread_block owner c, s.spares_block owner c fun _ _ => trivial⟩

theorem ebbs_released (s : Session) (resume : Option Nat) : s.Ebbs (s.released resume) :=
  ⟨s.sameTables_released resume, s.unread_released resume,
    s.spares_released resume fun _ _ _ _ => trivial⟩

theorem ebbs_takeUp {task : Task} {agenda : Queue Task} {x : Option (Nat × Option Nat)}
    (h : ({ s with agenda } : Session).takeUp task = (x, s')) : s.Ebbs s' := by
  have hsame := Session.sameTables_takeUp { s with agenda } task
  rw [h] at hsame
  exact ⟨(s.sameTables_agenda agenda).trans hsame, Session.unread_takeUp h,
    (s.spares_agenda agenda _).trans (Session.spares_takeUp _ h _)⟩

theorem ebbs_prepared (s : Session) (g : Nat) (resume : Option Nat) :
    s.Ebbs (s.prepared g resume) :=
  ⟨s.sameTables_prepared g resume, s.unread_prepared g resume,
    s.spares_prepared g resume trivial⟩

/-- A machine is taken out. -/
theorem ebbs_takeOut (s : Session) (g : Nat) :
    s.Ebbs (s.modifyGenerator g fun gen => { gen with machine := none }) :=
  ⟨s.sameTables_modifyGenerator g fun _ => ⟨rfl, rfl, .inr rfl⟩, .of_same (Nat.le_refl _) rfl,
    s.spares_modifyGenerator g fun _ _ =>
      ⟨rfl, List.prefix_rfl, id, fun hno => absurd trivial hno⟩⟩

theorem ebbs_takeReady (h : s.takeReady q = some (c, s')) : s.Ebbs s' := by
  refine ⟨Session.sameTables_takeReady h, Session.unread_takeReady h, ?_⟩
  unfold takeReady at h
  obtain ⟨c', -, e⟩ := Option.map_eq_some_iff.1 h
  cases e
  exact .of_generators rfl rfl (fun q' => isSome_modify _ _ _ _) fun hg => ⟨_, hg, .refl _ _⟩

theorem ebbs_wakeReaders (s : Session) (g : Nat) : s.Ebbs (s.wakeReaders g) :=
  ⟨s.sameTables_wakeReaders g, s.unread_wakeReaders g, s.spares_wakeReaders g _⟩

theorem ebbs_complete (event : Triple → Nat → Event) (s : Session) (g : Nat) :
    s.Ebbs (s.complete event g) :=
  ⟨s.sameTables_complete event g, s.unread_complete event g, s.spares_complete event g _⟩

end Session

section

variable {P : Program} {facts : List Triple} {S : Stock} {st : Settings} {s s' : Session}
  {m m' : Machine} {g c R : Nat} {goal t value : Triple} {o : Owner → Prop}

theorem Session.Ebbs.grows (h : s.Ebbs s') : s.Grows s' := h.sameTables.grows

theorem Session.Spares.keeps (h : s.Spares o s') : s.Keeps s' := fun hgen => by
  obtain ⟨gen', hgen', hfollows⟩ := h.generator hgen
  exact ⟨gen', hgen', hfollows.results, hfollows.complete⟩

theorem Session.Ebbs.recedes (h : s.Ebbs s') (R : Nat) : s.Recedes R s' :=
  h.unread.recedes h.grows h.spares.keeps R

theorem Session.Ebbs.pending (h : s.Ebbs s') {d : Nat} {key : Triple} (hd : s.Reads d key)
    (hp : (s'.read d).1 = .pending) : (s.read d).1 = .pending :=
  h.unread.pending h.grows h.spares.keeps hd hp

theorem Session.Flat.spares (h : s.Flat P facts) (hsame : s.SameTables s') (hs : s.Spares o s') :
    s'.Flat P facts :=
  h.stays hsame.grows hsame.goals
    (fun hgen => (hs.generator hgen).imp fun _ hgen' => hgen'.1) hsame.generator

theorem Session.Flat.ebbs (h : s.Flat P facts) (hs : s.Ebbs s') : s'.Flat P facts :=
  h.spares hs.sameTables hs.spares

/-! ## Results that are read -/

/-- A consumer that reads has one less to read. -/
theorem Session.recedes_read (h : s.read c = (.result t, s'))
    (hR : ∀ (g : Nat) (gen : Generator), s.generators[g]? = some gen → gen.results.size ≤ R) :
    s.Recedes R s' ∧ s'.lag R c < s.lag R c := by
  obtain ⟨k, gen, hk, hgen, ht, rfl⟩ := of_read_result h
  have hlt : k.read < gen.results.size := (Array.getElem?_eq_some_iff.1 ht).1
  have hle := hR _ gen hgen
  -- the consumer that reads
  have hunread : s.unread R c = R - k.read := by rw [unread, hk, Option.elim_some]
  have hlag : s.lag R c = 2 * (R - k.read) := by
    rw [lag_of_ne (by rw [h]; simp), hunread]
  have hunread' : (s.modifyConsumer c fun k => { k with read := k.read + 1 }).unread R c =
      R - (k.read + 1) := by
    rw [unread, consumers_modifyConsumer, if_pos rfl, hk, Option.map_some, Option.elim_some]
  have hlag' := lag_le_unread R (s.modifyConsumer c fun k => { k with read := k.read + 1 }) c
  rw [hunread'] at hlag'
  -- the others
  have other : ∀ {d : Nat}, c ≠ d →
      (s.modifyConsumer c fun k => { k with read := k.read + 1 }).consumers[d]? = s.consumers[d]? :=
    fun hne => by rw [consumers_modifyConsumer, if_neg hne]
  have hsame := s.sameTables_modifyConsumer c (f := fun k => { k with read := k.read + 1 })
    fun _ => rfl
  refine ⟨⟨hsame.grows, fun {d key} _ => ?_, fun {d key} _ => ?_⟩, by omega⟩
  · by_cases e : c = d
    · subst e
      omega
    · refine Nat.le_of_eq ?_
      have hread : ((s.modifyConsumer c fun k => { k with read := k.read + 1 }).read d).1 =
          (s.read d).1 := by
        have hgenerators : (s.modifyConsumer c fun k =>
          { k with read := k.read + 1 }).generators = s.generators := rfl
        unfold read
        rw [other e, hgenerators]
        cases s.consumers[d]? with
        | none => rfl
        | some k' =>
          cases hgen' : s.generators[k'.generator]? with
          | none => simp only [hgen']
          | some gen' => cases hget : gen'.results.get? k'.read <;> simp only [hgen', hget]
      rw [lag, lag, hread, unread, unread, other e]
  · by_cases e : c = d
    · subst e
      omega
    · rw [unread, unread, other e]

/-! ## Tables that are called -/

theorem Session.grows_withGenerator (s : Session) (key : Triple) (m : Machine) :
    s.Grows (s.withGenerator key m) := by
  refine ⟨rfl, Nat.le_succ _, fun _ hk => ⟨_, hk, rfl⟩, fun {g gen'} hlt hg => ?_⟩
  rw [generators_withGenerator, if_neg (by omega)] at hg
  exact ⟨gen', hg, rfl⟩

/-- A new table has no results, and its machine is a new one for its goal. -/
theorem Session.Flat.withGenerator (h : s.Flat P facts) (hP : P.Simple facts)
    (hgoal : goal.Over (P.stock facts goal))
    (hm : Machine.start (P.world st) goal (.generator s.nextId) = .ok m) :
    (s.withGenerator goal m).Flat P facts where
  generator_lt {g gen} hg := by
    change g < s.nextId + 1
    rw [generators_withGenerator] at hg
    split at hg
    · omega
    · exact Nat.lt_succ_of_lt (h.generator_lt hg)
  filed {key g} hkey := by
    rw [goals_withGenerator] at hkey
    rcases List.mem_append.1 hkey with hkey | hkey
    · obtain ⟨gen, hgen, e⟩ := h.filed hkey
      exact ⟨gen, by rw [generators_withGenerator, if_neg (Nat.ne_of_gt (h.generator_lt hgen)), hgen], e⟩
    · cases List.mem_singleton.1 hkey
      exact ⟨_, by rw [generators_withGenerator, if_pos rfl], rfl⟩
  goal hg := by
    rw [generators_withGenerator] at hg
    split at hg
    · cases hg
      exact hgoal
    · exact h.goal hg
  results hg := by
    rw [generators_withGenerator] at hg
    split at hg
    · cases hg
      exact ⟨List.nodup_nil, fun t ht => (List.not_mem_nil ht).elim⟩
    · exact h.results hg
  machine hg hm' := by
    rw [generators_withGenerator] at hg
    split at hg
    · cases hg
      cases hm'
      exact Machine.start_flat hP hgoal hm _
    · exact (h.machine hg hm').grows (s.grows_withGenerator goal m)

/-- The table of a goal is there, or it is a new one. -/
theorem Session.Flat.generatorFor (h : s.Flat P facts) (hP : P.Simple facts)
    (hvalue : ∀ u ∈ value.terms, u.isGround = true ∨ u.isVar = true)
    (hg : s.generatorFor (P.world st) value = (.ok g, s')) :
    s'.Flat P facts ∧ (∀ R, s.Recedes R s') ∧ s'.About g value.variantKey := by
  rcases generatorFor_cases hg with ⟨g', gen, hof, e, rfl⟩ | ⟨-, e, hx, -⟩ | ⟨m, -, hm, e, rfl⟩
  · cases e
    obtain ⟨hkey, hgen⟩ := of_generatorOf? hof
    refine ⟨h, fun R => .refl R _, h.generator_lt hgen, fun gen' hgen' => ?_⟩
    obtain ⟨gen1, hgen1, e⟩ := h.filed hkey
    cases hgen'.symm.trans hgen1
    exact e
  · cases hx
  · cases e
    have hover : value.Over (P.stock facts value) := Triple.over_stock hvalue
    have hkey : value.variantKey.Over (P.stock facts value.variantKey) :=
      Triple.over_stock hover.variantKey.shape
    have hgrows := s.grows_withGenerator value.variantKey m
    refine ⟨h.withGenerator hP hkey hm, fun R => ?_, Nat.lt_succ_self _, fun gen hgen => ?_⟩
    · have hunread : s.Unread (s.withGenerator value.variantKey m) := .of_same (Nat.le_succ _) rfl
      refine hunread.recedes hgrows (fun {g gen} hgen => ?_) R
      refine ⟨gen, ?_, List.prefix_rfl, id⟩
      rw [generators_withGenerator, if_neg (Nat.ne_of_gt (h.generator_lt hgen)), hgen]
    · rw [generators_withGenerator, if_pos rfl] at hgen
      cases hgen
      rfl

/-- A table that gets a consumer is otherwise the same. -/
theorem Session.look_addConsumer {owner : Owner} {g' : Nat} {gen' : Generator}
    (h : (s.addConsumer g owner).2.generators[g']? = some gen') :
    ∃ gen : Generator, s.generators[g']? = some gen ∧ gen'.goal = gen.goal ∧
      gen'.results = gen.results ∧ gen'.machine = gen.machine ∧ gen'.complete = gen.complete := by
  rw [generators_addConsumer] at h
  split at h
  · next e =>
    subst e
    obtain ⟨gen, hgen, rfl⟩ := Option.map_eq_some_iff.1 h
    exact ⟨gen, hgen, rfl, rfl, rfl, rfl⟩
  · exact ⟨gen', h, rfl, rfl, rfl, rfl⟩

/-- A new consumer has all results of its table to read. -/
theorem Session.Flat.addConsumer (h : s.Flat P facts) (owner : Owner) (hg : s.About g goal) :
    (s.addConsumer g owner).2.Flat P facts ∧ (∀ R, s.Recedes R (s.addConsumer g owner).2) ∧
      (s.addConsumer g owner).2.Reads (s.addConsumer g owner).1 goal := by
  have find : ∀ {g' : Nat} {gen : Generator}, s.generators[g']? = some gen →
      ∃ gen' : Generator, (s.addConsumer g owner).2.generators[g']? = some gen' ∧
        gen.results.toList <+: gen'.results.toList ∧
        (gen.complete = true → gen'.complete = true) := by
    intro g' gen hgen
    rw [generators_addConsumer]
    split
    · next e =>
      subst e
      exact ⟨{ gen with consumers := s.nextId :: gen.consumers }, by rw [hgen]; rfl,
        List.prefix_rfl, id⟩
    · exact ⟨gen, hgen, List.prefix_rfl, id⟩
  have hgrows : s.Grows (s.addConsumer g owner).2 := by
    refine ⟨rfl, Nat.le_succ _, fun {c k'} hc hk => ?_, fun _ hgen => ?_⟩
    · rw [consumers_addConsumer, if_neg (Nat.ne_of_gt hc)] at hk
      exact ⟨k', hk, rfl⟩
    · obtain ⟨gen, hgen, e, -⟩ := Session.look_addConsumer hgen
      exact ⟨gen, hgen, e⟩
  have hnew : ∀ {k : Consumer},
      (s.addConsumer g owner).2.consumers[(s.addConsumer g owner).1]? = some k →
      k.generator = g := by
    intro k hk
    rw [consumers_addConsumer] at hk
    cases (if_pos rfl).symm.trans hk
    rfl
  refine ⟨h.stays hgrows rfl (fun hgen => (find hgen).imp fun _ hgen' => hgen'.1) fun hgen => by
      obtain ⟨gen, hgen, e1, e2, e3, -⟩ := Session.look_addConsumer hgen
      exact ⟨gen, hgen, e1, e2, .inl e3⟩,
    (s.unread_addConsumer g owner).recedes hgrows find, Nat.lt_succ_self _, fun {k} hk => ?_,
    fun {k gen'} hk hgen' => ?_⟩
  · rw [hnew hk]
    exact Nat.lt_succ_of_lt hg.1
  · rw [hnew hk] at hgen'
    obtain ⟨gen, hgen, e, -⟩ := Session.look_addConsumer hgen'
    exact e.trans (hg.2 gen hgen)

/-! ## Machines that run -/

theorem Session.look_modifyGenerator {f : Generator → Generator} {g' : Nat} {gen' : Generator}
    (h : (s.modifyGenerator g f).generators[g']? = some gen')
    (hgoal : ∀ gen, (f gen).goal = gen.goal) :
    ∃ gen : Generator, s.generators[g']? = some gen ∧ gen'.goal = gen.goal ∧
      (g' ≠ g ∧ gen' = gen ∨ g' = g ∧ gen' = f gen) := by
  rw [Session.generators_modifyGenerator] at h
  split at h
  · next e =>
    subst e
    obtain ⟨gen, hgen, rfl⟩ := Option.map_eq_some_iff.1 h
    exact ⟨gen, hgen, hgoal gen, .inr ⟨rfl, rfl⟩⟩
  · next hne => exact ⟨gen', h, rfl, .inl ⟨Ne.symm hne, rfl⟩⟩

theorem Session.Flat.modifyGenerator {f : Generator → Generator} (h : s.Flat P facts)
    (hgoal : ∀ gen, (f gen).goal = gen.goal)
    (hresults : ∀ gen : Generator, s.generators[g]? = some gen → (f gen).results.toList.Nodup ∧
      ∀ t ∈ (f gen).results.toList, t.Settled (P.stock facts gen.goal))
    (hmachine : ∀ (gen : Generator) (m : Machine), s.generators[g]? = some gen →
      (f gen).machine = some m → m.Flat P facts (P.stock facts gen.goal) s) :
    (s.modifyGenerator g f).Flat P facts ∧ s.Grows (s.modifyGenerator g f) := by
  have hgrows : s.Grows (s.modifyGenerator g f) := by
    refine ⟨rfl, Nat.le_refl _, fun _ hk => ⟨_, hk, rfl⟩, fun _ hgen => ?_⟩
    obtain ⟨gen, hgen, e, -⟩ := Session.look_modifyGenerator hgen hgoal
    exact ⟨gen, hgen, e⟩
  refine ⟨⟨fun hg => ?_, fun hkey => ?_, fun hg => ?_, fun hg => ?_, fun hg hm => ?_⟩, hgrows⟩
  · obtain ⟨gen, hgen, -⟩ := Session.look_modifyGenerator hg hgoal
    exact h.generator_lt hgen
  · obtain ⟨gen, hgen, e⟩ := h.filed hkey
    rw [Session.generators_modifyGenerator]
    split
    · next e' =>
      subst e'
      exact ⟨f gen, by rw [hgen]; rfl, (hgoal gen).trans e⟩
    · exact ⟨gen, hgen, e⟩
  · obtain ⟨gen, hgen, e, -⟩ := Session.look_modifyGenerator hg hgoal
    rw [e]
    exact h.goal hgen
  · obtain ⟨gen, hgen, e, ⟨-, rfl⟩ | ⟨rfl, rfl⟩⟩ := Session.look_modifyGenerator hg hgoal
    · exact h.results hgen
    · rw [e]
      exact hresults gen hgen
  · obtain ⟨gen, hgen, e, ⟨-, rfl⟩ | ⟨rfl, rfl⟩⟩ := Session.look_modifyGenerator hg hgoal
    · exact (h.machine hgen hm).grows hgrows
    · rw [e]
      exact (hmachine gen _ hgen hm).grows hgrows

/-- A result that is new is in the table but once. -/
theorem Session.Flat.push (h : s.Flat P facts) {gen : Generator}
    (hgen : s.generators[g]? = some gen) (hnew : gen.isNew t = true)
    (ht : t.Settled (P.stock facts gen.goal)) :
    (s.modifyGenerator g fun gen => { gen with results := gen.results.push t }).Flat P facts ∧
      ∀ R, s.Recedes R
        (s.modifyGenerator g fun gen => { gen with results := gen.results.push t }) := by
  have hresults : ∀ gen' : Generator, s.generators[g]? = some gen' →
      (gen'.results.push t).toList.Nodup ∧
        ∀ u ∈ (gen'.results.push t).toList, u.Settled (P.stock facts gen'.goal) := by
    intro gen' hgen'
    cases hgen.symm.trans hgen'
    obtain ⟨hnodup, hsettled⟩ := h.results hgen
    have hnot : t ∉ gen.results.toList := by
      unfold Generator.isNew at hnew
      split at hnew
      · have hsize : gen.results.toList.length = 0 := of_decide_eq_true hnew
        rw [List.eq_nil_of_length_eq_zero hsize]
        exact List.not_mem_nil
      · rw [← Index.contains_iff]
        simpa using hnew
    rw [Index.toList_push]
    refine ⟨List.nodup_append.2 ⟨hnodup, List.nodup_singleton t, fun u hu v hv e => ?_⟩,
      fun u hu => ?_⟩
    · obtain rfl := List.mem_singleton.1 hv
      exact hnot (e ▸ hu)
    · rcases List.mem_append.1 hu with hu | hu
      · exact hsettled u hu
      · obtain rfl := List.mem_singleton.1 hu
        exact ht
  obtain ⟨h1, hgrows⟩ := h.modifyGenerator (g := g)
    (f := fun gen => { gen with results := gen.results.push t }) (fun _ => rfl) hresults
    fun gen' m hgen' hm => h.machine hgen' hm
  have hunread : s.Unread
      (s.modifyGenerator g fun gen => { gen with results := gen.results.push t }) :=
    .of_same (Nat.le_refl _) rfl
  exact ⟨h1, hunread.recedes hgrows (s.spares_result g t).keeps⟩

/-- A machine is put back. -/
theorem Session.Flat.putBack (h : s.Flat P facts) (hg : s.About g goal)
    (hm : m.Flat P facts (P.stock facts goal) s) :
    (s.modifyGenerator g fun gen => { gen with machine := some m }).Flat P facts ∧
      ∀ R, s.Recedes R (s.modifyGenerator g fun gen => { gen with machine := some m }) := by
  obtain ⟨h1, hgrows⟩ := h.modifyGenerator (g := g)
    (f := fun gen => { gen with machine := some m }) (fun _ => rfl)
    (fun gen' hgen' => by have hold := h.results hgen'; exact hold) fun gen' m' hgen' hm' => by
      cases hm'
      rw [hg.2 gen' hgen']
      exact hm
  have hspares := s.spares_modifyGenerator (o := fun _ => True) g
    (f := fun gen => { gen with machine := some m })
    fun _ _ => ⟨rfl, List.prefix_rfl, id, fun hno => absurd trivial hno⟩
  have hunread : s.Unread (s.modifyGenerator g fun gen => { gen with machine := some m }) :=
    .of_same (Nat.le_refl _) rfl
  exact ⟨h1, hunread.recedes hgrows hspares.keeps⟩

end

end TabledRules
