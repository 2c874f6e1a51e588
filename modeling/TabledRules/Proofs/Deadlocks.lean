-- What a completion check completes. The generators it gives up have all run,
-- have read all that there is for them, and wait for each other only.
import Mathlib.Data.List.Perm.Subperm
import TabledRules.Proofs.Ties

namespace TabledRules

/-! ## Sets of ids -/

namespace IdSet

variable {a b : IdSet} {i j : Nat}

theorem contains_insert : (a.insert i).contains j = true ↔ j = i ∨ a.contains j = true := by
  simp only [contains_iff, toList_insert, List.mem_append, List.mem_singleton, or_comm]

theorem size_insert (h : a.contains i = false) : (a.insert i).size = a.size + 1 := by
  have hno : ¬ a.members.contains i = true := by
    rw [contains] at h
    simp [h]
  unfold size insert
  rw [Std.TreeSet.size_insert, if_neg hno]

/-- A set is not larger than one that has all of its ids, and it is the same if it is as large. -/
theorem size_le (h : ∀ i, a.contains i = true → b.contains i = true) :
    a.size ≤ b.size ∧ (a.size = b.size → ∀ i, b.contains i = true → a.contains i = true) := by
  have mem : ∀ (s : IdSet) i, s.contains i = true ↔ i ∈ s.members.toList := fun s i => by
    rw [contains, Std.TreeSet.contains_iff_mem, Std.TreeSet.mem_toList]
  have hnodup : a.members.toList.Nodup := a.members.distinct_toList.imp fun hne e =>
    hne (Std.LawfulEqCmp.compare_eq_iff_eq.2 e)
  have hsub : a.members.toList.Subperm b.members.toList :=
    List.subperm_of_subset hnodup fun i hi => (mem b i).1 (h i ((mem a i).2 hi))
  have hlen : ∀ s : IdSet, s.members.toList.length = s.size := fun s => s.members.length_toList
  refine ⟨hlen a ▸ hlen b ▸ hsub.length_le, fun e i hi => (mem a i).2 ?_⟩
  have hperm := hsub.perm_of_length_le (by rw [hlen, hlen, e])
  exact hperm.mem_iff.2 ((mem b i).1 hi)

end IdSet

theorem Index.size_eq {α : Type} {key : α → Nat} (s : Index key) : s.size = s.toList.length := by
  simp [Index.size, Index.toList]

namespace Session

variable {s : Session}

/-! ## What is reached -/

/-- How many incomplete generators are not found yet. -/
def missing (s : Session) (found : IdSet) : Nat :=
  (s.generators.keys.filter fun g => s.isIncomplete g && !found.contains g).length

theorem mem_keys_of_isIncomplete {g : Nat} (h : s.isIncomplete g = true) :
    g ∈ s.generators.keys := by
  rw [Std.TreeMap.mem_keys, Std.TreeMap.mem_iff_isSome_getElem?]
  unfold isIncomplete at h
  split at h
  · next hgen => rw [hgen]; rfl
  · cases h

theorem missing_insert {found : IdSet} {g : Nat} (hg : s.isIncomplete g = true)
    (hno : found.contains g = false) : s.missing (found.insert g) < s.missing found := by
  have hsplit : (s.generators.keys.filter fun g' => s.isIncomplete g' && !(found.insert g).contains g') =
      (s.generators.keys.filter fun g' => s.isIncomplete g' && !found.contains g').filter
        fun g' => !(found.insert g).contains g' := by
    rw [List.filter_filter]
    congr 1
    funext g'
    have := @IdSet.contains_insert found g g'
    cases h1 : (found.insert g).contains g' <;> cases h2 : found.contains g' <;> simp_all
  unfold missing
  rw [hsplit, List.length_filter_lt_length_iff_exists]
  exact ⟨g, List.mem_filter.2 ⟨mem_keys_of_isIncomplete hg, by simp [hg, hno]⟩,
    by simp [IdSet.contains_insert.2 (.inl rfl)]⟩

/-- All that is pending is found, and all that what is found waits for. -/
theorem reach_spec (n : Nat) (pending : List Nat) (found : IdSet) (hn : s.missing found ≤ n) :
    (∀ g, found.contains g = true → (s.reach n pending found).contains g = true) ∧
    (∀ g ∈ pending, s.isIncomplete g = true → (s.reach n pending found).contains g = true) ∧
    ∀ g, (s.reach n pending found).contains g = true → found.contains g = false →
      s.isIncomplete g = true ∧ ∀ d ∈ s.waitsFor g, s.isIncomplete d = true →
        (s.reach n pending found).contains d = true := by
  induction n generalizing pending found with
  | zero =>
    refine ⟨fun g hg => hg, fun g _ hg => ?_, fun g hg hno => ?_⟩
    · by_contra hc
      have : 0 < s.missing found := List.length_pos_of_mem (List.mem_filter.2
        ⟨mem_keys_of_isIncomplete hg, by simpa [hg, reach] using hc⟩)
      omega
    · rw [reach] at hg
      rw [hg] at hno
      cases hno
  | succ n ih =>
    have hall : ∀ g ∈ pending, s.isIncomplete g = true → found.contains g = true ∨
        g ∈ pending.dropWhile fun g => !s.isIncomplete g || found.contains g := by
      intro g hg hinc
      rw [← List.takeWhile_append_dropWhile (p := fun g => !s.isIncomplete g || found.contains g)
        (l := pending)] at hg
      rcases List.mem_append.1 hg with hg | hg
      · have hdropped := List.all_eq_true.1 List.all_takeWhile g hg
        rw [hinc] at hdropped
        exact .inl (by simpa using hdropped)
      · exact .inr hg
    rw [reach]
    split
    · next g rest hdrop =>
      obtain ⟨hinc, hno⟩ : s.isIncomplete g = true ∧ found.contains g = false := by
        have := List.head?_dropWhile_not (fun g => !s.isIncomplete g || found.contains g) pending
        rw [hdrop] at this
        simpa using this
      obtain ⟨h1, h2, h3⟩ := ih (s.waitsFor g ++ rest) (found.insert g)
        (Nat.le_of_lt_succ (Nat.lt_of_lt_of_le (missing_insert hinc hno) hn))
      have hself := h1 g (IdSet.contains_insert.2 (.inl rfl))
      refine ⟨fun g' hg' => h1 g' (IdSet.contains_insert.2 (.inr hg')), fun g' hg' hinc' => ?_,
        fun g' hg' hno' => ?_⟩
      · rcases hall g' hg' hinc' with hf | hd
        · exact h1 g' (IdSet.contains_insert.2 (.inr hf))
        · rw [hdrop] at hd
          rcases List.mem_cons.1 hd with rfl | hd
          · exact hself
          · exact h2 g' (List.mem_append_right _ hd) hinc'
      · by_cases e : g' = g
        · subst e
          exact ⟨hinc, fun d hd hdinc => h2 d (List.mem_append_left _ hd) hdinc⟩
        · refine h3 g' hg' ?_
          cases hc : (found.insert g).contains g' with
          | false => rfl
          | true =>
            rcases IdSet.contains_insert.1 hc with h | h
            · exact absurd h e
            · rw [h] at hno'
              cases hno'
    · next hdrop =>
      refine ⟨fun g hg => hg, fun g hg hinc => ?_, fun g hg hno => ?_⟩
      · rcases hall g hg hinc with hf | hd
        · exact hf
        · rw [hdrop] at hd
          cases hd
      · rw [hg] at hno
        cases hno

theorem reachable_spec (s : Session) (roots : List Nat) :
    (∀ g ∈ roots, s.isIncomplete g = true → (s.reachable roots).contains g = true) ∧
    ∀ g, (s.reachable roots).contains g = true → s.isIncomplete g = true ∧
      ∀ d ∈ s.waitsFor g, s.isIncomplete d = true → (s.reachable roots).contains d = true := by
  have hn : s.missing {} ≤ s.generators.size := by
    rw [← Std.TreeMap.length_keys]
    exact List.length_filter_le _ _
  obtain ⟨-, h2, h3⟩ := reach_spec s.generators.size roots.reverse {} hn
  exact ⟨fun g hg => h2 g (List.mem_reverse.2 hg), fun g hg => h3 g hg rfl⟩

/-! ## What is live -/

/-- The fresh ones are live, and those of `all` that read from the other live ones. -/
structure Spreads (s : Session) (all : IdSet) (fresh : List Nat) (live : IdSet) : Prop where
  within : ∀ g, live.contains g = true → all.contains g = true
  fresh_live : ∀ g ∈ fresh, live.contains g = true
  spread : ∀ g, live.contains g = true → g ∉ fresh → ∀ z ∈ s.readersOf g, all.contains z = true →
    live.contains z = true

/-- What is added is live and fresh, and each fresh one counts for one live one. -/
theorem revive_foldl (all : IdSet) (gs : List Nat) (fresh : List Nat) (live : IdSet) :
    ∃ fresh' live', gs.foldl (revive all) (fresh, live) = (fresh', live') ∧
    (∀ g, live.contains g = true → live'.contains g = true) ∧
    (∀ g ∈ fresh, g ∈ fresh') ∧
    (∀ g ∈ gs, all.contains g = true → live'.contains g = true) ∧
    (∀ g, live'.contains g = true → live.contains g = true ∨ all.contains g = true ∧ g ∈ fresh') ∧
    (∀ g ∈ fresh', g ∈ fresh ∨ live'.contains g = true) ∧
    fresh'.length + live.size = fresh.length + live'.size := by
  induction gs generalizing fresh live with
  | nil =>
    refine ⟨fresh, live, rfl, fun _ h => h, fun _ h => h, fun g hg => ?_, fun _ h => .inl h,
      fun _ h => .inl h, rfl⟩
    cases hg
  | cons g gs ih =>
    by_cases hnew : (all.contains g && !live.contains g) = true
    · have hstep : revive all (fresh, live) g = (g :: fresh, live.insert g) := if_pos hnew
      rw [List.foldl_cons, hstep]
      simp only [Bool.and_eq_true, Bool.not_eq_true'] at hnew
      obtain ⟨fresh', live', h0, h1, h2, h3, h4, h5, h6⟩ := ih (g :: fresh) (live.insert g)
      have hself := h1 g (IdSet.contains_insert.2 (.inl rfl))
      refine ⟨fresh', live', h0, fun g' hg' => h1 g' (IdSet.contains_insert.2 (.inr hg')),
        fun g' hg' => h2 g' (List.mem_cons_of_mem _ hg'), fun g' hg' hall => ?_, fun g' hg' => ?_,
        fun g' hg' => ?_, ?_⟩
      · rcases List.mem_cons.1 hg' with rfl | hg'
        · exact hself
        · exact h3 g' hg' hall
      · rcases h4 g' hg' with hl | hr
        · rcases IdSet.contains_insert.1 hl with rfl | hl
          · exact .inr ⟨hnew.1, h2 _ List.mem_cons_self⟩
          · exact .inl hl
        · exact .inr hr
      · rcases h5 g' hg' with hf | hl
        · rcases List.mem_cons.1 hf with rfl | hf
          · exact .inr hself
          · exact .inl hf
        · exact .inr hl
      · rw [IdSet.size_insert hnew.2, List.length_cons] at h6
        omega
    · have hstep : revive all (fresh, live) g = (fresh, live) := if_neg hnew
      rw [List.foldl_cons, hstep]
      obtain ⟨fresh', live', h0, h1, h2, h3, h4, h5, h6⟩ := ih fresh live
      refine ⟨fresh', live', h0, h1, h2, fun g' hg' hall => ?_, h4, h5, h6⟩
      rcases List.mem_cons.1 hg' with rfl | hg'
      · refine h1 _ ?_
        by_contra hno
        exact hnew (by simp [hall, hno])
      · exact h3 g' hg' hall

theorem spread_spec (all : IdSet) (n : Nat) (fresh : List Nat) (live : IdSet)
    (h : s.Spreads all fresh live) (hn : fresh.length + all.size ≤ n + live.size) :
    (∀ g, live.contains g = true → (s.spread all n fresh live).contains g = true) ∧
      s.Spreads all [] (s.spread all n fresh live) := by
  induction n generalizing fresh live with
  | zero =>
    have hle := (IdSet.size_le h.within).1
    obtain rfl : fresh = [] := List.length_eq_zero_iff.1 (by omega)
    exact ⟨fun _ hg => hg, h⟩
  | succ n ih =>
    cases fresh with
    | nil => exact ⟨fun _ hg => hg, h⟩
    | cons g fresh =>
      rw [spread]
      split
      · next hsize =>
        -- all of them are live, so there is nothing to add
        have hfull := (IdSet.size_le h.within).2 hsize
        exact ⟨fun _ hg => hg, h.within, fun _ hg => absurd hg List.not_mem_nil,
          fun _ _ _ z _ hz => hfull z hz⟩
      · obtain ⟨fresh', live', h0, h1, h2, h3, h4, h5, h6⟩ :=
          revive_foldl all (s.readersOf g) fresh live
        rw [h0]
        have hnext : s.Spreads all fresh' live' := by
          refine ⟨fun g' hg' => ?_, fun g' hg' => ?_, fun g' hg' hno z hz hall => ?_⟩
          · rcases h4 g' hg' with hl | hr
            · exact h.within g' hl
            · exact hr.1
          · rcases h5 g' hg' with hf | hl
            · exact h1 g' (h.fresh_live g' (List.mem_cons_of_mem _ hf))
            · exact hl
          · rcases h4 g' hg' with hl | hr
            · by_cases e : g' = g
              · subst e
                exact h3 z hz hall
              · refine h1 z (h.spread g' hl ?_ z hz hall)
                intro hmem
                rcases List.mem_cons.1 hmem with rfl | hf
                · exact e rfl
                · exact hno (h2 g' hf)
            · exact absurd hr.2 hno
        obtain ⟨h7, h8⟩ := ih fresh' live' hnext (by
          simp only [List.length_cons] at hn
          omega)
        exact ⟨fun g' hg' => h7 g' (h1 g' hg'), h8⟩

theorem liveAmong_spec (s : Session) (all : IdSet) :
    (∀ g, all.contains g = true → s.canRun g = true → (s.liveAmong all).contains g = true) ∧
    ∀ g, (s.liveAmong all).contains g = true → ∀ z ∈ s.readersOf g, all.contains z = true →
      (s.liveAmong all).contains z = true := by
  obtain ⟨fresh, live, h0, -, -, h3, h4, h5, h6⟩ :=
    revive_foldl all (all.toList.filter s.canRun) [] {}
  unfold liveAmong
  rw [h0]
  have hstart : s.Spreads all fresh live := by
    refine ⟨fun g hg => ?_, fun g hg => ?_, fun g hg hno => ?_⟩
    · rcases h4 g hg with h | h
      · cases h
      · exact h.1
    · rcases h5 g hg with h | h
      · cases h
      · exact h
    · rcases h4 g hg with h | h
      · cases h
      · exact absurd h.2 hno
  have hn : fresh.length + all.size ≤ all.size + live.size := by
    have : fresh.length + 0 = 0 + live.size := h6
    omega
  obtain ⟨h7, h8⟩ := spread_spec all all.size fresh live hstart hn
  refine ⟨fun g hall hrun => h7 g (h3 g (List.mem_filter.2 ⟨?_, hrun⟩) hall),
    fun g hg z hz hall => h8.spread g hg List.not_mem_nil z hz hall⟩
  exact (IdSet.contains_iff all g).1 hall

/-- Where nothing can run, nothing is live. -/
theorem liveAmong_of_idle {all : IdSet} (h : ∀ g, s.canRun g = false) :
    s.liveAmong all = {} := by
  have hnone : all.toList.filter s.canRun = [] :=
    List.filter_eq_nil_iff.2 fun g _ => by simp [h g]
  unfold liveAmong
  rw [hnone]
  cases all.size <;> rfl

/-! ## What is dead -/

/-- The generators that a check completes, in the order in which it does. -/
def dead (s : Session) (roots : List Nat) : List Nat :=
  (s.reachable roots).toList.filter fun g => !(s.liveAmong (s.reachable roots)).contains g

theorem checkCompletion_eq (s : Session) (roots : List Nat) :
    s.checkCompletion roots = (s.dead roots).foldl (complete .generatorDeadlocked) s := rfl

/-- The generators of `D` have run and wait for each other only, with nothing left to read. -/
def Stuck (s : Session) (D : Nat → Prop) : Prop :=
  ∀ g, D g → ∃ gen : Generator, s.generators[g]? = some gen ∧ gen.complete = false ∧
    gen.ready = false ∧ ∀ c ∈ gen.generating, ∀ k : Consumer, s.consumers[c]? = some k →
      k.suspended = true → D k.generator ∧ ∃ read : Generator,
        s.generators[k.generator]? = some read ∧ read.complete = false ∧
          read.results.size ≤ k.read

theorem isIncomplete_iff {g : Nat} : s.isIncomplete g = true ↔
    ∃ gen : Generator, s.generators[g]? = some gen ∧ gen.complete = false := by
  unfold isIncomplete
  split
  · next gen hgen => simp [hgen]
  · next hgen => simp [hgen]

/-- A consumer that waits and cannot go on has read an incomplete table to its end. -/
theorem of_not_ready {c : Nat} {k : Consumer} (hk : s.consumers[c]? = some k)
    (hs : k.suspended = true) (hno : s.isReady c = false) : ∃ gen : Generator,
      s.generators[k.generator]? = some gen ∧ gen.complete = false ∧ gen.results.size ≤ k.read := by
  unfold isReady at hno
  rw [hk] at hno
  simp only [hs, Bool.true_and] at hno
  split at hno
  · next gen hgen =>
    simp only [Bool.or_eq_false_iff, decide_eq_false_iff_not, Nat.not_lt] at hno
    exact ⟨gen, hgen, hno.2, hno.1⟩
  · cases hno

/-- No generator that a check completes can run, and none waits for one that is not among
them. -/
theorem Wired.stuck {X D : Nat → Prop} (h : s.Wired X D) (roots : List Nat) :
    s.Stuck fun g => g ∈ s.dead roots := by
  obtain ⟨-, hreach⟩ := s.reachable_spec roots
  obtain ⟨hrun, hspread⟩ := s.liveAmong_spec (s.reachable roots)
  have hdead : ∀ g, g ∈ s.dead roots ↔ (s.reachable roots).contains g = true ∧
      (s.liveAmong (s.reachable roots)).contains g = false := by
    intro g
    unfold dead
    rw [List.mem_filter, ← IdSet.contains_iff, Bool.not_eq_true']
  intro g hg
  obtain ⟨hall, hlive⟩ := (hdead g).1 hg
  obtain ⟨hinc, hwaits⟩ := hreach g hall
  obtain ⟨gen, hgen, hcomplete⟩ := isIncomplete_iff.1 hinc
  have hstop : s.canRun g = false := by
    by_contra hcan
    rw [hrun g hall (by simpa using hcan)] at hlive
    cases hlive
  unfold canRun at hstop
  rw [hgen] at hstop
  simp only [Bool.or_eq_false_iff, List.any_eq_false] at hstop
  refine ⟨gen, hgen, hcomplete, hstop.1, fun c hc k hk hs => ?_⟩
  obtain ⟨read, hread, hrc, hsize⟩ := of_not_ready hk hs (by simpa using hstop.2 c hc)
  refine ⟨(hdead _).2 ⟨?_, ?_⟩, read, hread, hrc, hsize⟩
  · refine hwaits _ ?_ (isIncomplete_iff.2 ⟨read, hread, hrc⟩)
    unfold waitsFor
    rw [hgen]
    exact List.mem_filterMap.2 ⟨c, hc, by rw [hk]; rfl⟩
  · -- were it live, so would be the generator that reads from it
    by_contra hno
    have hlive' := hspread k.generator (by simpa using hno) g ?_ hall
    · rw [hlive'] at hlive
      cases hlive
    · obtain ⟨read', hread', hmem⟩ := h.reader hk
      unfold readersOf
      rw [hread']
      refine List.mem_filterMap.2 ⟨c, hmem, ?_⟩
      rw [hk]
      simp [(h.listed hgen hc).2 k hk]

/-- Where nothing can run, what is reached is completed. -/
theorem mem_dead_of_idle {roots : List Nat} {g : Nat} (h : ∀ g, s.canRun g = false)
    (hg : g ∈ roots) (hinc : s.isIncomplete g = true) : g ∈ s.dead roots := by
  unfold dead
  rw [liveAmong_of_idle h]
  refine List.mem_filter.2 ⟨?_, rfl⟩
  exact (IdSet.contains_iff _ g).1 ((s.reachable_spec roots).1 g hg hinc)

/-! ## What is completed -/

theorem done_completeAll (event : Triple → Nat → Event) (gs : List Nat) {g : Nat}
    {gen : Generator} (hgen : s.generators[g]? = some gen) (hg : g ∈ gs) :
    (gs.foldl (complete event) s).Done (.generator g) := by
  induction gs generalizing s gen with
  | nil => cases hg
  | cons d gs ih =>
    rw [List.foldl_cons]
    rcases List.mem_cons.1 hg with rfl | hg
    · exact (spares_completeAll event gs _ fun _ => False).done (done_complete event hgen)
    · obtain ⟨gen', h1, -⟩ := (spares_complete event s d fun _ => False).generator hgen
      exact ih h1 hg

theorem wakeReaders_generators (s : Session) (g : Nat) :
    (s.wakeReaders g).generators = s.generators := by
  unfold Session.wakeReaders
  split
  · exact (fields_wakeAll _ s).1
  · rfl

theorem look_removeAll (owned : List (Nat × Consumer)) (s : Session) {g : Nat} {gen' : Generator}
    (h : (s.removeAll owned).generators[g]? = some gen') :
    ∃ gen : Generator, s.generators[g]? = some gen ∧ gen'.complete = gen.complete := by
  induction owned generalizing s with
  | nil => exact ⟨gen', h, rfl⟩
  | cons p owned ih =>
    obtain ⟨gen1, h1, e1⟩ := ih (s.removeConsumer p.1) h
    obtain ⟨gen, hgen, hspares⟩ := s.look_removeConsumer p.1 h1
    exact ⟨gen, hgen, e1.trans hspares.complete⟩

/-- A generator that is complete was so before, or has been completed. -/
theorem of_complete_complete (event : Triple → Nat → Event) {g g' : Nat}
    {gen' : Generator} (h : (s.complete event g).generators[g']? = some gen')
    (hc : gen'.complete = true) :
    g' = g ∨ ∃ gen : Generator, s.generators[g']? = some gen ∧ gen.complete = true := by
  rcases s.complete_cases event g with e | ⟨gen, hgen, hinc⟩
  · rw [e] at h
    exact .inr ⟨gen', h, hc⟩
  · rw [complete_eq event hgen hinc, wakeReaders_generators] at h
    obtain ⟨gen1, h1, e1⟩ := look_removeAll _ _ h
    change (s.finish g).generators[g']? = some gen1 at h1
    rw [finish, generators_modifyGenerator] at h1
    split at h1
    · next e => exact .inl e.symm
    · exact .inr ⟨gen1, h1, e1 ▸ hc⟩

/-- No consumer is new when a generator is completed. -/
theorem consumer_complete (event : Triple → Nat → Event) (s : Session) (g : Nat) {c : Nat}
    {k' : Consumer} (h : (s.complete event g).consumers[c]? = some k') :
    ∃ k : Consumer, s.consumers[c]? = some k ∧ k.Same k' := by
  rcases s.complete_cases event g with e | ⟨gen, hgen, hinc⟩
  · rw [e] at h
    exact ⟨k', h, .refl k'⟩
  · rw [complete_eq event hgen hinc] at h
    obtain ⟨k, hk, hk'⟩ := consumer_wakeReaders _ g h
    rw [consumers_removeAll] at hk
    split at hk
    · cases hk
    · refine ⟨k, hk, ?_⟩
      rcases hk' with rfl | rfl
      · exact .refl _
      · obtain ⟨h1, h2, h3, h4, -⟩ := k.woken_same
        exact ⟨h1, h2, h3, h4⟩

/-! ## Nothing left to do -/

/-- Every generator has run, and its consumers that wait have read all that there is. -/
structure Spent (s : Session) : Prop where
  ran : ∀ {g : Nat} {gen : Generator}, s.generators[g]? = some gen → gen.ready = false
  read : ∀ {c : Nat} {k : Consumer} {z : Nat} {gen : Generator}, s.consumers[c]? = some k →
    k.owner = .generator z → k.suspended = true → s.generators[k.generator]? = some gen →
    gen.results.size ≤ k.read

theorem Spent.complete {X D : Nat → Prop} (h : s.Spent) (hs : s.Wired X D)
    (event : Triple → Nat → Event) (g : Nat) : (s.complete event g).Spent := by
  refine ⟨fun {g' gen'} hg => ?_, fun {c k' z gen'} hc ho hsusp hg => ?_⟩
  · obtain ⟨gen, hgen, -⟩ := (s.sameTables_complete event g).generator hg
    obtain ⟨gen1, h1, hfollows⟩ := (s.spares_complete event g fun _ => False).generator hgen
    cases hg.symm.trans h1
    rcases (hfollows.idle id).2 with hcomplete | ⟨-, hready⟩
    · by_contra hr
      rw [((hs.complete event g).start hg (by simpa using hr)).1] at hcomplete
      cases hcomplete
    · exact hready.trans (h.ran hgen)
  · obtain ⟨k, hk, hsame⟩ := consumer_complete event s g hc
    obtain ⟨gen, hgen, -, hresults, -⟩ := (s.sameTables_complete event g).generator hg
    rw [hsame.generator] at hgen
    rw [hresults, hsame.read]
    exact h.read hk (hsame.owner.symm.trans ho) (hsame.suspended.symm.trans hsusp) hgen

theorem Spent.completeAll {X D : Nat → Prop} (h : s.Spent) (hs : s.Wired X D)
    (event : Triple → Nat → Event) (gs : List Nat) :
    (gs.foldl (Session.complete event) s).Spent := by
  induction gs generalizing s with
  | nil => exact h
  | cons g gs ih => exact ih (h.complete hs event g) (hs.complete event g)

/-- Where the agenda is empty, nothing can run. -/
theorem Wired.spent {D : Nat → Prop} (h : s.Wired (fun _ => False) D)
    (hagenda : s.agenda.toList = []) : s.Spent ∧ ∀ g, s.canRun g = false := by
  have hran : ∀ {g : Nat} {gen : Generator}, s.generators[g]? = some gen → gen.ready = false := by
    intro g gen hg
    by_contra hr
    have := (h.start hg (by simpa using hr)).2
    rw [hagenda] at this
    cases this
  have hasleep : ∀ {c : Nat} {k : Consumer} {z : Nat} {gen : Generator}, s.consumers[c]? = some k →
      k.owner = .generator z → k.suspended = true → s.generators[k.generator]? = some gen →
      ¬ (k.read < gen.results.size ∨ gen.complete = true) := by
    intro c k z gen hc ho hs hg hunread
    rcases h.woken hc ho hs hg hunread with hsched | hno
    · have := h.resume hc hsched
      rw [hagenda] at this
      cases this
    · exact hno
  refine ⟨⟨hran, fun hc ho hs hg => ?_⟩, fun g => ?_⟩
  · have := hasleep hc ho hs hg
    omega
  · unfold canRun
    split
    · next gen hg =>
      simp only [hran hg, Bool.false_or, List.any_eq_false]
      intro c hc hready
      obtain ⟨k, hk, hs, hunread⟩ := isReady_iff.1 hready
      obtain ⟨read, hread, -⟩ := h.reader hk
      exact hasleep hk ((h.listed hg hc).2 k hk) hs hread (hunread read hread)
    · rfl

/-! ## Queries that can go on -/

/-- A query that can go on still can after what spares it. -/
theorem Wired.queryReady {X D X' D' : Nat → Prop} {o : Owner → Prop} {s' : Session} {q : Nat}
    (h : s.Wired X D) (h' : s'.Wired X' D') (hs : s.Spares o s') (ho : ¬ o (.query q))
    (hopen : s.Works (.query q)) (hready : s.queryReady q = true) : s'.queryReady q = true := by
  obtain ⟨waiting, hw⟩ := hopen
  obtain ⟨waiting', hw'⟩ := Option.isSome_iff_exists.1 (hs.query (by rw [hw]; rfl) ho)
  unfold Session.queryReady at hready ⊢
  rw [hw] at hready
  rw [hw']
  obtain ⟨c, hc, hcready⟩ := List.any_eq_true.1 hready
  obtain ⟨k, hk, howner, hsusp⟩ := h.waiter hw hc
  obtain ⟨k0, hk0, -, hunread⟩ := isReady_iff.1 hcready
  cases hk.symm.trans hk0
  rcases hs.consumer hk (howner ▸ ho) with hdone | ⟨k', hk', hsame⟩
  · rw [howner] at hdone
    cases hdone.2.symm.trans hw'
  · obtain ⟨w, hw1, hmem⟩ := h'.asker hk' (hsame.owner.trans howner)
    cases hw1.symm.trans hw'
    obtain ⟨gen, hgen, -⟩ := h.reader hk
    obtain ⟨gen', hgen', hfollows⟩ := hs.generator hgen
    refine List.any_eq_true.2 ⟨c, hmem (hsame.suspended.trans hsusp), isReady_iff.2
      ⟨k', hk', hsame.suspended.trans hsusp, fun gen1 hgen1 => ?_⟩⟩
    rw [hsame.generator] at hgen1
    cases hgen'.symm.trans hgen1
    rw [hsame.read]
    refine (hunread gen hgen).imp (fun hlt => ?_) hfollows.complete
    have := hfollows.results.length_le
    rw [← Index.size_eq, ← Index.size_eq] at this
    omega

/-- A query whose table is complete can go on. -/
theorem Wired.queryReady_of_done {X D : Nat → Prop} {c q : Nat} {k : Consumer} (h : s.Wired X D)
    (hk : s.consumers[c]? = some k) (ho : k.owner = .query q) (hsusp : k.suspended = true)
    (hdone : s.Done (.generator k.generator)) : s.queryReady q = true := by
  obtain ⟨waiting, hw, hmem⟩ := h.asker hk ho
  unfold Session.queryReady
  rw [hw]
  refine List.any_eq_true.2 ⟨c, hmem hsusp, isReady_iff.2 ⟨k, hk, hsusp, fun gen hgen => ?_⟩⟩
  obtain ⟨gen', hgen', hcomplete⟩ := hdone
  cases hgen'.symm.trans hgen
  exact .inr hcomplete

theorem Wired.mem_blockedOn {X D : Nat → Prop} {c q : Nat} {k : Consumer} (h : s.Wired X D)
    (hk : s.consumers[c]? = some k) (ho : k.owner = .query q) (hsusp : k.suspended = true) :
    k.generator ∈ s.blockedOn q := by
  obtain ⟨waiting, hw, hmem⟩ := h.asker hk ho
  unfold blockedOn blocked
  rw [Std.TreeMap.getD_eq_getD_getElem?, hw]
  exact List.mem_filterMap.2 ⟨c, hmem hsusp, by rw [hk]; rfl⟩

end Session

end TabledRules
