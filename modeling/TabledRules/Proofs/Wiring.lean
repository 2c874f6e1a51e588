-- The bookkeeping of a session. What is written down in two places agrees:
-- readers and the tables they read, waiting consumers and the machines that
-- wait, and what can go on stands on the agenda.
import TabledRules.Proofs.SoundTables

namespace TabledRules

namespace Session

/-! ## What agrees -/

/-- The lists of a session agree with its consumers, and what can go on is on the agenda.
`X` has the tables whose readers are yet to be woken, and `D` those whose own consumers are
yet to be given up. -/
structure Wired (X D : Nat → Prop) (s : Session) : Prop where
  generator_lt : ∀ {g : Nat} {gen : Generator}, s.generators[g]? = some gen → g < s.nextId
  consumer_lt : ∀ {c : Nat} {k : Consumer}, s.consumers[c]? = some k → c < s.nextId
  query_lt : ∀ {q : Nat} {waiting : List Nat}, s.queries[q]? = some waiting → q < s.nextId
  reader : ∀ {c : Nat} {k : Consumer}, s.consumers[c]? = some k →
    ∃ gen : Generator, s.generators[k.generator]? = some gen ∧ c ∈ gen.consumers
  worker : ∀ {c : Nat} {k : Consumer} {z : Nat}, s.consumers[c]? = some k →
    k.owner = .generator z → D z ∨ ∃ gen : Generator, s.generators[z]? = some gen ∧
      gen.complete = false ∧ (k.suspended = true → c ∈ gen.generating)
  asker : ∀ {c : Nat} {k : Consumer} {q : Nat}, s.consumers[c]? = some k → k.owner = .query q →
    ∃ waiting : List Nat, s.queries[q]? = some waiting ∧ (k.suspended = true → c ∈ waiting)
  waiter : ∀ {q c : Nat} {waiting : List Nat}, s.queries[q]? = some waiting → c ∈ waiting →
    ∃ k : Consumer, s.consumers[c]? = some k ∧ k.owner = .query q ∧ k.suspended = true
  nodup : ∀ {q : Nat} {waiting : List Nat}, s.queries[q]? = some waiting → waiting.Nodup
  start : ∀ {g : Nat} {gen : Generator}, s.generators[g]? = some gen → gen.ready = true →
    gen.complete = false ∧ .start g ∈ s.agenda.toList
  resume : ∀ {c : Nat} {k : Consumer}, s.consumers[c]? = some k → k.scheduled = true →
    .resume c ∈ s.agenda.toList
  woken : ∀ {c : Nat} {k : Consumer} {z : Nat} {gen : Generator}, s.consumers[c]? = some k →
    k.owner = .generator z → k.suspended = true → s.generators[k.generator]? = some gen →
    k.read < gen.results.size ∨ gen.complete = true → k.scheduled = true ∨ X k.generator
  listed : ∀ {g c : Nat} {gen : Generator}, s.generators[g]? = some gen → c ∈ gen.generating →
    c < s.nextId ∧ ∀ k : Consumer, s.consumers[c]? = some k → k.owner = .generator g
  reads : ∀ {g c : Nat} {gen : Generator}, s.generators[g]? = some gen → c ∈ gen.consumers →
    c < s.nextId ∧ ∀ k : Consumer, s.consumers[c]? = some k → k.generator = g

variable {X Y D E : Nat → Prop} {s s' : Session} {g c q : Nat}

theorem isReady_iff : s.isReady c = true ↔ ∃ k : Consumer, s.consumers[c]? = some k ∧
    k.suspended = true ∧ ∀ gen : Generator, s.generators[k.generator]? = some gen →
      k.read < gen.results.size ∨ gen.complete = true := by
  unfold isReady
  cases hc : s.consumers[c]? with
  | none => simp
  | some k =>
    cases hg : s.generators[k.generator]? with
    | none => simp [hg]
    | some gen => simp [hg]

theorem Wired.mono (h : s.Wired X D) (hXY : ∀ g, X g → Y g) (hDE : ∀ g, D g → E g) :
    s.Wired Y E :=
  { h with
    worker := fun h1 h2 => (h.worker h1 h2).imp_left (hDE _)
    woken := fun h1 h2 h3 h4 h5 => (h.woken h1 h2 h3 h4 h5).imp_right (hXY _) }

/-- Where no consumer of a generator is left, none is to be given up. -/
theorem Wired.gone (h : s.Wired X D)
    (hE : ∀ {c : Nat} {k : Consumer} {z : Nat}, s.consumers[c]? = some k →
      k.owner = .generator z → D z → E z) : s.Wired X E :=
  { h with worker := fun h1 h2 => (h.worker h1 h2).imp_left (hE h1 h2) }

theorem Wired.noted (h : s.Wired X D) (hs : s.Noted s') : s'.Wired X D := by
  obtain ⟨j, p, rfl⟩ := hs
  exact { h with }

theorem Wired.note (h : s.Wired X D) (e : Event) : (s.note e).Wired X D := h.noted (s.noted_note e)

/-- A session without tables and queries has nothing that could disagree. -/
theorem Wired.of_empty (hg : s.generators = ∅) (hc : s.consumers = ∅) (hq : s.queries = ∅) :
    s.Wired X D := by
  have nogen : ∀ {g : Nat} {gen : Generator}, s.generators[g]? = some gen → False := by
    intro g gen h
    rw [hg] at h
    cases h.symm.trans Std.TreeMap.getElem?_emptyc
  have nocons : ∀ {c : Nat} {k : Consumer}, s.consumers[c]? = some k → False := by
    intro c k h
    rw [hc] at h
    cases h.symm.trans Std.TreeMap.getElem?_emptyc
  have noquery : ∀ {q : Nat} {waiting : List Nat}, s.queries[q]? = some waiting → False := by
    intro q waiting h
    rw [hq] at h
    cases h.symm.trans Std.TreeMap.getElem?_emptyc
  exact ⟨fun h => (nogen h).elim, fun h => (nocons h).elim, fun h => (noquery h).elim,
    fun h => (nocons h).elim, fun h => (nocons h).elim, fun h => (nocons h).elim,
    fun h => (noquery h).elim, fun h => (noquery h).elim, fun h => (nogen h).elim,
    fun h => (nocons h).elim, fun h => (nocons h).elim, fun h => (nogen h).elim,
    fun h => (nogen h).elim⟩

/-! ## Generators that change -/

/-- Consumers that exist stay on the lists of a changed generator. Its readers are woken
later if it has more for them. -/
theorem Wired.modifyGenerator (h : s.Wired X D) {f : Generator → Generator}
    (hconsumers : ∀ gen c k, s.generators[g]? = some gen → s.consumers[c]? = some k →
      c ∈ gen.consumers → c ∈ (f gen).consumers)
    (hgenerating : ∀ gen c k, s.generators[g]? = some gen → s.consumers[c]? = some k →
      k.suspended = true → c ∈ gen.generating → c ∈ (f gen).generating ∨ D g)
    (hready : ∀ gen, s.generators[g]? = some gen → (f gen).ready = true → gen.ready = true)
    (hcomplete : ∀ gen, s.generators[g]? = some gen → (f gen).complete = gen.complete ∨
      D g ∧ X g ∧ (f gen).ready = false)
    (hresults : ∀ gen, s.generators[g]? = some gen → (f gen).results = gen.results ∨ X g)
    (hlisted : ∀ gen c, s.generators[g]? = some gen → c ∈ (f gen).generating →
      c ∈ gen.generating ∨ ∃ k, s.consumers[c]? = some k ∧ k.owner = .generator g)
    (hreads : ∀ gen c, c ∈ (f gen).consumers → c ∈ gen.consumers) :
    (s.modifyGenerator g f).Wired X D := by
  have look : ∀ {g' : Nat} {gen' : Generator},
      (s.modifyGenerator g f).generators[g']? = some gen' →
      ∃ gen : Generator, s.generators[g']? = some gen ∧
        (gen' = gen ∨ g = g' ∧ gen' = f gen) := by
    intro g' gen' hg'
    rw [generators_modifyGenerator] at hg'
    split at hg'
    · next e =>
      subst e
      obtain ⟨gen, hgen, rfl⟩ := Option.map_eq_some_iff.1 hg'
      exact ⟨gen, hgen, .inr ⟨rfl, rfl⟩⟩
    · exact ⟨gen', hg', .inl rfl⟩
  have find : ∀ {g' : Nat} {gen : Generator}, s.generators[g']? = some gen →
      (s.modifyGenerator g f).generators[g']? = some (if g = g' then f gen else gen) := by
    intro g' gen hgen
    rw [generators_modifyGenerator]
    split
    · next e =>
      subst e
      rw [hgen]
      rfl
    · exact hgen
  refine ⟨fun hg' => ?_, h.consumer_lt, h.query_lt, fun {c k} hc => ?_, fun {c k z} hc ho => ?_,
    h.asker, h.waiter, h.nodup, fun hg' hr => ?_, h.resume,
    fun {c k z gen'} hc ho hsusp hg' hunread => ?_, fun {g' c gen'} hg' hm => ?_,
    fun hg' hm => ?_⟩
  · obtain ⟨gen, hgen, -⟩ := look hg'
    exact h.generator_lt hgen
  · obtain ⟨gen, hgen, hmem⟩ := h.reader hc
    refine ⟨_, find hgen, ?_⟩
    split
    · next e =>
      subst e
      exact hconsumers gen c k hgen hc hmem
    · exact hmem
  · rcases h.worker hc ho with hD | ⟨gen, hgen, hinc, hmem⟩
    · exact .inl hD
    · by_cases e : g = z
      · subst e
        rcases hcomplete gen hgen with hsame | ⟨hD, -⟩
        · by_cases hD : D g
          · exact .inl hD
          · refine .inr ⟨_, find hgen, ?_⟩
            rw [if_pos rfl]
            exact ⟨hsame.trans hinc, fun hs =>
              (hgenerating gen c k hgen hc hs (hmem hs)).resolve_right hD⟩
        · exact .inl hD
      · refine .inr ⟨_, find hgen, ?_⟩
        rw [if_neg e]
        exact ⟨hinc, hmem⟩
  · obtain ⟨gen, hgen, rfl | ⟨rfl, rfl⟩⟩ := look hg'
    · exact h.start hgen hr
    · obtain ⟨h1, h2⟩ := h.start hgen (hready gen hgen hr)
      rcases hcomplete gen hgen with hsame | ⟨-, -, hno⟩
      · exact ⟨hsame.trans h1, h2⟩
      · rw [hno] at hr
        cases hr
  · obtain ⟨gen, hgen, rfl | ⟨e, rfl⟩⟩ := look hg'
    · exact h.woken hc ho hsusp hgen hunread
    · rcases hresults gen (e ▸ hgen) with hsame | hX
      · rcases hcomplete gen (e ▸ hgen) with hc' | ⟨-, hX, -⟩
        · rw [hsame, hc'] at hunread
          exact h.woken hc ho hsusp hgen hunread
        · exact .inr (e ▸ hX)
      · exact .inr (e ▸ hX)
  · obtain ⟨gen, hgen, rfl | ⟨rfl, rfl⟩⟩ := look hg'
    · exact h.listed hgen hm
    · rcases hlisted gen c hgen hm with hm | ⟨k, hk, ho⟩
      · exact h.listed hgen hm
      · refine ⟨h.consumer_lt hk, fun k' hk' => ?_⟩
        cases hk.symm.trans hk'
        exact ho
  · obtain ⟨gen, hgen, rfl | ⟨rfl, rfl⟩⟩ := look hg'
    · exact h.reads hgen hm
    · exact h.reads hgen (hreads gen _ hm)

/-! ## Consumers that change -/

/-- A consumer of a generator's machine stands on the list of those that wait, and has read
all there is. -/
def Parks (s : Session) (c : Nat) (k : Consumer) : Prop :=
  (∃ z, k.owner = .generator z ∧
    ∀ gen : Generator, s.generators[z]? = some gen → c ∈ gen.generating) ∧
  ∀ gen : Generator, s.generators[k.generator]? = some gen →
    gen.results.size ≤ k.read ∧ gen.complete = false

/-- A consumer that is not woken or scheduled anew. If it is suspended anew, it has nothing
to read. -/
theorem Wired.modifyConsumer (h : s.Wired X D) {f : Consumer → Consumer}
    (hsame : ∀ k, (f k).generator = k.generator ∧ (f k).owner = k.owner)
    (hsusp : ∀ k, s.consumers[c]? = some k → (f k).suspended = true →
      (f k).read = k.read ∧ (k.suspended = true ∨ s.Parks c k))
    (hsched : ∀ k, s.consumers[c]? = some k → (f k).scheduled = true →
      .resume c ∈ s.agenda.toList)
    (hwaits : ∀ k q, s.consumers[c]? = some k → k.owner = .query q → k.suspended = true →
      (f k).suspended = true ∨ ∀ waiting, s.queries[q]? = some waiting → c ∉ waiting)
    (hwoken : ∀ k z, s.consumers[c]? = some k → k.owner = .generator z → (f k).suspended = true →
      k.scheduled = true → (f k).scheduled = true ∨ s.isReady c = false) :
    (s.modifyConsumer c f).Wired X D := by
  have look : ∀ {c' : Nat} {k' : Consumer}, (s.modifyConsumer c f).consumers[c']? = some k' →
      ∃ k : Consumer, s.consumers[c']? = some k ∧ (k' = k ∨ c = c' ∧ k' = f k) := by
    intro c' k' hc'
    rw [consumers_modifyConsumer] at hc'
    split at hc'
    · next e =>
      subst e
      obtain ⟨k, hk, rfl⟩ := Option.map_eq_some_iff.1 hc'
      exact ⟨k, hk, .inr ⟨rfl, rfl⟩⟩
    · exact ⟨k', hc', .inl rfl⟩
  refine ⟨h.generator_lt, fun hc => ?_, h.query_lt, fun hc => ?_, fun hc ho => ?_, fun hc ho => ?_,
    fun {q c' waiting} hq hmem => ?_, h.nodup, h.start, fun hc hs => ?_,
    fun {c' k' z gen} hc ho hs hg hunread => ?_, fun hg hm => ?_, fun hg hm => ?_⟩
  · obtain ⟨k, hk, -⟩ := look hc
    exact h.consumer_lt hk
  · obtain ⟨k, hk, rfl | ⟨rfl, rfl⟩⟩ := look hc
    · exact h.reader hk
    · rw [(hsame k).1]
      exact h.reader hk
  · obtain ⟨k, hk, rfl | ⟨rfl, rfl⟩⟩ := look hc
    · exact h.worker hk ho
    · rw [(hsame k).2] at ho
      refine (h.worker hk ho).imp_right ?_
      rintro ⟨gen, h1, h2, h3⟩
      refine ⟨gen, h1, h2, fun hs => ?_⟩
      rcases (hsusp k hk hs).2 with hs' | ⟨⟨z', ho', hmem⟩, -⟩
      · exact h3 hs'
      · cases ho.symm.trans ho'
        exact hmem gen h1
  · obtain ⟨k, hk, rfl | ⟨rfl, rfl⟩⟩ := look hc
    · exact h.asker hk ho
    · rw [(hsame k).2] at ho
      obtain ⟨waiting, h1, h2⟩ := h.asker hk ho
      refine ⟨waiting, h1, fun hs => ?_⟩
      rcases (hsusp k hk hs).2 with hs' | ⟨⟨z', ho', -⟩, -⟩
      · exact h2 hs'
      · cases ho.symm.trans ho'
  · obtain ⟨k, hk, ho, hs⟩ := h.waiter hq hmem
    by_cases e : c = c'
    · subst e
      refine ⟨f k, by rw [consumers_modifyConsumer, if_pos rfl, hk]; rfl,
        (hsame k).2.trans ho, ?_⟩
      rcases hwaits k q hk ho hs with h1 | h1
      · exact h1
      · exact absurd hmem (h1 waiting hq)
    · exact ⟨k, by rw [consumers_modifyConsumer, if_neg e, hk], ho, hs⟩
  · obtain ⟨k, hk, rfl | ⟨rfl, rfl⟩⟩ := look hc
    · exact h.resume hk hs
    · exact hsched k hk hs
  · obtain ⟨k, hk, rfl | ⟨rfl, rfl⟩⟩ := look hc
    · exact h.woken hk ho hs hg hunread
    · obtain ⟨hread, hs'⟩ := hsusp k hk hs
      rw [(hsame k).1] at hg ⊢
      rw [hread] at hunread
      rcases hs' with hs' | ⟨-, hnone⟩
      · have ho' := (hsame k).2.symm.trans ho
        rcases h.woken hk ho' hs' hg hunread with h1 | h1
        · rcases hwoken k z hk ho' hs h1 with h2 | h2
          · exact .inl h2
          · have : s.isReady c = true := isReady_iff.2 ⟨k, hk, hs', fun gen' hgen' => by
              cases hg.symm.trans hgen'
              exact hunread⟩
            rw [this] at h2
            cases h2
        · exact .inr h1
      · obtain ⟨h1, h2⟩ := hnone gen hg
        rw [h2] at hunread
        rcases hunread with hlt | hno
        · exact absurd hlt (Nat.not_lt.2 h1)
        · cases hno
  · obtain ⟨hlt, howns⟩ := h.listed hg hm
    refine ⟨hlt, fun k' hc => ?_⟩
    obtain ⟨k, hk, rfl | ⟨rfl, rfl⟩⟩ := look hc
    · exact howns _ hk
    · exact (hsame k).2.trans (howns _ hk)
  · obtain ⟨hlt, hreads⟩ := h.reads hg hm
    refine ⟨hlt, fun k' hc => ?_⟩
    obtain ⟨k, hk, rfl | ⟨rfl, rfl⟩⟩ := look hc
    · exact hreads _ hk
    · exact (hsame k).1.trans (hreads _ hk)

/-- A consumer of a query that goes on or off the list of those that wait. -/
theorem Wired.relist (h : s.Wired X D) {k : Consumer} (hk : s.consumers[c]? = some k)
    (ho : k.owner = .query q) (suspended : Bool) {l : List Nat → List Nat}
    (hmem : ∀ waiting d, s.queries[q]? = some waiting →
      (d ∈ l waiting ↔ if d = c then suspended = true else d ∈ waiting))
    (hnodup : ∀ waiting, s.queries[q]? = some waiting → (l waiting).Nodup) :
    ({ s.modifyConsumer c fun k => { k with suspended } with
      queries := s.queries.modify q l } : Session).Wired X D := by
  have cons : ∀ {c' : Nat} {k' : Consumer},
      (s.modifyConsumer c fun k => { k with suspended }).consumers[c']? = some k' →
      c' = c ∧ k' = { k with suspended } ∨ c' ≠ c ∧ s.consumers[c']? = some k' := by
    intro c' k' hc'
    rw [consumers_modifyConsumer] at hc'
    split at hc'
    · next e =>
      subst e
      rw [hk] at hc'
      cases hc'
      exact .inl ⟨rfl, rfl⟩
    · next e => exact .inr ⟨Ne.symm e, hc'⟩
  have lists : ∀ q' : Nat, (s.queries.modify q l)[q']? =
      if q = q' then (s.queries[q]?).map l else s.queries[q']? := by
    intro q'
    simp only [Std.TreeMap.getElem?_modify, Std.LawfulEqCmp.compare_eq_iff_eq]
  refine ⟨h.generator_lt, fun hc => ?_, fun {q' waiting} hq => ?_, fun hc => ?_, fun hc hz => ?_,
    fun {c' k' q'} hc hz => ?_, fun {q' d waiting} hq hm => ?_, fun {q' waiting} hq => ?_, h.start,
    fun hc hs => ?_, fun {c' k' z gen} hc hz hs hg hunread => ?_, fun hg hm => ?_,
    fun hg hm => ?_⟩
  · rcases cons hc with ⟨rfl, -⟩ | ⟨-, hc⟩
    · exact h.consumer_lt hk
    · exact h.consumer_lt hc
  · rw [lists] at hq
    split at hq
    · next e =>
      subst e
      obtain ⟨w, hw, -⟩ := Option.map_eq_some_iff.1 hq
      exact h.query_lt hw
    · exact h.query_lt hq
  · rcases cons hc with ⟨rfl, rfl⟩ | ⟨-, hc⟩
    · exact h.reader (k := k) hk
    · exact h.reader hc
  · rcases cons hc with ⟨rfl, rfl⟩ | ⟨-, hc⟩
    · cases ho.symm.trans hz
    · exact h.worker hc hz
  · rw [lists]
    rcases cons hc with ⟨rfl, rfl⟩ | ⟨hne, hc⟩
    · cases ho.symm.trans hz
      obtain ⟨waiting, hw, -⟩ := h.asker hk ho
      refine ⟨l waiting, by rw [if_pos rfl, hw]; rfl, fun hs => ?_⟩
      rw [hmem waiting _ hw, if_pos rfl]
      exact hs
    · obtain ⟨waiting, hw, hwaits⟩ := h.asker hc hz
      split
      · next e =>
        subst e
        refine ⟨l waiting, by rw [hw]; rfl, fun hs => ?_⟩
        rw [hmem waiting _ hw, if_neg hne]
        exact hwaits hs
      · exact ⟨waiting, hw, hwaits⟩
  · rw [lists] at hq
    have other : ∀ {waiting : List Nat}, s.queries[q']? = some waiting → d ∈ waiting → d ≠ c →
        ∃ k', (s.modifyConsumer c fun k => { k with suspended }).consumers[d]? = some k' ∧
          k'.owner = .query q' ∧ k'.suspended = true := by
      intro waiting hw hm hne
      obtain ⟨k', hk', hrest⟩ := h.waiter hw hm
      exact ⟨k', by rw [consumers_modifyConsumer, if_neg (Ne.symm hne), hk'], hrest⟩
    split at hq
    · next e =>
      subst e
      obtain ⟨w, hw, rfl⟩ := Option.map_eq_some_iff.1 hq
      rw [hmem w d hw] at hm
      split at hm
      · next e =>
        subst e
        refine ⟨{ k with suspended }, ?_, ho, hm⟩
        rw [consumers_modifyConsumer, if_pos rfl, hk]
        rfl
      · next e => exact other hw hm e
    · next e =>
      refine other hq hm ?_
      rintro rfl
      obtain ⟨k', hk', ho', -⟩ := h.waiter hq hm
      cases hk.symm.trans hk'
      cases ho.symm.trans ho'
      exact e rfl
  · rw [lists] at hq
    split at hq
    · obtain ⟨w, hw, rfl⟩ := Option.map_eq_some_iff.1 hq
      exact hnodup w hw
    · exact h.nodup hq
  · rcases cons hc with ⟨rfl, rfl⟩ | ⟨-, hc⟩
    · exact h.resume hk hs
    · exact h.resume hc hs
  · rcases cons hc with ⟨rfl, rfl⟩ | ⟨-, hc⟩
    · cases ho.symm.trans hz
    · exact h.woken hc hz hs hg hunread
  · obtain ⟨hlt, howns⟩ := h.listed hg hm
    refine ⟨hlt, fun k' hc => ?_⟩
    rcases cons hc with ⟨rfl, rfl⟩ | ⟨-, hc⟩
    · exact howns k hk
    · exact howns _ hc
  · obtain ⟨hlt, hreads⟩ := h.reads hg hm
    refine ⟨hlt, fun k' hc => ?_⟩
    rcases cons hc with ⟨rfl, rfl⟩ | ⟨-, hc⟩
    · exact hreads k hk
    · exact hreads _ hc

/-- Only what is found counts. -/
theorem Wired.congr (h : s.Wired X D) (hid : s'.nextId = s.nextId)
    (hgen : ∀ g : Nat, s'.generators[g]? = s.generators[g]?)
    (hcons : ∀ c : Nat, s'.consumers[c]? = s.consumers[c]?)
    (hquery : ∀ q : Nat, s'.queries[q]? = s.queries[q]?)
    (hagenda : s'.agenda.toList = s.agenda.toList) : s'.Wired X D := by
  refine ⟨?_, ?_, ?_, ?_, ?_, ?_, ?_, ?_, ?_, ?_, ?_, ?_, ?_⟩ <;>
    simp only [hid, hgen, hcons, hquery, hagenda]
  · exact h.generator_lt
  · exact h.consumer_lt
  · exact h.query_lt
  · exact h.reader
  · exact h.worker
  · exact h.asker
  · exact h.waiter
  · exact h.nodup
  · exact h.start
  · exact h.resume
  · exact h.woken
  · exact h.listed
  · exact h.reads

/-! ## Waking readers -/

theorem Wired.schedule (h : s.Wired X D) (task : Task) : (s.schedule task).Wired X D :=
  { h with
    start := fun hg hr => by
      obtain ⟨h1, h2⟩ := h.start hg hr
      refine ⟨h1, ?_⟩
      rw [show (s.schedule task).agenda = s.agenda.push task from rfl, Queue.toList_push]
      exact List.mem_append_left _ h2
    resume := fun hc hs => by
      rw [show (s.schedule task).agenda = s.agenda.push task from rfl, Queue.toList_push]
      exact List.mem_append_left _ (h.resume hc hs) }

theorem Wired.wake (h : s.Wired X D) (c : Nat) : (s.wake c).Wired X D := by
  unfold Session.wake
  split
  · refine Wired.modifyConsumer (s := s.schedule (.resume c)) (h.schedule (.resume c))
      (fun _ => ⟨rfl, rfl⟩) (fun _ _ hs => ⟨rfl, .inl hs⟩) (fun _ _ _ => ?_) (fun _ _ _ _ hs => .inl hs)
      (fun _ _ _ _ _ _ => .inl rfl)
    rw [show (s.schedule (.resume c)).agenda = s.agenda.push (.resume c) from rfl,
      Queue.toList_push]
    exact List.mem_append_right _ List.mem_cons_self
  · exact h

end Session

/-- A suspended consumer of a generator's machine. -/
def Consumer.waits (k : Consumer) : Bool :=
  k.suspended &&
    match k.owner with
    | .generator _ => true
    | .query _ => false

/-- The consumer stands on the agenda if it waits. -/
def Consumer.woken (k : Consumer) : Consumer := if k.waits then { k with scheduled := true } else k

theorem Consumer.woken_same (k : Consumer) : k.woken.generator = k.generator ∧
    k.woken.owner = k.owner ∧ k.woken.read = k.read ∧ k.woken.suspended = k.suspended ∧
    (k.scheduled = true → k.woken.scheduled = true) := by
  unfold Consumer.woken
  split
  · exact ⟨rfl, rfl, rfl, rfl, fun _ => rfl⟩
  · exact ⟨rfl, rfl, rfl, rfl, id⟩

theorem Consumer.woken_woken (k : Consumer) : k.woken.woken = k.woken := by
  by_cases h : k.waits = true
  · have hw : k.woken = { k with scheduled := true } := if_pos h
    have hw' : k.woken.waits = true := by rw [hw]; exact h
    rw [Consumer.woken, if_pos hw', hw]
  · have hw : k.woken = k := if_neg h
    rw [hw, hw]

namespace Session

variable {X Y D E : Nat → Prop} {s s' : Session} {g c q : Nat}

theorem consumers_wake (s : Session) (c c' : Nat) :
    (s.wake c).consumers[c']? =
      (s.consumers[c']?).map fun k => if c = c' then k.woken else k := by
  unfold wake
  split
  · next z hc =>
    change (s.modifyConsumer c fun k => { k with scheduled := true }).consumers[c']? = _
    rw [consumers_modifyConsumer]
    split
    · next e =>
      subst e
      rw [hc]
      rfl
    · simp
  · next hno =>
    split
    · next e =>
      subst e
      cases hc : s.consumers[c]? with
      | none => rfl
      | some k =>
        obtain ⟨gen, read, owner, susp, sched⟩ := k
        cases susp <;> cases sched <;> cases owner <;>
          first | rfl | exact absurd hc (hno _ _ _)
    · simp

theorem fields_wake (s : Session) (c : Nat) : (s.wake c).generators = s.generators ∧
    (s.wake c).queries = s.queries ∧ (s.wake c).nextId = s.nextId := by
  unfold wake
  split <;> exact ⟨rfl, rfl, rfl⟩

theorem fields_wakeAll (cs : List Nat) (s : Session) :
    (cs.foldl wake s).generators = s.generators ∧ (cs.foldl wake s).queries = s.queries ∧
      (cs.foldl wake s).nextId = s.nextId ∧ ∀ c' : Nat, (cs.foldl wake s).consumers[c']? =
        (s.consumers[c']?).map fun k => if c' ∈ cs then k.woken else k := by
  induction cs generalizing s with
  | nil => exact ⟨rfl, rfl, rfl, fun c' => by simp⟩
  | cons c cs ih =>
    obtain ⟨h1, h2, h3⟩ := s.fields_wake c
    obtain ⟨h4, h5, h6, h7⟩ := ih (s.wake c)
    refine ⟨h4.trans h1, h5.trans h2, h6.trans h3, fun c' => ?_⟩
    rw [List.foldl_cons, h7, consumers_wake, Option.map_map]
    congr 1
    funext k
    by_cases hc : c' = c
    · subst hc
      by_cases hm : c' ∈ cs <;> simp [hm, Consumer.woken_woken]
    · simp [hc, Ne.symm hc]

theorem Wired.wakeAll (h : s.Wired X D) (cs : List Nat) : (cs.foldl Session.wake s).Wired X D := by
  induction cs generalizing s with
  | nil => exact h
  | cons c cs ih => exact ih (h.wake c)

/-- Once the readers of a table are woken, none of them is left to be woken. -/
theorem Wired.wakeReaders (h : s.Wired X D) (g : Nat) :
    (s.wakeReaders g).Wired (fun g' => X g' ∧ g' ≠ g) D := by
  unfold Session.wakeReaders
  split
  · next gen hgen =>
    obtain ⟨h1, h2, h3, h4⟩ := fields_wakeAll gen.consumers.reverse s
    have hall := h.wakeAll gen.consumers.reverse
    refine { hall with woken := fun {c k' z gen'} hc ho hs hg hunread => ?_ }
    rcases hall.woken hc ho hs hg hunread with hsched | hX
    · exact .inl hsched
    · by_cases e : k'.generator = g
      · left
        obtain ⟨gen2, hgen2, hmem⟩ := hall.reader hc
        rw [h1, e] at hgen2
        cases hgen.symm.trans hgen2
        rw [h4] at hc
        simp only [List.mem_reverse.2 hmem, if_true] at hc
        obtain ⟨k, hk, rfl⟩ := Option.map_eq_some_iff.1 hc
        obtain ⟨-, e2, -, e4, -⟩ := k.woken_same
        have hw : k.waits = true := by
          rw [e4] at hs
          rw [e2] at ho
          simp [Consumer.waits, hs, ho]
        rw [Consumer.woken, if_pos hw]
      · exact .inr ⟨hX, e⟩
  · next hnone =>
    refine { h with woken := fun {c k z gen} hc ho hs hg hunread => ?_ }
    refine (h.woken hc ho hs hg hunread).imp_right fun hX => ⟨hX, fun e => ?_⟩
    rw [e, hnone] at hg
    cases hg

/-! ## Consumers that go -/

end Session

/-- Nothing of the generator is lost but a consumer on its lists. -/
structure Generator.Spares (c : Nat) (gen gen' : Generator) : Prop where
  goal : gen'.goal = gen.goal
  results : gen'.results = gen.results
  machine : gen'.machine = gen.machine
  ready : gen'.ready = gen.ready
  complete : gen'.complete = gen.complete
  consumers : ∀ d, d ≠ c → d ∈ gen.consumers → d ∈ gen'.consumers
  generating : ∀ d, d ≠ c → d ∈ gen.generating → d ∈ gen'.generating
  listed : ∀ d ∈ gen'.generating, d ∈ gen.generating
  reads : ∀ d ∈ gen'.consumers, d ∈ gen.consumers

theorem Generator.Spares.refl (c : Nat) (gen : Generator) : gen.Spares c gen :=
  ⟨rfl, rfl, rfl, rfl, rfl, fun _ _ h => h, fun _ _ h => h, fun _ h => h, fun _ h => h⟩

theorem Generator.Spares.trans {c : Nat} {gen gen' gen'' : Generator} (h : gen.Spares c gen')
    (h' : gen'.Spares c gen'') : gen.Spares c gen'' :=
  ⟨h'.goal.trans h.goal, h'.results.trans h.results, h'.machine.trans h.machine,
    h'.ready.trans h.ready, h'.complete.trans h.complete,
    fun d hd hm => h'.consumers d hd (h.consumers d hd hm),
    fun d hd hm => h'.generating d hd (h.generating d hd hm),
    fun d hm => h.listed d (h'.listed d hm), fun d hm => h.reads d (h'.reads d hm)⟩

namespace Session

variable {X Y D E : Nat → Prop} {s s' : Session} {g c q : Nat}

/-- What is found where a generator was changed. -/
theorem find_modifyGenerator (s : Session) (g : Nat) (f : Generator → Generator) {g' : Nat}
    {gen : Generator} (h : s.generators[g']? = some gen) :
    ∃ gen' : Generator, (s.modifyGenerator g f).generators[g']? = some gen' ∧
      (g' = g ∧ gen' = f gen ∨ gen' = gen) := by
  rw [generators_modifyGenerator]
  split
  · next e =>
    subst e
    rw [h]
    exact ⟨_, rfl, .inl ⟨rfl, rfl⟩⟩
  · exact ⟨gen, h, .inr rfl⟩

theorem find_unblock (s : Session) (owner : Owner) (c : Nat) {g' : Nat} {gen : Generator}
    (h : s.generators[g']? = some gen) :
    ∃ gen' : Generator, (s.unblock owner c).generators[g']? = some gen' ∧ gen.Spares c gen' := by
  cases owner with
  | query q => exact ⟨gen, h, .refl c gen⟩
  | generator z =>
    obtain ⟨gen', h1, ⟨-, rfl⟩ | rfl⟩ := s.find_modifyGenerator z
      (fun gen => { gen with generating := gen.generating.filter (· ≠ c) }) h
    · refine ⟨_, h1, rfl, rfl, rfl, rfl, rfl, fun _ _ h => h, fun d hd hm => ?_,
        fun d hm => List.mem_of_mem_filter hm, fun _ h => h⟩
      exact List.mem_filter.2 ⟨hm, by simpa using hd⟩
    · exact ⟨_, h1, .refl c _⟩

theorem find_removeConsumer (s : Session) (c : Nat) {g' : Nat} {gen : Generator}
    (h : s.generators[g']? = some gen) :
    ∃ gen' : Generator, (s.removeConsumer c).generators[g']? = some gen' ∧ gen.Spares c gen' := by
  unfold removeConsumer
  split
  · exact ⟨gen, h, .refl c gen⟩
  · next k hk =>
    obtain ⟨gen1, h1, hcase⟩ := ({ s with consumers := s.consumers.erase c } :
      Session).find_modifyGenerator k.generator
      (fun gen => { gen with consumers := gen.consumers.filter (· ≠ c) }) h
    have hspares : gen.Spares c gen1 := by
      rcases hcase with ⟨-, rfl⟩ | rfl
      · exact ⟨rfl, rfl, rfl, rfl, rfl,
          fun d hd hm => List.mem_filter.2 ⟨hm, by simpa using hd⟩, fun _ _ h => h, fun _ h => h,
          fun d hm => List.mem_of_mem_filter hm⟩
      · exact .refl c _
    obtain ⟨gen2, h2, hspares'⟩ := find_unblock _ k.owner c h1
    exact ⟨gen2, h2, hspares.trans hspares'⟩

/-- No generator is new. -/
theorem look_removeConsumer (s : Session) (c : Nat) {g' : Nat} {gen' : Generator}
    (h : (s.removeConsumer c).generators[g']? = some gen') :
    ∃ gen : Generator, s.generators[g']? = some gen ∧ gen.Spares c gen' := by
  obtain ⟨gen, hgen, -⟩ := (s.sameTables_removeConsumer c).generator h
  obtain ⟨gen1, h1, hspares⟩ := s.find_removeConsumer c hgen
  cases h.symm.trans h1
  exact ⟨gen, hgen, hspares⟩

@[simp] theorem consumers_unblock (s : Session) (owner : Owner) (c : Nat) :
    (s.unblock owner c).consumers = s.consumers := by
  cases owner <;> rfl

@[simp] theorem agenda_unblock (s : Session) (owner : Owner) (c : Nat) :
    (s.unblock owner c).agenda = s.agenda := by
  cases owner <;> rfl

@[simp] theorem consumers_removeConsumer (s : Session) (c c' : Nat) :
    (s.removeConsumer c).consumers[c']? = if c = c' then none else s.consumers[c']? := by
  unfold removeConsumer
  split
  · next hnone =>
    split
    · next e => rw [← e, hnone]
    · rfl
  · rw [consumers_unblock]
    change (s.consumers.erase c)[c']? = _
    rw [Std.TreeMap.getElem?_erase]
    simp only [Std.LawfulEqCmp.compare_eq_iff_eq]

theorem agenda_removeConsumer (s : Session) (c : Nat) :
    (s.removeConsumer c).agenda = s.agenda := by
  unfold removeConsumer
  split
  · rfl
  · rw [agenda_unblock]
    rfl

theorem nextId_removeConsumer (s : Session) (c : Nat) :
    (s.removeConsumer c).nextId = s.nextId := (s.sameTables_removeConsumer c).nextId

/-- The queries wait for the same consumers but for the one that is gone. -/
theorem queries_removeConsumer (s : Session) (c q : Nat) :
    (s.removeConsumer c).queries[q]? = s.queries[q]? ∨
    (s.removeConsumer c).queries[q]? = (s.queries[q]?).map (·.filter (· ≠ c)) ∧
      ∃ k : Consumer, s.consumers[c]? = some k ∧ k.owner = .query q := by
  unfold removeConsumer
  split
  · exact .inl rfl
  · next k hk =>
    cases ho : k.owner with
    | generator z => exact .inl rfl
    | query q' =>
      change ((s.queries.modify q' (·.filter (· ≠ c)))[q]? = _) ∨
        ((s.queries.modify q' (·.filter (· ≠ c)))[q]? = _ ∧ _)
      rw [Std.TreeMap.getElem?_modify]
      simp only [Std.LawfulEqCmp.compare_eq_iff_eq]
      split
      · next e =>
        subst e
        exact .inr ⟨rfl, k, hk, ho⟩
      · exact .inl rfl

theorem Wired.removeConsumer (h : s.Wired X D) (c : Nat) : (s.removeConsumer c).Wired X D := by
  have look : ∀ {c' : Nat} {k : Consumer}, (s.removeConsumer c).consumers[c']? = some k →
      c' ≠ c ∧ s.consumers[c']? = some k := by
    intro c' k hc
    rw [consumers_removeConsumer] at hc
    split at hc
    · cases hc
    · next e => exact ⟨Ne.symm e, hc⟩
  have waits : ∀ {q : Nat} {waiting : List Nat}, s.queries[q]? = some waiting →
      ∃ waiting', (s.removeConsumer c).queries[q]? = some waiting' ∧
        ∀ d, d ≠ c → d ∈ waiting → d ∈ waiting' := by
    intro q waiting hq
    rcases s.queries_removeConsumer c q with e | ⟨e, -⟩
    · exact ⟨waiting, e.trans hq, fun _ _ h => h⟩
    · refine ⟨waiting.filter (· ≠ c), by rw [e, hq]; rfl, fun d hd hm => ?_⟩
      exact List.mem_filter.2 ⟨hm, by simpa using hd⟩
  refine ⟨fun hg => ?_, fun hc => ?_, fun {q waiting} hq => ?_, fun hc => ?_, fun hc ho => ?_,
    fun hc ho => ?_, fun {q d waiting} hq hm => ?_, fun {q waiting} hq => ?_, fun hg hr => ?_,
    fun hc hs => ?_, fun {d k z gen'} hc ho hs hg hunread => ?_, fun hg hm => ?_,
    fun hg hm => ?_⟩
  · obtain ⟨gen, hgen, -⟩ := s.look_removeConsumer c hg
    rw [nextId_removeConsumer]
    exact h.generator_lt hgen
  · rw [nextId_removeConsumer]
    exact h.consumer_lt (look hc).2
  · rw [nextId_removeConsumer]
    rcases s.queries_removeConsumer c q with e | ⟨e, -⟩
    · exact h.query_lt (e.symm.trans hq)
    · obtain ⟨w, hw, -⟩ := Option.map_eq_some_iff.1 (e.symm.trans hq)
      exact h.query_lt hw
  · obtain ⟨hne, hk⟩ := look hc
    obtain ⟨gen, hgen, hmem⟩ := h.reader hk
    obtain ⟨gen', hgen', hspares⟩ := s.find_removeConsumer c hgen
    exact ⟨gen', hgen', hspares.consumers _ hne hmem⟩
  · obtain ⟨hne, hk⟩ := look hc
    refine (h.worker hk ho).imp_right ?_
    rintro ⟨gen, hgen, hinc, hmem⟩
    obtain ⟨gen', hgen', hspares⟩ := s.find_removeConsumer c hgen
    exact ⟨gen', hgen', hspares.complete.trans hinc,
      fun hs => hspares.generating _ hne (hmem hs)⟩
  · obtain ⟨hne, hk⟩ := look hc
    obtain ⟨waiting, hq, hmem⟩ := h.asker hk ho
    obtain ⟨waiting', hq', hwaits⟩ := waits hq
    exact ⟨waiting', hq', fun hs => hwaits _ hne (hmem hs)⟩
  · obtain ⟨w, hw, hd, hne⟩ : ∃ w, s.queries[q]? = some w ∧ d ∈ w ∧ d ≠ c := by
      rcases s.queries_removeConsumer c q with e | ⟨e, -⟩
      · refine ⟨waiting, e.symm.trans hq, hm, ?_⟩
        rintro rfl
        obtain ⟨k, hk, ho, -⟩ := h.waiter (e.symm.trans hq) hm
        obtain ⟨w', hw', -⟩ := h.asker hk ho
        -- a consumer of this query is taken off its list
        have hmod : (s.removeConsumer d).queries[q]? = (s.queries[q]?).map (·.filter (· ≠ d)) := by
          unfold Session.removeConsumer
          rw [hk]
          simp only [ho]
          change (s.queries.modify q (·.filter (· ≠ d)))[q]? = _
          rw [Std.TreeMap.getElem?_modify]
          simp
        rw [hq, e.symm.trans hq] at hmod
        have hfilter : waiting = waiting.filter (· ≠ d) := by simpa using hmod
        rw [hfilter] at hm
        simpa using (List.mem_filter.1 hm).2
      · obtain ⟨w, hw, rfl⟩ := Option.map_eq_some_iff.1 (e.symm.trans hq)
        obtain ⟨h1, h2⟩ := List.mem_filter.1 hm
        exact ⟨w, hw, h1, by simpa using h2⟩
    obtain ⟨k, hk, ho, hs⟩ := h.waiter hw hd
    exact ⟨k, by rw [consumers_removeConsumer, if_neg (Ne.symm hne), hk], ho, hs⟩
  · rcases s.queries_removeConsumer c q with e | ⟨e, -⟩
    · exact h.nodup (e.symm.trans hq)
    · obtain ⟨w, hw, rfl⟩ := Option.map_eq_some_iff.1 (e.symm.trans hq)
      exact (h.nodup hw).filter _
  · obtain ⟨gen, hgen, hspares⟩ := s.look_removeConsumer c hg
    rw [agenda_removeConsumer]
    obtain ⟨h1, h2⟩ := h.start hgen (hspares.ready.symm.trans hr)
    exact ⟨hspares.complete.trans h1, h2⟩
  · rw [agenda_removeConsumer]
    exact h.resume (look hc).2 hs
  · obtain ⟨gen, hgen, hspares⟩ := s.look_removeConsumer c hg
    rw [hspares.results, hspares.complete] at hunread
    exact h.woken (look hc).2 ho hs hgen hunread
  · obtain ⟨gen, hgen, hspares⟩ := s.look_removeConsumer c hg
    obtain ⟨hlt, howns⟩ := h.listed hgen (hspares.listed _ hm)
    rw [nextId_removeConsumer]
    exact ⟨hlt, fun k hc => howns k (look hc).2⟩
  · obtain ⟨gen, hgen, hspares⟩ := s.look_removeConsumer c hg
    obtain ⟨hlt, hreads⟩ := h.reads hgen (hspares.reads _ hm)
    rw [nextId_removeConsumer]
    exact ⟨hlt, fun k hc => hreads k (look hc).2⟩

theorem mem_ownedBy {owner : Owner} {c : Nat} {k : Consumer} :
    (c, k) ∈ s.ownedBy owner ↔ s.consumers[c]? = some k ∧ k.owner = owner := by
  unfold ownedBy
  rw [Std.TreeMap.foldr_eq_foldr_toList, ← Std.TreeMap.mem_toList_iff_getElem?_eq_some]
  induction s.consumers.toList with
  | nil => simp
  | cons p ps ih =>
    obtain ⟨c', k'⟩ := p
    rw [List.foldr_cons]
    split
    · next e => rw [List.mem_cons, List.mem_cons, ih]; grind
    · next e => rw [List.mem_cons, ih]; grind

/-- Gives consumers up. -/
def removeAll (owned : List (Nat × Consumer)) (s : Session) : Session :=
  owned.foldl (fun s (c, _) => s.removeConsumer c) s

theorem consumers_removeAll (owned : List (Nat × Consumer)) (s : Session) (c : Nat) :
    (s.removeAll owned).consumers[c]? =
      if c ∈ owned.map Prod.fst then none else s.consumers[c]? := by
  induction owned generalizing s with
  | nil => simp [removeAll]
  | cons p ps ih =>
    obtain ⟨c', k'⟩ := p
    rw [show s.removeAll ((c', k') :: ps) = (s.removeConsumer c').removeAll ps from rfl, ih,
      consumers_removeConsumer]
    by_cases h1 : c ∈ ps.map Prod.fst
    · simp [h1]
    · by_cases h2 : c = c'
      · simp [h2]
      · simp [h1, h2, Ne.symm h2]

theorem Wired.removeAll (h : s.Wired X D) (owned : List (Nat × Consumer)) :
    (s.removeAll owned).Wired X D := by
  induction owned generalizing s with
  | nil => exact h
  | cons p ps ih => exact ih (h.removeConsumer p.1)

/-- The consumers of an owner are all found. -/
theorem not_owned_removeAll {owner : Owner} {c : Nat} {k : Consumer}
    (h : (s.removeAll (s.ownedBy owner)).consumers[c]? = some k) : k.owner ≠ owner := by
  rw [consumers_removeAll] at h
  split at h
  · cases h
  · next hno =>
    intro ho
    exact hno (List.mem_map.2 ⟨(c, k), mem_ownedBy.2 ⟨h, ho⟩, rfl⟩)

theorem consumer_wakeReaders (s : Session) (g : Nat) {c : Nat} {k' : Consumer}
    (h : (s.wakeReaders g).consumers[c]? = some k') :
    ∃ k : Consumer, s.consumers[c]? = some k ∧ (k' = k ∨ k' = k.woken) := by
  unfold wakeReaders at h
  split at h
  · next gen _ =>
    rw [(fields_wakeAll gen.consumers.reverse s).2.2.2] at h
    obtain ⟨k, hk, rfl⟩ := Option.map_eq_some_iff.1 h
    refine ⟨k, hk, ?_⟩
    split
    · exact .inr rfl
    · exact .inl rfl
  · exact ⟨k', h, .inl rfl⟩

/-! ## Completion -/

/-- The generator that is complete, before anything else is told of it. -/
def finish (g : Nat) (s : Session) : Session :=
  s.modifyGenerator g fun gen =>
    { gen with complete := true, machine := none, generating := [], ready := false }

theorem complete_eq (event : Triple → Nat → Event) {gen : Generator}
    (hgen : s.generators[g]? = some gen) (hinc : gen.complete = false) :
    s.complete event g = ((((s.finish g).note (event gen.goal gen.results.size)).removeAll
      (((s.finish g).note (event gen.goal gen.results.size)).ownedBy
        (.generator g))).wakeReaders g) := by
  unfold complete
  simp only [hgen, hinc, Bool.false_eq_true, if_false]
  rfl

/-- Only a generator that is not complete is completed. -/
theorem complete_cases (event : Triple → Nat → Event) (s : Session) (g : Nat) :
    s.complete event g = s ∨
      ∃ gen : Generator, s.generators[g]? = some gen ∧ gen.complete = false := by
  unfold complete
  split
  · exact .inl rfl
  · next gen hgen =>
    split
    · exact .inl rfl
    · next hinc => exact .inr ⟨gen, hgen, by simpa using hinc⟩

/-- The readers of a generator that is completed are woken. -/
theorem Wired.complete_now (h : s.Wired X D) (event : Triple → Nat → Event) {gen : Generator}
    (hgen : s.generators[g]? = some gen) (hinc : gen.complete = false) :
    (s.complete event g).Wired (fun g' => X g' ∧ g' ≠ g) D := by
  rw [complete_eq event hgen hinc]
  generalize event gen.goal gen.results.size = ev
  have h0 : s.Wired (fun g' => X g' ∨ g' = g) (fun z => D z ∨ z = g) :=
    h.mono (fun _ => .inl) (fun _ => .inl)
  have h1 : ((s.finish g).note ev).Wired (fun g' => X g' ∨ g' = g) (fun z => D z ∨ z = g) := by
    refine Wired.note (h0.modifyGenerator
      (f := fun gen => { gen with complete := true, machine := none, generating := [], ready := false })
      (fun _ _ _ _ _ hm => hm) (fun _ _ _ _ _ _ _ => .inr (.inr rfl)) (fun _ _ hr => ?_)
      (fun _ _ => .inr ⟨.inr rfl, .inr rfl, rfl⟩) (fun _ _ => .inl rfl)
      (fun _ _ _ hm => by cases hm) (fun _ _ hm => hm)) ev
    cases hr
  have h2 := (h1.removeAll (((s.finish g).note ev).ownedBy (.generator g))).wakeReaders g
  have h3 := h2.mono (Y := fun g' => X g' ∧ g' ≠ g) (E := fun z => D z ∨ z = g)
    (fun g' hg' => ⟨hg'.1.resolve_right hg'.2, hg'.2⟩) (fun _ => id)
  refine h3.gone fun {c k' z} hc ho hD => hD.resolve_right ?_
  rintro rfl
  obtain ⟨k, hk, rfl | rfl⟩ := consumer_wakeReaders _ z hc
  · exact not_owned_removeAll hk ho
  · exact not_owned_removeAll hk (k.woken_same.2.1.symm.trans ho)

theorem Wired.complete (h : s.Wired X D) (event : Triple → Nat → Event) (g : Nat) :
    (s.complete event g).Wired X D := by
  rcases s.complete_cases event g with e | ⟨gen, hgen, hinc⟩
  · rw [e]
    exact h
  · exact (h.complete_now event hgen hinc).mono (fun _ hg => hg.1) (fun _ => id)

theorem Wired.completeAll (h : s.Wired X D) (event : Triple → Nat → Event) (gs : List Nat) :
    (gs.foldl (Session.complete event) s).Wired X D := by
  induction gs generalizing s with
  | nil => exact h
  | cons g gs ih => exact ih (h.complete event g)

theorem Wired.checkCompletion (h : s.Wired X D) (roots : List Nat) :
    (s.checkCompletion roots).Wired X D :=
  h.completeAll _ _

/-! ## New tables and new readers -/

theorem Wired.nextId (h : s.Wired X D) {n : Nat} (hn : s.nextId ≤ n) :
    ({ s with nextId := n } : Session).Wired X D :=
  { h with
    generator_lt := fun hg => Nat.lt_of_lt_of_le (h.generator_lt hg) hn
    consumer_lt := fun hc => Nat.lt_of_lt_of_le (h.consumer_lt hc) hn
    listed := fun hg hm => (h.listed hg hm).imp_left fun hlt => Nat.lt_of_lt_of_le hlt hn
    reads := fun hg hm => (h.reads hg hm).imp_left fun hlt => Nat.lt_of_lt_of_le hlt hn
    query_lt := fun hq => Nat.lt_of_lt_of_le (h.query_lt hq) hn }

theorem agenda_withGenerator (s : Session) (key : Triple) (m : Machine) :
    (s.withGenerator key m).agenda.toList = s.agenda.toList ++ [.start s.nextId] :=
  Queue.toList_push _ _

/-- A generator that is new has the last id and is to be started. -/
theorem Wired.withGenerator (h : s.Wired X D) (key : Triple) (m : Machine) :
    (s.withGenerator key m).Wired X D := by
  have find : ∀ {g : Nat} {gen : Generator}, s.generators[g]? = some gen →
      (s.withGenerator key m).generators[g]? = some gen := by
    intro g gen hg
    rw [generators_withGenerator, if_neg (Nat.ne_of_gt (h.generator_lt hg)), hg]
  refine ⟨fun {g gen} hg => ?_, fun hc => Nat.lt_succ_of_lt (h.consumer_lt hc),
    fun hq => Nat.lt_succ_of_lt (h.query_lt hq), fun hc => ?_, fun hc ho => ?_, h.asker, h.waiter,
    h.nodup, fun {g gen} hg hr => ?_, fun hc hs => ?_,
    fun {c k z gen} hc ho hs hg hunread => ?_, fun hg hm => ?_, fun hg hm => ?_⟩
  · change g < s.nextId + 1
    rw [generators_withGenerator] at hg
    split at hg
    · omega
    · exact Nat.lt_succ_of_lt (h.generator_lt hg)
  · obtain ⟨gen, hgen, hmem⟩ := h.reader hc
    exact ⟨gen, find hgen, hmem⟩
  · refine (h.worker hc ho).imp_right ?_
    rintro ⟨gen, hgen, hrest⟩
    exact ⟨gen, find hgen, hrest⟩
  · rw [generators_withGenerator] at hg
    rw [agenda_withGenerator]
    split at hg
    · next e =>
      subst e
      cases hg
      exact ⟨rfl, List.mem_append_right _ List.mem_cons_self⟩
    · obtain ⟨h1, h2⟩ := h.start hg hr
      exact ⟨h1, List.mem_append_left _ h2⟩
  · rw [agenda_withGenerator]
    exact List.mem_append_left _ (h.resume hc hs)
  · obtain ⟨gen', hgen', -⟩ := h.reader hc
    cases (find hgen').symm.trans hg
    exact h.woken hc ho hs hgen' hunread
  · rw [generators_withGenerator] at hg
    split at hg
    · cases hg
      cases hm
    · obtain ⟨hlt, howns⟩ := h.listed hg hm
      exact ⟨Nat.lt_succ_of_lt hlt, howns⟩
  · rw [generators_withGenerator] at hg
    split at hg
    · cases hg
      cases hm
    · obtain ⟨hlt, hreads⟩ := h.reads hg hm
      exact ⟨Nat.lt_succ_of_lt hlt, hreads⟩

/-- The owner's machine may make consumers: it works for a generator that is not complete or
for a query that is open. -/
def Works (s : Session) : Owner → Prop
  | .generator z => ∃ gen : Generator, s.generators[z]? = some gen ∧ gen.complete = false
  | .query q => ∃ waiting : List Nat, s.queries[q]? = some waiting

theorem Wired.addConsumer (h : s.Wired X D) {owner : Owner} {gen : Generator}
    (hg : s.generators[g]? = some gen) (ho : s.Works owner) :
    (s.addConsumer g owner).2.Wired X D := by
  have find : ∀ {g' : Nat} {gen : Generator}, s.generators[g']? = some gen →
      ∃ gen' : Generator, (s.addConsumer g owner).2.generators[g']? = some gen' ∧
        gen'.complete = gen.complete ∧ gen'.generating = gen.generating ∧
        (∀ c ∈ gen.consumers, c ∈ gen'.consumers) ∧ (g = g' → s.nextId ∈ gen'.consumers) := by
    intro g' gen' hg'
    rw [generators_addConsumer]
    split
    · next e =>
      subst e
      rw [hg']
      exact ⟨_, rfl, rfl, rfl, fun c hc => List.mem_cons_of_mem _ hc, fun _ => List.mem_cons_self⟩
    · next e => exact ⟨gen', hg', rfl, rfl, fun c hc => hc, fun e' => absurd e' e⟩
  have look : ∀ {g' : Nat} {gen' : Generator},
      (s.addConsumer g owner).2.generators[g']? = some gen' → ∃ gen : Generator,
        s.generators[g']? = some gen ∧ gen'.ready = gen.ready ∧ gen'.complete = gen.complete ∧
          gen'.results = gen.results ∧ gen'.generating = gen.generating ∧
          ∀ c ∈ gen'.consumers, c = s.nextId ∧ g = g' ∨ c ∈ gen.consumers := by
    intro g' gen' hg'
    rw [generators_addConsumer] at hg'
    split at hg'
    · next e =>
      subst e
      obtain ⟨gen, hgen, rfl⟩ := Option.map_eq_some_iff.1 hg'
      exact ⟨gen, hgen, rfl, rfl, rfl, rfl, fun c hc =>
        (List.mem_cons.1 hc).imp_left fun hc => ⟨hc, rfl⟩⟩
    · exact ⟨gen', hg', rfl, rfl, rfl, rfl, fun c hc => .inr hc⟩
  have cons : ∀ {c : Nat} {k : Consumer}, (s.addConsumer g owner).2.consumers[c]? = some k →
      s.nextId = c ∧ k = { generator := g, owner } ∨ s.consumers[c]? = some k := by
    intro c k hc
    rw [consumers_addConsumer] at hc
    split at hc
    · next e => exact .inl ⟨e, by cases hc; rfl⟩
    · exact .inr hc
  refine ⟨fun hg' => ?_, fun {c k} hc => ?_, fun hq => Nat.lt_succ_of_lt (h.query_lt hq),
    fun hc => ?_, fun hc hz => ?_, fun hc hz => ?_, fun {q c waiting} hq hm => ?_, h.nodup,
    fun hg' hr => ?_, fun hc hs => ?_, fun hc hz hs hg' hunread => ?_,
    fun {g' c gen'} hg' hm => ?_, fun {g' c gen'} hg' hm => ?_⟩
  · obtain ⟨gen, hgen, -⟩ := look hg'
    exact Nat.lt_succ_of_lt (h.generator_lt hgen)
  · change c < s.nextId + 1
    rcases cons hc with ⟨rfl, -⟩ | hc
    · exact Nat.lt_succ_self _
    · exact Nat.lt_succ_of_lt (h.consumer_lt hc)
  · rcases cons hc with ⟨rfl, rfl⟩ | hc
    · obtain ⟨gen', hgen', -, -, -, hmem⟩ := find hg
      exact ⟨gen', hgen', hmem rfl⟩
    · obtain ⟨gen1, h1, hmem⟩ := h.reader hc
      obtain ⟨gen', hgen', -, -, hmem', -⟩ := find h1
      exact ⟨gen', hgen', hmem' _ hmem⟩
  · rcases cons hc with ⟨rfl, rfl⟩ | hc
    · change owner = _ at hz
      subst hz
      obtain ⟨gen1, h1, hinc⟩ := ho
      obtain ⟨gen', hgen', e, -⟩ := find h1
      exact .inr ⟨gen', hgen', e.trans hinc, fun hs => by cases hs⟩
    · refine (h.worker hc hz).imp_right ?_
      rintro ⟨gen1, h1, hinc, hmem⟩
      obtain ⟨gen', hgen', e, e', -⟩ := find h1
      exact ⟨gen', hgen', e.trans hinc, e' ▸ hmem⟩
  · rcases cons hc with ⟨rfl, rfl⟩ | hc
    · change owner = _ at hz
      subst hz
      obtain ⟨waiting, hw⟩ := ho
      exact ⟨waiting, hw, fun hs => by cases hs⟩
    · exact h.asker hc hz
  · obtain ⟨k, hk, hrest⟩ := h.waiter hq hm
    refine ⟨k, ?_, hrest⟩
    rw [consumers_addConsumer, if_neg (Nat.ne_of_gt (h.consumer_lt hk)), hk]
  · obtain ⟨gen, hgen, e1, e2, -⟩ := look hg'
    obtain ⟨h1, h2⟩ := h.start hgen (e1 ▸ hr)
    exact ⟨e2.trans h1, h2⟩
  · rcases cons hc with ⟨rfl, rfl⟩ | hc
    · cases hs
    · exact h.resume hc hs
  · rcases cons hc with ⟨rfl, rfl⟩ | hc
    · cases hs
    · obtain ⟨gen, hgen, -, e2, e3, -⟩ := look hg'
      rw [e2, e3] at hunread
      exact h.woken hc hz hs hgen hunread
  · obtain ⟨gen, hgen, -, -, -, e, -⟩ := look hg'
    rw [e] at hm
    obtain ⟨hlt, howns⟩ := h.listed hgen hm
    refine ⟨Nat.lt_succ_of_lt hlt, fun k hc => ?_⟩
    rcases cons hc with ⟨rfl, rfl⟩ | hc
    · exact absurd hlt (Nat.lt_irrefl _)
    · exact howns _ hc
  · obtain ⟨gen, hgen, -, -, -, -, hold⟩ := look hg'
    rcases hold c hm with ⟨rfl, rfl⟩ | hm
    · refine ⟨Nat.lt_succ_self _, fun k hc => ?_⟩
      rcases cons hc with ⟨-, rfl⟩ | hc
      · rfl
      · exact absurd (h.consumer_lt hc) (Nat.lt_irrefl _)
    · obtain ⟨hlt, hreads⟩ := h.reads hgen hm
      refine ⟨Nat.lt_succ_of_lt hlt, fun k hc => ?_⟩
      rcases cons hc with ⟨rfl, rfl⟩ | hc
      · exact absurd hlt (Nat.lt_irrefl _)
      · exact hreads _ hc

/-! ## Readers that read and wait -/

/-- Only consumers that do not wait are read for. -/
theorem Wired.read (h : s.Wired X D)
    (hc : ∀ k : Consumer, s.consumers[c]? = some k → k.suspended = false) :
    (s.read c).2.Wired X D := by
  unfold Session.read
  split
  · exact h
  · split
    · exact h
    · split
      · refine h.modifyConsumer (fun _ => ⟨rfl, rfl⟩) (fun k hk hs => ?_)
          (fun k hk hs => h.resume hk hs) (fun k q hk ho hs => .inl hs)
          (fun k z hk ho hs hsched => .inl hsched)
        rw [hc k hk] at hs
        cases hs
      · exact h

/-- A consumer that has read all there is waits on the list of its owner. -/
theorem Wired.block (h : s.Wired X D) {k : Consumer} (hk : s.consumers[c]? = some k)
    (hnone : ∀ gen : Generator, s.generators[k.generator]? = some gen →
      gen.results.size ≤ k.read ∧ gen.complete = false) :
    (s.block k.owner c).Wired X D := by
  cases ho : k.owner with
  | query q =>
    refine h.relist hk ho true (fun waiting d _ => ?_) (fun waiting hw => ?_)
    · split
      · next hmem =>
        rw [List.contains_iff_mem] at hmem
        split
        · next e => simpa [e] using hmem
        · rfl
      · split
        · next e => simp [e]
        · next e => simp [e]
    · split
      · exact h.nodup hw
      · next hno =>
        rw [List.contains_iff_mem] at hno
        rw [List.nodup_append]
        refine ⟨h.nodup hw, List.nodup_singleton c, ?_⟩
        rintro a ha b hb rfl
        exact hno (List.mem_singleton.1 hb ▸ ha)
  | generator z =>
    have hlist : (s.modifyGenerator z fun gen =>
        { gen with generating := gen.generating.insert c }).Wired X D :=
      h.modifyGenerator (fun _ _ _ _ _ hm => hm)
        (fun _ _ _ _ _ _ hm => .inl (List.mem_insert_of_mem hm)) (fun _ _ hr => hr)
        (fun _ _ => .inl rfl) (fun _ _ => .inl rfl) (fun _ d _ hm => by
          rcases List.mem_insert_iff.1 hm with rfl | hm
          · exact .inr ⟨k, hk, ho⟩
          · exact .inl hm) (fun _ _ hm => hm)
    refine (hlist.modifyConsumer (c := c) (f := fun k => { k with suspended := true })
      (fun _ => ⟨rfl, rfl⟩) (fun k' hk' _ => ⟨rfl, .inr ⟨⟨z, ?_, fun gen hgen => ?_⟩, ?_⟩⟩)
      (fun k' hk' hs => h.resume hk' hs) (fun _ _ _ _ _ => .inl rfl) (fun _ _ _ _ _ hs => .inl hs))
    · cases hk.symm.trans hk'
      exact ho
    · rw [generators_modifyGenerator, if_pos rfl] at hgen
      obtain ⟨gen', -, rfl⟩ := Option.map_eq_some_iff.1 hgen
      exact List.mem_insert_self
    · cases hk.symm.trans hk'
      intro gen hgen
      rw [generators_modifyGenerator] at hgen
      split at hgen
      · next e =>
        obtain ⟨gen', hgen', rfl⟩ := Option.map_eq_some_iff.1 hgen
        exact hnone gen' (e ▸ hgen')
      · exact hnone gen hgen

/-! ## Tasks that are taken up -/

/-- A task that has nothing to do can be taken from the agenda. -/
theorem Wired.pop (h : s.Wired X D) {task : Task} {agenda : Queue Task}
    (hpop : s.agenda.pop? = some (task, agenda))
    (hstart : ∀ g gen, task = .start g → s.generators[g]? = some gen → gen.ready = false)
    (hresume : ∀ c k, task = .resume c → s.consumers[c]? = some k → k.scheduled = false) :
    ({ s with agenda } : Session).Wired X D := by
  have hlist := Queue.toList_of_pop? hpop
  refine { h with start := fun {g gen} hg hr => ?_, resume := fun {c k} hc hs => ?_ }
  · obtain ⟨h1, h2⟩ := h.start hg hr
    rw [hlist] at h2
    rcases List.mem_cons.1 h2 with e | h2
    · rw [hstart g gen e.symm hg] at hr
      cases hr
    · exact ⟨h1, h2⟩
  · have h2 := h.resume hc hs
    rw [hlist] at h2
    rcases List.mem_cons.1 h2 with e | h2
    · rw [hresume c k e.symm hc] at hs
      cases hs
    · exact h2

/-- The consumer `c` is taken from the agenda. -/
def unscheduled (s : Session) (c : Nat) : Session :=
  s.modifyConsumer c fun k => { k with scheduled := false }

@[simp] theorem isReady_unscheduled (s : Session) (c d : Nat) :
    (s.unscheduled c).isReady d = s.isReady d := by
  by_cases e : c = d
  · subst e
    simp only [isReady, unscheduled, consumers_modifyConsumer, if_pos]
    cases s.consumers[c]? <;> rfl
  · simp only [isReady, unscheduled, consumers_modifyConsumer, if_neg e]
    rfl

/-- A consumer that cannot go on need not be on the agenda. -/
theorem Wired.unscheduled (h : s.Wired X D)
    (hc : ∀ k z, s.consumers[c]? = some k → k.owner = .generator z → s.isReady c = false) :
    (s.unscheduled c).Wired X D :=
  h.modifyConsumer (fun _ => ⟨rfl, rfl⟩) (fun _ _ hs => ⟨rfl, .inl hs⟩) (fun _ _ hs => by cases hs)
    (fun _ _ _ _ hs => .inl hs) (fun k z hk ho _ _ => .inr (hc k z hk ho))

theorem not_scheduled {k : Consumer} (h : (s.unscheduled c).consumers[c]? = some k) :
    k.scheduled = false := by
  rw [Session.unscheduled, consumers_modifyConsumer, if_pos rfl] at h
  obtain ⟨k', -, rfl⟩ := Option.map_eq_some_iff.1 h
  rfl

/-- The consumer that a machine goes on with does not wait any more. -/
def released (s : Session) : Option Nat → Session
  | some c => s.modifyConsumer c fun k => { k with suspended := false }
  | none => s

/-- What is taken up: a generator that has not started, or a consumer of a machine that can go
on. -/
theorem takeUp_cases {task : Task} {x : Option (Nat × Option Nat)} (h : s.takeUp task = (x, s')) :
    (∃ g, task = .start g ∧ s' = s ∧
      (x = some (g, none) ∧ (∃ gen : Generator, s.generators[g]? = some gen ∧ gen.ready = true) ∨
        x = none ∧ ∀ gen : Generator, s.generators[g]? = some gen →
          gen.ready = true → gen.complete = true)) ∨
    ∃ c, task = .resume c ∧ s' = s.unscheduled c ∧
      ((∃ k z, s.consumers[c]? = some k ∧ k.owner = .generator z ∧ s.isReady c = true ∧
        x = some (z, some c)) ∨
      x = none ∧ ∀ k z, s.consumers[c]? = some k → k.owner = .generator z → s.isReady c = false) := by
  cases task with
  | start g =>
    refine .inl ⟨g, rfl, ?_⟩
    simp only [Session.takeUp] at h
    cases hgen : s.generators[g]? with
    | none =>
      rw [hgen] at h
      cases h
      exact ⟨rfl, .inr ⟨rfl, fun _ e => by cases e⟩⟩
    | some gen =>
      rw [hgen] at h
      simp only [Prod.mk.injEq] at h
      obtain ⟨rfl, rfl⟩ := h
      refine ⟨rfl, ?_⟩
      cases hr : gen.ready <;> cases hcomp : gen.complete <;> simp [hr, hcomp]
  | resume c =>
    refine .inr ⟨c, rfl, ?_⟩
    have hsame : (s.modifyConsumer c fun k => { k with scheduled := false }) = s.unscheduled c := rfl
    simp only [Session.takeUp, hsame] at h
    rw [Session.unscheduled, consumers_modifyConsumer, if_pos rfl, ← Session.unscheduled] at h
    simp only [isReady_unscheduled] at h
    cases hk : s.consumers[c]? with
    | none =>
      rw [hk] at h
      cases h
      exact ⟨rfl, .inr ⟨rfl, fun _ _ e => by cases e⟩⟩
    | some k =>
      rw [hk] at h
      cases ho : k.owner with
      | query q =>
        simp only [Option.map_some, ho] at h
        cases h
        refine ⟨rfl, .inr ⟨rfl, fun k' z e ho' => ?_⟩⟩
        cases e
        cases ho.symm.trans ho'
      | generator z =>
        simp only [Option.map_some, ho] at h
        cases hr : s.isReady c with
        | false =>
          rw [hr] at h
          cases h
          exact ⟨rfl, .inr ⟨rfl, fun _ _ _ _ => rfl⟩⟩
        | true =>
          rw [hr] at h
          cases h
          exact ⟨rfl, .inl ⟨k, z, rfl, ho, rfl, rfl⟩⟩

theorem Wired.skip (h : s.Wired X D) {task : Task} {agenda : Queue Task}
    (hpop : s.agenda.pop? = some (task, agenda))
    (htake : ({ s with agenda } : Session).takeUp task = (none, s')) : s'.Wired X D := by
  rcases takeUp_cases htake with ⟨g, rfl, rfl, ⟨e, -⟩ | ⟨-, hno⟩⟩ | ⟨c, rfl, rfl, hcase⟩
  · cases e
  · refine h.pop hpop (fun g' gen e hg => ?_) (fun c k e => by cases e)
    cases e
    cases hr : gen.ready with
    | false => rfl
    | true =>
      have h1 := (h.start hg hr).1
      rw [hno gen hg hr] at h1
      cases h1
  · rcases hcase with ⟨k, z, -, -, -, e⟩ | ⟨-, hno⟩
    · cases e
    · refine Wired.pop (s := s.unscheduled c) (h.unscheduled hno) hpop (fun g gen e => by cases e)
        (fun c' k e hk => ?_)
      cases e
      exact not_scheduled hk

/-- A generator that is taken up is not complete, and its consumer goes on. -/
theorem Wired.takeUp (h : s.Wired X D) (hD : ∀ z, ¬ D z) {task : Task} {agenda : Queue Task}
    {resume : Option Nat} (hpop : s.agenda.pop? = some (task, agenda))
    (htake : ({ s with agenda } : Session).takeUp task = (some (g, resume), s')) :
    ((s'.prepared g resume).released resume).Wired X D ∧ s.Works (.generator g) ∧
      ∀ c ∈ resume, s.isReady c = true ∧ ∃ k : Consumer, s.consumers[c]? = some k ∧
        k.owner = .generator g := by
  rcases takeUp_cases htake with ⟨g', rfl, rfl, ⟨e, gen, hgen, hready⟩ | ⟨e, -⟩⟩ | ⟨c, rfl, rfl, hcase⟩
  · cases e
    refine ⟨?_, ⟨gen, hgen, (h.start hgen hready).1⟩, fun c hc => by cases hc⟩
    have hstarted : (s.modifyGenerator g fun gen => { gen with ready := false }).Wired X D :=
      h.modifyGenerator (fun _ _ _ _ _ hm => hm) (fun _ _ _ _ _ _ hm => .inl hm)
        (fun _ _ hr => by cases hr) (fun _ _ => .inl rfl) (fun _ _ => .inl rfl)
        (fun _ _ _ hm => .inl hm) (fun _ _ hm => hm)
    refine Wired.pop hstarted hpop (fun g' gen e hg => ?_) (fun c k e => by cases e)
    cases e
    rw [generators_modifyGenerator, if_pos rfl] at hg
    obtain ⟨gen', -, rfl⟩ := Option.map_eq_some_iff.1 hg
    rfl
  · cases e
  · rcases hcase with ⟨k, z, hk, ho, hready, e⟩ | ⟨e, -⟩
    · cases e
      have hworks := (h.worker hk ho).resolve_left (hD _)
      obtain ⟨gen, hgen, hinc, -⟩ := hworks
      refine ⟨?_, ⟨gen, hgen, hinc⟩, fun c' hc' => ?_⟩
      · -- the consumer is released first, so that it need not be on any list
        have hfree : (s.released (some c)).Wired X D :=
          h.modifyConsumer (fun _ => ⟨rfl, rfl⟩) (fun _ _ hs => by cases hs)
            (fun _ hk hs => h.resume hk hs)
            (fun k' q hk' ho' _ => by cases hk.symm.trans hk'; cases ho.symm.trans ho')
            (fun _ _ _ _ hs => by cases hs)
        have hidle : ∀ k' : Consumer, (s.released (some c)).consumers[c]? = some k' →
            k'.suspended = false := by
          intro k' hk'
          rw [released, consumers_modifyConsumer, if_pos rfl, hk] at hk'
          cases hk'
          rfl
        have hoff : ((s.released (some c)).unscheduled c).Wired X D := by
          refine hfree.unscheduled fun k' z' hk' _ => ?_
          simp [isReady, hk', hidle k' hk']
        have hpopped := Wired.pop hoff hpop (fun g' gen e => by cases e)
          (fun c' k' e hk' => by cases e; exact not_scheduled hk')
        have hunblocked := hpopped.modifyGenerator (g := g)
          (f := fun gen => { gen with generating := gen.generating.filter (· ≠ c) })
          (fun _ _ _ _ _ hm => hm)
          (fun gen d k' _ hk' hs hm => by
            refine .inl (List.mem_filter.2 ⟨hm, ?_⟩)
            have hne : d ≠ c := by
              rintro rfl
              change ((s.released (some d)).unscheduled d).consumers[d]? = some k' at hk'
              rw [Session.unscheduled, consumers_modifyConsumer, if_pos rfl] at hk'
              obtain ⟨k1, hk1, rfl⟩ := Option.map_eq_some_iff.1 hk'
              rw [show ({ k1 with scheduled := false } : Consumer).suspended = k1.suspended from rfl,
                hidle k1 hk1] at hs
              cases hs
            simpa using hne)
          (fun _ _ hr => hr) (fun _ _ => .inl rfl) (fun _ _ => .inl rfl)
          (fun _ _ _ hm => .inl (List.mem_of_mem_filter hm)) (fun _ _ hm => hm)
        refine hunblocked.congr rfl (fun _ => rfl) (fun d => ?_) (fun _ => rfl) rfl
        change ((({ s with agenda } : Session).unscheduled c).modifyConsumer c
          fun k => { k with suspended := false }).consumers[d]? =
          ((s.released (some c)).unscheduled c).consumers[d]?
        simp only [Session.released, Session.unscheduled, consumers_modifyConsumer]
        split
        · simp [Option.map_map, Function.comp_def]
        · rfl
      · cases hc'
        exact ⟨hready, k, hk, ho⟩
    · cases e

/-- A consumer of a query that is taken up goes on. -/
theorem Wired.takeReady (h : s.Wired X D) (htake : s.takeReady q = some (c, s')) :
    (s'.released (some c)).Wired X D ∧ s.isReady c = true ∧ ∃ k : Consumer,
      s.consumers[c]? = some k ∧ k.owner = .query q := by
  unfold Session.takeReady at htake
  obtain ⟨c', hfind, e⟩ := Option.map_eq_some_iff.1 htake
  cases e
  have hmem := List.mem_of_find?_eq_some hfind
  have hready := List.find?_some hfind
  obtain ⟨waiting, hw, hmem⟩ : ∃ waiting, s.queries[q]? = some waiting ∧ c ∈ waiting := by
    unfold blocked at hmem
    rw [Std.TreeMap.getD_eq_getD_getElem?] at hmem
    cases hw : s.queries[q]? with
    | none =>
      rw [hw] at hmem
      cases hmem
    | some waiting =>
      rw [hw] at hmem
      exact ⟨waiting, rfl, hmem⟩
  obtain ⟨k, hk, ho, -⟩ := h.waiter hw hmem
  refine ⟨?_, hready, k, hk, ho⟩
  refine h.relist hk ho false (fun waiting d hw => ?_) (fun waiting hw => (h.nodup hw).erase c)
  rw [(h.nodup hw).mem_erase_iff]
  split
  · next e => simp [e]
  · next e => simp [e]

/-! ## Queries that are opened and closed -/

/-- A query that is opened next has no consumers yet. -/
theorem Wired.owner_ne (h : s.Wired X D) {k : Consumer} (hk : s.consumers[c]? = some k) :
    k.owner ≠ .query s.nextId := by
  intro ho
  obtain ⟨waiting, hw, -⟩ := h.asker hk ho
  exact Nat.lt_irrefl _ (h.query_lt hw)

theorem Wired.openQuery (h : s.Wired X D) : s.openQuery.2.Wired X D := by
  have lists : ∀ q : Nat, (s.queries.insert s.nextId [])[q]? =
      if s.nextId = q then some [] else s.queries[q]? := by
    intro q
    simp only [Std.TreeMap.getElem?_insert, Std.LawfulEqCmp.compare_eq_iff_eq]
  refine { h.nextId (Nat.le_succ _) with
    query_lt := fun {q waiting} hq => ?_
    asker := fun {c k q} hc ho => ?_
    waiter := fun {q c waiting} hq hm => ?_
    nodup := fun {q waiting} hq => ?_ }
  · change q < s.nextId + 1
    change (s.queries.insert s.nextId [])[q]? = _ at hq
    rw [lists] at hq
    split at hq
    · omega
    · exact Nat.lt_succ_of_lt (h.query_lt hq)
  · obtain ⟨waiting, hw, hmem⟩ := h.asker hc ho
    refine ⟨waiting, ?_, hmem⟩
    change (s.queries.insert s.nextId [])[q]? = _
    rw [lists, if_neg (Nat.ne_of_gt (h.query_lt hw)), hw]
  · change (s.queries.insert s.nextId [])[q]? = _ at hq
    rw [lists] at hq
    split at hq
    · cases hq
      cases hm
    · exact h.waiter hq hm
  · change (s.queries.insert s.nextId [])[q]? = _ at hq
    rw [lists] at hq
    split at hq
    · cases hq
      exact List.nodup_nil
    · exact h.nodup hq

/-- The session without a query and its consumers. -/
def dismissed (s : Session) (q : Nat) : Session :=
  { s.removeAll (s.ownedBy (.query q)) with
    queries := (s.removeAll (s.ownedBy (.query q))).queries.erase q }

/-- A query that is not open has nothing to wait for. -/
theorem closeQuery_cases (s : Session) (q : Nat) :
    s.closeQuery q = s.removeAll (s.ownedBy (.query q)) ∨
      ∃ roots, s.closeQuery q = ((s.dismissed q).checkCompletion roots).note (.queryClosed q) := by
  unfold Session.closeQuery
  simp only
  split
  · exact .inr ⟨_, rfl⟩
  · exact .inl rfl

theorem Wired.dismissed (h : s.Wired X D) (q : Nat) : (s.dismissed q).Wired X D := by
  have h1 := h.removeAll (s.ownedBy (.query q))
  have hgone : ∀ {c : Nat} {k : Consumer},
      (s.removeAll (s.ownedBy (.query q))).consumers[c]? = some k → k.owner ≠ .query q :=
    fun hc => not_owned_removeAll hc
  have lists : ∀ {q' : Nat} {waiting : List Nat},
      ((s.removeAll (s.ownedBy (.query q))).queries.erase q)[q']? = some waiting →
      (s.removeAll (s.ownedBy (.query q))).queries[q']? = some waiting := by
    intro q' waiting hq'
    rw [Std.TreeMap.getElem?_erase] at hq'
    split at hq'
    · cases hq'
    · exact hq'
  refine { h1 with
    query_lt := fun hq => h1.query_lt (lists hq)
    asker := fun {c k q'} hc ho => ?_
    waiter := fun hq hm => h1.waiter (lists hq) hm
    nodup := fun hq => h1.nodup (lists hq) }
  obtain ⟨waiting, hw, hmem⟩ := h1.asker hc ho
  refine ⟨waiting, ?_, hmem⟩
  change ((s.removeAll (s.ownedBy (.query q))).queries.erase q)[q']? = some waiting
  have hne : q ≠ q' := by
    rintro rfl
    exact hgone hc ho
  rw [Std.TreeMap.getElem?_erase, if_neg (by simpa [Std.LawfulEqCmp.compare_eq_iff_eq] using hne),
    hw]

theorem Wired.closeQuery (h : s.Wired X D) (q : Nat) : (s.closeQuery q).Wired X D := by
  rcases s.closeQuery_cases q with e | ⟨roots, e⟩
  · rw [e]
    exact h.removeAll _
  · rw [e]
    exact ((h.dismissed q).checkCompletion roots).note _

end Session

end TabledRules
