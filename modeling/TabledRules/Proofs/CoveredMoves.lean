-- No move of the search for the next answer of a query loses an answer, of the
-- query or of a table.
import TabledRules.Proofs.CoveredTables

namespace TabledRules

/-! ## Steps in which nothing is read or found -/

/-- Consumers have read what they had read, and tables have the results that they had. -/
structure Session.Still (s s' : Session) : Prop where
  consumer : ∀ {c : Nat} {k : Consumer}, s.consumers[c]? = some k →
    ∃ k' : Consumer, s'.consumers[c]? = some k' ∧ k'.generator = k.generator ∧ k'.read = k.read
  generator : ∀ {g : Nat} {gen : Generator}, s.generators[g]? = some gen →
    ∃ gen' : Generator, s'.generators[g]? = some gen' ∧ gen'.goal = gen.goal ∧
      gen'.results = gen.results ∧ gen'.complete = gen.complete

namespace Session
variable {s s' s'' : Session} {g c q : Nat}

theorem Still.of_eq (hc : s'.consumers = s.consumers) (hg : s'.generators = s.generators) :
    s.Still s' :=
  ⟨fun hk => ⟨_, by rw [hc]; exact hk, rfl, rfl⟩, fun hgen => ⟨_, by rw [hg]; exact hgen, rfl, rfl, rfl⟩⟩

theorem Still.trans (h : s.Still s') (h' : s'.Still s'') : s.Still s'' := by
  refine ⟨fun hk => ?_, fun hgen => ?_⟩
  · obtain ⟨k', hk', h1, h2⟩ := h.consumer hk
    obtain ⟨k'', hk'', h3, h4⟩ := h'.consumer hk'
    exact ⟨k'', hk'', h3.trans h1, h4.trans h2⟩
  · obtain ⟨gen', hgen', h1, h2, h3⟩ := h.generator hgen
    obtain ⟨gen'', hgen'', h4, h5, h6⟩ := h'.generator hgen'
    exact ⟨gen'', hgen'', h4.trans h1, h5.trans h2, h6.trans h3⟩

theorem Noted.still (h : s.Noted s') : s.Still s' := by
  obtain ⟨j, p, rfl⟩ := h
  exact .of_eq rfl rfl

theorem still_modifyConsumer (s : Session) (c : Nat) {f : Consumer → Consumer}
    (hf : ∀ k, (f k).generator = k.generator ∧ (f k).read = k.read) :
    s.Still (s.modifyConsumer c f) := by
  refine ⟨fun {c' k} hk => ?_, fun hgen => ⟨_, hgen, rfl, rfl, rfl⟩⟩
  rw [consumers_modifyConsumer]
  split
  · next e => exact ⟨f k, by rw [e, hk]; rfl, hf k⟩
  · exact ⟨k, hk, rfl, rfl⟩

theorem still_modifyGenerator (s : Session) (g : Nat) {f : Generator → Generator}
    (hf : ∀ gen, (f gen).goal = gen.goal ∧ (f gen).results = gen.results ∧
      (f gen).complete = gen.complete) : s.Still (s.modifyGenerator g f) := by
  refine ⟨fun hk => ⟨_, hk, rfl, rfl⟩, fun {g' gen} hgen => ?_⟩
  obtain ⟨gen', hgen', ⟨-, rfl⟩ | rfl⟩ := s.find_modifyGenerator g f hgen
  · exact ⟨_, hgen', hf gen⟩
  · exact ⟨_, hgen', rfl, rfl, rfl⟩

theorem still_takeUp {task : Task} {agenda : Queue Task} {x : Option (Nat × Option Nat)}
    (h : ({ s with agenda } : Session).takeUp task = (x, s')) : s.Still s' := by
  rcases takeUp_cases h with ⟨g, -, rfl, -⟩ | ⟨c, -, rfl, -⟩
  · exact .of_eq rfl rfl
  · have hsame : s.Still { s with agenda } := .of_eq rfl rfl
    exact hsame.trans (Session.still_modifyConsumer _ c fun _ => ⟨rfl, rfl⟩)

theorem still_prepared (s : Session) (g : Nat) (resume : Option Nat) :
    s.Still (s.prepared g resume) := by
  cases resume with
  | none => exact s.still_modifyGenerator g fun _ => ⟨rfl, rfl, rfl⟩
  | some c => exact s.still_modifyGenerator g fun _ => ⟨rfl, rfl, rfl⟩

theorem still_released (s : Session) (resume : Option Nat) : s.Still (s.released resume) := by
  cases resume with
  | none => exact .of_eq rfl rfl
  | some c => exact s.still_modifyConsumer c fun _ => ⟨rfl, rfl⟩

theorem still_takeReady (h : s.takeReady q = some (c, s')) : s.Still s' := by
  unfold takeReady at h
  obtain ⟨c', -, e⟩ := Option.map_eq_some_iff.1 h
  cases e
  exact .of_eq rfl rfl

theorem Still.retains (h : s.Still s') (d : Nat) : s.Retains s' d := by
  intro k gen hk hgen
  obtain ⟨k', hk', h1, h2⟩ := h.consumer hk
  obtain ⟨gen', hgen', h3, h4, -⟩ := h.generator hgen
  exact ⟨k', gen', hk', h1, h2, hgen', h3, h4 ▸ List.prefix_refl _⟩

end Session

section
variable {P : Program} {X : Prospect P} {st : Settings} {o : Owner → Prop} {s s' s1 : Session}
  {m m' own : Machine} {want : Nat → Triple → Prop} {control : Control} {p : Progress}
  {g q added : Nat} {K : Triple → Prop} {Y D out : Nat → Prop}

theorem Session.Covered.still (h : s.Covered X out) (hm : s.Manned out) (hs : s.Spares o s')
    (hsame : s.SameTables s') (ho : ∀ g, o (.generator g) → out g) (hstill : s.Still s') :
    s'.Covered X out := by
  refine h.kept hm hs hsame ho fun hgen hgen' hc => .inl ?_
  obtain ⟨gen1, hgen1, -, -, e⟩ := hstill.generator hgen
  cases hgen'.symm.trans hgen1
  exact e ▸ hc

theorem Session.Covered.noted (h : s.Covered X out) (hm : s.Manned out) (hs : s.Noted s') :
    s'.Covered X out :=
  h.still hm (hs.spares fun _ => False) hs.sameTables (fun _ e => e.elim) hs.still

theorem Machine.Covers.still (h : m.Covers X s want control) (hs : s.Still s')
    (hgrows : s.Grows s') : m.Covers X s' want control where
  linked := h.linked.grows hgrows
  runs := h.runs
  gives n t hw := (h.gives n t hw).imp_left fun hgives =>
    hgives.retain (fun _ h => h) (fun _ _ d _ => hs.retains d) (fun _ h => h) rfl

/-- A machine that goes on with a consumer gives what it gave. -/
theorem restore_covers {c : Nat} (h : m.restore c s = (.ok (), m', s'))
    (hm : m.Covers X s want .backtrack) : m'.Covers X s' want .backtrack := by
  refine ⟨restore_linked h hm.linked, trivial, fun n t hw => .inl ?_⟩
  obtain ⟨x, hstack, hx, hnoted, rfl⟩ := restore_eq h
  have hstill := (s.still_released (some c)).trans hnoted.still
  refine ((hm.gives n t hw).resolve_right id).retain (fun y hy => ?_)
    (fun _ _ d _ => hstill.retains d) (fun _ h => h) rfl
  rcases hy with hy | ⟨d, hy⟩
  · rw [hstack] at hy
    cases hy
  · by_cases hd : c = d
    · subst hd
      cases hx.symm.trans hy
      exact .inl List.mem_cons_self
    · refine .inr ⟨d, ?_⟩
      change (m.suspended.erase c)[d]? = some y
      rw [Std.TreeMap.getElem?_erase]
      simpa [Std.LawfulEqCmp.compare_eq_iff_eq, hd] using hy

theorem resumed_covers {resume : Option Nat} (h : m.resumed resume s = (.ok (), m', s'))
    (hm : m.Covers X s want .backtrack) : m'.Covers X s' want .backtrack := by
  cases resume with
  | none =>
    cases h
    exact hm
  | some c => exact restore_covers h hm

/-! ## Phases that are sound -/

/-- The machines that are at work find answers only. -/
def Phase.Sound (P : Program) (K : Triple → Prop) (s : Session) : Phase → Prop
  | .search control own => s.Sound P ∧ own.Sound P s K ∧ control.Sound P K own
  | .pump _ g _ control m own => s.Sound P ∧ own.Sound P s K ∧ ∃ goal, s.About g goal ∧
    m.Sound P s (Answer P goal) ∧ control.Sound P (Answer P goal) m
  | .wait own | .agenda _ own | .returned own | .found _ own => s.Sound P ∧ own.Sound P s K

/-- The results of a table stay answers when an answer is added. -/
theorem Session.Sound.push {goal t : Triple} (hs : s.Sound P) (hg : s.About g goal)
    (ht : Answer P goal t) :
    (s.modifyGenerator g fun gen => { gen with results := gen.results.push t }).Sound P ∧
      s.Grows (s.modifyGenerator g fun gen => { gen with results := gen.results.push t }) := by
  refine hs.modifyGenerator (fun _ => rfl) (fun gen hgen u hu => ?_) (fun _ _ _ hm => .inl hm)
  change u ∈ (gen.results.push t).toList at hu
  rw [Index.toList_push, List.mem_append, List.mem_singleton] at hu
  exact hu.imp_right fun e => by rw [e, hg.2 gen hgen]; exact ht

theorem Ends.sound (hP : P.Compiled) {goal : Triple} {finished : Bool} {n : Nat}
    (h : Ends P st g added control m s finished n m' s') (hs : s.Sound P) (hg : s.About g goal)
    (hm : m.Sound P s (Answer P goal)) (hc : control.Sound P (Answer P goal) m) :
    s'.Sound P ∧ m'.Sound P s' (Answer P goal) ∧ s.Grows s' := by
  cases h with
  | dry hturn =>
    obtain ⟨h1, h2, h3, -⟩ := hturn.sound hP hm hc hs
    exact ⟨h2, h1, h3⟩
  | single hturn hnoted hgen hnew hsingle =>
    obtain ⟨h1, h2, h3, h4⟩ := hturn.sound hP hm hc hs
    have h5 := h3.trans hnoted.grows
    obtain ⟨h6, h7⟩ := (h2.sameTables hnoted.sameTables).push (hg.grows h5) h4
    exact ⟨h6, (h1.grows hnoted.grows).grows h7, h5.trans h7⟩
  | gone hturn hnoted hnone =>
    obtain ⟨h1, h2, h3, -⟩ := hturn.sound hP hm hc hs
    exact ⟨h2.sameTables hnoted.sameTables, h1.grows hnoted.grows, h3.trans hnoted.grows⟩

theorem Session.sameTables_completeAll (event : Triple → Nat → Event) (gs : List Nat)
    (s : Session) : s.SameTables (gs.foldl (Session.complete event) s) :=
  .foldl (fun s g => s.sameTables_complete event g) gs s

/-- Machines at work find answers only, at every move. -/
theorem Moves.sound (hP : P.Compiled) {x y : Phase × Session} (h : Moves P st q x y)
    (hx : x.1.Sound P K x.2) : y.1.Sound P K y.2 ∧ x.2.Grows y.2 := by
  have aside : ∀ {s s' : Session} {own : Machine}, s.Sound P ∧ own.Sound P s K →
      s.SameTables s' → (s'.Sound P ∧ own.Sound P s' K) ∧ s.Grows s' := fun hx hsame =>
    ⟨⟨hx.1.sameTables hsame, hx.2.grows hsame.grows⟩, hsame.grows⟩
  cases h with
  | turn hturn =>
    obtain ⟨hs, hm, hc⟩ := hx
    obtain ⟨h1, h2, h3, h4⟩ := hturn.sound hP hm hc hs
    exact ⟨⟨h2, h1, h4⟩, h3⟩
  | answer hturn hnoted =>
    obtain ⟨hs, hm, hc⟩ := hx
    obtain ⟨h1, h2, h3, -⟩ := hturn.sound hP hm hc hs
    exact ⟨⟨h2.sameTables hnoted.sameTables, h1.grows hnoted.grows⟩, h3.trans hnoted.grows⟩
  | dry hturn =>
    obtain ⟨hs, hm, hc⟩ := hx
    obtain ⟨h1, h2, h3, -⟩ := hturn.sound hP hm hc hs
    exact ⟨⟨h2, h1⟩, h3⟩
  | restore htake hr =>
    obtain ⟨⟨hs, hm⟩, hgrows⟩ := aside hx (Session.sameTables_takeReady htake)
    obtain ⟨h1, h2, h3⟩ := restore_sound hm hs hr
    exact ⟨⟨h2, h1, trivial⟩, hgrows.trans h3⟩
  | @ended m s hnone hblocked => exact aside hx (s.sameTables_note _)
  | await hnone hblocked => exact ⟨hx, .refl _⟩
  | @skip batch own s s' task agenda hready hpop htake =>
    have hsame := (s.sameTables_agenda agenda).trans
      (Session.sameTables_takeUp { s with agenda } task)
    rw [htake] at hsame
    exact aside hx hsame
  | @rests batch batch' own s s1 s2 s' task agenda g resume hready hpop htake hrests hbatch =>
    have hsame := (s.sameTables_agenda agenda).trans
      (Session.sameTables_takeUp { s with agenda } task)
    rw [htake] at hsame
    have hsame2 : s1.SameTables s2 := by
      rcases hrests with ⟨rfl, -⟩ | ⟨rfl, -⟩
      · exact .refl _
      · exact s1.sameTables_prepared g resume
    have hsame3 := s2.sameTables_endBatch (max st.completionCycles 1) (batch ++ [g])
    rw [hbatch] at hsame3
    exact aside hx ((hsame.trans hsame2).trans hsame3)
  | @start batch own m m' s s1 s' task agenda g resume gen hready hpop htake hgen hinc hmachine hr =>
    have hsame := (s.sameTables_agenda agenda).trans
      (Session.sameTables_takeUp { s with agenda } task)
    rw [htake] at hsame
    obtain ⟨⟨hs, hown⟩, hgrows⟩ := aside hx hsame
    have hsame2 : s1.SameTables ((s1.prepared g resume).modifyGenerator g
        fun gen => { gen with machine := none }) :=
      (s1.sameTables_prepared g resume).trans
        (Session.sameTables_modifyGenerator _ g fun _ => ⟨rfl, rfl, .inr rfl⟩)
    have hgrows2 := hsame2.grows
    obtain ⟨h1, h2, h3⟩ := resumed_sound ((hs.machine hgen hmachine).grows hgrows2)
      (hs.sameTables hsame2) hr
    have habout : s1.About g gen.goal := by
      refine ⟨hs.generator_lt hgen, fun gen' hgen' => ?_⟩
      cases hgen.symm.trans hgen'
      rfl
    exact ⟨⟨h2, (hown.grows hgrows2).grows h3, gen.goal, (habout.grows hgrows2).grows h3, h1,
      trivial⟩, (hgrows.trans hgrows2).trans h3⟩
  | work hturn =>
    obtain ⟨hs, hown, goal, hg, hm, hc⟩ := hx
    obtain ⟨h1, h2, h3, h4⟩ := hturn.sound hP hm hc hs
    exact ⟨⟨h2, hown.grows h3, goal, hg.grows h3, h1, h4⟩, h3⟩
  | known hturn hnoted hgen hold =>
    obtain ⟨hs, hown, goal, hg, hm, hc⟩ := hx
    obtain ⟨h1, h2, h3, -⟩ := hturn.sound hP hm hc hs
    have h5 := h3.trans hnoted.grows
    exact ⟨⟨h2.sameTables hnoted.sameTables, hown.grows h5, goal, hg.grows h5,
      h1.grows hnoted.grows, trivial⟩, h5⟩
  | result hturn hnoted hgen hnew hmany =>
    obtain ⟨hs, hown, goal, hg, hm, hc⟩ := hx
    obtain ⟨h1, h2, h3, h4⟩ := hturn.sound hP hm hc hs
    have h5 := h3.trans hnoted.grows
    obtain ⟨h6, h7⟩ := (h2.sameTables hnoted.sameTables).push (hg.grows h5) h4
    have h8 := h5.trans h7
    exact ⟨⟨h6, hown.grows h8, goal, hg.grows h8, (h1.grows hnoted.grows).grows h7, trivial⟩, h8⟩
  | @pumped batch batch' g added n control m m' own finished s s1 s' hends hbatch =>
    obtain ⟨hs, hown, goal, hg, hm, hc⟩ := hx
    obtain ⟨h1, h2, h3⟩ := hends.sound hP hs hg hm hc
    obtain ⟨h4, h5⟩ := endPump_sound n h2 h1 (hg.grows h3)
    have hsame := ((s1.endPump g n m').sameTables_settle g finished n).trans
      (Session.sameTables_endBatch _ (max st.completionCycles 1) (batch ++ [g]))
    rw [hbatch] at hsame
    have h6 := (h3.trans h5).trans hsame.grows
    exact ⟨⟨h4.sameTables hsame, hown.grows h6⟩, h6⟩
  | @leave batch own s hstop =>
    refine aside hx ?_
    split
    · exact .refl s
    · exact s.sameTables_checkCompletion batch
  | ready hready => exact ⟨hx, .refl _⟩
  | @check own s hno hready => exact aside hx (s.sameTables_checkCompletion _)
  | @force own s hno hstill =>
    exact aside hx ((s.sameTables_checkCompletion _).trans
      (Session.sameTables_completeAll .generatorDeadlocked _ _))

theorem MovesTo.sound (hP : P.Compiled) {x y : Phase × Session} (h : MovesTo P st q x y)
    (hx : x.1.Sound P K x.2) : y.1.Sound P K y.2 ∧ x.2.Grows y.2 := by
  induction h with
  | refl => exact ⟨hx, .refl _⟩
  | tail _ hmove ih =>
    obtain ⟨h1, h2⟩ := hmove.sound hP ih.1
    exact ⟨h1, ih.2.trans h2⟩

end

/-! ## Phases that are covered -/

/-- All that is due to tables, and all that is wanted of the query, is there or still given. -/
def Phase.Covered {P : Program} (X : Prospect P) (want : Nat → Triple → Prop) (s : Session) :
    Phase → Prop
  | .search control own => s.Covered X (fun _ => False) ∧ own.Covers X s want control
  | .pump _ g _ control m own => s.Covered X (· = g) ∧ own.Covers X s want .backtrack ∧
    ∃ gen : Generator, s.generators[g]? = some gen ∧ m.Covers X s (gen.Wants X) control
  | .wait own | .agenda _ own | .returned own =>
    s.Covered X (fun _ => False) ∧ own.Covers X s want .backtrack
  | .found answer own => s.Covered X (fun _ => False) ∧
    own.Covers X s (fun n t => want n t ∧ answer ≠ some t) .backtrack

section
variable {P : Program} {X : Prospect P} {st : Settings} {o : Owner → Prop} {s s' s1 : Session}
  {m m' own : Machine} {want : Nat → Triple → Prop} {control : Control} {p : Progress}
  {g q added : Nat} {K : Triple → Prop} {Y D out : Nat → Prop}

theorem Machine.Asks.not_done (h : own.Asks q s) : ¬ s.Done own.owner := by
  rw [h.owner]
  rintro ⟨-, hnone⟩
  obtain ⟨waiting, hw⟩ := h.works
  rw [hnone] at hw
  cases hw

/-- The machine of the query is spared. -/
theorem Machine.Covers.aside (h : own.Covers X s want .backtrack) (hown : own.Asks q s)
    (hown' : own.Asks q s') (hs : s.Spares o s') (hgrows : s.Grows s') (ho : ¬ o (.query q)) :
    own.Covers X s' want .backtrack :=
  h.spares hown.tied hs hgrows (hown.owner ▸ ho) hown'.not_done

/-- A turn of the machine of the query. -/
theorem Turn.covered_query (h : Turn P st control m s p m' s') (hp : ∀ e, p ≠ .done (.error e))
    (hP : P.Standard) (hK : ∀ u, K u → P.Finds u) (hkept : s.Idle ∧ m.Asks q s)
    (hsound : s.Sound P ∧ m.Sound P s K ∧ control.Sound P K m)
    (hcov : s.Covered X (fun _ => False) ∧ m.Covers X s want control) :
    s'.Covered X (fun _ => False) ∧ p.Covers X s' want m' := by
  obtain ⟨hs, hm, hc⟩ := hsound
  obtain ⟨-, -, hgrows, -⟩ := h.sound hP.compiled hm hc hs
  refine ⟨h.covered hp hgrows hkept.2.tied hkept.1.wired hkept.1.manned (fun g hg => ?_) hcov.1,
    h.covers hp hP hm hc hs hK hkept.2.tied hkept.1.wired hcov.1.full hcov.2⟩
  rw [hkept.2.owner] at hg
  cases hg

/-- A turn of the machine of a generator. -/
theorem Turn.covered_generator (h : Turn P st control m s p m' s')
    (hp : ∀ e, p ≠ .done (.error e)) (hP : P.Standard) (hkept : m.Pumps g added s) {goal : Triple}
    (hs : s.Sound P) (hm : m.Sound P s (Answer P goal)) (hc : control.Sound P (Answer P goal) m)
    (hcov : s.Covered X (· = g)) {gen : Generator} (hgen : s.generators[g]? = some gen)
    (hcovers : m.Covers X s (gen.Wants X) control) :
    s'.Covered X (· = g) ∧ ∃ gen' : Generator, s'.generators[g]? = some gen' ∧
      p.Covers X s' (gen'.Wants X) m' := by
  obtain ⟨-, -, hgrows, -⟩ := h.sound hP.compiled hm hc hs
  obtain ⟨-, heffect⟩ := h.effect hp
  obtain ⟨gen', hgen', htwin⟩ := (heffect.extends hkept.wired).find hgen
  refine ⟨h.covered hp hgrows hkept.tied hkept.wired hkept.manned (fun g' hg' => ?_) hcov,
    gen', hgen', ?_⟩
  · rw [hkept.owner] at hg'
    cases hg'
    rfl
  · have hwants : gen'.Wants X = gen.Wants X := by
      unfold Generator.Wants
      rw [htwin.goal, htwin.results]
    rw [hwants]
    exact h.covers hp hP hm hc hs (fun u hu => .inl ⟨goal, hu⟩) hkept.tied hkept.wired hcov.full
      hcovers

/-- A result that is not new adds nothing to a table. -/
theorem Generator.Wants.of_known {gen : Generator} {t u : Triple} {n : Nat}
    (hresults : ∀ u ∈ gen.results.toList, Answer P gen.goal u) (hold : gen.isNew u = false)
    (h : gen.Wants X n t) : t ≠ u := by
  rintro rfl
  unfold Generator.isNew at hold
  split at hold
  · next hsingle =>
    -- the one result of a ground goal is all that is due
    have hsize : gen.results.toList.length ≠ 0 := by
      rw [← Index.size_eq]
      simpa using hold
    obtain ⟨v, hv⟩ := List.exists_mem_of_length_pos (Nat.pos_of_ne_zero hsize)
    exact h.2 (X.due_single hsingle h.1 (hresults v hv) ▸ hv)
  · exact h.2 ((Index.contains_iff _ _).1 (by simpa using hold))

theorem Generator.wants_push {gen : Generator} {t u : Triple} {n : Nat}
    (h : ({ gen with results := gen.results.push u } : Generator).Wants X n t) :
    gen.Wants X n t ∧ t ≠ u := by
  have hno : t ∉ (gen.results.push u).toList := h.2
  rw [Index.toList_push, List.mem_append, List.mem_singleton, not_or] at hno
  exact ⟨⟨h.1, hno.1⟩, hno.2⟩

/-- The table whose machine is out gets another result. -/
theorem Session.Covered.push (h : s.Covered X (· = g)) (hm : s.Manned (· = g)) {t : Triple}
    (hgrows : s.Grows (s.modifyGenerator g fun gen => { gen with results := gen.results.push t })) :
    (s.modifyGenerator g fun gen => { gen with results := gen.results.push t }).Covered X
      (· = g) := by
  have look : ∀ (g' : Nat) (gen' : Generator), (s.modifyGenerator g fun gen =>
      { gen with results := gen.results.push t }).generators[g']? = some gen' →
      ∃ gen : Generator, s.generators[g']? = some gen ∧ gen'.goal = gen.goal ∧
        gen'.complete = gen.complete ∧ ∀ u ∈ gen.results.toList, u ∈ gen'.results.toList := by
    intro g' gen' hg
    rw [Session.generators_modifyGenerator] at hg
    split at hg
    · next e =>
      obtain ⟨gen, hgen, rfl⟩ := Option.map_eq_some_iff.1 hg
      refine ⟨gen, e ▸ hgen, rfl, rfl, fun u hu => ?_⟩
      change u ∈ (gen.results.push t).toList
      rw [Index.toList_push]
      exact List.mem_append_left _ hu
    · exact ⟨gen', hg, rfl, rfl, fun _ hu => hu⟩
  refine h.spares hm (s.spares_result g t) hgrows (fun g' e => by cases e; rfl)
    (fun g' gen' hg hc n u hdue => ?_) fun hg hnone => ?_
  · obtain ⟨gen, hgen, h1, h2, h3⟩ := look g' gen' hg
    rw [h1] at hdue
    exact h3 u (h.full g' gen hgen (h2 ▸ hc) n u hdue)
  · obtain ⟨gen, hgen, -⟩ := look _ _ hg
    rw [hnone] at hgen
    cases hgen

theorem Session.retains_push (s : Session) (g : Nat) (t : Triple) (d : Nat) :
    s.Retains (s.modifyGenerator g fun gen => { gen with results := gen.results.push t }) d := by
  intro k gen hk hgen
  obtain ⟨gen', hgen', ⟨-, rfl⟩ | rfl⟩ := s.find_modifyGenerator g
    (fun gen => { gen with results := gen.results.push t }) hgen
  · refine ⟨k, _, hk, rfl, rfl, hgen', rfl, ?_⟩
    rw [Index.toList_push]
    exact List.prefix_append _ _
  · exact ⟨k, _, hk, rfl, rfl, hgen', rfl, List.prefix_refl _⟩

/-- The machine that found a result gives what is left. -/
theorem Machine.Covers.push {gen : Generator} {t : Triple}
    (h : m.Covers X s (fun n u => gen.Wants X n u ∧ u ≠ t) .backtrack)
    (hgrows : s.Grows (s.modifyGenerator g fun gen => { gen with results := gen.results.push t })) :
    m.Covers X (s.modifyGenerator g fun gen => { gen with results := gen.results.push t })
      (({ gen with results := gen.results.push t } : Generator).Wants X) .backtrack where
  linked := h.linked.grows hgrows
  runs := trivial
  gives n u hw := (h.gives n u (Generator.wants_push hw)).imp_left fun hgives =>
    hgives.retain (fun _ h => h) (fun _ _ d _ => s.retains_push g t d) (fun _ h => h) rfl

/-! ## Machines that are put back -/

/-- What is wanted of a machine that has nothing to try waits for a consumer. -/
theorem Machine.Covers.waits (h : m.Covers X s want .backtrack) (ht : m.Tied s)
    (hstack : m.stack = []) {n : Nat} {t : Triple} (hw : want n t) :
    ∃ (c : Nat) (k : Consumer), s.consumers[c]? = some k ∧ k.owner = m.owner ∧
      k.suspended = true := by
  obtain ⟨x, hx | ⟨c, hx⟩, -⟩ := (h.gives n t hw).resolve_right id
  · rw [hstack] at hx
    cases hx
  · obtain ⟨-, k, hk, howner, hsusp⟩ := ht.waits hx
    exact ⟨c, k, hk, howner, hsusp⟩

/-- How a pump ends, and that the table is full if it is complete then. -/
theorem Ends.covered (hP : P.Standard) {finished : Bool} {n : Nat} {goal : Triple}
    (h : Ends P st g added control m s finished n m' s') (hkept : m.Pumps g added s)
    (hs : s.Sound P) (hg : s.About g goal) (hm : m.Sound P s (Answer P goal))
    (hc : control.Sound P (Answer P goal) m) (hcov : s.Covered X (· = g)) {gen : Generator}
    (hgen : s.generators[g]? = some gen) (hcovers : m.Covers X s (gen.Wants X) control) :
    s'.Covered X (· = g) ∧ ∃ gen' : Generator, s'.generators[g]? = some gen' ∧
      m'.Covers X s' (gen'.Wants X) .backtrack ∧
      (finished = true → ∀ n t, X.due n gen'.goal t → t ∈ gen'.results.toList) := by
  cases h with
  | dry hturn =>
    obtain ⟨h1, gen', hgen', h2⟩ := hturn.covered_generator (by simp) hP hkept hs hm hc hcov hgen
      hcovers
    refine ⟨h1, gen', hgen', h2, fun hfinished n t hdue => ?_⟩
    by_contra hno
    rw [hgen'] at hfinished
    obtain ⟨hkept', -⟩ := hturn.pumps (by simp) hkept
    cases n with
    | zero => exact X.not_due_zero _ _ hdue
    | succ n =>
      obtain ⟨c, k, hk, howner, hsusp⟩ := Machine.Covers.waits h2 hkept'.tied hturn.stack_of_dry
        ⟨hdue, hno⟩
      obtain ⟨gen1, hgen1, -, hlisted⟩ :=
        (hkept'.wired.worker hk (howner.trans hkept'.owner)).resolve_left id
      cases hgen'.symm.trans hgen1
      have hempty : gen'.generating = [] := by simpa using hfinished
      have hmem := hlisted hsusp
      rw [hempty] at hmem
      cases hmem
  | @single t gen1 _ s1 s2 hturn hnoted hgen1 hnew hsingle =>
    obtain ⟨h1, gen', hgen', h2⟩ := hturn.covered_generator (by simp) hP hkept hs hm hc hcov hgen
      hcovers
    obtain ⟨-, h3, h4, h5⟩ := hturn.sound hP.compiled hm hc hs
    obtain ⟨hkept', -⟩ := hturn.pumps (by simp) hkept
    have hkept2 := hkept'.noted hnoted
    have hgen2 : s2.generators[g]? = some gen' := by
      obtain ⟨j, pr, rfl⟩ := hnoted
      exact hgen'
    cases hgen1.symm.trans hgen2
    have habout := hg.grows (h4.trans hnoted.grows)
    obtain ⟨-, hgrows⟩ := (h3.sameTables hnoted.sameTables).push habout h5
    refine ⟨(h1.noted hkept'.manned hnoted).push hkept2.manned hgrows,
      { gen1 with results := gen1.results.push t }, ?_,
      (Machine.Covers.still h2 hnoted.still hnoted.grows).push hgrows, fun _ n u hdue => ?_⟩
    · rw [Session.generators_modifyGenerator, if_pos rfl, hgen1]
      rfl
    · have hanswer : Answer P gen1.goal t := by
        rw [habout.2 gen1 hgen1]
        exact h5
      change u ∈ (gen1.results.push t).toList
      rw [Index.toList_push, ← X.due_single hsingle hdue hanswer]
      exact List.mem_append_right _ (List.mem_singleton_self _)
  | gone hturn hnoted hnone =>
    obtain ⟨hkept', -⟩ := hturn.pumps (by simp) hkept
    obtain ⟨gen1, hgen1, -⟩ := (hkept'.noted hnoted).works
    rw [hnone] at hgen1
    cases hgen1

theorem Session.still_wake (s : Session) (c : Nat) : s.Still (s.wake c) := by
  unfold Session.wake
  split
  · have h := s.still_modifyConsumer c (f := fun k => { k with scheduled := true }) fun _ =>
      ⟨rfl, rfl⟩
    exact h.trans (.of_eq rfl rfl)
  · exact .of_eq rfl rfl

theorem Session.still_wakeReaders (s : Session) (g : Nat) : s.Still (s.wakeReaders g) := by
  have hall : ∀ (cs : List Nat) (s : Session), s.Still (cs.foldl Session.wake s) := by
    intro cs
    induction cs with
    | nil => exact fun s => .of_eq rfl rfl
    | cons c cs ih => exact fun s => (s.still_wake c).trans (ih _)
  unfold Session.wakeReaders
  split
  · exact hall _ s
  · exact .of_eq rfl rfl

theorem Session.still_endPump (s : Session) (g n : Nat) (m : Machine) :
    s.Still (s.endPump g n m) := by
  unfold Session.endPump
  split
  · exact .of_eq rfl rfl
  · have h := s.still_modifyGenerator g (f := fun gen => { gen with machine := some m }) fun _ =>
      ⟨rfl, rfl, rfl⟩
    exact h.trans (.of_eq rfl rfl)

theorem Session.look_endPump {n : Nat} {g' : Nat} {gen' : Generator}
    (h : (s.endPump g n m).generators[g']? = some gen') :
    ∃ gen : Generator, s.generators[g']? = some gen ∧ gen'.complete = gen.complete := by
  unfold Session.endPump at h
  split at h
  · exact ⟨gen', h, rfl⟩
  · change (s.modifyGenerator g _).generators[g']? = _ at h
    rw [Session.generators_modifyGenerator] at h
    split at h
    · next e =>
      obtain ⟨gen, hgen, rfl⟩ := Option.map_eq_some_iff.1 h
      exact ⟨gen, e ▸ hgen, rfl⟩
    · exact ⟨gen', h, rfl⟩

/-- The machine that was out is back. -/
theorem Session.Covered.back (h : s.Covered X (· = g))
    (hg : ∀ (gen : Generator) (m : Machine), s.generators[g]? = some gen → gen.complete = false →
      gen.machine = some m → m.Covers X s (gen.Wants X) .backtrack) :
    s.Covered X fun _ => False := by
  refine ⟨h.full, fun {g' gen m} hgen hinc _ hm => ?_⟩
  by_cases e : g' = g
  · subst e
    exact hg gen m hgen hinc hm
  · exact h.machine hgen hinc e hm

/-- A machine is put back: its table has all that is due to it and is completed, or readers of
its results are woken. -/
theorem Session.Covered.putBack {goal : Triple} {finished : Bool} {gen : Generator}
    (h : s.Covered X (· = g)) (hkept : m.Pumps g added s) (hs : s.Sound P) (hg : s.About g goal)
    (hm : m.Sound P s (Answer P goal)) (hgen : s.generators[g]? = some gen)
    (hcovers : m.Covers X s (gen.Wants X) .backtrack)
    (hfull : finished = true → ∀ n t, X.due n gen.goal t → t ∈ gen.results.toList) :
    ((s.endPump g added m).settle g finished added).Covered X fun _ => False := by
  obtain ⟨h1, gen1, hgen1, hmachine⟩ := hkept.endPump added
  obtain ⟨-, hgrows⟩ := endPump_sound added hm hs hg
  have hstill := s.still_endPump g added m
  obtain ⟨gen2, hgen2, hgoal, hresults, hcomplete⟩ := hstill.generator hgen
  cases hgen1.symm.trans hgen2
  have hcov : (s.endPump g added m).Covered X (· = g) := by
    refine h.spares hkept.manned (s.spares_endPump g added m) hgrows (fun g' e => by cases e; rfl)
      (fun g' gen' hgen' hc n t hdue => ?_) fun hgen' hnone => ?_
    · obtain ⟨gen3, hgen3, e⟩ := Session.look_endPump hgen'
      obtain ⟨gen4, hgen4, e1, e2, -⟩ := hstill.generator hgen3
      cases hgen'.symm.trans hgen4
      rw [e2]
      rw [e1] at hdue
      exact h.full g' gen3 hgen3 (e ▸ hc) n t hdue
    · obtain ⟨gen3, hgen3, -⟩ := Session.look_endPump hgen'
      rw [hnone] at hgen3
      cases hgen3
  have hm1 : m.Covers X (s.endPump g added m) (gen1.Wants X) .backtrack := by
    refine (hcovers.still hstill hgrows).imp fun n t hwant => ?_
    unfold Generator.Wants at hwant ⊢
    rw [← hgoal, ← hresults]
    exact hwant
  generalize s.endPump g added m = s1 at h1 hgen1 hcov hm1
  cases finished with
  | true =>
    have e : s1.settle g true added = s1.complete .generatorComplete g := by
      unfold Session.settle
      rw [if_pos rfl]
    rw [e]
    refine (hcov.complete h1.manned _ fun gen' n t hgen' hdue => ?_).back
      fun gen' m' hgen' hinc _ => ?_
    · cases hgen1.symm.trans hgen'
      rw [hresults]
      rw [hgoal] at hdue
      exact hfull rfl n t hdue
    · obtain ⟨gen3, hgen3, hc⟩ := Session.done_complete .generatorComplete hgen1
      cases hgen'.symm.trans hgen3
      rw [hinc] at hc
      cases hc
  | false =>
    have hback := hcov.back fun gen' m' hgen' _ hm' => by
      cases hgen1.symm.trans hgen'
      cases hmachine.symm.trans hm'
      exact hm1
    unfold Session.settle
    rw [if_neg (by simp)]
    split
    · exact hback
    · refine (hcov.still h1.manned (s1.spares_wakeReaders g fun _ => False)
        (s1.sameTables_wakeReaders g) (fun _ e => e.elim) (s1.still_wakeReaders g)).back
        fun gen' m' hgen' _ hm' => ?_
      rw [Session.wakeReaders_generators] at hgen'
      cases hgen1.symm.trans hgen'
      cases hmachine.symm.trans hm'
      exact hm1.still (s1.still_wakeReaders g) (s1.sameTables_wakeReaders g).grows

theorem Session.Covered.endBatch (h : s.Covered X fun _ => False) (hs : s.Idle) (size : Nat)
    (batch : List Nat) : (s.endBatch size batch).2.Covered X fun _ => False := by
  unfold Session.endBatch
  split
  · exact h.checkCompletion hs batch
  · exact h

/-! ## Moves -/

/-- The machine of a generator is taken out: it gives what its table wants. -/
theorem Session.Covered.takeOut (h : s.Covered X fun _ => False) (hidle : s.Idle) {task : Task}
    {agenda : Queue Task} {resume : Option Nat} {gen : Generator}
    (hpop : s.agenda.pop? = some (task, agenda))
    (htake : ({ s with agenda } : Session).takeUp task = (some (g, resume), s1))
    (hgen : s1.generators[g]? = some gen) (hinc : gen.complete = false)
    (hm : gen.machine = some m)
    (hr : m.resumed resume ((s1.prepared g resume).modifyGenerator g
      fun gen => { gen with machine := none }) = (.ok (), m', s')) :
    s'.Covered X (· = g) ∧ s.Still s' ∧ ∃ gen' : Generator, s'.generators[g]? = some gen' ∧
      m'.Covers X s' (gen'.Wants X) .backtrack := by
  have hspares1 : s.Spares (fun _ => False) s1 :=
    (s.spares_agenda agenda _).trans (Session.spares_takeUp _ htake _)
  have hsame1 := (s.sameTables_agenda agenda).trans
    (Session.sameTables_takeUp { s with agenda } task)
  rw [htake] at hsame1
  have hstill1 := Session.still_takeUp htake
  have hsame2 : s1.SameTables ((s1.prepared g resume).modifyGenerator g
      fun gen => { gen with machine := none }) :=
    (s1.sameTables_prepared g resume).trans
      (Session.sameTables_modifyGenerator _ g fun _ => ⟨rfl, rfl, .inr rfl⟩)
  have hstill2 : s1.Still ((s1.prepared g resume).modifyGenerator g
      fun gen => { gen with machine := none }) :=
    (s1.still_prepared g resume).trans (Session.still_modifyGenerator _ g fun _ => ⟨rfl, rfl, rfl⟩)
  have hcov1 := h.still hidle.manned hspares1 hsame1 (fun _ e => e) hstill1
  have hmachine := (hcov1.machine hgen hinc id hm).still hstill2 hsame2.grows
  obtain ⟨-, hspares⟩ := hidle.takeOut hpop htake hgen hinc hm hr
  generalize (s1.prepared g resume).modifyGenerator g (fun gen => { gen with machine := none }) = s2
    at hr hsame2 hstill2 hmachine
  have hend : (s2.released resume).Noted s' := by
    cases resume with
    | none =>
      cases hr
      exact .refl _
    | some c =>
      obtain ⟨-, -, -, hnoted, -⟩ := restore_eq hr
      exact hnoted
  have hstill3 := (s2.still_released resume).trans hend.still
  have hstill := (hstill1.trans hstill2).trans hstill3
  have hsame := (hsame1.trans hsame2).trans ((s2.sameTables_released resume).trans hend.sameTables)
  obtain ⟨gen', hgen', hgoal, hresults, -⟩ := (hstill2.trans hstill3).generator hgen
  refine ⟨(h.mono fun _ e => e.elim).still (hidle.manned.mono fun _ e => e.elim) hspares hsame
    (fun g' e => by cases e; rfl) hstill, hstill, gen', hgen', ?_⟩
  have hwants : gen'.Wants X = gen.Wants X := by
    unfold Generator.Wants
    rw [hgoal, hresults]
  rw [hwants]
  exact resumed_covers hr hmachine

/-- No move loses what is due to a table or wanted of the query. -/
theorem Moves.covered (hP : P.Standard) (hK : ∀ u, K u → P.Finds u) {x y : Phase × Session}
    (h : Moves P st q x y) (hkept : x.1.Kept q x.2) (hsound : x.1.Sound P K x.2)
    (hx : x.1.Covered X want x.2) : y.1.Covered X want y.2 := by
  obtain ⟨hkept', -⟩ := h.kept hkept
  obtain ⟨hsound', hgrows⟩ := h.sound hP.compiled hsound
  cases h with
  | turn hturn =>
    obtain ⟨h1, h2⟩ := hturn.covered_query (by simp) hP hK hkept hsound hx
    exact ⟨h1, h2⟩
  | answer hturn hnoted =>
    obtain ⟨h1, h2⟩ := hturn.covered_query (by simp) hP hK hkept hsound hx
    obtain ⟨h3, -⟩ := hturn.asks (by simp) hkept.1 hkept.2
    refine ⟨h1.noted h3.manned hnoted, ?_⟩
    refine (Machine.Covers.still h2 hnoted.still hnoted.grows).imp fun n t hw => ⟨hw.1, ?_⟩
    exact fun e => hw.2 (by rw [e])
  | dry hturn => exact hturn.covered_query (by simp) hP hK hkept hsound hx
  | @restore c m m' s s1 s' htake hr =>
    obtain ⟨-, -, hspares⟩ := hkept.1.restore hkept.2.1 htake hr
    obtain ⟨-, -, -, hnoted, -⟩ := restore_eq hr
    have hstill := Session.still_takeReady htake
    have hsame := Session.sameTables_takeReady htake
    refine ⟨hx.1.still hkept.1.manned hspares
      (hsame.trans ((s1.sameTables_released (some c)).trans hnoted.sameTables))
      (fun g e => by cases e) (hstill.trans ((s1.still_released (some c)).trans hnoted.still)), ?_⟩
    exact restore_covers hr (hx.2.still hstill hsame.grows)
  | @ended m s hnone hempty =>
    have hnoted := s.noted_note (.queryDone q)
    exact ⟨hx.1.noted hkept.1.manned hnoted,
      (hx.2.still hnoted.still hnoted.grows).imp fun n t hw => hw.1⟩
  | await hnone hne => exact hx
  | @skip batch own s s' task agenda hready hpop htake =>
    have hspares : s.Spares (fun _ => False) s' :=
      (s.spares_agenda agenda _).trans (Session.spares_takeUp _ htake _)
    have hsame := (s.sameTables_agenda agenda).trans
      (Session.sameTables_takeUp { s with agenda } task)
    rw [htake] at hsame
    have hstill := Session.still_takeUp htake
    exact ⟨hx.1.still hkept.1.manned hspares hsame (fun _ e => e.elim) hstill,
      hx.2.still hstill hsame.grows⟩
  | rests hready hpop htake hrests hbatch => exact (hkept.1.not_rests hpop htake hrests).elim
  | start hready hpop htake hgen hinc hm hr =>
    obtain ⟨h1, h2, h3⟩ := hx.1.takeOut hkept.1 hpop htake hgen hinc hm hr
    exact ⟨h1, hx.2.still h2 hgrows, h3⟩
  | work hturn =>
    obtain ⟨hs, -, goal, hg, hm, hc⟩ := hsound
    obtain ⟨hcov, hown, gen, hgen, hcovers⟩ := hx
    obtain ⟨h1, h2⟩ := hturn.covered_generator (by simp) hP hkept.1 hs hm hc hcov hgen hcovers
    obtain ⟨-, hspares⟩ := hturn.pumps (by simp) hkept.1
    exact ⟨h1, hown.aside hkept.2.toAsks hkept'.2.toAsks hspares hgrows (by simp), h2⟩
  | @known batch g added control m m' own t gen s s1 s' hturn hnoted hgen hold =>
    obtain ⟨hs, -, goal, hg, hm, hc⟩ := hsound
    obtain ⟨hcov, hown, gen0, hgen0, hcovers⟩ := hx
    obtain ⟨h1, gen1, hgen1, h2⟩ := hturn.covered_generator (by simp) hP hkept.1 hs hm hc hcov hgen0
      hcovers
    obtain ⟨hpumps, hspares⟩ := hturn.pumps (by simp) hkept.1
    have hgen2 : s'.generators[g]? = some gen1 := by
      obtain ⟨j, pr, rfl⟩ := hnoted
      exact hgen1
    cases hgen.symm.trans hgen2
    refine ⟨h1.noted hpumps.manned hnoted, hown.aside hkept.2.toAsks hkept'.2.toAsks
      (hspares.trans (hnoted.spares _)) hgrows (by simp), gen, hgen, ?_⟩
    refine (Machine.Covers.still h2 hnoted.still hnoted.grows).imp fun n u hw => ⟨hw, ?_⟩
    exact hw.of_known (fun _ => hsound'.1.results hgen) hold
  | @result batch g added control m m' own t gen s s1 s2 hturn hnoted hgen hnew hmany =>
    obtain ⟨hs, -, goal, hg, hm, hc⟩ := hsound
    obtain ⟨hcov, hown, gen0, hgen0, hcovers⟩ := hx
    obtain ⟨h1, gen1, hgen1, h2⟩ := hturn.covered_generator (by simp) hP hkept.1 hs hm hc hcov hgen0
      hcovers
    obtain ⟨-, h3, h4, h5⟩ := hturn.sound hP.compiled hm hc hs
    obtain ⟨hpumps, hspares⟩ := hturn.pumps (by simp) hkept.1
    have hgen2 : s2.generators[g]? = some gen1 := by
      obtain ⟨j, pr, rfl⟩ := hnoted
      exact hgen1
    cases hgen.symm.trans hgen2
    obtain ⟨-, hpush⟩ := (h3.sameTables hnoted.sameTables).push
      (hg.grows (h4.trans hnoted.grows)) h5
    refine ⟨(h1.noted hpumps.manned hnoted).push (hpumps.noted hnoted).manned hpush,
      hown.aside hkept.2.toAsks hkept'.2.toAsks
        ((hspares.trans (hnoted.spares _)).trans (s2.spares_result g t)) hgrows (by simp),
      { gen with results := gen.results.push t }, ?_,
      (Machine.Covers.still h2 hnoted.still hnoted.grows).push hpush⟩
    rw [Session.generators_modifyGenerator, if_pos rfl, hgen]
    rfl
  | @pumped batch batch' g added n control m m' own finished s s1 s' hends hbatch =>
    obtain ⟨hs, -, goal, hg, hm, hc⟩ := hsound
    obtain ⟨hcov, hown, gen0, hgen0, hcovers⟩ := hx
    obtain ⟨h1, gen1, hgen1, h2, h3⟩ := hends.covered hP hkept.1 hs hg hm hc hcov hgen0 hcovers
    obtain ⟨h4, h5, h6⟩ := hends.sound hP.compiled hs hg hm hc
    obtain ⟨h7, h8, h9⟩ := hends.pumps hkept.1
    have hback := (h1.putBack h7 h4 (hg.grows h6) h5 hgen1 h2 h3).endBatch (h7.settled h9)
      (max st.completionCycles 1) (batch ++ [g])
    have hspares := ((h8.trans (s1.spares_endPump g n m')).trans
      (Session.spares_settle _ g finished n _)).trans
      (Session.spares_endBatch ((s1.endPump g n m').settle g finished n)
        (max st.completionCycles 1) (batch ++ [g]) (· = .generator g))
    rw [hbatch] at hback hspares
    exact ⟨hback, hown.aside hkept.2.toAsks hkept'.2.toAsks hspares hgrows (by simp)⟩
  | @leave batch own s hstop =>
    obtain ⟨hcov, hspares⟩ : (if batch.isEmpty then s else s.checkCompletion batch).Covered X
        (fun _ => False) ∧
        s.Spares (fun _ => False) (if batch.isEmpty then s else s.checkCompletion batch) := by
      split
      · exact ⟨hx.1, .refl _ _⟩
      · exact ⟨hx.1.checkCompletion hkept.1 batch, s.spares_checkCompletion batch _⟩
    exact ⟨hcov, hx.2.aside hkept.2.toAsks hkept'.2.1.toAsks hspares hgrows id⟩
  | ready hready => exact hx
  | @check own s hno hready =>
    exact ⟨hx.1.checkCompletion hkept.1 _, hx.2.aside hkept.2.1.toAsks hkept'.2.1
      (s.spares_checkCompletion (s.blockedOn q) fun _ => False) hgrows id⟩
  | @force own s hno hstill =>
    obtain ⟨hidle, hwaits, hend⟩ := hkept
    have hspent : s.Spent := hend.resolve_left (by rw [hno]; simp)
    have hcov := hx.1.checkCompletion hidle (s.blockedOn q)
    have hidle' := hidle.checkCompletion (s.blockedOn q)
    have hspent' : (s.checkCompletion (s.blockedOn q)).Spent := by
      rw [Session.checkCompletion_eq]
      exact hspent.completeAll hidle.wired _ _
    refine ⟨hcov.completeAll _ _ hidle' fun g _ gen n t hgen hdue =>
      hcov.settled hidle'.manned hspent'.settled n trivial hgen hdue, ?_⟩
    exact hx.2.aside hwaits.toAsks hkept'.2.1
      ((s.spares_checkCompletion (s.blockedOn q) fun _ => False).trans
        (Session.spares_completeAll .generatorDeadlocked (s.blockedOn q) _ _)) hgrows id

theorem MovesTo.covered (hP : P.Standard) (hK : ∀ u, K u → P.Finds u) {x y : Phase × Session}
    (h : MovesTo P st q x y) (hkept : x.1.Kept q x.2) (hsound : x.1.Sound P K x.2)
    (hx : x.1.Covered X want x.2) : y.1.Covered X want y.2 := by
  induction h with
  | refl => exact hx
  | tail hmoves hmove ih =>
    exact hmove.covered hP hK (MovesTo.kept hmoves hkept).1
      (MovesTo.sound hP.compiled hmoves hsound).1 ih

/-- Nothing is wanted of a query that has come to its end. -/
theorem Machine.Covers.ended (h : own.Covers X s want .backtrack) (hs : s.Idle) (hown : own.Asks q s)
    (hstack : own.stack = []) (hblocked : s.blocked q = []) (n : Nat) (t : Triple) :
    ¬ want n t := by
  intro hwant
  obtain ⟨c, k, hk, howner, hsusp⟩ := h.waits hown.tied hstack hwant
  obtain ⟨waiting, hw, hlisted⟩ := hs.wired.asker hk (howner.trans hown.owner)
  have hmem := hlisted hsusp
  rw [Session.blocked, Std.TreeMap.getD_eq_getD_getElem?, hw] at hblocked
  cases (show waiting = [] from hblocked)
  cases hmem

end

end TabledRules
