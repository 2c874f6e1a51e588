-- Tables of ground goals. Such a table has no result or one, which is the goal
-- itself. Once it has its result it is complete: its machine never runs again,
-- and what is left of its consumers on the agenda does nothing.
import TabledRules.Proofs.Gains
import TabledRules.Proofs.Timelines

namespace TabledRules

section

variable {R : Registry} {s s' : Session} {σ σ' : Site} {a : Act} {r : Reply} {x y : Instant}
  {ms ns : List Mark} {g c : Nat}

/-! ## Steps that give a table a result -/

theorem Session.gainless_refresh (s : Session) (version : Nat) : s.Gainless (s.refresh version) := by
  unfold refresh
  split
  · exact .refl s
  · exact .of_empty (Nat.le_refl _) rfl

theorem Engine.gainless_find {e e' : Engine} {store : Store} {pattern : Triple} {handle : Handle}
    (hfind : e.find store pattern = (.ok handle, e')) : e.session.Gainless e'.session := by
  obtain ⟨m, s', -, hstart, rfl⟩ := find_ok hfind
  refine (e.session.gainless_refresh store.version).trans ?_
  have hopened : (e.session.refresh store.version).Gainless
      ((e.session.refresh store.version).openQuery.2.note
        (.queryOpened (e.session.refresh store.version).nextId pattern)) :=
    .of_eq (Nat.le_succ _) rfl
  refine hopened.trans ?_
  rcases startQuery_ok (P := ⟨⟨[]⟩, e.rules, store⟩) hstart with
    ⟨-, -, rfl⟩ | ⟨-, m0, g, s1, -, hg, -, rfl⟩
  · exact .refl _
  · exact Session.gainless_table hg g _

/-- An act that has no query look for an answer gives no table a result. -/
theorem Site.Does.gainless (h : σ.Does a r σ') (hr : ¬ r.Failed) (hσ : σ.engine.Kept R)
    (hno : ∀ id own, ¬ σ.Asks a id own) : σ.engine.session.Gainless σ'.engine.session := by
  rcases h.idle_cases hr hσ hno with ⟨-, hnoted | ⟨q, e⟩⟩ | ⟨pattern, handle, -, hfind⟩ | ⟨-, e⟩
  · exact hnoted.gainless
  · rw [e]
    exact σ.engine.session.gainless_closeQuery q
  · exact Engine.gainless_find hfind
  · rw [e]
    exact .of_empty (Nat.le_refl _) rfl

/-- The machine of the generator runs. -/
def Instant.Pumps : Instant → Nat → Prop
  | .rest _ => fun _ => False
  | .search _ _ _ phase _ => phase.Out

/-- A table gets a result in a step that runs its machine, and in no other. -/
theorem Instant.Step.gains (h : Step R x ns y) (hx : x.Kept R) :
    x.session.Gainless y.session ∨ ∃ g, x.Pumps g ∧ x.session.Gains g y.session := by
  cases h with
  | act hdoes hr hno => exact .inl (hdoes.gainless hr hx.1 hno)
  | ask => exact .inl (.refl _)
  | move hmove => exact hmove.gains hx.2.1
  | answer => exact .inl (.refl _)

/-- What a machine does throws no table away. -/
theorem Instant.Step.pumps_lasts (h : Step R x ns y) (hx : x.Kept R) (hg : x.Pumps g) :
    x.session.Lasts y.session := by
  cases h with
  | act => exact hg.elim
  | ask => exact hg.elim
  | move hmove =>
    exact (hmove.kept hx.2.1).2.lasts (fun _ => Phase.Runs.works) hmove.hands
  | answer => exact hg.elim

/-- The machine that runs has an incomplete table. -/
theorem Instant.Kept.pumps (h : x.Kept R) (hg : x.Pumps g) : x.session.Works (.generator g) := by
  cases x with
  | rest => cases hg
  | search σ a id phase s =>
    cases phase with
    | pump =>
      cases hg
      exact h.2.1.1.works
    | _ => cases hg

/-! ## Ground goals -/

/-- The table of the ground goal has a result. -/
def Session.Answered (s : Session) (g : Nat) : Prop :=
  ∃ gen : Generator, s.generators[g]? = some gen ∧ gen.goal.isGround = true ∧
    gen.results.toList ≠ []

/-- Ground goals that have a result are complete. -/
def Session.Prompt (s : Session) : Prop :=
  ∀ (g : Nat) (gen : Generator), s.generators[g]? = some gen → gen.goal.isGround = true →
    gen.results.toList ≠ [] → gen.complete = true

/-- A ground goal has no result but itself. -/
def Session.Literal (s : Session) : Prop :=
  ∀ (g : Nat) (gen : Generator), s.generators[g]? = some gen → gen.goal.isGround = true →
    ∀ t ∈ gen.results.toList, t = gen.goal

namespace Session

theorem Prompt.gainless (h : s.Prompt) (hs : s.Gainless s') : s'.Prompt := by
  intro g gen' hgen' hground hne
  rcases hs.table hgen' with ⟨-, hnil⟩ | ⟨gen, hgen, e1, e2, hc⟩
  · exact absurd hnil hne
  · exact hc (h g gen hgen (e1 ▸ hground) (e2 ▸ hne))

theorem Prompt.gains (h : s.Prompt) (hs : s.Gains g s') : s'.Prompt := by
  intro g' gen' hgen' hground hne
  by_cases e : g' = g
  · subst e
    obtain ⟨s1, gen1, gen2, t, -, hgen1, -, hback, hgen2, hc⟩ := hs
    cases hgen'.symm.trans hgen2
    rcases hback.table hgen' with ⟨-, hnil⟩ | ⟨gen3, hgen3, e1, -⟩
    · exact absurd hnil hne
    · rw [generators_modifyGenerator, if_pos rfl, hgen1] at hgen3
      cases hgen3
      exact hc (e1 ▸ hground)
  · rcases hs.other e hgen' with ⟨-, hnil⟩ | ⟨gen, hgen, e1, e2, hc⟩
    · exact absurd hnil hne
    · exact hc (h g' gen hgen (e1 ▸ hground) (e2 ▸ hne))

theorem Literal.gainless (h : s.Literal) (hs : s.Gainless s') : s'.Literal := by
  intro g gen' hgen' hground t ht
  rcases hs.table hgen' with ⟨-, hnil⟩ | ⟨gen, hgen, e1, e2, -⟩
  · rw [hnil] at ht
    cases ht
  · rw [e1]
    exact h g gen hgen (e1 ▸ hground) t (e2 ▸ ht)

/-- An answer to a ground goal is the goal. -/
theorem Sound.literal {P : Program} (hP : ∀ t, P.Stored t → t.isGround = true) (hs : s.Sound P) :
    s.Literal :=
  fun _ _ hgen hground _ ht =>
    ((derives_of_answer (hs.results hgen ht)).resolves hP).eq_of_isGround hground

end Session

theorem Timeline.prompt (h : Timeline R x ms y) (hx : x.Kept R) (hp : x.session.Prompt) :
    y.session.Prompt := by
  induction h with
  | start => exact hp
  | step hbefore hstep ih =>
    rcases hstep.gains (hbefore.kept hx) with hs | ⟨g, -, hs⟩
    · exact ih.gainless hs
    · exact ih.gains hs

/-- Only ground triples are added. -/
def Grounded (ms : List Mark) : Prop := ∀ t, .added t ∈ ms → t.isGround = true

theorem grounded_append : Grounded (ms ++ ns) ↔ Grounded ms ∧ Grounded ns := by
  simp [Grounded, or_imp, forall_and]

/-- Stored triples are ground, and tables have answers only. -/
def Instant.Sound (R : Registry) : Instant → Prop
  | .rest σ => σ.Ground ∧ ∃ K, σ.Sound R K
  | .search σ a _ phase s =>
    ((σ.Ground ∧ ∃ K, σ.Sound R K) ∧ ∃ K, phase.Sound (σ.program R) K s) ∧ ∀ t, a ≠ .add t

theorem Site.Does.rests_sound (h : σ.Does a r σ') (hσ : (Instant.rest σ).Sound R)
    (ha : ∀ t, a = .add t → t.isGround = true) : (Instant.rest σ').Sound R := by
  obtain ⟨hground, K, hsound⟩ := hσ
  obtain ⟨L, hfollows⟩ := hsound.does h
  exact ⟨h.ground hground ha, L, hfollows.sound⟩

theorem Instant.Step.sound (h : Step R x ns y) (hx : x.Sound R) (hns : Grounded ns) :
    y.Sound R := by
  cases h with
  | act hdoes =>
    refine hdoes.rests_sound hx ?_
    rintro t rfl
    exact hns t List.mem_cons_self
  | @ask σ a id own hasks =>
    obtain ⟨⟨handle, -, hact⟩, query, hq, hm, -, -, hobstacle⟩ := hasks
    obtain ⟨-, hv, -⟩ := of_obstacle hobstacle
    obtain ⟨hground, K, hsound⟩ := hx
    refine ⟨⟨⟨hground, K, hsound⟩, K id, hsound.tables (hsound.version_eq hq hv),
      (hsound.query hq hv).machine own hm, trivial⟩, ?_⟩
    rintro t rfl
    rcases hact with hact | hact <;> cases hact
  | move hmove =>
    obtain ⟨⟨⟨hground, L, hsound⟩, K, hphase⟩, ha⟩ := hx
    exact ⟨⟨⟨hground, L, hsound⟩, K, (hmove.sound hsound.compiled hphase).1⟩, ha⟩
  | answer hdoes => exact hdoes.rests_sound hx.1.1 fun t e => absurd e (hx.2 t)

theorem Timeline.sound (h : Timeline R x ms y) (hx : x.Sound R) (hms : Grounded ms) :
    y.Sound R := by
  induction h with
  | start => exact hx
  | step _ hstep ih =>
    obtain ⟨h1, h2⟩ := grounded_append.1 hms
    exact hstep.sound (ih h1) h2

/-- Where a query looks for an answer the tables have answers only; an act that has none look for
one adds no result. -/
theorem Timeline.literal (h : Timeline R x ms y) (hx : x.Kept R) (hsound : x.Sound R)
    (hl : x.session.Literal) (hms : Grounded ms) : y.session.Literal := by
  induction h with
  | start => exact hl
  | step hbefore hstep ih =>
    obtain ⟨h1, h2⟩ := grounded_append.1 hms
    have hy := hstep.sound (hbefore.sound hsound h1) h2
    cases hstep with
    | act hdoes hr hno => exact (ih h1).gainless (hdoes.gainless hr (hbefore.kept hx).1 hno)
    | ask => exact hy.1.2.choose_spec.session.literal (hy.1.1.1.stored R)
    | move => exact hy.1.2.choose_spec.session.literal (hy.1.1.1.stored R)
    | answer => exact ih h1

/-- The table of a ground goal has no result, or the goal is its one result and it is complete. -/
theorem Session.Literal.once (hl : s.Literal) (hp : s.Prompt) {gen : Generator}
    (hgen : s.generators[g]? = some gen) (hnodup : gen.results.toList.Nodup)
    (hground : gen.goal.isGround = true) :
    gen.results.toList = [] ∨ gen.results.toList = [gen.goal] ∧ gen.complete = true := by
  have hall := hl g gen hgen hground
  have hcomplete := hp g gen hgen hground
  cases hr : gen.results.toList with
  | nil => exact .inl rfl
  | cons t ts =>
    rw [hr] at hall hnodup hcomplete
    obtain rfl := hall t List.mem_cons_self
    cases ts with
    | nil => exact .inr ⟨rfl, hcomplete (List.cons_ne_nil _ _)⟩
    | cons u us =>
      obtain rfl := hall u (List.mem_cons_of_mem _ List.mem_cons_self)
      exact absurd List.mem_cons_self (List.nodup_cons.1 hnodup).1

/-- To complete a table changes no results. -/
theorem Session.results_complete (event : Triple → Nat → Event) (s : Session) (g g' : Nat) :
    ((s.complete event g).generators[g']?).map Generator.results =
      (s.generators[g']?).map Generator.results := by
  cases hgen : s.generators[g']? with
  | some gen =>
    obtain ⟨gen', hgen', hfollows⟩ := (spares_complete event s g fun _ => False).generator hgen
    rw [hgen', Option.map_some, Option.map_some, (hfollows.idle id).1]
  | none =>
    refine Option.map_eq_none_iff.2 (Option.eq_none_iff_forall_ne_some.2 fun gen' hgen' => ?_)
    obtain ⟨gen, hgen0, -⟩ := (s.sameTables_complete event g).generator hgen'
    cases hgen.symm.trans hgen0

/-! ## Afterwards -/

/-- The generator is complete or gone. -/
def Session.Retired (s : Session) (g : Nat) : Prop :=
  g < s.nextId ∧ ∀ gen : Generator, s.generators[g]? = some gen → gen.complete = true

/-- The consumer is the generator's, or gone. -/
def Session.Owns (s : Session) (g c : Nat) : Prop :=
  c < s.nextId ∧ ∀ k : Consumer, s.consumers[c]? = some k → k.owner = .generator g

theorem Session.Answered.gainless (h : s'.Answered g) (hs : s.Gainless s') : s.Answered g := by
  obtain ⟨gen', hgen', hground, hne⟩ := h
  rcases hs.table hgen' with ⟨-, hnil⟩ | ⟨gen, hgen, e1, e2, -⟩
  · exact absurd hnil hne
  · exact ⟨gen, hgen, e1 ▸ hground, e2 ▸ hne⟩

theorem Session.Answered.gains {g' : Nat} (h : s'.Answered g) (hne : g ≠ g')
    (hs : s.Gains g' s') : s.Answered g := by
  obtain ⟨gen', hgen', hground, hnil⟩ := h
  rcases hs.other hne hgen' with ⟨-, e⟩ | ⟨gen, hgen, e1, e2, -⟩
  · exact absurd e hnil
  · exact ⟨gen, hgen, e1 ▸ hground, e2 ▸ hnil⟩

/-- A ground goal gets its result from its own machine, and no other table gains any then. -/
theorem Instant.Step.answers (h : Step R x ns y) (hx : x.Kept R) (hno : ¬ x.session.Answered g)
    (hy : y.session.Answered g) :
    x.Pumps g ∧ ∀ (g' : Nat) (gen : Generator), g' ≠ g → x.session.generators[g']? = some gen →
      ∃ gen' : Generator, y.session.generators[g']? = some gen' ∧
        gen'.results.toList = gen.results.toList := by
  obtain ⟨X, hw⟩ := hx.wired
  rcases h.gains hx with hs | ⟨g0, hpumps, hs⟩
  · exact absurd (hy.gainless hs) hno
  · obtain rfl : g = g0 := by_contra fun hne => hno (hy.gains hne hs)
    refine ⟨hpumps, fun g' gen hne hgen => ?_⟩
    obtain ⟨gen', hgen', -⟩ := (h.pumps_lasts hx hpumps).table hgen
    rcases hs.other hne hgen' with ⟨hle, -⟩ | ⟨gen1, hgen1, -, e, -⟩
    · exact absurd (hw.generator_lt hgen) (Nat.not_lt.2 hle)
    · cases hgen.symm.trans hgen1
      exact ⟨gen', hgen', by rw [e]⟩

theorem Session.Retired.gainless (h : s.Retired g) (hs : s.Gainless s') : s'.Retired g := by
  refine ⟨Nat.lt_of_lt_of_le h.1 hs.nextId_le, fun gen' hgen' => ?_⟩
  rcases hs.table hgen' with ⟨hle, -⟩ | ⟨gen, hgen, -, -, hc⟩
  · exact absurd h.1 (Nat.not_lt.2 hle)
  · exact hc (h.2 gen hgen)

theorem Session.Retired.gains {g' : Nat} (h : s.Retired g) (hne : g ≠ g') (hs : s.Gains g' s') :
    s'.Retired g := by
  refine ⟨Nat.lt_of_lt_of_le h.1 hs.nextId_le, fun gen' hgen' => ?_⟩
  rcases hs.other hne hgen' with ⟨hle, -⟩ | ⟨gen, hgen, -, -, hc⟩
  · exact absurd h.1 (Nat.not_lt.2 hle)
  · exact hc (h.2 gen hgen)

theorem Instant.Kept.retired (h : x.Kept R) (hg : x.session.Retired g) : ¬ x.Pumps g := by
  intro hpumps
  obtain ⟨gen, hgen, hinc⟩ := h.pumps hpumps
  cases (hg.2 gen hgen).symm.trans hinc

theorem Timeline.retired (h : Timeline R x ms y) (hx : x.Kept R) (hg : x.session.Retired g) :
    y.session.Retired g := by
  induction h with
  | start => exact hg
  | step hbefore hstep ih =>
    have hy := hbefore.kept hx
    rcases hstep.gains hy with hs | ⟨g', hpumps, hs⟩
    · exact ih.gainless hs
    · exact ih.gains (fun e => hy.retired ih (e ▸ hpumps)) hs

theorem Timeline.owns (h : Timeline R x ms y) (hx : x.Kept R) (hc : x.session.Owns g c) :
    y.session.Owns g c := by
  induction h with
  | start => exact hc
  | step hbefore hstep ih =>
    rcases hstep.hands (hbefore.kept hx) with ⟨-, -, hs⟩ | ⟨-, -, hs⟩
    · refine ⟨Nat.lt_of_lt_of_le ih.1 hs.nextId_le, fun k' hk' => ?_⟩
      obtain ⟨k, hk, e⟩ := hs.reader hk' ih.1
      exact e.owner.trans (ih.2 k hk)
    · exact ⟨Nat.lt_of_lt_of_le ih.1 hs.nextId_le, fun k' hk' =>
        absurd ih.1 (Nat.not_lt.2 (hs.reader hk').1)⟩

/-- The consumer can be taken up, by its task or by a query. -/
def Session.Resumes (s : Session) (c : Nat) : Prop :=
  (∃ agenda x s', ({ s with agenda } : Session).takeUp (.resume c) = (some x, s')) ∨
    ∃ q s', s.takeReady q = some (c, s')

/-- What a generator that is complete or gone has owned does not go on. -/
theorem Instant.Kept.abandoned (h : x.Kept R) (hg : x.session.Retired g) (hc : x.session.Owns g c) :
    x.session.consumers[c]? = none ∧ ¬ x.session.Resumes c := by
  obtain ⟨X, hw⟩ := h.wired
  have hnone : x.session.consumers[c]? = none := by
    refine Option.eq_none_iff_forall_ne_some.2 fun k hk => ?_
    obtain ⟨gen, hgen, hinc, -⟩ := (hw.worker hk (hc.2 k hk)).resolve_left id
    cases (hg.2 gen hgen).symm.trans hinc
  refine ⟨hnone, ?_⟩
  rintro (⟨agenda, z, s', htake⟩ | ⟨q, s', htake⟩)
  · rcases Session.takeUp_cases htake with ⟨_, e, -⟩ | ⟨c', e, -, ⟨k, _, hk, -⟩ | ⟨e', -⟩⟩
    · cases e
    · cases e
      cases hnone.symm.trans hk
    · cases e'
  · obtain ⟨-, -, k, hk, -⟩ := hw.takeReady htake
    cases hnone.symm.trans hk

end

/-- Ground goals are answered once. Every history without failures is a timeline, and at every moment
of it the table of a ground goal has no result, or it has the goal as its one result and is
complete, if only ground triples were ever stored. It gets the result in a step of its own machine,
which ends the run of that machine and changes the results of no other table; nor does it change any
results to complete a table. From then on its machine does not run, and the consumers that it owned
are gone and are not taken up again, whatever is left on the agenda. -/
theorem ground_answered_once {R : Registry} {rules : RuleSet} {base : RuleBase} {graph : Graph}
    {st : Settings} (hbase : rules.compile R = .ok base)
    (hground : ∀ t ∈ graph.triples, t.isGround = true) :
    (∀ σ, (Site.new graph base st).Runs (fun _ r => ¬ r.Failed) σ →
      ∃ ms, Timeline R (.rest (Site.new graph base st)) ms (.rest σ)) ∧
    ∀ ms w, Timeline R (.rest (Site.new graph base st)) ms w →
      ((∀ t, .added t ∈ ms → t.isGround = true) →
        ∀ (g : Nat) (gen : Generator), w.session.generators[g]? = some gen →
        gen.goal.isGround = true →
        gen.results.toList = [] ∨ gen.results.toList = [gen.goal] ∧ gen.complete = true) ∧
      (∀ ns x g, Instant.Step R w ns x → ¬ w.session.Answered g → x.session.Answered g →
        w.Pumps g ∧ ¬ x.Pumps g ∧ ∀ (g' : Nat) (gen : Generator), g' ≠ g →
          w.session.generators[g']? = some gen → ∃ gen' : Generator,
            x.session.generators[g']? = some gen' ∧ gen'.results.toList = gen.results.toList) ∧
      (∀ (event : Triple → Nat → Event) (g g' : Nat),
        ((w.session.complete event g).generators[g']?).map Generator.results =
          (w.session.generators[g']?).map Generator.results) ∧
      ∀ ns x g, Timeline R w ns x → x.session.Answered g → ∀ ns' y, Timeline R x ns' y →
        ¬ y.Pumps g ∧ ∀ (c : Nat) (k : Consumer), w.session.consumers[c]? = some k →
          k.owner = .generator g → y.session.consumers[c]? = none ∧ ¬ y.session.Resumes c := by
  have hnew : (Instant.rest (Site.new graph base st)).Kept R :=
    ⟨Engine.new_kept hbase graph st, .of_empty rfl rfl⟩
  have hsound : (Instant.rest (Site.new graph base st)).Sound R :=
    ⟨hground, fun _ _ => True, Site.new_sound (compiled_of_compile hbase graph)⟩
  have hempty : ∀ (g : Nat) (gen : Generator),
      (Instant.rest (Site.new graph base st)).session.generators[g]? ≠ some gen := fun g gen hgen => by
    cases hgen.symm.trans Std.TreeMap.getElem?_emptyc
  have prompt : ∀ {ms x}, Timeline R (.rest (Site.new graph base st)) ms x → x.session.Prompt :=
    fun hx => hx.prompt hnew fun g gen hgen => absurd hgen (hempty g gen)
  -- a ground goal that has its result is complete
  have retired : ∀ {ms x g}, Timeline R (.rest (Site.new graph base st)) ms x → x.session.Answered g →
      x.session.Retired g := fun hx ⟨gen, hgen, h1, h2⟩ => by
    obtain ⟨X, hw⟩ := (hx.kept hnew).wired
    refine ⟨hw.generator_lt hgen, fun gen' hgen' => ?_⟩
    cases hgen.symm.trans hgen'
    exact prompt hx _ gen hgen h1 h2
  refine ⟨fun σ hruns => hruns.timeline (fun _ _ => id) hnew.1, fun ms w hw => ?_⟩
  have hkept := hw.kept hnew
  obtain ⟨X, hwired⟩ := hkept.wired
  obtain ⟨out, hb⟩ := hkept.balanced
  refine ⟨fun hms g gen hgen h => ?_,
    fun ns x g hstep hno hx => ?_, fun event g g' => ?_, fun ns x g hx hanswered ns' y hy => ?_⟩
  · have hliteral := hw.literal hnew hsound (fun g gen hgen => absurd hgen (hempty g gen)) hms
    exact hliteral.once (prompt hw) hgen (hb.filed.results hgen) h
  · obtain ⟨hpumps, hothers⟩ := hstep.answers hkept hno hx
    have hx' := hw.trans (.single hstep)
    exact ⟨hpumps, (hx'.kept hnew).retired (retired hx' hx), hothers⟩
  · exact w.session.results_complete event g g'
  · have hx' := hw.trans hx
    have hretired := hy.retired (hx'.kept hnew) (retired hx' hanswered)
    have hkept' := (hx'.trans hy).kept hnew
    refine ⟨hkept'.retired hretired, fun c k hk ho => hkept'.abandoned hretired ?_⟩
    refine (hx.trans hy).owns hkept ⟨hwired.consumer_lt hk, fun k' hk' => ?_⟩
    cases hk.symm.trans hk'
    exact ho

namespace Roads

/-- The query whether roads lead from `a` back to `a`, and its first answer. -/
def back : Option (Except Failure (Option Triple) × Engine) :=
  ((Engine.new graph.toStore base {}).find graph.toStore (leads (uri "a") (uri "a"))).2.next
    graph.toStore 1000 handle

theorem find_back : ((Engine.new graph.toStore base {}).find graph.toStore
    (leads (uri "a") (uri "a"))).1.toOption = some handle := by
  decide +kernel

/-- The first table is that of the query. Its one result is the goal, and the machine of the other
table still has a task. -/
theorem back_answered : (back.bind fun p => p.1.toOption.bind fun x =>
    (p.2.session.generators[2]?).map fun gen =>
      (x, gen.goal, gen.results.toList, gen.complete, p.2.session.agenda.toList.length)) =
    some (some (leads (uri "a") (uri "a")), leads (uri "a") (uri "a"),
      [leads (uri "a") (uri "a")], true, 1) := by
  decide +kernel

end Roads

/-- Over a cycle of roads the goal that a road leads back to where it starts is answered, and its
machine does not run again. -/
theorem ground_answered_once_roads : (∀ t ∈ Roads.graph.triples, t.isGround = true) ∧
    ∃ ms σ, Timeline Builtin.standard (.rest (Site.new Roads.graph Roads.base {})) ms (.rest σ) ∧
      σ.engine.session.Answered 2 ∧
      ∀ ns y, Timeline Builtin.standard (.rest σ) ns y → ¬ y.Pumps 2 := by
  obtain ⟨⟨x, e⟩, hback, h⟩ := Option.bind_eq_some_iff.1 Roads.back_answered
  obtain ⟨found, hx, h⟩ := Option.bind_eq_some_iff.1 h
  obtain ⟨gen, hgen, h⟩ := Option.map_eq_some_iff.1 h
  obtain rfl := ok_of_toOption hx
  obtain ⟨-, hgoal, hresults, -⟩ : found = _ ∧ gen.goal = _ ∧ gen.results.toList = _ ∧ _ := by
    simpa only [Prod.mk.injEq] using h
  have hanswered : e.session.Answered 2 :=
    ⟨gen, hgen, hgoal ▸ rfl, hresults ▸ List.cons_ne_nil _ _⟩
  obtain ⟨histories, moments⟩ := @ground_answered_once _ _ _ _ {} Roads.compile_rules Roads.ground_graph
  have hfind : (Site.new Roads.graph Roads.base {}).Does (.find _) (.opened (.ok Roads.handle)) _ :=
    .find (Engine.find_of_toOption Roads.find_back)
  obtain ⟨ms, hms⟩ := histories ⟨Roads.graph, e⟩
    ((Relation.ReflTransGen.refl.tail ⟨_, _, id, hfind⟩).tail ⟨_, _, id, .next hback⟩)
  obtain ⟨-, -, -, afterwards⟩ := moments ms _ hms
  exact ⟨Roads.ground_graph, ms, _, hms, hanswered, fun ns y hy =>
    (afterwards [] _ 2 .start hanswered ns y hy).1⟩

end TabledRules
