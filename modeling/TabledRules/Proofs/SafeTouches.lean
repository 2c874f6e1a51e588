-- No variable dangles, and none is bound twice. Whatever a machine does in its
-- life, it follows variables that are there, and binds variables that are there
-- and have no value, in the slots that environments share and when a snapshot is
-- bound again, too.
import TabledRules.Proofs.Backtracking
import TabledRules.Proofs.Containment

namespace TabledRules

open Bindings Register
open Operation (Agreeing)

/-! ## What is done in a step -/

/-- What is done where the next alternative of a choice point is tried, under the bindings that
the machine has gone back to. -/
def Choice.touches (n : Nat) (s : Session) (b : Bindings) (c : Choice) : List Touch :=
  match c.alternatives with
  | .clauses _ args _ => (args.take 3).map (.deref b)
  | .facts goal (fact :: _) | .answers goal (fact :: _) => b.allTouches n goal.terms fact.terms
  | .results d goal =>
    match (s.read d).1 with
    | .result t => b.allTouches n goal.terms t.terms
    | _ => []
  | .facts _ [] | .answers _ [] => []

/-- The bindings into which a snapshot is brought back: all of them are undone, and no variables
are left but those that are pinned. -/
def Machine.cleared (m : Machine) : Bindings := (m.bindings.unwind 0).reclaim m.pinned.vars

namespace Scene

/-- The bindings with which the next step works. -/
def bindings (x : Scene) : Bindings :=
  match x.moment.control, x.machine.stack with
  | .backtrack, c :: _ => (x.machine.rewind c).bindings
  | _, _ => x.machine.bindings

/-- What is done to variables in the next step. Slots are those of the arena. -/
def touches (w : World) (n : Nat) (x : Scene) : List Touch :=
  match x.moment.control with
  | .run env (.operation op :: _) => op.touches n (x.arena.registers env x.machine)
  | .run _ (.call _ :: _) => x.machine.called.terms.map (.deref x.machine.bindings)
  | .run env (.builtin f arity :: _) =>
    f.touches n w.store env.rule? x.machine.bindings (x.machine.args.take arity)
  | .run .root (.proceed :: _) =>
    ((x.arena.vars 0).filterMap id).map (.deref x.machine.bindings)
  | .run (.frame _ _ _ _ _ _) (.proceed :: _) | .run _ [] => []
  | .backtrack =>
    match x.machine.stack with
    | [] => []
    | c :: _ => c.touches n x.moment.session (x.machine.rewind c).bindings

/-- Something happens to a machine over ground triples, and it does not fail. No result that
others give to a table has variables. -/
def GoesOn (P : Program) (x x' : Scene) : Prop :=
  ∃ h, x.moment.Passes P.Grounds Session.Clear h x'.moment ∧ x'.arena = x.arena.after h x.moment

/-- A part of the life of a machine over ground triples. -/
def Lives (P : Program) : Scene → Scene → Prop := Relation.ReflTransGen (GoesOn P)

/-- What can be done next is safe. -/
structure Safe (P : Program) (x : Scene) : Prop where
  /-- A step follows and binds variables that are there, and binds none that has a value. -/
  step : ∀ w n, P.Grounds w → ∀ z ∈ x.touches w n, z.Safe
  /-- If the step goes on with code, nothing else was done to the bindings. -/
  leads : ∀ w n env code m s, P.Grounds w →
    x.machine.step w n x.moment.control x.moment.session = (.go (.run env code), m, s) →
    Touch.Leads x.bindings (x.touches w n) m.bindings
  /-- So it is where a consumer comes back and its snapshot is bound again. -/
  restore : ∀ (d : Nat) (c : Choice), x.machine.suspended[d]? = some c →
    (∀ z ∈ x.machine.cleared.restoreTouches c.bindings.snapshot, z.Safe) ∧
      (x.machine.cleared.restore c.bindings.snapshot).Alike (x.machine.restored d c).bindings

end Scene

section

variable {P : Program} {R : Registry} {W W' : World → Prop} {ok ok' : Session → Prop}
  {h : Happening} {x0 x x' : Scene} {y y' : Moment} {m m' : Machine} {s s' : Session}
  {c : Choice} {rest : List Choice} {env : Env} {code : List Instruction} {n fuel d : Nat}
  {w : World} {F : Arena} {own : Triple} {op : Operation} {p : Term → Prop}
  {control control' : Control} {vars : List (Option Term)} {o : Option Triple}

theorem Moment.Passes.mono (h' : y.Passes W ok h y') (hW : ∀ w, W w → W' w)
    (hok : ∀ s, ok s → ok' s) : y.Passes W' ok' h y' := by
  cases h' with
  | setUp hw h0 hm => exact .setUp (hW _ hw) h0 hm
  | setUpQuery hw h0 hm => exact .setUpQuery (hW _ hw) h0 hm
  | step hw hstep hp => exact .step (hW _ hw) hstep hp
  | restore hrestore => exact .restore hrestore
  | others hle hs => exact .others hle (hok _ hs)

theorem Scene.GoesOn.passes (h : x.GoesOn P x') : x.Passes P x' := by
  obtain ⟨k, hpasses, harena⟩ := h
  exact ⟨k, hpasses.mono (fun _ hw => hw.1) fun _ _ => trivial, harena⟩

/-- All its life a machine holds what it may look at. -/
theorem Scene.Lives.holds (hP : P.Compiled) (hstd : P.registry = Builtin.standard)
    (hx0 : x0.Begins P) (hclear : x0.moment.session.Clear) (h : x0.Lives P x) :
    x.Sound P x0.machine.standard ∧ x.moment.Contained x0.machine.standard := by
  induction h with
  | refl => exact ⟨hx0.sound, hx0.fresh.contained hclear⟩
  | tail _ hgoes ih =>
    obtain ⟨hsound, hcontained⟩ := ih
    refine ⟨hgoes.passes.sound hP hsound, ?_⟩
    obtain ⟨k, hpasses, -⟩ := hgoes
    exact hpasses.contained hP hstd hcontained hsound.ready

/-! ## Steps are safe -/

/-- What an operation reads of shared slots is what it reads of its own. -/
theorem Env.Runs.reads_shared (h : env.Runs p m (.operation op :: code))
    (hown : Agreeing env.vars vars) :
    ∀ y ∈ op.reads, ∀ t, ((m.registers env).withVars vars).value? y = some t → p t := by
  cases env with
  | root => cases h
  | frame i cl vars' caller back commit =>
    obtain ⟨-, K, hgrants, hsuff⟩ := h
    intro y hy t ht
    have hK := hsuff.1.reads y hy
    cases y with
    | arg j | temp j => exact hgrants.value _ hK t ht
    | slot j =>
      obtain ⟨u, hu⟩ := Option.isSome_iff_exists.1 ((hgrants.slot j).1 hK)
      have e : u = t := Option.some.inj ((hown.value j u hu).symm.trans ht)
      exact e ▸ hgrants.value _ hK u hu

theorem Choice.Contained.touches_safe (hc : c.Contained own) (hs : s.Clear) (m : Machine) :
    ∀ z ∈ c.touches n s (m.rewind c).bindings, z.Safe := by
  obtain ⟨hsane, more⟩ := hc.popped m []
  have halt := hc.alternatives
  cases hcase : c.alternatives with
  | clauses cls args ground =>
    rw [hcase] at halt
    simp only [Choice.touches, hcase]
    refine Touch.safe_derefs hsane fun t ht => ?_
    obtain ⟨j, hj, rfl⟩ := List.mem_take_iff_getElem.1 ht
    have hlt := Nat.lt_min.1 hj
    exact more _ (halt j hlt.1 _ (List.getElem?_eq_getElem hlt.2))
  | facts goal facts | answers goal facts =>
    rw [hcase] at halt
    simp only [Choice.touches, hcase]
    cases facts with
    | nil => exact List.forall_mem_nil _
    | cons fact facts =>
      refine allTouches_safe hsane (fun t ht => more t (halt.1 t ht)) fun t ht => .of_isGround ?_
      exact Triple.isGround_iff.1 (halt.2 fact List.mem_cons_self) t ht
  | results d goal =>
    rw [hcase] at halt
    simp only [Choice.touches, hcase]
    rcases hread : s.read d with ⟨_ | _ | _, s'⟩
    · exact allTouches_safe hsane (fun t ht => more t (halt t ht)) fun t ht =>
        (hs.read hread t ht).knows _
    · exact List.forall_mem_nil _
    · exact List.forall_mem_nil _

theorem Scene.Sound.touches_safe (hx : x.Sound P own) (hc : x.moment.Contained own) (w : World)
    (n : Nat) : ∀ z ∈ x.touches w n, z.Safe := by
  have hb := hc.confined.bindings
  unfold Scene.touches
  split
  · next env op code hcontrol =>
    obtain ⟨hwithin, hruns⟩ := hc.confined.control hcontrol
    have hfits := hx.serves.fits
    rw [hcontrol] at hfits
    have hown := hfits.own (hruns.isFrame (by simp))
    exact Operation.touches_safe hb (hwithin.plain _ List.mem_cons_self) (hruns.reads_shared hown)
  · next hcontrol =>
    obtain ⟨-, hruns⟩ := hc.confined.control hcontrol
    exact Touch.safe_derefs hb (Machine.called_terms (Bindings.knows_any _) hruns.args)
  · next hcontrol =>
    obtain ⟨hwithin, hruns⟩ := hc.confined.control hcontrol
    obtain ⟨name, hf⟩ := hwithin.plain _ List.mem_cons_self
    exact Builtin.touches_safe hf hb hruns.takes
  · refine Touch.safe_derefs hb fun t ht => hc.confined.goal t ?_
    rw [hx.serves.fits.root.eq_map] at ht
    simpa using ht
  · exact List.forall_mem_nil _
  · exact List.forall_mem_nil _
  · split
    · exact List.forall_mem_nil _
    · next c rest hstack =>
      exact (hc.choice (.inl (hstack ▸ List.mem_cons_self))).touches_safe hc.tables _

/-- Nothing else is done to the bindings in a step that goes on with code. -/
theorem Scene.Sound.leads_touches (hx : x.Sound P own)
    (hstep : x.machine.step w n x.moment.control x.moment.session = (.go (.run env code), m, s)) :
    Touch.Leads x.bindings (x.touches w n) m.bindings := by
  obtain ⟨⟨control, m0, s0⟩, F⟩ := x
  have hacts : m0.Acts w.program w.settings n s0 control (.run env code) m s :=
    acts_of_step hstep rfl
  cases hacts with
  | @operation env op code g hop =>
    have hown := hx.serves.fits.own ((hx.ready.control rfl).isFrame (by simp))
    obtain ⟨vars, hrun, -⟩ := op.run_shared hown hop
    exact @Operation.leads_touches env.name n (F.registers env m0) (g.withVars vars) op hrun
  | builtin hrun => exact Builtin.leads_touches hrun
  | @leave _ _ _ _ _ _ commit =>
    cases commit <;> exact .done m0.bindings
  | enter hstack halt =>
    simp only [Scene.bindings, Scene.touches, Scene.machine, hstack, Choice.touches, halt]
    exact Touch.leads_derefs _ _
  | resume hstack hoffers _ hu =>
    simp only [Scene.bindings, Scene.touches, Scene.machine, hstack, Choice.touches]
    cases hoffers with
    | fact halt | answer halt =>
      simp only [halt]
      exact leads_allTouches hu
    | result halt hread =>
      simp only [halt, hread]
      exact leads_allTouches hu

theorem Machine.Tracked.cleared (h : m.Tracked) :
    m.cleared.Trailed ∧ m.cleared.size = m.pinned.vars := by
  obtain ⟨htrail, hnone⟩ := h.trailed.unwind_all
  refine ⟨.of_unbound htrail fun v => ?_, ?_⟩
  · rw [Machine.cleared, value?_reclaim, hnone]
    split <;> rfl
  · change min (m.bindings.unwind 0).size m.pinned.vars = _
    rw [size_unwind]
    exact Nat.min_eq_right h.pinned_le

theorem Machine.Tracked.restore_safe (h : m.Tracked) (hc : m.suspended[d]? = some c) :
    (∀ z ∈ m.cleared.restoreTouches c.bindings.snapshot, z.Safe) ∧
      (m.cleared.restore c.bindings.snapshot).Alike (m.restored d c).bindings := by
  have htrailed : c.bindings.Trailed := h.choice (.inr ⟨d, hc⟩)
  obtain ⟨hcleared, hsize⟩ := h.cleared
  have hle : c.bindings.size ≤ m.cleared.size := by
    rw [hsize]
    exact h.suspended_le hc
  have halike := htrailed.restore hcleared hle
  rw [hsize] at halike
  refine ⟨htrailed.restoreTouches_safe hcleared hle, ?_⟩
  change Alike _ (c.bindings.grow m.discard.pinnedVars)
  rw [h.discard_pinnedVars]
  exact halike

/-- All its life a machine can do nothing that is not safe. -/
theorem Scene.Lives.safe (hP : P.Compiled) (hstd : P.registry = Builtin.standard)
    (hx0 : x0.Begins P) (hclear : x0.moment.session.Clear) (h : x0.Lives P x) : x.Safe P := by
  obtain ⟨hsound, hcontained⟩ := h.holds hP hstd hx0 hclear
  exact ⟨fun w n _ => hsound.touches_safe hcontained w n,
    fun _ _ _ _ _ _ _ hstep => hsound.leads_touches hstep,
    fun _ _ hc => hsound.regular.tracked.restore_safe hc⟩

/-- A run that does not fail is a part of a life. -/
theorem run_lives (hw : P.Grounds w)
    (h : Machine.run w fuel control m s = some (.ok o, m', s')) (F : Arena) :
    ∃ F', Scene.Lives P ⟨⟨control, m, s⟩, F⟩ ⟨⟨.backtrack, m', s'⟩, F'⟩ := by
  induction fuel generalizing control m s F with
  | zero => cases h
  | succ fuel ih =>
    rcases hstep : m.step w fuel control s with ⟨p, m1, s1⟩
    rcases run_of_step hstep h with ⟨rfl, rfl, rfl⟩ | ⟨control1, rfl, hrun⟩
    · exact ⟨_, .single ⟨_, .step hw hstep rfl, rfl⟩⟩
    · obtain ⟨F', hrest⟩ := ih hrun (F.step fuel ⟨control, m, s⟩)
      exact ⟨F', .head ⟨_, .step hw hstep rfl, rfl⟩ hrest⟩

/-- To ask for the next answer is a part of a life. -/
theorem Scene.Lives.next (hP : P.Compiled) (hstd : P.registry = Builtin.standard)
    (hx0 : x0.Begins P) (hclear : x0.moment.session.Clear)
    (hx : x0.Lives P ⟨⟨.backtrack, m, s⟩, F⟩) (hw : P.Grounds w)
    (h : m.next w fuel s = some (.ok o, m', s')) :
    ∃ F', x0.Lives P ⟨⟨.backtrack, m', s'⟩, F'⟩ := by
  unfold Machine.next at h
  split at h
  · next t m1 s1 hrun =>
    cases h
    obtain ⟨F', hlives⟩ := run_lives hw hrun F
    have hall : x0.Lives P ⟨⟨.backtrack, m', s1⟩, F'⟩ := hx.trans hlives
    have hs1 : s1.Clear := (hall.holds hP hstd hx0 hclear).2.tables
    exact ⟨F', hall.tail ⟨.others, .others (Nat.le_refl _)
      (hs1.gainless (s1.noted_note _).gainless), rfl⟩⟩
  · obtain ⟨F', hlives⟩ := run_lives hw h F
    exact ⟨F', hx.trans hlives⟩

/-! ## Histories -/

/-- The store, the rules and the settings with which the machines run. -/
def Instant.world : Instant → World
  | .rest σ | .search σ _ _ _ _ => ⟨σ.graph.toStore, σ.engine.rules, σ.engine.settings⟩

theorem Instant.Sound.grounds {z : Instant} (h : z.Sound R) :
    ∀ t, z.world.program.Stored t → t.isGround = true := by
  cases z with
  | rest σ => exact fun t ht => h.1.stored R t ht
  | search σ a id phase s => exact fun t ht => h.1.1.1.stored R t ht

theorem Instant.Step.rules {z z' : Instant} {ns : List Mark} (h : Step R z ns z')
    (hz : z.Sound R) : z'.world.rules = z.world.rules := by
  cases h with
  | act hdoes =>
    obtain ⟨-, K, hsound⟩ := hz
    exact (hsound.does hdoes).choose_spec.rules
  | ask | move => rfl
  | answer hdoes =>
    obtain ⟨⟨⟨-, K, hsound⟩, -⟩, -⟩ := hz
    exact (hsound.does hdoes).choose_spec.rules

variable {z z' : Instant} {ms : List Mark}

theorem Timeline.rules (h : Timeline R z ms z') (hz : z.Sound R) (hms : Grounded ms) :
    z'.world.rules = z.world.rules := by
  induction h with
  | start => rfl
  | step hbefore hstep ih =>
    have h1 := (grounded_append.1 hms).1
    exact (hstep.rules (hbefore.sound hz h1)).trans (ih h1)

/-- No result of any table ever has variables. -/
theorem Timeline.clear (h : Timeline R z ms z') (hz : z.Kept R) (hsound : z.Sound R)
    (hclear : z.session.Clear) (hms : Grounded ms) : z'.session.Clear := by
  induction h with
  | start => exact hclear
  | step hbefore hstep ih =>
    obtain ⟨h1, h2⟩ := grounded_append.1 hms
    have hy := hstep.sound (hbefore.sound hsound h1) h2
    cases hstep with
    | act hdoes hr hno => exact (ih h1).gainless (hdoes.gainless hr (hbefore.kept hz).1 hno)
    | ask => exact hy.1.2.choose_spec.session.clear (hy.1.1.1.stored R)
    | move => exact hy.1.2.choose_spec.session.clear (hy.1.1.1.stored R)
    | answer => exact ih h1

end

/-- No variable dangles, and none is bound twice. Let rules be compiled with the standard builtins.
Whatever happens to a machine over ground triples that does not fail, the variables that it follows
or binds in the next step are there, those that it binds have no value, and it is the same where
the snapshot of a consumer is bound again. The tables have no variables among their results then;
and they have none at any moment of any history in which only ground triples are stored, where
machines run over ground triples and with these rules. -/
theorem no_variable_dangles {rules : RuleSet} {base : RuleBase} {graph : Graph} {st : Settings}
    (hbase : rules.compile Builtin.standard = .ok base)
    (hground : ∀ t ∈ graph.triples, t.isGround = true) :
    (∀ ms z, Timeline Builtin.standard (.rest (Site.new graph base st)) ms z →
      (∀ t, .added t ∈ ms → t.isGround = true) →
      z.session.Clear ∧ Program.Grounds ⟨Builtin.standard, base, graph.toStore⟩ z.world) ∧
    ∀ x0 x : Scene, x0.Begins ⟨Builtin.standard, base, graph.toStore⟩ → x0.moment.session.Clear →
      x0.Lives ⟨Builtin.standard, base, graph.toStore⟩ x →
      x.Safe ⟨Builtin.standard, base, graph.toStore⟩ := by
  have hkept : (Instant.rest (Site.new graph base st)).Kept Builtin.standard :=
    ⟨Engine.new_kept hbase graph st, .of_empty rfl rfl⟩
  have hsound : (Instant.rest (Site.new graph base st)).Sound Builtin.standard :=
    ⟨hground, fun _ _ => True, Site.new_sound (compiled_of_compile hbase graph)⟩
  exact ⟨fun ms z hz hms => ⟨hz.clear hkept hsound (.of_empty rfl) hms,
    hz.rules hsound hms, (hz.sound hsound hms).grounds⟩,
    fun x0 x hx0 hclear hx => hx.safe (compiled_of_compile hbase _) rfl hx0 hclear⟩

open Roads in
/-- It is so where the table of what the roads lead to from `a` was filled, and the rule that had
to wait for it goes on. -/
theorem no_variable_dangles_roads : program.Grounds world ∧
    ∃ (x0 x : Scene) (c : Choice), x0.Begins program ∧ x0.moment.session.Clear ∧
      x0.Lives program x ∧ x.machine.stack = [c] ∧ c.env.name = "far" ∧ x.Safe program := by
  obtain ⟨histories, lives⟩ := @no_variable_dangles _ _ _ {} compile_rules ground_graph
  have hw : program.Grounds world := (histories [] _ .start nofun).2
  have hP : program.Compiled := compiled_of_compile compile_rules _
  obtain ⟨t, m1, s1, m2, s2, m3, s3, h1, h2, h3, hname⟩ := filler_comes_back
  obtain ⟨m0, h0, -⟩ := @start_eq world.program world.settings _ _ _ start_filler
  have hbegins : Scene.Begins program ⟨⟨.backtrack, m0, filling⟩, m0.arena⟩ :=
    ⟨.blank _ hw.1 h0, rfl⟩
  have hcalled : ({} : Session).generatorFor world pattern = (_, filling) := (Prod.eta _).symm
  have hclear : filling.Clear :=
    (Session.Clear.of_empty rfl).gainless (Session.gainless_generatorFor hcalled)
  have hsetUp : Scene.Lives program ⟨⟨.backtrack, m0, filling⟩, m0.arena⟩
      ⟨⟨.backtrack, filler, filling⟩, m0.arena⟩ :=
    .single ⟨.setUp, .setUp hw h0 start_filler, rfl⟩
  obtain ⟨F1, hlives1⟩ := hsetUp.next hP rfl hbegins hclear hw h1
  obtain ⟨F2, hlives2⟩ := hlives1.next hP rfl hbegins hclear hw h2
  have hrestore : Scene.GoesOn program ⟨⟨.backtrack, m2, s2⟩, F2⟩
      ⟨⟨.backtrack, m3, s3⟩, F2.after (.restore 2) ⟨.backtrack, m2, s2⟩⟩ :=
    ⟨.restore 2, .restore h3, rfl⟩
  have hlives3 := hlives2.tail hrestore
  obtain ⟨c, hstack, hc⟩ := List.map_eq_singleton_iff.1 hname
  exact ⟨hw, _, _, c, hbegins, hclear, hlives3, hstack, hc, lives _ _ hbegins hclear hlives3⟩

end TabledRules
