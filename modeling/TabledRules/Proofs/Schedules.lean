-- Scheduling. A query that is read to its end has returned what resolution
-- leads to, and that depends on the rules, the store and the pattern alone. How
-- often completion is checked, and what else is asked of the engine, changes
-- the numbers of variables and the order of the answers, but no answer.
import TabledRules.Proofs.CoveredSites
import TabledRules.Proofs.RenamedRules
import TabledRules.Proofs.Rereading

namespace TabledRules

open Bindings

/-! ## States -/

/-- The same is left of the same rule, with values that are the same but for variables that
stand for each other. -/
structure Frame.Like (ρ : Renaming) (f f' : Frame) : Prop where
  rule : f'.rule = f.rule
  values : f.values.Like ρ f'.values
  rest : f'.rest = f.rest

/-- The states are the same but for variables that stand for each other. -/
structure State.Like (ρ : Renaming) (st st' : State) : Prop where
  bindings : st.bindings.Like ρ st'.bindings
  frames : List.Forall₂ (Frame.Like ρ) st.frames st'.frames

section

variable {ρ ρ' : Renaming} {P : Program} {T : Triple → Triple → Prop} {st st' : State}
  {b b' c : Bindings} {fs fs' new : List Frame}

theorem Frame.Like.mono {f f' : Frame} (h : f.Like ρ f') (hle : ρ ≤ ρ') : f.Like ρ' f' :=
  ⟨h.rule, h.values.mono hle, h.rest⟩

theorem forall₂_frameLike_mono (h : List.Forall₂ (Frame.Like ρ) fs fs') (hle : ρ ≤ ρ') :
    List.Forall₂ (Frame.Like ρ') fs fs' :=
  h.imp fun _ _ hf => hf.mono hle

/-! ## Goals that are solved by themselves -/

/-- The innermost frames are solved first. -/
theorem Steps.split (h : Steps P T ⟨b, new ++ fs⟩ ⟨c, []⟩) :
    ∃ d, Steps P T ⟨b, new⟩ ⟨d, []⟩ ∧ Steps P T ⟨d, fs⟩ ⟨c, []⟩ := by
  generalize hst : (⟨b, new ++ fs⟩ : State) = st at h
  induction h using Relation.ReflTransGen.head_induction_on generalizing b new with
  | refl =>
    obtain ⟨rfl, hnil⟩ : b = c ∧ new ++ fs = [] := by simpa using hst
    obtain ⟨rfl, rfl⟩ := List.append_eq_nil_iff.1 hnil
    exact ⟨b, .refl, .refl⟩
  | @head st st1 hstep hsteps ih =>
    subst hst
    cases new with
    | nil => exact ⟨b, .refl, .head hstep hsteps⟩
    | cons f new =>
      -- the step is one of the first frame
      have first : ∀ {b1 : Bindings} {frames : List Frame},
          Step P T ⟨b, f :: new⟩ ⟨b1, frames⟩ → st1 = ⟨b1, frames ++ fs⟩ →
          ∃ d, Steps P T ⟨b, f :: new⟩ ⟨d, []⟩ ∧ Steps P T ⟨d, fs⟩ ⟨c, []⟩ := by
        intro b1 frames hfirst he
        obtain ⟨d, h1, h2⟩ := ih he.symm
        exact ⟨d, .head hfirst h1, h2⟩
      cases hstep with
      | leave => exact first .leave rfl
      | goal hput hopens => exact first (.goal hput hopens) (by simp)
      | builtin hf hput hrun => exact first (.builtin hf hput hrun) rfl

/-- What a stable property holds of at the start it holds of at the end. -/
theorem Stable.steps {U : State → Prop} (hU : Stable P U) (h : Steps P (Answer P) st st')
    (hst : U st) : U st' := by
  induction h with
  | refl => exact hst
  | tail _ hstep ih => exact hU _ _ ih hstep

theorem answer_of_stage {n : Nat} {goal t : Triple} (h : Stage P n goal t) : Answer P goal t :=
  ⟨n, h⟩

/-- A rule that is taken up for a ground goal leaves the variables alone that are there. -/
theorem Steps.apart (hP : P.Standard) {n d k : Nat} {r : Rule} {goal : Triple} {θ : Values}
    {standard t : Triple} (ho : b.Ordered) (hfault : r.headFault = none)
    (hgoal : ∀ u ∈ goal.terms, ∃ g, b.Means u g)
    (henter : r.enter d goal (b.grow k) = some (some (θ, b')))
    (hgives : State.Gives P (Stage P n) standard ⟨b', ⟨r, θ, r.steps⟩ :: fs⟩ t) :
    ∃ c, b.Apart c ∧ State.Gives P (Stage P n) standard ⟨c, fs⟩ t := by
  obtain ⟨e, m, hsteps, ht⟩ := hgives
  have hI := apart_realm ho
  obtain ⟨h1, -, h2⟩ := hI.enter hfault (hI.grow k (Apart.refl ho)) (fun u hu => by
    obtain ⟨g, hg⟩ := hgoal u hu
    exact (hg.own ho).mono (Nat.le_max_left _ _)) henter
  have hframes : Steps P (Stage P n) ⟨b', [⟨r, θ, r.steps⟩] ++ fs⟩ ⟨e, []⟩ := hsteps
  obtain ⟨c, hinner, houter⟩ := hframes.split
  have hin := (hI.stable (.inl rfl) hP).steps (Steps.mono (fun _ _ => answer_of_stage) hinner)
    ⟨h1, by simpa using h2⟩
  exact ⟨c, hin.bindings, e, m, houter, ht⟩

end

/-! ## What resolution leads to -/

/-- Resolution leads from a state that is alike to the answer, with what tables get in `n`
rounds. -/
def State.Leads (P : Program) (n : Nat) (standard : Triple) (st : State) (t : Triple) : Prop :=
  ∃ (ρ : Renaming) (st' : State) (standard' : Triple), st.Like ρ st' ∧ standard.Like ρ standard' ∧
    st'.Gives P (Stage P n) standard' t

/-- To begin with the attempt at the goal solves it, and resolution leads on to the answer. -/
def Attempt.Opens (P : Program) (n : Nat) (standard goal : Triple) (b : Bindings)
    (fs : List Frame) (t : Triple) : Attempt → Prop
  | .triple u => (∀ x ∈ u.terms, x.Has (· = .any)) ∧ ∃ k d b',
    (b.grow k).unifyTriple d goal u = some (some b') ∧
      State.Gives P (Stage P n) standard ⟨b', fs⟩ t
  | .clause cl => cl.rule.headFault = none ∧ ∃ k d θ b',
    cl.rule.enter d goal (b.grow k) = some (some (θ, b')) ∧
      State.Gives P (Stage P n) standard ⟨b', ⟨cl.rule, θ, cl.rule.steps⟩ :: fs⟩ t

/-- From a state that is alike the attempt begins what resolution leads to. -/
def Attempt.Leads (P : Program) (n : Nat) (standard goal : Triple) (b : Bindings)
    (fs : List Frame) (a : Attempt) (t : Triple) : Prop :=
  ∃ (ρ : Renaming) (b' : Bindings) (fs' : List Frame) (standard' goal' : Triple),
    State.Like ρ ⟨b, fs⟩ ⟨b', fs'⟩ ∧ standard.Like ρ standard' ∧ goal.Like ρ goal' ∧
      a.Opens P n standard' goal' b' fs' t

/-- An answer of a query, with what tables get in `n` rounds. -/
def AskedIn (P : Program) (n : Nat) (pattern t : Triple) : Prop :=
  if P.readsTable pattern = true then
    ∃ d k r b, Stage P n pattern.standard.variantKey r ∧
      (pattern.unbound.grow k).unifyTriple d pattern.standard r = some (some b) ∧
      pattern.standard.mapTerms? (b.resolve d) = some t
  else Derives P (Stage P n) pattern t

section

variable {ρ : Renaming} {P : Program} {n : Nat} {goal pattern standard t u : Triple}
  {b b' : Bindings} {fs fs' : List Frame}

/-- The variables of a goal stand for themselves. -/
theorem Triple.standard_like (goal : Triple) : ∃ ρ : Renaming,
    State.Like ρ ⟨goal.unbound, []⟩ ⟨goal.unbound, []⟩ ∧ goal.standard.Like ρ goal.standard := by
  have ho := goal.unbound_fits.ordered
  have hnone : ∀ v, goal.unbound.value? v = none := value?_empty _
  refine ⟨fun v v' => v = v' ∧ v < goal.unbound.size,
    ⟨⟨ho, ho, ⟨fun hv hu => ?_⟩, fun hv => hv.2, fun hv => hv.1 ▸ hv.2, fun {v v'} _ => ?_⟩,
      .nil⟩, ?_⟩
  · rw [hv.1, hu.1]
  · rw [hnone v, hnone v']
    exact .none
  · have each : ∀ u ∈ goal.standard.terms,
        u.Like (fun v v' => v = v' ∧ v < goal.unbound.size) u := fun u hu =>
      Term.like_self fun v hv => ⟨rfl, (goal.standard_scoped u hu _ hv).2 v rfl⟩
    exact ⟨each _ (by simp [Triple.terms]), each _ (by simp [Triple.terms]),
      each _ (by simp [Triple.terms])⟩

theorem Attempt.Opens.leads {a : Attempt}
    (h : a.Opens P n goal.standard goal.standard goal.unbound [] t) :
    a.Leads P n goal.standard goal.standard goal.unbound [] t := by
  obtain ⟨ρ, hst, hgoal⟩ := goal.standard_like
  exact ⟨ρ, _, _, _, _, hst, hgoal, hgoal, h⟩

theorem has_any_of_isGround (h : t.isGround = true) : ∀ x ∈ t.terms, x.Has (· = .any) :=
  fun x hx => .of_isGround (Triple.isGround_iff.1 h x hx)

/-- What a goal gets is begun with. -/
theorem Derives.begins (hP : P.Blind) (h : Derives P (Stage P n) goal t) :
    Begins P (Attempt.Leads P n goal.standard goal.standard goal.unbound [] · t) goal t := by
  cases h with
  | @fact d k _ b hmem hu =>
    obtain ⟨ρ, hst, hgoal⟩ := goal.standard_like
    have hground := hP.ground t ⟨_, hmem⟩
    refine .inl ⟨hmem, fun d' k' hno => ?_⟩
    have hrel := (hst.bindings.grow k k').unifyTriple hgoal (has_any_of_isGround hground) hu hno
    cases hrel
  | @clause d k cl θ b _ hcl henter hgives =>
    exact .inr ⟨cl, hcl, Attempt.Opens.leads
      ⟨headFault_of_mem hP.compiled (mem_clauses_of_codeFor hcl), k, d, θ, b, henter, hgives⟩⟩

/-! ## Steps that are alike -/

/-- What is left of the first frame is solved by a step. -/
theorem State.Gives.step {T : Triple → Triple → Prop} {f : Frame}
    (h : State.Gives P T standard ⟨b, f :: fs⟩ t) :
    ∃ st, Step P T ⟨b, f :: fs⟩ st ∧ st.Gives P T standard t := by
  obtain ⟨c, m, hsteps, ht⟩ := h
  rcases Relation.ReflTransGen.cases_head hsteps with he | ⟨st, hstep, hsteps⟩
  · cases he
  · exact ⟨st, hstep, c, m, hsteps, ht⟩

variable {r : Rule} {θ θ1 : Values} {es : List Entry} {b1 : Bindings} {value : Triple} {k : Nat}

theorem State.Leads.leave (h : State.Leads P n standard ⟨b, ⟨r, θ, []⟩ :: fs⟩ t) :
    State.Leads P n standard ⟨b, fs⟩ t := by
  obtain ⟨ρ, ⟨b', frames'⟩, standard', ⟨hb, hframes⟩, hstandard, hgives⟩ := h
  cases hframes with
  | @cons _ f' _ fs' hf hfs =>
    obtain ⟨r', θ', rest'⟩ := f'
    obtain rfl : rest' = [] := hf.rest
    obtain ⟨st, hstep, hgives⟩ := hgives.step
    cases hstep
    exact ⟨ρ, ⟨b', fs'⟩, standard', ⟨hb, hfs⟩, hstandard, hgives⟩

/-- A builtin that resolution goes on after does not fail. -/
theorem State.Leads.builtin (hP : P.Blind) {call : Compound} {f : Builtin} {args : List Term}
    {x : Option Bindings}
    (h : State.Leads P n standard ⟨b, ⟨r, θ, .builtin call :: es⟩ :: fs⟩ t)
    (hf : P.registry.get? call.name = some f)
    (hput : r.putLeaves true θ b call.args = (args, θ1, b1))
    (hrun : f.run k P.store (some r) b1 args = some (.ok x)) :
    ∃ b2, x = some b2 ∧ State.Leads P n standard ⟨b2, ⟨r, θ1, es⟩ :: fs⟩ t := by
  obtain ⟨ρ, ⟨b', frames'⟩, standard', ⟨hb, hframes⟩, hstandard, hgives⟩ := h
  cases hframes with
  | @cons _ f' _ fs' hframe hfs =>
    obtain ⟨r', θ', rest'⟩ := f'
    obtain ⟨rfl, hθ, rfl⟩ : r' = r ∧ θ.Like ρ θ' ∧ rest' = .builtin call :: es :=
      ⟨hframe.rule, hframe.values, hframe.rest⟩
    obtain ⟨st, hstep, hgives⟩ := hgives.step
    cases hstep with
    | @builtin _ _ b1' b2' _ _ θ1' _ _ _ _ _ hf' hput' hrun' =>
      cases hf.symm.trans hf'
      obtain ⟨ρ1, hle, hlike⟩ := hb.putLeaves hθ r' true call.args
      rw [hput, hput'] at hlike
      rw [hP.registry] at hf
      have hrel := hlike.bindings.builtin hP.store hf hlike.passed hrun hrun'
      cases hrel with
      | some hb2 =>
        exact ⟨_, rfl, ρ1, ⟨b2', ⟨r', θ1', es⟩ :: fs'⟩, standard',
          ⟨hb2, .cons ⟨rfl, hlike.values, rfl⟩ (forall₂_frameLike_mono hfs hle)⟩,
          hstandard.mono hle, hgives⟩

/-- How a goal of a body is solved, in a state that is alike. -/
theorem State.Leads.called {pattern : Triple}
    (h : State.Leads P n standard ⟨b, ⟨r, θ, .triple pattern :: es⟩ :: fs⟩ t)
    (hput : r.putGoal θ b pattern = (goal, θ1, b1)) :
    ∃ (ρ : Renaming) (b1' b2' : Bindings) (goal' standard' : Triple) (fs' new : List Frame),
      State.Like ρ ⟨b1, ⟨r, θ1, es⟩ :: fs⟩ ⟨b1', fs'⟩ ∧ goal.Like ρ goal' ∧
      standard.Like ρ standard' ∧
      Opens P (Stage P n) (P.callFor r pattern) goal' b1' b2' new ∧
      State.Gives P (Stage P n) standard' ⟨b2', new ++ fs'⟩ t := by
  obtain ⟨ρ, ⟨b', frames'⟩, standard', ⟨hb, hframes⟩, hstandard, hgives⟩ := h
  cases hframes with
  | @cons _ f' _ fs' hframe hfs =>
    obtain ⟨r', θ', rest'⟩ := f'
    obtain ⟨rfl, hθ, rfl⟩ : r' = r ∧ θ.Like ρ θ' ∧ rest' = .triple pattern :: es :=
      ⟨hframe.rule, hframe.values, hframe.rest⟩
    obtain ⟨st, hstep, hgives⟩ := hgives.step
    cases hstep with
    | @goal _ b1' b2' _ _ θ1' _ goal' _ new _ hput' hopens =>
      obtain ⟨ρ1, hle, hlike⟩ := hb.putGoal hθ r' pattern
      rw [hput, hput'] at hlike
      exact ⟨ρ1, b1', b2', goal', standard', ⟨r', θ1', es⟩ :: fs', new,
        ⟨hlike.bindings, .cons ⟨rfl, hlike.values, rfl⟩ (forall₂_frameLike_mono hfs hle)⟩,
        hlike.passed, hstandard.mono hle, hopens, hgives⟩

/-- A goal that is read from its table has a result that leads on. -/
theorem State.Leads.table (hP : P.Blind) {pattern : Triple}
    (h : State.Leads P n standard ⟨b, ⟨r, θ, .triple pattern :: es⟩ :: fs⟩ t)
    (hput : r.putGoal θ b pattern = (goal, θ1, b1))
    (hreads : (P.callFor r pattern).readsTable P.rules (goal.mapTerms b1.deref) = true)
    (hvalue : goal.mapTerms? (b1.deepDeref k) = some value) :
    ∃ u, Stage P n value.variantKey u ∧
      (Attempt.triple u).Leads P n standard goal b1 (⟨r, θ1, es⟩ :: fs) t := by
  obtain ⟨ρ, b1', b2', goal', standard', fs', new, hst, hgoal, hstandard, hopens, hgives⟩ :=
    h.called hput
  rw [← hP.readsTable (hst.bindings.derefTriple hgoal)] at hreads
  cases hopens with
  | fact hno => cases hreads.symm.trans hno
  | clause hno => cases hreads.symm.trans hno
  | @result d j value' u _ _ hvalue' hu hunify =>
    have hkey := (hst.bindings.deepDerefTriple hgoal hvalue hvalue').variantKey hst.bindings.inOrder
    rw [hkey] at hu
    exact ⟨u, hu, ρ, b1', fs', standard', goal', hst, hstandard, hgoal,
      answer_has hP.ground (answer_of_stage hu), j, d, b2', hunify, hgives⟩

/-- A goal that is searched for has a stored triple or a clause that leads on. -/
theorem State.Leads.search (hP : P.Blind) {pattern : Triple}
    (h : State.Leads P n standard ⟨b, ⟨r, θ, .triple pattern :: es⟩ :: fs⟩ t)
    (hput : r.putGoal θ b pattern = (goal, θ1, b1))
    (hno : (P.callFor r pattern).readsTable P.rules (goal.mapTerms b1.deref) = false)
    (hvalue : goal.mapTerms? (b1.deepDeref k) = some value) :
    (∃ u ∈ P.find value.lookupKey,
      (Attempt.triple u).Leads P n standard goal b1 (⟨r, θ1, es⟩ :: fs) t) ∨
    ∃ cl ∈ (P.callFor r pattern).clauses P.rules (goal.mapTerms b1.deref),
      (Attempt.clause cl).Leads P n standard goal b1 (⟨r, θ1, es⟩ :: fs) t := by
  obtain ⟨ρ, b1', b2', goal', standard', fs', new, hst, hgoal, hstandard, hopens, hgives⟩ :=
    h.called hput
  have hderef := hst.bindings.derefTriple hgoal
  rw [← hP.readsTable hderef] at hno
  cases hopens with
  | @fact d j value' u _ _ hvalue' hu hunify =>
    have hkey := (hst.bindings.deepDerefTriple hgoal hvalue hvalue').lookupKey
    rw [hkey] at hu
    exact .inl ⟨u, hu, ρ, b1', fs', standard', goal', hst, hstandard, hgoal,
      has_any_of_isGround (hP.ground u ⟨_, hu⟩), j, d, b2', hunify, hgives⟩
  | @clause d j cl θ' _ _ hcl henter =>
    rw [hP.clauses (Term.Like.tops hderef.predicate) (Term.Like.tops hderef.object)] at hcl
    exact .inr ⟨cl, hcl, ρ, b1', fs', standard', goal', hst, hstandard, hgoal,
      headFault_of_mem hP.compiled (mem_clauses_of_call hcl), j, d, θ', b2', henter, hgives⟩
  | result hyes => cases hno.symm.trans hyes

/-- A triple that leads on matches. -/
theorem Attempt.Leads.triple {d : Nat} {x : Option Bindings}
    (h : (Attempt.triple u).Leads P n standard goal b fs t)
    (hx : (b.grow k).unifyTriple d goal u = some x) :
    ∃ b', x = some b' ∧ State.Leads P n standard ⟨b', fs⟩ t := by
  obtain ⟨ρ, b0, fs', standard', goal', hst, hstandard, hgoal, hany, k', d', b0', hu, hgives⟩ := h
  have hrel := (hst.bindings.grow k k').unifyTriple hgoal hany hx hu
  cases hrel with
  | some hb => exact ⟨_, rfl, ρ, ⟨b0', fs'⟩, standard', ⟨hb, hst.frames⟩, hstandard, hgives⟩

/-- A clause that leads on is taken up. -/
theorem Attempt.Leads.clause {d : Nat} {cl : Clause} {x : Option (Values × Bindings)}
    (h : (Attempt.clause cl).Leads P n standard goal b fs t)
    (hx : cl.rule.enter d goal (b.grow k) = some x) : ∃ θ b', x = some (θ, b') ∧
      State.Leads P n standard ⟨b', ⟨cl.rule, θ, cl.rule.steps⟩ :: fs⟩ t := by
  obtain ⟨ρ, b0, fs', standard', goal', hst, hstandard, hgoal, hfault, k', d', θ0, b0', henter,
    hgives⟩ := h
  obtain ⟨ρ1, hle, hrel⟩ := (hst.bindings.grow k k').enter hfault hgoal hx henter
  cases hrel with
  | some hlike =>
    exact ⟨_, _, rfl, ρ1, ⟨b0', ⟨cl.rule, θ0, cl.rule.steps⟩ :: fs'⟩, standard',
      ⟨hlike.bindings, .cons ⟨rfl, hlike.values, rfl⟩ (forall₂_frameLike_mono hst.frames hle)⟩,
      hstandard.mono hle, hgives⟩

/-- Once a ground goal is solved by some clause, the others lead no further than that. -/
theorem Attempt.Leads.cut (hP : P.Standard) {cl : Clause}
    (h : (Attempt.clause cl).Leads P n standard goal b fs t)
    (hgoal : ∀ u ∈ goal.terms, ∃ g, b.Means u g) (hapart : b.Apart b') :
    State.Leads P n standard ⟨b', fs⟩ t := by
  obtain ⟨ρ, b0, fs', standard', goal', hst, hstandard, hlike, hfault, k, d, θ, b0', henter,
    hgives⟩ := h
  have hb := hst.bindings
  have hgoal' : ∀ u ∈ goal'.terms, ∃ g, b0.Means u g := fun u' hu' => by
    obtain ⟨u, hu, hlike⟩ := exists_left hlike.terms hu'
    obtain ⟨g, hg⟩ := hgoal u hu
    exact ⟨g, hb.means hlike hg⟩
  obtain ⟨c, hapart', hgives⟩ := Steps.apart hP hb.ordered' hfault hgoal' henter hgives
  refine ⟨ρ, ⟨c, fs'⟩, standard', ⟨⟨hapart.ordered, hapart'.ordered, hb.inOrder,
    fun hv => Nat.lt_of_lt_of_le (hb.lt hv) hapart.size_le,
    fun hv => Nat.lt_of_lt_of_le (hb.lt' hv) hapart'.size_le, fun hv => ?_⟩, hst.frames⟩, hstandard,
    hgives⟩
  rw [hapart.same _ (hb.lt hv), hapart'.same _ (hb.lt' hv)]
  exact hb.value hv

/-! ## The prospect of the answers -/

/-- Two answers of a ground goal are the same. -/
theorem Answer.unique (hP : P.Standard) (hg : goal.isGround = true) (ht : Answer P goal t)
    (hu : Answer P goal u) : u = t := by
  rw [((derives_of_answer ht).resolves hP.ground).eq_of_isGround hg,
    ((derives_of_answer hu).resolves hP.ground).eq_of_isGround hg]

/-- At the end of a derivation the machine has found the answer that resolution leads to. -/
theorem State.Leads.answer (h : State.Leads P n standard ⟨b, []⟩ t)
    (hu : standard.mapTerms? (b.resolve k) = some u) : u = t := by
  obtain ⟨ρ, ⟨b', frames'⟩, standard', ⟨hb, hframes⟩, hstandard, c, m, hsteps, ht⟩ := h
  cases hframes
  rcases Relation.ReflTransGen.cases_head hsteps with he | ⟨st, hstep, -⟩
  · cases he
    exact (hb.resolve hstandard hu ht).symm
  · cases hstep

end

/-- Tables and queries have the answers to get that resolution leads to. -/
def answerProspect (P : Program) : Prospect P where
  due n goal t := P.Blind ∧ Stage P n goal t
  asked n pattern t := P.Blind ∧ AskedIn P n pattern t
  gives n standard st t := P.Blind ∧ st.Leads P n standard t
  offers n standard goal b fs a t := P.Blind ∧ a.Leads P n standard goal b fs t
  not_due_zero _ _ h := h.2
  due_start h := by
    obtain ⟨hP, h⟩ := h
    exact (Derives.begins hP h).imp id fun ⟨cl, hcl, hleads⟩ => ⟨cl, hcl, hP, hleads⟩
  due_single hground hdue hanswer :=
    Answer.unique hdue.1.toStandard hground (answer_of_stage hdue.2) hanswer
  asked_start h hno := by
    obtain ⟨hP, h⟩ := h
    unfold AskedIn at h
    rw [if_neg (by simp [hno])] at h
    exact (Derives.begins hP h).imp id fun ⟨cl, hcl, hleads⟩ => ⟨cl, hcl, hP, hleads⟩
  asked_table h hyes := by
    obtain ⟨hP, h⟩ := h
    unfold AskedIn at h
    rw [if_pos hyes] at h
    obtain ⟨d, k, r, b, hr, hu, ht⟩ := h
    exact ⟨r, ⟨hP, hr⟩, hP, Attempt.Opens.leads
      ⟨answer_has hP.ground (answer_of_stage hr), k, d, b, hu, b, d, .refl, ht⟩⟩
  gives_answer h _ hu := h.2.answer hu
  gives_leave h := ⟨h.1, h.2.leave⟩
  gives_builtin h hf hput hrun := by
    obtain ⟨b2, hx, hleads⟩ := h.2.builtin h.1 hf hput hrun
    exact ⟨b2, hx, h.1, hleads⟩
  gives_table h hput hreads hvalue := by
    obtain ⟨u, hu, hleads⟩ := h.2.table h.1 hput hreads hvalue
    exact ⟨u, ⟨h.1, hu⟩, h.1, hleads⟩
  gives_search h hput hno hvalue :=
    (h.2.search h.1 hput hno hvalue).imp (fun ⟨u, hu, hleads⟩ => ⟨u, hu, h.1, hleads⟩)
      fun ⟨cl, hcl, hleads⟩ => ⟨cl, hcl, h.1, hleads⟩
  offers_ordered h := by
    obtain ⟨-, ρ, b', fs', standard', goal', hst, -⟩ := h
    exact hst.bindings.ordered
  offers_triple h hu := by
    obtain ⟨b', hx, hleads⟩ := h.2.triple hu
    exact ⟨b', hx, h.1, hleads⟩
  offers_clause h henter := by
    obtain ⟨θ, b', hx, hleads⟩ := h.2.clause henter
    exact ⟨θ, b', hx, h.1, hleads⟩
  offers_cut h hgoal hapart := ⟨h.1, h.2.cut h.1.toStandard hgoal hapart⟩

/-! ## Queries that are read to their ends -/

section

variable {P : Program} {pattern t : Triple} {ts us : List Triple} {start σ σ' : Site}
  {K : Nat → Triple → Prop} {g : Graph} {id : Nat} {rules : RuleSet} {base : RuleBase}
  {st : Settings}

/-- An answer is an answer after some number of rounds. -/
theorem QueryAnswer.asked (h : QueryAnswer P pattern t) : ∃ n, AskedIn P n pattern t := by
  cases h with
  | derived hno h =>
    obtain ⟨n, hn⟩ : ∃ n, Derives P (Stage P n) pattern t := by
      cases h with
      | fact h1 h2 => exact ⟨0, .fact h1 h2⟩
      | clause h1 h2 h3 =>
        obtain ⟨b, d, hs, ht⟩ := h3
        obtain ⟨n, hn⟩ := hs.stage
        exact ⟨n, .clause h1 h2 ⟨b, d, hn, ht⟩⟩
    refine ⟨n, ?_⟩
    unfold AskedIn
    rw [if_neg (by simp [hno])]
    exact hn
  | @result d k r _ b hyes hr hu ht =>
    obtain ⟨n, hn⟩ := hr
    refine ⟨n, ?_⟩
    unfold AskedIn
    rw [if_pos hyes]
    exact ⟨d, k, r, b, hn, hu, ht⟩

/-- The query for the pattern that has this id was opened over the store, after a history in which
nothing has failed since the tables were last cleared, and has returned `ts`. Other acts came in
between. -/
def Site.Yields (start : Site) (g : Graph) (pattern : Triple) (id : Nat) (ts : List Triple)
    (σ : Site) : Prop :=
  ∃ σ₁ σ₂ : Site, ∃ handle : Handle, start.Unfailing σ₁ ∧ σ₁.graph = g ∧
    σ₁.Does (.find pattern) (.opened (.ok handle)) σ₂ ∧ handle.query = id ∧ σ₂.Reads id ts σ

/-- Such a query has returned `ts` and nothing more. -/
def Site.Drains (start : Site) (g : Graph) (pattern : Triple) (ts : List Triple) : Prop :=
  ∃ (id : Nat) (σ σ' : Site) (handle : Handle), start.Yields g pattern id ts σ ∧
    handle.query = id ∧ σ.Does (.next handle) (.answer (.ok none)) σ'

/-- What a query returns are answers to its pattern. -/
theorem Site.Reads.answers (h : σ.Reads id ts σ') (hσ : σ.Sound Builtin.standard K)
    (hid : id < σ.engine.session.nextId) : ∀ t ∈ ts, K id t := by
  induction h with
  | start => simp
  | @answer σ1 σ2 ts handle t hbefore hhandle hdoes ih =>
    obtain ⟨-, -, L, hL, hold⟩ := hσ.runs hbefore.runs
    obtain ⟨_, hanswer⟩ := hL.does hdoes
    have ht := hanswer.answered _ _ rfl rfl
    rw [hhandle, hold id hid] at ht
    intro u hu
    rcases List.mem_append.1 hu with hu | hu
    · exact ih u hu
    · exact List.mem_singleton.1 hu ▸ ht
  | act _ _ _ _ ih => exact ih

/-- What a query has returned are answers to its pattern. -/
theorem Site.Yields.answers (h : start.Yields g pattern id ts σ)
    (hσ : start.Sound Builtin.standard K) :
    ∀ t ∈ ts, QueryAnswer ⟨Builtin.standard, start.engine.rules, g⟩ pattern t := by
  obtain ⟨σ₁, σ₂, handle, hbefore, rfl, hfind, rfl, hreads⟩ := h
  obtain ⟨hrules, -, K1, hK1, -⟩ := hσ.runs hbefore.runs
  obtain ⟨L, hL⟩ := hK1.does hfind
  obtain ⟨hlt, hquery⟩ := hL.opened _ _ rfl rfl
  have hall := hreads.answers hL.sound hlt
  rw [hquery] at hall
  rw [← hrules]
  exact hall

/-- A query that is read to its end has returned all answers to its pattern. -/
theorem Site.Drains.complete (h : start.Drains g pattern ts) (hnew : start.Sound Builtin.standard K)
    (hkept : start.engine.Kept Builtin.standard)
    (hcov : start.Covered Builtin.standard answerProspect fun _ _ _ => False)
    (hground : ∀ t ∈ g.triples, t.isGround = true)
    (hP : (Program.mk Builtin.standard start.engine.rules g).Blind)
    (ht : QueryAnswer ⟨Builtin.standard, start.engine.rules, g⟩ pattern t) : t ∈ ts := by
  obtain ⟨id, σ, σ', handle', ⟨σ₁, σ₂, handle, hbefore, rfl, hfind, rfl, hreads⟩, hsame, hend⟩ := h
  obtain ⟨hrules, -⟩ := hnew.runs hbefore.runs
  obtain ⟨n, hn⟩ := ht.asked
  have hprogram : σ₁.program Builtin.standard =
      ⟨Builtin.standard, start.engine.rules, σ₁.graph⟩ := by
    unfold Site.program
    rw [hrules]
  refine asked_of_drained (n := n) hkept hcov hnew hbefore hground hfind hreads hsame hend ?_
  rw [hprogram]
  exact ⟨hP, hn⟩

/-- What is known of compiled rules whose tables are declared without numbered variables in
compound predicates, where the layout has the head predicates of rules. -/
theorem blind_of_compiled (hcompiled : (Program.mk Builtin.standard base g).Compiled)
    (hheads : ∀ p ∈ base.layout.heads, ∃ cl ∈ base.clauses.toList,
      cl.rule.isWildcard = false ∧ cl.rule.head.predicate = p)
    (hdeclared : ∀ f ts, .app f ts ∈ base.layout.tabled → ∀ v, .ref v ∉ (Term.app f ts).leaves)
    (hground : ∀ t ∈ g.triples, t.isGround = true) :
    (Program.mk Builtin.standard base g).Blind := by
  refine ⟨⟨hcompiled, rfl, ?_⟩, g.blind, fun p hp => ?_, hdeclared⟩
  · rintro t ⟨pattern, ht⟩
    exact hground t (Graph.mem_triples_of_find ht)
  · obtain ⟨cl, hcl, hown, rfl⟩ := hheads p hp
    have hflat := (flat_of_headFault (headFault_of_mem hcompiled hcl)).2.1
    unfold Rule.isWildcard at hown
    generalize cl.rule.head.predicate = p at hown hflat
    cases p <;> simp_all [Term.isVar, Term.isApp, Term.isNode]

/-- The layout of a rule set has the head predicates of its own rules. -/
theorem exists_clause_of_heads (hrules : base.clauses.toList.map Clause.rule = rules.rules)
    {p : Term} (hp : p ∈ rules.layout.heads) : ∃ cl ∈ base.clauses.toList,
      cl.rule.isWildcard = false ∧ cl.rule.head.predicate = p := by
  obtain ⟨r, hr, rfl⟩ := List.mem_map.1 hp
  obtain ⟨hmem, hown⟩ := List.mem_filter.1 hr
  rw [← hrules] at hmem
  obtain ⟨cl, hcl, rfl⟩ := List.mem_map.1 hmem
  exact ⟨cl, hcl, by simpa using hown, rfl⟩

theorem blind_of_compile (hbase : rules.compile Builtin.standard = .ok base)
    (hdeclared : ∀ f ts, .app f ts ∈ rules.tabled → ∀ v, .ref v ∉ (Term.app f ts).leaves)
    (hground : ∀ t ∈ g.triples, t.isGround = true) :
    (Program.mk Builtin.standard base g).Blind := by
  have hlayout : base.layout = rules.layout := (clauses_of_compile hbase).1
  refine blind_of_compiled (compiled_of_compile hbase g) (fun p hp => ?_) ?_ hground
  · exact exists_clause_of_heads (rules_of_compile hbase) (hlayout ▸ hp)
  · rw [hlayout]
    exact hdeclared

end

/-- Scheduling does not change answers, where no compound predicate that is declared to keep a
table contains a numbered variable. A query that is read to its end has returned whatever the same
query returns on any other engine for the same rules over the same ground store, and the same
triples as that one if it is read to its end as well: whatever the settings of the engines are,
whatever was asked of them before, and whatever else is asked of them meanwhile. -/
theorem schedule_keeps_answers {rules : RuleSet} {base : RuleBase} {g g₁ g₂ : Graph}
    {st₁ st₂ : Settings} {pattern : Triple} {ts us : List Triple}
    (hbase : rules.compile Builtin.standard = .ok base)
    (hdeclared : ∀ f ts, .app f ts ∈ rules.tabled → ∀ v, .ref v ∉ (Term.app f ts).leaves)
    (hground : ∀ t ∈ g.triples, t.isGround = true)
    (hdrains : (Site.new g₁ base st₁).Drains g pattern ts) :
    (∀ id σ, (Site.new g₂ base st₂).Yields g pattern id us σ → ∀ t ∈ us, t ∈ ts) ∧
      ((Site.new g₂ base st₂).Drains g pattern us → ∀ t, t ∈ us ↔ t ∈ ts) := by
  have hsound : ∀ (g : Graph) (st : Settings),
      (Site.new g base st).Sound Builtin.standard fun _ _ => True :=
    fun g st => Site.new_sound (compiled_of_compile hbase g)
  have hP : (Program.mk Builtin.standard base g).Blind :=
    blind_of_compile hbase hdeclared hground
  have complete : ∀ {g' : Graph} {st : Settings} {xs : List Triple},
      (Site.new g' base st).Drains g pattern xs →
      ∀ t, QueryAnswer ⟨Builtin.standard, base, g⟩ pattern t → t ∈ xs :=
    fun {g' st xs} h t ht => h.complete (hsound g' st) (Engine.new_kept hbase _ st)
      (.of_cleared rfl rfl) hground hP ht
  refine ⟨fun id σ hyields t ht => complete hdrains t
    (hyields.answers (hsound g₂ st₂) t ht), fun hdrains' t => ⟨fun ht => ?_, fun ht => ?_⟩⟩
  · obtain ⟨id, σ, σ', handle', hyields, -⟩ := hdrains'
    exact complete hdrains t (hyields.answers (hsound g₂ st₂) t ht)
  · obtain ⟨id, σ, σ', handle', hyields, -⟩ := hdrains
    exact complete hdrains' t (hyields.answers (hsound g₁ st₁) t ht)

/-! ## Queries that are run -/

/-- Reads a query to its end, in at most `n` reads of at most `fuel` steps. -/
def Engine.drain (store : Store) (fuel : Nat) (handle : Handle) :
    Nat → Engine → Option (List Triple × Engine)
  | 0, _ => none
  | n + 1, e =>
    match e.next store fuel handle with
    | some (.ok none, e) => some ([], e)
    | some (.ok (some t), e) => (e.drain store fuel handle n).map fun (ts, e) => (t :: ts, e)
    | _ => none

/-- Opens a query and reads it to its end. -/
def Engine.ask (store : Store) (fuel n : Nat) (pattern : Triple) (e : Engine) :
    Option (List Triple × Engine) :=
  (e.find store pattern).1.toOption.bind fun handle =>
    (e.find store pattern).2.drain store fuel handle n

section

variable {start σ : Site} {g : Graph} {e e' : Engine} {handle : Handle} {ts us : List Triple}
  {fuel n : Nat} {pattern : Triple}

theorem Site.Reads.drain (h : σ.Reads handle.query ts ⟨g, e⟩)
    (hdrain : e.drain g.toStore fuel handle n = some (us, e')) :
    ∃ σ₃, σ.Reads handle.query (ts ++ us) σ₃ ∧
      σ₃.Does (.next handle) (.answer (.ok none)) ⟨g, e'⟩ := by
  induction n generalizing e ts us with
  | zero => cases hdrain
  | succ n ih =>
    rw [Engine.drain] at hdrain
    split at hdrain
    · next e1 hnext =>
      cases hdrain
      exact ⟨⟨g, e⟩, by rwa [List.append_nil], .next hnext⟩
    · next t e1 hnext =>
      obtain ⟨⟨vs, e2⟩, hrest, he⟩ := Option.map_eq_some_iff.1 hdrain
      cases he
      obtain ⟨σ₃, hreads, hend⟩ := ih (.answer h rfl (.next hnext)) hrest
      exact ⟨σ₃, by rwa [List.append_assoc] at hreads, hend⟩
    · cases hdrain

theorem Site.Unfailing.reads {id : Nat} (h : start.Unfailing σ) {σ' : Site}
    (hreads : σ.Reads id ts σ') : start.Unfailing σ' := by
  induction hreads with
  | start => exact h
  | answer _ _ hdoes ih => exact .act (r := .answer (.ok (some _))) ih (fun hr => hr) hdoes
  | act _ hr _ hdoes ih => exact .act ih hr hdoes

/-- A query that is read to its end without failures. -/
theorem Site.Unfailing.ask (h : start.Unfailing ⟨g, e⟩)
    (hask : e.ask g.toStore fuel n pattern = some (ts, e')) :
    start.Drains g pattern ts ∧ start.Unfailing ⟨g, e'⟩ := by
  obtain ⟨handle, hfind, hdrain⟩ := Option.bind_eq_some_iff.1 hask
  have hopened : Site.Does ⟨g, e⟩ (.find pattern) (.opened (.ok handle))
      ⟨g, (e.find g.toStore pattern).2⟩ := by
    refine .find (Prod.ext ?_ rfl)
    cases hx : (e.find g.toStore pattern).1 with
    | error failure => simp [hx, Except.toOption] at hfind
    | ok handle' => simpa [hx, Except.toOption] using hfind
  obtain ⟨σ₃, hreads, hend⟩ := Site.Reads.drain .start hdrain
  have hunfailing := (h.act (r := .opened (.ok handle)) (fun hr => hr) hopened).reads hreads
  exact ⟨⟨handle.query, σ₃, _, handle, ⟨_, _, handle, h, rfl, hopened, rfl, hreads⟩, rfl, hend⟩,
    hunfailing.act (r := .answer (.ok none)) (fun hr => hr) hend⟩

/-- A query on a new engine that is read to its end. -/
theorem Site.Drains.of_ask {base : RuleBase} {st : Settings}
    (h : ((Engine.new g.toStore base st).ask g.toStore fuel n pattern).map Prod.fst = some ts) :
    (Site.new g base st).Drains g pattern ts := by
  obtain ⟨⟨us, e⟩, hask, rfl⟩ := Option.map_eq_some_iff.1 h
  exact (Site.Unfailing.ask .start hask).1

end

/-! ## Answers that come early or late

What `early` finds for `p` it finds at once if the table for `t` is complete, and else after what
`now` finds. Then the consumer that `late` leaves behind has pushed its new variables up. -/

namespace Late

def uri (name : String) : Term := .node (.uri name)

def rules (declared : List Term) : RuleSet :=
  { rules :=
      [⟨"early", ⟨.var "x", uri "p", .var "y"⟩,
          [.triple ⟨uri "a", uri "t", .var "z"⟩, .triple ⟨.var "z", uri "q", .var "w"⟩,
            .triple ⟨.var "x", .var "w", .var "y"⟩, .triple ⟨.var "x", uri "r", uri "b"⟩]⟩,
        ⟨"now", ⟨.var "x", uri "p", .var "y"⟩, [.triple ⟨.var "x", uri "r", .var "y"⟩]⟩,
        ⟨"late", ⟨.var "x", uri "p", .var "y"⟩,
          [.triple ⟨.var "x", uri "r", .var "z"⟩, .triple ⟨.var "z", uri "t", .var "y"⟩]⟩,
        ⟨"t", ⟨.var "x", uri "t", .var "y"⟩, [.triple ⟨.var "x", uri "r", .var "y"⟩]⟩,
        ⟨"q", ⟨.var "x", uri "q", .app "f" [.var "y"]⟩, []⟩,
        ⟨"same", ⟨.var "x", .var "w", .var "x"⟩, [.triple ⟨uri "s", uri "r", .var "w"⟩]⟩]
    tabled := uri "t" :: declared }

def base (declared : List Term) : RuleBase :=
  ((rules declared).compile Builtin.standard).toOption.getD
    { clauses := {}, layout := (rules declared).layout }

def stored : List Triple :=
  [⟨uri "a", uri "r", uri "b"⟩, ⟨uri "s", uri "r", .app "f" [uri "c"]⟩]

def graph : Graph := .ofTriples stored

def pattern : Triple := ⟨.var "x", uri "p", .var "y"⟩

/-- What a query for `p` returns on a new engine, and one that is opened after the table for `t`
is complete. -/
def runs (declared : List Term) (st : Settings) : Option (List Triple × List Triple) := do
  let (ts, _) ← (Engine.new graph.toStore (base declared) {}).ask graph.toStore 1000 5 pattern
  let (_, e) ← (Engine.new graph.toStore (base declared) st).ask graph.toStore 1000 5
    ⟨uri "a", uri "t", .var "y"⟩
  let (us, _) ← e.ask graph.toStore 1000 5 pattern
  some (ts, us)

theorem drains {declared : List Term} {st : Settings} {ts us : List Triple}
    (h : runs declared st = some (ts, us)) :
    (Site.new graph (base declared) {}).Drains graph pattern ts ∧
      (Site.new graph (base declared) st).Drains graph pattern us := by
  unfold runs at h
  simp only [Option.bind_eq_bind, Option.bind_eq_some_iff] at h
  obtain ⟨⟨ts', e1⟩, h1, ⟨_, e2⟩, h2, ⟨us', e3⟩, h3, h⟩ := h
  cases h
  obtain ⟨-, hbefore⟩ := Site.Unfailing.ask .start h2
  exact ⟨(Site.Unfailing.ask .start h1).1, (hbefore.ask h3).1⟩

theorem compile_rules {declared : List Term}
    (h : ((rules declared).compile Builtin.standard).isOk = true) :
    (rules declared).compile Builtin.standard = .ok (base declared) :=
  eq_ok_getD h _

theorem ground_graph : ∀ t ∈ graph.triples, t.isGround = true := by decide +kernel

def asked (s o : Term) : Triple := ⟨s, uri "p", o⟩

/-- The order of the answers depends on what was asked before. -/
theorem runs_plain : runs [] { completionCycles := 1 } = some
    ([asked (uri "a") (uri "b"), asked (uri "s") (.app "f" [uri "c"]), asked (uri "a") (uri "a")],
      [asked (uri "a") (uri "a"), asked (uri "a") (uri "b"),
        asked (uri "s") (.app "f" [uri "c"])]) := by
  decide +kernel

/-- So does an answer, if `f(?_4)` is to keep tables. -/
theorem runs_numbered : runs [.app "f" [.ref 4]] {} = some
    ([asked (uri "a") (uri "b"), asked (uri "s") (.app "f" [uri "c"]), asked (uri "a") (uri "a")],
      [asked (uri "a") (uri "b"), asked (uri "s") (.app "f" [uri "c"]), asked (uri "a") .any]) := by
  decide +kernel

end Late

/-- Both orders in which the answers come are of the same answers. -/
theorem schedule_keeps_answers_late : ∃ ts us : List Triple, ts ≠ us ∧
    (Site.new Late.graph (Late.base []) {}).Drains Late.graph Late.pattern ts ∧
    (Site.new Late.graph (Late.base []) { completionCycles := 1 }).Drains Late.graph
      Late.pattern us ∧
    ∀ t, t ∈ us ↔ t ∈ ts := by
  obtain ⟨h1, h2⟩ := Late.drains Late.runs_plain
  refine ⟨_, _, by decide, h1, h2, (schedule_keeps_answers (Late.compile_rules (by decide +kernel))
    ?_ Late.ground_graph h1).2 h2⟩
  intro f ts hmem
  simp [Late.rules, Late.uri] at hmem

/-- A number in the declaration of a table shows: of two queries for the same pattern over the same
store only the one on a new engine returns that `a` has `p` to `a`. -/
theorem numbered_table_shows_schedule :
    (Late.rules [.app "f" [.ref 4]]).compile Builtin.standard =
        .ok (Late.base [.app "f" [.ref 4]]) ∧
      (∀ t ∈ Late.graph.triples, t.isGround = true) ∧ ∃ ts us : List Triple,
        (Site.new Late.graph (Late.base [.app "f" [.ref 4]]) {}).Drains Late.graph Late.pattern ts ∧
        (Site.new Late.graph (Late.base [.app "f" [.ref 4]]) {}).Drains Late.graph Late.pattern us ∧
        Late.asked (Late.uri "a") (Late.uri "a") ∈ ts ∧
        Late.asked (Late.uri "a") (Late.uri "a") ∉ us := by
  obtain ⟨h1, h2⟩ := Late.drains Late.runs_numbered
  exact ⟨Late.compile_rules (by decide +kernel), Late.ground_graph, _, _, h1, h2, by decide,
    by decide⟩

end TabledRules
