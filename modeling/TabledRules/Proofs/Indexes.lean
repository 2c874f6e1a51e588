-- Indexes. An index leaves out clauses that do not match a goal, and it changes
-- how a goal is called; which predicates are indexed makes no difference to the
-- answers of a query.
import TabledRules.Proofs.Schedules

namespace TabledRules

open Bindings

/-! ## Clauses that an index leaves out -/

/-- Variables are bound to terms of variables that exist, and keep what they had in `o`. -/
def Bindings.GrownFrom (o b : Bindings) : Prop := b.Fits (fun _ => True) ∧ o.Extends b

section

variable {o b b' : Bindings} {θ : Values} {n : Nat} {arg t : Term} {x : Node} {goal : Triple}
  {cl : Clause}

theorem grown_realm (o : Bindings) : Realm o.GrownFrom fun _ => True where
  ordered := fun h => h.1.ordered
  grow := fun k h => ⟨h.1.grow k, h.2.trans (.grow _ k)⟩
  newVar := fun h => ⟨h.1.newVar, h.2.trans (.newVar _)⟩
  fresh := fun _ => trivial
  deref := fun h ht => h.1.deref ht
  bind := fun h _ hcan ht => ⟨h.1.bind hcan ht, h.2.trans hcan.keeps⟩

/-- What is a node now is the same node under more bindings. -/
theorem Bindings.Extends.deref_node (h : b.Extends b') (ho : b.Ordered) (ho' : b'.Ordered)
    (hx : b.deref arg = .node x) : b'.deref arg = .node x := by
  rw [← h.deref_deref ho ho', hx, Bindings.deref_node]

theorem mayHaveObject_of_matchObject {z : Option (Values × Bindings)} (hz : z.isSome = true)
    (harg : b.deref arg = .node x) (h : matchObject n θ b arg t = some z) :
    t.isVar = true ∨ t = .node x := by
  cases t with
  | node y =>
    obtain ⟨u, hu, rfl⟩ := Option.map_eq_some_iff.1 h
    obtain _ | n := n
    · cases hu
    · rw [unify_nodes harg (Bindings.deref_node y)] at hu
      by_cases e : x = y
      · exact .inr (e ▸ rfl)
      · rw [if_neg e] at hu
        cases hu
        cases hz
  | app f ts =>
    rw [matchObject, openObject, harg] at h
    cases h
    cases hz
  | _ => exact .inl rfl

/-- A rule that is taken up for a goal whose object is a node has that node for an object, or a
variable. -/
theorem mayHaveObject_of_enter (hfits : b.Fits fun _ => True)
    (hgoal : ∀ u ∈ goal.terms, b.Scoped (fun _ => True) u) (hx : b.deref goal.object = .node x)
    (h : cl.rule.enter n goal b = some (some (θ, b'))) :
    cl.mayHaveObject (.node x) = true := by
  unfold Rule.enter at h
  split at h
  · obtain ⟨θ1, b1, h1, h2⟩ := matchThen_eq_some h
    obtain ⟨⟨hfits1, hextends⟩, -⟩ := (grown_realm b).matchLeaves ⟨hfits, .refl b⟩
      (Values.within_none _ b) (fun a ha => hgoal a (by
        simp only [List.mem_cons, List.not_mem_nil, or_false] at ha
        rcases ha with rfl | rfl <;> simp [Triple.terms])) h1
    have harg := hextends.deref_node hfits.ordered hfits1.ordered hx
    simpa [Clause.mayHaveObject] using mayHaveObject_of_matchObject rfl harg h2
  · cases h

end

/-! ## Layouts of the same rules -/

/-- The layouts are of the same rules and tables. Which predicates are indexed, because it was asked
for or because of how many rules they have, is left open. -/
structure Layout.Agrees (l l' : Layout) : Prop where
  heads : ∀ p, p ∈ l'.heads ↔ p ∈ l.heads
  hasWildcards : l'.hasWildcards = l.hasWildcards
  hasRules : l'.hasRules = l.hasRules
  tabled : l'.tabled = l.tabled
  allTabled : l'.allTabled = l.allTabled

/-- The predicate whose clauses are tried for a goal. -/
def Call.lookup? (goal : Triple) : Call → Option Term
  | .predicate p | .lastPredicate p | .predicateIndex p => some p
  | .wildTabled => some goal.predicate
  | .tripleMatch | .tabled => none

section

variable {l l' l'' : Layout} {goal pattern : Triple} {p : Term} {permanents : Bool}

theorem Layout.Agrees.symm (h : l.Agrees l') : l'.Agrees l :=
  ⟨fun p => (h.heads p).symm, h.hasWildcards.symm, h.hasRules.symm, h.tabled.symm,
    h.allTabled.symm⟩

theorem Layout.Agrees.trans (h : l.Agrees l') (h' : l'.Agrees l'') : l.Agrees l'' :=
  ⟨fun p => (h'.heads p).trans (h.heads p), h'.hasWildcards.trans h.hasWildcards,
    h'.hasRules.trans h.hasRules, h'.tabled.trans h.tabled, h'.allTabled.trans h.allTabled⟩

theorem Layout.Agrees.hasCode (h : l.Agrees l') (p : Term) : l'.hasCode p = l.hasCode p := by
  have hheads : l'.heads.contains p = l.heads.contains p := by
    rw [Bool.eq_iff_iff, List.contains_iff_mem, List.contains_iff_mem, h.heads]
  rw [Layout.hasCode, Layout.hasCode, h.hasRules, h.hasWildcards, hheads]

theorem Layout.Agrees.isTabled (h : l.Agrees l') (p : Term) : l'.isTabled p = l.isTabled p := by
  rw [Layout.isTabled, Layout.isTabled, h.allTabled, h.tabled]

/-- Calls are of the same kind, but for an index that is used or not. -/
theorem Layout.Agrees.callFor (h : l.Agrees l') (permanents : Bool) (goal pattern : Triple) :
    (l'.callFor permanents pattern).lookup? goal = (l.callFor permanents pattern).lookup? goal ∧
      ((l'.callFor permanents pattern = .tabled ↔ l.callFor permanents pattern = .tabled) ∧
        (l'.callFor permanents pattern = .wildTabled ↔
          l.callFor permanents pattern = .wildTabled)) := by
  unfold Layout.callFor
  simp only [h.hasCode, h.isTabled]
  split
  · simp
  · split
    · simp
    · split
      · simp
      · split
        · simp
        · split <;> split <;> simp [Call.lookup?]

end

/-- The programs have the same rules, tables and triples. Which predicates are indexed is left
open. -/
structure Program.Reindexes (P Q : Program) : Prop where
  registry : Q.registry = P.registry
  store : Q.store = P.store
  rules : Q.rules.clauses.toList.map Clause.rule = P.rules.clauses.toList.map Clause.rule
  layout : P.rules.layout.Agrees Q.rules.layout

section

variable {P Q : Program} {T : Triple → Triple → Prop} {goal pattern t : Triple} {call : Call}
  {p : Term} {cl : Clause} {o b b' : Bindings} {new : List Frame} {st st' : State} {r : Rule} {n : Nat}

theorem Program.Reindexes.symm (h : P.Reindexes Q) : Q.Reindexes P :=
  ⟨h.registry.symm, h.store.symm, h.rules.symm, h.layout.symm⟩

theorem mem_clausesFor {base : RuleBase} :
    cl ∈ base.clausesFor p ↔ cl ∈ base.clauses.toList ∧
      (p.isVar = true ∨ cl.rule.isWildcard = true ∨ cl.rule.head.predicate = p) := by
  rw [RuleBase.clausesFor, RuleBase.ownClauses_eq, RuleBase.wildcards_eq]
  by_cases hp : p.isVar = true <;> by_cases hw : cl.rule.isWildcard = true <;> simp [hp, hw]

theorem mem_clausesFor_of_codeFor {base : RuleBase} (h : cl ∈ base.codeFor goal) :
    cl ∈ base.clausesFor goal.predicate := by
  unfold RuleBase.codeFor at h
  simp only at h
  split at h
  · exact List.mem_of_mem_filter h
  · exact h

/-- An index leaves no clause out that may have the object of the goal. -/
theorem mem_codeFor {base : RuleBase} (h : cl ∈ base.clausesFor goal.predicate)
    (hobject : ∀ x, goal.object = .node x → cl.mayHaveObject (.node x) = true) :
    cl ∈ base.codeFor goal := by
  unfold RuleBase.codeFor
  simp only
  split
  · next hnode =>
    simp only [Bool.and_eq_true] at hnode
    obtain ⟨⟨hnode, -⟩, -⟩ := hnode
    cases hx : goal.object with
    | node x => exact List.mem_filter.2 ⟨h, by simpa using hobject x hx⟩
    | _ =>
      rw [hx] at hnode
      cases hnode
  · exact h

theorem Call.mem_clausesFor {base : RuleBase} (h : cl ∈ call.clauses base goal) :
    ∃ p, call.lookup? goal = some p ∧ cl ∈ base.clausesFor p := by
  cases call with
  | predicate p => exact ⟨p, rfl, h⟩
  | lastPredicate p => exact ⟨p, rfl, h⟩
  | predicateIndex p =>
    rw [Call.clauses] at h
    split at h
    · exact ⟨p, rfl, h⟩
    · exact ⟨p, rfl, mem_clausesFor_of_codeFor h⟩
  | wildTabled => exact ⟨_, rfl, mem_clausesFor_of_codeFor h⟩
  | tripleMatch => cases h
  | tabled => cases h

theorem Call.mem_clauses {base : RuleBase} (hcall : call.lookup? goal = some p)
    (h : cl ∈ base.clausesFor p)
    (hobject : ∀ x, goal.object = .node x → cl.mayHaveObject (.node x) = true) :
    cl ∈ call.clauses base goal := by
  cases call with
  | predicate q =>
    cases hcall
    exact h
  | lastPredicate q =>
    cases hcall
    exact h
  | predicateIndex q =>
    cases hcall
    rw [Call.clauses]
    split
    · exact h
    · exact mem_codeFor h hobject
  | wildTabled =>
    cases hcall
    exact mem_codeFor h hobject
  | tripleMatch => cases hcall
  | tabled => cases hcall

/-! ## Resolution does not see an index -/

theorem Triple.standard_within (goal : Triple) (k : Nat) :
    ∀ u ∈ goal.standard.terms, (goal.unbound.grow k).Scoped (fun _ => True) u := by
  intro u hu
  have h : (goal.unbound.grow k).Scoped IsRef u :=
    (goal.standard_scoped u hu).mono (Nat.le_max_left _ _)
  exact Term.Has.mono (fun _ hx => ⟨trivial, hx.2⟩) h

namespace Program.Reindexes

theorem find (h : P.Reindexes Q) (pattern : Triple) : Q.find pattern = P.find pattern := by
  rw [Program.find, Program.find, h.store]

theorem clausesFor (h : P.Reindexes Q) (hcl : cl ∈ P.rules.clausesFor p) :
    ∃ cl' ∈ Q.rules.clausesFor p, cl'.rule = cl.rule := by
  obtain ⟨hmem, hp⟩ := mem_clausesFor.1 hcl
  have hrule : cl.rule ∈ Q.rules.clauses.toList.map Clause.rule := by
    rw [h.rules]
    exact List.mem_map_of_mem hmem
  obtain ⟨cl', hmem', e⟩ := List.mem_map.1 hrule
  refine ⟨cl', mem_clausesFor.2 ⟨hmem', ?_⟩, e⟩
  rwa [e]

theorem codeFor (h : P.Reindexes Q) (hcl : cl ∈ P.rules.codeFor goal)
    (hobject : ∀ x, goal.object = .node x → cl.mayHaveObject (.node x) = true) :
    ∃ cl' ∈ Q.rules.codeFor goal, cl'.rule = cl.rule := by
  obtain ⟨cl', hcl', e⟩ := h.clausesFor (mem_clausesFor_of_codeFor hcl)
  refine ⟨cl', mem_codeFor hcl' fun x hx => ?_, e⟩
  rw [Clause.mayHaveObject, e]
  exact hobject x hx

theorem clauses (h : P.Reindexes Q) (hcl : cl ∈ (P.callFor r pattern).clauses P.rules goal)
    (hobject : ∀ x, goal.object = .node x → cl.mayHaveObject (.node x) = true) :
    ∃ cl' ∈ (Q.callFor r pattern).clauses Q.rules goal, cl'.rule = cl.rule := by
  obtain ⟨p, hp, hmem⟩ := Call.mem_clausesFor hcl
  obtain ⟨cl', hcl', e⟩ := h.clausesFor hmem
  refine ⟨cl', Call.mem_clauses ((h.layout.callFor _ goal pattern).1.trans hp) hcl' fun x hx => ?_,
    e⟩
  rw [Clause.mayHaveObject, e]
  exact hobject x hx

theorem isTabled (h : P.Reindexes Q) (p : Term) : Q.rules.isTabled p = P.rules.isTabled p :=
  h.layout.isTabled p

theorem readsTable (h : P.Reindexes Q) (r : Rule) (pattern goal : Triple) :
    (Q.callFor r pattern).readsTable Q.rules goal =
      (P.callFor r pattern).readsTable P.rules goal := by
  obtain ⟨-, htabled, hwild⟩ := h.layout.callFor (!r.placement.permanent.isEmpty) goal pattern
  have reads : ∀ {base : RuleBase} {call : Call}, call ≠ .tabled → call ≠ .wildTabled →
      call.readsTable base goal = false := by
    intro base call h1 h2
    cases call <;> first | rfl | exact absurd rfl h1 | exact absurd rfl h2
  unfold Program.callFor
  by_cases h1 : P.rules.layout.callFor (!r.placement.permanent.isEmpty) pattern = .tabled
  · rw [h1, htabled.2 h1]
    rfl
  · by_cases h2 : P.rules.layout.callFor (!r.placement.permanent.isEmpty) pattern = .wildTabled
    · rw [h2, hwild.2 h2]
      exact h.isTabled goal.predicate
    · rw [reads h1 h2, reads (fun e => h1 (htabled.1 e)) fun e => h2 (hwild.1 e)]

/-- A goal of a body is solved by the same triples, rules and results. -/
theorem opens (h : P.Reindexes Q) (hb : b.Fits fun _ => True)
    (hgoal : ∀ u ∈ goal.terms, b.Scoped (fun _ => True) u)
    (ho : Opens P T (P.callFor r pattern) goal b b' new) :
    Opens Q T (Q.callFor r pattern) goal b b' new := by
  cases ho with
  | fact hno hvalue ht hu =>
    rw [← h.readsTable] at hno
    rw [← h.find] at ht
    exact .fact hno hvalue ht hu
  | result hyes hvalue ht hu =>
    rw [← h.readsTable] at hyes
    exact .result hyes hvalue ht hu
  | @clause n k cl θ _ hno hcl henter =>
    rw [← h.readsTable] at hno
    obtain ⟨cl', hcl', e⟩ := h.clauses hcl fun x hx =>
      mayHaveObject_of_enter (hb.grow k) (fun u hu => (hgoal u hu).mono (Nat.le_max_left _ _))
        ((Extends.grow b k).deref_node hb.ordered (hb.ordered.grow k) hx) henter
    rw [← e] at henter ⊢
    exact .clause hno hcl' henter

theorem step (h : P.Reindexes Q) (hst : st.In o.GrownFrom fun _ => True) (hstep : Step P T st st') :
    Step Q T st st' := by
  cases hstep with
  | leave => exact .leave
  | @goal b b1 b2 r θ θ1 pattern g es new fs hput hopens =>
    obtain ⟨⟨h1, -⟩, -, -, h4⟩ := (grown_realm o).putGoal hst.bindings (hst.values _
      List.mem_cons_self) hput
    exact .goal hput (h.opens h1 h4 hopens)
  | @builtin n b b1 b2 r θ θ1 c f args es fs hf hput hrun =>
    rw [← h.registry] at hf
    rw [← h.store] at hrun
    exact .builtin hf hput hrun

theorem steps (h : P.Reindexes Q) (hP : P.Standard)
    (hst : st.In o.GrownFrom fun _ => True) (hsteps : Steps P (Stage P n) st st') :
    Steps Q (Stage P n) st st' := by
  induction hsteps using Relation.ReflTransGen.head_induction_on with
  | refl => exact .refl
  | head hstep _ ih =>
    have hnext := (grown_realm o).stable trivial hP _ _ hst
      (hstep.mono fun _ _ => answer_of_stage)
    exact .head (h.step hst hstep) (ih hnext)

/-- A goal gets the same from the triples, the rules and what its tables have so far. -/
theorem derives (h : P.Reindexes Q) (hP : P.Standard) (hd : Derives P (Stage P n) goal t) :
    Derives Q (Stage P n) goal t := by
  cases hd with
  | fact ht hu =>
    rw [← h.find] at ht
    exact .fact ht hu
  | @clause d k cl θ b _ hcl henter hgives =>
    have hfits : (goal.unbound.grow k).Fits fun _ => True := .grow (.empty _ _) k
    have hscoped := goal.standard_within k
    obtain ⟨cl', hcl', e⟩ := h.codeFor hcl fun x hx =>
      mayHaveObject_of_enter hfits hscoped (by rw [hx, Bindings.deref_node]) henter
    obtain ⟨h1, -, h3⟩ := (grown_realm (goal.unbound.grow k)).enter
      (headFault_of_mem hP.compiled (mem_clauses_of_codeFor hcl)) ⟨hfits, .refl _⟩ hscoped henter
    obtain ⟨c, m, hsteps, ht⟩ := hgives
    rw [← e] at henter
    refine .clause hcl' henter ⟨c, m, ?_, ht⟩
    rw [e]
    exact h.steps hP ⟨h1, by simpa using h3⟩ hsteps

theorem stage (h : P.Reindexes Q) (hP : P.Standard) (hs : Stage P n goal t) : Stage Q n goal t := by
  induction n generalizing goal t with
  | zero => exact hs
  | succ n ih => exact (h.derives hP hs).mono fun _ _ => ih

theorem answer (h : P.Reindexes Q) (hP : P.Standard) (ha : Answer P goal t) : Answer Q goal t := by
  obtain ⟨n, hn⟩ := ha
  exact ⟨n, h.stage hP hn⟩

end Program.Reindexes

/-! ## Queries -/

theorem Bindings.Means.exists_resolve {x g : Term} (h : b.Means x g) :
    ∃ m, ∀ k, m ≤ k → b.resolve k x = some g := by
  obtain ⟨m, hm, hground⟩ := h
  refine ⟨m, fun k hk => Option.map_eq_some_iff.2 ⟨g, deepDeref_mono hk hm, ?_⟩⟩
  exact Term.mapVars_of_isGround _ _ hground

theorem Bindings.MeansTriple.exists_resolve (h : b.MeansTriple goal t) :
    ∃ m, goal.mapTerms? (b.resolve m) = some t := by
  obtain ⟨i, hs⟩ := h.subject.exists_resolve
  obtain ⟨j, hp⟩ := h.predicate.exists_resolve
  obtain ⟨k, ho⟩ := h.object.exists_resolve
  exact ⟨max i (max j k), mapTerms?_eq_some_iff.2
    ⟨hs _ (by omega), hp _ (by omega), ho _ (by omega)⟩⟩

/-- A goal that is matched with a stored triple comes to be that triple. -/
theorem meansTriple_of_stored {d k : Nat} (ht : t.isGround = true)
    (hu : (goal.unbound.grow k).unifyTriple d goal.standard t = some (some b)) :
    b.MeansTriple goal.standard t := by
  have hscoped : goal.standard.Scoped (goal.unbound.grow k) :=
    fun u hu => (goal.standard_scoped u hu).mono (Nat.le_max_left _ _)
  obtain ⟨hafter, hmeans⟩ := unifyTriple_means (goal.unbound_fits.grow k) hscoped ht hu
  exact hmeans b (.refl b) hafter.fits.ordered

/-- Where there are no clauses to try, a goal gets stored triples that match it. -/
theorem Derives.stored (h : Derives P T goal t) (hnone : P.rules.codeFor goal.standard = []) :
    P.Stored t ∧ ∃ (d k : Nat) (b : Bindings),
      (goal.unbound.grow k).unifyTriple d goal.standard t = some (some b) := by
  cases h with
  | fact ht hu => exact ⟨⟨_, ht⟩, _, _, _, hu⟩
  | clause hcl =>
    rw [hnone] at hcl
    cases hcl

/-- A goal gets what another one gets that is numbered alike. -/
theorem Derives.congr {goal' : Triple} (h : Derives P T goal t)
    (hstandard : goal'.standard = goal.standard) (hunbound : goal'.unbound = goal.unbound) :
    Derives P T goal' t := by
  cases h with
  | fact ht hu =>
    rw [← hstandard] at ht hu
    rw [← hunbound] at hu
    exact .fact ht hu
  | clause hcl henter hgives =>
    rw [← hstandard] at hcl henter hgives
    rw [← hunbound] at henter
    exact .clause hcl henter hgives

theorem Program.codeFor_of_not_readsTable (hno : P.readsTable pattern = false)
    (htabled : P.rules.isTabled pattern.standard.predicate = true) :
    P.rules.codeFor pattern.standard = [] := by
  simpa [Program.readsTable, htabled] using hno

theorem Program.isTabled_of_readsTable (hyes : P.readsTable pattern = true) :
    P.rules.isTabled pattern.standard.predicate = true := by
  simp only [Program.readsTable, Bool.and_eq_true] at hyes
  exact hyes.2

/-- An index may leave no clause for the goal of a query, which is then not read from a table. It
has the same answers, stored triples in both cases. -/
theorem Program.Reindexes.queryAnswer (h : P.Reindexes Q) (hP : P.Standard)
    (ha : QueryAnswer P pattern t) : QueryAnswer Q pattern t := by
  have hkey : pattern.standard.variantKey.standard = pattern.standard ∧
      pattern.standard.variantKey.unbound = pattern.unbound := by simp
  cases ha with
  | derived hno hd =>
    cases hQ : Q.readsTable pattern with
    | false => exact .derived hQ (derives_of_answer (h.answer hP (answer_of_derives hd)))
    | true =>
      have htabled := (h.isTabled _).symm.trans (isTabled_of_readsTable hQ)
      obtain ⟨hstored, d, k, b, hu⟩ := hd.stored (codeFor_of_not_readsTable hno htabled)
      obtain ⟨m, hm⟩ := (meansTriple_of_stored (hP.ground t hstored) hu).exists_resolve
      have hanswer := answer_of_derives (hd.congr hkey.1 hkey.2)
      exact queryAnswer_of_result hQ rfl (h.answer hP hanswer) hu hm
  | @result n k r _ b hyes hr hu ht =>
    cases hQ : Q.readsTable pattern with
    | true => exact .result hQ (h.answer hP hr) hu ht
    | false =>
      have htabled := (h.isTabled _).trans (isTabled_of_readsTable hyes)
      have hd := (derives_of_answer (h.answer hP hr)).congr hkey.1.symm hkey.2.symm
      obtain ⟨⟨key, hkey⟩, -⟩ := hd.stored (codeFor_of_not_readsTable hQ htabled)
      rw [h.find] at hkey
      obtain rfl := resolve_eq_of_meansTriple
        (meansTriple_of_stored (hP.ground r ⟨key, hkey⟩) hu) ht
      exact .derived hQ hd

end

/-! ## Engines -/

section

variable {rules : RuleSet} {base base₁ base₂ : RuleBase} {l l₁ l₂ : Layout} {g : Graph}

/-- What is known of rules that are compiled for a layout, where their tables are declared without
numbered variables in compound predicates. -/
theorem blind_of_compileFor (hl : rules.layout.Agrees l)
    (hbase : rules.compileFor l Builtin.standard = .ok base)
    (hdeclared : ∀ f ts, .app f ts ∈ rules.tabled → ∀ v, .ref v ∉ (Term.app f ts).leaves)
    (hground : ∀ t ∈ g.triples, t.isGround = true) :
    (Program.mk Builtin.standard base g).Blind := by
  have hlayout : base.layout = l := (clauses_of_compileFor hbase).1
  refine blind_of_compiled (compiled_of_compileFor hbase g) (fun p hp => ?_) ?_ hground
  · exact exists_clause_of_heads (rules_of_compileFor hbase) ((hl.heads p).1 (hlayout ▸ hp))
  · rw [hlayout, hl.tabled]
    exact hdeclared

theorem reindexes_of_compileFor (hl₁ : rules.layout.Agrees l₁) (hl₂ : rules.layout.Agrees l₂)
    (hbase₁ : rules.compileFor l₁ Builtin.standard = .ok base₁)
    (hbase₂ : rules.compileFor l₂ Builtin.standard = .ok base₂) (g : Graph) :
    (Program.mk Builtin.standard base₁ g).Reindexes ⟨Builtin.standard, base₂, g⟩ where
  registry := rfl
  store := rfl
  rules := (rules_of_compileFor hbase₂).trans (rules_of_compileFor hbase₁).symm
  layout := by
    change base₁.layout.Agrees base₂.layout
    rw [(clauses_of_compileFor hbase₁).1, (clauses_of_compileFor hbase₂).1]
    exact hl₁.symm.trans hl₂

end

/-- Indexes do not change answers, where no compound predicate that is declared to keep a table
contains a numbered variable. Of two engines for the same rules over the same ground store, whatever
predicates are indexed, a query that is read to its end returns the same triples on both. -/
theorem index_keeps_answers {rules : RuleSet} {l₁ l₂ : Layout} {base₁ base₂ : RuleBase}
    {g g₁ g₂ : Graph} {st₁ st₂ : Settings} {pattern : Triple} {ts us : List Triple}
    (hl₁ : rules.layout.Agrees l₁) (hl₂ : rules.layout.Agrees l₂)
    (hbase₁ : rules.compileFor l₁ Builtin.standard = .ok base₁)
    (hbase₂ : rules.compileFor l₂ Builtin.standard = .ok base₂)
    (hdeclared : ∀ f ts, .app f ts ∈ rules.tabled → ∀ v, .ref v ∉ (Term.app f ts).leaves)
    (hground : ∀ t ∈ g.triples, t.isGround = true)
    (hdrains₁ : (Site.new g₁ base₁ st₁).Drains g pattern ts)
    (hdrains₂ : (Site.new g₂ base₂ st₂).Drains g pattern us) : ∀ t, t ∈ us ↔ t ∈ ts := by
  -- on either engine what is returned are the answers to the pattern
  have returned : ∀ {l : Layout} {base : RuleBase} {g' : Graph} {st : Settings} {xs : List Triple},
      rules.layout.Agrees l → rules.compileFor l Builtin.standard = .ok base →
      (Site.new g' base st).Drains g pattern xs →
      ∀ t, t ∈ xs ↔ QueryAnswer ⟨Builtin.standard, base, g⟩ pattern t := by
    intro l base g' st xs hl hbase hdrains t
    have hsound : (Site.new g' base st).Sound Builtin.standard fun _ _ => True :=
      Site.new_sound (compiled_of_compileFor hbase g')
    constructor
    · obtain ⟨id, σ, σ', handle, hyields, -⟩ := hdrains
      exact hyields.answers hsound t
    · exact hdrains.complete hsound (Engine.kept_of_compiled (compiled_of_compileFor hbase _) st)
        (.of_cleared rfl rfl) hground (blind_of_compileFor hl hbase hdeclared hground)
  have hblind₁ := blind_of_compileFor hl₁ hbase₁ hdeclared hground
  have hblind₂ := blind_of_compileFor hl₂ hbase₂ hdeclared hground
  have hre := reindexes_of_compileFor hl₁ hl₂ hbase₁ hbase₂ g
  intro t
  rw [returned hl₁ hbase₁ hdrains₁ t, returned hl₂ hbase₂ hdrains₂ t]
  exact ⟨hre.symm.queryAnswer hblind₂.toStandard, hre.queryAnswer hblind₁.toStandard⟩

/-! ## A clause that is tried or not

The goal on `g` is ground when `now` calls it. Without an index its first clause is enough; with one
the second clause is tried as well, and the consumer that it leaves behind pushes the new variables
of `early` up. -/

namespace Cut

open Late (uri)

def rules (declared indexed : List Term) : RuleSet :=
  { rules :=
      [⟨"now", ⟨.var "x", uri "p", .var "y"⟩,
          [.triple ⟨.var "x", uri "r", .var "y"⟩, .triple ⟨.var "x", uri "g", .var "y"⟩]⟩,
        ⟨"early", ⟨.var "x", uri "p", .var "y"⟩,
          [.triple ⟨uri "a", uri "r", .var "z"⟩, .triple ⟨.var "z", uri "q", .var "w"⟩,
            .triple ⟨.var "x", .var "w", .var "y"⟩, .triple ⟨.var "x", uri "r", uri "b"⟩]⟩,
        ⟨"first", ⟨.var "x", uri "g", .var "y"⟩, [.triple ⟨.var "x", uri "r", .var "y"⟩]⟩,
        ⟨"second", ⟨.var "x", uri "g", .var "y"⟩, [.triple ⟨.var "x", uri "t", .var "z"⟩]⟩,
        ⟨"t", ⟨.var "x", uri "t", .var "y"⟩, [.triple ⟨.var "x", uri "r", .var "y"⟩]⟩,
        ⟨"q", ⟨.var "x", uri "q", .app "f" [.var "y"]⟩, []⟩,
        ⟨"same", ⟨.var "x", .var "w", .var "x"⟩, [.triple ⟨uri "s", uri "r", .var "w"⟩]⟩]
    tabled := uri "t" :: declared
    indexed }

def base (declared indexed : List Term) : RuleBase :=
  ((rules declared indexed).compile Builtin.standard).toOption.getD
    { clauses := {}, layout := (rules declared indexed).layout }

/-- What a query for `p` returns on a new engine. -/
def run (declared indexed : List Term) : Option (List Triple) :=
  ((Engine.new Late.graph.toStore (base declared indexed) {}).ask Late.graph.toStore 1000 9
    Late.pattern).map Prod.fst

theorem drains {declared indexed : List Term} {ts : List Triple}
    (h : run declared indexed = some ts) :
    (Site.new Late.graph (base declared indexed) {}).Drains Late.graph Late.pattern ts :=
  .of_ask h

theorem compile_rules {declared indexed : List Term}
    (h : ((rules declared indexed).compile Builtin.standard).isOk = true) :
    (rules declared []).compileFor (rules declared indexed).layout Builtin.standard =
      .ok (base declared indexed) :=
  eq_ok_getD h _

theorem agrees (declared indexed : List Term) :
    (rules declared []).layout.Agrees (rules declared indexed).layout :=
  ⟨fun _ => Iff.rfl, rfl, rfl, rfl, rfl⟩

/-- An index may make answers come more than once. -/
theorem run_plain : run [] [] = some [Late.asked (uri "a") (uri "b"),
      Late.asked (uri "s") (.app "f" [uri "c"]), Late.asked (uri "a") (uri "a")] ∧
    run [] [uri "g"] = some [Late.asked (uri "a") (uri "b"),
      Late.asked (uri "s") (.app "f" [uri "c"]), Late.asked (uri "a") (uri "a"),
      Late.asked (uri "a") (uri "b"), Late.asked (uri "s") (.app "f" [uri "c"])] := by
  decide +kernel

/-- If `f(?_4)` is to keep tables, it changes an answer. -/
theorem run_numbered : run [.app "f" [.ref 4]] [] = some [Late.asked (uri "a") (uri "b"),
      Late.asked (uri "s") (.app "f" [uri "c"]), Late.asked (uri "a") .any] ∧
    run [.app "f" [.ref 4]] [uri "g"] = some [Late.asked (uri "a") (uri "b"),
      Late.asked (uri "s") (.app "f" [uri "c"]), Late.asked (uri "a") (uri "a"),
      Late.asked (uri "a") (uri "b"), Late.asked (uri "s") (.app "f" [uri "c"])] := by
  decide +kernel

end Cut

/-- The lists differ, the answers are the same. -/
theorem index_keeps_answers_cut : ∃ ts us : List Triple, ts ≠ us ∧
    (Site.new Late.graph (Cut.base [] []) {}).Drains Late.graph Late.pattern ts ∧
    (Site.new Late.graph (Cut.base [] [Late.uri "g"]) {}).Drains Late.graph Late.pattern us ∧
    ∀ t, t ∈ us ↔ t ∈ ts := by
  have h1 := Cut.drains Cut.run_plain.1
  have h2 := Cut.drains Cut.run_plain.2
  refine ⟨_, _, by decide, h1, h2, index_keeps_answers (Cut.agrees [] []) (Cut.agrees [] _)
    (Cut.compile_rules (by decide +kernel)) (Cut.compile_rules (by decide +kernel)) ?_
    Late.ground_graph h1 h2⟩
  intro f ts hmem
  simp [Cut.rules, Late.uri] at hmem

/-- A number in the declaration of a table shows whether `g` is indexed: only with an index a query
on a new engine returns that `a` has `p` to `a`. -/
theorem numbered_table_shows_index :
    (Cut.rules [.app "f" [.ref 4]] []).compileFor (Cut.rules [.app "f" [.ref 4]] []).layout
        Builtin.standard = .ok (Cut.base [.app "f" [.ref 4]] []) ∧
      (Cut.rules [.app "f" [.ref 4]] []).compileFor
        (Cut.rules [.app "f" [.ref 4]] [Late.uri "g"]).layout Builtin.standard =
          .ok (Cut.base [.app "f" [.ref 4]] [Late.uri "g"]) ∧
      (∀ t ∈ Late.graph.triples, t.isGround = true) ∧ ∃ ts us : List Triple,
        (Site.new Late.graph (Cut.base [.app "f" [.ref 4]] []) {}).Drains Late.graph
          Late.pattern ts ∧
        (Site.new Late.graph (Cut.base [.app "f" [.ref 4]] [Late.uri "g"]) {}).Drains Late.graph
          Late.pattern us ∧
        Late.asked (Late.uri "a") (Late.uri "a") ∉ ts ∧
        Late.asked (Late.uri "a") (Late.uri "a") ∈ us := by
  have h1 := Cut.drains Cut.run_numbered.1
  have h2 := Cut.drains Cut.run_numbered.2
  exact ⟨Cut.compile_rules (by decide +kernel), Cut.compile_rules (by decide +kernel),
    Late.ground_graph, _, _, h1, h2, by decide, by decide⟩

end TabledRules
