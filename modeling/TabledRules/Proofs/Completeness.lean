-- Queries are complete. With safe rules whose bodies are goals, a query that
-- has come to its end has returned every derivable triple that its pattern asks
-- for.
import TabledRules.Proofs.CoveredSites
import TabledRules.Proofs.Stores
import TabledRules.Proofs.Valuations

namespace TabledRules

open Bindings

/-! ## Rounds of derivation -/

/-- The triples that are derivable in `n` rounds. -/
def Program.Within (P : Program) : Nat → Triple → Prop
  | 0, _ => False
  | n + 1, t => P.Stored t ∨ ∃ cl ∈ P.rules.clauses.toList, ∃ ψ : String → Term,
    (∀ v, (ψ v).isGround = true) ∧ cl.rule.head.Instance (Fills ψ) t ∧
      ∀ e ∈ cl.rule.body, e.Holds ψ (P.Within n)

/-- Safe rules whose bodies are goals, over a store that is in order, and what is known of the
predicates of the rules. -/
structure Program.Plain (P : Program) : Prop extends P.Safe where
  goals : ∀ cl ∈ P.rules.clauses.toList, ∀ e ∈ cl.rule.body, ∃ goal, e = .triple goal
  hasRules : ∀ cl ∈ P.rules.clauses.toList, P.rules.layout.hasRules = true
  hasWildcards : ∀ cl ∈ P.rules.clauses.toList, cl.rule.isWildcard = true →
    P.rules.layout.hasWildcards = true
  heads : ∀ cl ∈ P.rules.clauses.toList, cl.rule.isWildcard = false →
    cl.rule.head.predicate ∈ P.rules.layout.heads
  tidy : ∃ g : Graph, g.Tidy ∧ P.store = g

section
variable {P : Program} {n m : Nat} {t u goal w : Triple} {ψ : String → Term} {cl : Clause}
  {V : Valuation}

theorem Entry.Holds.mono {T U : Triple → Prop} {e : Entry} (h : e.Holds ψ T) (hTU : ∀ u, T u → U u) :
    e.Holds ψ U := by
  cases e with
  | triple goal =>
    obtain ⟨u, hu, hi⟩ := h
    exact ⟨u, hTU u hu, hi⟩
  | builtin call => exact h

theorem Program.Within.mono (h : P.Within n t) (hnm : n ≤ m) : P.Within m t := by
  induction n generalizing m t with
  | zero => exact h.elim
  | succ n ih =>
    obtain ⟨k, rfl⟩ : ∃ k, m = k + 1 := ⟨m - 1, by omega⟩
    rcases h with h | ⟨cl, hcl, ψ, hψ, hhead, hbody⟩
    · exact .inl h
    · exact .inr ⟨cl, hcl, ψ, hψ, hhead, fun e he =>
        (hbody e he).mono fun u hu => ih hu (by omega)⟩

theorem Program.Within.isGround (hP : ∀ t, P.Stored t → t.isGround = true)
    (h : P.Within n t) : t.isGround = true := by
  cases n with
  | zero => exact h.elim
  | succ n =>
    rcases h with h | ⟨cl, hcl, ψ, hψ, hhead, hbody⟩
    · exact hP t h
    · exact hhead.isGround fun _ _ hx => hx.1

/-- What is derivable is derivable in some number of rounds. -/
theorem Program.Derivable.within (h : P.Derivable t) : ∃ n, P.Within n t := by
  induction h with
  | stored h => exact ⟨1, .inl h⟩
  | @rule r ψ t u hr hψ hhead hinstance hbody hbuiltins ih =>
    obtain ⟨cl, hcl, rfl⟩ := List.mem_map.1 hr
    -- the rounds of all goals of the body
    have all : ∀ es : List Entry, (∀ e ∈ es, e ∈ cl.rule.body) →
        ∃ n, ∀ e ∈ es, e.Holds ψ (P.Within n) := by
      intro es
      induction es with
      | nil => exact fun _ => ⟨0, by simp⟩
      | cons e es ih2 =>
        intro hes
        obtain ⟨n, hn⟩ := ih2 fun e he => hes e (List.mem_cons_of_mem _ he)
        have hbefore : ∃ k, e.Holds ψ (P.Within k) := by
          cases e with
          | triple goal =>
            obtain ⟨k, hk⟩ := ih goal (hes _ List.mem_cons_self)
            exact ⟨k, u goal, hk, hinstance goal (hes _ List.mem_cons_self)⟩
          | builtin call => exact ⟨0, hbuiltins call (hes _ List.mem_cons_self)⟩
        obtain ⟨k, hk⟩ := hbefore
        refine ⟨max n k, List.forall_mem_cons.2 ⟨hk.mono fun u hu => hu.mono (Nat.le_max_right n k),
          fun e he => (hn e he).mono fun u hu => hu.mono (Nat.le_max_left n k)⟩⟩
    obtain ⟨n, hn⟩ := all cl.rule.body fun _ he => he
    exact ⟨n + 1, .inr ⟨cl, hcl, ψ, hψ, hhead, hn⟩⟩

/-! ## What is looked at for a goal -/

theorem Term.admits_self (g : Term) (h : g.isGround = true) : g.admits g = true :=
  (admits_iff_eq h g).2 rfl

/-- What a term comes to be answers to it in a store. -/
theorem Valuation.Makes.admits {x g : Term} (h : V.Makes x g) :
    x.lookupKey.lookupKey.admits g = true := by
  cases hx : x.isGround with
  | true =>
    rw [h.eq_of_isGround hx]
    simp [Term.lookupKey, hx, Term.admits_self]
  | false => simp [Term.lookupKey, hx, Term.admits]

/-- A stored triple that the goal comes to be is found. -/
theorem Graph.Tidy.find_of_makes {g : Graph} (h : g.Tidy) (ht : t ∈ g.triples)
    (hV : V.MakesTriple goal t) : t ∈ g.find goal.lookupKey := by
  refine h.mem_find ht (fun hground => ?_) ?_
  · change t.predicate = goal.predicate.lookupKey
    change goal.predicate.lookupKey.isGround = true at hground
    cases hx : goal.predicate.isGround with
    | true => simp [Term.lookupKey, hx, hV.predicate.eq_of_isGround hx]
    | false => simp [Term.lookupKey, hx] at hground
  · simp [Triple.admits, Triple.lookupKey, Triple.mapTerms, hV.subject.admits, hV.predicate.admits,
      hV.object.admits]

theorem Program.Plain.find_of_makes (hP : P.Plain) (ht : P.Stored t) (hV : V.MakesTriple goal t) :
    t ∈ P.find goal.lookupKey := by
  obtain ⟨g, hg, hstore⟩ := hP.tidy
  obtain ⟨pattern, ht⟩ := ht
  unfold Program.find at ht ⊢
  rw [hstore] at ht ⊢
  exact hg.find_of_makes (Graph.mem_triples_of_find ht) hV

/-- The head of a clause has a predicate of its own, or the clause is about every predicate. -/
theorem Program.Plain.predicate (hP : P.Plain) (hcl : cl ∈ P.rules.clauses.toList)
    (hhead : cl.rule.head.Instance (Fills ψ) u) : cl.rule.isWildcard = true ∨
      ∃ c, cl.rule.head.predicate = .node c ∧ u.predicate = .node c := by
  have hflat := (flat_of_headFault (headFault_of_mem hP.compiled hcl)).2.1
  have hp := hhead.predicate
  unfold Rule.isWildcard
  cases hpred : cl.rule.head.predicate with
  | node c =>
    rw [hpred, Term.instance_node] at hp
    exact .inr ⟨c, rfl, hp⟩
  | app f ts =>
    rw [hpred] at hflat
    cases hflat
  | _ => exact .inl rfl

/-- A clause that derives the triple is among the clauses of a predicate that it may have. -/
theorem Program.Plain.mem_clausesFor (hP : P.Plain) (hcl : cl ∈ P.rules.clauses.toList)
    (hhead : cl.rule.head.Instance (Fills ψ) u) {p : Term}
    (hp : p.isVar = true ∨ ∀ c, u.predicate = .node c → p = .node c) :
    cl ∈ P.rules.clausesFor p := by
  unfold RuleBase.clausesFor
  split
  · exact hcl
  · next hvar =>
    rw [RuleBase.ownClauses_eq, RuleBase.wildcards_eq, List.mem_append, List.mem_filter,
      List.mem_filter]
    rcases hP.predicate hcl hhead with hwild | ⟨c, h1, h2⟩
    · exact .inr ⟨hcl, hwild⟩
    · refine .inl ⟨hcl, ?_⟩
      have e := (hp.resolve_left hvar) c h2
      simp [Rule.isWildcard, h1, e, Term.isVar]

theorem Program.Plain.mem_codeFor (hP : P.Plain) (hcl : cl ∈ P.rules.clauses.toList)
    (hhead : cl.rule.head.Instance (Fills ψ) u)
    (hp : goal.predicate.isVar = true ∨ ∀ c, u.predicate = .node c → goal.predicate = .node c)
    (ho : ∀ c, goal.object = .node c → u.object = .node c) : cl ∈ P.rules.codeFor goal := by
  have hmem := hP.mem_clausesFor hcl hhead hp
  unfold RuleBase.codeFor
  simp only
  split
  · next hindexed =>
    simp only [Bool.and_eq_true] at hindexed
    refine List.mem_filter.2 ⟨hmem, ?_⟩
    cases hobject : goal.object with
    | node c =>
      have hu := ho c hobject
      have hi := hhead.object
      unfold Clause.mayHaveObject
      cases hh : cl.rule.head.object with
      | node c' =>
        rw [hh, Term.instance_node, hu] at hi
        simp [hi]
      | app f ts =>
        rw [hh, hu] at hi
        obtain ⟨gs, e, -⟩ := Term.instance_app.1 hi
        cases e
      | _ => rfl
    | _ => simp [hobject, Term.isNode] at hindexed
  · exact hmem

theorem Valuation.Makes.known {p x : Term} (h : V.Makes p x) :
    p.isVar = true ∨ ∀ c, x = .node c → p = .node c := by
  cases p with
  | node c => exact .inr fun c' e => by rw [Valuation.makes_node.1 h] at e; exact e
  | app f ts =>
    obtain ⟨gs, rfl, -⟩ := Valuation.makes_app.1 h
    exact .inr fun c e => by cases e
  | _ => exact .inl rfl

theorem Valuation.Makes.node {p x : Term} (h : V.Makes p x) (c : Node) (e : p = .node c) :
    x = .node c := by
  rw [e] at h
  exact Valuation.makes_node.1 h

/-- A clause that derives what the goal comes to be is tried on the goal. -/
theorem Program.Plain.mem_clauses (hP : P.Plain) (hcl : cl ∈ P.rules.clauses.toList)
    (hhead : cl.rule.head.Instance (Fills ψ) u) {r : Rule} {pattern : Triple} {ψ' : String → Term}
    (hpattern : pattern.Instance (Fills ψ') u) (hV : V.MakesTriple goal u)
    (hno : (P.callFor r pattern).readsTable P.rules goal = false) :
    cl ∈ (P.callFor r pattern).clauses P.rules goal := by
  -- the predicate of the pattern, where it is known
  have hconst : pattern.predicate.isVar = true ∨
      ∀ c, u.predicate = .node c → pattern.predicate = .node c := by
    have hp := hpattern.predicate
    cases hpred : pattern.predicate with
    | node c =>
      rw [hpred, Term.instance_node] at hp
      exact .inr fun c' e => by rw [hp] at e; exact e
    | app f ts =>
      rw [hpred] at hp
      obtain ⟨gs, e, -⟩ := Term.instance_app.1 hp
      exact .inr fun c e' => by rw [e] at e'; cases e'
    | _ => exact .inl rfl
  have hcode : P.rules.layout.hasCode pattern.predicate = true := by
    unfold Layout.hasCode
    split
    · exact hP.hasRules cl hcl
    · next hvar =>
      rcases hP.predicate hcl hhead with hwild | ⟨c, h1, h2⟩
      · simp [hP.hasWildcards cl hcl hwild]
      · have hmem := hP.heads cl hcl (by simp [Rule.isWildcard, h1, Term.isVar])
        rw [h1, ← hconst.resolve_left hvar c h2] at hmem
        simp [hmem]
  have hown := hP.mem_clausesFor hcl hhead hconst
  have hall : cl ∈ P.rules.codeFor goal :=
    hP.mem_codeFor hcl hhead hV.predicate.known hV.object.node
  have hindex : cl ∈ P.rules.codeFor { goal with predicate := pattern.predicate } :=
    hP.mem_codeFor hcl hhead hconst hV.object.node
  unfold Program.callFor Layout.callFor at hno ⊢
  simp only [hcode, Bool.not_true, Bool.false_eq_true, if_false] at hno ⊢
  split
  · exact hall
  · next hvar =>
    rw [if_neg hvar] at hno
    split
    · next htabled =>
      rw [if_pos htabled] at hno
      cases hno
    · split
      · exact hown
      · split
        · change cl ∈ if goal.object.isVar = true then _ else _
          split
          · exact hown
          · exact hindex
        · exact hown

end

/-! ## The prospect of the derivable triples -/

/-- What is left of the body comes to be derivable in `n` rounds. -/
def Frame.Ahead (P : Program) (n : Nat) (V : Valuation) (f : Frame) : Prop :=
  ∃ ψ : String → Term, (∀ v x, f.values v = some x → V.Makes x (ψ v)) ∧
    ∀ e ∈ f.rest, ∃ goal u, e = .triple goal ∧ P.Within n u ∧ goal.Instance (Fills ψ) u

/-- The variables can come to stand for what makes `t` of the goal and all that is left to solve
derivable. -/
structure Valuation.Leads (P : Program) (n : Nat) (standard : Triple) (b : Bindings)
    (fs : List Frame) (t : Triple) (V : Valuation) : Prop where
  plain : P.Plain
  obeys : V.Obeys b
  answer : V.MakesTriple standard t
  frames : ∀ f ∈ fs, f.Ahead P n V

/-- The attempt makes the triple of the goal: it is that triple, or a clause that derives it. -/
def Attempt.Makes (P : Program) (n : Nat) (w : Triple) : Attempt → Prop
  | .triple u => u = w ∧ w.isGround = true
  | .clause cl => cl ∈ P.rules.clauses.toList ∧ ∃ ψ : String → Term,
    cl.rule.head.Instance (Fills ψ) w ∧ ∀ e ∈ cl.rule.body, e.Holds ψ (P.Within n)

section
variable {P : Program} {n : Nat} {t u goal w standard pattern : Triple} {ψ : String → Term}
  {cl : Clause} {V V' : Valuation} {b b' : Bindings} {fs : List Frame} {θ θ' : Values} {r : Rule}
  {es : List Entry}

theorem Frame.Ahead.mono {f : Frame} (h : f.Ahead P n V) (hle : V.Le V') : f.Ahead P n V' := by
  obtain ⟨ψ, hψ, hrest⟩ := h
  exact ⟨ψ, fun v x hx => (hψ v x hx).mono hle, hrest⟩

theorem Valuation.Leads.mono (h : V.Leads P n standard b fs t) (hle : V.Le V')
    (hobeys : V'.Obeys b') : V'.Leads P n standard b' fs t :=
  ⟨h.plain, hobeys, h.answer.mono hle, fun f hf => (h.frames f hf).mono hle⟩

/-- What is due begins with a stored triple or a clause. -/
theorem Program.Plain.begins (hP : P.Plain) (ht : P.Within (n + 1) t) (hm : goal.Matches t) :
    Begins P (fun a => ∃ (V : Valuation) (w : Triple), V.Leads P n goal.standard goal.unbound [] t ∧
      V.MakesTriple goal.standard w ∧ a.Makes P n w) goal t := by
  have hground := Program.Within.isGround hP.ground ht
  obtain ⟨V, hobeys, hV⟩ := hm.standard hground
  rcases ht with hstored | ⟨cl, hcl, ψ, -, hhead, hbody⟩
  · refine .inl ⟨hP.find_of_makes hstored hV, fun d k hu => ?_⟩
    obtain ⟨b', e, -⟩ := Valuation.unifyTriple_obeys (hobeys.grow k) hV hground hu
    cases e
  · exact .inr ⟨cl, hP.mem_codeFor hcl hhead hV.predicate.known hV.object.node, V, t,
      ⟨hP, hobeys, hV, by simp⟩, hV, hcl, ψ, hhead, hbody⟩

/-- A goal that is called comes to be a triple that is derivable in `n` rounds. -/
theorem Valuation.Leads.putGoal (h : V.Leads P n standard b (⟨r, θ, .triple pattern :: es⟩ :: fs) t)
    (hput : r.putGoal θ b pattern = (goal, θ', b')) :
    ∃ (V' : Valuation) (u : Triple) (ψ : String → Term), V'.Leads P n standard b' (⟨r, θ', es⟩ :: fs) t ∧ P.Within n u ∧
      V'.MakesTriple goal u ∧ pattern.Instance (Fills ψ) u := by
  obtain ⟨⟨ψ, hψ, hrest⟩, hfs⟩ := List.forall_mem_cons.1 h.frames
  obtain ⟨pattern', u, e, hu, hi⟩ := hrest _ List.mem_cons_self
  cases e
  obtain ⟨V', hle, hsuits, hgoal⟩ := Valuation.putGoal_suits ⟨h.obeys, hψ⟩ hi hput
  refine ⟨V', u, ψ, ⟨h.plain, hsuits.obeys, h.answer.mono hle, ?_⟩, hu, hgoal, hi⟩
  exact List.forall_mem_cons.2 ⟨⟨ψ, hsuits.agrees, fun e he => hrest e (List.mem_cons_of_mem _ he)⟩,
    fun f hf => (hfs f hf).mono hle⟩

theorem leadingTests_of_goals (head : Triple) {body : List Entry}
    (h : ∀ e ∈ body, ∃ goal, e = .triple goal) : leadingTests head body = ([], body) := by
  cases body with
  | nil => rfl
  | cons e es =>
    obtain ⟨goal, rfl⟩ := h e List.mem_cons_self
    rfl

/-- A clause that derives what the goal comes to be is taken up. -/
theorem Valuation.Leads.enter (h : V.Leads P n standard b fs t) (hgoal : V.MakesTriple goal w)
    (hcl : (Attempt.clause cl).Makes P n w) {d : Nat} {x : Option (Values × Bindings)}
    (hx : cl.rule.enter d goal b = some x) :
    ∃ (V' : Valuation) (θ' : Values) (b' : Bindings), x = some (θ', b') ∧
      V'.Leads P n standard b' (⟨cl.rule, θ', cl.rule.steps⟩ :: fs) t := by
  obtain ⟨hmem, ψ, hhead, hbody⟩ := hcl
  have htests := leadingTests_of_goals cl.rule.head (h.plain.goals cl hmem)
  obtain ⟨V', θ', b', e, hle, hsuits⟩ := Valuation.enter_suits h.obeys hgoal hhead
    (headFault_of_mem h.plain.compiled hmem) (by rw [htests]) hx
  refine ⟨V', θ', b', e, h.plain, hsuits.obeys, h.answer.mono hle,
    List.forall_mem_cons.2 ⟨⟨ψ, hsuits.agrees, fun e he => ?_⟩, fun f hf => (h.frames f hf).mono hle⟩⟩
  change e ∈ (leadingTests cl.rule.head cl.rule.body).2 at he
  rw [htests] at he
  obtain ⟨pattern, rfl⟩ := h.plain.goals cl hmem e he
  obtain ⟨u, hu, hi⟩ := hbody _ he
  exact ⟨pattern, u, rfl, hu, hi⟩

/-- An answer that is ground is what the valuation makes of the goal. -/
theorem Valuation.Obeys.resolve {x y g : Term} {k : Nat} (h : V.Obeys b) (hx : V.Makes x g)
    (hy : b.resolve k x = some y) (hground : y.isGround = true) : y = g := by
  obtain ⟨z, hz, rfl⟩ := Option.map_eq_some_iff.1 hy
  have hzg : z.isGround = true := by
    -- a variable of the value would be a wildcard of the answer
    clear hz hx hy
    induction z using Term.induct with
    | node c => rfl
    | app f ts ih =>
      rw [Term.mapVars, Term.mapVarsOf_eq, Term.isGround_app] at hground
      rw [Term.isGround_app]
      exact fun t ht => ih t ht (hground _ (List.mem_map_of_mem ht))
    | _ => cases hground
  rw [Term.mapVars_of_isGround _ _ hzg]
  exact ((h.deepDeref hx hz).eq_of_isGround hzg).symm

/-- What a machine for safe rules finds is ground. -/
theorem Program.Safe.isGround_of_finds (hP : P.Safe) (h : P.Finds t) : t.isGround = true := by
  rcases h with ⟨goal, n, hn⟩ | ⟨pattern, hq⟩
  · exact hP.isGround (hP.stage_right hn).derivable
  · exact hP.isGround (hP.queryAnswer_right hq).derivable

/-- A ground goal asks for itself. -/
theorem Triple.Matches.eq_of_isGround (h : goal.Matches t) (hg : goal.isGround = true) : t = goal := by
  obtain ⟨σ, h⟩ := h
  exact h.eq_of_isGround hg

end

/-- Tables and queries have the derivable triples to get that match their goals. -/
def derivableProspect (P : Program) : Prospect P where
  due n goal t := P.Plain ∧ P.Within n t ∧ goal.Matches t
  asked n pattern t := P.Plain ∧ P.Within n t ∧ pattern.Matches t
  gives n standard st t := ∃ V, Valuation.Leads P n standard st.bindings st.frames t V
  offers n standard goal b fs a t := ∃ V w, Valuation.Leads P n standard b fs t V ∧
    V.MakesTriple goal w ∧ a.Makes P n w
  not_due_zero _ _ h := h.2.1
  due_start h := h.1.begins h.2.1 h.2.2
  due_single hground hdue hanswer := by
    obtain ⟨n, hn⟩ := hanswer
    rw [hdue.2.2.eq_of_isGround hground]
    exact (hdue.1.stage_right hn).matched.eq_of_isGround hground
  asked_start h _ := h.1.begins (h.2.1.mono (Nat.le_succ _)) h.2.2
  asked_table {n pattern t} h _ := by
    obtain ⟨hP, ht, hm⟩ := h
    have hground := Program.Within.isGround hP.ground ht
    obtain ⟨V, hobeys, hV⟩ := hm.standard hground
    exact ⟨t, ⟨hP, ht, hV.matches.variantKey hground⟩, V, t, ⟨hP, hobeys, hV, by simp⟩, hV, rfl,
      hground⟩
  gives_answer {n standard b t k u} h hfinds hu := by
    obtain ⟨V, h⟩ := h
    obtain ⟨h1, h2, h3⟩ := mapTerms?_eq_some_iff.1 hu
    obtain ⟨⟨g1, g2⟩, g3⟩ : (u.subject.isGround = true ∧ u.predicate.isGround = true) ∧
        u.object.isGround = true := by
      simpa [Triple.isGround] using h.plain.isGround_of_finds hfinds
    obtain ⟨s, p, o⟩ := u
    obtain ⟨s', p', o'⟩ := t
    obtain rfl : s = s' := h.obeys.resolve h.answer.subject h1 g1
    obtain rfl : p = p' := h.obeys.resolve h.answer.predicate h2 g2
    obtain rfl : o = o' := h.obeys.resolve h.answer.object h3 g3
    rfl
  gives_leave h := by
    obtain ⟨V, h⟩ := h
    exact ⟨V, h.plain, h.obeys, h.answer, (List.forall_mem_cons.1 h.frames).2⟩
  gives_builtin h _ _ _ := by
    obtain ⟨V, h⟩ := h
    obtain ⟨⟨ψ, -, hrest⟩, -⟩ := List.forall_mem_cons.1 h.frames
    obtain ⟨goal, u, e, -⟩ := hrest _ List.mem_cons_self
    cases e
  gives_table h hput _ hvalue := by
    obtain ⟨V, h⟩ := h
    obtain ⟨V', u, ψ, h1, hu, hgoal, -⟩ := h.putGoal hput
    have hground := Program.Within.isGround h1.plain.ground hu
    have hmatch := (h1.obeys.deepDerefTriple hgoal hvalue).matches.variantKey hground
    exact ⟨u, ⟨h1.plain, hu, hmatch⟩, V', u, h1, hgoal, rfl, hground⟩
  gives_search {n standard b b1 r θ θ1 pattern es fs t goal value k} h hput hno hvalue := by
    obtain ⟨V, h⟩ := h
    obtain ⟨V', u, ψ, h1, hu, hgoal, hi⟩ := h.putGoal hput
    have hground := Program.Within.isGround h1.plain.ground hu
    have hvalue' := h1.obeys.deepDerefTriple hgoal hvalue
    have hderef : V'.MakesTriple (goal.mapTerms b1.deref) u :=
      ⟨h1.obeys.deref hgoal.subject, h1.obeys.deref hgoal.predicate, h1.obeys.deref hgoal.object⟩
    cases n with
    | zero => exact hu.elim
    | succ n =>
      rcases hu with hstored | ⟨cl, hcl, ψ', -, hhead, hbody⟩
      · exact .inl ⟨u, h1.plain.find_of_makes hstored hvalue', V', u, h1, hgoal, rfl, hground⟩
      · refine .inr ⟨cl, h1.plain.mem_clauses hcl hhead hi hderef hno, V', u, h1, hgoal, hcl, ψ',
          hhead, fun e he => (hbody e he).mono fun w hw => hw.mono (Nat.le_succ _)⟩
  offers_ordered h := by
    obtain ⟨V, w, h, -⟩ := h
    exact h.obeys.ordered
  offers_triple {n standard goal b fs u t k d x} h hu := by
    obtain ⟨V, w, h, hgoal, rfl, hground⟩ := h
    obtain ⟨b', rfl, hobeys⟩ := Valuation.unifyTriple_obeys (h.obeys.grow k) hgoal hground hu
    exact ⟨b', rfl, V, h.mono (.refl V) hobeys⟩
  offers_clause {n standard goal b fs cl t k d x} h hx := by
    obtain ⟨V, w, h, hgoal, hcl⟩ := h
    obtain ⟨V', θ', b', rfl, h1⟩ := (h.mono (.refl V) (h.obeys.grow k)).enter hgoal hcl hx
    exact ⟨θ', b', rfl, V', h1⟩
  offers_cut h _ hapart := by
    obtain ⟨V, w, h, -⟩ := h
    refine ⟨V, h.mono (.refl V) ⟨hapart.ordered, fun hv => ?_, h.obeys.ground, fun hv hu => ?_⟩⟩
    · exact Nat.lt_of_lt_of_le (h.obeys.lt hv) hapart.size_le
    · rw [hapart.same _ (h.obeys.lt hv)] at hu
      exact h.obeys.value hv hu

/-! ## Every derivable answer is returned -/

/-- What compilation knows of safe rules whose bodies are goals. -/
theorem plain_of_compile {rules : RuleSet} {base : RuleBase} {g : Graph}
    (hbase : rules.compile Builtin.standard = .ok base) (hsafe : ∀ r ∈ rules.rules, r.Safe)
    (hgoals : ∀ r ∈ rules.rules, ∀ e ∈ r.body, ∃ goal, e = .triple goal)
    (hground : ∀ t ∈ g.triples, t.isGround = true) (htidy : g.Tidy) :
    (Program.mk Builtin.standard base g).Plain := by
  have hstored : ∀ t, (Program.mk Builtin.standard base g).Stored t → t.isGround = true := by
    rintro t ⟨pattern, ht⟩
    exact hground t (Graph.mem_triples_of_find ht)
  have hlayout : base.layout = rules.layout := (clauses_of_compile hbase).1
  have hmem : ∀ cl ∈ base.clauses.toList, cl.rule ∈ rules.rules := fun cl hcl => by
    rw [← rules_of_compile hbase]
    exact List.mem_map_of_mem hcl
  refine ⟨⟨compiled_of_compile hbase g, rfl, fun cl hcl => hsafe _ (hmem cl hcl), hstored⟩,
    fun cl hcl => hgoals _ (hmem cl hcl), fun cl hcl => ?_, fun cl hcl hwild => ?_,
    fun cl hcl hown => ?_, g, htidy, rfl⟩
  · change base.layout.hasRules = true
    rw [hlayout]
    cases hrules : rules.rules with
    | nil =>
      have := hmem cl hcl
      rw [hrules] at this
      cases this
    | cons r rs => simp [RuleSet.layout, hrules]
  · change base.layout.hasWildcards = true
    rw [hlayout]
    exact List.any_eq_true.2 ⟨cl.rule, hmem cl hcl, hwild⟩
  · change cl.rule.head.predicate ∈ base.layout.heads
    rw [hlayout]
    exact List.mem_map.2 ⟨cl.rule, List.mem_filter.2 ⟨hmem cl hcl, by simp [hown]⟩, rfl⟩

/-- Completeness of queries. A query that is read to its end, after any history without failures
since the tables were last cleared and with any other acts in between, has returned every triple
that its pattern asks for and the rules derive from the triples that were stored when it was opened,
if those were ground. -/
theorem answers_complete {rules : RuleSet} {base : RuleBase} {stored : List Triple} {st : Settings}
    {σ₁ σ₂ σ₃ σ₄ : Site} {pattern t : Triple} {ts : List Triple} {handle handle' : Handle}
    (hbase : rules.compile Builtin.standard = .ok base) (hsafe : ∀ r ∈ rules.rules, r.Safe)
    (hgoals : ∀ r ∈ rules.rules, ∀ e ∈ r.body, ∃ goal, e = .triple goal)
    (hbefore : (Site.new (.ofTriples stored) base st).Unfailing σ₁)
    (hground : ∀ t ∈ σ₁.graph.triples, t.isGround = true)
    (hfind : σ₁.Does (.find pattern) (.opened (.ok handle)) σ₂)
    (hreads : σ₂.Reads handle.query ts σ₃) (hsame : handle'.query = handle.query)
    (hend : σ₃.Does (.next handle') (.answer (.ok none)) σ₄)
    (ht : Derivable rules.rules (· ∈ σ₁.graph.triples) t) (hmatch : pattern.Matches t) :
    t ∈ ts := by
  have hnew : (Site.new (.ofTriples stored) base st).Sound Builtin.standard fun _ _ => True :=
    Site.new_sound (compiled_of_compile hbase _)
  obtain ⟨hrules, -⟩ := hnew.runs hbefore.runs
  have hσ : σ₁.engine.rules = base := hrules
  have hP : (σ₁.program Builtin.standard).Plain := by
    unfold Site.program
    rw [hσ]
    exact plain_of_compile hbase hsafe hgoals hground
      (hbefore.runs.tidy (Graph.tidy_ofTriples stored))
  have hderivable : (σ₁.program Builtin.standard).Derivable t := by
    unfold Program.Derivable
    rw [funext fun u => propext (σ₁.stored_iff Builtin.standard u)]
    unfold Site.program
    rw [hσ, rules_of_compile hbase]
    exact ht
  obtain ⟨n, hn⟩ := hderivable.within
  exact asked_of_drained (X := derivableProspect) (Engine.new_kept hbase _ st) (.of_cleared rfl rfl)
    hnew hbefore hground hfind hreads hsame hend ⟨hP, hn, hmatch⟩

/-! ## All roads from a place -/

namespace Roads

/-- The engine after `n` reads, with what they gave. -/
def readings : Nat → Option (List (Option Triple) × Engine)
  | 0 => some ([], opened.2)
  | n + 1 => (readings n).bind fun (xs, e) =>
    (e.next graph.toStore 1000 handle).bind fun (x, e) => x.toOption.map fun x => (xs ++ [x], e)

/-- Each read is an act. -/
theorem does_readings {n : Nat} {xs : List (Option Triple)} {e : Engine}
    (h : readings (n + 1) = some (xs, e)) : ∃ ys x e', readings n = some (ys, e') ∧
      xs = ys ++ [x] ∧ Site.Does ⟨graph, e'⟩ (.next handle) (.answer (.ok x)) ⟨graph, e⟩ := by
  obtain ⟨⟨ys, e'⟩, hbefore, h⟩ := Option.bind_eq_some_iff.1 h
  obtain ⟨⟨x, e''⟩, hnext, h⟩ := Option.bind_eq_some_iff.1 h
  obtain ⟨y, hy, h⟩ := Option.map_eq_some_iff.1 h
  obtain ⟨rfl, rfl⟩ : ys ++ [y] = xs ∧ e'' = e := by simpa using h
  obtain rfl := ok_of_toOption hy
  exact ⟨ys, y, e', hbefore, rfl, .next hnext⟩

/-- Reads that found something are what the query returned. -/
theorem reads_readings {n : Nat} {ts : List Triple} {e : Engine}
    (h : readings n = some (ts.map some, e)) : Site.Reads handle.query ⟨graph, opened.2⟩ ts ⟨graph, e⟩ := by
  induction n generalizing ts e with
  | zero =>
    obtain ⟨hts, rfl⟩ : [] = ts.map some ∧ opened.2 = e := by simpa [readings] using h
    obtain rfl : ts = [] := by simpa using hts.symm
    exact .start
  | succ n ih =>
    obtain ⟨ys, x, e', hbefore, hts, hdoes⟩ := does_readings h
    obtain ⟨us, vs, rfl, rfl, hvs⟩ := List.map_eq_append_iff.1 hts
    obtain ⟨v, rest, rfl, rfl, hrest⟩ := List.map_eq_cons_iff.1 hvs
    obtain rfl : rest = [] := by simpa using hrest
    exact .answer (ih hbefore) rfl hdoes

def answers : List Triple := [leads (uri "a") (uri "b"), leads (uri "a") (uri "a")]

theorem readings_three : (readings 3).map Prod.fst = some (answers.map some ++ [none]) := by
  decide +kernel

/-- The names of a rule on the way from `x` over `y` to `z`. -/
def naming (x y z : Term) (v : String) : Term :=
  if v = "x" then x else if v = "y" then y else z

theorem naming_ground {x y z : Term} (hx : x.isGround = true) (hy : y.isGround = true)
    (hz : z.isGround = true) (v : String) : (naming x y z v).isGround = true := by
  unfold naming
  split_ifs <;> assumption

theorem derivable_near {x y : Term} (hx : x.isGround = true) (hy : y.isGround = true)
    (h : ⟨x, uri "road", y⟩ ∈ graph.triples) :
    Derivable rules.rules (· ∈ graph.triples) (leads x y) := by
  refine .of_body (σ := naming x y y) (List.mem_cons_of_mem _ List.mem_cons_self)
    (naming_ground hx hy hy) (by constructor <;> simp [leads, uri, Fills, naming, hx, hy]) ?_
  intro e he
  obtain rfl : e = .triple ⟨.var "x", uri "road", .var "y"⟩ := by simpa using he
  exact ⟨_, .stored h, by constructor <;> simp [uri, Fills, naming, hx, hy]⟩

theorem derivable_far {x y z : Term} (hx : x.isGround = true) (hy : y.isGround = true)
    (hz : z.isGround = true) (hfar : Derivable rules.rules (· ∈ graph.triples) (leads x y))
    (h : ⟨y, uri "road", z⟩ ∈ graph.triples) :
    Derivable rules.rules (· ∈ graph.triples) (leads x z) := by
  refine .of_body (σ := naming x y z) List.mem_cons_self (naming_ground hx hy hz)
    (by constructor <;> simp [leads, uri, Fills, naming, hx, hz]) ?_
  intro e he
  obtain rfl | rfl : e = .triple (leads (.var "x") (.var "y")) ∨
      e = .triple ⟨.var "y", uri "road", .var "z"⟩ := by simpa using he
  · exact ⟨_, hfar, by constructor <;> simp [leads, uri, Fills, naming, hx, hy]⟩
  · exact ⟨_, .stored h, by constructor <;> simp [uri, Fills, naming, hy, hz]⟩

/-- Roads lead back. -/
theorem derivable_back : Derivable rules.rules (· ∈ graph.triples) (leads (uri "a") (uri "a")) :=
  have hnear : Derivable rules.rules (· ∈ graph.triples) (leads (uri "a") (uri "b")) :=
    derivable_near rfl rfl (by decide +kernel)
  derivable_far rfl rfl rfl hnear (by decide +kernel)

end Roads

/-- From `a` roads lead back to `a`, and a query that is read to its end returns that. -/
theorem answers_complete_roads :
    Derivable Roads.rules.rules (· ∈ Roads.graph.triples)
        (Roads.leads (Roads.uri "a") (Roads.uri "a")) ∧
      Roads.pattern.Matches (Roads.leads (Roads.uri "a") (Roads.uri "a")) ∧
      Roads.leads (Roads.uri "a") (Roads.uri "a") ∈ Roads.answers := by
  have hmatch : Roads.pattern.Matches (Roads.leads (Roads.uri "a") (Roads.uri "a")) := by
    refine ⟨fun _ => Roads.uri "a", ?_⟩
    constructor <;> simp [Roads.pattern, Roads.leads, Roads.uri]
  obtain ⟨⟨xs, e⟩, hread, hxs⟩ := Option.map_eq_some_iff.1 Roads.readings_three
  obtain ⟨ys, x, e', hbefore, hys, hend⟩ := Roads.does_readings hread
  obtain ⟨rfl, rfl⟩ := List.append_singleton_inj.1 (hys.symm.trans hxs)
  refine ⟨Roads.derivable_back, hmatch, answers_complete Roads.compile_rules Roads.safe_rules ?_
    .start Roads.ground_graph Roads.does_find (Roads.reads_readings hbefore) rfl hend
    Roads.derivable_back hmatch⟩
  intro r hr e he
  simp only [Roads.rules, List.mem_cons, List.not_mem_nil, or_false] at hr
  rcases hr with rfl | rfl <;> simp at he <;> grind

end TabledRules
