-- The search that keeps to the compiled code and the plain interpreter of the
-- rules find the same solutions. They are twins after each solution, so one
-- solution after the other the rest of a body comes out the same.
import TabledRules.Proofs.MirroredRules

namespace TabledRules

open Bindings

section

variable {P : Program} {r : Rule} {name : String → Nat} {S S' : Pairing} {F G : Set Nat}
  {θ θ1 : Values} {b b' b1 b1' : Bindings} {t u u' : Term} {ts us us' : List Term} {f : String}
  {goal goal' pattern : Triple} {n : Nat} {values : Bool}

/-! ## Rules that are taken up -/

/-- The checks of head variables see the same arguments. -/
theorem Bindings.Mirror.passes {R : Pairing} {H : Set Nat} (h : Mirror S R H G b b')
    (hgoal : S.Triples goal goal') (op : Operation) : op.passes b' goal' = op.passes b goal := by
  have hbound : ∀ i, b'.isBound (goal'.terms.getD i .any) = b.isBound (goal.terms.getD i .any) := by
    intro i
    match i with
    | 0 => exact h.isBound hgoal.subject
    | 1 => exact h.isBound hgoal.predicate
    | 2 => exact h.isBound hgoal.object
    | _ + 3 => simp [Triple.terms, Bindings.isBound]
  cases op with
  | testBound arg => exact hbound arg
  | testUnbound arg => exact congrArg not (hbound arg)
  | _ => rfl

theorem Rule.naming_inj (r : Rule) (b : Bindings) {v u : String} (hv : v ∈ r.names)
    (h : r.naming b v = r.naming b u) : v = u := by
  unfold Rule.naming at h
  exact (List.idxOf_inj hv).1 (by omega)

theorem Rule.naming_mem (r : Rule) (b : Bindings) {v : String} (hv : v ∈ r.names) :
    b.size ≤ r.naming b v ∧ r.naming b v < b.size + r.names.length := by
  have := List.idxOf_lt_length_of_mem hv
  unfold Rule.naming
  omega

/-- The head of a rule that is taken up unifies with the goal once it is renamed. -/
theorem enter_entered {x : Option (Values × Bindings)} (hfault : r.headFault = none)
    (h : Twins S G b b') (hgoal : S.Triples goal goal')
    (htests : (leadingTests r.head r.body).1.all (·.passes b goal) = true)
    (hx : r.enter n goal b = some x) :
    ∃ y, (r.head.rename (r.naming b') (b'.grow (b'.size + r.names.length))).2.unifyTriple (n + 2)
        goal' (r.head.rename (r.naming b') (b'.grow (b'.size + r.names.length))).1 = some y ∧
      Entered r (r.naming b') S G x y := by
  obtain ⟨k, W1, W2, hW, hgrown, hren, hobj⟩ :=
    rename_head hfault (r.naming b') (b'.grow (b'.size + r.names.length))
  generalize r.head.rename (r.naming b') _ = z at hgrown hren hobj
  obtain ⟨head', c'⟩ := z
  obtain rfl : c' = _ := hgrown
  have hsize : (b'.grow (b'.size + r.names.length)).size = b'.size + r.names.length := by
    simp
  have hlt : ∀ v ∈ G, v < b'.size := fun v hv => (h.right.free hv).1
  have hWmem : ∀ w, w ∈ W1 ++ W2 ↔
      b'.size + r.names.length ≤ w ∧ w < b'.size + r.names.length + k := by
    intro w
    rw [hW, List.mem_range'_1, hsize]
  rw [Rule.enter, if_pos htests] at hx
  -- the names of the rule and then its wildcards are new
  have htwins : Twins S (G ∪ {v | b'.size ≤ v ∧ v < b'.size + r.names.length} ∪
      {v | (b'.grow (b'.size + r.names.length)).size ≤ v ∧
        v < (b'.grow (b'.size + r.names.length)).size + k}) b
      ((b'.grow (b'.size + r.names.length)).grow
        ((b'.grow (b'.size + r.names.length)).size + k)) :=
    ⟨(h.toMirror.grow_right r.names.length).grow_right k, h.ground⟩
  have hm : Mirrored r (r.naming b') S (G ∪ {w | w ∈ W1 ++ W2})
      (G ∪ {v | b'.size ≤ v ∧ v < b'.size + r.names.length} ∪
      {v | (b'.grow (b'.size + r.names.length)).size ≤ v ∧
        v < (b'.grow (b'.size + r.names.length)).size + k}) .none := by
    refine ⟨fun v hv u _ e => r.naming_inj b' hv e, fun v hv => ?_, ?_,
      fun v _ t ht => (by cases ht), fun v hv _ => .inl (.inr (r.naming_mem b' hv))⟩
    · obtain ⟨h1, h2⟩ := r.naming_mem b' hv
      rintro (hin | hin)
      · have := hlt _ hin
        omega
      · have := (hWmem _).1 hin
        omega
    · rintro w (hin | hin)
      · exact .inl (.inl hin)
      · right
        rw [Set.mem_ofPred_eq, hsize]
        exact (hWmem w).1 hin
  obtain ⟨y, hy, hent⟩ := matchHead_entered hren hobj (hW ▸ List.nodup_range')
    (fun w hw => .inr hw) hgoal htwins hm hx
  refine ⟨y, hy, hent.mono le_rfl fun w hw => ⟨.inl hw, fun hin => ?_⟩⟩
  have h1 := hlt w hw
  have h2 := (hWmem w).1 hin
  omega

/-! ## Bodies -/

/-- A leaf of a body is passed on, a variable that is met now as a new one. -/
theorem putLeaf_mirrored (ht : t.isApp = false) (hnames : ∀ v, t = .var v → v ∈ r.names)
    (h : Twins S G b b') (hm : Mirrored r name S F G θ)
    (hput : r.putLeaf values θ b t = (u, θ1, b1)) (hren : t.rename name b' = (u', b1')) :
    ∃ S' G', S ≤ S' ∧ Twins S' G' b1 b1' ∧ Mirrored r name S' F G' θ1 ∧ S' u u' := by
  have wild : r.putLeaf values θ b t = (.ref b.size, θ, b.newVar.2) →
      t.rename name b' = b'.newVar →
      ∃ S' G', S ≤ S' ∧ Twins S' G' b1 b1' ∧ Mirrored r name S' F G' θ1 ∧ S' u u' := by
    intro h1 h2
    cases h1.symm.trans hput
    cases h2.symm.trans hren
    exact ⟨_, G, S.le_insert _ _, h.newVars, hm.mono (S.le_insert _ _), S.insert_self _ _⟩
  cases t with
  | node c =>
    cases hput
    cases hren
    exact ⟨S, G, le_rfl, h, hm, h.ground (.node c) rfl⟩
  | var v =>
    have hv := hnames v rfl
    cases hren
    rw [Rule.putLeaf] at hput
    cases hθ : θ v with
    | none =>
      rw [hθ] at hput
      cases hput
      exact ⟨_, _, S.le_insert _ _, h.newVar (hm.unmet v hv hθ), hm.learn hv _, S.insert_self _ _⟩
    | some s =>
      rw [hθ] at hput
      cases hput
      have hpair := hm.met v hv s hθ
      split
      · exact ⟨_, G, S.le_insert _ _,
          h.insert_of_same hpair (deref_deref h.left.ordered s) rfl,
          hm.mono (S.le_insert _ _), S.insert_self _ _⟩
      · exact ⟨S, G, le_rfl, h, hm, hpair⟩
  | app f args => cases ht
  | ref i => exact wild rfl rfl
  | any => exact wild rfl rfl

theorem putLeaves_mirrored (hflat : ∀ t ∈ ts, t.isApp = false)
    (hnames : ∀ v, Term.var v ∈ ts → v ∈ r.names) (h : Twins S G b b')
    (hm : Mirrored r name S F G θ) (hput : r.putLeaves values θ b ts = (us, θ1, b1))
    (hren : Term.renameAll name ts b' = (us', b1')) :
    ∃ S' G', S ≤ S' ∧ Twins S' G' b1 b1' ∧ Mirrored r name S' F G' θ1 ∧
      List.Forall₂ S' us us' := by
  induction ts generalizing S G θ b b' us us' with
  | nil =>
    cases hput
    cases hren
    exact ⟨S, G, le_rfl, h, hm, .nil⟩
  | cons t ts ih =>
    rcases hput1 : r.putLeaf values θ b t with ⟨u, θ2, b2⟩
    rcases hput2 : r.putLeaves values θ2 b2 ts with ⟨vs, θ3, b3⟩
    rcases hren1 : t.rename name b' with ⟨u', b2'⟩
    rcases hren2 : Term.renameAll name ts b2' with ⟨vs', b3'⟩
    simp only [Rule.putLeaves, hput1, hput2] at hput
    simp only [Term.renameAll, hren1, hren2] at hren
    cases hput
    cases hren
    obtain ⟨S1, G1, hle1, htwins1, hm1, hu⟩ := putLeaf_mirrored (hflat t List.mem_cons_self)
      (fun v e => hnames v (e ▸ List.mem_cons_self)) h hm hput1 hren1
    obtain ⟨S2, G2, hle2, htwins2, hm2, hus⟩ := ih (fun t ht => hflat t (List.mem_cons_of_mem _ ht))
      (fun v hv => hnames v (List.mem_cons_of_mem _ hv)) htwins1 hm1 hput2 hren2
    exact ⟨S2, G2, hle1.trans hle2, htwins2, hm2, .cons (hle2 _ _ hu) hus⟩

theorem Twins.insert_app (h : Twins S G b b') (hus : List.Forall₂ S us us') (f : String) :
    Twins (S.insert (.app f us) (.app f us')) G b b' := by
  refine .of_insert h.ground (h.toMirror.insert ?_ ?_ ?_ ?_)
  · rw [deref_app, deref_app]
    exact .app f hus
  all_goals simp

/-- A goal of a body as both sides call it. -/
theorem putGoal_mirrored (hflat : ∀ t ∈ (Entry.triple pattern).items, t.isApp = false)
    (hnames : ∀ v, Term.var v ∈ (Entry.triple pattern).items → v ∈ r.names) (h : Twins S G b b')
    (hm : Mirrored r name S F G θ) (hput : r.putGoal θ b pattern = (goal, θ1, b1))
    (hren : pattern.rename name b' = (goal', b1')) :
    ∃ S' G', S ≤ S' ∧ Twins S' G' b1 b1' ∧ Mirrored r name S' F G' θ1 ∧ S'.Triples goal goal' := by
  obtain ⟨us, hus, hload⟩ := putGoal_items hput
  obtain ⟨us', hus', hload'⟩ := Triple.rename_items name pattern b'
  rw [hren] at hus' hload'
  obtain ⟨S1, G1, hle, htwins, hm1, hpairs⟩ := putLeaves_mirrored hflat hnames h hm hus hus'
  have triples : ∀ {S : Pairing} {ts ts' : List Term}, List.Forall₂ S ts ts' → ts = goal.terms →
      ts' = goal'.terms → S.Triples goal goal' := by
    rintro S ts ts' hall rfl rfl
    cases hall with
    | cons h1 hall =>
      cases hall with
      | cons h2 hall =>
        cases hall with
        | cons h3 _ => exact ⟨h1, h2, h3⟩
  obtain ⟨s, p, o⟩ := pattern
  cases o with
  | app f ts =>
    -- the arguments make up a compound object, which is one more pair
    have compound : ∀ {x x' y y' : Term} {vs vs' : List Term}, S1 x x' → S1 y y' →
        List.Forall₂ S1 vs vs' → [x, y, .app f vs] = goal.terms →
        [x', y', .app f vs'] = goal'.terms → ∃ S' G', S ≤ S' ∧ Twins S' G' b1 b1' ∧
          Mirrored r name S' F G' θ1 ∧ S'.Triples goal goal' := by
      intro x x' y y' vs vs' h1 h2 hargs hgoal hgoal'
      have hle2 := S1.le_insert (.app f vs) (.app f vs')
      exact ⟨_, G1, hle.trans hle2, htwins.insert_app hargs f, hm1.mono hle2,
        triples (.cons (hle2 _ _ h1) (.cons (hle2 _ _ h2) (.cons (S1.insert_self _ _) .nil)))
          hgoal hgoal'⟩
    match hpairs, hload, hload' with
    | .nil, hload, _ => cases hload
    | .cons _ .nil, hload, _ => cases hload
    | .cons h1 (.cons h2 hargs), hload, hload' => exact compound h1 h2 hargs hload hload'
  | _ => exact ⟨S1, G1, hle, htwins, hm1, triples hpairs hload hload'⟩

/-! ## Stored triples -/

/-- The same stored triples match on both sides. -/
theorem Twins.matching (h : Twins S G b b') (hgoal : S.Triples goal goal') {facts : List Triple}
    (hfacts : ∀ t ∈ facts, t.isGround = true) {found : List (Triple × Bindings)}
    (hx : b.matching n goal facts = some found) :
    ∃ found', b'.matching n goal' facts = some found' ∧
      List.Forall₂ (fun p p' => p'.1 = p.1 ∧ Twins S G p.2 p'.2) found found' := by
  induction facts generalizing found with
  | nil =>
    cases hx
    exact ⟨[], rfl, .nil⟩
  | cons t facts ih =>
    obtain ⟨first, hfirst, hx⟩ := Option.bind_eq_some_iff.1 hx
    obtain ⟨others, hothers, hx⟩ := Option.bind_eq_some_iff.1 hx
    cases hx
    obtain ⟨others', hothers', hall⟩ :=
      ih (fun t ht => hfacts t (List.mem_cons_of_mem _ ht)) hothers
    have hterms : List.Forall₂ S t.terms t.terms := by
      refine List.forall₂_same.2 fun u hu => h.ground u ?_
      exact Triple.isGround_iff.1 (hfacts t List.mem_cons_self) u hu
    have hu := h.toMirror.unifyAll hgoal.terms hterms n
    rw [show b.unifyAll n goal.terms t.terms = some first from hfirst] at hu
    generalize hz : b'.unifyAll n goal'.terms t.terms = z at hu
    cases hu with
    | some hrel =>
      refine ⟨_, Option.bind_eq_some_iff.2 ⟨_, hz, Option.bind_eq_some_iff.2
        ⟨others', hothers', rfl⟩⟩, ?_⟩
      cases hrel with
      | none => exact hall
      | some hc => exact .cons ⟨rfl, hc, h.ground⟩ hall

/-! ## Solutions -/

/-- The sides have come further, to solutions that say the same. -/
def Later (S : Pairing) (G : Set Nat) (b b' : Bindings) : Prop := ∃ S', S ≤ S' ∧ Twins S' G b b'

theorem Later.mono (h : Later S' G b b') (hS : S ≤ S') (hF : F ⊆ G) : Later S F b b' := by
  obtain ⟨S1, hle, htwins⟩ := h
  exact ⟨S1, hS.trans hle, htwins.less hF⟩

theorem Later.forall₂_mono {bs bs' : List Bindings} (h : List.Forall₂ (Later S' G) bs bs')
    (hS : S ≤ S') (hF : F ⊆ G) : List.Forall₂ (Later S F) bs bs' :=
  h.imp fun _ _ hl => hl.mono hS hF

/-- What the search finds at a depth the interpreter finds as well, from some depth on. -/
structure Program.Agrees (P : Program) (n : Nat) : Prop where
  goal : ∀ {c : Call} {goal goal' : Triple} {b b' : Bindings} {S : Pairing} {G : Set Nat}
    {bs : List Bindings}, P.solveGoal n c goal b = some bs → Twins S G b b' →
    S.Triples goal goal' → Steady (fun k => P.evalGoal k c goal' b') (List.Forall₂ (Later S G) bs)
  clauses : ∀ {goal goal' : Triple} {b b' : Bindings} {S : Pairing} {G : Set Nat} {enough : Bool}
    {cls : List Clause} {bs : List Bindings}, (∀ cl ∈ cls, cl ∈ P.rules.clauses.toList) →
    P.solveClauses n goal b enough cls = some bs → Twins S G b b' → S.Triples goal goal' →
    Steady (fun k => P.evalClauses k goal' b' enough cls) (List.Forall₂ (Later S G) bs)
  rule : ∀ {goal goal' : Triple} {b b' : Bindings} {S : Pairing} {G : Set Nat} {cl : Clause}
    {bs : List Bindings}, cl ∈ P.rules.clauses.toList → P.solveClause n goal b cl = some bs →
    Twins S G b b' → S.Triples goal goal' →
    Steady (fun k => P.evalRule k goal' b' cl.rule) (List.Forall₂ (Later S G) bs)
  body : ∀ {cl : Clause} {name : String → Nat} {θ : Values} {es : List Entry} {b b' : Bindings}
    {S : Pairing} {F G : Set Nat} {bs : List Bindings}, cl ∈ P.rules.clauses.toList →
    es <:+ cl.rule.steps → P.solveBody n cl.rule θ es b = some bs → Twins S G b b' →
    Mirrored cl.rule name S F G θ →
    Steady (fun k => P.evalBody k cl.rule name es b') (List.Forall₂ (Later S F) bs)
  each : ∀ {cl : Clause} {name : String → Nat} {θ : Values} {es : List Entry}
    {cs cs' : List Bindings} {S : Pairing} {F G : Set Nat} {bs : List Bindings},
    cl ∈ P.rules.clauses.toList → es <:+ cl.rule.steps →
    P.solveEach n cl.rule θ es cs = some bs → List.Forall₂ (Later S G) cs cs' →
    Mirrored cl.rule name S F G θ →
    Steady (fun k => P.evalEach k cl.rule name es cs') (List.Forall₂ (Later S F) bs)

namespace Program

theorem Agrees.goal_succ (h : P.Agrees n) (hP : P.Blind) {c : Call} {bs : List Bindings}
    (hx : P.solveGoal (n + 1) c goal b = some bs) (htwins : Twins S G b b')
    (hgoal : S.Triples goal goal') :
    Steady (fun k => P.evalGoal k c goal' b') (List.Forall₂ (Later S G) bs) := by
  rw [solveGoal] at hx
  obtain ⟨enough, henough, hx⟩ := Option.bind_eq_some_iff.1 hx
  obtain ⟨value, hvalue, hx⟩ := Option.bind_eq_some_iff.1 hx
  obtain ⟨stored, hstored, hx⟩ := Option.bind_eq_some_iff.1 hx
  obtain ⟨derived, hderived, hx⟩ := Option.bind_eq_some_iff.1 hx
  cases hx
  have hvalue' := htwins.toMirror.deepDerefTriple hgoal n
  rw [hvalue] at hvalue'
  generalize hv : goal'.mapTerms? (b'.deepDeref n) = z at hvalue'
  cases hvalue' with
  | @some _ value' hlike =>
    have hground : ∀ t ∈ P.find value.lookupKey, t.isGround = true := fun t ht =>
      hP.ground t ⟨_, ht⟩
    obtain ⟨stored', hstored', hall⟩ := htwins.matching hgoal hground hstored
    rw [← hlike.lookupKey] at hstored'
    rw [← htwins.toMirror.commits hgoal] at henough
    rw [← htwins.toMirror.clauses hP hgoal] at hderived
    refine Steady.succ (Steady.bind (p := (· = enough)) ?_ ?_) fun k => by rw [evalGoal]; rfl
    · exact .of_mono (fun hnm => commits_mono hnm) henough rfl
    rintro _ rfl
    refine Steady.bind (p := (· = value')) ?_ ?_
    · exact .of_mono (fun hnm => mapTerms?_mono fun _ _ => Bindings.deepDeref_mono hnm) hv rfl
    rintro _ rfl
    refine Steady.bind (p := (· = stored')) ?_ ?_
    · exact .of_mono (fun hnm => matching_mono hnm) hstored' rfl
    rintro _ rfl
    refine Steady.bind (h.clauses (fun cl hcl => mem_clauses_of_call hcl) hderived htwins hgoal) ?_
    intro derived' hderived'
    refine .pure (List.rel_append (List.forall₂_map_left_iff.2 (List.forall₂_map_right_iff.2 ?_))
      hderived')
    exact hall.imp fun p p' hp => ⟨S, le_rfl, hp.2⟩

theorem Agrees.clauses_succ (h : P.Agrees n) {enough : Bool} {cls : List Clause}
    {bs : List Bindings} (hcls : ∀ cl ∈ cls, cl ∈ P.rules.clauses.toList)
    (hx : P.solveClauses (n + 1) goal b enough cls = some bs) (htwins : Twins S G b b')
    (hgoal : S.Triples goal goal') :
    Steady (fun k => P.evalClauses k goal' b' enough cls) (List.Forall₂ (Later S G) bs) := by
  cases cls with
  | nil =>
    cases hx
    exact (Steady.pure .nil).succ fun k => by rw [evalClauses]
  | cons cl cls =>
    rw [solveClauses] at hx
    obtain ⟨first, hfirst, hx⟩ := Option.bind_eq_some_iff.1 hx
    refine Steady.succ (Steady.bind (h.rule (hcls cl List.mem_cons_self) hfirst htwins hgoal) ?_)
      fun k => by rw [evalClauses]; rfl
    intro first' hfirst'
    have hempty : first'.isEmpty = first.isEmpty := by
      cases hfirst' <;> rfl
    rw [hempty]
    split at hx
    · next henough =>
      cases hx
      exact (Steady.pure hfirst').congr fun k => if_pos henough
    · next henough =>
      obtain ⟨others, hothers, rfl⟩ := Option.map_eq_some_iff.1 hx
      have hrest := h.clauses (fun c hc => hcls c (List.mem_cons_of_mem _ hc)) hothers htwins hgoal
      exact (hrest.map fun others' hall => List.rel_append hfirst' hall).congr fun k =>
        if_neg henough

theorem Agrees.rule_succ (h : P.Agrees n) (hP : P.Blind) {cl : Clause} {bs : List Bindings}
    (hcl : cl ∈ P.rules.clauses.toList) (hx : P.solveClause (n + 1) goal b cl = some bs)
    (htwins : Twins S G b b') (hgoal : S.Triples goal goal') :
    Steady (fun k => P.evalRule k goal' b' cl.rule) (List.Forall₂ (Later S G) bs) := by
  have hfault := headFault_of_mem hP.compiled hcl
  have htests : (leadingTests cl.rule.head cl.rule.body).1.all (·.passes b' goal') =
      (leadingTests cl.rule.head cl.rule.body).1.all (·.passes b goal) :=
    List.all_congr rfl fun op => htwins.toMirror.passes hgoal op
  rw [solveClause] at hx
  by_cases hpass : (leadingTests cl.rule.head cl.rule.body).1.all (·.passes b goal) = true
  · cases henter : cl.rule.enter n goal b with
    | none =>
      rw [henter] at hx
      cases hx
    | some z =>
      obtain ⟨y, hy, hent⟩ := enter_entered hfault htwins hgoal hpass henter
      rw [henter] at hx
      -- the interpreter comes to the same outcome of the head
      have hends : Steady (fun k => (cl.rule.head.rename (cl.rule.naming b')
          (b'.grow (b'.size + cl.rule.names.length))).2.unifyTriple k goal'
            (cl.rule.head.rename (cl.rule.naming b')
              (b'.grow (b'.size + cl.rule.names.length))).1) (· = y) :=
        .of_mono (fun hnm => Bindings.unifyAll_mono hnm) hy rfl
      cases hent with
      | none =>
        cases hx
        refine hends.after (.pure .nil) fun k hk => ?_
        rw [evalRule, htests, if_pos hpass]
        simp only [hk]
      | some hle htwins' hm =>
        have hbody := (h.body hcl List.suffix_rfl hx htwins' hm).imp fun bs' hall =>
          Later.forall₂_mono hall hle subset_rfl
        refine hends.after hbody fun k hk => ?_
        rw [evalRule, htests, if_pos hpass]
        simp only [hk]
  · have hnone : cl.rule.enter n goal b = some none := by
      rw [Rule.enter, if_neg hpass]
    rw [hnone] at hx
    cases hx
    exact (Steady.pure .nil).succ fun k => by rw [evalRule, htests, if_neg hpass]

theorem Agrees.body_succ (h : P.Agrees n) (hP : P.Blind) {cl : Clause} {es : List Entry}
    {bs : List Bindings} (hcl : cl ∈ P.rules.clauses.toList) (hes : es <:+ cl.rule.steps)
    (hx : P.solveBody (n + 1) cl.rule θ es b = some bs) (htwins : Twins S G b b')
    (hm : Mirrored cl.rule name S F G θ) :
    Steady (fun k => P.evalBody k cl.rule name es b') (List.Forall₂ (Later S F) bs) := by
  cases es with
  | nil =>
    cases hx
    exact (Steady.pure (.cons ⟨S, le_rfl, htwins.less hm.keeps⟩ .nil)).succ fun k => by
      rw [evalBody]
  | cons e es =>
    have hflat := not_app_of_entryFault
      (entryFault_of_suffix hP.compiled hcl hes e List.mem_cons_self)
    have hnames : ∀ v, Term.var v ∈ e.items → v ∈ cl.rule.names := fun v hv =>
      Rule.mem_names_of_body ((steps_suffix cl.rule).subset (hes.subset List.mem_cons_self)) hv
    have hes' : es <:+ cl.rule.steps := (List.suffix_cons e es).trans hes
    cases e with
    | triple pattern =>
      rcases hput : cl.rule.putGoal θ b pattern with ⟨goal, θ1, b1⟩
      rcases hren : pattern.rename name b' with ⟨goal', b1'⟩
      obtain ⟨S1, G1, hle, htwins1, hm1, hgoal⟩ :=
        putGoal_mirrored hflat hnames htwins hm hput hren
      simp only [solveBody, hput] at hx
      obtain ⟨found, hfound, hx⟩ := Option.bind_eq_some_iff.1 hx
      refine Steady.succ (Steady.bind (h.goal hfound htwins1 hgoal) fun found' hall => ?_)
        fun k => by simp only [evalBody, hren]; rfl
      exact (h.each hcl hes' hx hall hm1).imp fun bs' hbs =>
        Later.forall₂_mono hbs hle subset_rfl
    | builtin c =>
      rcases hput : cl.rule.putLeaves true θ b c.args with ⟨args, θ1, b1⟩
      rcases hren : Term.renameAll name c.args b' with ⟨args', b1'⟩
      obtain ⟨S1, G1, hle, htwins1, hm1, hargs⟩ :=
        putLeaves_mirrored hflat hnames htwins hm hput hren
      simp only [solveBody, hput] at hx
      cases hget : P.registry.get? c.name with
      | none =>
        rw [hget] at hx
        cases hx
      | some f =>
        rw [hget] at hx
        have hstandard : Builtin.standard.get? c.name = some f := hP.registry ▸ hget
        have hdeepens := Program.deepens_of_standard hP.registry hget
        -- the builtin answers, and the interpreter's call answers the same
        have agree : ∀ {z : Option Bindings},
            f.run n P.store (some cl.rule) b1 args = some (.ok z) →
            Concurs S1 ∅ G1 z (f.run n P.store (some cl.rule) b1' args') := fun hz =>
          htwins1.toMirror.builtin (fun c => htwins1.ground (.node c) rfl) hP.store hstandard
            hargs hz
        simp only at hx
        split at hx
        · next b2 hrun =>
          obtain ⟨z', hz', hrel⟩ := agree hrun
          cases hrel with
          | @some _ b2' hc =>
            have hends : Steady (fun k => f.run k P.store (some cl.rule) b1' args')
                (· = .ok (some b2')) := .of_mono (fun hnm => hdeepens.run hnm) hz' rfl
            have hbody := (h.body hcl hes' hx ⟨hc, htwins1.ground⟩ hm1).imp fun bs' hbs =>
              Later.forall₂_mono hbs hle subset_rfl
            refine hends.after hbody fun k hk => ?_
            simp only [evalBody, hget, hren, hk]
        · next hrun =>
          obtain ⟨z', hz', hrel⟩ := agree hrun
          cases hrel
          cases hx
          have hends : Steady (fun k => f.run k P.store (some cl.rule) b1' args')
              (· = .ok none) := .of_mono (fun hnm => hdeepens.run hnm) hz' rfl
          refine hends.after (.pure .nil) fun k hk => ?_
          simp only [evalBody, hget, hren, hk]
        · cases hx
        · cases hx

theorem Agrees.each_succ (h : P.Agrees n) {cl : Clause} {es : List Entry}
    {cs cs' bs : List Bindings} (hcl : cl ∈ P.rules.clauses.toList) (hes : es <:+ cl.rule.steps)
    (hx : P.solveEach (n + 1) cl.rule θ es cs = some bs) (hall : List.Forall₂ (Later S G) cs cs')
    (hm : Mirrored cl.rule name S F G θ) :
    Steady (fun k => P.evalEach k cl.rule name es cs') (List.Forall₂ (Later S F) bs) := by
  cases hall with
  | nil =>
    cases hx
    exact (Steady.pure .nil).succ fun k => by rw [evalEach]
  | cons hfirst hrest =>
    obtain ⟨S1, hle, htwins⟩ := hfirst
    rw [solveEach] at hx
    obtain ⟨first, hx1, hx⟩ := Option.bind_eq_some_iff.1 hx
    obtain ⟨others, hx2, hx⟩ := Option.bind_eq_some_iff.1 hx
    cases hx
    refine Steady.succ (Steady.bind (h.body hcl hes hx1 htwins (hm.mono hle)) fun first' h1 =>
      Steady.bind (h.each hcl hes hx2 hrest hm) fun others' h2 => ?_)
      fun k => by rw [evalEach]; rfl
    exact .pure (List.rel_append (Later.forall₂_mono h1 hle subset_rfl) h2)

/-- The interpreter finds what the search finds, at every depth of the search. -/
theorem agrees (hP : P.Blind) (n : Nat) : P.Agrees n := by
  induction n with
  | zero =>
    refine ⟨?_, ?_, ?_, ?_, ?_⟩
    · intro c goal goal' b b' S G bs hx
      cases hx
    · intro goal goal' b b' S G enough cls bs hcls hx
      cases hx
    · intro goal goal' b b' S G cl bs hcl hx
      cases hx
    · intro cl name θ es b b' S F G bs hcl hes hx
      cases hx
    · intro cl name θ es cs cs' S F G bs hcl hes hx
      cases hx
  | succ n ih =>
    exact ⟨ih.goal_succ hP, ih.clauses_succ, ih.rule_succ hP, ih.body_succ hP, ih.each_succ⟩

/-! ## Answers -/

/-- At first both sides are the same. -/
theorem twins_unbound (pattern : Triple) : ∃ S, Twins S ∅ pattern.unbound pattern.unbound ∧
    S.Triples pattern.standard pattern.standard := by
  have hfits := pattern.unbound_fits
  let S : Pairing := fun u u' => u' = u ∧ pattern.unbound.Scoped IsRef u
  have hside : pattern.unbound.Side (fun u => ∃ u', S u u') ∅ := by
    refine ⟨hfits.ordered, ?_, fun hv => absurd hv (Set.notMem_empty _)⟩
    rintro u v ⟨_, rfl, hu⟩ hd
    have := hfits.deref hu
    rw [hd] at this
    exact (Term.has_ref.1 this).2 v rfl
  refine ⟨S, ⟨⟨hside, hside.mono ?_ subset_rfl, ?_, ?_⟩, fun t ht => ⟨rfl, .of_isGround ht⟩⟩, ?_⟩
  · rintro u ⟨_, rfl, hu⟩
    exact ⟨u, rfl, hu⟩
  · intro u u' hu
    obtain ⟨rfl, hu⟩ := hu
    have hd := hfits.deref hu
    generalize pattern.unbound.deref u' = d at hd
    cases d with
    | node c => exact .node c
    | app f ts =>
      have hparts : ∀ t ∈ ts, S t t := fun t ht => ⟨rfl, Term.has_app.1 hd t ht⟩
      exact .app f (List.forall₂_same.2 hparts)
    | ref v => exact .ref v v
    | var x => exact absurd (.inr ⟨x, rfl⟩) (not_wild_of_scoped hd)
    | any => exact absurd (.inl rfl) (not_wild_of_scoped hd)
  · rintro u _ y _ v v' ⟨rfl, -⟩ ⟨rfl, -⟩ hd hd'
    rw [hd] at hd'
    cases hd'
    exact Iff.rfl
  · have hscoped := pattern.standard_scoped
    exact ⟨⟨rfl, hscoped _ (by simp [Triple.terms])⟩, ⟨rfl, hscoped _ (by simp [Triple.terms])⟩,
      ⟨rfl, hscoped _ (by simp [Triple.terms])⟩⟩

/-- The interpreter has the answers of the search, in the same order and each as often. -/
theorem eval_of_search (hP : P.Blind) {ts : List Triple} (h : P.search n pattern = some ts) :
    ∃ k, ∀ m, k ≤ m → P.eval m pattern = some ts := by
  obtain ⟨S, htwins, hgoal⟩ := twins_unbound pattern
  unfold search at h
  obtain ⟨stored, hstored, h⟩ := Option.bind_eq_some_iff.1 h
  obtain ⟨solved, hsolved, h⟩ := Option.bind_eq_some_iff.1 h
  obtain ⟨derived, hderived, h⟩ := Option.bind_eq_some_iff.1 h
  cases h
  have hends : Steady (fun m => P.eval m pattern) (· = stored.map Prod.fst ++ derived) := by
    unfold eval
    refine Steady.bind (p := (· = stored)) ?_ ?_
    · exact .of_mono (fun hnm => matching_mono hnm) hstored rfl
    rintro _ rfl
    refine Steady.bind ((agrees hP n).clauses (fun cl hcl => ?_) hsolved htwins hgoal) ?_
    · exact mem_clauses_of_codeFor hcl
    intro solved' hall
    -- what twins have of the goal is written out the same
    have hderived' : (solved'.mapM fun b => pattern.standard.mapTerms? (b.resolve n)) =
        some derived := by
      rw [← hderived]
      clear hderived hsolved h
      induction hall with
      | nil => rfl
      | cons h1 _ ih =>
        obtain ⟨S1, hle, htwins1⟩ := h1
        rw [List.mapM_cons, List.mapM_cons, ih, htwins1.toMirror.resolve (hgoal.mono hle)]
    refine Steady.bind (p := (· = derived)) (.of_mono (fun hnm hx => ?_) hderived' rfl) ?_
    · exact mapM_eq_some_iff.2 ((mapM_eq_some_iff.1 hx).imp fun b t =>
        mapTerms?_mono fun _ _ => resolve_mono hnm)
    rintro _ rfl
    exact .pure rfl
  obtain ⟨k, _, rfl, hk⟩ := hends
  exact ⟨k, hk⟩

end Program

end

end TabledRules
