-- No answer is lost while a query is read. At every move all that is due to a
-- table is among its results or still given by its machine, so that a table
-- which is completed has all that is due to it.
import TabledRules.Proofs.Prospects

namespace TabledRules

/-! ## Machines that cover what is wanted -/

/-- All that is wanted of the machine is given by what it has left to try, or by the state that
it is in. -/
structure Machine.Covers {P : Program} (X : Prospect P) (s : Session)
    (want : Nat → Triple → Prop) (control : Control) (m : Machine) : Prop where
  linked : m.Linked P s
  runs : control.Linked P m
  gives : ∀ n t, want n t → m.Gives X s n t ∨ control.Gives X m n t

/-- What is due to a table and not among its results. -/
def Generator.Wants {P : Program} (X : Prospect P) (gen : Generator) (n : Nat) (t : Triple) : Prop :=
  X.due (n + 1) gen.goal t ∧ t ∉ gen.results.toList

section
variable {P : Program} {X : Prospect P} {st : Settings} {o : Owner → Prop} {s s' : Session}
  {m m' : Machine} {want want' : Nat → Triple → Prop} {control : Control} {p : Progress}
  {g q : Nat} {K : Triple → Prop} {Y D : Nat → Prop}

theorem Machine.Covers.imp (h : m.Covers X s want control) (hw : ∀ n t, want' n t → want n t) :
    m.Covers X s want' control :=
  ⟨h.linked, h.runs, fun n t ht => h.gives n t (hw n t ht)⟩

/-- What spares the machine of a consumer lets the consumer read what it could read. -/
theorem Session.Spares.retains (hs : s.Spares o s') {d : Nat} {k : Consumer}
    (hk : s.consumers[d]? = some k) (ho : ¬ o k.owner) (hd : ¬ s'.Done k.owner) :
    s.Retains s' d := by
  intro k' gen hk' hgen
  cases hk.symm.trans hk'
  obtain ⟨k', hk', hsame⟩ := (hs.consumer hk ho).resolve_left hd
  obtain ⟨gen', hgen', hfollows⟩ := hs.generator hgen
  exact ⟨k', gen', hk', hsame.generator, hsame.read, hgen', hfollows.goal, hfollows.results⟩

/-- The consumers of a machine that is spared read what they could read. -/
theorem Machine.Tied.retains (ht : m.Tied s) (hs : s.Spares o s') (ho : ¬ o m.owner)
    (hd : ¬ s'.Done m.owner) (x : Choice) (hx : m.Holds x) (d : Nat) (hc : x.consumer? = some d) :
    s.Retains s' d := by
  obtain ⟨k, hk, howner⟩ : ∃ k : Consumer, s.consumers[d]? = some k ∧ k.owner = m.owner := by
    rcases hx with hx | ⟨e, hx⟩
    · obtain ⟨k, hk, howner, -⟩ := ht.reads d (List.mem_filterMap.2 ⟨x, hx, hc⟩)
      exact ⟨k, hk, howner⟩
    · obtain ⟨hx', k, hk, howner, -⟩ := ht.waits hx
      cases hc.symm.trans hx'
      exact ⟨k, hk, howner⟩
  exact hs.retains hk (howner ▸ ho) (howner ▸ hd)

theorem Machine.Covers.spares (h : m.Covers X s want control) (ht : m.Tied s)
    (hs : s.Spares o s') (hgrows : s.Grows s') (ho : ¬ o m.owner) (hd : ¬ s'.Done m.owner) :
    m.Covers X s' want control where
  linked := h.linked.grows hgrows
  runs := h.runs
  gives n t hw := (h.gives n t hw).imp_left fun hgives =>
    hgives.retain (fun _ h => h) (ht.retains hs ho hd) (fun _ h => h) rfl

/-! ## New machines -/

theorem codeFor_ne_nil {goal : Triple} {cl : Clause} (h : cl ∈ P.rules.codeFor goal) :
    (P.rules.codeFor goal).isEmpty = false := by
  cases hc : P.rules.codeFor goal with
  | nil => rw [hc] at h; cases h
  | cons _ _ => rfl

/-- A new machine gives what its goal begins with. -/
theorem start_gives {goal t : Triple} {owner : Owner} {n : Nat}
    (h : Machine.start (P.world st) goal owner = .ok m)
    (hbegins : Begins P (X.offers n goal.standard goal.standard goal.unbound [] · t) goal t)
    (s : Session) : m.Gives X s n t := by
  obtain ⟨m0, hblank, rfl⟩ := start_eq h
  obtain ⟨hstandard, hbindings, -, -, hargs, -⟩ := blank_eq hblank
  have hgoal : goalOf m0.args = goal.standard := by rw [hargs]; rfl
  rcases hbegins with ⟨hmem, hnever⟩ | ⟨cl, hcl, hoffers⟩
  · refine ⟨_, .inl List.mem_cons_self, hmem, fun d k => ?_⟩
    have hb : (m0.pushedClauses .root [.proceed] (P.rules.codeFor goal.standard)
        goal.isGround).bindings = goal.unbound := by
      unfold Machine.pushedClauses
      split <;> exact hbindings
    change ((m0.pushedClauses .root [.proceed] _ _).bindings.grow k).unifyTriple d _ t ≠ _
    rw [hb]
    exact hnever d k
  · refine Machine.Gives.pushed ?_ _ _ _
    rw [Machine.pushedClauses, codeFor_ne_nil hcl]
    refine ⟨_, .inl List.mem_cons_self, ?_, cl, hcl, [], .root, ?_⟩
    · change (m0.committed.erase m0.choices).contains m0.choices = false
      simp
    · change X.offers n m0.standard (goalOf m0.args) m0.bindings [] _ t
      rw [hstandard, hgoal, hbindings]
      exact hoffers

/-- The machine of a new table covers what is due to the table. -/
theorem start_covers {goal : Triple} {owner : Owner}
    (h : Machine.start (P.world st) goal owner = .ok m) (s : Session) :
    m.Covers X s (fun n t => X.due (n + 1) goal t) .backtrack where
  linked := start_linked h s
  runs := trivial
  gives _ _ hdue := .inl (start_gives h (X.due_start hdue) s)

/-! ## Turns -/

/-- What is wanted after a turn. -/
def Progress.Covers (X : Prospect P) (s : Session) (want : Nat → Triple → Prop) (m : Machine) :
    Progress → Prop
  | .go control => m.Covers X s want control
  | .done (.ok (some u)) => m.Covers X s (fun n t => want n t ∧ t ≠ u) .backtrack
  | .done (.ok none) => m.Covers X s want .backtrack
  | _ => True

theorem Turn.covers (h : Turn P st control m s p m' s') (hp : ∀ e, p ≠ .done (.error e))
    (hP : P.Standard) (hm : m.Sound P s K) (hc : control.Sound P K m) (hs : s.Sound P)
    (hK : ∀ u, K u → P.Finds u) (ht : m.Tied s) (hw : s.Wired Y D) (hfull : s.Full X)
    (hcovers : m.Covers X s want control) : p.Covers X s' want m' := by
  obtain ⟨hl, hl'⟩ := h.linked hP hp hm hc hs hcovers.linked hcovers.runs
  have hgives : ∀ n t, want n t → p.Gives X m' s' n t := fun n t hwant =>
    h.gives hp hP hm hc hs hK hcovers.linked hcovers.runs ht hw hfull (hcovers.gives n t hwant)
  match p with
  | .go control' => exact ⟨hl, hl', hgives⟩
  | .done (.ok (some u)) =>
    refine ⟨hl, trivial, fun n t hwant => .inl ?_⟩
    exact (hgives n t hwant.1).resolve_right fun e => hwant.2 e.symm
  | .done (.ok none) => exact ⟨hl, trivial, fun n t hwant => .inl (hgives n t hwant)⟩
  | .done (.error e) => trivial
  | .endless => trivial

/-! ## Sessions -/

end

/-- Complete tables have all that is due to them, and the machines of the others give what is
still to come, those in `out` apart. -/
structure Session.Covered {P : Program} (X : Prospect P) (out : Nat → Prop) (s : Session) :
    Prop where
  full : s.Full X
  machine : ∀ {g : Nat} {gen : Generator} {m : Machine}, s.generators[g]? = some gen →
    gen.complete = false → ¬ out g → gen.machine = some m →
    m.Covers X s (gen.Wants X) .backtrack

section
variable {P : Program} {X : Prospect P} {st : Settings} {o : Owner → Prop} {s s' : Session}
  {m m' : Machine} {want want' : Nat → Triple → Prop} {control : Control} {p : Progress}
  {g q : Nat} {K : Triple → Prop} {Y D out out' : Nat → Prop}

theorem Session.Covered.mono (h : s.Covered X out) (ho : ∀ g, out g → out' g) :
    s.Covered X out' where
  full := h.full
  machine hg hinc hout := h.machine hg hinc fun hg => hout (ho _ hg)

/-- The machines of other generators are spared. -/
theorem Session.Covered.spares (h : s.Covered X out) (hm : s.Manned out) (hs : s.Spares o s')
    (hgrows : s.Grows s') (ho : ∀ g, o (.generator g) → out g) (hfull : s'.Full X)
    (hnew : ∀ {g : Nat} {gen' : Generator} {m : Machine}, s'.generators[g]? = some gen' →
      s.generators[g]? = none → gen'.machine = some m → m.Covers X s' (gen'.Wants X) .backtrack) :
    s'.Covered X out := by
  refine ⟨hfull, fun {g gen' m} hg hinc hout hmachine => ?_⟩
  cases hold : s.generators[g]? with
  | none => exact hnew hg hold hmachine
  | some gen =>
    obtain ⟨gen'', hg'', hfollows⟩ := hs.generator hold
    cases hg.symm.trans hg''
    obtain ⟨hresults, hkept⟩ := hfollows.idle fun hran => hout (ho g hran)
    rw [hinc] at hkept
    obtain ⟨hsame, -⟩ := hkept.resolve_left (by simp)
    have hinc' : gen.complete = false := by
      cases hc : gen.complete with
      | false => rfl
      | true =>
        rw [hfollows.complete hc] at hinc
        cases hinc
    rw [hsame] at hmachine
    obtain ⟨m', hm', howner, htied, -⟩ := hm.machine hold hinc' hout
    cases hmachine.symm.trans hm'
    have hdone : ¬ s'.Done m.owner := by
      rw [howner]
      rintro ⟨gen1, hg1, hc1⟩
      cases hg.symm.trans hg1
      rw [hinc] at hc1
      cases hc1
    refine ((h.machine hold hinc' hout hmachine).spares htied hs hgrows ?_ hdone).imp ?_
    · rw [howner]
      exact fun hran => hout (ho g hran)
    · intro n t hwant
      unfold Generator.Wants at hwant ⊢
      rw [← hfollows.goal, ← hresults]
      exact hwant

/-- Complete tables stay full where none is completed. -/
theorem Session.Full.extends (h : s.Full X) (hs : s.Extends P st s') : s'.Full X := by
  intro g gen' hg hcomplete n t hdue
  rcases hs.look hg with ⟨gen, hgen, htwin⟩ | ⟨-, m, -, hnew⟩
  · rw [htwin.results]
    rw [htwin.complete] at hcomplete
    rw [htwin.goal] at hdue
    exact h g gen hgen hcomplete n t hdue
  · rw [hnew] at hcomplete
    cases hcomplete

/-- No table is new, and those that are completed have all that is due to them. -/
theorem Session.Covered.kept (h : s.Covered X out) (hm : s.Manned out) (hs : s.Spares o s')
    (hsame : s.SameTables s') (ho : ∀ g, o (.generator g) → out g)
    (hcomplete : ∀ {g : Nat} {gen gen' : Generator}, s.generators[g]? = some gen →
      s'.generators[g]? = some gen' → gen'.complete = true → gen.complete = true ∨
        ∀ n t, X.due n gen.goal t → t ∈ gen.results.toList) : s'.Covered X out := by
  refine h.spares hm hs hsame.grows ho (fun g gen' hg hc n t hdue => ?_) fun hg hnone => ?_
  · obtain ⟨gen, hgen, hgoal, hresults, -⟩ := hsame.generator hg
    rw [hresults]
    rw [hgoal] at hdue
    rcases hcomplete hgen hg hc with hold | hall
    · exact h.full g gen hgen hold n t hdue
    · exact hall n t hdue
  · obtain ⟨gen, hgen, -⟩ := hsame.generator hg
    rw [hnone] at hgen
    cases hgen

/-- While the machine of one owner does something, the tables of the others stay covered. -/
theorem Effect.covered (h : Effect P st m s m' s') (hgrows : s.Grows s') (ht : m.Tied s)
    (hw : s.Wired Y D) (hmanned : s.Manned out) (ho : ∀ g, m.owner = .generator g → out g)
    (hs : s.Covered X out) : s'.Covered X out := by
  have hext := h.extends hw
  refine hs.spares hmanned (h.spares (o := (· = m.owner)) hw ht rfl) hgrows
    (fun g hg => ho g hg.symm) (hs.full.extends hext) fun {g gen' m1} hg hnone hmachine => ?_
  -- a table that is new has not run
  rcases hext.look hg with ⟨gen, hgen, -⟩ | ⟨-, m2, hstart, hgen⟩
  · rw [hnone] at hgen
    cases hgen
  · rw [hgen] at hmachine
    cases hmachine
    exact (start_covers hstart s').imp fun n t hwant => hwant.1

theorem Turn.covered (h : Turn P st control m s p m' s') (hp : ∀ e, p ≠ .done (.error e))
    (hgrows : s.Grows s') (ht : m.Tied s) (hw : s.Wired Y D) (hmanned : s.Manned out)
    (ho : ∀ g, m.owner = .generator g → out g) (hs : s.Covered X out) : s'.Covered X out :=
  (h.effect hp).2.covered hgrows ht hw hmanned ho hs

/-! ## Completion -/

/-- The generators of `D` have run, and the tables that they wait for have been read to their
ends and are of `D` or complete. -/
def Session.Settled (D : Nat → Prop) (s : Session) : Prop :=
  ∀ (g : Nat) (gen : Generator), D g → s.generators[g]? = some gen → gen.complete = false →
    gen.ready = false ∧ ∀ (c : Nat) (k : Consumer) (read : Generator), s.consumers[c]? = some k →
      k.owner = .generator g → k.suspended = true → s.generators[k.generator]? = some read →
      read.results.size ≤ k.read ∧ (D k.generator ∨ read.complete = true)

theorem Session.Stuck.settled (h : s.Stuck D) (hw : s.Wired Y fun _ => False) : s.Settled D := by
  intro g gen hg hgen hinc
  obtain ⟨gen', hgen', -, hready, hwaits⟩ := h g hg
  cases hgen.symm.trans hgen'
  refine ⟨hready, fun c k read hk howner hsusp hread => ?_⟩
  obtain ⟨gen1, hgen1, -, hlisted⟩ := (hw.worker hk howner).resolve_left id
  cases hgen.symm.trans hgen1
  obtain ⟨hD, read', hread', -, hsize⟩ := hwaits c (hlisted hsusp) k hk hsusp
  cases hread.symm.trans hread'
  exact ⟨hsize, .inl hD⟩

theorem Session.Spent.settled (h : s.Spent) : s.Settled fun _ => True :=
  fun _ _ _ hgen _ => ⟨h.ran hgen, fun _ _ _ hk howner hsusp hread =>
    ⟨h.read hk howner hsusp hread, .inl trivial⟩⟩

/-- Tables that wait for each other only have all that is due to them. -/
theorem Session.Covered.settled (h : s.Covered X fun _ => False) (hm : s.Manned fun _ => False)
    (hD : s.Settled D) (n : Nat) {g : Nat} {gen : Generator} (hg : D g)
    (hgen : s.generators[g]? = some gen) {t : Triple} (hdue : X.due n gen.goal t) :
    t ∈ gen.results.toList := by
  -- a result of round `n + 1` that is missing would take one of round `n` that is missing
  induction n generalizing g gen t with
  | zero => exact absurd hdue (X.not_due_zero _ _)
  | succ n ih =>
    by_contra hno
    cases hinc : gen.complete with
    | true => exact hno (h.full g gen hgen hinc _ t hdue)
    | false =>
      obtain ⟨hready, hwaits⟩ := hD g gen hg hgen hinc
      obtain ⟨m, hmachine, howner, htied, hidle⟩ := hm.machine hgen hinc id
      have hstack : m.stack = [] := hidle.resolve_left (by simp [hready])
      obtain ⟨x, hx, hgives⟩ :=
        ((h.machine hgen hinc id hmachine).gives n t ⟨hdue, hno⟩).resolve_right id
      obtain ⟨c, hx⟩ : ∃ c : Nat, m.suspended[c]? = some x := by
        rcases hx with hx | hx
        · rw [hstack] at hx
          cases hx
        · exact hx
      obtain ⟨hc, k, hk, hk', hsusp⟩ := htied.waits hx
      unfold Choice.Gives at hgives
      unfold Choice.consumer? at hc
      cases halt : x.alternatives with
      | clauses | facts | answers => simp [halt] at hc
      | results consumer goal =>
        simp only [halt, Option.some.injEq] at hc hgives
        subst hc
        obtain ⟨k', read, u, fs, hk1, hread, hle, hdue', hu, -, -⟩ := hgives
        cases hk.symm.trans hk1
        obtain ⟨hsize, hall⟩ := hwaits consumer k read hk (hk'.trans howner) hsusp hread
        rw [List.take_of_length_le (Index.size_eq read.results ▸ hsize)] at hu
        rcases hall with hall | hall
        · exact hu (ih hall hread hdue')
        · exact hu (h.full _ read hread hall n u hdue')

/-- A table that has all that is due to it is completed. -/
theorem Session.Covered.complete (h : s.Covered X out) (hm : s.Manned out)
    (event : Triple → Nat → Event)
    (hg : ∀ (gen : Generator) (n : Nat) (t : Triple), s.generators[g]? = some gen →
      X.due n gen.goal t → t ∈ gen.results.toList) : (s.complete event g).Covered X out := by
  refine h.kept hm (s.spares_complete event g fun _ => False) (s.sameTables_complete event g)
    (fun _ e => e.elim) fun {g' gen gen'} hgen hgen' hc => ?_
  rcases Session.of_complete_complete event hgen' hc with rfl | ⟨gen1, hgen1, hc1⟩
  · exact .inr fun n t => hg gen n t hgen
  · cases hgen.symm.trans hgen1
    exact .inl hc1

theorem Session.Covered.completeAll (event : Triple → Nat → Event) (gs : List Nat)
    (h : s.Covered X fun _ => False) (hs : s.Idle)
    (hgs : ∀ g ∈ gs, ∀ (gen : Generator) (n : Nat) (t : Triple), s.generators[g]? = some gen →
      X.due n gen.goal t → t ∈ gen.results.toList) :
    (gs.foldl (Session.complete event) s).Covered X fun _ => False := by
  induction gs generalizing s with
  | nil => exact h
  | cons g gs ih =>
    refine ih (h.complete hs.manned event (hgs g List.mem_cons_self)) (hs.completeAll event [g])
      fun g' hg' gen' n t hgen' hdue => ?_
    obtain ⟨gen, hgen, hgoal, hresults, -⟩ := (s.sameTables_complete event g).generator hgen'
    rw [hresults]
    rw [hgoal] at hdue
    exact hgs g' (List.mem_cons_of_mem _ hg') gen n t hgen hdue

theorem Session.Covered.checkCompletion (h : s.Covered X fun _ => False) (hs : s.Idle)
    (roots : List Nat) : (s.checkCompletion roots).Covered X fun _ => False := by
  rw [Session.checkCompletion_eq]
  refine h.completeAll _ _ hs fun g hg gen n t hgen hdue => ?_
  exact h.settled hs.manned ((hs.wired.stuck roots).settled hs.wired) n hg hgen hdue

end

end TabledRules
