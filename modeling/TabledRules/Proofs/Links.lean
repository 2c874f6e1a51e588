-- Which choice point a clause commits to. A clause for a ground goal names the
-- choice point whose other clauses are given up when it succeeds, and all that
-- is done before leaves the variables alone that were there at that point.
import TabledRules.Proofs.Derivations
import TabledRules.Proofs.Realms
import TabledRules.Proofs.Upkeep

namespace TabledRules

open Bindings

/-! ## Clauses that commit -/

/-- The clause that is `d` up in the environment, the running one being the first, commits to
the choice point `id` and returns to `caller`. -/
inductive Env.Commits (id : Nat) : Env → Nat → Env → List Instruction → Prop
  | here {i : Nat} {cl : Clause} {vars : List (Option Term)} {caller : Env}
    {back : List Instruction} : Commits id (.frame i cl vars caller back (some id)) 1 caller back
  | outer {i : Nat} {cl : Clause} {vars : List (Option Term)} {caller e : Env} {back code : List Instruction}
    {commit : Option Nat} {d : Nat} : Commits id caller d e code →
    Commits id (.frame i cl vars caller back commit) (d + 1) e code

/-- The environment commits to older choice points than `n`. -/
def Env.Older (n : Nat) (env : Env) : Prop :=
  ∀ (id d : Nat) (e : Env) (code : List Instruction), env.Commits id d e code → id < n

section
variable {env e : Env} {code : List Instruction} {id d n n' : Nat}

theorem Env.Commits.pos (h : env.Commits id d e code) : 0 < d := by
  cases h <;> omega

theorem Env.commits_setVars {vars : List (Option Term)} :
    (env.setVars vars).Commits id d e code ↔ env.Commits id d e code := by
  cases env with
  | root => exact Iff.rfl
  | frame cl old caller back commit =>
    constructor
    · intro h
      cases h with
      | here => exact .here
      | outer h => exact .outer h
    · intro h
      cases h with
      | here => exact .here
      | outer h => exact .outer h

theorem Env.Older.mono (h : env.Older n) (hn : n ≤ n') : env.Older n' :=
  fun _ _ _ _ hc => Nat.lt_of_lt_of_le (h _ _ _ _ hc) hn

theorem Env.older_root : Env.root.Older n := by
  intro id d e code h
  cases h

theorem Env.Older.setVars (h : env.Older n) (vars : List (Option Term)) :
    (env.setVars vars).Older n :=
  fun _ _ _ _ hc => h _ _ _ _ (Env.commits_setVars.1 hc)

end

/-! ## Choice points that are linked -/

/-- The variables that were there at the choice point have the values that they had. -/
def Choice.Keeps (x : Choice) : State → Prop := State.In x.bindings.Apart (Own x.bindings)

/-- The choice point is one for a ground goal, and this is where it was made. -/
structure Choice.Returns (x : Choice) (e : Env) (code : List Instruction) : Prop where
  clauses : ∃ rest args, x.alternatives = .clauses rest args true
  env_eq : e = x.env
  code_eq : code = x.code

/-- All that the later choice point `y` leads to before it commits to `x` leaves the variables
of `x` alone. -/
def Choice.Heeds (P : Program) (s : Session) (x y : Choice) : Prop :=
  ∀ (d : Nat) (e : Env) (code : List Instruction), y.env.Commits x.id d e code →
    x.Returns e code ∧ (x.bindings.Ordered → y.Under P s x.Keeps d)

/-- A goal for which one clause is enough stands for a ground triple. -/
def Choice.Grounded (x : Choice) : Prop :=
  ∀ (rest : List Clause) (args : List Term), x.alternatives = .clauses rest args true →
    ∀ u ∈ (goalOf args).terms, ∃ g, x.bindings.Means u g

/-- Choice points have numbers of their own, and clauses commit to older ones. -/
structure Machine.Linked (P : Program) (s : Session) (m : Machine) : Prop where
  heeds : m.stack.Pairwise fun y x => x.id < y.id ∧ x.Heeds P s y
  lt : ∀ y ∈ m.stack, y.id < m.choices
  older : ∀ y ∈ m.stack, y.env.Older y.id
  ground : ∀ y ∈ m.stack, y.Grounded
  pinned_le : m.pinned.choices ≤ m.choices
  suspended : ∀ {c : Nat} {y : Choice}, m.suspended[c]? = some y →
    y.id < m.pinned.choices ∧ y.env.Older y.id ∧ y.Grounded

/-- The running clauses commit to choice points of the machine. -/
def Control.Linked (P : Program) (m : Machine) : Control → Prop
  | .backtrack => True
  | .run env code => env.Older m.choices ∧
    ∀ x ∈ m.stack, ∀ (d : Nat) (e : Env) (back : List Instruction), env.Commits x.id d e back →
      x.Returns e back ∧ (x.bindings.Ordered → Control.Under P m x.Keeps d (.run env code))

section
variable {P : Program} {st : Settings} {s s' : Session} {m m' : Machine} {c x y : Choice}
  {rest : List Choice} {K : Triple → Prop} {p : Progress} {control : Control} {o b : Bindings}
  {n : Nat}

theorem Bindings.Apart.refl (ho : o.Ordered) : o.Apart o where
  ordered := ho
  size_le := Nat.le_refl _
  same := fun _ _ => rfl
  values := fun hv h => absurd (ho.bound_lt h) (by omega)

theorem stable_keeps (hP : P.Standard) (x : Choice) (ho : x.bindings.Ordered) :
    Stable P x.Keeps :=
  (apart_realm ho).stable (.inl rfl) hP

theorem Choice.Grounded.drops {a : Alternatives} (h : x.Grounded) (ha : x.alternatives.Drops a) :
    ({ x with alternatives := a } : Choice).Grounded := by
  intro rest args (halt : a = _)
  subst halt
  cases halt : x.alternatives with
  | clauses cls args' ground =>
    rw [halt] at ha
    cases ha
    exact h _ _ halt
  | facts => rw [halt] at ha; cases ha
  | answers => rw [halt] at ha; cases ha
  | results => rw [halt] at ha; cases ha

/-- Only what the choice points read counts of a session. -/
theorem Machine.Linked.grows (h : m.Linked P s) (hs : s.Grows s') : m.Linked P s' where
  heeds := h.heeds.imp fun ⟨hlt, hheeds⟩ => ⟨hlt, fun d e code hc =>
    ⟨(hheeds d e code hc).1, fun ho =>
      ((hheeds d e code hc).2 ho).reads fun _ _ hreads => hreads.grows hs⟩⟩
  lt := h.lt
  older := h.older
  ground := h.ground
  pinned_le := h.pinned_le
  suspended := h.suspended

/-- The same choice points in a machine with other registers. -/
theorem Machine.Linked.congr (h : m.Linked P s) (hstack : m'.stack = m.stack)
    (hchoices : m'.choices = m.choices) (hpinned : m'.pinned = m.pinned)
    (hsusp : m'.suspended = m.suspended) : m'.Linked P s where
  heeds := hstack ▸ h.heeds
  lt := hstack ▸ hchoices ▸ h.lt
  older := hstack ▸ h.older
  ground := hstack ▸ h.ground
  pinned_le := hpinned ▸ hchoices ▸ h.pinned_le
  suspended := hsusp ▸ hpinned ▸ h.suspended

/-! ## Going back -/

theorem choices_popped (m : Machine) (c : Choice) (rest : List Choice) :
    (m.popped c rest).choices = min m.choices (max (c.id + 1) m.pinned.choices) := rfl

theorem Machine.Linked.popped (h : m.Linked P s) (hstack : m.stack = c :: rest) :
    (m.popped c rest).Linked P s ∧ c.id < (m.popped c rest).choices := by
  have hpair := h.heeds
  rw [hstack, List.pairwise_cons] at hpair
  have hmem : ∀ y ∈ rest, y ∈ m.stack := fun y hy => hstack ▸ List.mem_cons_of_mem _ hy
  have hc : c.id < m.choices := h.lt c (by rw [hstack]; exact List.mem_cons_self)
  have hpinned := h.pinned_le
  have hlt : c.id < (m.popped c rest).choices := by
    rw [choices_popped]
    omega
  refine ⟨⟨hpair.2, fun y hy => ?_, fun y hy => h.older y (hmem y hy),
    fun y hy => h.ground y (hmem y hy), ?_, h.suspended⟩, hlt⟩
  · exact Nat.lt_trans (hpair.1 y hy).1 hlt
  · rw [choices_popped]
    change m.pinned.choices ≤ _
    omega

/-- The choice point that was gone back to is put back with less to try. -/
theorem Machine.Linked.keep (h : m.Linked P s) (hstack : m.stack = c :: rest) {a : Alternatives}
    (ha : c.alternatives.Drops a) : ((m.popped c rest).keep c a).Linked P s := by
  have hpair := h.heeds
  rw [hstack, List.pairwise_cons] at hpair
  have hc : c ∈ m.stack := by rw [hstack]; exact List.mem_cons_self
  obtain ⟨hpop, hlt⟩ := h.popped hstack
  refine ⟨?_, ?_, ?_, ?_, hpop.pinned_le, hpop.suspended⟩
  · refine List.pairwise_cons.2 ⟨fun x hx => ⟨(hpair.1 x hx).1, fun d e code hcommits => ?_⟩,
      hpair.2⟩
    obtain ⟨hret, hunder⟩ := (hpair.1 x hx).2 d e code hcommits
    exact ⟨hret, fun ho => (hunder ho).tried ha⟩
  · intro y hy
    rcases List.mem_cons.1 hy with rfl | hy
    · exact hlt
    · exact hpop.lt y hy
  · intro y hy
    rcases List.mem_cons.1 hy with rfl | hy
    · exact h.older c hc
    · exact hpop.older y hy
  · intro y hy
    rcases List.mem_cons.1 hy with rfl | hy
    · exact (h.ground c hc).drops ha
    · exact hpop.ground y hy

/-- Where a choice point goes on, the clauses commit to the same choice points. -/
theorem Machine.Linked.resume (h : m.Linked P s) (hstack : m.stack = c :: rest) {a : Alternatives}
    (hstack' : m'.stack = { c with alternatives := a } :: rest)
    (hchoices : m'.choices = (m.popped c rest).choices)
    (hunder : ∀ U d, c.Under P s U d → Control.Under P m' U d (.run c.env c.code)) :
    Control.Linked P m' (.run c.env c.code) := by
  have hpair := h.heeds
  rw [hstack, List.pairwise_cons] at hpair
  have holder := h.older c (by rw [hstack]; exact List.mem_cons_self)
  have hlt := (h.popped hstack).2
  refine ⟨?_, fun x hx d e back hcommits => ?_⟩
  · rw [hchoices]
    exact holder.mono (Nat.le_of_lt hlt)
  · rw [hstack'] at hx
    rcases List.mem_cons.1 hx with rfl | hx
    · exact absurd (holder _ _ _ _ hcommits) (Nat.lt_irrefl _)
    · obtain ⟨hret, hkeeps⟩ := (hpair.1 x hx).2 d e back hcommits
      exact ⟨hret, fun ho => hunder _ _ (hkeeps ho)⟩

/-! ## New choice points -/

/-- A choice point is made where the clauses that run commit to choice points of the
machine. -/
theorem Machine.Linked.pushed (h : m.Linked P s) {env : Env} {code : List Instruction}
    {a : Alternatives} (holder : env.Older m.choices)
    (hheeds : ∀ x ∈ m.stack, x.Heeds P s (m.choice env code a))
    (hground : (m.choice env code a).Grounded) : (m.pushed env code a).Linked P s := by
  refine ⟨?_, ?_, ?_, ?_, Nat.le_succ_of_le h.pinned_le, h.suspended⟩
  · refine List.pairwise_cons.2 ⟨fun x hx => ⟨h.lt x hx, ?_⟩, h.heeds⟩
    exact hheeds x hx
  · intro y hy
    rcases List.mem_cons.1 hy with rfl | hy
    · exact Nat.lt_succ_self _
    · exact Nat.lt_succ_of_lt (h.lt y hy)
  · intro y hy
    rcases List.mem_cons.1 hy with rfl | hy
    · exact holder
    · exact h.older y hy
  · intro y hy
    rcases List.mem_cons.1 hy with rfl | hy
    · exact hground
    · exact h.ground y hy

theorem mem_areGround {b : Bindings} {ts : List Term} (h : b.areGround n ts = some true) :
    ∀ t ∈ ts, ∃ g, b.Means t g := by
  induction ts with
  | nil => exact fun t ht => absurd ht List.not_mem_nil
  | cons u us ih =>
    unfold areGround at h
    cases hu : b.deepDeref n u with
    | none => simp [hu] at h
    | some g =>
      simp only [hu] at h
      split at h
      · next hg =>
        intro t ht
        rcases List.mem_cons.1 ht with rfl | ht
        · exact ⟨g, n, hu, hg⟩
        · exact ih h t ht
      · cases h

/-- The choice points that a call makes. `hunder` says where the clauses that run return to, and
that the new choice points leave alone what they have to. -/
theorem Calls.linked {w : World} {env : Env} {code : List Instruction} {call : Call}
    (h : Calls P w env code call m s p m' s') (hp : ∀ e, p ≠ .done (.error e))
    (hl : m.Linked P s') (holder : env.Older m.choices)
    (hunder : ∀ x ∈ m.stack, ∀ (d : Nat) (e : Env) (back : List Instruction),
      env.Commits x.id d e back → x.Returns e back ∧ (x.bindings.Ordered →
        ∃ new, m'.stack = new ++ m.stack ∧ ∀ z ∈ new, z.Under P s' x.Keeps d)) :
    m'.Linked P s' := by
  have heeds : ∀ x ∈ m.stack, ∀ y ∈ m'.stack, y.env = env → (∀ new, m'.stack = new ++ m.stack →
      y ∈ new) → x.Heeds P s' y := by
    intro x hx y _ henv hnew d e back hcommits
    rw [henv] at hcommits
    obtain ⟨hret, hall⟩ := hunder x hx d e back hcommits
    refine ⟨hret, fun ho => ?_⟩
    obtain ⟨new, hstack, hz⟩ := hall ho
    exact hz y (hnew new hstack)
  cases h with
  | @search n value ground hc hground hv =>
    have hcalled : ∀ rest args, (m.choice env code (.clauses
        (call.clauses P.rules (m.called.mapTerms m.bindings.deref)) m.args ground)).alternatives =
          .clauses rest args true → ∀ u ∈ (goalOf args).terms, ∃ g, m.bindings.Means u g := by
      intro rest args halt
      cases halt
      exact mem_areGround (hground rfl).2
    unfold Machine.pushedClauses at heeds ⊢
    split at heeds
    · next hempty =>
      rw [if_pos hempty]
      refine hl.pushed holder (fun x hx => ?_) (fun rest args halt => nomatch halt)
      refine heeds x hx _ List.mem_cons_self rfl fun new hnew => ?_
      rw [← List.append_cancel_right (show [_] ++ m.stack = new ++ m.stack from hnew)]
      exact List.mem_cons_self
    · next hne =>
      rw [if_neg hne]
      have hclauses : (m.pushed env code (.clauses (call.clauses P.rules
          (m.called.mapTerms m.bindings.deref)) m.args ground)).Linked P s := by
        refine hl.pushed holder (fun x hx => ?_) hcalled
        refine heeds x hx _ (List.mem_cons_of_mem _ List.mem_cons_self) rfl fun new hnew => ?_
        rw [← List.append_cancel_right (show [_, _] ++ m.stack = new ++ m.stack from hnew)]
        exact List.mem_cons_of_mem _ List.mem_cons_self
      refine hclauses.pushed (holder.mono (Nat.le_succ _)) (fun x hx => ?_)
        (fun rest args halt => nomatch halt)
      rcases List.mem_cons.1 hx with rfl | hx
      · intro d e back hcommits
        exact absurd (holder _ _ _ _ hcommits) (Nat.lt_irrefl _)
      · refine heeds x hx _ List.mem_cons_self rfl fun new hnew => ?_
        rw [← List.append_cancel_right (show [_, _] ++ m.stack = new ++ m.stack from hnew)]
        exact List.mem_cons_self
  | table hc hv hg =>
    refine hl.pushed holder (fun x hx => ?_) (fun rest args halt => nomatch halt)
    refine heeds x hx _ List.mem_cons_self rfl fun new hnew => ?_
    rw [← List.append_cancel_right (show [_] ++ m.stack = new ++ m.stack from hnew)]
    exact List.mem_cons_self
  | full | tableFull | tableRefused => exact absurd rfl (hp _)

/-! ## Turns -/

/-- A clause that is taken up for a ground goal leaves the variables of its choice point
alone. -/
theorem Machine.Linked.keeps_enter (hP : P.Standard) (h : m.Linked P s) (hm : m.Sound P s K)
    (hstack : m.stack = c :: rest) {cl : Clause} {cls : List Clause} {args : List Term}
    (halt : c.alternatives = .clauses (cl :: cls) args true) {θ : Values} {g : Registers}
    (henter : cl.rule.enter n (goalOf args) (m.popped c rest).bindings =
      some (some (θ, g.bindings)))
    (ho : c.bindings.Ordered) : c.Keeps ⟨g.bindings, [⟨cl.rule, θ, cl.rule.steps⟩]⟩ := by
  have hc : c ∈ m.stack := by rw [hstack]; exact List.mem_cons_self
  have hfit := (hm.stack c hc).fit
  unfold Choice.Fit at hfit
  rw [halt] at hfit
  have hgoal : ∀ u ∈ (goalOf args).terms, (m.popped c rest).bindings.Scoped (Own c.bindings) u := by
    intro u hu
    obtain ⟨t, ht⟩ := h.ground c hc _ _ halt u hu
    exact (ht.own ho).mono (Nat.le_max_left _ _)
  obtain ⟨hapart, -, hwithin⟩ := (apart_realm ho).enter
    (headFault_of_mem hP.compiled (hfit.2 cl List.mem_cons_self))
    ((apart_realm ho).grow _ (.refl ho)) hgoal henter
  refine ⟨hapart, fun fr hfr => ?_⟩
  rw [List.mem_singleton.1 hfr]
  exact hwithin

/-- Where a clause is taken up, the clauses that run commit to choice points of the machine. -/
theorem Machine.Linked.enter (hP : P.Standard) (h : m.Linked P s) (hm : m.Sound P s K)
    (hstack : m.stack = c :: rest) {i : Nat} {cl : Clause} {cls : List Clause}
    {args : List Term} {ground : Bool}
    (halt : c.alternatives = .clauses (cl :: cls) args ground) {θ : Values}
    {g : Registers} {code : List Instruction}
    (henter : cl.rule.enter n (goalOf args) (m.popped c rest).bindings =
      some (some (θ, g.bindings)))
    (hrun : ∀ fs, Models P c.env c.code fs →
      Running P m' (c.entered i cl g.vars ground) code (⟨cl.rule, θ, cl.rule.steps⟩ :: fs))
    (hb : m'.bindings = g.bindings)
    (hstack' : m'.stack = { c with alternatives := .clauses cls args ground } :: rest)
    (hchoices : m'.choices = (m.popped c rest).choices) :
    Control.Linked P m' (.run (c.entered i cl g.vars ground) code) := by
  have hpair := h.heeds
  rw [hstack, List.pairwise_cons] at hpair
  have hc : c ∈ m.stack := by rw [hstack]; exact List.mem_cons_self
  have holder := h.older c hc
  have hlt := (h.popped hstack).2
  rw [← hchoices] at hlt
  have outer : ∀ x ∈ rest, ∀ (d : Nat) (e : Env) (back : List Instruction),
      c.env.Commits x.id d e back → x.Returns e back ∧ (x.bindings.Ordered →
        Control.Under P m' x.Keeps (d + 1) (.run (c.entered i cl g.vars ground) code)) := by
    intro x hx d e back hcommits
    obtain ⟨hret, hunder⟩ := (hpair.1 x hx).2 d e back hcommits
    exact ⟨hret, fun ho => (hunder ho).enter halt henter hrun hb⟩
  have here : ground = true → c.bindings.Ordered →
      Control.Under P m' c.Keeps 1 (.run (c.entered i cl g.vars ground) code) := by
    rintro rfl ho
    obtain ⟨inner, fs, -, hmodels, -⟩ := (hm.stack c hc).under
    refine ⟨[⟨cl.rule, θ, cl.rule.steps⟩], inner ++ fs, rfl, hrun _ hmodels, ?_⟩
    rw [hb]
    exact h.keeps_enter hP hm hstack halt henter ho
  cases ground with
  | false =>
    refine ⟨fun id d e back hcommits => ?_, fun x hx d e back hcommits => ?_⟩
    · cases hcommits with
      | outer hcommits => exact Nat.lt_trans (holder _ _ _ _ hcommits) hlt
    · rw [hstack'] at hx
      cases hcommits with
      | outer hcommits =>
        rcases List.mem_cons.1 hx with rfl | hx
        · exact absurd (holder _ _ _ _ hcommits) (Nat.lt_irrefl _)
        · exact outer x hx _ e back hcommits
  | true =>
    refine ⟨fun id d e back hcommits => ?_, fun x hx d e back hcommits => ?_⟩
    · cases hcommits with
      | here => exact hlt
      | outer hcommits => exact Nat.lt_trans (holder _ _ _ _ hcommits) hlt
    · rw [hstack'] at hx
      rcases List.mem_cons.1 hx with rfl | hx
      · cases hcommits with
        | here => exact ⟨⟨⟨cls, args, rfl⟩, rfl, rfl⟩, here rfl⟩
        | outer hcommits => exact absurd (holder _ _ _ _ hcommits) (Nat.lt_irrefl _)
      · generalize hid : x.id = id at hcommits
        cases hcommits with
        | here => exact absurd (hpair.1 x hx).1 (by omega)
        | outer hcommits => exact outer x hx _ e back (hid ▸ hcommits)

/-- Only what a control leaves alone counts of a machine. -/
theorem Control.Linked.update {env env' : Env} {code code' : List Instruction} {k : Nat}
    (h : Control.Linked P m (.run env code)) (hstack : m'.stack = m.stack)
    (hchoices : m'.choices = m.choices)
    (hcommits : ∀ (id d : Nat) (e : Env) (back : List Instruction), env'.Commits id d e back →
      env.Commits id (d + k) e back)
    (hunder : ∀ U d, 0 < d → Stable P U → Control.Under P m U (d + k) (.run env code) →
      Control.Under P m' U d (.run env' code'))
    (hP : P.Standard) : Control.Linked P m' (.run env' code') := by
  refine ⟨fun id d e back hc => ?_, fun x hx d e back hc => ?_⟩
  · rw [hchoices]
    exact h.1 _ _ _ _ (hcommits _ _ _ _ hc)
  · rw [hstack] at hx
    obtain ⟨hret, hkeeps⟩ := h.2 x hx _ _ _ (hcommits _ _ _ _ hc)
    exact ⟨hret, fun ho => hunder _ d hc.pos (stable_keeps hP x ho) (hkeeps ho)⟩

/-- The clauses that run commit to choice points of the machine. -/
def Progress.Linked (P : Program) (m : Machine) : Progress → Prop
  | .go control => control.Linked P m
  | _ => True

/-- Every turn keeps the choice points linked. -/
theorem Turn.linked (hP : P.Standard) (h : Turn P st control m s p m' s')
    (hp : ∀ e, p ≠ .done (.error e)) (hm : m.Sound P s K) (hc : control.Sound P K m)
    (hs : s.Sound P) (hl : m.Linked P s) (hcl : control.Linked P m) :
    m'.Linked P s' ∧ p.Linked P m' := by
  obtain ⟨-, -, hgrows, -⟩ := h.sound hP.compiled hm hc hs
  cases h with
  | @leave i cl vars caller back commit _ _ _ hnoted =>
    have hfields : (m.left commit).stack = m.stack ∧ (m.left commit).choices = m.choices ∧
        (m.left commit).pinned = m.pinned ∧ (m.left commit).suspended = m.suspended ∧
        (m.left commit).bindings = m.bindings := by
      cases commit <;> exact ⟨rfl, rfl, rfl, rfl, rfl⟩
    obtain ⟨h1, h2, h3, h4, h5⟩ := hfields
    refine ⟨(hl.grows hgrows).congr h1 h2 h3 h4, ?_⟩
    exact Control.Linked.update hcl h1 h2 (fun _ _ _ _ hcommits => .outer hcommits)
      (fun U d _ hU hunder => hunder.leave hP.compiled hU h5) hP
  | answer ht hnoted => exact ⟨hl.grows hgrows, trivial⟩
  | @call env ops call code n g _ _ _ _ _ hg hcalls =>
    have hsizes := Operation.sizes_runAll hg
    have hargs : g.args.length = maxArguments := hsizes.args.trans hm.args_length
    have hl' : (m.load g).Linked P s' := (hl.grows hgrows).congr rfl rfl rfl rfl
    refine ⟨hcalls.linked hp hl' (hcl.1.setVars g.vars) fun x hx d e back hcommits => ?_, ?_⟩
    · obtain ⟨hret, hkeeps⟩ := hcl.2 x hx _ _ _ (Env.commits_setVars.1 hcommits)
      refine ⟨hret, fun ho => ?_⟩
      obtain ⟨inner, fs, rfl, hmodels, haw⟩ := (hkeeps ho).call hP.compiled
        (stable_keeps hP x ho) hm.args_length hcommits.pos hg
      obtain ⟨new, hnew, hall⟩ := hcalls.under hargs hmodels haw (hs.answering _)
      exact ⟨new, hnew, fun z hz => (hall z hz).2.2.1⟩
    · obtain ⟨-, -, -, -, -, rfl | ⟨e, rfl⟩⟩ := hcalls.registers
      · trivial
      · trivial
  | builtinFails hg hf hnoted => exact ⟨(hl.grows hgrows).congr rfl rfl rfl rfl, trivial⟩
  | builtinStops hg => exact absurd rfl (hp _)
  | @builtin env ops f arity n k code g b _ _ hg hf =>
    refine ⟨hl.congr rfl rfl rfl rfl, ?_⟩
    exact Control.Linked.update (k := 0) hcl rfl rfl (fun _ _ _ _ => Env.commits_setVars.1)
      (fun U d hd hU hunder => hunder.builtin hP.compiled hU hm.args_length hd hg hf) hP
  | empty hnil => exact ⟨hl, trivial⟩
  | spent hstack hspent hnoted => exact ⟨(hl.popped hstack).1.grows hgrows, trivial⟩
  | full hstack halt => exact absurd rfl (hp _)
  | @refuse c rest cl cls args ground _ _ _ n g hstack halt henter hargs htemps hnoted =>
    exact ⟨((hl.keep hstack (halt ▸ .clause cl cls args ground)).grows hgrows).congr rfl rfl rfl rfl,
      trivial⟩
  | @enter c rest cl cls args ground _ _ _ n g θ code hstack halt henter hargs htemps hrun hnoted =>
    exact ⟨((hl.keep hstack (halt ▸ .clause cl cls args ground)).grows hgrows).congr rfl rfl rfl rfl,
      hl.enter hP hm hstack halt henter (hrun _ rfl) rfl rfl rfl⟩
  | @missFact c rest goal fact facts _ _ n hstack halt hu =>
    exact ⟨hl.keep hstack (halt ▸ .fact goal fact facts), trivial⟩
  | @fact c rest goal fact facts _ _ _ n b hstack halt hu hnoted =>
    exact ⟨((hl.keep hstack (halt ▸ .fact goal fact facts)).grows hgrows).congr rfl rfl rfl rfl,
      hl.resume hstack rfl rfl fun U d hunder => hunder.fact halt hu rfl⟩
  | @missAnswer c rest goal fact facts _ _ n hstack halt hu =>
    exact ⟨hl.keep hstack (halt ▸ .answer goal fact facts), trivial⟩
  | @storedAnswer c rest goal fact facts _ _ _ n b hstack halt hu hnoted =>
    exact ⟨(hl.keep hstack (halt ▸ .answer goal fact facts)).grows hgrows, trivial⟩
  | @missResult c rest consumer goal t _ _ _ n hstack halt hread hu =>
    exact ⟨(hl.keep hstack (halt ▸ .result consumer goal)).grows hgrows, trivial⟩
  | @result c rest consumer goal t _ _ _ n b hstack halt hread hu =>
    obtain ⟨k, gen, hk, hgen, ht, -⟩ := Session.of_read_result hread
    have hmem : t ∈ gen.results.toList := Array.mem_toList_iff.2 (Array.mem_of_getElem? ht)
    refine ⟨((hl.keep hstack (halt ▸ .result consumer goal)).grows hgrows).congr rfl rfl rfl rfl,
      hl.resume hstack rfl rfl fun U d hunder => ?_⟩
    exact hunder.result halt (fun key hreads => (hreads.goal_eq hk hgen).symm) (hs.results hgen hmem)
      hu rfl
  | exhausted hstack halt hread hnoted => exact ⟨(hl.popped hstack).1.grows hgrows, trivial⟩
  | @park c rest consumer goal _ _ _ hstack halt hread hnoted =>
    obtain ⟨hpop, hlt⟩ := hl.popped hstack
    have hc : c ∈ m.stack := by rw [hstack]; exact List.mem_cons_self
    refine ⟨Machine.Linked.grows ?_ hgrows, trivial⟩
    refine ⟨hpop.heeds, hpop.lt, hpop.older, hpop.ground, Nat.le_refl _, fun {d y} hy => ?_⟩
    change ((m.popped c rest).suspended.insert consumer c)[d]? = some y at hy
    rw [Std.TreeMap.getElem?_insert] at hy
    split at hy
    · cases hy
      exact ⟨hlt, hl.older c hc, hl.ground c hc⟩
    · obtain ⟨h1, h2, h3⟩ := hpop.suspended hy
      exact ⟨Nat.lt_of_lt_of_le h1 hpop.pinned_le, h2, h3⟩

/-! ## New machines -/

theorem blank_linked {goal : Triple} {owner : Owner}
    (h : Machine.blank (P.world st) goal owner = .ok m) (s : Session) : m.Linked P s := by
  obtain ⟨-, -, hstack, hsusp, -, -, -, hchoices, hpinned, -⟩ := blank_eq h
  have hnil : ∀ y, y ∉ m.stack := fun y hy => by rw [hstack] at hy; cases hy
  refine ⟨by rw [hstack]; exact .nil, fun y hy => absurd hy (hnil y), fun y hy => absurd hy (hnil y),
    fun y hy => absurd hy (hnil y), by rw [hpinned]; exact Nat.zero_le _, fun {c y} hy => ?_⟩
  rw [hsusp] at hy
  simp at hy

/-- At the root no clause runs. -/
theorem Machine.Linked.pushed_root (h : m.Linked P s) {code : List Instruction} {a : Alternatives}
    (hground : (m.choice .root code a).Grounded) : (m.pushed .root code a).Linked P s :=
  h.pushed Env.older_root (fun x _ d e back hc => by cases hc) hground

theorem isGround_standard {goal : Triple} (h : goal.isGround = true) :
    goal.standard.isGround = true := by
  rw [Triple.standard, goal.renumber_of_isGround h]
  exact h

theorem start_linked {goal : Triple} {owner : Owner}
    (h : Machine.start (P.world st) goal owner = .ok m) (s : Session) : m.Linked P s := by
  obtain ⟨m0, hblank, rfl⟩ := start_eq h
  have hm0 := blank_linked hblank s
  obtain ⟨-, -, -, -, hargs, -⟩ := blank_eq hblank
  refine Machine.Linked.pushed_root ?_ (fun rest args halt => nomatch halt)
  unfold Machine.pushedClauses
  split
  · exact hm0
  · refine hm0.pushed_root fun rest args halt => ?_
    cases hg : goal.isGround with
    | false =>
      rw [hg] at halt
      cases halt
    | true =>
      rw [hg] at halt
      cases halt
      intro u hu
      have hgoal : goalOf m0.args = goal.standard := by rw [hargs]; rfl
      rw [hgoal] at hu
      exact ⟨u, means_of_isGround (Triple.isGround_iff.1 (isGround_standard hg) u hu)⟩

/-- A machine that goes on with one of its consumers. -/
theorem restore_linked {consumer : Nat} (h : m.restore consumer s = (.ok (), m', s'))
    (hl : m.Linked P s) : m'.Linked P s' := by
  obtain ⟨x, hstack, hx, -, rfl⟩ := restore_eq h
  obtain ⟨h1, h2, h3⟩ := hl.suspended hx
  have hpinned := hl.pinned_le
  have only : ∀ y ∈ [x], y = x := fun y hy => List.mem_singleton.1 hy
  refine ⟨List.pairwise_singleton _ _, fun y hy => ?_, fun y hy => only y hy ▸ h2,
    fun y hy => only y hy ▸ h3, ?_, fun {d y} hy => ?_⟩
  · rw [only y hy]
    change x.id < min m.choices m.pinned.choices
    omega
  · change m.pinned.choices ≤ min m.choices m.pinned.choices
    omega
  · change (m.suspended.erase consumer)[d]? = some y at hy
    rw [Std.TreeMap.getElem?_erase] at hy
    split at hy
    · cases hy
    · exact hl.suspended hy

end

end TabledRules
