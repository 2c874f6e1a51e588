-- What holds of a machine all its life: what its choice points are numbered by,
-- that each consumer has one of them, and where its bindings came from.
import TabledRules.Proofs.KeptSites
import TabledRules.Proofs.Lives

namespace TabledRules

open Bindings

section
variable {w : World} {n : Nat} {control control' : Control} {m m' : Machine} {s s' : Session}
  {c c' y : Choice} {d : Nat} {goal : Triple} {env e e' : Env} {x x' : Moment}

/-! ## Numbers -/

theorem Machine.Goes.numbered (h : m.Goes s control control' m' s') (hm : m.Numbered)
    (hc : (Progress.go control).Below m) : m'.Numbered ∧ (Progress.go control').Below m' := by
  cases h with
  | on => exact ⟨hm.congr rfl rfl (Nat.le_refl _) rfl rfl, Env.below_setVars _ |>.2 hc⟩
  | fails => exact ⟨hm, trivial⟩
  | @returns i cl vars caller code back commit =>
    have hcaller : caller.Below m.envs :=
      Env.Below.caller (show (Env.frame i cl vars caller back commit).Below m.envs from hc)
    cases commit with
    | none => exact ⟨hm, hcaller⟩
    | some id => exact ⟨hm.congr rfl rfl (Nat.le_refl _) rfl rfl, hcaller⟩
  | calls =>
    exact ⟨(hm.pushedClauses hc _ _).pushed (by rwa [Machine.Numbered.envs_pushedClauses]), trivial⟩
  | empty => exact ⟨hm, trivial⟩
  | leaves hstack => exact ⟨(hm.popped hstack).1, trivial⟩
  | keeps hstack => exact ⟨hm.keep hstack, trivial⟩
  | resumes hstack =>
    obtain ⟨-, -, h1, h2⟩ := hm.popped hstack
    exact ⟨(hm.keep hstack).congr rfl rfl (Nat.le_refl _) rfl rfl, h2.mono h1⟩
  | enters hstack =>
    obtain ⟨-, -, h1, h2⟩ := hm.popped hstack
    exact ⟨(hm.keep hstack).congr rfl rfl (Nat.le_succ _) rfl rfl, Nat.lt_succ_self _, h2.mono h1⟩
  | parks hstack => exact ⟨hm.parked hstack _, trivial⟩

/-! ## Choice points -/

/-- The machine can go back to the choice point, or has put it aside. -/
def Machine.Has (m : Machine) (c : Choice) : Prop :=
  c ∈ m.stack ∨ ∃ d : Nat, m.suspended[d]? = some c

theorem Machine.Has.popped {rest : List Choice} (h : (m.popped c rest).Has y)
    (hstack : m.stack = c :: rest) : m.Has y :=
  h.imp_left fun h => hstack ▸ List.mem_cons_of_mem _ h

theorem Machine.has_keep {rest : List Choice} {a : Alternatives} (hstack : m.stack = c :: rest)
    (h : ((m.popped c rest).keep c a).Has y) : y = { c with alternatives := a } ∨ m.Has y := by
  rcases h with h | h
  · rcases List.mem_cons.1 h with rfl | h
    · exact .inl rfl
    · exact .inr (.inl (hstack ▸ List.mem_cons_of_mem _ h))
  · exact .inr (.inr h)

theorem Machine.has_parked {rest : List Choice} {m1 : Machine} (hstack : m.stack = c :: rest)
    (hm : m1 = m.popped c rest) (h : (m1.parked c d).Has y) : m.Has y := by
  subst hm
  rcases h with h | ⟨k, h⟩
  · exact .inl (hstack ▸ List.mem_cons_of_mem _ h)
  · change (m.suspended.insert d c)[k]? = some y at h
    rw [Std.TreeMap.getElem?_insert] at h
    split at h
    · cases h
      exact .inl (hstack ▸ List.mem_cons_self)
    · exact .inr ⟨k, h⟩

theorem Machine.has_pushed {code : List Instruction} {a : Alternatives}
    (h : (m.pushed env code a).Has y) :
    y = m.choice env code a ∨ m.Has y := by
  rcases h with h | h
  · rcases List.mem_cons.1 h with rfl | h
    · exact .inl rfl
    · exact .inr (.inl h)
  · exact .inr (.inr h)

theorem Machine.has_pushedClauses {code : List Instruction} {cls : List Clause} {ground : Bool}
    (h : (m.pushedClauses env code cls ground).Has y) :
    y = m.choice env code (.clauses cls m.args ground) ∨ m.Has y := by
  unfold Machine.pushedClauses at h
  split at h
  · exact .inr h
  · exact has_pushed h

theorem Machine.has_restored (hc : m.suspended[d]? = some c) (h : (m.restored d c).Has y) :
    m.Has y := by
  rcases h with h | ⟨k, h⟩
  · obtain rfl := List.mem_singleton.1 h
    exact .inr ⟨d, hc⟩
  · exact .inr ⟨k, (Machine.suspended_restored h).2⟩

/-! ## Consumers -/

/-- The choice point is that of a consumer. -/
def Choice.Consumes (d : Nat) (c : Choice) : Prop := ∃ goal, c.alternatives = .results d goal

/-- Each consumer has one choice point, and those put aside are found by it. -/
structure Machine.Assigned (next : Nat) (m : Machine) : Prop where
  lt : ∀ {c : Choice} {d : Nat}, m.Has c → c.Consumes d → d < next
  unique : ∀ {c c' : Choice} {d : Nat}, m.Has c → c.Consumes d → m.Has c' → c'.Consumes d → c = c'
  suspended : ∀ {c : Choice} {d : Nat}, m.suspended[d]? = some c → c.Consumes d

theorem Machine.has_keep_consumes {rest : List Choice} {a : Alternatives}
    (hstack : m.stack = c :: rest) (ha : ∀ d goal, a = .results d goal → c.alternatives = a)
    (h : ((m.popped c rest).keep c a).Has y) (hy : y.Consumes d) : m.Has y := by
  rcases Machine.has_keep hstack h with rfl | h
  · obtain ⟨goal, halt⟩ := hy
    have hsame : c.alternatives = a := ha d goal halt
    rw [← hsame]
    exact .inl (hstack ▸ List.mem_cons_self)
  · exact h

/-- The only new choice point of a consumer is that of a new consumer. -/
theorem Machine.Goes.consumes (h : m.Goes s control control' m' s') : s.nextId ≤ s'.nextId ∧
    ∃ new : Choice, ∀ {y : Choice} {d : Nat}, m'.Has y → y.Consumes d →
      m.Has y ∨ y = new ∧ s.nextId ≤ d ∧ d < s'.nextId := by
  cases h with
  | on hid => exact ⟨hid.ge, default, fun hy _ => .inl hy⟩
  | fails hid => exact ⟨hid.ge, default, fun hy _ => .inl hy⟩
  | @returns _ _ _ _ _ _ commit _ hid =>
    refine ⟨hid.ge, default, fun hy _ => ?_⟩
    cases commit <;> exact .inl hy
  | @calls env _ rest cls ground a _ hid ha =>
    refine ⟨hid, (m.pushedClauses env rest cls ground).choice env rest a, fun hy hconsumes => ?_⟩
    rcases Machine.has_pushed hy with rfl | hy
    · obtain ⟨goal, halt⟩ := hconsumes
      exact .inr ⟨rfl, ha _ _ halt⟩
    · rcases Machine.has_pushedClauses hy with rfl | hy
      · obtain ⟨goal, halt⟩ := hconsumes
        cases halt
      · exact .inl hy
  | empty => exact ⟨Nat.le_refl _, default, fun hy _ => .inl hy⟩
  | leaves hstack hid => exact ⟨hid.ge, default, fun hy _ => .inl (hy.popped hstack)⟩
  | keeps hstack ha hid =>
    exact ⟨hid.ge, default, fun hy hc => .inl (Machine.has_keep_consumes hstack ha hy hc)⟩
  | resumes hstack ha _ hid =>
    exact ⟨hid.ge, default, fun hy hc => .inl (Machine.has_keep_consumes hstack ha hy hc)⟩
  | @enters _ _ _ cls args ground _ hstack hid =>
    exact ⟨hid.ge, default, fun hy hc => .inl
      (Machine.has_keep_consumes (a := .clauses cls args ground) hstack (fun _ _ e => nomatch e) hy hc)⟩
  | parks hstack _ hid =>
    exact ⟨hid.ge, default, fun hy _ => .inl (Machine.has_parked hstack rfl hy)⟩

/-- What is put aside is the choice point of a consumer that has to wait. -/
theorem Machine.Goes.suspended (h : m.Goes s control control' m' s')
    (hc : m'.suspended[d]? = some c) : m.suspended[d]? = some c ∨ c.Consumes d := by
  cases h with
  | @returns _ _ _ _ _ _ commit => cases commit <;> exact .inl hc
  | @calls _ _ _ cls ground =>
    unfold Machine.pushedClauses at hc
    split at hc <;> exact .inl hc
  | @parks x rest k goal _ hstack halt =>
    change (m.suspended.insert k x)[d]? = some c at hc
    rw [Std.TreeMap.getElem?_insert] at hc
    split at hc
    · next e =>
      obtain rfl := Std.LawfulEqCmp.eq_of_compare e
      cases hc
      exact .inr ⟨goal, halt⟩
    · exact .inl hc
  | on => exact .inl hc
  | fails => exact .inl hc
  | empty => exact .inl hc
  | leaves => exact .inl hc
  | keeps => exact .inl hc
  | resumes => exact .inl hc
  | enters => exact .inl hc

theorem Machine.Goes.assigned (h : m.Goes s control control' m' s') (hm : m.Assigned s.nextId) :
    m'.Assigned s'.nextId := by
  obtain ⟨hle, new, hnew⟩ := h.consumes
  refine ⟨fun hc hd => ?_, fun hc hd hc' hd' => ?_, fun hc => ?_⟩
  · rcases hnew hc hd with hold | ⟨-, -, hlt⟩
    · exact Nat.lt_of_lt_of_le (hm.lt hold hd) hle
    · exact hlt
  · rcases hnew hc hd with hold | ⟨rfl, hge, -⟩
    · rcases hnew hc' hd' with hold' | ⟨-, hge, -⟩
      · exact hm.unique hold hd hold' hd'
      · exact absurd (hm.lt hold hd) (Nat.not_lt.2 hge)
    · rcases hnew hc' hd' with hold' | ⟨rfl, -, -⟩
      · exact absurd (hm.lt hold' hd') (Nat.not_lt.2 hge)
      · rfl
  · exact (h.suspended hc).elim hm.suspended id

theorem Machine.Assigned.restored (hm : m.Assigned n) (hc : m.suspended[d]? = some c) :
    (m.restored d c).Assigned n where
  lt h hd := hm.lt (Machine.has_restored hc h) hd
  unique h hd h' hd' := hm.unique (Machine.has_restored hc h) hd (Machine.has_restored hc h') hd'
  suspended h := hm.suspended (Machine.suspended_restored h).2

/-! ## Bindings -/

/-- The bindings of a machine came from those of its choice points, and there is room for the
variables of those it has put aside. -/
structure Machine.Tracked (m : Machine) : Prop where
  trailed : m.bindings.Trailed
  choice : ∀ {c : Choice}, m.Has c → c.bindings.Trailed
  order : m.stack.Pairwise fun y x => x.bindings.Since y.bindings
  since : ∀ c ∈ m.stack, c.bindings.Since m.bindings
  pinned_le : m.pinned.vars ≤ m.bindings.size
  suspended_le : ∀ {c : Choice} {d : Nat}, m.suspended[d]? = some c →
    c.bindings.size ≤ m.pinned.vars

namespace Machine.Tracked

/-- Only new bindings are made. -/
theorem binds {b : Bindings} {args : List Term} {temps : List (Option Term)} (h : m.Tracked)
    (hb : m.bindings.Follows b) : ({ m with bindings := b, args, temps } : Machine).Tracked := by
  obtain ⟨h1, h2⟩ := hb h.trailed
  exact ⟨h1, h.choice, h.order, fun c hc => (h.since c hc).trans h2,
    Nat.le_trans h.pinned_le h2.size_le, h.suspended_le⟩

theorem pushed {code : List Instruction} {a : Alternatives} (h : m.Tracked) :
    (m.pushed env code a).Tracked := by
  refine ⟨h.trailed, fun hc => ?_, List.pairwise_cons.2 ⟨h.since, h.order⟩, fun c hc => ?_,
    h.pinned_le, h.suspended_le⟩
  · rcases Machine.has_pushed hc with rfl | hc
    · exact h.trailed
    · exact h.choice hc
  · rcases List.mem_cons.1 hc with rfl | hc
    · exact .refl _
    · exact h.since c hc

theorem pushedClauses {code : List Instruction} {cls : List Clause} {ground : Bool}
    (h : m.Tracked) : (m.pushedClauses env code cls ground).Tracked := by
  unfold Machine.pushedClauses
  split
  · exact h
  · exact h.pushed

variable {rest : List Choice}

theorem size_popped (h : m.Tracked) :
    (m.popped c rest).bindings.size = max c.bindings.size m.pinned.vars := by
  have := h.pinned_le
  change max c.bindings.size (min m.bindings.size m.pinned.vars) = _
  omega

/-- The machine goes back to the bindings of a choice point. -/
theorem popped (h : m.Tracked) (hstack : m.stack = c :: rest) : (m.popped c rest).Tracked := by
  have hpair := h.order
  rw [hstack, List.pairwise_cons] at hpair
  have hc : m.Has c := .inl (hstack ▸ List.mem_cons_self)
  refine ⟨(h.choice hc).grow _, fun hy => h.choice (hy.popped hstack), hpair.2,
    fun y hy => (hpair.1 y hy).trans (.grow _ _), ?_, h.suspended_le⟩
  change m.pinned.vars ≤ (m.popped c rest).bindings.size
  rw [h.size_popped]
  exact Nat.le_max_right _ _

theorem keep {a : Alternatives} (h : m.Tracked) (hstack : m.stack = c :: rest) :
    ((m.popped c rest).keep c a).Tracked := by
  have hpair := h.order
  rw [hstack, List.pairwise_cons] at hpair
  have hpop := h.popped hstack
  refine ⟨hpop.trailed, fun hy => ?_, List.pairwise_cons.2 ⟨hpair.1, hpair.2⟩, fun y hy => ?_,
    hpop.pinned_le, hpop.suspended_le⟩
  · rcases Machine.has_keep hstack hy with rfl | hy
    · have hc : c.bindings.Trailed := h.choice (.inl (hstack ▸ List.mem_cons_self))
      exact hc
    · exact h.choice hy
  · rcases List.mem_cons.1 hy with rfl | hy
    · exact .grow _ _
    · exact hpop.since y hy

/-- All the variables that there are are kept for a choice point that is put aside. -/
theorem parked (h : m.Tracked) (hstack : m.stack = c :: rest) :
    ((m.popped c rest).parked c d).Tracked := by
  have hpop := h.popped hstack
  refine ⟨hpop.trailed, fun hy => h.choice (Machine.has_parked hstack rfl hy), hpop.order,
    hpop.since, Nat.le_refl _, fun {y k} hy => ?_⟩
  change y.bindings.size ≤ (m.popped c rest).bindings.size
  rw [h.size_popped]
  change (m.suspended.insert d c)[k]? = some y at hy
  rw [Std.TreeMap.getElem?_insert] at hy
  split at hy
  · cases hy
    exact Nat.le_max_left _ _
  · exact Nat.le_trans (h.suspended_le hy) (Nat.le_max_right _ _)

theorem discard_pinnedVars (h : m.Tracked) : m.discard.pinnedVars = m.pinned.vars := by
  have := h.pinned_le
  change min (min m.bindings.size m.pinned.vars) m.pinned.vars = _
  omega

theorem restored (h : m.Tracked) (hc : m.suspended[d]? = some c) : (m.restored d c).Tracked := by
  refine ⟨(h.choice (.inr ⟨d, hc⟩)).grow _, fun hy => h.choice (Machine.has_restored hc hy),
    List.pairwise_singleton _ _, fun y hy => ?_, ?_, fun hy => ?_⟩
  · obtain rfl := List.mem_singleton.1 hy
    exact .grow _ _
  · change m.pinned.vars ≤ max c.bindings.size m.discard.pinnedVars
    rw [h.discard_pinnedVars]
    exact Nat.le_max_right _ _
  · exact h.suspended_le (Machine.suspended_restored hy).2

/-- To go back to a choice point is to undo all bindings since then, and to give up the variables
that are newer and not pinned. -/
theorem rewind (h : m.Tracked) (hc : c ∈ m.stack) :
    ((m.bindings.unwind c.bindings.mark).reclaim (max c.bindings.size m.pinned.vars)).Alike
      (m.rewind c).bindings :=
  (h.since c hc).rewind (h.choice (.inl hc)) h.trailed _

end Machine.Tracked

theorem Machine.Goes.tracked (h : m.Goes s control control' m' s') (hm : m.Tracked) :
    m'.Tracked := by
  cases h with
  | on _ hb => exact hm.binds hb
  | fails => exact hm
  | @returns _ _ _ _ _ _ commit =>
    cases commit with
    | none => exact hm
    | some id => exact ⟨hm.trailed, hm.choice, hm.order, hm.since, hm.pinned_le, hm.suspended_le⟩
  | calls => exact hm.pushedClauses.pushed
  | empty => exact hm
  | leaves hstack => exact hm.popped hstack
  | keeps hstack => exact hm.keep hstack
  | resumes hstack _ hb => exact (hm.keep hstack).binds hb
  | @enters _ _ _ cls args ground _ hstack =>
    have := hm.keep hstack (a := .clauses cls args ground)
    exact ⟨this.trailed, this.choice, this.order, this.since, this.pinned_le, this.suspended_le⟩
  | parks hstack => exact hm.parked hstack

/-! ## Environments -/

/-- The environment is on the chain of another one, its callers being further up. -/
inductive Env.On (e : Env) : Env → Prop
  | here : On e e
  | outer {i : Nat} {cl : Clause} {vars : List (Option Term)} {caller : Env}
    {back : List Instruction} {commit : Option Nat} : On e caller →
    On e (.frame i cl vars caller back commit)

theorem Env.On.lt (h : e.On env) (hbelow : env.Below n) : e.id < n := by
  induction h generalizing n with
  | here => exact hbelow.id_lt
  | outer _ ih => exact ih hbelow.caller

theorem Machine.has_keep_env {rest : List Choice} {a : Alternatives} (hstack : m.stack = c :: rest)
    (h : ((m.popped c rest).keep c a).Has y) : ∃ y', m.Has y' ∧ y'.env = y.env := by
  rcases Machine.has_keep hstack h with rfl | h
  · exact ⟨c, .inl (hstack ▸ List.mem_cons_self), rfl⟩
  · exact ⟨y, h, rfl⟩

theorem Machine.Numbered.below (hm : m.Numbered) (hc : m.Has c) : c.env.Below m.envs := by
  rcases hc with hc | ⟨d, hc⟩
  · obtain ⟨-, h1, h2⟩ := hm.stack c hc
    exact h2.mono h1
  · obtain ⟨-, h1, h2⟩ := hm.suspended hc
    exact h2.mono (Nat.le_trans h1 hm.envs_le)

/-! ## Lives -/

/-- What holds of a machine all its life. -/
structure Moment.Regular (x : Moment) : Prop where
  numbered : x.machine.Numbered
  below : (Progress.go x.control).Below x.machine
  assigned : x.machine.Assigned x.session.nextId
  tracked : x.machine.Tracked

theorem Moment.Next.regular (h : x.Next x') (hx : x.Regular) : x'.Regular := by
  cases h with
  | step hstep hp =>
    have hgoes := step_goes hstep hp
    obtain ⟨h1, h2⟩ := hgoes.numbered hx.numbered hx.below
    exact ⟨h1, h2, hgoes.assigned hx.assigned, hgoes.tracked hx.tracked⟩
  | @restore d m m' s s' hrestore =>
    obtain ⟨c, hstack, hc, ⟨_, _, rfl⟩, rfl⟩ := restore_eq hrestore
    exact ⟨hx.numbered.restored hstack hc, trivial, Machine.Assigned.restored hx.assigned hc,
      hx.tracked.restored hc⟩
  | others hle =>
    exact ⟨hx.numbered, trivial, ⟨fun hc hd => Nat.lt_of_lt_of_le (hx.assigned.lt hc hd) hle,
      hx.assigned.unique, hx.assigned.suspended⟩, hx.tracked⟩

section
variable {P : Program} {st : Settings} {owner : Owner}

/-- Nothing was tried in a new machine. -/
theorem blank_regular (h : Machine.blank (P.world st) goal owner = .ok m) :
    m.Numbered ∧ Env.root.Below m.envs ∧ m.Assigned n ∧ m.Tracked ∧ ∀ c, ¬ m.Has c := by
  obtain ⟨h1, h2⟩ := blank_numbered h
  obtain ⟨-, hb, hstack, hsusp, -, -, -, -, hpinned, -⟩ := blank_eq h
  have hnone : ∀ {c : Choice} {d : Nat}, m.suspended[d]? ≠ some c := fun hc => by
    rw [hsusp] at hc
    simp at hc
  have hno : ∀ c, ¬ m.Has c := by
    rintro c (hc | ⟨d, hc⟩)
    · rw [hstack] at hc
      cases hc
    · exact hnone hc
  refine ⟨h1, h2, ⟨fun hc => absurd hc (hno _), fun hc => absurd hc (hno _),
    fun hc => absurd hc hnone⟩, ⟨?_, fun hc => absurd hc (hno _), ?_, fun c hc => ?_, ?_,
    fun hc => absurd hc hnone⟩, hno⟩
  · rw [hb]
    exact .empty _
  · rw [hstack]
    exact .nil
  · exact absurd (.inl hc) (hno c)
  · rw [hpinned]
    exact Nat.zero_le _

theorem Machine.Assigned.pushed_other {code : List Instruction} {a : Alternatives}
    (h : m.Assigned n) (ha : ∀ d, ¬ (m.choice env code a).Consumes d) :
    (m.pushed env code a).Assigned n := by
  have old : ∀ {y : Choice} {d : Nat}, (m.pushed env code a).Has y → y.Consumes d → m.Has y := by
    intro y d hy hd
    rcases Machine.has_pushed hy with rfl | hy
    · exact absurd hd (ha d)
    · exact hy
  exact ⟨fun hc hd => h.lt (old hc hd) hd,
    fun hc hd hc' hd' => h.unique (old hc hd) hd (old hc' hd') hd', h.suspended⟩

end

theorem Moment.Start.regular (h : x.Start) : x.Regular := by
  have start : ∀ {w : World} {goal : Triple} {owner : Owner} {m : Machine} (s : Session),
      Machine.start w goal owner = .ok m → Moment.Regular ⟨.backtrack, m, s⟩ := by
    intro w goal owner m s h
    obtain ⟨m0, hm0, rfl⟩ := @start_eq ⟨{}, w.rules, w.store⟩ w.settings _ _ _ h
    obtain ⟨h1, h2, h3, h4, hno⟩ := blank_regular (n := s.nextId) hm0
    refine ⟨(h1.pushedClauses h2 _ _).pushed (by rwa [Machine.Numbered.envs_pushedClauses]),
      trivial, ?_, h4.pushedClauses.pushed⟩
    refine Machine.Assigned.pushed_other ?_ fun d ⟨goal, hd⟩ => nomatch hd
    unfold Machine.pushedClauses
    split
    · exact h3
    · exact h3.pushed_other fun d ⟨goal, hd⟩ => nomatch hd
  cases h with
  | generator s hm => exact start s hm
  | @query w goal query m s s' hm =>
    rcases @startQuery_ok ⟨{}, w.rules, w.store⟩ w.settings _ _ _ _ _ hm with
      ⟨-, hmade, rfl⟩ | ⟨-, m0, g, s1, hm0, -, rfl, rfl⟩
    · exact start _ hmade
    · obtain ⟨h1, h2, h3, h4, hno⟩ := blank_regular (n := s1.nextId) hm0
      have hnew : ∀ {c : Choice}, (m0.pushed .root [.proceed]
          (.results s1.nextId goal.standard)).Has c →
          c = m0.choice .root [.proceed] (.results s1.nextId goal.standard) := fun hc =>
        (Machine.has_pushed hc).resolve_right (hno _)
      refine ⟨h1.pushed h2, trivial, ⟨fun hc hd => ?_, fun hc hd hc' hd' => ?_, h3.suspended⟩,
        h4.pushed⟩
      · obtain rfl := hnew hc
        obtain ⟨goal', hd⟩ := hd
        cases hd
        exact Nat.lt_succ_self _
      · rw [hnew hc, hnew hc']

end

end TabledRules
