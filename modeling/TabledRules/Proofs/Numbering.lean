-- The choice points and the environments of a machine are numbered in the
-- order in which they are made, and what the machine may go back to is kept.
-- No turn gives up what is still needed.
import TabledRules.Proofs.Turns

namespace TabledRules

section

variable {P : Program} {st : Settings} {s s' : Session} {m m' : Machine} {c : Choice}
  {rest : List Choice} {env : Env} {code : List Instruction} {n n' : Nat} {a : Alternatives}

theorem Env.Below.mono (h : env.Below n) (hn : n ≤ n') : env.Below n' := by
  cases env with
  | root => exact Nat.lt_of_lt_of_le h hn
  | frame i => exact ⟨Nat.lt_of_lt_of_le h.1 hn, h.2⟩

theorem Env.below_setVars (vars : List (Option Term)) :
    (env.setVars vars).Below n ↔ env.Below n := by
  cases env <;> rfl

/-- The environments of a clause that is called are older than its own. -/
theorem Env.Below.caller {i : Nat} {cl : Clause} {vars : List (Option Term)} {caller : Env}
    {back : List Instruction} {commit : Option Nat}
    (h : (Env.frame i cl vars caller back commit).Below n) : caller.Below n :=
  h.2.mono (Nat.le_of_lt h.1)

theorem Choice.Kept.mono {k k' : Nat} (h : c.Kept k n) (hk : k ≤ k') (hn : n ≤ n') :
    c.Kept k' n' :=
  ⟨Nat.lt_of_lt_of_le h.1 hk, Nat.le_trans h.2.1 hn, h.2.2⟩

/-! ## Machines that change -/

namespace Machine.Numbered

/-- Only the numbers count of a machine. -/
theorem congr (h : m.Numbered) (hstack : m'.stack = m.stack) (hchoices : m'.choices = m.choices)
    (henvs : m.envs ≤ m'.envs) (hpinned : m'.pinned = m.pinned)
    (hsusp : m'.suspended = m.suspended) : m'.Numbered := by
  refine ⟨hstack ▸ h.order, fun c hc => ?_, fun hc => ?_, ?_, ?_⟩
  · rw [hchoices]
    exact (h.stack c (hstack ▸ hc)).mono (Nat.le_refl _) henvs
  · rw [hpinned]
    exact h.suspended (hsusp ▸ hc)
  · rw [hpinned, hchoices]
    exact h.choices_le
  · rw [hpinned]
    exact Nat.le_trans h.envs_le henvs

theorem pushed (h : m.Numbered) (henv : env.Below m.envs) : (m.pushed env code a).Numbered := by
  refine ⟨List.pairwise_cons.2 ⟨fun x hx => ?_, h.order⟩, fun x hx => ?_, h.suspended,
    Nat.le_succ_of_le h.choices_le, h.envs_le⟩
  · exact ⟨(h.stack x hx).1, (h.stack x hx).2.1⟩
  · rcases List.mem_cons.1 hx with rfl | hx
    · exact ⟨Nat.lt_succ_self _, Nat.le_refl _, henv⟩
    · exact (h.stack x hx).mono (Nat.le_succ _) (Nat.le_refl _)

theorem pushedClauses (h : m.Numbered) (henv : env.Below m.envs) (cls : List Clause)
    (ground : Bool) : (m.pushedClauses env code cls ground).Numbered := by
  unfold Machine.pushedClauses
  split
  · exact h
  · exact h.pushed henv

theorem envs_pushedClauses (m : Machine) (env : Env) (code : List Instruction)
    (cls : List Clause) (ground : Bool) : (m.pushedClauses env code cls ground).envs = m.envs := by
  unfold Machine.pushedClauses
  split <;> rfl

/-- A machine goes back to a choice point: what is older than it is kept, and so is what is
pinned. -/
theorem popped (h : m.Numbered) (hstack : m.stack = c :: rest) :
    (m.popped c rest).Numbered ∧ c.Kept (m.popped c rest).choices (m.popped c rest).envs := by
  have hpair := h.order
  rw [hstack, List.pairwise_cons] at hpair
  have hchoices : (m.popped c rest).choices = min m.choices (max (c.id + 1) m.pinned.choices) := rfl
  have henvs : (m.popped c rest).envs = min m.envs (max c.envs m.pinned.envs) := rfl
  obtain ⟨h1, h2, h3⟩ := h.stack c (by rw [hstack]; exact List.mem_cons_self)
  have h4 := h.choices_le
  have h5 := h.envs_le
  refine ⟨⟨hpair.2, fun x hx => ?_, h.suspended, ?_, ?_⟩, ?_, ?_, h3⟩
  · obtain ⟨h6, h7, h8⟩ := h.stack x (by rw [hstack]; exact List.mem_cons_of_mem _ hx)
    obtain ⟨h9, h10⟩ := hpair.1 x hx
    exact ⟨by omega, by omega, h8⟩
  · change m.pinned.choices ≤ _
    omega
  · change m.pinned.envs ≤ _
    omega
  · omega
  · omega

theorem keep (h : m.Numbered) (hstack : m.stack = c :: rest) :
    ((m.popped c rest).keep c a).Numbered := by
  obtain ⟨h1, h2⟩ := h.popped hstack
  have hpair := h.order
  rw [hstack, List.pairwise_cons] at hpair
  refine ⟨List.pairwise_cons.2 ⟨hpair.1, h1.order⟩, fun x hx => ?_, h1.suspended, h1.choices_le,
    h1.envs_le⟩
  rcases List.mem_cons.1 hx with rfl | hx
  · exact h2
  · exact h1.stack x hx

/-- A choice point is put aside, and all that there is is pinned. -/
theorem parked (h : m.Numbered) (hstack : m.stack = c :: rest) (consumer : Nat) :
    ((m.popped c rest).parked c consumer).Numbered := by
  obtain ⟨h1, h2⟩ := h.popped hstack
  refine ⟨h1.order, h1.stack, fun {d x} hx => ?_, Nat.le_refl _, Nat.le_refl _⟩
  change ((m.popped c rest).suspended.insert consumer c)[d]? = some x at hx
  rw [Std.TreeMap.getElem?_insert] at hx
  split at hx
  · cases hx
    exact h2
  · exact (h1.suspended hx).mono h1.choices_le h1.envs_le

/-- All choice points that wait outlast the giving up of all that is not pinned. -/
theorem discard (h : m.Numbered) (hstack : m.stack = []) : m.discard.Numbered ∧
    m.discard.choices = m.pinned.choices ∧ m.discard.envs = m.pinned.envs := by
  have hchoices : m.discard.choices = m.pinned.choices := Nat.min_eq_right h.choices_le
  have henvs : m.discard.envs = m.pinned.envs := Nat.min_eq_right h.envs_le
  refine ⟨⟨h.order, fun c hc => ?_, h.suspended, Nat.le_of_eq hchoices.symm,
    Nat.le_of_eq henvs.symm⟩, hchoices, henvs⟩
  change c ∈ m.stack at hc
  rw [hstack] at hc
  cases hc

end Machine.Numbered

/-- The machine that goes on with the choice point `c` of a consumer. -/
def Machine.restored (consumer : Nat) (c : Choice) (m : Machine) : Machine :=
  { m.discard with
    bindings := c.bindings.grow m.discard.pinnedVars
    stack := [c]
    suspended := m.suspended.erase consumer }

theorem Machine.suspended_restored {consumer : Nat} {x : Choice} {d : Nat}
    (h : (m.restored consumer c).suspended[d]? = some x) :
    d ≠ consumer ∧ m.suspended[d]? = some x := by
  change (m.suspended.erase consumer)[d]? = some x at h
  rw [Std.TreeMap.getElem?_erase] at h
  split at h
  · cases h
  · next hne =>
    rw [Std.LawfulEqCmp.compare_eq_iff_eq] at hne
    exact ⟨Ne.symm hne, h⟩

/-- A machine goes on with a consumer if nothing else is left to try, and if it has a choice
point for it that is kept. -/
theorem restore_cases {d : Nat} {x : Except Failure Unit} (h : m.restore d s = (x, m', s')) :
    (∃ e, x = .error e ∧ m' = m ∧ s' = s) ∨
    (∃ e, x = .error e ∧ m.stack = [] ∧ m' = m.discard ∧
      s' = s.modifyConsumer d fun k => { k with suspended := false }) ∨
    ∃ c, x = .ok () ∧ m.stack = [] ∧ m.suspended[d]? = some c ∧ m' = m.restored d c ∧
      s' = (s.modifyConsumer d fun k => { k with suspended := false }).note
        (.consumerRestored d m.goal) := by
  unfold Machine.restore at h
  split at h
  · cases h
    exact .inl ⟨_, rfl, rfl, rfl⟩
  · next hstack =>
    have hstack : m.stack = [] := by simpa using hstack
    split at h
    · cases h
      exact .inl ⟨_, rfl, rfl, rfl⟩
    · simp only at h
      split at h
      · cases h
        exact .inr (.inl ⟨_, rfl, hstack, rfl, rfl⟩)
      · next c hc =>
        cases h
        exact .inr (.inr ⟨c, rfl, hstack, (Option.filter_eq_some_iff.1 hc).1, rfl, rfl⟩)

theorem Machine.Numbered.restored (h : m.Numbered) (hstack : m.stack = []) {d : Nat}
    (hc : m.suspended[d]? = some c) : (m.restored d c).Numbered := by
  obtain ⟨h1, hchoices, henvs⟩ := h.discard hstack
  refine ⟨List.pairwise_singleton _ _, fun x hx => ?_,
    fun hx => h.suspended (Machine.suspended_restored hx).2, h1.choices_le, h1.envs_le⟩
  obtain rfl := List.mem_singleton.1 hx
  exact (h.suspended hc).mono hchoices.ge henvs.ge

theorem restore_numbered {d : Nat} {x : Except Failure Unit} (h : m.restore d s = (x, m', s'))
    (hm : m.Numbered) : m'.Numbered := by
  rcases restore_cases h with ⟨e, -, rfl, -⟩ | ⟨e, -, hstack, rfl, -⟩ | ⟨c, -, hstack, hc, rfl, -⟩
  · exact hm
  · exact (hm.discard hstack).1
  · exact hm.restored hstack hc

/-! ## Turns -/

/-- The environments that a machine is about to run in are kept. -/
def Progress.Below (m : Machine) : Progress → Prop
  | .go (.run env _) => env.Below m.envs
  | _ => True

theorem Control.Fit.below {control : Control} (h : control.Fit P m) :
    (Progress.go control).Below m := by
  cases control with
  | backtrack => trivial
  | run => exact h.1

/-- Every turn keeps what the machine may go back to. -/
theorem Turn.numbered {control : Control} {p : Progress} (h : Turn P st control m s p m' s')
    (hm : m.Numbered) (hc : (Progress.go control).Below m) : m'.Numbered ∧ p.Below m' := by
  cases h with
  | @leave i cl vars caller back commit =>
    have hcaller : caller.Below m.envs :=
      Env.Below.caller (show (Env.frame i cl vars caller back commit).Below m.envs from hc)
    cases commit with
    | none => exact ⟨hm, hcaller⟩
    | some id => exact ⟨hm.congr rfl rfl (Nat.le_refl _) rfl rfl, hcaller⟩
  | answer => exact ⟨hm, trivial⟩
  | @call env ops call code n g _ _ _ _ _ hg hcalls =>
    have hload : (m.load g).Numbered := hm.congr rfl rfl (Nat.le_refl _) rfl rfl
    have henv : (env.setVars g.vars).Below (m.load g).envs := Env.below_setVars _ |>.2 hc
    cases hcalls with
    | search =>
      exact ⟨(hload.pushedClauses henv _ _).pushed
        (by rwa [Machine.Numbered.envs_pushedClauses]), trivial⟩
    | full _ hm' =>
      rcases hm' with rfl | rfl
      · exact ⟨hload, trivial⟩
      · exact ⟨hload.pushedClauses henv _ _, trivial⟩
    | table => exact ⟨hload.pushed henv, trivial⟩
    | tableFull => exact ⟨hload, trivial⟩
    | tableRefused => exact ⟨hload, trivial⟩
  | builtinFails => exact ⟨hm.congr rfl rfl (Nat.le_refl _) rfl rfl, trivial⟩
  | builtinStops => exact ⟨hm.congr rfl rfl (Nat.le_refl _) rfl rfl, trivial⟩
  | builtin =>
    exact ⟨hm.congr rfl rfl (Nat.le_refl _) rfl rfl, Env.below_setVars _ |>.2 hc⟩
  | empty => exact ⟨hm, trivial⟩
  | spent hstack => exact ⟨(hm.popped hstack).1, trivial⟩
  | full hstack => exact ⟨hm.keep hstack, trivial⟩
  | refuse hstack => exact ⟨(hm.keep hstack).congr rfl rfl (Nat.le_succ _) rfl rfl, trivial⟩
  | enter hstack =>
    obtain ⟨-, -, h1, h2⟩ := hm.popped hstack
    exact ⟨(hm.keep hstack).congr rfl rfl (Nat.le_succ _) rfl rfl, Nat.lt_succ_self _, h2.mono h1⟩
  | missFact hstack => exact ⟨hm.keep hstack, trivial⟩
  | fact hstack =>
    obtain ⟨-, -, h1, h2⟩ := hm.popped hstack
    exact ⟨(hm.keep hstack).congr rfl rfl (Nat.le_refl _) rfl rfl, h2.mono h1⟩
  | missAnswer hstack => exact ⟨hm.keep hstack, trivial⟩
  | storedAnswer hstack => exact ⟨hm.keep hstack, trivial⟩
  | missResult hstack => exact ⟨hm.keep hstack, trivial⟩
  | result hstack =>
    obtain ⟨-, -, h1, h2⟩ := hm.popped hstack
    exact ⟨(hm.keep hstack).congr rfl rfl (Nat.le_refl _) rfl rfl, h2.mono h1⟩
  | exhausted hstack => exact ⟨(hm.popped hstack).1, trivial⟩
  | park hstack => exact ⟨hm.parked hstack _, trivial⟩

end

end TabledRules
