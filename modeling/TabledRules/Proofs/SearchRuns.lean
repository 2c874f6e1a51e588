-- Runs of a machine that reads no table. Every turn takes one step off the
-- solutions that the recursive search has, so the answers of a run, read off
-- one after the other, are the list that the search makes.
import TabledRules.Proofs.KeptSites
import TabledRules.Proofs.SearchOrder

namespace TabledRules

section

variable {P : Program} {st : Settings} {goal : Triple} {m m' : Machine} {s s' : Session}
  {c : Choice} {rest : List Choice} {p : Progress} {control : Control} {env : Env}
  {code : List Instruction} {ts : List Triple} {f : Nat}

/-! ## Machines stay plain -/

def Progress.Plain (m : Machine) : Progress → Prop
  | .go control => control.Plain m
  | _ => True

/-- A machine with other registers, whose choice points are old ones or plain. -/
theorem Machine.Plain.update (h : m.Plain goal) (hstd : m'.standard = m.standard)
    (hpinned : m'.pinned = m.pinned) (hsusp : m'.suspended = m.suspended)
    (hstack : ∀ c ∈ m'.stack, c ∈ m.stack ∨ (c.env.Older c.id ∧
      ∀ consumer called, c.alternatives ≠ .results consumer called)) : m'.Plain goal where
  standard := hstd.trans h.standard
  unpinned := hpinned.trans h.unpinned
  suspended := fun d => hsusp ▸ h.suspended d
  older := fun c hc => (hstack c hc).elim (h.older c) And.left
  results := fun c hc => (hstack c hc).elim (h.results c) And.right

/-- The choice point that was gone back to is put back with less to try. -/
theorem Machine.Plain.keep (h : m.Plain goal) (hstack : m.stack = c :: rest) {a : Alternatives}
    (ha : ∀ consumer called, a ≠ .results consumer called) :
    ((m.popped c rest).keep c a).Plain goal := by
  refine h.update rfl rfl rfl fun x hx => ?_
  rcases List.mem_cons.1 hx with rfl | hx
  · exact .inr ⟨h.older c (by rw [hstack]; exact List.mem_cons_self), ha⟩
  · exact .inl (by rw [hstack]; exact List.mem_cons_of_mem _ hx)

/-- Where a choice point is gone on with, all younger ones are given up. -/
theorem Machine.Plain.choices_popped (h : m.Plain goal) (hm : m.Formed P)
    (hstack : m.stack = c :: rest) : (m.popped c rest).choices = c.id + 1 := by
  have hlt : c.id < m.choices :=
    (hm.numbered.stack c (by rw [hstack]; exact List.mem_cons_self)).1
  rw [TabledRules.choices_popped, h.unpinned]
  change min m.choices (max (c.id + 1) 0) = _
  omega

theorem Machine.Plain.pushed (h : m.Plain goal) (henv : env.Older m.choices) {a : Alternatives}
    (ha : ∀ consumer called, a ≠ .results consumer called) : (m.pushed env code a).Plain goal := by
  refine h.update rfl rfl rfl fun x hx => ?_
  rcases List.mem_cons.1 hx with rfl | hx
  · exact .inr ⟨henv, ha⟩
  · exact .inl hx

theorem Machine.Plain.pushedClauses (h : m.Plain goal) (henv : env.Older m.choices)
    (code : List Instruction) (cls : List Clause) (ground : Bool) :
    (m.pushedClauses env code cls ground).Plain goal ∧
      m.choices ≤ (m.pushedClauses env code cls ground).choices := by
  unfold Machine.pushedClauses
  split
  · exact ⟨h, Nat.le_refl _⟩
  · exact ⟨h.pushed henv (by simp), Nat.le_succ _⟩

/-- No turn puts a choice point aside, and nothing but the journal and the profile of the session
changes. -/
theorem Turn.plain (hP : P.Compiled) (hun : P.Untabled) (h : Turn P st control m s p m' s')
    (hp : ∀ e, p ≠ .done (.error e)) (hm : m.Formed P) (hc : control.Fit P m)
    (hplain : m.Plain goal) (hcp : control.Plain m) :
    m'.Plain goal ∧ p.Plain m' ∧ s.Noted s' := by
  have older : ∀ {c : Choice} {rest : List Choice}, m.stack = c :: rest →
      c.env.Older (m.popped c rest).choices := fun {c rest} hstack => by
    rw [hplain.choices_popped hm hstack]
    exact (hplain.older c (by rw [hstack]; exact List.mem_cons_self)).mono (Nat.le_succ _)
  cases h with
  | @leave i cl vars caller back commit _ _ _ hnoted =>
    have hfields : (m.left commit).stack = m.stack ∧ (m.left commit).choices = m.choices ∧
        (m.left commit).pinned = m.pinned ∧ (m.left commit).suspended = m.suspended ∧
        (m.left commit).standard = m.standard := by
      cases commit <;> exact ⟨rfl, rfl, rfl, rfl, rfl⟩
    obtain ⟨h1, h2, h3, h4, h5⟩ := hfields
    refine ⟨hplain.update h5 h3 h4 fun c hc => .inl (h1 ▸ hc), fun id d e code hcommits => ?_,
      hnoted⟩
    rw [h2]
    exact hcp _ _ _ _ (.outer hcommits)
  | answer ht hnoted => exact ⟨hplain, trivial, hnoted⟩
  | @call env ops call code n g _ _ _ _ _ hg hcalls =>
    obtain ⟨-, fs, hrun⟩ := hc
    obtain ⟨r, θ, pattern, es, fs', -, rfl, -⟩ := hrun.call hP hm.args_length
    have hno := hun.readsTable r pattern ((m.load g).called.mapTerms (m.load g).bindings.deref)
    have hload : (m.load g).Plain goal := hplain.update rfl rfl rfl fun c hc => .inl hc
    have henv : (env.setVars g.vars).Older (m.load g).choices := Env.Older.setVars hcp _
    cases hcalls with
    | search hreads hground hv =>
      obtain ⟨h1, h2⟩ := hload.pushedClauses henv code _ _
      exact ⟨h1.pushed (henv.mono h2) (by simp), trivial, .refl s⟩
    | table hreads => exact absurd (hreads.symm.trans hno) (by simp)
    | full | tableFull | tableRefused => exact absurd rfl (hp _)
  | builtinFails hg hf hnoted =>
    exact ⟨hplain.update rfl rfl rfl fun c hc => .inl hc, trivial, hnoted⟩
  | builtinStops hg => exact absurd rfl (hp _)
  | @builtin env ops f arity n k code g b _ _ hg hf =>
    exact ⟨hplain.update rfl rfl rfl fun c hc => .inl hc, Env.Older.setVars hcp _, .refl s⟩
  | empty hnil => exact ⟨hplain, trivial, .refl s⟩
  | spent hstack hspent hnoted =>
    exact ⟨hplain.update rfl rfl rfl fun c hc => .inl (by
      rw [hstack]; exact List.mem_cons_of_mem _ hc), trivial, hnoted⟩
  | full hstack halt => exact absurd rfl (hp _)
  | refuse hstack halt henter hargs htemps hnoted =>
    exact ⟨(hplain.keep hstack (by simp)).update rfl rfl rfl fun c hc => .inl hc, trivial, hnoted⟩
  | @enter c rest cl cls args ground _ _ _ n g θ code hstack halt henter hargs htemps hrun hnoted =>
    refine ⟨(hplain.keep hstack (by simp)).update rfl rfl rfl fun c hc => .inl hc, ?_, hnoted⟩
    have hid : c.id < (m.popped c rest).choices := by
      rw [hplain.choices_popped hm hstack]
      exact Nat.lt_succ_self _
    change Env.Older (m.popped c rest).choices (c.entered _ cl g.vars ground)
    cases ground with
    | true =>
      rintro id d e back hcommits
      cases hcommits with
      | here => exact hid
      | outer hcommits => exact older hstack _ _ _ _ hcommits
    | false =>
      rintro id d e back hcommits
      cases hcommits with
      | outer hcommits => exact older hstack _ _ _ _ hcommits
  | missFact hstack halt hu => exact ⟨hplain.keep hstack (by simp), trivial, .refl s⟩
  | fact hstack halt hu hnoted =>
    exact ⟨(hplain.keep hstack (by simp)).update rfl rfl rfl fun c hc => .inl hc, older hstack,
      hnoted⟩
  | missAnswer hstack halt hu => exact ⟨hplain.keep hstack (by simp), trivial, .refl s⟩
  | storedAnswer hstack halt hu hnoted => exact ⟨hplain.keep hstack (by simp), trivial, hnoted⟩
  | missResult hstack halt | result hstack halt | exhausted hstack halt | park hstack halt =>
    exact absurd halt (hplain.results _ (by rw [hstack]; exact List.mem_cons_self) _ _)

/-! ## Turns read backwards -/

/-- Whatever the answers from the end of a turn on are, they are the answers from its beginning
on, with the one that the turn gives in front. -/
theorem Turn.unfolds (hP : P.Compiled) (hdeep : P.Deepens) (h : Turn P st control m s p m' s')
    (hexact : control.Exact P m p m') (hp : ∀ e, p ≠ .done (.error e)) (hm : m.Formed P)
    (hplain : m.Plain goal) (hcp : control.Plain m) (hts : p.Unfolds P goal m' ts) :
    control.Unfolds P goal m ts := by
  -- a clause is tried only where the choice point is not committed to
  have hopen : ∀ {c : Choice} {rest : List Choice} {cl : Clause} {cls : List Clause}
      {args : List Term} {ground : Bool}, m.stack = c :: rest →
      c.alternatives = .clauses (cl :: cls) args ground → control = .backtrack →
      m'.stack ≠ rest → c.id ∉ m.commits := by
    rintro c rest cl cls args ground hstack halt rfl hne hin
    have hspent : c.Spent m.committed := by
      unfold Choice.Spent
      rw [halt]
      exact .inr (Std.TreeSet.mem_iff_contains.1 hin)
    exact hne (by rw [(hexact c rest hstack hspent).2]; rfl)
  cases h with
  | leave hnoted => exact Control.Unfolds.leave hP hts
  | @answer n _ _ _ t ht hnoted =>
    obtain ⟨us, rfl, hus⟩ := hts
    intro fs fss hrun hshows
    cases hrun.root_frames
    rw [Machine.solution, hplain.standard] at ht
    refine ⟨⟨[t], ∅⟩, us, ⟨rfl, n, t, ht, rfl⟩, ?_, rfl⟩
    exact (hus fss hshows).congr fun c _ => by simp
  | @call env ops call code n g _ _ _ _ _ hg hcalls =>
    obtain ⟨n', k, g', enough, value, hg', henough, hvalue, rfl, rfl⟩ := hexact ops call code rfl
    exact Control.Unfolds.call hP hdeep hm hcp hg' henough hvalue hts
  | builtinFails hg hf hnoted => exact Control.Unfolds.builtinFails hP hm hg hf hts
  | builtinStops hg => exact absurd rfl (hp _)
  | builtin hg hf => exact Control.Unfolds.builtin hP hdeep hm hg hf hts
  | empty hnil =>
    obtain rfl : ts = [] := hts
    intro fss hshows
    unfold Machine.Shows at hshows
    rw [hnil] at hshows ⊢
    cases hshows
    exact .nil
  | @spent c rest _ _ _ hstack hspent hnoted =>
    intro fss hshows
    obtain ⟨fs, fss', rfl, h1, h2⟩ := hshows.tail hstack
    rw [hstack]
    exact StackYields.spent hspent Std.TreeSet.mem_iff_contains (hts fss' h2)
  | full hstack halt => exact absurd rfl (hp _)
  | @refuse c rest cl cls args ground _ _ _ n g hstack halt henter hargs htemps hnoted =>
    rw [hplain.popped] at henter
    replace hts : Control.Unfolds P goal _ ts .backtrack := hts
    exact hts.back hstack rfl rfl fun fs y hy => Choice.Yields.refuse hdeep halt henter hy
  | @enter c rest cl cls args ground _ _ _ n g θ code hstack halt henter hargs htemps hrun hnoted =>
    have hne : { c with alternatives := .clauses cls args ground } :: rest ≠ rest := by simp
    replace hts : Control.Unfolds P goal _ ts (.run _ code) := hts
    exact hts.enter hdeep hm hplain hstack halt (hopen hstack halt rfl hne) henter (hrun _ rfl) rfl
      rfl rfl
  | @missFact c rest called fact facts _ _ n hstack halt hu =>
    rw [hplain.popped] at hu
    replace hts : Control.Unfolds P goal _ ts .backtrack := hts
    exact hts.back hstack rfl rfl fun fs y hy => Choice.Yields.missFact halt hu hy
  | fact hstack halt hu hnoted => exact Control.Unfolds.fact hplain hstack halt hu hts
  | @missAnswer c rest called fact facts _ _ n hstack halt hu =>
    rw [hplain.popped] at hu
    replace hts : Control.Unfolds P goal _ ts .backtrack := hts
    exact hts.back hstack rfl rfl fun fs y hy => Choice.Yields.missAnswer halt hu hy
  | @storedAnswer c rest called fact facts _ _ _ n b hstack halt hu hnoted =>
    obtain ⟨us, rfl, hus⟩ := hts
    rw [hplain.popped] at hu
    intro fss hshows
    obtain ⟨fs, fss', rfl, h1, h2⟩ := hshows.tail hstack
    have hunfolds := hus (fs :: fss') (.cons h1 h2)
    rw [hstack]
    cases hunfolds with
    | @cons _ _ _ _ _ y us h3 h4 =>
      exact StackYields.cons (Choice.Yields.answer halt hu h3) h4
  | missResult hstack halt | result hstack halt | exhausted hstack halt | park hstack halt =>
    exact absurd halt (hplain.results _ (by rw [hstack]; exact List.mem_cons_self) _ _)

/-! ## Runs -/

/-- The machine goes on as the program says where a called goal is about to be solved. -/
theorem exactTurn_of_call (hun : P.Untabled) {r : Rule} {pattern : Triple}
    {ops : List Operation} {n f' : Nat} {g : Registers} {o : Option Triple}
    (hroom : env.id < m.envs) (hf : f' ≤ f)
    (hg : Operation.runAll env.name n (m.registers env) ops = some (.ok (some g)))
    (h : Machine.run (P.world st) f' (.run (env.setVars g.vars)
      (.call (P.callFor r pattern) :: code)) (m.load g) s = some (.ok o, m', s')) :
    ∃ p m1 s1 control1 f1,
      Turn P st (.run env (ops.map .operation ++ .call (P.callFor r pattern) :: code)) m s p m1 s1 ∧
      Control.Exact P m p m1
        (.run env (ops.map .operation ++ .call (P.callFor r pattern) :: code)) ∧
      f1 < f ∧ p = .go control1 ∧
      Machine.run (P.world st) f1 control1 m1 s1 = some (.ok o, m', s') := by
  cases f' with
  | zero => cases h
  | succ f' =>
    generalize hcall : P.callFor r pattern = c at h ⊢
    generalize hcalled : (m.load g).called.mapTerms (m.load g).bindings.deref = called
    have hno : c.readsTable P.rules called = false := hcall ▸ hun.readsTable r pattern called
    have hstep : (m.load g).step (P.world st) f' (.run (env.setVars g.vars) (.call c :: code)) s =
        (m.load g).call (P.world st) f' (env.setVars g.vars) code s c := by
      rw [Machine.step, if_neg (Nat.not_le.2 (by rwa [Env.id_setVars]))]
      rfl
    have hno' : c.readsTable (P.world st).rules called = false := hno
    simp only [Machine.call, hcalled, hno', Bool.false_eq_true, if_false] at hstep
    cases henough : c.commits f' (m.load g).bindings (m.load g).called with
    | none =>
      unfold Call.commits at henough
      simp only [henough] at hstep
      rcases run_of_step hstep h with ⟨hp, -⟩ | ⟨control1, hp, -⟩ <;> cases hp
    | some enough =>
      have hground := henough
      unfold Call.commits at hground
      simp only [hground] at hstep
      rcases hclauses : (m.load g).callClauses (P.world st) f' (env.setVars g.vars) code
        (c.clauses (P.world st).rules called) enough s with ⟨p, m1, s1⟩
      rw [hclauses] at hstep
      rcases run_of_step hstep h with ⟨rfl, rfl, rfl⟩ | ⟨control1, rfl, hrun⟩
      · obtain ⟨-, ⟨e, -, hp, -⟩ | ⟨value, -, hp, -⟩⟩ := calls_callClauses rfl hclauses (by simp)
          <;> cases hp
      · obtain ⟨rfl, ⟨e, -, hp, -⟩ | ⟨value, hv, hp, rfl⟩⟩ :=
          calls_callClauses rfl hclauses (by simp)
        · cases hp
        cases hp
        subst hcalled
        have hground' : enough = true → c.mayCommit = true ∧
            (m.load g).bindings.areGround f' (m.load g).called.terms = some true := by
          rintro rfl
          split at hground
          · next hcommit => exact ⟨hcommit, hground⟩
          · cases hground
        refine ⟨_, _, _, _, f', .call hg (.search hno hground' hv), ?_, by omega, rfl, hrun⟩
        intro ops' c' code' hcode
        obtain ⟨rfl, hi, rfl⟩ := operations_unique (by simp) (by simp) hcode
        cases hi
        exact ⟨n, f', g, enough, value, hg, henough, hv, rfl, rfl⟩

/-- Every run begins with the turn that the machine takes. -/
theorem exactTurn_of_run (hP : P.Compiled) (hun : P.Untabled) (hm : m.Formed P)
    (hc : control.Fit P m) {o : Option Triple}
    (h : Machine.run (P.world st) f control m s = some (.ok o, m', s')) :
    ∃ p m1 s1, Turn P st control m s p m1 s1 ∧ control.Exact P m p m1 ∧
      (p = .done (.ok o) ∧ m1 = m' ∧ s1 = s' ∨
        ∃ control1 f1, f1 < f ∧ p = .go control1 ∧
          Machine.run (P.world st) f1 control1 m1 s1 = some (.ok o, m', s')) := by
  have first : (∀ p m1, control.Exact P m p m1) → ∃ p m1 s1, Turn P st control m s p m1 s1 ∧
      control.Exact P m p m1 ∧ (p = .done (.ok o) ∧ m1 = m' ∧ s1 = s' ∨
        ∃ control1 f1, f1 < f ∧ p = .go control1 ∧
          Machine.run (P.world st) f1 control1 m1 s1 = some (.ok o, m', s')) := by
    intro hexact
    rcases firstTurn_of_run hP hm.fit hc h with hturn | ⟨control1, m1, s1, f1, hf, hturn, hrun⟩
    · exact ⟨_, _, _, hturn, hexact _ _, .inl ⟨rfl, rfl, rfl⟩⟩
    · exact ⟨_, _, _, hturn, hexact _ _, .inr ⟨control1, f1, hf, rfl, hrun⟩⟩
  cases control with
  | backtrack =>
    by_cases hspent : ∃ c rest, m.stack = c :: rest ∧ c.Spent m.committed
    · obtain ⟨c, rest, hstack, hspent⟩ := hspent
      cases f with
      | zero => cases h
      | succ f =>
        have hspent' : c.Spent (m.popped c rest).committed := hspent
        obtain ⟨s1, hnoted, hretry⟩ := retry_spent hspent'
        have hstep := (step_backtrack hm.numbered hstack).trans hretry
        refine ⟨_, _, _, .spent hstack hspent hnoted, ?_, ?_⟩
        · intro c' rest' hstack' _
          cases hstack.symm.trans hstack'
          exact ⟨rfl, rfl⟩
        · rcases run_of_step hstep h with ⟨hp, -⟩ | ⟨control1, hp, hrun⟩
          · cases hp
          · exact .inr ⟨control1, f, Nat.lt_succ_self f, hp, hrun⟩
    · exact first fun p m1 c rest hstack hs => absurd ⟨c, rest, hstack, hs⟩ hspent
  | run env code =>
    -- code without a call in front is exact in any case
    have other : ∀ {ops : List Operation} {i : Instruction} {code' : List Instruction},
        code = ops.map .operation ++ i :: code' → (∀ op, i ≠ .operation op) →
        (∀ c, i ≠ .call c) → ∀ p m1, Control.Exact P m p m1 (.run env code) := by
      rintro ops i code' rfl hop hcall p m1 ops' c code'' hcode
      obtain ⟨-, hi, -⟩ := operations_unique hop (by simp) hcode
      exact absurd hi (hcall c)
    obtain ⟨henv, fs, hfs⟩ := id hc
    rcases hfs.shape hP hm.args_length with
      ⟨-, hcode⟩ | ⟨hframe, hcode | ⟨ops, i, code', rfl, hi, hops⟩⟩
    · exact first (@other [] _ _ hcode (by simp) (by simp))
    · exact first (@other [] _ _ hcode (by simp) (by simp))
    · rcases hi with ⟨c, rfl⟩ | ⟨b, arity, rfl, -⟩
      · obtain ⟨g, hg⟩ := hops f
        obtain ⟨r, θ, pattern, es, fs', -, rfl, -⟩ := hfs.call hP hm.args_length
        rcases Machine.run_operations hframe henv.id_lt ops h with
          ⟨g', f', hf', hg', hrun⟩ | ⟨e, he⟩ | ⟨hnone, -⟩
        · obtain ⟨p, m1, s1, control1, f1, hturn, hexact, hf1, hp, hrun1⟩ :=
            exactTurn_of_call hun henv.id_lt hf' hg' hrun
          exact ⟨p, m1, s1, hturn, hexact, .inr ⟨control1, f1, hf1, hp, hrun1⟩⟩
        · cases hg.symm.trans he
        · cases hg.symm.trans hnone
      · exact first (other rfl (by simp) (by simp))

/-- Whatever the answers from the end of a run on are, they are the answers from its beginning on,
with the one that the run gives in front. -/
theorem run_unfolds (hP : P.Compiled) (hdeep : P.Deepens) (hun : P.Untabled) (hm : m.Formed P)
    (hc : control.Fit P m) (hplain : m.Plain goal) (hcp : control.Plain m) {o : Option Triple}
    (h : Machine.run (P.world st) f control m s = some (.ok o, m', s')) :
    m'.Formed P ∧ m'.Plain goal ∧ s.Noted s' ∧
      ∀ ts, (Progress.done (.ok o)).Unfolds P goal m' ts → control.Unfolds P goal m ts := by
  induction f using Nat.strongRecOn generalizing control m s with
  | ind f ih =>
    obtain ⟨p, m1, s1, hturn, hexact, hrest⟩ := exactTurn_of_run hP hun hm hc h
    have hp : ∀ e, p ≠ .done (.error e) := by
      rintro e rfl
      rcases hrest with ⟨he, -⟩ | ⟨control1, f1, -, he, -⟩ <;> cases he
    obtain ⟨hm1, hfit⟩ := hturn.formed hP hm hc
    obtain ⟨hplain1, hcp1, hnoted⟩ := hturn.plain hP hun hp hm hc hplain hcp
    have hback := fun ts (hts : p.Unfolds P goal m1 ts) =>
      hturn.unfolds hP hdeep hexact hp hm hplain hcp hts
    rcases hrest with ⟨rfl, rfl, rfl⟩ | ⟨control1, f1, hf, rfl, hrun⟩
    · exact ⟨hm1, hplain1, hnoted, hback⟩
    · obtain ⟨hm', hplain', hnoted', hrest⟩ := ih f1 hf hm1 hfit hplain1 hcp1 hrun
      exact ⟨hm', hplain', hnoted.trans hnoted', fun ts hts => hback ts (hrest ts hts)⟩

/-! ## New machines -/

/-- At the root every solution gives one answer. -/
theorem Each.answers {bs : List Bindings} {y : Yield}
    (h : Each (Env.root.Yields P goal []) bs y) :
    ∃ n, (bs.mapM fun b => goal.mapTerms? (b.resolve n)) = some y.answers := by
  induction h with
  | nil => exact ⟨0, rfl⟩
  | @cons b bs y z h1 _ ih =>
    obtain ⟨-, n, t, ht, rfl⟩ := h1
    obtain ⟨k, hk⟩ := ih
    refine ⟨max n k, mapM_eq_some_iff.2 (.cons ?_ ((mapM_eq_some_iff.1 hk).imp fun b u => ?_))⟩
    · exact mapTerms?_mono (fun _ _ => resolve_mono (Nat.le_max_left n k)) ht
    · exact mapTerms?_mono fun _ _ => resolve_mono (Nat.le_max_right n k)

variable {pattern : Triple} {owner : Owner}

theorem start_plain (h : Machine.start (P.world st) pattern owner = .ok m) :
    m.Plain pattern.standard := by
  obtain ⟨m0, hblank, rfl⟩ := start_eq h
  obtain ⟨hstd, -, hstack, hsusp, -, -, -, -, hpinned, -⟩ := blank_eq hblank
  have h0 : m0.Plain pattern.standard := by
    refine ⟨hstd, hpinned, fun d => ?_, fun c hc => ?_, fun c hc => ?_⟩
    · rw [hsusp]
      exact Std.TreeMap.getElem?_emptyc
    · rw [hstack] at hc
      cases hc
    · rw [hstack] at hc
      cases hc
  exact (h0.pushedClauses Env.older_root _ _ _).1.pushed Env.older_root (by simp)

/-- A machine that was just started returns what the search finds. -/
theorem search_of_start (hdeep : P.Deepens)
    (h : Machine.start (P.world st) pattern owner = .ok m)
    (hts : Control.Unfolds P pattern.standard m ts .backtrack) :
    ∃ n, P.search n pattern = some ts := by
  obtain ⟨m0, hblank, rfl⟩ := start_eq h
  obtain ⟨-, hb, hstack, -, hargs, -⟩ := blank_eq hblank
  -- the answers by the store and by the clauses, each at a depth of its own
  have assemble : ∀ {found : List (Triple × Bindings)} {bs : List Bindings} {us : List Triple}
      {n1 n2 n3 : Nat}, pattern.unbound.matching n1 pattern.standard
        (P.find pattern.standard.lookupKey) = some found →
      P.solveClauses n2 pattern.standard pattern.unbound pattern.isGround
        (P.rules.codeFor pattern.standard) = some bs →
      (bs.mapM fun b => pattern.standard.mapTerms? (b.resolve n3)) = some us →
      ∃ n, P.search n pattern = some (found.map Prod.fst ++ us) := by
    intro found bs us n1 n2 n3 h1 h2 h3
    refine ⟨max n1 (max n2 n3), Option.bind_eq_some_iff.2 ⟨found, matching_mono (by omega) h1,
      Option.bind_eq_some_iff.2 ⟨bs, (Program.solve_mono hdeep (by omega)).2.1 _ _ _ _ _ h2,
        Option.bind_eq_some_iff.2 ⟨us, ?_, rfl⟩⟩⟩⟩
    exact mapM_eq_some_iff.2 ((mapM_eq_some_iff.1 h3).imp fun b u =>
      mapTerms?_mono fun _ _ => resolve_mono (by omega))
  unfold Machine.pushedClauses at hts
  split at hts
  · next hempty =>
    have hcode : P.rules.codeFor pattern.standard = [] := by simpa using hempty
    have hyields := hts [[]] (.cons .root (by rw [hstack]; exact .nil))
    rw [Machine.stack_pushed, hstack] at hyields
    cases hyields with
    | cons h1 h2 =>
      obtain ⟨n, found, hfound, rfl⟩ := h1
      cases h2
      change m0.bindings.matching n _ _ = _ at hfound
      rw [hb] at hfound
      have hnone : P.solveClauses 1 pattern.standard pattern.unbound pattern.isGround
          (P.rules.codeFor pattern.standard) = some [] := by
        rw [hcode]
        rfl
      exact assemble hfound hnone
        (rfl : [].mapM (fun b : Bindings => pattern.standard.mapTerms? (b.resolve 0)) = some [])
  · have hyields := hts [[], []] (.cons .root (.cons .root (by rw [hstack]; exact .nil)))
    rw [Machine.stack_pushed, Machine.stack_pushed, hstack] at hyields
    cases hyields with
    | cons h1 h2 =>
      obtain ⟨n1, found, hfound, rfl⟩ := h1
      cases h2 with
      | cons h2 h3 =>
        cases h3
        obtain ⟨n2, bs, hbs, heach⟩ := h2.2 (by
          rw [Machine.commits_pushed, Machine.commits_pushed]
          rintro (⟨⟨-, hne⟩, -⟩ | hin)
          · exact hne rfl
          · exact hin)
        obtain ⟨n3, hus⟩ := heach.answers
        change m0.bindings.matching n1 _ _ = _ at hfound
        change P.solveClauses n2 (goalOf m0.args) m0.bindings pattern.isGround _ = _ at hbs
        have hgoal : goalOf m0.args = pattern.standard := by
          rw [hargs]
          rfl
        rw [hb] at hfound hbs
        rw [hgoal] at hbs
        rw [List.append_nil]
        exact assemble hfound hbs hus

end

end TabledRules
