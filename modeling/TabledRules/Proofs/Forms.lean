-- The form that compiled rules give to machines. Every choice point stands in
-- code of the program, with its registers in place, and no turn loses that.
-- What goes wrong in such a machine comes from outside of it.
import TabledRules.Proofs.SoundTables

namespace TabledRules

/-! ## Machines of a program -/

/-- The choice point stands in code of the program, and so do the clauses that are left to
try. -/
structure Choice.Formed (P : Program) (c : Choice) : Prop where
  fit : c.Fit P
  models : ∃ fs, Models P c.env c.code fs

structure Machine.Formed (P : Program) (m : Machine) : Prop where
  args_length : m.args.length = maxArguments
  temps_length : m.temps.length = maxTemporaries
  stack : ∀ c ∈ m.stack, c.Formed P
  suspended : ∀ {d : Nat} {c : Choice}, m.suspended[d]? = some c → c.Formed P
  numbered : m.Numbered

/-- The machines of all generators are formed. -/
structure Session.Formed (P : Program) (s : Session) : Prop where
  machine : ∀ {g : Nat} {gen : Generator} {m : Machine}, s.generators[g]? = some gen →
    gen.machine = some m → m.Formed P

/-- The machine can go on where it is about to. -/
def Progress.Fit (P : Program) (m : Machine) : Progress → Prop
  | .go control => control.Fit P m
  | _ => True

section

variable {P : Program} {st : Settings} {s s' : Session} {m m' : Machine} {c : Choice}
  {rest : List Choice} {control : Control} {p : Progress} {K : Triple → Prop}

theorem Machine.Formed.fit (h : m.Formed P) : m.Fit P :=
  ⟨h.args_length, h.temps_length, fun c hc => (h.stack c hc).fit, h.numbered⟩

theorem Choice.Sound.formed {standard : Triple} (h : c.Sound P s standard K) : c.Formed P := by
  obtain ⟨inner, fs, -, hmodels, -⟩ := h.under
  exact ⟨h.fit, _, hmodels⟩

theorem Machine.Sound.formed (h : m.Sound P s K) : m.Formed P :=
  ⟨h.args_length, h.temps_length, fun c hc => (h.stack c hc).formed,
    fun hc => (h.suspended hc).formed, h.numbered⟩

/-- The store has no part in the form of a machine. -/
theorem Models.store {env : Env} {code : List Instruction} {fs : List Frame} (h : Models P env code fs)
    (store : Store) : Models { P with store } env code fs := by
  induction h with
  | root => exact .root
  | frame hcl hes hrest hlater _ ih => exact .frame hcl hes hrest hlater ih

theorem Machine.Formed.store (h : m.Formed P) (store : Store) : m.Formed { P with store } :=
  ⟨h.args_length, h.temps_length,
    fun c hc => ⟨(h.stack c hc).fit, (h.stack c hc).models.imp fun _ hm => hm.store store⟩,
    fun hc => ⟨(h.suspended hc).fit, (h.suspended hc).models.imp fun _ hm => hm.store store⟩,
    h.numbered⟩

theorem Session.Formed.store (h : s.Formed P) (store : Store) : s.Formed { P with store } :=
  ⟨fun hg hm => (h.machine hg hm).store store⟩

/-! ## Turns -/

/-- A machine with other registers, whose choice points are old ones or formed. -/
theorem Machine.Formed.update (h : m.Formed P) (hnum : m'.Numbered) (hargs : m'.args.length = maxArguments)
    (htemps : m'.temps.length = maxTemporaries) (hsusp : m'.suspended = m.suspended)
    (hstack : ∀ c ∈ m'.stack, c ∈ m.stack ∨ c.Formed P) : m'.Formed P := by
  refine ⟨hargs, htemps, fun c hc => ?_, fun hc => h.suspended (hsusp ▸ hc), hnum⟩
  rcases hstack c hc with hc | hc
  · exact h.stack c hc
  · exact hc

theorem Choice.Formed.tried {a : Alternatives} (h : c.Formed P) (ha : c.alternatives.Drops a) :
    ({ c with alternatives := a } : Choice).Formed P := by
  obtain ⟨id, env, code, envs, bindings, a0⟩ := c
  refine ⟨?_, h.models⟩
  have hfit := h.fit
  unfold Choice.Fit at hfit ⊢
  cases ha with
  | clause => exact ⟨hfit.1, fun cl hcl => hfit.2 cl (List.mem_cons_of_mem _ hcl)⟩
  | fact => trivial
  | answer => trivial
  | result => trivial

/-- The machine whose last choice point is put back with less to try. -/
theorem Machine.Formed.keep (h : m.Formed P) (hnum : m'.Numbered) (hstack : m.stack = c :: rest)
    {a : Alternatives} (ha : c.alternatives.Drops a) (hargs : m'.args.length = maxArguments)
    (htemps : m'.temps.length = maxTemporaries) (hsusp : m'.suspended = m.suspended)
    (hstack' : m'.stack = { c with alternatives := a } :: rest) : m'.Formed P := by
  refine h.update hnum hargs htemps hsusp fun x hx => ?_
  rw [hstack'] at hx
  rcases List.mem_cons.1 hx with rfl | hx
  · exact .inr ((h.stack c (by rw [hstack]; exact List.mem_cons_self)).tried ha)
  · exact .inl (by rw [hstack]; exact List.mem_cons_of_mem _ hx)

theorem Machine.Formed.popped (h : m.Formed P) (hstack : m.stack = c :: rest) :
    (m.popped c rest).Formed P :=
  h.update (h.numbered.popped hstack).1 h.args_length h.temps_length rfl fun x hx =>
    .inl (by rw [hstack]; exact List.mem_cons_of_mem _ hx)

/-- The choice points that a call makes are formed where the code after it is. -/
theorem Calls.formed {w : World} {env : Env} {code : List Instruction} {call : Call}
    (h : Calls P w env code call m s p m' s') (hm : m.Formed P)
    (hmodels : ∃ fs, Models P env code fs) (henv : env.Below m.envs) : m'.Formed P := by
  have clauses : ∀ goal ground,
      (m.pushedClauses env code (call.clauses P.rules goal) ground).Formed P := by
    intro goal ground
    have hnum : (m.pushedClauses env code (call.clauses P.rules goal) ground).Numbered :=
      hm.numbered.pushedClauses henv _ ground
    unfold Machine.pushedClauses at hnum ⊢
    split
    · exact hm
    · next hne =>
      rw [if_neg hne] at hnum
      refine hm.update hnum hm.args_length hm.temps_length rfl fun x hx => ?_
      rcases List.mem_cons.1 hx with rfl | hx
      · exact .inr ⟨⟨hm.args_length, fun cl hcl => mem_clauses_of_call hcl⟩, hmodels⟩
      · exact .inl hx
  have pushed : ∀ {m : Machine} {a : Alternatives}, m.Formed P → env.Below m.envs →
      (∀ cls args ground, a ≠ .clauses cls args ground) → (m.pushed env code a).Formed P := by
    intro m a hm henv ha
    refine hm.update (hm.numbered.pushed henv) hm.args_length hm.temps_length rfl fun x hx => ?_
    rcases List.mem_cons.1 hx with rfl | hx
    · refine .inr ⟨?_, hmodels⟩
      unfold Choice.Fit
      split
      · next cls args ground e => exact absurd e (ha cls args ground)
      · trivial
    · exact .inl hx
  cases h with
  | search =>
    exact pushed (clauses _ _) (by rwa [Machine.Numbered.envs_pushedClauses]) (by simp)
  | full _ hm' =>
    rcases hm' with rfl | rfl
    · exact hm
    · exact clauses _ _
  | table => exact pushed hm henv (by simp)
  | tableFull => exact hm
  | tableRefused => exact hm

/-- Every turn keeps the form of a machine, and where it goes on there is code to run. -/
theorem Turn.formed (hP : P.Compiled) (h : Turn P st control m s p m' s') (hm : m.Formed P)
    (hc : control.Fit P m) : m'.Formed P ∧ p.Fit P m' := by
  have top : ∀ {c : Choice} {rest : List Choice}, m.stack = c :: rest → c.Formed P :=
    fun hstack => hm.stack _ (by rw [hstack]; exact List.mem_cons_self)
  obtain ⟨hnum, hbelow⟩ := h.numbered hm.numbered hc.below
  cases h with
  | @leave i cl vars caller back commit _ _ _ hnoted =>
    obtain ⟨henv, fs, hrun⟩ := hc
    obtain ⟨r, θ, fs', -, hcaller⟩ := hrun.leave hP
    refine ⟨?_, hbelow, fs', hcaller.running _⟩
    cases commit with
    | none => exact hm
    | some id => exact hm.update hnum hm.args_length hm.temps_length rfl fun c hc => .inl hc
  | answer => exact ⟨hm, trivial⟩
  | @call env ops call code n g _ _ _ _ _ hg hcalls =>
    obtain ⟨henv, fs, hrun⟩ := hc
    obtain ⟨r, θ, pattern, es, fs', -, -, hload⟩ := hrun.call hP hm.args_length
    obtain ⟨goal, θ', -, -, -, -, hmodels⟩ := hload n g hg
    have hsizes := Operation.sizes_runAll hg
    have hload' : (m.load g).Numbered := hm.numbered.congr rfl rfl (Nat.le_refl _) rfl rfl
    have hloaded : (m.load g).Formed P := hm.update hload' (hsizes.args.trans hm.args_length)
      (hsizes.temps.trans hm.temps_length) rfl fun c hc => .inl hc
    refine ⟨hcalls.formed hloaded ⟨_, hmodels⟩ (Env.below_setVars _ |>.2 henv), ?_⟩
    obtain ⟨-, -, -, -, -, rfl | ⟨e, rfl⟩⟩ := hcalls.registers
    · trivial
    · trivial
  | @builtinFails env ops f arity n k code g _ _ _ hg hf hnoted =>
    have hsizes := Operation.sizes_runAll hg
    exact ⟨hm.update hnum (hsizes.args.trans hm.args_length) (hsizes.temps.trans hm.temps_length) rfl
      fun c hc => .inl hc, trivial⟩
  | @builtinStops env ops f arity n k code g _ _ e hg =>
    have hsizes := Operation.sizes_runAll hg
    exact ⟨hm.update hnum (hsizes.args.trans hm.args_length) (hsizes.temps.trans hm.temps_length) rfl
      fun c hc => .inl hc, trivial⟩
  | @builtin env ops f arity n k code g b _ _ hg hf =>
    have hsizes := Operation.sizes_runAll hg
    obtain ⟨henv, fs, hrun⟩ := hc
    obtain ⟨r, θ, call, es, fs', -, -, -, hload⟩ := hrun.builtin hP hm.args_length
    obtain ⟨us, θ', -, -, -, -, hmodels⟩ := hload n g hg
    exact ⟨hm.update hnum (hsizes.args.trans hm.args_length) (hsizes.temps.trans hm.temps_length) rfl
      fun c hc => .inl hc, hbelow, _, hmodels.running _⟩
  | empty => exact ⟨hm, trivial⟩
  | spent hstack => exact ⟨hm.popped hstack, trivial⟩
  | @full c rest cl cls args ground _ _ e hstack halt =>
    exact ⟨hm.keep hnum hstack (halt ▸ .clause cl cls args ground) hm.args_length hm.temps_length rfl
      rfl, trivial⟩
  | @refuse c rest cl cls args ground _ _ _ n g hstack halt henter hargs htemps hnoted =>
    exact ⟨hm.keep hnum hstack (halt ▸ .clause cl cls args ground) hargs
      (htemps.trans hm.temps_length) rfl rfl, trivial⟩
  | @enter c rest cl cls args ground _ _ _ n g θ code hstack halt henter hargs htemps hrun hnoted =>
    obtain ⟨fs, hmodels⟩ := (top hstack).models
    exact ⟨hm.keep hnum hstack (halt ▸ .clause cl cls args ground) hargs
      (htemps.trans hm.temps_length) rfl rfl, hbelow, _, hrun _ rfl fs hmodels⟩
  | @missFact c rest goal fact facts _ _ n hstack halt hu =>
    exact ⟨hm.keep hnum hstack (halt ▸ .fact goal fact facts) hm.args_length hm.temps_length rfl rfl,
      trivial⟩
  | @fact c rest goal fact facts _ _ _ n b hstack halt hu hnoted =>
    obtain ⟨fs, hmodels⟩ := (top hstack).models
    exact ⟨hm.keep hnum hstack (halt ▸ .fact goal fact facts) hm.args_length hm.temps_length rfl rfl,
      hbelow, fs, hmodels.running _⟩
  | @missAnswer c rest goal fact facts _ _ n hstack halt hu =>
    exact ⟨hm.keep hnum hstack (halt ▸ .answer goal fact facts) hm.args_length hm.temps_length rfl rfl,
      trivial⟩
  | @storedAnswer c rest goal fact facts _ _ _ n b hstack halt hu hnoted =>
    exact ⟨hm.keep hnum hstack (halt ▸ .answer goal fact facts) hm.args_length hm.temps_length rfl rfl,
      trivial⟩
  | @missResult c rest consumer goal t _ _ _ n hstack halt hread hu =>
    exact ⟨hm.keep hnum hstack (halt ▸ .result consumer goal) hm.args_length hm.temps_length rfl rfl,
      trivial⟩
  | @result c rest consumer goal t _ _ _ n b hstack halt hread hu =>
    obtain ⟨fs, hmodels⟩ := (top hstack).models
    exact ⟨hm.keep hnum hstack (halt ▸ .result consumer goal) hm.args_length hm.temps_length rfl rfl,
      hbelow, fs, hmodels.running _⟩
  | exhausted hstack => exact ⟨hm.popped hstack, trivial⟩
  | @park c rest consumer goal _ _ _ hstack halt hread hnoted =>
    have hpop := hm.popped hstack
    refine ⟨⟨hpop.args_length, hpop.temps_length, hpop.stack, fun {x d} hd => ?_, hnum⟩, trivial⟩
    change ((m.popped c rest).suspended.insert consumer c)[x]? = some d at hd
    rw [Std.TreeMap.getElem?_insert] at hd
    split at hd
    · cases hd
      exact top hstack
    · exact hm.suspended hd

/-! ## Sessions -/

theorem Session.Formed.sameTables (h : s.Formed P) (hs : s.SameTables s') : s'.Formed P := by
  refine ⟨fun {g gen' m} hg hm => ?_⟩
  obtain ⟨gen, hgen, -, -, e | e⟩ := hs.generator hg
  · exact h.machine hgen (e ▸ hm)
  · rw [e] at hm
    cases hm

theorem Session.Formed.generatorFor (h : s.Formed P) {value : Triple} {x : Except Failure Nat}
    (hg : s.generatorFor (P.world st) value = (x, s')) : s'.Formed P := by
  rcases generatorFor_cases hg with ⟨g, gen, -, -, rfl⟩ | ⟨-, e, -, rfl⟩ | ⟨m, -, hm, -, rfl⟩
  · exact h
  · exact ⟨h.machine⟩
  · refine ⟨fun {g gen m'} hgen hm' => ?_⟩
    rw [generators_withGenerator] at hgen
    split at hgen
    · cases hgen
      cases hm'
      exact (start_sound hm s).formed
    · exact h.machine hgen hm'

theorem Session.Formed.addConsumer (h : s.Formed P) (g : Nat) (owner : Owner) :
    (s.addConsumer g owner).2.Formed P := by
  refine ⟨fun {g' gen' m} hgen' hm => ?_⟩
  rw [generators_addConsumer] at hgen'
  split at hgen'
  · next e =>
    subst e
    obtain ⟨gen, hgen, rfl⟩ := Option.map_eq_some_iff.1 hgen'
    exact h.machine hgen hm
  · exact h.machine hgen' hm

theorem Calls.session_formed {w : World} {env : Env} {code : List Instruction} {call : Call}
    (hw : w = P.world st) (h : Calls P w env code call m s p m' s') (hs : s.Formed P) :
    s'.Formed P := by
  subst hw
  cases h with
  | search => exact hs
  | full => exact hs
  | table _ _ hg => exact (hs.generatorFor hg).addConsumer _ _
  | tableFull hg => exact (hs.generatorFor hg).addConsumer _ _
  | tableRefused hg => exact hs.generatorFor hg

/-- The machines that a turn makes are formed. -/
theorem Turn.session_formed (h : Turn P st control m s p m' s') (hs : s.Formed P) :
    s'.Formed P := by
  have read : ∀ {c : Nat} {r : Session.Reading} {s' : Session}, s.read c = (r, s') →
      s'.Formed P := by
    intro c r s' hread
    have hsame := s.sameTables_read c
    rw [hread] at hsame
    exact hs.sameTables hsame
  cases h with
  | leave hnoted => exact hs.sameTables hnoted.sameTables
  | answer _ hnoted => exact hs.sameTables hnoted.sameTables
  | call _ hcalls => exact hcalls.session_formed rfl hs
  | builtinFails _ _ hnoted => exact hs.sameTables hnoted.sameTables
  | builtinStops => exact hs
  | builtin => exact hs
  | empty => exact hs
  | spent _ _ hnoted => exact hs.sameTables hnoted.sameTables
  | full => exact hs
  | refuse _ _ _ _ _ hnoted => exact hs.sameTables hnoted.sameTables
  | enter _ _ _ _ _ _ hnoted => exact hs.sameTables hnoted.sameTables
  | missFact => exact hs
  | fact _ _ _ hnoted => exact hs.sameTables hnoted.sameTables
  | missAnswer => exact hs
  | storedAnswer _ _ _ hnoted => exact hs.sameTables hnoted.sameTables
  | missResult _ _ hread _ => exact read hread
  | result _ _ hread _ => exact read hread
  | exhausted _ _ _ hnoted =>
    exact hs.sameTables ((s.sameTables_removeConsumer _).trans hnoted.sameTables)
  | park _ _ _ hnoted => exact hs.sameTables ((s.sameTables_block _ _).trans hnoted.sameTables)

/-- A choice point that was put aside is formed, and so is the machine that goes on with it. -/
theorem restore_formed {d : Nat} {x : Except Failure Unit} (hm : m.Formed P)
    (h : m.restore d s = (x, m', s')) : m'.Formed P := by
  have hnum := restore_numbered h hm.numbered
  rcases restore_cases h with ⟨e, -, rfl, -⟩ | ⟨e, -, -, rfl, -⟩ | ⟨c, -, -, hc, rfl, -⟩
  · exact hm
  · exact hm.update hnum hm.args_length hm.temps_length rfl fun c hc => .inl hc
  · refine ⟨hm.args_length, hm.temps_length, fun y hy => ?_,
      fun hy => hm.suspended (Machine.suspended_restored hy).2, hnum⟩
    obtain rfl := List.mem_singleton.1 hy
    exact hm.suspended hc

/-- Nothing but the journal and a consumer changes where a machine goes on. -/
theorem restore_sameTables {d : Nat} {x : Except Failure Unit}
    (h : m.restore d s = (x, m', s')) : s.SameTables s' := by
  have hsame := s.sameTables_modifyConsumer d (f := fun k => { k with suspended := false })
    fun _ => rfl
  rcases restore_cases h with ⟨e, -, -, rfl⟩ | ⟨e, -, -, -, rfl⟩ | ⟨c, -, -, -, -, rfl⟩
  · exact .refl _
  · exact hsame
  · exact hsame.trans (Session.sameTables_note _ _)

theorem resumed_formed {resume : Option Nat} {x : Except Failure Unit} (hm : m.Formed P)
    (h : m.resumed resume s = (x, m', s')) : m'.Formed P ∧ s.SameTables s' := by
  cases resume with
  | none =>
    cases h
    exact ⟨hm, .refl s⟩
  | some c => exact ⟨restore_formed hm h, restore_sameTables h⟩

theorem Session.Formed.modifyGenerator (h : s.Formed P) {g : Nat} {f : Generator → Generator}
    (hf : ∀ gen, s.generators[g]? = some gen → ∀ m, (f gen).machine = some m →
      gen.machine = some m ∨ m.Formed P) : (s.modifyGenerator g f).Formed P := by
  refine ⟨fun {g' gen' m} hgen' hm => ?_⟩
  rw [generators_modifyGenerator] at hgen'
  split at hgen'
  · next e =>
    subst e
    obtain ⟨gen, hgen, rfl⟩ := Option.map_eq_some_iff.1 hgen'
    rcases hf gen hgen m hm with hm | hm
    · exact h.machine hgen hm
    · exact hm
  · exact h.machine hgen' hm

/-- A formed machine is put back. -/
theorem Session.Formed.endPump (h : s.Formed P) (g n : Nat) (hm : m.Formed P) :
    (s.endPump g n m).Formed P := by
  unfold Session.endPump
  split
  · exact h
  · refine Session.Formed.sameTables ?_ (Session.sameTables_note _ _)
    refine h.modifyGenerator fun gen _ m' hm' => .inr ?_
    cases hm'
    exact hm

/-! ## What goes wrong -/

theorem blank_raises {asked : Inquiry → Prop} {goal : Triple} {owner : Owner} {e : Failure}
    (h : Machine.blank (P.world st) goal owner = .error e) : P.Raises asked e := by
  unfold Machine.blank Machine.enterEnv at h
  simp only at h
  split at h
  · cases h
    exact .overflow
  · cases h

theorem start_raises {goal : Triple} {owner : Owner} {e : Failure}
    (h : Machine.start (P.world st) goal owner = .error e) : P.Raises (· = goal.inquiry) e := by
  have facts : ∀ m : Machine, m.standard = goal.standard →
      ((P.world st).store.find m.standard.lookupKey >>= fun facts =>
        m.push (P.world st) .root [.proceed] (.answers m.standard facts)) = .error e →
      P.Raises (· = goal.inquiry) e := by
    intro m hstandard he
    cases hfind : (P.world st).store.find m.standard.lookupKey with
    | error e' =>
      rw [hfind] at he
      cases he
      exact .store (by rw [hstandard]; rfl) hfind
    | ok facts =>
      rw [hfind] at he
      exact Program.raises_push he
  unfold Machine.start at h
  cases hb : Machine.blank (P.world st) goal owner with
  | error e' =>
    rw [hb] at h
    cases h
    exact blank_raises hb
  | ok m =>
    have hstandard := (blank_eq hb).1
    rw [hb] at h
    simp only [bind, Except.bind] at h
    split at h
    · exact facts m hstandard h
    · cases hpush : m.push (P.world st) .root [.proceed]
        (.clauses ((P.world st).rules.codeFor m.standard) m.args goal.isGround) with
      | error e' =>
        rw [hpush] at h
        cases h
        exact Program.raises_push hpush
      | ok m1 =>
        rw [hpush] at h
        refine facts m1 ?_ h
        rcases m.push_eq (P.world st) .root [.proceed] (.clauses
          ((P.world st).rules.codeFor m.standard) m.args goal.isGround) with ⟨e', he⟩ | hok
        · cases hpush.symm.trans he
        · cases hpush.symm.trans hok
          exact hstandard

theorem generatorFor_raises {value : Triple} {e : Failure}
    (h : s.generatorFor (P.world st) value = (.error e, s')) :
    s.generatorOf? value = none ∧ P.Raises (· = value.variantKey.inquiry) e := by
  unfold Session.generatorFor at h
  split at h
  · cases h
  · next hnone =>
    simp only at h
    split at h
    · next e' he =>
      cases h
      exact ⟨hnone, start_raises he⟩
    · cases h

/-- A turn fails only where there is no room, or where the store or a builtin of the program
fails that is asked in it. -/
theorem Turn.raises (hP : P.Compiled) {e : Failure}
    (h : Turn P st control m s (.done (.error e)) m' s') (hm : m.Formed P)
    (hc : control.Fit P m) : P.Raises (control.Asks P m s) e := by
  cases h with
  | call hg hcalls =>
    cases hcalls with
    | full _ _ hraises => exact hraises.mono fun _ => .call hg
    | tableFull _ hraises => exact hraises.mono fun _ => .call hg
    | tableRefused hrefused hc hv =>
      obtain ⟨hnone, hraises⟩ := generatorFor_raises hrefused
      exact hraises.mono fun _ hq => .call hg (hq ▸ .table hc hv hnone)
  | @builtinStops env ops f arity n k code g _ _ _ hg hf =>
    obtain ⟨-, fs, hrun⟩ := hc
    obtain ⟨r, θ, call, es, fs', -, hget, -⟩ := hrun.builtin hP hm.args_length
    unfold Builtin.run at hf
    split at hf
    · cases hf
    · next e' hcall =>
      cases hf
      exact .builtin (.builtin hg) hget rfl hcall
    · cases hf
    · cases hu : g.bindings.unifyAll k _ _ with
      | none =>
        rw [hu] at hf
        cases hf
      | some x =>
        rw [hu] at hf
        cases hf
  | full _ _ hraises => exact hraises.mono fun _ => False.elim

end

end TabledRules
