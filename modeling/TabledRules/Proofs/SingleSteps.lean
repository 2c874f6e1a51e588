-- Single steps of a machine, instruction by instruction and choice point by
-- choice point, and the life that a machine leads in one world. Between two
-- runs of a machine the tables change; what is asked of them then is a
-- parameter of the life.
import TabledRules.Proofs.Lives

namespace TabledRules

section

variable {P : Program} {st : Settings} {n : Nat} {m m' : Machine} {s s' : Session} {c : Choice}
  {rest : List Choice} {control control' : Control} {p : Progress} {goal t : Triple}
  {a : Alternatives} {env : Env} {code : List Instruction}

/-! ## Steps -/

/-- The choice point offers the triple for the goal. When it is kept it has `a` to offer, and
the tables are `s'`. -/
inductive Choice.Offers (s : Session) (c : Choice) :
    Triple → Triple → Alternatives → Session → Prop
  | fact {goal fact : Triple} {facts : List Triple} :
    c.alternatives = .facts goal (fact :: facts) → Offers s c goal fact (.facts goal facts) s
  | answer {goal fact : Triple} {facts : List Triple} :
    c.alternatives = .answers goal (fact :: facts) → Offers s c goal fact (.answers goal facts) s
  | result {d : Nat} {goal t : Triple} {s' : Session} : c.alternatives = .results d goal →
    s.read d = (.result t, s') → Offers s c goal t (.results d goal) s'

/-- What a machine does in one step, if it does not fail. -/
inductive Machine.Acts (P : Program) (st : Settings) (n : Nat) (m : Machine) (s : Session) :
    Control → Control → Machine → Session → Prop
  | operation {env : Env} {op : Operation} {code : List Instruction} {g : Registers} :
    op.run env.name n (m.registers env) = some (.ok (some g)) →
    Acts P st n m s (.run env (.operation op :: code)) (.run (env.setVars g.vars) code) (m.load g) s
  | operationFails {env : Env} {op : Operation} {code : List Instruction} {s' : Session} :
    op.run env.name n (m.registers env) = some (.ok none) → s.Noted s' →
    Acts P st n m s (.run env (.operation op :: code)) .backtrack m s'
  | builtin {env : Env} {f : Builtin} {arity : Nat} {code : List Instruction} {b : Bindings} :
    f.run n P.store env.rule? m.bindings (m.args.take arity) = some (.ok (some b)) →
    Acts P st n m s (.run env (.builtin f arity :: code)) (.run env code)
      { m with bindings := b } s
  | builtinFails {env : Env} {f : Builtin} {arity : Nat} {code : List Instruction}
    {s' : Session} : s.Noted s' →
    Acts P st n m s (.run env (.builtin f arity :: code)) .backtrack m s'
  | call {env : Env} {k : Call} {code : List Instruction} {m' : Machine} {s' : Session} :
    Calls P (P.world st) env code k m s (.go .backtrack) m' s' →
    Acts P st n m s (.run env (.call k :: code)) .backtrack m' s'
  /-- A clause has succeeded. -/
  | leave {i : Nat} {cl : Clause} {vars : List (Option Term)} {caller : Env}
    {back code : List Instruction} {commit : Option Nat} {s' : Session} : s.Noted s' →
    Acts P st n m s (.run (.frame i cl vars caller back commit) (.proceed :: code))
      (.run caller back) (m.left commit) s'
  | answer {code : List Instruction} {t : Triple} {s' : Session} : m.solution n = some t →
    s.Noted s' → Acts P st n m s (.run .root (.proceed :: code)) .backtrack m s'
  | empty : m.stack = [] → Acts P st n m s .backtrack .backtrack m s
  | spent {c : Choice} {rest : List Choice} {s' : Session} : m.stack = c :: rest →
    c.Spent m.committed → s.Noted s' → Acts P st n m s .backtrack .backtrack (m.popped c rest) s'
  | enter {c : Choice} {rest : List Choice} {cl : Clause} {cls : List Clause} {args : List Term}
    {ground : Bool} {s' : Session} : m.stack = c :: rest →
    c.alternatives = .clauses (cl :: cls) args ground → m.committed.contains c.id = false →
    s.Noted s' → Acts P st n m s .backtrack
      (.run (c.entered (m.popped c rest).envs cl (List.replicate cl.permanents none) ground) cl.code)
      (((m.popped c rest).keep c (.clauses cls args ground)).entering args) s'
  /-- A triple does not match, or is itself the answer. -/
  | stay {c : Choice} {rest : List Choice} {goal t : Triple} {a : Alternatives}
    {s1 s' : Session} : m.stack = c :: rest → c.Offers s goal t a s1 → s1.Noted s' →
    Acts P st n m s .backtrack .backtrack ((m.popped c rest).keep c a) s'
  | resume {c : Choice} {rest : List Choice} {goal t : Triple} {a : Alternatives} {b : Bindings}
    {s1 s' : Session} : m.stack = c :: rest → c.Offers s goal t a s1 → s1.Noted s' →
    (m.popped c rest).bindings.unifyTriple n goal t = some (some b) →
    Acts P st n m s .backtrack (.run c.env c.code)
      { (m.popped c rest).keep c a with bindings := b } s'
  | exhausted {c : Choice} {rest : List Choice} {d : Nat} {goal : Triple} {s1 s' : Session} :
    m.stack = c :: rest → c.alternatives = .results d goal → s.read d = (.exhausted, s1) →
    (s1.removeConsumer d).Noted s' → Acts P st n m s .backtrack .backtrack (m.popped c rest) s'
  | park {c : Choice} {rest : List Choice} {d : Nat} {goal : Triple} {s1 s' : Session} :
    m.stack = c :: rest → c.alternatives = .results d goal → s.read d = (.pending, s1) →
    (s1.block m.owner d).Noted s' →
    Acts P st n m s .backtrack .backtrack ((m.popped c rest).parked c d) s'

theorem acts_tryTriple {found s1 s2 : Session} (hstack : m.stack = c :: rest)
    (hoffers : c.Offers s goal t a s1) (hfound : s1.Noted found)
    (h : ((m.popped c rest).keep c a).tryTriple n c goal t s1 found = (p, m', s2))
    (hp : p.next? = some control') : m.Acts P st n s .backtrack control' m' s2 := by
  rw [Machine.tryTriple, Machine.bindings_keep] at h
  rcases hu : (m.popped c rest).bindings.unifyTriple n goal t with _ | _ | b
  · rw [hu] at h
    cases h
    cases hp
  · rw [hu] at h
    cases h
    cases hp
    exact .stay hstack hoffers (.refl _)
  · rw [hu] at h
    cases h
    cases hp
    exact .resume hstack hoffers hfound hu

theorem acts_retry (hstack : m.stack = c :: rest)
    (h : (m.popped c rest).retry (P.world st) n c s = (p, m', s'))
    (hp : p.next? = some control') : m.Acts P st n s .backtrack control' m' s' := by
  by_cases hspent : c.Spent (m.popped c rest).committed
  · obtain ⟨s1, hnoted, hretry⟩ := retry_spent (s := s) (n := n) (w := P.world st) hspent
    rw [hretry] at h
    cases h
    cases hp
    exact .spent hstack hspent hnoted
  cases halt : c.alternatives with
  | clauses cls args ground =>
    simp only [Choice.Spent, halt, not_or] at hspent
    cases cls with
    | nil => exact absurd rfl hspent.1
    | cons cl cls =>
      have hopen : m.committed.contains c.id = false := Bool.eq_false_of_not_eq_true hspent.2
      have hopen' : (m.popped c rest).committed.contains c.id = false := hopen
      simp only [Machine.retry, halt, hopen', Bool.false_eq_true, if_false, Machine.enterClause,
        Machine.enterEnv] at h
      split at h
      · next hfull =>
        split at hfull <;> cases hfull
        cases h
        cases hp
      · next m1 hroom =>
        split at hroom <;> cases hroom
        cases h
        cases hp
        refine .enter hstack halt hopen ?_
        split
        · exact ⟨_, _, rfl⟩
        · exact ⟨_, _, rfl⟩
  | facts goal facts =>
    cases facts with
    | nil => exact absurd (show c.Spent _ by simp [Choice.Spent, halt]) hspent
    | cons fact facts =>
      rw [retry_fact halt] at h
      exact acts_tryTriple hstack (.fact halt) (s.noted_note _) h hp
  | answers goal facts =>
    cases facts with
    | nil => exact absurd (show c.Spent _ by simp [Choice.Spent, halt]) hspent
    | cons fact facts =>
      rw [retry_answer halt, Machine.tryAnswer] at h
      split at h <;> cases h
      · cases hp
      · cases hp
        exact .stay hstack (.answer halt) (.refl _)
      · cases hp
        exact .stay hstack (.answer halt) (s.noted_note _)
  | results d goal =>
    rw [retry_result halt, Machine.tryResult] at h
    split at h
    · next t s1 hread => exact acts_tryTriple hstack (.result halt hread) (.refl _) h hp
    · next s1 hread =>
      cases h
      cases hp
      exact .exhausted hstack halt hread (Session.noted_note _ _)
    · next s1 hread =>
      cases h
      cases hp
      exact .park hstack halt hread (Session.noted_note _ _)

theorem acts_execute {i : Instruction}
    (h : m.execute (P.world st) n env code s i = (p, m', s')) (hp : p.next? = some control') :
    m.Acts P st n s (.run env (i :: code)) control' m' s' := by
  cases i with
  | operation op =>
    simp only [Machine.execute, Machine.operate] at h
    split at h
    · cases h
      cases hp
    · cases h
      cases hp
    · next hop =>
      cases h
      cases hp
      exact .operationFails hop (s.noted_note _)
    · next g hop =>
      cases h
      cases hp
      exact .operation hop
  | call k =>
    have hcalls : Calls P (P.world st) env code k m s p m' s' :=
      calls_of_call rfl h fun e => by rw [e] at hp; cases hp
    have hgo : p = .go .backtrack := by
      cases hcalls <;> first | rfl | cases hp
    subst hgo
    cases hp
    exact .call hcalls
  | builtin f arity =>
    simp only [Machine.execute, Machine.callBuiltin] at h
    split at h
    · cases h
      cases hp
    · split at h
      · cases h
        cases hp
      · cases h
        cases hp
      · cases h
        cases hp
        exact .builtinFails ((s.noted_note _).trans (Session.noted_note _ _))
      · next b hb =>
        cases h
        cases hp
        exact .builtin hb
  | proceed =>
    simp only [Machine.execute, Machine.proceed] at h
    split at h
    · split at h
      · cases h
        cases hp
      · next t ht =>
        cases h
        cases hp
        exact .answer ht (s.noted_note _)
    · cases h
      cases hp
      exact .leave (s.noted_note _)
    · cases h
      cases hp
      exact .leave (s.noted_note _)

/-- Every step that does not fail is one of these. -/
theorem acts_of_step (h : m.step (P.world st) n control s = (p, m', s'))
    (hp : p.next? = some control') : m.Acts P st n s control control' m' s' := by
  unfold Machine.step at h
  split at h
  · split at h
    · next hnil =>
      cases h
      cases hp
      exact .empty hnil
    · next c rest hstack =>
      split at h
      · cases h
        cases hp
      · exact acts_retry hstack h hp
  · next env code =>
    split at h
    · cases h
      cases hp
    · cases code with
      | nil =>
        cases h
        cases hp
      | cons i code => exact acts_execute h hp

end

end TabledRules
