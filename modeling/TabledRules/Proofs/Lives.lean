-- The life of a machine: it takes step after step, it is asked for the next
-- answer or brought back to a consumer, and the tables change meanwhile. What
-- a step does to the choice points and the environments is said here once.
import TabledRules.Proofs.Numbering
import TabledRules.Proofs.Trails
import TabledRules.Proofs.Ties

namespace TabledRules

/-! ## Moments -/

/-- A machine in the middle of its work, with the tables as they are then. -/
structure Moment where
  control : Control
  machine : Machine
  session : Session

/-- What a machine does after a step, if it has not failed. After an answer, and after it has
found that nothing is left to try, it goes back when it is asked again. -/
def Progress.next? : Progress → Option Control
  | .go control => some control
  | .done (.ok _) => some .backtrack
  | .done (.error _) => none
  | .endless => none

/-- What can happen to a machine without a failure. While it does not run, others may change
the tables as they like, but no number is used again. -/
inductive Moment.Next : Moment → Moment → Prop
  | step {w : World} {n : Nat} {control control' : Control} {m m' : Machine} {s s' : Session}
    {p : Progress} : m.step w n control s = (p, m', s') → p.next? = some control' →
    Next ⟨control, m, s⟩ ⟨control', m', s'⟩
  | restore {consumer : Nat} {m m' : Machine} {s s' : Session} :
    m.restore consumer s = (.ok (), m', s') → Next ⟨.backtrack, m, s⟩ ⟨.backtrack, m', s'⟩
  | others {m : Machine} {s s' : Session} : s.nextId ≤ s'.nextId →
    Next ⟨.backtrack, m, s⟩ ⟨.backtrack, m, s'⟩

/-- The machine was just made, for a generator or for a query. -/
inductive Moment.Start : Moment → Prop
  | generator {w : World} {goal : Triple} {owner : Owner} {m : Machine} (s : Session) :
    Machine.start w goal owner = .ok m → Start ⟨.backtrack, m, s⟩
  | query {w : World} {goal : Triple} {query : Nat} {m : Machine} {s s' : Session} :
    Machine.startQuery w goal query s = (.ok m, s') → Start ⟨.backtrack, m, s'⟩

section
variable {w : World} {n fuel : Nat} {control control' : Control} {m m' : Machine}
  {s s' : Session} {p : Progress}

/-! ## What a step does -/

/-- What a step does to the choice points and the environments of a machine. -/
inductive Machine.Goes (m : Machine) (s : Session) : Control → Control → Machine → Session → Prop
  /-- The clause goes on. -/
  | on {env : Env} {code rest : List Instruction} {b : Bindings} {args : List Term}
    {temps vars : List (Option Term)} {s' : Session} : s'.nextId = s.nextId →
    m.bindings.Follows b →
    Goes m s (.run env code) (.run (env.setVars vars) rest)
      { m with bindings := b, args := args, temps := temps } s'
  /-- The clause fails, or the machine has an answer. -/
  | fails {env : Env} {code : List Instruction} {s' : Session} : s'.nextId = s.nextId →
    Goes m s (.run env code) .backtrack m s'
  /-- The clause has succeeded. -/
  | returns {i : Nat} {cl : Clause} {vars : List (Option Term)} {caller : Env}
    {code back : List Instruction} {commit : Option Nat} {s' : Session} : s'.nextId = s.nextId →
    Goes m s (.run (.frame i cl vars caller back commit) code) (.run caller back)
      (m.left commit) s'
  /-- The clause calls a goal. A consumer is a new one. -/
  | calls {env : Env} {code rest : List Instruction} {cls : List Clause} {ground : Bool}
    {a : Alternatives} {s' : Session} : s.nextId ≤ s'.nextId →
    (∀ d goal, a = .results d goal → s.nextId ≤ d ∧ d < s'.nextId) →
    Goes m s (.run env code) .backtrack ((m.pushedClauses env rest cls ground).pushed env rest a) s'
  | empty : m.stack = [] → Goes m s .backtrack .backtrack m s
  | leaves {c : Choice} {rest : List Choice} {s' : Session} : m.stack = c :: rest →
    s'.nextId = s.nextId → Goes m s .backtrack .backtrack (m.popped c rest) s'
  /-- An alternative is tried in vain, or is itself an answer. -/
  | keeps {c : Choice} {rest : List Choice} {a : Alternatives} {s' : Session} :
    m.stack = c :: rest → (∀ d goal, a = .results d goal → c.alternatives = a) →
    s'.nextId = s.nextId → Goes m s .backtrack .backtrack ((m.popped c rest).keep c a) s'
  /-- The machine goes on where the choice point was made. -/
  | resumes {c : Choice} {rest : List Choice} {a : Alternatives} {b : Bindings} {s' : Session} :
    m.stack = c :: rest → (∀ d goal, a = .results d goal → c.alternatives = a) →
    (m.popped c rest).bindings.Follows b →
    s'.nextId = s.nextId →
    Goes m s .backtrack (.run c.env c.code) { (m.popped c rest).keep c a with bindings := b } s'
  /-- A clause is taken up. -/
  | enters {c : Choice} {rest : List Choice} {cl : Clause} {cls : List Clause} {args : List Term}
    {ground : Bool} {s' : Session} : m.stack = c :: rest → s'.nextId = s.nextId →
    Goes m s .backtrack
      (.run (c.entered (m.popped c rest).envs cl (List.replicate cl.permanents none) ground) cl.code)
      (((m.popped c rest).keep c (.clauses cls args ground)).entering args) s'
  /-- A consumer has to wait. -/
  | parks {c : Choice} {rest : List Choice} {d : Nat} {goal : Triple} {s' : Session} :
    m.stack = c :: rest → c.alternatives = .results d goal → s'.nextId = s.nextId →
    Goes m s .backtrack .backtrack ((m.popped c rest).parked c d) s'

theorem nextId_generatorFor (w : World) (goal : Triple) (s : Session) :
    s.nextId ≤ (s.generatorFor w goal).2.nextId := by
  unfold Session.generatorFor
  split
  · exact Nat.le_refl _
  · simp only
    split <;> exact Nat.le_succ _

theorem nextId_block (s : Session) (owner : Owner) (d : Nat) :
    (s.block owner d).nextId = s.nextId := by
  unfold Session.block
  cases owner <;> rfl

theorem nextId_read (s : Session) (d : Nat) : (s.read d).2.nextId = s.nextId := by
  unfold Session.read
  split
  · rfl
  · split
    · rfl
    · split <;> rfl

/-- The machine goes on where a choice point was made, or goes back. -/
theorem goes_tryTriple {c : Choice} {rest : List Choice} {a : Alternatives} {goal t : Triple}
    {found : Session} (hstack : m.stack = c :: rest)
    (ha : ∀ d goal, a = .results d goal → c.alternatives = a)
    (hs' : s'.nextId = s.nextId) (hfound : found.nextId = s.nextId)
    {s1 : Session}
    (h : ((m.popped c rest).keep c a).tryTriple n c goal t s' found = (p, m', s1))
    (hp : p.next? = some control') : Machine.Goes m s .backtrack control' m' s1 := by
  rw [Machine.tryTriple, Machine.bindings_keep] at h
  rcases hu : (m.popped c rest).bindings.unifyTriple n goal t with _ | _ | b
  · rw [hu] at h
    cases h
    cases hp
  · rw [hu] at h
    cases h
    cases hp
    exact .keeps hstack ha hs'
  · rw [hu] at h
    cases h
    cases hp
    exact .resumes hstack ha (fun hb => hb.unifyAll hu) hfound

theorem goes_tryResult {c : Choice} {rest : List Choice} {d : Nat} {goal : Triple}
    (hstack : m.stack = c :: rest) (halt : c.alternatives = .results d goal)
    (h : (m.popped c rest).tryResult n c d goal s = (p, m', s'))
    (hp : p.next? = some control') : Machine.Goes m s .backtrack control' m' s' := by
  unfold Machine.tryResult at h
  have hid := nextId_read s d
  split at h
  · next t s1 hread =>
    rw [hread] at hid
    exact goes_tryTriple hstack (fun _ _ e => halt) hid hid h hp
  · next s1 hread =>
    rw [hread] at hid
    cases h
    cases hp
    exact .leaves hstack ((Session.nextId_removeConsumer s1 d).trans hid)
  · next s1 hread =>
    rw [hread] at hid
    cases h
    cases hp
    exact .parks hstack halt ((nextId_block s1 m.owner d).trans hid)

/-- What a machine does that goes back to a choice point. -/
theorem goes_retry {c : Choice} {rest : List Choice} (hstack : m.stack = c :: rest)
    (h : (m.popped c rest).retry w n c s = (p, m', s')) (hp : p.next? = some control') :
    Machine.Goes m s .backtrack control' m' s' := by
  cases halt : c.alternatives with
  | clauses cls args ground =>
    cases cls with
    | nil =>
      simp only [Machine.retry, halt, Machine.leave] at h
      cases h
      cases hp
      exact .leaves hstack rfl
    | cons cl cls =>
      simp only [Machine.retry, halt] at h
      split at h
      · cases h
        cases hp
        exact .leaves hstack rfl
      · unfold Machine.enterClause Machine.enterEnv at h
        simp only at h
        split at h
        · next hfull =>
          split at hfull <;> cases hfull
          cases h
          cases hp
        · next m1 hroom =>
          split at hroom <;> cases hroom
          cases h
          cases hp
          refine .enters hstack ?_
          split <;> rfl
  | facts goal facts =>
    cases facts with
    | nil =>
      simp only [Machine.retry, halt, Machine.leave] at h
      cases h
      cases hp
      exact .leaves hstack rfl
    | cons fact facts =>
      rw [retry_fact halt] at h
      have hfound : (s.note (.factMatched fact)).nextId = s.nextId := rfl
      exact goes_tryTriple (a := .facts goal facts) hstack (by rintro _ _ ⟨⟩) rfl hfound h hp
  | answers goal facts =>
    cases facts with
    | nil =>
      simp only [Machine.retry, halt, Machine.leave] at h
      cases h
      cases hp
      exact .leaves hstack rfl
    | cons fact facts =>
      rw [retry_answer halt, Machine.tryAnswer] at h
      split at h <;> cases h
      · cases hp
      · cases hp
        exact .keeps (a := .answers goal facts) hstack (by rintro _ _ ⟨⟩) rfl
      · cases hp
        exact .keeps (a := .answers goal facts) hstack (by rintro _ _ ⟨⟩) rfl
  | results d goal =>
    rw [retry_result halt] at h
    exact goes_tryResult hstack halt h hp

/-- What a call does. -/
theorem goes_call {env : Env} {code code' : List Instruction} {c : Call}
    (h : m.call w n env code s c = (p, m', s')) (hp : p.next? = some control') :
    Machine.Goes m s (.run env code') control' m' s' := by
  have hend : p ≠ .endless := by
    rintro rfl
    cases hp
  have hw : w = Program.world ⟨{}, w.rules, w.store⟩ w.settings := rfl
  have hcalls := calls_of_call hw h hend
  cases hcalls with
  | search =>
    cases hp
    exact .calls (Nat.le_refl _) fun d goal e => by cases e
  | full => cases hp
  | @table _ value g s1 hc hv hg =>
    cases hp
    have hle := nextId_generatorFor w value s
    have hg : s.generatorFor w value = (.ok g, s1) := hg
    rw [hg] at hle
    have hnew : ∀ d goal, Alternatives.results s1.nextId m.called = .results d goal →
        s.nextId ≤ d ∧ d < (s1.addConsumer g m.owner).2.nextId := by
      intro d goal e
      cases e
      exact ⟨hle, Nat.lt_succ_self _⟩
    change Machine.Goes m s _ _ ((m.pushedClauses env code [] false).pushed env code
      (.results s1.nextId m.called)) _
    exact .calls (Nat.le_succ_of_le hle) hnew
  | tableFull => cases hp
  | tableRefused => cases hp

theorem goes_operate {env : Env} {code code' : List Instruction} {op : Operation}
    (h : m.operate n env code op s = (p, m', s')) (hp : p.next? = some control') :
    Machine.Goes m s (.run env code') control' m' s' := by
  unfold Machine.operate at h
  split at h
  · cases h
    cases hp
  · cases h
    cases hp
  · cases h
    cases hp
    exact .fails rfl
  · next r hr =>
    cases h
    cases hp
    exact .on rfl (Operation.follows_run hr)

theorem goes_builtin {env : Env} {code code' : List Instruction} {f : Builtin} {arity : Nat}
    (h : m.callBuiltin w n env code f arity s = (p, m', s')) (hp : p.next? = some control') :
    Machine.Goes m s (.run env code') control' m' s' := by
  unfold Machine.callBuiltin at h
  split at h
  · cases h
    cases hp
  · split at h
    · cases h
      cases hp
    · cases h
      cases hp
    · cases h
      cases hp
      exact .fails rfl
    · next b hb =>
      cases h
      cases hp
      have hvars : env.setVars env.vars = env := by cases env <;> rfl
      have hgoes : Machine.Goes m s (.run env code') (.run (env.setVars env.vars) code)
          { m with bindings := b, args := m.args, temps := m.temps } s :=
        .on rfl (Builtin.follows_run hb)
      rwa [hvars] at hgoes

theorem goes_proceed {env : Env} {code : List Instruction}
    (h : m.proceed n env s = (p, m', s')) (hp : p.next? = some control') :
    Machine.Goes m s (.run env code) control' m' s' := by
  unfold Machine.proceed at h
  simp only at h
  split at h
  · split at h <;> cases h
    · cases hp
    · cases hp
      exact .fails rfl
  · cases h
    cases hp
    exact .returns rfl
  · cases h
    cases hp
    exact .returns rfl

theorem step_goes (h : m.step w n control s = (p, m', s')) (hp : p.next? = some control') :
    m.Goes s control control' m' s' := by
  unfold Machine.step at h
  split at h
  · split at h
    · next hnil =>
      cases h
      cases hp
      exact .empty hnil
    · next c rest hstack =>
      split at h
      · cases h
        cases hp
      · exact goes_retry hstack h hp
  · next env code =>
    split at h
    · cases h
      cases hp
    · cases code with
      | nil =>
        cases h
        cases hp
      | cons i code =>
        cases i with
        | operation op => exact goes_operate h hp
        | call c => exact goes_call h hp
        | builtin f arity => exact goes_builtin h hp
        | proceed => exact goes_proceed h hp

end

end TabledRules
