-- The steps of a machine do not depend on ids: machines that are the same but for
-- their ids, in sessions that are, take the same steps, and fail alike.
import TabledRules.Proofs.RaisedCompletion

namespace TabledRules

/-! ## Steps -/

/-- The two machines make the same progress and stay the same but for their ids. -/
structure Along (k : Nat) (x x' : Progress × Machine × Session) : Prop where
  progress : x'.1 = x.1
  machine : x.2.1.Raised k x'.2.1
  session : x.2.2.Raised k x'.2.2

/-- The raised machine, written out. -/
theorem Machine.Raised.elim {k : Nat} {m m' : Machine} (h : m.Raised k m') :
    ∃ t : Std.TreeMap Nat Choice, m' = m.raise k t ∧
      (∀ d : Nat, t[d + k]? = (m.suspended[d]?).map (Choice.raise k)) ∧ m.owner ≠ .query 0 :=
  ⟨m'.suspended, h.eq, h.suspended, h.owner⟩

section

variable {k n : Nat} {w : World} {m m' : Machine} {s s' found found' : Session}

theorem Along.afterPush (hm : m.Raised k m') (hs : s.Raised k s')
    {x x' : Except Failure Machine} (h : Agree (Machine.Raised k) x x') :
    Along k (m.afterPush s x) (m'.afterPush s' x') := by
  cases h with
  | ok h => exact ⟨rfl, h, hs⟩
  | error e => exact ⟨rfl, hm, hs⟩

theorem Along.callStore (hm : m.Raised k m') (hs : s.Raised k s') (env : Env)
    (code : List Instruction) :
    Along k (m.callStore w n env code s) (m'.callStore w n env code s') := by
  obtain ⟨t, rfl, ht, ho⟩ := hm.elim
  unfold Machine.callStore
  rw [show (m.raise k t).calledValue n = m.calledValue n from rfl]
  cases m.calledValue n with
  | none => exact ⟨rfl, hm, hs⟩
  | some goal =>
    simp only
    cases w.store.find goal.lookupKey with
    | error e => exact ⟨rfl, hm, hs⟩
    | ok facts => exact .afterPush hm hs (hm.push env code (.facts m.called facts))

theorem Along.callClauses (hm : m.Raised k m') (hs : s.Raised k s') (env : Env)
    (code : List Instruction) (clauses : List Clause) (ground : Bool) :
    Along k (m.callClauses w n env code clauses ground s)
      (m'.callClauses w n env code clauses ground s') := by
  unfold Machine.callClauses
  split
  · exact .callStore hm hs env code
  · have hpush := hm.push (w := w) env code (.clauses clauses m.args ground)
    rw [hm.fields.2.2.2.1]
    rcases hpush.elim with ⟨e, e1, e2⟩ | ⟨m1, m1', e1, e2, h1⟩
    · rw [e1, show m'.push w env code (.clauses clauses m.args ground) = .error e from e2]
      exact ⟨rfl, hm, hs⟩
    · rw [e1, show m'.push w env code (.clauses clauses m.args ground) = .ok m1' from e2]
      exact .callStore h1 hs env code

theorem Along.callTable (hm : m.Raised k m') (hs : s.Raised k s') (env : Env)
    (code : List Instruction) (goal : Triple) :
    Along k (m.callTable w env code goal s) (m'.callTable w env code goal s') := by
  obtain ⟨hg, h1⟩ := hs.generatorFor w goal
  unfold Machine.callTable
  rcases hf : s.generatorFor w goal with ⟨x, s1⟩
  rcases hf' : s'.generatorFor w goal with ⟨x', s1'⟩
  rw [hf, hf'] at hg h1
  rcases hg.elim with ⟨e, rfl, rfl⟩ | ⟨g, g', rfl, rfl, rfl⟩
  · exact ⟨rfl, hm, h1⟩
  · obtain ⟨hc, h2⟩ := h1.addConsumer g hm.owner
    obtain ⟨t, rfl, ht, ho⟩ := hm.elim
    have hpush := hm.push (w := w) env code (.results (s1.addConsumer g m.owner).1 m.called)
    simp only
    rw [show (m.raise k t).owner = m.owner.raise k from rfl]
    rw [show (Alternatives.results (s1.addConsumer g m.owner).1 m.called).raise k =
      .results ((s1'.addConsumer (g + k) (m.owner.raise k)).1) m.called by rw [hc]; rfl] at hpush
    exact .afterPush hm h2 hpush

theorem Along.call (hm : m.Raised k m') (hs : s.Raised k s') (env : Env)
    (code : List Instruction) (c : Call) :
    Along k (m.call w n env code s c) (m'.call w n env code s' c) := by
  obtain ⟨t, rfl, ht, ho⟩ := hm.elim
  unfold Machine.call
  simp only [show (m.raise k t).called = m.called from rfl,
    show (m.raise k t).bindings = m.bindings from rfl,
    show (m.raise k t).calledValue n = m.calledValue n from rfl]
  split
  · cases m.calledValue n with
    | none => exact ⟨rfl, hm, hs⟩
    | some goal => exact .callTable hm hs env code goal
  · cases if c.mayCommit then m.bindings.areGround n m.called.terms else some false with
    | none => exact ⟨rfl, hm, hs⟩
    | some ground => exact .callClauses hm hs env code _ ground

/-! ### Instructions -/

theorem Along.fail (hm : m.Raised k m') (hs : s.Raised k s') (env : Env) :
    Along k (m.fail env s) (m'.fail env s') :=
  ⟨rfl, hm, hs.note _ _⟩

theorem Along.operate (hm : m.Raised k m') (hs : s.Raised k s') (env : Env)
    (code : List Instruction) (op : Operation) :
    Along k (m.operate n env code op s) (m'.operate n env code op s') := by
  obtain ⟨t, rfl, ht, ho⟩ := hm.elim
  unfold Machine.operate
  simp only [Machine.raise]
  rcases op.run env.name n ⟨m.bindings, m.args, m.temps, env.vars⟩ with - | e | - | r
  · exact ⟨rfl, hm, hs⟩
  · exact ⟨rfl, hm, hs⟩
  · exact .fail hm hs env
  · exact ⟨rfl, ⟨ho, rfl, ht⟩, hs⟩

theorem Along.callBuiltin (hm : m.Raised k m') (hs : s.Raised k s') (env : Env)
    (code : List Instruction) (f : Builtin) (arity : Nat) :
    Along k (m.callBuiltin w n env code f arity s) (m'.callBuiltin w n env code f arity s') := by
  obtain ⟨t, rfl, ht, ho⟩ := hm.elim
  unfold Machine.callBuiltin
  by_cases hfew : m.args.length < arity
  · rw [if_pos hfew, if_pos (show (m.raise k t).args.length < arity from hfew)]
    exact ⟨rfl, hm, hs⟩
  · rw [if_neg hfew, if_neg (show ¬ (m.raise k t).args.length < arity from hfew)]
    simp only [show (m.raise k t).bindings = m.bindings from rfl,
      show (m.raise k t).args = m.args from rfl]
    rcases f.run n w.store env.rule? m.bindings (m.args.take arity) with - | e | - | b
    · exact ⟨rfl, hm, hs⟩
    · exact ⟨rfl, hm, hs⟩
    · exact .fail hm (hs.note _ _) env
    · exact ⟨rfl, ⟨ho, rfl, ht⟩, hs⟩

theorem Along.proceed (hm : m.Raised k m') (hs : s.Raised k s') (env : Env) :
    Along k (m.proceed n env s) (m'.proceed n env s') := by
  obtain ⟨t, rfl, ht, ho⟩ := hm.elim
  unfold Machine.proceed
  cases env with
  | root =>
    simp only [show (m.raise k t).solution n = m.solution n from rfl]
    cases m.solution n with
    | none => exact ⟨rfl, hm, hs.note _ _⟩
    | some t => exact ⟨rfl, hm, hs.note _ _⟩
  | frame id clause vars caller code commit =>
    cases commit with
    | none => exact ⟨rfl, hm, hs.note _ _⟩
    | some id => exact ⟨rfl, ⟨ho, rfl, ht⟩, hs.note _ _⟩

theorem Along.execute (hm : m.Raised k m') (hs : s.Raised k s') (env : Env)
    (code : List Instruction) (i : Instruction) :
    Along k (m.execute w n env code s i) (m'.execute w n env code s' i) := by
  cases i with
  | operation op => exact .operate hm hs env code op
  | call c => exact .call hm hs env code c
  | builtin f arity => exact .callBuiltin hm hs env code f arity
  | proceed => exact .proceed hm hs env

/-! ### Choice points -/

theorem Along.leave (hm : m.Raised k m') (hs : s.Raised k s') (e e' : Event) :
    Along k (m.leave s e) (m'.leave s' e') :=
  ⟨rfl, hm, hs.note e e'⟩

theorem Machine.Raised.keep (hm : m.Raised k m') (c : Choice) (a : Alternatives) :
    (m.keep c a).Raised k (m'.keep (c.raise k) (a.raise k)) := by
  obtain ⟨t, rfl, ht, ho⟩ := hm.elim
  exact ⟨ho, rfl, ht⟩

theorem Along.enterClause (hm : m.Raised k m') (hs : s.Raised k s') (c : Choice)
    (clause : Clause) (args : List Term) (ground : Bool) :
    Along k (m.enterClause w c clause args ground s)
      (m'.enterClause w (c.raise k) clause args ground s') := by
  obtain ⟨t, rfl, ht, ho⟩ := hm.elim
  unfold Machine.enterClause Machine.enterEnv
  by_cases hfull : w.settings.stackLimit ≤ m.envs
  · rw [if_pos (show w.settings.stackLimit ≤ ({ m with args } : Machine).envs from hfull),
      if_pos (show w.settings.stackLimit ≤ ({ m.raise k t with args } : Machine).envs from hfull)]
    exact ⟨rfl, hm, hs⟩
  · rw [if_neg (show ¬ w.settings.stackLimit ≤ ({ m with args } : Machine).envs from hfull),
      if_neg (show ¬ w.settings.stackLimit ≤ ({ m.raise k t with args } : Machine).envs from hfull)]
    refine ⟨rfl, ⟨ho, rfl, ht⟩, Session.Raised.note ?_ _ _⟩
    split
    · exact hs.countEntry clause.id
    · exact hs

theorem Along.tryTriple (hm : m.Raised k m') (hs : s.Raised k s') (hf : found.Raised k found')
    (c : Choice) (goal t : Triple) :
    Along k (m.tryTriple n c goal t s found) (m'.tryTriple n (c.raise k) goal t s' found') := by
  obtain ⟨u, rfl, hu, ho⟩ := hm.elim
  unfold Machine.tryTriple
  rw [show (m.raise k u).bindings = m.bindings from rfl]
  rcases m.bindings.unifyTriple n goal t with - | - | b
  · exact ⟨rfl, hm, hs⟩
  · exact ⟨rfl, hm, hs⟩
  · exact ⟨rfl, ⟨ho, rfl, hu⟩, hf⟩

theorem Along.tryAnswer (hm : m.Raised k m') (hs : s.Raised k s') (goal fact : Triple) :
    Along k (m.tryAnswer n goal fact s) (m'.tryAnswer n goal fact s') := by
  obtain ⟨u, rfl, hu, ho⟩ := hm.elim
  unfold Machine.tryAnswer
  rw [show (m.raise k u).bindings = m.bindings from rfl]
  rcases m.bindings.unifyTriple n goal fact with - | - | b
  · exact ⟨rfl, hm, hs⟩
  · exact ⟨rfl, hm, hs⟩
  · exact ⟨rfl, hm, hs.note _ _⟩

theorem Along.suspend (hm : m.Raised k m') (hs : s.Raised k s') (c : Choice) (d : Nat) :
    Along k (m.suspend c d s) (m'.suspend (c.raise k) (d + k) s') := by
  obtain ⟨t, rfl, ht, ho⟩ := hm.elim
  refine ⟨rfl, ⟨ho, rfl, fun i => ?_⟩, (hs.block m.owner d).note _ _⟩
  change (t.insert (d + k) (c.raise k))[i + k]? = ((m.suspended.insert d c)[i]?).map _
  simp only [Std.TreeMap.getElem?_insert, Std.LawfulEqCmp.compare_eq_iff_eq]
  by_cases e : d = i
  · rw [if_pos e, if_pos (congrArg (· + k) e)]
    rfl
  · rw [if_neg e, if_neg fun e' => e (Nat.add_right_cancel e')]
    exact ht i

theorem Along.tryResult (hm : m.Raised k m') (hs : s.Raised k s') (c : Choice) (d : Nat)
    (goal : Triple) :
    Along k (m.tryResult n c d goal s) (m'.tryResult n (c.raise k) (d + k) goal s') := by
  obtain ⟨hreading, h1⟩ := hs.read d
  unfold Machine.tryResult
  rcases hr : s.read d with ⟨x, s1⟩
  rcases hr' : s'.read (d + k) with ⟨x', s1'⟩
  rw [hr, hr'] at hreading h1
  obtain rfl : x' = x := hreading
  cases x' with
  | result t => exact .tryTriple (hm.keep c (.results d goal)) h1 h1 c goal t
  | exhausted => exact .leave hm (h1.removeConsumer d) _ _
  | pending => exact .suspend hm h1 c d

theorem Along.retry (hm : m.Raised k m') (hs : s.Raised k s') (c : Choice) :
    Along k (m.retry w n c s) (m'.retry w n (c.raise k) s') := by
  obtain ⟨id, env, code, envs, bindings, alternatives⟩ := c
  unfold Machine.retry Choice.raise
  cases alternatives with
  | clauses rest args ground =>
    cases rest with
    | nil => exact .leave hm hs _ _
    | cons clause rest =>
      simp only [Alternatives.raise, hm.fields.2.2.2.2.2.2.2.2]
      split
      · exact .leave hm hs _ _
      · exact .enterClause (hm.keep _ (.clauses rest args ground)) hs _ clause args ground
  | facts goal rest =>
    cases rest with
    | nil => exact .leave hm hs _ _
    | cons fact rest =>
      exact .tryTriple (hm.keep _ (.facts goal rest)) hs (hs.note _ _) _ goal fact
  | answers goal rest =>
    cases rest with
    | nil => exact .leave hm hs _ _
    | cons fact rest => exact .tryAnswer (hm.keep _ (.answers goal rest)) hs goal fact
  | results d goal => exact .tryResult hm hs _ d goal

/-! ## Runs -/

theorem Along.step (hm : m.Raised k m') (hs : s.Raised k s') (control : Control) :
    Along k (m.step w n control s) (m'.step w n control s') := by
  obtain ⟨t, rfl, ht, ho⟩ := hm.elim
  unfold Machine.step
  cases control with
  | backtrack =>
    simp only [show (m.raise k t).stack = m.stack.map (Choice.raise k) from rfl,
      show (m.raise k t).choices = m.choices from rfl]
    cases m.stack with
    | nil => exact ⟨rfl, hm, hs⟩
    | cons c rest =>
      simp only [List.map_cons, show (c.raise k).id = c.id from rfl]
      split
      · exact ⟨rfl, hm, hs⟩
      · have hpopped : Machine.Raised k { m.rewind c with stack := rest }
            { (m.raise k t).rewind (c.raise k) with stack := rest.map (Choice.raise k) } :=
          ⟨ho, rfl, ht⟩
        exact .retry hpopped hs c
  | run env code =>
    simp only [show (m.raise k t).envs = m.envs from rfl]
    split
    · exact ⟨rfl, hm, hs⟩
    · cases code with
      | nil => exact ⟨rfl, hm, hs⟩
      | cons i code => exact .execute hm hs env code i

/-- Two runs come to the same end, or neither comes to one. -/
abbrev RunAlong (k : Nat) {α : Type} : Option (α × Machine × Session) →
    Option (α × Machine × Session) → Prop :=
  Option.Rel fun x x' => x'.1 = x.1 ∧ x.2.1.Raised k x'.2.1 ∧ x.2.2.Raised k x'.2.2

theorem run_raised (fuel : Nat) (hm : m.Raised k m') (hs : s.Raised k s') (control : Control) :
    RunAlong k (Machine.run w fuel control m s) (Machine.run w fuel control m' s') := by
  induction fuel generalizing control m m' s s' with
  | zero => exact .none
  | succ fuel ih =>
    have hstep := Along.step hm hs (w := w) (n := fuel) control
    rw [Machine.run, Machine.run]
    rcases he : m.step w fuel control s with ⟨p, m1, s1⟩
    rcases he' : m'.step w fuel control s' with ⟨p', m1', s1'⟩
    rw [he, he'] at hstep
    obtain ⟨hp, h1, h2⟩ := hstep
    obtain rfl : p' = p := hp
    cases p' with
    | go control => exact ih h1 h2 control
    | done outcome => exact .some ⟨rfl, h1, h2⟩
    | endless => exact .none

theorem next_raised (fuel : Nat) (hm : m.Raised k m') (hs : s.Raised k s') :
    RunAlong k (m.next w fuel s) (m'.next w fuel s') := by
  unfold Machine.next
  rcases rel_elim (run_raised fuel hm hs (w := w) .backtrack) with
    ⟨e1, e2⟩ | ⟨⟨x, m1, s1⟩, ⟨x', m1', s1'⟩, e1, e2, hx, h1, h2⟩
  · rw [e1, e2]
    exact .none
  · rw [e1, e2]
    obtain rfl : x' = x := hx
    rcases x' with e | - | t
    · exact .some ⟨rfl, h1, h2⟩
    · exact .some ⟨rfl, h1, h2⟩
    · exact .some ⟨rfl, h1, h2.note _ _⟩

/-! ## Machines that are restored or start -/

/-- A consumer that has a choice point is restored alike. -/
theorem restore_raised (hm : m.Raised k m') (hs : s.Raised k s') {c : Nat}
    (hc : (s.consumers[c]?).isSome = true)
    (hx : ∃ x, m.suspended[c]? = some x ∧ x.id < m.discard.choices) :
    (m'.restore (c + k) s').1 = (m.restore c s).1 ∧
      (m.restore c s).2.1.Raised k (m'.restore (c + k) s').2.1 ∧
      (m.restore c s).2.2.Raised k (m'.restore (c + k) s').2.2 := by
  obtain ⟨t, rfl, ht, ho⟩ := hm.elim
  obtain ⟨x, hx, hid⟩ := hx
  have hthere : s.consumers.contains c = true := by
    rw [Std.TreeMap.contains_eq_isSome_getElem?, hc]
  have hthere' : s'.consumers.contains (c + k) = true := by
    rw [Std.TreeMap.contains_eq_isSome_getElem?, hs.consumer, Option.isSome_map, hc]
  have hkept : (m.suspended[c]?).filter (fun x => x.id < m.discard.choices) = some x := by
    rw [hx, Option.filter_some, if_pos (decide_eq_true hid)]
  have hkept' : (t[c + k]?).filter (fun x => x.id < m.discard.choices) = some (x.raise k) := by
    rw [ht, hx, Option.map_some, Option.filter_some]
    exact if_pos (decide_eq_true hid)
  have hreleased : Session.Raised k (s.modifyConsumer c fun x => { x with suspended := false })
      (s'.modifyConsumer (c + k) fun x => { x with suspended := false }) :=
    hs.modifyConsumer c (fun _ => rfl) fun _ => rfl
  unfold Machine.restore
  rw [show (m.raise k t).stack.isEmpty = m.stack.isEmpty from List.isEmpty_map, hthere, hthere']
  split
  · exact ⟨rfl, hm, hs⟩
  · simp only [Bool.not_true, Bool.false_eq_true, if_false]
    rw [show (m.discard.suspended[c]?).filter (fun x => x.id < m.discard.choices) = some x from
        hkept, show ((m.raise k t).discard.suspended[c + k]?).filter
          (fun x => x.id < (m.raise k t).discard.choices) = some (x.raise k) from hkept']
    refine ⟨rfl, ⟨ho, rfl, fun d => ?_⟩, hreleased.note _ _⟩
    change (t.erase (c + k))[d + k]? = ((m.suspended.erase c)[d]?).map _
    simp only [Std.TreeMap.getElem?_erase, Std.LawfulEqCmp.compare_eq_iff_eq]
    by_cases e : c = d
    · rw [if_pos e, if_pos (congrArg (· + k) e)]
      rfl
    · rw [if_neg e, if_neg fun e' => e (Nat.add_right_cancel e')]
      exact ht d

theorem startQuery_raised (hs : s.Raised k s') (w : World) (goal : Triple) {q : Nat}
    (hq : 0 < q) :
    Agree (Machine.Raised k) (Machine.startQuery w goal q s).1
        (Machine.startQuery w goal (q + k) s').1 ∧
      (Machine.startQuery w goal q s).2.Raised k (Machine.startQuery w goal (q + k) s').2 := by
  have ho : Owner.query q ≠ .query 0 := fun e => Nat.ne_of_gt hq (Owner.query.inj e)
  unfold Machine.startQuery
  rcases (blank_raised k w goal ho).elim with ⟨e, e1, e2⟩ | ⟨m, m', e1, e2, hm⟩
  · rw [e1, show Machine.blank w goal (.query (q + k)) = .error e from e2]
    exact ⟨.error e, hs⟩
  · rw [e1, show Machine.blank w goal (.query (q + k)) = .ok m' from e2]
    simp only [hm.fields.2.1]
    split
    · exact ⟨start_raised k w goal ho, hs⟩
    · have hcall := Along.callTable hm hs (w := w) .root [.proceed] m.standard
      rcases he : m.callTable w .root [.proceed] m.standard s with ⟨p, m1, s1⟩
      rcases he' : m'.callTable w .root [.proceed] m.standard s' with ⟨p', m1', s1'⟩
      rw [he, he'] at hcall
      obtain ⟨hp, h1, h2⟩ := hcall
      obtain rfl : p' = p := hp
      rcases p' with control | (e | x) | -
      · exact ⟨.ok h1, h2⟩
      · exact ⟨.error e, h2⟩
      · exact ⟨.ok h1, h2⟩
      · exact ⟨.ok h1, h2⟩

end

end TabledRules
