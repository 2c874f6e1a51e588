-- The checks of variables that a body begins with. They are made before the
-- head is matched, so they see the arguments as they are called; the builtin of
-- the same name would see what the head has made of them.
import TabledRules.Proofs.SoundQueries
import TabledRules.Proofs.Trails

namespace TabledRules

open Bindings

/-! ## What the builtins say -/

/-- The values of the variables that stand in a register of the call. -/
def Triple.callValues (head goal : Triple) : Values := fun v =>
  (head.register? v).bind fun arg => goal.terms[arg]?

/-- The standard builtin of an entry is true where the variables of the rule have these values. -/
def Rule.Passes (n : Nat) (store : Store) (r : Rule) (θ : Values) (b : Bindings) : Entry → Prop
  | .builtin c => ∃ f b', Builtin.standard.get? c.name = some f ∧
    f.run n store (some r) (r.putLeaves true θ b c.args).2.2 (r.putLeaves true θ b c.args).1 =
      some (.ok (some b'))
  | .triple _ => False

/-- The entries of a body that are tests in the code. -/
def Rule.testEntries (r : Rule) : List Entry := r.body.take r.tests.length

section

variable {n : Nat} {store : Store} {r : Rule} {θ θ' : Values} {b b' : Bindings} {v : String}
  {a t arg : Term} {head goal : Triple} {e : Entry} {op : Operation}

/-- What is bound stays bound. -/
theorem Bindings.Extends.isBound (h : b.Extends b') (ho : b.Ordered) (ho' : b'.Ordered)
    (ht : b.isBound t = true) : b'.isBound t = true := by
  have hvalue : ∀ v, b.deref t ≠ .ref v := by
    intro v hv
    rw [Bindings.isBound, hv] at ht
    cases ht
  have hsame : b'.deref t = b.deref t := by
    rw [← h.deref_deref ho ho', deref_of_ne_ref hvalue]
  rwa [Bindings.isBound, hsame]

/-- A builtin that only looks at variables is called with the value of the variable. -/
theorem putLeaves_value (r : Rule) (hv : θ v = some a) (ho : b.Ordered) :
    ∃ u, r.putLeaves true θ b [.var v] = ([u], θ, b) ∧ b.deref u = b.deref a := by
  simp only [Rule.putLeaves, Rule.putLeaf, hv]
  split
  · exact ⟨_, rfl, deref_of_isEnd (isEnd_deref ho a)⟩
  · exact ⟨_, rfl, rfl⟩

theorem run_test {rule : Option Rule} {name : String} {arity : Nat} {args : List Term}
    {holds : CallContext → List Term → Option Bool} {yes : Bool}
    (h : holds ⟨b, n, store, rule⟩ args = some yes) :
    (Builtin.test name arity holds).run n store rule b args =
      some (.ok (if yes then some b else none)) := by
  cases yes <;> simp [Builtin.run, Builtin.test, h, unifyAll, unifyEach]

/-- An entry with one variable passes where the test that it calls is true of the value. -/
theorem passes_iff {name : String} {holds : CallContext → List Term → Option Bool} {p : Term → Bool}
    (hget : Builtin.standard.get? name = some (Builtin.test name 0 holds))
    (hholds : ∀ c u, holds c [u] = some (p (c.bindings.deref u))) (hv : θ v = some a)
    (ho : b.Ordered) :
    r.Passes n store θ b (.builtin ⟨name, [.var v]⟩) ↔ p (b.deref a) = true := by
  obtain ⟨u, hput, hu⟩ := putLeaves_value r hv ho
  have hrun : (Builtin.test name 0 holds).run n store (some r) b [u] =
      some (.ok (if p (b.deref a) then some b else none)) := run_test (by rw [hholds, hu])
  constructor
  · rintro ⟨f, b', hf, hb'⟩
    rw [hget] at hf
    cases hf
    rw [hput, hrun] at hb'
    by_contra hno
    rw [if_neg hno] at hb'
    cases hb'
  · intro hyes
    rw [if_pos hyes] at hrun
    exact ⟨_, b, hget, by rw [hput, hrun]⟩

theorem passes_bound (hv : θ v = some a) (ho : b.Ordered) :
    r.Passes n store θ b (.builtin ⟨"bound", [.var v]⟩) ↔ b.isBound a = true :=
  passes_iff (p := fun t => !t.isVar) rfl
    (fun c u => by simp [CallContext.isBound, isBound]) hv ho

theorem passes_unbound (hv : θ v = some a) (ho : b.Ordered) :
    r.Passes n store θ b (.builtin ⟨"unbound", [.var v]⟩) ↔ b.isBound a = false := by
  rw [passes_iff (p := Term.isVar) rfl
    (fun c u => by simp [CallContext.isBound, isBound]) hv ho, isBound, Bool.not_eq_false']

/-! ## What the tests are made from -/

theorem of_argumentTest? (h : e.argumentTest? head = some op) :
    ∃ v arg, head.register? v = some arg ∧
      (e = .builtin ⟨"bound", [.var v]⟩ ∧ op = .testBound arg ∨
        e = .builtin ⟨"unbound", [.var v]⟩ ∧ op = .testUnbound arg) := by
  unfold Entry.argumentTest? at h
  split at h
  · next name v =>
    obtain ⟨arg, harg, hop⟩ := Option.bind_eq_some_iff.1 h
    refine ⟨v, arg, harg, ?_⟩
    split at hop
    · next hname =>
      cases hop
      exact .inl ⟨by rw [hname], rfl⟩
    · split at hop
      · next hname =>
        cases hop
        exact .inr ⟨by rw [hname], rfl⟩
      · cases hop
  · cases h

/-- Each of the entries has its test, in order. -/
theorem testEntries_tests (r : Rule) :
    List.Forall₂ (fun e op => e.argumentTest? r.head = some op) r.testEntries r.tests := by
  unfold Rule.testEntries Rule.tests
  induction r.body with
  | nil => exact .nil
  | cons e es ih =>
    rw [leadingTests]
    split
    · next op hop => exact .cons hop ih
    · exact .nil

theorem callValues_of_register {i : Nat} (h : head.register? v = some i) :
    i < 3 ∧ head.callValues goal v = some (goal.terms.getD i .any) := by
  obtain ⟨hlt, -⟩ := List.idxOf?_eq_some_iff.1 h
  have hlt' : i < goal.terms.length := hlt
  refine ⟨hlt, ?_⟩
  rw [Triple.callValues, h, Option.bind_some, List.getD_eq_getElem?_getD,
    List.getElem?_eq_getElem hlt', Option.getD_some]

/-- A test and the builtin at the call say the same. -/
theorem passes_iff_test (ho : b.Ordered) (h : e.argumentTest? r.head = some op) :
    r.Passes n store (r.head.callValues goal) b e ↔ op.passes b goal = true := by
  obtain ⟨v, arg, hv, ⟨rfl, rfl⟩ | ⟨rfl, rfl⟩⟩ := of_argumentTest? h
  · exact passes_bound (callValues_of_register hv).2 ho
  · rw [passes_unbound (callValues_of_register hv).2 ho, Operation.passes, Bool.not_eq_true']

/-! ## What the head leaves of them -/

theorem matchLeaf_first (hv : θ v = none) (h : matchLeaf n θ b arg (.var v) = some (some (θ', b'))) :
    θ' v = some arg := by
  rw [matchLeaf, hv] at h
  cases h
  exact Values.set_self θ v arg

theorem matchLeaf_other (hne : t ≠ .var v) (h : matchLeaf n θ b arg t = some (some (θ', b'))) :
    θ' v = θ v := by
  obtain ⟨rfl, -⟩ | ⟨w, rfl, -, rfl⟩ := matchLeaf_values h
  · rfl
  · exact Values.set_of_ne θ arg fun e => hne (e ▸ rfl)

theorem matchObject_keeps {object : Term} (h : matchObject n θ b object t = some (some (θ', b')))
    (hv : θ v = some a) : θ' v = some a := by
  unfold matchObject at h
  split at h
  · split at h
    · cases h
    · exact matchLeaves_keeps h hv
  · exact matchLeaf_keeps h hv

/-- A variable keeps the argument in whose register it stands first. -/
theorem matchHead_callValues (h : matchHead n head goal b = some (some (θ, b')))
    {i : Nat} (hv : head.register? v = some i) : θ v = head.callValues goal v := by
  obtain ⟨θ2, b2, hstart, hobject⟩ := matchThen_eq_some h
  obtain ⟨θ1, b1, hsubject, hrest⟩ := matchThen_eq_some hstart
  obtain ⟨_, _, hpredicate, hend⟩ := matchThen_eq_some hrest
  cases hend
  rw [Triple.callValues, hv, Option.bind_some]
  obtain ⟨hlt, hat, hbefore⟩ := List.idxOf?_eq_some_iff.1 hv
  have h1 : head.subject ≠ .var v → θ1 v = none := fun hs => matchLeaf_other hs hsubject
  have h2 : head.subject ≠ .var v → head.predicate ≠ .var v → θ2 v = none := fun hs hp =>
    (matchLeaf_other hp hpredicate).trans (h1 hs)
  match i, hlt, hat, hbefore with
  | 0, _, hat, _ =>
    have hs : head.subject = .var v := by simpa using hat
    rw [hs] at hsubject
    exact matchObject_keeps hobject (matchLeaf_keeps hpredicate (matchLeaf_first rfl hsubject))
  | 1, _, hat, hbefore =>
    have hp : head.predicate = .var v := by simpa using hat
    have hs : head.subject ≠ .var v := by simpa using hbefore 0 (by omega)
    rw [hp] at hpredicate
    exact matchObject_keeps hobject (matchLeaf_first (h1 hs) hpredicate)
  | 2, _, hat, hbefore =>
    have ho : head.object = .var v := by simpa using hat
    have hs : head.subject ≠ .var v := by simpa using hbefore 0 (by omega)
    have hp : head.predicate ≠ .var v := by simpa using hbefore 1 (by omega)
    rw [ho] at hobject
    exact matchLeaf_first (h2 hs hp) hobject

theorem Agrees.of_success {x : Option (Except Failure (Option Registers))}
    {y : Option (Option (Values × Bindings))} {post : Registers → Values → Prop} {g : Registers}
    (h : Agrees x y post) (hx : x = some (.ok (some g))) :
    ∃ θ, y = some (some (θ, g.bindings)) ∧ post g θ := by
  subst hx
  rcases y with _ | _ | ⟨θ, b⟩
  · cases h
  · cases h
  · obtain ⟨g1, hg1, rfl, hpost⟩ := h
    cases hg1
    exact ⟨θ, rfl, hpost⟩

/-- More bindings make no difference to a test of a variable, unless they bind it. -/
theorem passes_after_head (ho : b.Ordered) (ho' : b'.Ordered) (hext : b.Extends b')
    (hv : θ v = some a) (hv' : θ' v = some a)
    (he : e = .builtin ⟨"bound", [.var v]⟩ ∨ e = .builtin ⟨"unbound", [.var v]⟩) :
    (r.Passes n store θ' b' e ↔ r.Passes n store θ b e) ∨
      b.isBound a = false ∧ b'.isBound a = true := by
  cases hbefore : b.isBound a with
  | true =>
    have hafter := hext.isBound ho ho' hbefore
    left
    rcases he with rfl | rfl
    · simp [passes_bound hv ho, passes_bound hv' ho', hbefore, hafter]
    · simp [passes_unbound hv ho, passes_unbound hv' ho', hbefore, hafter]
  | false =>
    cases hafter : b'.isBound a with
    | true => exact .inr ⟨rfl, rfl⟩
    | false =>
      left
      rcases he with rfl | rfl
      · simp [passes_bound hv ho, passes_bound hv' ho', hbefore, hafter]
      · simp [passes_unbound hv ho, passes_unbound hv' ho', hbefore, hafter]

/-- Operations make bindings and take none back. -/
theorem Operation.follows_runAll {clause : String} {g g' : Registers} {ops : List Operation}
    (h : Operation.runAll clause n g ops = some (.ok (some g'))) :
    g.bindings.Follows g'.bindings := by
  induction ops generalizing g with
  | nil =>
    cases h
    exact .of_eq rfl
  | cons op ops ih =>
    rw [Operation.runAll] at h
    split at h
    · next g1 h1 => exact (Operation.follows_run h1).trans (ih h)
    · next hne => exact absurd h (hne g')

end

/-- The checks that a body begins with are made of the call. The code of the tests and the head
succeeds exactly where the code of the head does and each builtin that a test stands for is true
of its variable at the call, before the head is matched. After the head the variables still have the
values of the call, and the builtins say the same as at the call, unless the head has bound what was
unbound. -/
theorem leading_tests_at_call {id : Nat} {r : Rule} {layout : Layout} {R : Registry} {cl : Clause}
    {goal : Triple} {g : Registers} (hcl : Rule.compile id r layout R = .ok cl)
    (hg : r.Called goal g) (hb : g.bindings.Trailed) (n : Nat) (store : Store) :
    cl.code = (r.tests ++ r.headCode).map .operation ++ r.bodyCode layout R ∧
    List.Forall₂ (fun e op => e.argumentTest? r.head = some op) r.testEntries r.tests ∧
    ((∃ g', Operation.runAll r.name n g (r.tests ++ r.headCode) = some (.ok (some g'))) ↔
      (∃ g', Operation.runAll r.name n g r.headCode = some (.ok (some g'))) ∧
        ∀ e ∈ r.testEntries, r.Passes n store (r.head.callValues goal) g.bindings e) ∧
    ∀ g' : Registers, Operation.runAll r.name n g r.headCode = some (.ok (some g')) →
      ∃ θ : Values, r.Entered r.headDraft.known θ g' ∧ ∀ e ∈ r.testEntries, ∃ v a,
        (e = .builtin ⟨"bound", [.var v]⟩ ∨ e = .builtin ⟨"unbound", [.var v]⟩) ∧
        r.head.callValues goal v = some a ∧ θ v = some a ∧
        ((r.Passes n store θ g'.bindings e ↔
            r.Passes n store (r.head.callValues goal) g.bindings e) ∨
          g.bindings.isBound a = false ∧ g'.bindings.isBound a = true) := by
  obtain ⟨hfault, rfl⟩ := of_compile hcl
  obtain ⟨hcode, -, hhead⟩ := headCode_agrees r layout R hfault
  have htests := testEntries_tests r
  refine ⟨hcode, htests, ?_, ?_⟩
  · have hall : (∀ e ∈ r.testEntries, r.Passes n store (r.head.callValues goal) g.bindings e) ↔
        r.tests.all (·.passes g.bindings goal) = true := by
      rw [List.all_eq_true]
      constructor
      · intro hpass op hop
        obtain ⟨e, he, htest⟩ := exists_left htests hop
        exact (passes_iff_test hb.ordered htest).1 (hpass e he)
      · intro hpass e he
        obtain ⟨op, hop, htest⟩ := exists_right htests he
        exact (passes_iff_test hb.ordered htest).2 (hpass op hop)
    have hrun : Operation.runAll r.name n g r.tests =
        some (.ok (if r.tests.all (·.passes g.bindings goal) then some g else none)) :=
      runAll_tests (fun op => test_of_mem) hg.called
    rw [hall, Operation.runAll_append, hrun]
    by_cases h : r.tests.all (·.passes g.bindings goal) = true
    · simp [h]
    · simp [h]
  · intro g' hg'
    obtain ⟨θ, hmatch, hentered⟩ := (hhead n g goal hg).of_success hg'
    obtain ⟨hb', hsince⟩ := Operation.follows_runAll hg' hb
    refine ⟨θ, hentered, fun e he => ?_⟩
    obtain ⟨op, -, htest⟩ := exists_right htests he
    obtain ⟨v, i, hv, he⟩ := of_argumentTest? htest
    have hcall : r.head.callValues goal v = _ := (callValues_of_register hv).2
    have hθ := (matchHead_callValues hmatch hv).trans hcall
    refine ⟨v, _, he.imp And.left And.left, hcall, hθ, ?_⟩
    exact passes_after_head hb.ordered hb'.ordered hsince.toExtends hcall hθ
      (he.imp And.left And.left)

/-! ## A variable that the head binds

The variable stands twice in the head of the rule. A call with a variable for a subject passes the
test, and then the head binds the subject to the object. -/

namespace Same

open Roads (uri)

def rule : Rule :=
  ⟨"same", ⟨.var "x", uri "p", .var "x"⟩, [.builtin ⟨"unbound", [.var "x"]⟩]⟩

def rules : RuleSet := { rules := [rule] }

def clause : Clause :=
  ⟨0, rule, rule.code rules.layout Builtin.standard, rule.placement.permanent.length⟩

theorem compile_rule : Rule.compile 0 rule rules.layout Builtin.standard = .ok clause := by
  have hfault : rule.fault? Builtin.standard = none := by decide +kernel
  rw [Rule.compile, hfault]
  rfl

def goal : Triple := ⟨.ref 0, uri "p", uri "a"⟩

def registers : Registers :=
  { bindings := { size := 1 }
    args := goal.terms ++ List.replicate 5 .any
    temps := List.replicate maxTemporaries none
    vars := [] }

theorem called : rule.Called goal registers where
  vars := by decide +kernel
  temps_length := by decide +kernel
  args_length := by decide +kernel
  called := by decide +kernel

/-- The registers after the head. -/
def entered : Registers :=
  { registers with
    bindings := registers.bindings.bind 0 (uri "a")
    temps := registers.temps.set 0 (some (.ref 0)) }

theorem trailed : registers.bindings.Trailed := .empty 1

theorem head_runs : Operation.runAll rule.name 3 registers rule.headCode = some (.ok (some entered)) := by
  rfl

/-- After the head the variable has a value. -/
theorem not_passes {θ : Values} (h : rule.Entered rule.headDraft.known θ entered) (store : Store) :
    ¬ ∀ e ∈ rule.testEntries, rule.Passes 3 store θ entered.bindings e := by
  intro hall
  have hmem : Term.var "x" ∈ rule.head.flatten := by decide +kernel
  obtain ⟨t, ht⟩ := Option.isSome_iff_exists.1 (h.isSome_iff.2 hmem)
  have htemp := h.met.temp (i := 0) (by decide +kernel) (by decide +kernel) ht
  obtain rfl : t = .ref 0 := by
    change some (some (Term.ref 0)) = some (some t) at htemp
    simpa using htemp.symm
  have hordered : entered.bindings.Ordered :=
    (Operation.follows_runAll head_runs trailed).1.ordered
  have hpass := hall (.builtin ⟨"unbound", [.var "x"]⟩) (by decide +kernel)
  have hunbound := (passes_unbound ht hordered).1 hpass
  exact absurd hunbound (by decide +kernel)

end Same

/-- The test has passed where the builtin fails, of a rule whose head is matched after it. -/
theorem test_passes_before_head_binds :
    Rule.compile 0 Same.rule Same.rules.layout Builtin.standard = .ok Same.clause ∧
    Same.rule.Called Same.goal Same.registers ∧ Same.registers.bindings.Trailed ∧
    (∃ g', Operation.runAll Same.rule.name 3 Same.registers (Same.rule.tests ++ Same.rule.headCode) =
      some (.ok (some g'))) ∧
    ∀ (store : Store) (g' : Registers) (θ : Values),
      Operation.runAll Same.rule.name 3 Same.registers Same.rule.headCode = some (.ok (some g')) →
      Same.rule.Entered Same.rule.headDraft.known θ g' →
      ¬ ∀ e ∈ Same.rule.testEntries, Same.rule.Passes 3 store θ g'.bindings e := by
  refine ⟨Same.compile_rule, Same.called, Same.trailed, ⟨Same.entered, rfl⟩, ?_⟩
  intro store g' θ hrun hentered
  rw [Same.head_runs] at hrun
  cases hrun
  exact Same.not_passes hentered store

/-- The builtin that the test stands for is true at the call. -/
theorem leading_tests_at_call_same :
    (∃ g', Operation.runAll Same.rule.name 3 Same.registers (Same.rule.tests ++ Same.rule.headCode) =
      some (.ok (some g'))) ∧
    Same.rule.testEntries = [.builtin ⟨"unbound", [.var "x"]⟩] ∧
    ∀ e ∈ Same.rule.testEntries, Same.rule.Passes 3 Roads.graph
      (Same.rule.head.callValues Same.goal) Same.registers.bindings e := by
  obtain ⟨-, -, hruns, -⟩ :=
    leading_tests_at_call Same.compile_rule Same.called Same.trailed 3 Roads.graph
  have hsome : ∃ g', Operation.runAll Same.rule.name 3 Same.registers
      (Same.rule.tests ++ Same.rule.headCode) = some (.ok (some g')) := ⟨Same.entered, rfl⟩
  exact ⟨hsome, by decide +kernel, (hruns.1 hsome).2⟩

end TabledRules
