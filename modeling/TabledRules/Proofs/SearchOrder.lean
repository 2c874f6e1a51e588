-- What a machine that reads no table has still to return, in order: what its
-- clauses make of the bindings it has, then what its choice points lead to. Each
-- turn takes one step off the solutions that the plain recursive search has.
import Mathlib.Data.Set.Basic
import TabledRules.Proofs.DirectSearch
import TabledRules.Proofs.Links

namespace TabledRules

/-! ## What is found -/

/-- Answers in their order, and the choice points that clauses commit to on the way. -/
@[ext]
structure Yield where
  answers : List Triple
  commits : Set Nat

namespace Yield

instance : Append Yield := ⟨fun y z => ⟨y.answers ++ z.answers, y.commits ∪ z.commits⟩⟩

/-- Nothing is found. -/
def none : Yield := ⟨[], ∅⟩

@[simp] theorem answers_append (y z : Yield) : (y ++ z).answers = y.answers ++ z.answers := rfl
@[simp] theorem commits_append (y z : Yield) : (y ++ z).commits = y.commits ∪ z.commits := rfl
@[simp] theorem answers_none : none.answers = [] := rfl
@[simp] theorem commits_none : none.commits = ∅ := rfl

@[simp] theorem none_append (y : Yield) : none ++ y = y := by
  ext <;> simp

@[simp] theorem append_none (y : Yield) : y ++ none = y := by
  ext <;> simp

theorem append_assoc (x y z : Yield) : x ++ y ++ z = x ++ (y ++ z) := by
  ext
  · simp
  · simp only [commits_append, Set.union_assoc]

/-- A clause with the solutions `bs` has returned, so it commits if there are any. -/
def mark (commit : Option Nat) (bs : List Bindings) (y : Yield) : Yield :=
  ⟨y.answers, {id | bs ≠ [] ∧ commit = some id} ∪ y.commits⟩

end Yield

/-- What is found from some things one after the other. -/
inductive Each {α : Type} (R : α → Yield → Prop) : List α → Yield → Prop
  | nil : Each R [] .none
  | cons {a : α} {as : List α} {y z : Yield} : R a y → Each R as z → Each R (a :: as) (y ++ z)

section

variable {α : Type} {R : α → Yield → Prop} {a : α} {as bs : List α} {y z : Yield}

theorem Each.single (h : R a y) : Each R [a] y := by
  rw [← y.append_none]
  exact .cons h .nil

theorem Each.append (h : Each R as y) (h' : Each R bs z) : Each R (as ++ bs) (y ++ z) := by
  induction h with
  | nil => rwa [Yield.none_append]
  | cons h1 _ ih =>
    rw [Yield.append_assoc]
    exact .cons h1 ih

theorem Each.commits (h : Each R as y) {s : Set Nat}
    (hR : ∀ a y, R a y → y.commits ⊆ s) : y.commits ⊆ s := by
  induction h with
  | nil => exact Set.empty_subset s
  | cons h1 _ ih => exact Set.union_subset (hR _ _ h1) ih

end

/-- What is left of the body has these solutions. -/
def Frame.Solved (P : Program) (b : Bindings) (f : Frame) (bs : List Bindings) : Prop :=
  ∃ n, P.solveBody n f.rule f.values f.rest b = some bs

/-- What is found from the bindings if the rules that the environment is about are solved in turn,
the innermost first. -/
def Env.Yields (P : Program) (goal : Triple) : Env → List Frame → Bindings → Yield → Prop
  | .root, fs, b, y => fs = [] ∧ ∃ n t, goal.mapTerms? (b.resolve n) = some t ∧ y = ⟨[t], ∅⟩
  | .frame _ _ _ caller _ commit, fs, b, y => ∃ f fs' bs z, fs = f :: fs' ∧ f.Solved P b bs ∧
    Each (caller.Yields P goal fs') bs z ∧ y = z.mark commit bs

/-- What is found at a choice point, where `spent` says that its clauses are given up. -/
def Choice.Yields (P : Program) (goal : Triple) (spent : Prop) (c : Choice) (fs : List Frame)
    (y : Yield) : Prop :=
  match c.alternatives with
  | .clauses cls args ground => (spent → y = .none) ∧ (¬ spent → ∃ n bs,
    P.solveClauses n (goalOf args) c.bindings ground cls = some bs ∧
      Each (c.env.Yields P goal fs) bs y)
  | .facts called ts => ∃ n found, c.bindings.matching n called ts = some found ∧
    Each (c.env.Yields P goal fs) (found.map Prod.snd) y
  | .answers called ts => ∃ n found, c.bindings.matching n called ts = some found ∧
    y = ⟨found.map Prod.fst, ∅⟩
  | .results _ _ => False

/-- The answers that choice points lead to, the last one first. `K` are the choice points that
clauses have committed to. -/
inductive StackYields (P : Program) (goal : Triple) :
    Set Nat → List Choice → List (List Frame) → List Triple → Prop
  | nil {K : Set Nat} : StackYields P goal K [] [] []
  | cons {K : Set Nat} {c : Choice} {cs : List Choice} {fs : List Frame} {fss : List (List Frame)}
    {y : Yield} {ts : List Triple} : c.Yields P goal (c.id ∈ K) fs y →
    StackYields P goal (K ∪ y.commits) cs fss ts →
    StackYields P goal K (c :: cs) (fs :: fss) (y.answers ++ ts)

/-- The choice points that clauses have committed to. -/
def Machine.commits (m : Machine) : Set Nat := {id | id ∈ m.committed}

/-- What the choice points stand in. -/
def Machine.Shows (P : Program) (m : Machine) (fss : List (List Frame)) : Prop :=
  List.Forall₂ (fun c fs => Models P c.env c.code fs) m.stack fss

/-- The answers that a machine returns from here on. -/
def Control.Unfolds (P : Program) (goal : Triple) (m : Machine) (ts : List Triple) :
    Control → Prop
  | .backtrack => ∀ fss, m.Shows P fss → StackYields P goal m.commits m.stack fss ts
  | .run env code => ∀ fs fss, Running P m env code fs → m.Shows P fss → ∃ y rest,
    env.Yields P goal fs m.bindings y ∧
      StackYields P goal (m.commits ∪ y.commits) m.stack fss rest ∧ ts = y.answers ++ rest

/-- The answers that a machine returns from the end of a turn on. -/
def Progress.Unfolds (P : Program) (goal : Triple) (m : Machine) (ts : List Triple) :
    Progress → Prop
  | .go control => control.Unfolds P goal m ts
  | .done (.ok (some t)) => ∃ us, ts = t :: us ∧ Control.Unfolds P goal m us .backtrack
  | .done (.ok none) => ts = []
  | _ => False

/-! ## Environments -/

section

variable {P : Program} {goal : Triple} {env : Env} {b b' : Bindings} {y : Yield} {f f' : Frame}
  {fs : List Frame} {n : Nat}

theorem Env.yields_setVars {vars : List (Option Term)} :
    (env.setVars vars).Yields P goal fs b y ↔ env.Yields P goal fs b y := by
  cases env <;> rfl

/-- Clauses commit to the choice points that the environment names. -/
theorem Env.Yields.commits (h : env.Yields P goal fs b y) (ho : env.Older n) :
    y.commits ⊆ {id | id < n} := by
  induction env generalizing fs b y with
  | root =>
    obtain ⟨-, m, t, -, rfl⟩ := h
    exact Set.empty_subset _
  | frame i cl vars caller back commit ih =>
    obtain ⟨f, fs', bs, z, rfl, -, heach, rfl⟩ := h
    refine Set.union_subset ?_ (heach.commits fun b y hy => ih hy ?_)
    · rintro id ⟨-, rfl⟩
      exact ho _ _ _ _ .here
    · exact fun _ _ _ _ hc => ho _ _ _ _ (.outer hc)

/-- The first rule has come one step further. -/
theorem Env.Yields.step (henv : env.IsFrame)
    (hstep : ∀ bs, f'.Solved P b' bs → f.Solved P b bs)
    (h : env.Yields P goal (f' :: fs) b' y) : env.Yields P goal (f :: fs) b y := by
  obtain ⟨i, cl, vars, caller, back, commit, rfl⟩ := henv
  obtain ⟨f1, fs', bs, z, hfs, hsolved, heach, rfl⟩ := h
  cases hfs
  exact ⟨f, fs, bs, z, rfl, hstep bs hsolved, heach, rfl⟩

/-- The first rule has no solution. -/
theorem Env.Yields.of_fails (henv : env.IsFrame) (h : f.Solved P b []) :
    env.Yields P goal (f :: fs) b .none := by
  obtain ⟨i, cl, vars, caller, back, commit, rfl⟩ := henv
  refine ⟨f, fs, [], .none, rfl, h, .nil, ?_⟩
  ext <;> simp [Yield.mark]

/-- The rest of a body is solved from each solution of its goal. -/
theorem Each.body (hP : P.Deepens) {r : Rule} {θ : Values} {es : List Entry} {i : Nat}
    {cl : Clause} {vars : List (Option Term)} {caller : Env} {back : List Instruction}
    {commit : Option Nat} {bs : List Bindings}
    (h : Each (Env.Yields P goal (.frame i cl vars caller back commit) (⟨r, θ, es⟩ :: fs)) bs y) :
    ∃ n cs z, P.solveEach n r θ es bs = some cs ∧ Each (caller.Yields P goal fs) cs z ∧
      y = z.mark commit cs := by
  induction h with
  | nil =>
    refine ⟨1, [], .none, rfl, .nil, ?_⟩
    ext <;> simp [Yield.mark]
  | @cons b bs y1 y2 h1 _ ih =>
    obtain ⟨f, fs', cs1, z1, hfs, ⟨n1, hsolved⟩, heach1, rfl⟩ := h1
    cases hfs
    obtain ⟨n2, cs2, z2, hrest, heach2, rfl⟩ := ih
    obtain ⟨k, hk⟩ := Program.solveEach_cons hP hsolved hrest
    refine ⟨k, cs1 ++ cs2, z1 ++ z2, hk, heach1.append heach2, ?_⟩
    ext x
    · simp [Yield.mark]
    · simp only [Yield.mark, Yield.commits_append, Set.mem_union, Set.mem_ofPred_eq, ne_eq,
        List.append_eq_nil_iff]
      tauto

end

/-! ## Choice points -/

section

variable {P : Program} {goal : Triple} {K K' : Set Nat} {c : Choice} {cs : List Choice}
  {fs : List Frame} {fss : List (List Frame)} {ts : List Triple}

/-- Only the choice points count that are there. -/
theorem StackYields.congr (h : StackYields P goal K cs fss ts)
    (hK : ∀ c ∈ cs, c.id ∈ K ↔ c.id ∈ K') : StackYields P goal K' cs fss ts := by
  induction h generalizing K' with
  | nil => exact .nil
  | @cons K c cs fs fss y ts h1 _ ih =>
    refine .cons ?_ (ih fun d hd => ?_)
    · rwa [← propext (hK c List.mem_cons_self)]
    · simp only [Set.mem_union, hK d (List.mem_cons_of_mem _ hd)]

/-- Nothing is found at a choice point where nothing is left to try. -/
theorem StackYields.spent {committed : Std.TreeSet Nat} (hspent : c.Spent committed)
    (hK : c.id ∈ K ↔ committed.contains c.id = true) (h : StackYields P goal K cs fss ts) :
    StackYields P goal K (c :: cs) (fs :: fss) ts := by
  have hnone : c.Yields P goal (c.id ∈ K) fs .none := by
    unfold Choice.Spent at hspent
    unfold Choice.Yields
    cases halt : c.alternatives with
    | clauses cls args ground =>
      rw [halt] at hspent
      refine ⟨fun _ => rfl, fun hno => ⟨1, [], ?_, .nil⟩⟩
      rcases hspent with rfl | hc
      · rfl
      · exact absurd (hK.2 hc) hno
    | facts called facts =>
      rw [halt] at hspent
      obtain rfl : facts = [] := hspent
      exact ⟨0, [], rfl, .nil⟩
    | answers called facts =>
      rw [halt] at hspent
      obtain rfl : facts = [] := hspent
      exact ⟨0, [], rfl, rfl⟩
    | results consumer called =>
      rw [halt] at hspent
      exact hspent.elim
  have hK' : StackYields P goal (K ∪ Yield.none.commits) cs fss ts :=
    h.congr fun d _ => by simp
  exact StackYields.cons hnone hK'

section

variable {spent : Prop} {called t : Triple} {facts : List Triple} {n : Nat} {b : Bindings}
  {y z : Yield}

theorem Choice.Yields.fact (halt : c.alternatives = .facts called (t :: facts))
    (hu : c.bindings.unifyTriple n called t = some (some b)) (h : c.env.Yields P goal fs b y)
    {gone : Prop}
    (hrest : ({ c with alternatives := .facts called facts } : Choice).Yields P goal gone fs z) :
    c.Yields P goal spent fs (y ++ z) := by
  obtain ⟨m, found, hfound, heach⟩ := hrest
  obtain ⟨k, hk⟩ := Program.matching_cons hu hfound
  unfold Choice.Yields
  rw [halt]
  exact ⟨k, _, hk, .cons h heach⟩

theorem Choice.Yields.missFact (halt : c.alternatives = .facts called (t :: facts))
    (hu : c.bindings.unifyTriple n called t = some none)
    (hrest : ({ c with alternatives := .facts called facts } : Choice).Yields P goal spent fs z) :
    c.Yields P goal spent fs z := by
  obtain ⟨m, found, hfound, heach⟩ := hrest
  obtain ⟨k, hk⟩ := Program.matching_cons hu hfound
  unfold Choice.Yields
  rw [halt]
  exact ⟨k, _, hk, heach⟩

theorem Choice.Yields.answer (halt : c.alternatives = .answers called (t :: facts))
    (hu : c.bindings.unifyTriple n called t = some (some b))
    (hrest : ({ c with alternatives := .answers called facts } : Choice).Yields P goal spent fs z) :
    c.Yields P goal spent fs ⟨t :: z.answers, z.commits⟩ := by
  obtain ⟨m, found, hfound, rfl⟩ := hrest
  obtain ⟨k, hk⟩ := Program.matching_cons hu hfound
  unfold Choice.Yields
  rw [halt]
  exact ⟨k, _, hk, rfl⟩

theorem Choice.Yields.missAnswer (halt : c.alternatives = .answers called (t :: facts))
    (hu : c.bindings.unifyTriple n called t = some none)
    (hrest : ({ c with alternatives := .answers called facts } : Choice).Yields P goal spent fs z) :
    c.Yields P goal spent fs z := by
  obtain ⟨m, found, hfound, rfl⟩ := hrest
  obtain ⟨k, hk⟩ := Program.matching_cons hu hfound
  unfold Choice.Yields
  rw [halt]
  exact ⟨k, _, hk, rfl⟩

variable {cl : Clause} {cls : List Clause} {args : List Term} {ground : Bool}

theorem Choice.Yields.refuse (hP : P.Deepens)
    (halt : c.alternatives = .clauses (cl :: cls) args ground)
    (henter : cl.rule.enter n (goalOf args) c.bindings = some none)
    (hrest : ({ c with alternatives := .clauses cls args ground } : Choice).Yields P goal spent fs
      z) : c.Yields P goal spent fs z := by
  unfold Choice.Yields
  rw [halt]
  refine ⟨hrest.1, fun hno => ?_⟩
  obtain ⟨m, bs, hbs, heach⟩ := hrest.2 hno
  obtain ⟨k, hk⟩ := Program.solveClauses_cons hP (Program.solveClause_refused henter)
    (fun _ => rfl) hbs
  exact ⟨k, bs, hk, heach⟩

/-- A clause is taken up, and the others are given up if it is enough that it succeeds. -/
theorem Choice.Yields.enter (hP : P.Deepens)
    (halt : c.alternatives = .clauses (cl :: cls) args ground) (hno : ¬ spent) {θ : Values}
    (henter : cl.rule.enter n (goalOf args) c.bindings = some (some (θ, b))) {bs : List Bindings}
    (hbody : Frame.Solved P b ⟨cl.rule, θ, cl.rule.steps⟩ bs)
    (h : Each (c.env.Yields P goal fs) bs y)
    (hrest : ({ c with alternatives := .clauses cls args ground } : Choice).Yields P goal
      (ground = true ∧ bs ≠ []) fs z) : c.Yields P goal spent fs (y ++ z) := by
  obtain ⟨m, hm⟩ := hbody
  obtain ⟨k, hk⟩ := Program.solveClause_entered hP henter hm
  unfold Choice.Yields
  rw [halt]
  refine ⟨fun hs => absurd hs hno, fun _ => ?_⟩
  by_cases henough : ground = true ∧ bs ≠ []
  · obtain rfl := hrest.1 henough
    obtain ⟨rfl, hbs⟩ := henough
    rw [Yield.append_none]
    exact ⟨_, bs, Program.solveClauses_enough hk hbs, h⟩
  · obtain ⟨j, cs, hcs, heach⟩ := hrest.2 henough
    obtain ⟨i, hi⟩ := Program.solveClauses_cons hP hk
      (fun hg => by_contra fun hbs => henough ⟨hg, hbs⟩) hcs
    exact ⟨i, bs ++ cs, hi, h.append heach⟩

end

end

/-! ## Machines that read no table -/

/-- No goal keeps a table. -/
def Program.Untabled (P : Program) : Prop := ∀ p, P.rules.isTabled p = false

/-- The machine has never put a choice point aside, and its clauses commit to older choice points
only. -/
structure Machine.Plain (goal : Triple) (m : Machine) : Prop where
  standard : m.standard = goal
  unpinned : m.pinned = {}
  suspended : ∀ d : Nat, m.suspended[d]? = none
  older : ∀ c ∈ m.stack, c.env.Older c.id
  results : ∀ c ∈ m.stack, ∀ consumer called, c.alternatives ≠ .results consumer called

def Control.Plain (m : Machine) : Control → Prop
  | .backtrack => True
  | .run env _ => env.Older m.choices

/-- The turn is the one that a machine takes: it gives a choice point up where nothing is left to
try, and asks of a called goal that may commit if it is ground. -/
def Control.Exact (P : Program) (m : Machine) (p : Progress) (m' : Machine) : Control → Prop
  | .backtrack => ∀ c rest, m.stack = c :: rest → c.Spent m.committed →
    p = .go .backtrack ∧ m' = m.popped c rest
  | .run env code => ∀ ops c code', code = ops.map .operation ++ .call c :: code' →
    ∃ n k g enough value, Operation.runAll env.name n (m.registers env) ops = some (.ok (some g)) ∧
      c.commits k g.bindings (m.load g).called = some enough ∧
      (m.load g).calledValue k = some value ∧ p = .go .backtrack ∧
      m' = ((m.load g).pushedClauses (env.setVars g.vars) code'
        (c.clauses P.rules ((m.load g).called.mapTerms g.bindings.deref)) enough).pushed
          (env.setVars g.vars) code' (.facts (m.load g).called (P.find value.lookupKey))

section

variable {P : Program} {st : Settings} {goal : Triple} {m m' : Machine} {s s' : Session}
  {c : Choice} {rest : List Choice} {p : Progress} {control : Control} {env : Env}
  {code : List Instruction} {ts : List Triple} {fs : List Frame} {fss : List (List Frame)}

theorem Machine.Plain.popped (h : m.Plain goal) (c : Choice) (rest : List Choice) :
    (m.popped c rest).bindings = c.bindings := by
  rw [bindings_popped, Machine.pinnedVars, h.unpinned]
  simp [Bindings.grow]

theorem Machine.Shows.tail (h : m.Shows P fss) (hstack : m.stack = c :: rest) :
    ∃ fs fss', fss = fs :: fss' ∧ Models P c.env c.code fs ∧
      List.Forall₂ (fun c fs => Models P c.env c.code fs) rest fss' := by
  unfold Machine.Shows at h
  rw [hstack] at h
  obtain ⟨fs, fss', h1, h2, rfl⟩ := List.forall₂_cons_left_iff.1 h
  exact ⟨fs, fss', rfl, h1, h2⟩

theorem Program.Untabled.readsTable (hP : P.Untabled) (r : Rule) (pattern called : Triple) :
    (P.callFor r pattern).readsTable P.rules called = false := by
  have hno : ∀ p, P.rules.layout.isTabled p = false := hP
  unfold Program.callFor Layout.callFor
  simp only [hno, Bool.false_eq_true, if_false]
  split_ifs <;> first | rfl | exact hP _

/-! ## Turns -/

theorem Machine.commits_pushed (env : Env) (code : List Instruction) (a : Alternatives)
    (m : Machine) : (m.pushed env code a).commits = m.commits \ {m.choices} := by
  ext id
  simp only [Machine.commits, Machine.pushed, Std.TreeSet.mem_erase, Set.mem_sdiff,
    Set.mem_ofPred_eq, Set.mem_singleton_iff, ne_eq, Std.LawfulEqCmp.compare_eq_iff_eq]
  rw [and_comm, eq_comm]

theorem Machine.commits_left (commit : Option Nat) (m : Machine) :
    (m.left commit).commits = {id | commit = some id} ∪ m.commits := by
  ext id
  cases commit with
  | none => simp [Machine.left]
  | some i =>
    simp only [Machine.commits, Machine.left, Machine.commit, Std.TreeSet.mem_insert,
      Set.mem_union, Set.mem_ofPred_eq, Option.some.injEq, Std.LawfulEqCmp.compare_eq_iff_eq]

/-- A clause returns. -/
theorem Control.Unfolds.leave (hP : P.Compiled) {i : Nat} {cl : Clause}
    {vars : List (Option Term)} {caller : Env} {back : List Instruction} {commit : Option Nat}
    (h : Control.Unfolds P goal (m.left commit) ts (.run caller back)) :
    Control.Unfolds P goal m ts (.run (.frame i cl vars caller back commit) [.proceed]) := by
  intro fs fss hrun hshows
  obtain ⟨r, θ, fs', rfl, hmodels⟩ := hrun.leave hP
  have hsame : (m.left commit).stack = m.stack ∧ (m.left commit).bindings = m.bindings := by
    cases commit <;> exact ⟨rfl, rfl⟩
  obtain ⟨y, us, hy, hus, rfl⟩ := h fs' fss (hmodels.running _) (by
    unfold Machine.Shows
    rwa [hsame.1])
  rw [hsame.2] at hy
  refine ⟨y.mark commit [m.bindings], us,
    ⟨_, fs', [m.bindings], y, rfl, ⟨1, rfl⟩, .single hy, rfl⟩, ?_, rfl⟩
  rw [m.commits_left, hsame.1] at hus
  refine hus.congr fun c _ => ?_
  simp [Yield.mark]
  tauto

/-- A goal is called: the store is tried first, and then the clauses. -/
theorem Control.Unfolds.call (hP : P.Compiled) (hdeep : P.Deepens) (hm : m.Formed P)
    (holder : env.Older m.choices) {ops : List Operation} {c : Call} {n k : Nat} {g : Registers}
    {enough : Bool} {value : Triple}
    (hg : Operation.runAll env.name n (m.registers env) ops = some (.ok (some g)))
    (henough : c.commits k g.bindings (m.load g).called = some enough)
    (hvalue : (m.load g).calledValue k = some value)
    (h : Control.Unfolds P goal (((m.load g).pushedClauses (env.setVars g.vars) code
      (c.clauses P.rules ((m.load g).called.mapTerms g.bindings.deref)) enough).pushed
        (env.setVars g.vars) code (.facts (m.load g).called (P.find value.lookupKey))) ts
      .backtrack) :
    Control.Unfolds P goal m ts (.run env (ops.map .operation ++ .call c :: code)) := by
  intro fs fss hrun hshows
  obtain ⟨henv, -⟩ | ⟨henv, -⟩ := hrun.shape hP hm.args_length
  · subst henv
    cases hrun.root_frames
    obtain ⟨_, _, _, _, _, hnil, -⟩ := hrun.call hP hm.args_length
    cases hnil
  obtain ⟨r, θ, pattern, es, fs', rfl, rfl, hcall⟩ := hrun.call hP hm.args_length
  obtain ⟨called, θ', hput, -, htake, -, hmodels⟩ := hcall n g hg
  have hcalled : (m.load g).called = called := called_load htake
  unfold Machine.calledValue at hvalue
  rw [hcalled] at h henough hvalue
  have hbelow : ∀ c ∈ m.stack, c.id < m.choices := fun c hc => (hm.numbered.stack c hc).1
  have holder' : (env.setVars g.vars).Older m.choices := holder.setVars _
  -- what the store and the clauses find together is what the recursive search finds
  have finish : ∀ {y : Yield} {us : List Triple} {bs : List Bindings},
      (∃ k, P.solveGoal k (P.callFor r pattern) called g.bindings = some bs) →
      Each ((env.setVars g.vars).Yields P goal (⟨r, θ', es⟩ :: fs')) bs y →
      StackYields P goal (m.commits ∪ y.commits) m.stack fss us → ts = y.answers ++ us →
      ∃ y us, env.Yields P goal (⟨r, θ, .triple pattern :: es⟩ :: fs') m.bindings y ∧
        StackYields P goal (m.commits ∪ y.commits) m.stack fss us ∧ ts = y.answers ++ us := by
    rintro y us bs ⟨k, hk⟩ heach hus rfl
    refine ⟨y, us, ?_, hus, rfl⟩
    obtain ⟨i, cl, vars, caller, back, commit, rfl⟩ := henv
    obtain ⟨j, cs, z, hsolved, hz, rfl⟩ := heach.body hdeep
    obtain ⟨l, hl⟩ := Program.solveBody_goal hdeep hput hk hsolved
    exact ⟨_, fs', cs, z, rfl, ⟨l, hl⟩, hz, rfl⟩
  unfold Machine.pushedClauses at h
  split at h
  · next hempty =>
    have hclauses : (P.callFor r pattern).clauses P.rules (called.mapTerms g.bindings.deref) =
        [] := by simpa using hempty
    obtain h := h ((⟨r, θ', es⟩ :: fs') :: fss) (.cons hmodels hshows)
    rw [Machine.commits_pushed] at h
    cases h with
    | @cons _ _ _ _ _ y us h1 h2 =>
      obtain ⟨n1, found, hfound, heach⟩ := h1
      refine finish (Program.solveGoal_of hdeep henough hvalue hfound
        (by rw [hclauses]; exact rfl : P.solveClauses 1 _ _ _ _ = some [])) ?_ ?_ rfl
      · simpa using heach
      · refine h2.congr fun c hc => ?_
        have := hbelow c hc
        change c.id ∈ m.commits \ {m.choices} ∪ y.commits ↔ _
        simp [Nat.ne_of_lt this]
  · next hsome =>
    obtain h := h ((⟨r, θ', es⟩ :: fs') :: (⟨r, θ', es⟩ :: fs') :: fss)
      (.cons hmodels (.cons hmodels hshows))
    rw [Machine.commits_pushed, Machine.commits_pushed] at h
    cases h with
    | @cons _ _ _ _ _ y us h1 h2 =>
      cases h2 with
      | @cons _ _ _ _ _ z us h2 h3 =>
        obtain ⟨n1, found, hfound, heach⟩ := h1
        have hy : y.commits ⊆ {id | id < m.choices} :=
          heach.commits fun b y hy => hy.commits holder'
        obtain ⟨n2, bs, hbs, heach'⟩ := h2.2 (by
          rintro (⟨⟨-, hne⟩, -⟩ | hin)
          · exact hne rfl
          · exact absurd (hy hin) (Nat.lt_irrefl _))
        change P.solveClauses n2 (goalOf g.args) g.bindings enough _ = _ at hbs
        rw [show goalOf g.args = called from hcalled] at hbs
        have hus : StackYields P goal (m.commits ∪ (y ++ z).commits) m.stack fss us := by
          refine h3.congr fun c hc => ?_
          have := hbelow c hc
          change c.id ∈ (m.commits \ {m.choices}) \ {m.choices + 1} ∪ y.commits ∪ z.commits ↔ _
          have h1 : c.id ≠ m.choices := by omega
          have h2 : c.id ≠ m.choices + 1 := by omega
          simp [h1, h2, or_assoc]
        exact finish (Program.solveGoal_of hdeep henough hvalue hfound hbs) (heach.append heach')
          hus (by simp)

theorem isFrame_of_rule {r : Rule} (h : env.rule? = some r) : env.IsFrame := by
  cases env with
  | root => cases h
  | frame => exact ⟨_, _, _, _, _, _, rfl⟩

theorem Control.Unfolds.builtin (hP : P.Compiled) (hdeep : P.Deepens) (hm : m.Formed P)
    {ops : List Operation} {f : Builtin} {arity n k : Nat} {g : Registers} {b : Bindings}
    (hg : Operation.runAll env.name n (m.registers env) ops = some (.ok (some g)))
    (hf : f.run k P.store env.rule? g.bindings (g.args.take arity) = some (.ok (some b)))
    (h : Control.Unfolds P goal (m.load { g with bindings := b }) ts
      (.run (env.setVars g.vars) code)) :
    Control.Unfolds P goal m ts (.run env (ops.map .operation ++ .builtin f arity :: code)) := by
  intro fs fss hrun hshows
  obtain ⟨r, θ, c, es, fs', rfl, hget, hrule, hcall⟩ := hrun.builtin hP hm.args_length
  obtain ⟨us, θ', hput, -, rfl, -, hmodels⟩ := hcall n g hg
  rw [hrule] at hf
  obtain ⟨y, rest, hy, hrest, rfl⟩ := h _ fss (hmodels.running _) hshows
  refine ⟨y, rest, Env.Yields.step (isFrame_of_rule hrule) (fun bs hbs => ?_)
    (Env.yields_setVars.1 hy), hrest, rfl⟩
  obtain ⟨j, hj⟩ := hbs
  exact Program.solveBody_builtin hdeep hget hput hf hj

theorem Control.Unfolds.builtinFails (hP : P.Compiled) (hm : m.Formed P)
    {ops : List Operation} {f : Builtin} {arity n k : Nat} {g : Registers}
    (hg : Operation.runAll env.name n (m.registers env) ops = some (.ok (some g)))
    (hf : f.run k P.store env.rule? g.bindings (g.args.take arity) = some (.ok none))
    (h : Control.Unfolds P goal (m.load g) ts .backtrack) :
    Control.Unfolds P goal m ts (.run env (ops.map .operation ++ .builtin f arity :: code)) := by
  intro fs fss hrun hshows
  obtain ⟨r, θ, c, es, fs', rfl, hget, hrule, hcall⟩ := hrun.builtin hP hm.args_length
  obtain ⟨us, θ', hput, -, rfl, -, -⟩ := hcall n g hg
  rw [hrule] at hf
  refine ⟨.none, ts, Env.Yields.of_fails (isFrame_of_rule hrule)
    ⟨_, Program.solveBody_fails hget hput hf⟩, ?_, rfl⟩
  exact (h fss hshows).congr fun c _ => by
    change c.id ∈ m.commits ↔ _
    simp

/-- A machine that goes back and puts the choice point back with less to try. -/
theorem Control.Unfolds.back {a : Alternatives} (h : Control.Unfolds P goal m' ts .backtrack)
    (hstack : m.stack = c :: rest)
    (hstack' : m'.stack = { c with alternatives := a } :: rest) (hcommits : m'.commits = m.commits)
    (hyields : ∀ fs y,
      ({ c with alternatives := a } : Choice).Yields P goal (c.id ∈ m.commits) fs y →
      c.Yields P goal (c.id ∈ m.commits) fs y) : Control.Unfolds P goal m ts .backtrack := by
  intro fss hshows
  obtain ⟨fs, fss', rfl, h1, h2⟩ := hshows.tail hstack
  have hunfolds := h (fs :: fss') (by
    unfold Machine.Shows
    rw [hstack']
    exact .cons h1 h2)
  rw [hstack', hcommits] at hunfolds
  rw [hstack]
  cases hunfolds with
  | cons h3 h4 => exact .cons (hyields _ _ h3) h4

/-- A stored triple solves the goal of a choice point. -/
theorem Control.Unfolds.fact (hplain : m.Plain goal) (hstack : m.stack = c :: rest)
    {called fact : Triple} {facts : List Triple} {n : Nat} {b : Bindings}
    (halt : c.alternatives = .facts called (fact :: facts))
    (hu : (m.popped c rest).bindings.unifyTriple n called fact = some (some b))
    (h : Control.Unfolds P goal
      { (m.popped c rest).keep c (.facts called facts) with bindings := b } ts
      (.run c.env c.code)) : Control.Unfolds P goal m ts .backtrack := by
  intro fss hshows
  obtain ⟨fs, fss', rfl, h1, h2⟩ := hshows.tail hstack
  obtain ⟨y, us, hy, hus, rfl⟩ := h fs (fs :: fss') (h1.running _) (.cons h1 h2)
  rw [hplain.popped] at hu
  rw [hstack]
  change StackYields P goal (m.commits ∪ y.commits) (_ :: rest) (fs :: fss') us at hus
  cases hus with
  | @cons _ _ _ _ _ z us h3 h4 =>
    have hrest : StackYields P goal (m.commits ∪ (y ++ z).commits) rest fss' us :=
      h4.congr fun d _ => by simp [or_assoc]
    rw [← List.append_assoc]
    exact StackYields.cons (Choice.Yields.fact halt hu hy h3) hrest

/-- A clause is taken up. -/
theorem Control.Unfolds.enter {n i : Nat} {cl : Clause} {cls : List Clause} {args : List Term}
    {ground : Bool} {θ : Values} {g : Registers}
    (h : Control.Unfolds P goal m' ts (.run (c.entered i cl g.vars ground) code))
    (hdeep : P.Deepens) (hm : m.Formed P) (hplain : m.Plain goal) (hstack : m.stack = c :: rest)
    (halt : c.alternatives = .clauses (cl :: cls) args ground)
    (hopen : c.id ∉ m.commits)
    (henter : cl.rule.enter n (goalOf args) (m.popped c rest).bindings =
      some (some (θ, g.bindings)))
    (hrun : ∀ fs, Models P c.env c.code fs →
      Running P m' (c.entered i cl g.vars ground) code (⟨cl.rule, θ, cl.rule.steps⟩ :: fs))
    (hb : m'.bindings = g.bindings) (hcommits : m'.commits = m.commits)
    (hstack' : m'.stack = { c with alternatives := .clauses cls args ground } :: rest) :
    Control.Unfolds P goal m ts .backtrack := by
  intro fss hshows
  obtain ⟨fs, fss', rfl, h1, h2⟩ := hshows.tail hstack
  obtain ⟨y, us, hy, hus, rfl⟩ := h _ (fs :: fss') (hrun fs h1) (by
    unfold Machine.Shows
    rw [hstack']
    exact .cons h1 h2)
  obtain ⟨f, fs', bs, z, hfs, hsolved, heach, rfl⟩ := hy
  cases hfs
  rw [hb] at hsolved
  rw [hplain.popped] at henter
  have hc : c ∈ m.stack := by rw [hstack]; exact List.mem_cons_self
  have hbelow : ∀ d ∈ rest, d.id < c.id := fun d hd => by
    have := hm.numbered.order
    rw [hstack, List.pairwise_cons] at this
    exact (this.1 d hd).1
  have hz : z.commits ⊆ {id | id < c.id} :=
    heach.commits fun b y hy => hy.commits (hplain.older c hc)
  rw [hstack]
  rw [hstack', hcommits] at hus
  -- the clause commits to the choice point that is gone on with
  have hspent : c.id ∈ m.commits ∪ (z.mark (if ground then some c.id else none) bs).commits ↔
      ground = true ∧ bs ≠ [] := by
    constructor
    · rintro (hin | ⟨hne, hcommit⟩ | hin)
      · exact absurd hin hopen
      · exact ⟨by by_contra hg; simp [hg] at hcommit, hne⟩
      · exact absurd (hz hin) (Nat.lt_irrefl _)
    · rintro ⟨hg, hne⟩
      exact .inr (.inl ⟨hne, by rw [if_pos hg]⟩)
  cases hus with
  | @cons _ _ _ _ _ x us h3 h4 =>
    change Choice.Yields P goal (c.id ∈ _) _ _ _ at h3
    rw [propext hspent] at h3
    have hyields := Choice.Yields.enter hdeep halt hopen henter hsolved heach h3
    have hrest : StackYields P goal (m.commits ∪ (z ++ x).commits) rest fss' us := by
      refine h4.congr fun d hd => ?_
      have hne : c.id ≠ d.id := (Nat.ne_of_lt (hbelow d hd)).symm
      simp only [Yield.mark, Yield.commits_append, Set.mem_union, Set.mem_ofPred_eq]
      cases ground <;> simp [hne, or_assoc]
    rw [← List.append_assoc]
    exact StackYields.cons hyields hrest

end

end TabledRules
