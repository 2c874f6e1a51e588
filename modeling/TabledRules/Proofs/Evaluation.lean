-- The solutions of a goal by the plain reading of its rules: what the store has,
-- then each rule in turn, renamed, with its head unified with the goal and its
-- body solved from left to right. The search that keeps to the compiled code finds
-- the same solutions in the same order.
import TabledRules.Proofs.Courses
import TabledRules.Proofs.Observations

namespace TabledRules

open Bindings

/-! ## Renamed rules -/

mutual
/-- The term with the variables of a rule renamed. Each wildcard is a new variable. -/
def Term.rename (name : String → Nat) : Term → Bindings → Term × Bindings
  | .node c, b => (.node c, b)
  | .var v, b => (.ref (name v), b)
  | .app f ts, b =>
    let (ts, b) := Term.renameAll name ts b
    (.app f ts, b)
  | .ref _, b | .any, b => b.newVar

def Term.renameAll (name : String → Nat) : List Term → Bindings → List Term × Bindings
  | [], b => ([], b)
  | t :: ts, b =>
    let (t, b) := Term.rename name t b
    let (ts, b) := Term.renameAll name ts b
    (t :: ts, b)
end

def Triple.rename (name : String → Nat) (t : Triple) (b : Bindings) : Triple × Bindings :=
  let (s, b) := t.subject.rename name b
  let (p, b) := t.predicate.rename name b
  let (o, b) := t.object.rename name b
  (⟨s, p, o⟩, b)

def Term.name? : Term → Option String
  | .var v => some v
  | _ => none

def Entry.leaves : Entry → List Term
  | .triple t => t.leaves
  | .builtin c => Term.leavesOf c.args

namespace Rule

/-- The variables of the rule, each once. -/
def names (r : Rule) : List String :=
  ((r.head.leaves ++ r.body.flatMap Entry.leaves).filterMap Term.name?).eraseDups

/-- The new variables of a rule that is taken up under the bindings. -/
def naming (r : Rule) (b : Bindings) (v : String) : Nat := b.size + r.names.idxOf v

end Rule

/-! ## The interpreter

All of it goes at most `n` deep, into terms and into bodies, and has no outcome where that is not
enough. -/

namespace Program

variable (P : Program)

mutual
/-- The solutions of a called goal: those by the store in its order, then those by the clauses
for it. A ground goal takes those of one clause only, if its call may commit. -/
def evalGoal : Nat → Call → Triple → Bindings → Option (List Bindings)
  | 0, _, _, _ => none
  | n + 1, c, goal, b => do
    let enough ← c.commits n b goal
    let value ← goal.mapTerms? (b.deepDeref n)
    let stored ← b.matching n goal (P.find value.lookupKey)
    let derived ← evalClauses n goal b enough (c.clauses P.rules (goal.mapTerms b.deref))
    some (stored.map Prod.snd ++ derived)

/-- The solutions by some clauses, one clause after the other. If one clause is enough they are
those of the first clause that has any. -/
def evalClauses : Nat → Triple → Bindings → Bool → List Clause → Option (List Bindings)
  | 0, _, _, _, _ => none
  | _ + 1, _, _, _, [] => some []
  | n + 1, goal, b, enough, cl :: cls => do
    let first ← evalRule n goal b cl.rule
    if enough && !first.isEmpty then some first
    else (evalClauses n goal b enough cls).map (first ++ ·)

/-- The rule is renamed, its head is unified with the goal, and its body is solved. The checks of
head variables that the body begins with are made of the goal as it is called. -/
def evalRule : Nat → Triple → Bindings → Rule → Option (List Bindings)
  | 0, _, _, _ => none
  | n + 1, goal, b, r =>
    if (leadingTests r.head r.body).1.all (·.passes b goal) then
      match r.head.rename (r.naming b) (b.grow (b.size + r.names.length)) with
      | (head, b') =>
        match b'.unifyTriple n goal head with
        | none => none
        | some none => some []
        | some (some b') => evalBody n r (r.naming b) r.steps b'
    else some []

/-- The solutions of what is left of a body. -/
def evalBody : Nat → Rule → (String → Nat) → List Entry → Bindings → Option (List Bindings)
  | 0, _, _, _, _ => none
  | _ + 1, _, _, [], b => some [b]
  | n + 1, r, name, .triple pattern :: es, b =>
    match pattern.rename name b with
    | (goal, b) => do
      let found ← evalGoal n (P.callFor r pattern) goal b
      evalEach n r name es found
  | n + 1, r, name, .builtin c :: es, b =>
    match P.registry.get? c.name, Term.renameAll name c.args b with
    | none, _ => none
    | some f, (args, b) =>
      match f.run n P.store (some r) b args with
      | some (.ok (some b)) => evalBody n r name es b
      | some (.ok none) => some []
      | some (.error _) | none => none

/-- The solutions of what is left of a body, from each of some bindings in turn. -/
def evalEach : Nat → Rule → (String → Nat) → List Entry → List Bindings →
    Option (List Bindings)
  | 0, _, _, _, _ => none
  | _ + 1, _, _, _, [] => some []
  | n + 1, r, name, es, b :: bs => do
    let first ← evalBody n r name es b
    let others ← evalEach n r name es bs
    some (first ++ others)
end

/-- The answers to a pattern: the stored triples that match it, then what its clauses make of it. -/
def eval (n : Nat) (pattern : Triple) : Option (List Triple) := do
  let goal := pattern.standard
  let stored ← pattern.unbound.matching n goal (P.find goal.lookupKey)
  let solved ← P.evalClauses n goal pattern.unbound pattern.isGround (P.rules.codeFor goal)
  let derived ← solved.mapM fun b => goal.mapTerms? (b.resolve n)
  some (stored.map Prod.fst ++ derived)

end Program

/-! ### What is renamed -/

section

variable {name : String → Nat} {r : Rule} {e : Entry} {t : Term} {ts us : List Term} {v : String}
  {b b' : Bindings}

theorem Term.mem_leaves_of_mem (h : Term.var v ∈ ts) : Term.var v ∈ Term.leavesOf ts := by
  rw [Term.leavesOf_eq, List.mem_flatMap]
  exact ⟨_, h, by simp [Term.leaves]⟩

theorem Entry.mem_leaves_of_items (h : Term.var v ∈ e.items) : Term.var v ∈ e.leaves := by
  cases e with
  | builtin c => exact Term.mem_leaves_of_mem h
  | triple t =>
    obtain ⟨s, p, o⟩ := t
    cases o with
    | app f ts =>
      simp only [Entry.items, List.mem_cons] at h
      rcases h with rfl | rfl | h
      · simp [Entry.leaves, Triple.leaves, Term.leaves]
      · simp [Entry.leaves, Triple.leaves, Term.leaves]
      · simp [Entry.leaves, Triple.leaves, Term.leaves, Term.mem_leaves_of_mem h]
    | _ =>
      simp only [Entry.items, Triple.terms, List.mem_cons, List.not_mem_nil, or_false] at h
      rcases h with rfl | rfl | h
      · simp [Entry.leaves, Triple.leaves, Term.leaves]
      · simp [Entry.leaves, Triple.leaves, Term.leaves]
      · refine List.mem_append_right _ ?_
        rw [← h]
        exact List.mem_singleton_self _

theorem Rule.mem_names_of_leaves (h : Term.var v ∈ r.head.leaves ++ r.body.flatMap Entry.leaves) :
    v ∈ r.names := by
  unfold Rule.names
  rw [List.mem_eraseDups, List.mem_filterMap]
  exact ⟨_, h, rfl⟩

theorem Rule.mem_names_of_body (he : e ∈ r.body) (h : Term.var v ∈ e.items) : v ∈ r.names :=
  r.mem_names_of_leaves (List.mem_append_right _
    (List.mem_flatMap.2 ⟨e, he, Entry.mem_leaves_of_items h⟩))

/-- A triple is renamed as its items are. -/
theorem Triple.rename_items (name : String → Nat) (t : Triple) (b : Bindings) :
    ∃ us, Term.renameAll name (Entry.triple t).items b = (us, (t.rename name b).2) ∧
      (Entry.triple t).load us = (t.rename name b).1.terms := by
  obtain ⟨s, p, o⟩ := t
  cases o with
  | app f ts => exact ⟨_, rfl, rfl⟩
  | _ => exact ⟨_, rfl, rfl⟩

end

/-! ## Outcomes -/

/-- From some depth on there is an outcome, always the same, and `p` holds of it. -/
def Steady {α : Type} (f : Nat → Option α) (p : α → Prop) : Prop :=
  ∃ k a, p a ∧ ∀ n, k ≤ n → f n = some a

namespace Steady

variable {α β : Type} {f : Nat → Option α} {p q : α → Prop} {a : α}

theorem pure (h : p a) : Steady (fun _ => some a) p := ⟨0, a, h, fun _ _ => rfl⟩

theorem of_mono {n : Nat} (hmono : ∀ {n m a}, n ≤ m → f n = some a → f m = some a)
    (h : f n = some a) (hp : p a) : Steady f p :=
  ⟨n, a, hp, fun _ hm => hmono hm h⟩

theorem bind {g : α → Nat → Option β} {r : β → Prop} (h : Steady f p)
    (hg : ∀ a, p a → Steady (g a) r) : Steady (fun n => (f n).bind fun a => g a n) r := by
  obtain ⟨k, a, ha, hf⟩ := h
  obtain ⟨j, b, hb, hgb⟩ := hg a ha
  refine ⟨max k j, b, hb, fun n hn => ?_⟩
  beta_reduce
  rw [hf n (by omega), Option.bind_some, hgb n (by omega)]

theorem map {g : α → β} {r : β → Prop} (h : Steady f p) (hg : ∀ a, p a → r (g a)) :
    Steady (fun n => (f n).map g) r := by
  obtain ⟨k, a, ha, hf⟩ := h
  refine ⟨k, g a, hg a ha, fun n hn => ?_⟩
  beta_reduce
  rw [hf n hn, Option.map_some]

/-- One more step goes down by one. -/
theorem succ {g : Nat → Option α} (h : Steady g p) (hf : ∀ n, f (n + 1) = g n) : Steady f p := by
  obtain ⟨k, a, ha, hg⟩ := h
  refine ⟨k + 1, a, ha, fun n hn => ?_⟩
  obtain ⟨m, rfl⟩ : ∃ m, n = m + 1 := ⟨n - 1, by omega⟩
  rw [hf, hg m (by omega)]

/-- Once one part has its outcome, one step comes to what the rest does then. -/
theorem after {g : Nat → Option β} {F : Nat → Option β} {r : β → Prop} (h : Steady f (· = a))
    (hg : Steady g r) (hF : ∀ n, f n = some a → F (n + 1) = g n) : Steady F r := by
  obtain ⟨k, _, rfl, hf⟩ := h
  obtain ⟨j, b, hb, hgb⟩ := hg
  refine ⟨max k j + 1, b, hb, fun n hn => ?_⟩
  obtain ⟨m, rfl⟩ : ∃ m, n = m + 1 := ⟨n - 1, by omega⟩
  rw [hF m (hf m (by omega)), hgb m (by omega)]

theorem congr {g : Nat → Option α} (h : Steady g p) (hf : ∀ n, f n = g n) : Steady f p := by
  rwa [show f = g from funext hf]

theorem imp (h : Steady f p) (hpq : ∀ a, p a → q a) : Steady f q := by
  obtain ⟨k, a, ha, hf⟩ := h
  exact ⟨k, a, hpq a ha, hf⟩

end Steady

end TabledRules
