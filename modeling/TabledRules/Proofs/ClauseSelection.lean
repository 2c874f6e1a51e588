-- Which clauses are tried for a goal. They are taken from a list that holds a
-- clause once and in a fixed order, and a clause whose head unifies with the
-- goal is never left out.
import TabledRules.Proofs.Indexes

namespace TabledRules

open Bindings

/-! ## Terms that may be unified -/

/-- Neither is a variable only if both are compound or both are the same. -/
def Term.Compatible (l r : Term) : Prop :=
  l.isVar = true ∨ r.isVar = true ∨ l.isApp = true ∧ r.isApp = true ∨ l = r

/-- With its variables renamed apart from those of the other, one unifies with the other: they have
an instance in common. -/
def Triple.UnifiesApart (goal head : Triple) : Prop := ∃ t, goal.Matches t ∧ head.Matches t

section

variable {l r g : Term} {S T : Term → Term → Prop} {ρ : Term → Term} {b b' : Bindings} {n : Nat}

theorem Term.Instance.compatible (hl : l.Instance S g) (hr : r.Instance T g) : l.Compatible r := by
  cases l with
  | node x =>
    obtain rfl := instance_node.1 hl
    cases r with
    | node y =>
      cases instance_node.1 hr
      exact .inr (.inr (.inr rfl))
    | app f ts =>
      obtain ⟨gs, hg, -⟩ := instance_app.1 hr
      cases hg
    | _ => exact .inr (.inl rfl)
  | app f ts =>
    obtain ⟨gs, rfl, -⟩ := instance_app.1 hl
    cases r with
    | node y => cases instance_node.1 hr
    | app f' ts' => exact .inr (.inr (.inl ⟨rfl, rfl⟩))
    | _ => exact .inr (.inl rfl)
  | _ => exact .inl rfl

/-- Whatever is put in the place of the variables of one of them. -/
theorem compatible_of_unify (h : b.unify n l (r.mapVars ρ) = some (some b')) : l.Compatible r := by
  obtain _ | n := n
  · cases h
  · cases l with
    | node x =>
      cases r with
      | node y =>
        simp only [Term.mapVars, unify, Bindings.deref_node] at h
        by_cases hxy : x = y
        · exact .inr (.inr (.inr (hxy ▸ rfl)))
        · rw [if_neg hxy] at h
          cases h
      | app f ts =>
        simp only [Term.mapVars, unify, Bindings.deref_node, Bindings.deref_app] at h
        cases h
      | _ => exact .inr (.inl rfl)
    | app f ts =>
      cases r with
      | node y =>
        simp only [Term.mapVars, unify, Bindings.deref_node, Bindings.deref_app] at h
        cases h
      | app f' ts' => exact .inr (.inr (.inl ⟨rfl, rfl⟩))
      | _ => exact .inr (.inl rfl)
    | _ => exact .inl rfl

end

/-! ## The clauses of a compiled rule set -/

section

variable {rules : RuleSet} {R : Registry} {base : RuleBase} {goal head t : Triple} {p : Term}
  {cl : Clause} {i : Nat} {r : Rule}

/-- Clauses are numbered as their rules are. -/
theorem ids_of_compile (h : rules.compile R = .ok base) :
    base.clauses.toList.map Clause.id = List.range rules.rules.length := by
  have hall := (clauses_of_compile h).2
  rw [List.range_eq_range', ← List.zipIdx_map_snd]
  generalize rules.rules.zipIdx = ps, base.clauses.toList = cls at hall
  induction hall with
  | nil => rfl
  | cons hp _ ih =>
    obtain ⟨-, rfl⟩ := of_compile hp
    rw [List.map_cons, List.map_cons, ih]

theorem clause_of_rule (h : rules.compile R = .ok base) (hr : rules.rules[i]? = some r) :
    ∃ cl ∈ base.clauses.toList, cl.id = i ∧ cl.rule = r := by
  have hmem : (r, i) ∈ rules.rules.zipIdx := List.mem_zipIdx_iff_getElem?.2 hr
  obtain ⟨cl, hcl, hcompile⟩ := exists_right (clauses_of_compile h).2 hmem
  obtain ⟨-, rfl⟩ := of_compile hcompile
  exact ⟨_, hcl, rfl, rfl⟩

theorem codeFor_sublist (base : RuleBase) (goal : Triple) :
    (base.codeFor goal).Sublist (base.clausesFor goal.predicate) := by
  unfold RuleBase.codeFor
  simp only
  split
  · exact List.filter_sublist
  · exact .refl _

/-- A clause is about one predicate or about all of them. -/
theorem clausesFor_nodup (h : base.clauses.toList.Nodup) (p : Term) :
    (base.clausesFor p).Nodup := by
  rw [RuleBase.clausesFor, RuleBase.ownClauses_eq, RuleBase.wildcards_eq]
  split
  · exact h
  · refine List.nodup_append.2 ⟨h.filter _, h.filter _, ?_⟩
    intro c hc c' hc' e
    subst e
    have hown := (List.mem_filter.1 hc).2
    have hwild := (List.mem_filter.1 hc').2
    simp [hwild] at hown

theorem codeFor_ids_nodup (h : rules.compile R = .ok base) (goal : Triple) :
    ((base.codeFor goal).map Clause.id).Nodup := by
  have hids : (base.clauses.toList.map Clause.id).Nodup := by
    rw [ids_of_compile h]
    exact List.nodup_range
  have hcode := (clausesFor_nodup hids.of_map goal.predicate).sublist (codeFor_sublist base goal)
  refine hcode.map_on fun c hc c' hc' e => ?_
  have hmem : ∀ c ∈ base.codeFor goal, c ∈ base.clauses.toList := fun c hc =>
    (mem_clausesFor.1 (mem_clausesFor_of_codeFor hc)).1
  exact List.inj_on_of_nodup_map hids (hmem c hc) (hmem c' hc') e

/-! ## What is never left out -/

/-- The predicate of a head is no compound term, and where the object of the goal is a node the index
leaves out only heads with another node or a compound term. -/
theorem mem_codeFor_of_compatible (hcl : cl ∈ base.clauses.toList)
    (hhead : cl.rule.headFault = none)
    (hpredicate : goal.predicate.Compatible cl.rule.head.predicate)
    (hobject : goal.object.Compatible cl.rule.head.object) : cl ∈ base.codeFor goal := by
  have happ : cl.rule.head.predicate.isApp = false := (flat_of_headFault hhead).2.1
  refine mem_codeFor (mem_clausesFor.2 ⟨hcl, ?_⟩) ?_
  · rcases hpredicate with h | h | ⟨-, h⟩ | h
    · exact .inl h
    · exact .inr (.inl h)
    · rw [happ] at h
      cases h
    · exact .inr (.inr h.symm)
  · intro x hx
    rw [hx] at hobject
    rcases hobject with h | h | ⟨h, -⟩ | h
    · cases h
    · simp [Clause.mayHaveObject, h]
    · cases h
    · simp [Clause.mayHaveObject, ← h]

theorem Triple.UnifiesApart.compatible (h : goal.UnifiesApart head) :
    goal.predicate.Compatible head.predicate ∧ goal.object.Compatible head.object := by
  obtain ⟨t, ⟨σ, hgoal⟩, τ, hhead⟩ := h
  exact ⟨hgoal.predicate.compatible hhead.predicate, hgoal.object.compatible hhead.object⟩

theorem compatible_of_unifyTriple {ρ : Term → Term} {b b' : Bindings} {n : Nat}
    (h : b.unifyTriple n goal (head.mapVars ρ) = some (some b')) :
    goal.predicate.Compatible head.predicate ∧ goal.object.Compatible head.object := by
  obtain ⟨-, e⟩ | ⟨b1, -, h⟩ := unifyEach_cases h
  · cases e
  · obtain ⟨-, e⟩ | ⟨b2, hpredicate, h⟩ := unifyEach_cases h
    · cases e
    · obtain ⟨-, e⟩ | ⟨b3, hobject, -⟩ := unifyEach_cases h
      · cases e
      · exact ⟨compatible_of_unify hpredicate, compatible_of_unify hobject⟩

/-- The compiler leaves a call of clauses out exactly where there are none. -/
theorem hasCode_iff (h : rules.compile R = .ok base) :
    base.layout.hasCode p = true ↔ base.clausesFor p ≠ [] := by
  have hfor : base.clausesFor p ≠ [] ↔
      ∃ r ∈ rules.rules, p.isVar = true ∨ r.isWildcard = true ∨ r.head.predicate = p := by
    rw [← rules_of_compile h]
    constructor
    · intro hne
      obtain ⟨cl, hcl⟩ := List.exists_mem_of_ne_nil _ hne
      obtain ⟨hmem, hp⟩ := mem_clausesFor.1 hcl
      exact ⟨cl.rule, List.mem_map_of_mem hmem, hp⟩
    · rintro ⟨r, hr, hp⟩
      obtain ⟨cl, hmem, rfl⟩ := List.mem_map.1 hr
      exact List.ne_nil_of_mem (mem_clausesFor.2 ⟨hmem, hp⟩)
  rw [hfor, (clauses_of_compile h).1, Layout.hasCode]
  by_cases hp : p.isVar = true
  · have hrules : rules.layout.hasRules = true ↔ rules.rules ≠ [] := by simp [RuleSet.layout]
    rw [if_pos hp, hrules]
    constructor
    · intro hne
      obtain ⟨r, hr⟩ := List.exists_mem_of_ne_nil _ hne
      exact ⟨r, hr, .inl hp⟩
    · rintro ⟨r, hr, -⟩
      exact List.ne_nil_of_mem hr
  · have hheads : rules.layout.heads.contains p = true ↔
        ∃ r ∈ rules.rules, r.isWildcard = false ∧ r.head.predicate = p := by
      simp [RuleSet.layout, and_assoc]
    have hwild : rules.layout.hasWildcards = true ↔ ∃ r ∈ rules.rules, r.isWildcard = true :=
      List.any_eq_true
    rw [if_neg hp, Bool.or_eq_true, hheads, hwild]
    constructor
    · rintro (⟨r, hr, hw⟩ | ⟨r, hr, -, rfl⟩)
      · exact ⟨r, hr, .inr (.inl hw)⟩
      · exact ⟨r, hr, .inr (.inr rfl)⟩
    · rintro ⟨r, hr, hvar | hw | rfl⟩
      · exact absurd hvar hp
      · exact .inl ⟨r, hr, hw⟩
      · cases hw : r.isWildcard with
        | true => exact .inl ⟨r, hr, hw⟩
        | false => exact .inr ⟨r, hr, hw, rfl⟩

end

/-- Nothing is lost when the clauses for a goal are selected. For every goal they are a part, in the
same order and none of them twice, of the clauses for its predicate; a rule whose head unifies with
the goal, its variables renamed apart, has its clause among them, whether a unifier is known or
unification finds one under some bindings. A predicate is taken to have clauses exactly where there
is one. -/
theorem clause_selection {rules : RuleSet} {R : Registry} {base : RuleBase}
    (h : rules.compile R = .ok base) :
    (∀ goal : Triple,
      ((base.codeFor goal).map Clause.id).Nodup ∧
      (base.codeFor goal).Sublist (base.clausesFor goal.predicate) ∧
      ∀ (i : Nat) (r : Rule), rules.rules[i]? = some r →
        (goal.UnifiesApart r.head ∨
          ∃ (n : Nat) (b b' : Bindings) (ρ : Term → Term),
            b.unifyTriple n goal (r.head.mapVars ρ) = some (some b')) →
        ∃ cl ∈ base.codeFor goal, cl.id = i ∧ cl.rule = r) ∧
    ∀ p : Term, base.layout.hasCode p = true ↔ base.clausesFor p ≠ [] := by
  refine ⟨fun goal => ⟨codeFor_ids_nodup h goal, codeFor_sublist base goal, ?_⟩, fun p => hasCode_iff h⟩
  intro i r hr hunifies
  obtain ⟨cl, hcl, hid, rfl⟩ := clause_of_rule h hr
  have hcompatible : goal.predicate.Compatible cl.rule.head.predicate ∧
      goal.object.Compatible cl.rule.head.object := by
    rcases hunifies with hapart | ⟨n, b, b', ρ, hu⟩
    · exact hapart.compatible
    · exact compatible_of_unifyTriple hu
  have hhead : cl.rule.headFault = none :=
    headFault_of_mem (compiled_of_compile h ({} : Graph).toStore) hcl
  exact ⟨cl, mem_codeFor_of_compatible hcl hhead hcompatible.1 hcompatible.2, hid, rfl⟩

/-! ## An indexed predicate and a rule about every predicate -/

namespace Kinds

open Late (uri)

def wild : Rule := ⟨"wild", ⟨.var "x", .var "p", uri "a"⟩, []⟩

def rules : RuleSet :=
  { rules :=
      [⟨"a", ⟨.var "x", uri "kind", uri "a"⟩, []⟩, ⟨"b", ⟨.var "x", uri "kind", uri "b"⟩, []⟩,
        ⟨"made", ⟨.var "x", uri "kind", .app "f" [.var "x"]⟩, []⟩, wild,
        ⟨"own", ⟨.var "x", uri "kind", .var "x"⟩, []⟩]
    indexed := [uri "kind"] }

def base : RuleBase :=
  (rules.compile Builtin.standard).toOption.getD { clauses := {}, layout := rules.layout }

theorem compile_rules : rules.compile Builtin.standard = .ok base :=
  eq_ok_getD (by decide +kernel) _

/-- The variable has the name of a variable of every rule. -/
def goal : Triple := ⟨.var "x", uri "kind", uri "a"⟩

theorem unifiesApart_wild : goal.UnifiesApart wild.head := by
  let t : Triple := ⟨uri "s", uri "kind", uri "a"⟩
  have hgoal : goal.Matches t := by
    refine ⟨fun _ => uri "s", ?_, ?_, ?_⟩ <;> simp [goal, t, uri]
  have hwild : wild.head.Matches t := by
    refine ⟨fun x => if x = .var "p" then uri "kind" else uri "s", ?_, ?_, ?_⟩ <;>
      simp [wild, t, uri]
  exact ⟨t, hgoal, hwild⟩

end Kinds

/-- The rule about every predicate comes last, although it is written before another one. -/
theorem clause_selection_kinds :
    Kinds.rules.compile Builtin.standard = .ok Kinds.base ∧
    (Kinds.base.clausesFor Kinds.goal.predicate).map Clause.id = [0, 1, 2, 4, 3] ∧
    (Kinds.base.codeFor Kinds.goal).map Clause.id = [0, 4, 3] ∧
    Kinds.goal.UnifiesApart Kinds.wild.head ∧
    ∃ cl ∈ Kinds.base.codeFor Kinds.goal, cl.id = 3 ∧ cl.rule = Kinds.wild := by
  refine ⟨Kinds.compile_rules, by decide +kernel, by decide +kernel, Kinds.unifiesApart_wild, ?_⟩
  exact ((clause_selection Kinds.compile_rules).1 Kinds.goal).2.2 3 Kinds.wild rfl
    (.inl Kinds.unifiesApart_wild)

end TabledRules
