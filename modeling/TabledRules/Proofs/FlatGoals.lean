-- Goals over a stock of ground terms. Up to the names of their variables there are
-- only so many of them, and each of them has only so many results.
import TabledRules.Proofs.FlatRules
import TabledRules.Proofs.VariantKeys

namespace TabledRules

/-! ## Goals -/

/-- A goal of terms of the stock and of variables. -/
def Triple.Over (S : Stock) (goal : Triple) : Prop := ∀ t ∈ goal.terms, t ∈ S.terms ∨ t.isVar = true

/-- The stock has what stands in the store and in the code. -/
def Program.Serves (P : Program) (facts : List Triple) (S : Stock) : Prop :=
  ∀ t ∈ facts.flatMap Triple.terms ++ P.rules.constants, t.isGround = true → t ∈ S.terms

section

variable {P : Program} {facts : List Triple} {S T : Stock} {goal t : Triple} {u : Term}
  {n : Numbering} {make : Nat → Term}

theorem Program.serves_stock (P : Program) (facts : List Triple) (goal : Triple) :
    P.Serves facts (P.stock facts goal) :=
  fun _ ht hground => Stock.mem_of.2 ⟨List.mem_append_left _ ht, hground⟩

theorem Triple.Over.mono (h : goal.Over S) (hST : S.terms ⊆ T.terms) : goal.Over T :=
  fun t ht => (h t ht).imp_left (hST ·)

/-- All that there is for a goal over the stock is in the stock. -/
theorem Program.Serves.stock (h : P.Serves facts S) (hgoal : goal.Over S) :
    (P.stock facts goal).terms ⊆ S.terms := by
  intro t ht
  obtain ⟨ht, hground⟩ := Stock.mem_of.1 ht
  rcases List.mem_append.1 ht with ht | ht
  · exact h t ht hground
  · rcases hgoal t ht with hmem | hvar
    · exact hmem
    · cases t with
      | node | app => cases hvar
      | _ => cases hground

/-- A goal of ground terms and variables is one over the stock of its own. -/
theorem Triple.over_stock (h : ∀ t ∈ goal.terms, t.isGround = true ∨ t.isVar = true) :
    goal.Over (P.stock facts goal) :=
  fun t ht => (h t ht).imp_left fun hground => Stock.mem_of.2 ⟨List.mem_append_right _ ht, hground⟩

theorem Triple.Over.shape (h : goal.Over S) :
    ∀ t ∈ goal.terms, t.isGround = true ∨ t.isVar = true :=
  fun t ht => (h t ht).imp_left (S.ground t)

theorem Triple.Flat.isOver (h : goal.Flat S) : goal.Over S := by
  intro t ht
  rcases h t ht with hmem | rfl | ⟨v, rfl⟩
  · exact .inl hmem
  · exact .inr rfl
  · exact .inr rfl

theorem Numbering.next_number_le (n : Numbering) (u : Term) : (n.number u).2.next ≤ n.next + 1 := by
  unfold Numbering.number
  split
  · exact Nat.le_refl _
  · split
    · exact Nat.le_succ _
    · exact Nat.le_refl _

/-- A term of a goal over the stock is kept if it is ground, and numbered if it is a variable. -/
theorem Term.renumber_over (hmake : ∀ i, (make i).isVar = true) (hn : n.Bounded)
    (h : u ∈ S.terms ∨ u.isVar = true) :
    (u.renumber make n).2.Bounded ∧ (u.renumber make n).2.next ≤ n.next + 1 ∧
      ((u.renumber make n).1 ∈ S.terms ∨
        ∃ i < (u.renumber make n).2.next, (u.renumber make n).1 = make i) := by
  obtain ⟨hbounded, hle, hform⟩ := u.renumber_numberedAs make hn
  rcases h with hmem | hvar
  · have hground := S.ground u hmem
    refine ⟨hbounded, ?_, .inl ?_⟩
    · rw [(u.renumber_leaves hmake n).2.2, (u.isGround_iff_leaves).1 hground]
      exact Nat.le_succ _
    · rw [Term.Instance.eq_of_isGround hform hground]
      exact hmem
  · obtain ⟨i, hi, hhas⟩ := (Term.instance_of_isVar hvar).1 hform
    refine ⟨hbounded, ?_, .inr ⟨i, hhas.1, hi⟩⟩
    rw [Term.renumber_of_isVar hvar]
    exact n.next_number_le u

/-- The numbered form of a goal over the stock has at most three numbers. -/
theorem Triple.Over.renumber (h : goal.Over S) (hmake : ∀ i, (make i).isVar = true) :
    ∀ t ∈ (goal.renumber make).1.terms, t ∈ S.terms ∨ ∃ i < 3, t = make i := by
  obtain ⟨s, p, o⟩ := goal
  have hn : ({} : Numbering).Bounded := fun x i h => by cases h
  obtain ⟨b1, l1, h1⟩ := Term.renumber_over hmake hn (h s (by simp [Triple.terms]))
  obtain ⟨b2, l2, h2⟩ := Term.renumber_over hmake b1 (h p (by simp [Triple.terms]))
  obtain ⟨-, l3, h3⟩ := Term.renumber_over hmake b2 (h o (by simp [Triple.terms]))
  have hzero : ({} : Numbering).next = 0 := rfl
  intro t ht
  simp only [Triple.renumber, Triple.terms, List.mem_cons, List.not_mem_nil, or_false] at ht
  rcases ht with rfl | rfl | rfl
  · rcases h1 with hmem | ⟨i, hi, e⟩
    · exact .inl hmem
    · exact .inr ⟨i, by omega, e⟩
  · rcases h2 with hmem | ⟨i, hi, e⟩
    · exact .inl hmem
    · exact .inr ⟨i, by omega, e⟩
  · rcases h3 with hmem | ⟨i, hi, e⟩
    · exact .inl hmem
    · exact .inr ⟨i, by omega, e⟩

theorem Triple.Over.standard (h : goal.Over S) : goal.standard.Flat S := by
  intro t ht
  rcases h.renumber (fun _ => rfl) t ht with hmem | ⟨i, -, rfl⟩
  · exact .inl hmem
  · exact Term.flat_ref S i

/-! ### Finitely many goals -/

/-- The keys of all goals over a stock. -/
def Stock.keys (S : Stock) : List Triple :=
  let terms := S.terms ++ (List.range 3).map fun i => .var s!"_{i}"
  terms.flatMap fun s => terms.flatMap fun p => terms.map fun o => ⟨s, p, o⟩

theorem Triple.Over.mem_keys (h : goal.Over S) : goal.variantKey ∈ S.keys := by
  have hmem : ∀ t ∈ goal.variantKey.terms,
      t ∈ S.terms ++ (List.range 3).map fun i => .var s!"_{i}" := by
    intro t ht
    rcases h.renumber (fun _ => rfl) t ht with hmem | ⟨i, hi, rfl⟩
    · exact List.mem_append_left _ hmem
    · exact List.mem_append_right _ (List.mem_map.2 ⟨i, List.mem_range.2 hi, rfl⟩)
  unfold Stock.keys
  exact List.mem_flatMap.2 ⟨_, hmem goal.variantKey.subject (by simp [Triple.terms]),
    List.mem_flatMap.2 ⟨_, hmem goal.variantKey.predicate (by simp [Triple.terms]),
      List.mem_map.2 ⟨_, hmem goal.variantKey.object (by simp [Triple.terms]), rfl⟩⟩⟩

theorem Triple.Over.variantKey (h : goal.Over S) : goal.variantKey.Over S := by
  intro t ht
  rcases h.renumber (fun _ => rfl) t ht with hmem | ⟨i, -, rfl⟩
  · exact .inl hmem
  · exact .inr rfl

/-! ### Finitely many results -/

/-- All triples that a table can hold. -/
def Stock.results (S : Stock) : List Triple :=
  let terms := S.terms ++ [.any]
  terms.flatMap fun s => terms.flatMap fun p => terms.map fun o => ⟨s, p, o⟩

theorem Triple.Settled.mem_results (h : t.Settled S) : t ∈ S.results := by
  have hmem : ∀ u ∈ t.terms, u ∈ S.terms ++ [.any] := by
    intro u hu
    rcases h u hu with hmem | rfl
    · exact List.mem_append_left _ hmem
    · exact List.mem_append_right _ List.mem_cons_self
  unfold Stock.results
  exact List.mem_flatMap.2 ⟨_, hmem t.subject (by simp [Triple.terms]),
    List.mem_flatMap.2 ⟨_, hmem t.predicate (by simp [Triple.terms]),
      List.mem_map.2 ⟨_, hmem t.object (by simp [Triple.terms]), rfl⟩⟩⟩

/-- There are only so many different results. -/
theorem Stock.length_le_results {ts : List Triple} (hts : ts.Nodup) (h : ∀ t ∈ ts, t.Settled S) :
    ts.length ≤ S.results.length :=
  (List.subperm_of_subset hts fun t ht => (h t ht).mem_results).length_le

end

end TabledRules
