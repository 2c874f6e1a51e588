-- Where the variables of a rule live, seen from where they occur. A variable
-- that is not a dummy has a register of one kind, and the kind says in
-- which entries it can occur.
import Mathlib.Data.List.NodupEquivFin
import Mathlib.Tactic.Common
import TabledRules.Clause.Compile

namespace TabledRules

namespace Rule

/-- The terms of the head and of the entries of the body, entry by entry. -/
def entries (r : Rule) : List (List Term) := r.head.flatten :: r.body.map Entry.flatten

end Rule

/-! ## Occurrences -/

/-- The variables among the terms of one entry, with their places. -/
def occurrencesAmong (entry : Nat) (terms : List (Term × Nat)) : List Occurrence :=
  terms.filterMap fun
    | (.var name, index) => some ⟨name, entry, index⟩
    | _ => none

theorem Rule.occurrences_eq (r : Rule) :
    r.occurrences = r.entries.zipIdx.flatMap fun e => occurrencesAmong e.2 e.1.zipIdx := rfl

theorem mem_occurrencesAmong {o : Occurrence} {entry : Nat} {terms : List (Term × Nat)} :
    o ∈ occurrencesAmong entry terms ↔ o.entry = entry ∧ (Term.var o.name, o.index) ∈ terms := by
  unfold occurrencesAmong
  rw [List.mem_filterMap]
  constructor
  · rintro ⟨⟨t, i⟩, ht, ho⟩
    cases t <;> simp at ho
    subst ho
    exact ⟨rfl, ht⟩
  · rintro ⟨rfl, h⟩
    exact ⟨_, h, rfl⟩

theorem Rule.mem_occurrences {r : Rule} {v : String} {e i : Nat} :
    ⟨v, e, i⟩ ∈ r.occurrences ↔ ∃ l, r.entries[e]? = some l ∧ l[i]? = some (.var v) := by
  rw [occurrences_eq, List.mem_flatMap]
  constructor
  · rintro ⟨⟨l, k⟩, hl, ho⟩
    obtain ⟨rfl, h⟩ := mem_occurrencesAmong.1 ho
    exact ⟨l, List.mem_zipIdx_iff_getElem?.1 hl, List.mem_zipIdx_iff_getElem?.1 h⟩
  · rintro ⟨l, hl, hi⟩
    exact ⟨(l, e), List.mem_zipIdx_iff_getElem?.2 hl,
      mem_occurrencesAmong.2 ⟨rfl, List.mem_zipIdx_iff_getElem?.2 hi⟩⟩

theorem length_occurrencesAmong (v : String) (entry k : Nat) (ts : List Term) :
    (occurrencesIn (occurrencesAmong entry (ts.zipIdx k)) v).length = ts.count (.var v) := by
  unfold occurrencesIn occurrencesAmong
  induction ts generalizing k with
  | nil => simp
  | cons t ts ih =>
    rw [List.zipIdx_cons, List.filterMap_cons, List.count_cons, ← ih (k + 1)]
    cases t with
    | var x => by_cases h : x = v <;> simp [h]
    | _ => simp

/-- A variable has as many occurrences as it stands in the rule. -/
theorem Rule.length_occurrencesIn (r : Rule) (v : String) :
    (occurrencesIn r.occurrences v).length = r.entries.flatten.count (.var v) := by
  have general : ∀ (ls : List (List Term)) (k : Nat),
      (occurrencesIn ((ls.zipIdx k).flatMap fun e => occurrencesAmong e.2 e.1.zipIdx) v).length =
        ls.flatten.count (.var v) := by
    intro ls
    induction ls with
    | nil => simp [occurrencesIn]
    | cons l ls ih =>
      intro k
      rw [List.zipIdx_cons, List.flatMap_cons, List.flatten_cons, List.count_append,
        ← ih (k + 1), ← length_occurrencesAmong v k 0 l]
      simp [occurrencesIn]
  rw [occurrences_eq]
  exact general r.entries 0

/-! ## Kinds of variables -/

section

variable {r : Rule} {v : String}

@[simp] theorem Rule.placement_occurrences (r : Rule) : r.placement.occurrences = r.occurrences := rfl

theorem isDummy_iff : r.placement.isDummy v = true ↔ r.entries.flatten.count (.var v) ≤ 1 := by
  simp [Placement.isDummy, r.length_occurrencesIn]

theorem mem_permanent :
    v ∈ r.placement.permanent ↔ 1 < r.entries.flatten.count (.var v) ∧
      isPermanentIn r.occurrences v = true := by
  rw [← r.length_occurrencesIn]
  simp only [Rule.placement, List.mem_filter, List.mem_eraseDups, List.mem_map, decide_eq_true_eq]
  constructor
  · rintro ⟨⟨_, h⟩, hp⟩
    exact ⟨h, hp⟩
  · rintro ⟨h, hp⟩
    obtain ⟨o, ho⟩ := List.exists_mem_of_length_pos (Nat.lt_trans Nat.zero_lt_one h)
    obtain ⟨ho, hv⟩ := List.mem_filter.1 ho
    exact ⟨⟨⟨o, ho, by simpa using hv⟩, h⟩, hp⟩

theorem mem_temporary :
    v ∈ r.placement.temporary ↔ 1 < r.entries.flatten.count (.var v) ∧
      isPermanentIn r.occurrences v = false := by
  rw [← r.length_occurrencesIn]
  simp only [Rule.placement, List.mem_filter, List.mem_eraseDups, List.mem_map, decide_eq_true_eq,
    Bool.not_eq_true']
  constructor
  · rintro ⟨⟨_, h⟩, hp⟩
    exact ⟨h, hp⟩
  · rintro ⟨h, hp⟩
    obtain ⟨o, ho⟩ := List.exists_mem_of_length_pos (Nat.lt_trans Nat.zero_lt_one h)
    obtain ⟨ho, hv⟩ := List.mem_filter.1 ho
    exact ⟨⟨⟨o, ho, by simpa using hv⟩, h⟩, hp⟩

theorem lt_of_slot {i : Nat} (h : r.placement.slot? v = some i) :
    i < r.placement.permanent.length := by
  obtain ⟨hi, -⟩ := List.idxOf?_eq_some_iff.1 h
  exact hi

theorem lt_of_temp {i : Nat} (h : r.placement.temp? v = some i) :
    i < r.placement.temporary.length := by
  obtain ⟨hi, -⟩ := List.idxOf?_eq_some_iff.1 h
  exact hi

theorem mem_of_slot {i : Nat} (h : r.placement.slot? v = some i) : v ∈ r.placement.permanent := by
  by_contra hn
  rw [Placement.slot?, List.idxOf?_eq_none_iff.2 hn] at h
  cases h

theorem mem_of_temp {i : Nat} (h : r.placement.temp? v = some i) : v ∈ r.placement.temporary := by
  by_contra hn
  rw [Placement.temp?, List.idxOf?_eq_none_iff.2 hn] at h
  cases h

theorem slot_inj {u : String} {i : Nat} (h : r.placement.slot? v = some i)
    (h' : r.placement.slot? u = some i) : v = u := by
  obtain ⟨hi, hv, -⟩ := List.idxOf?_eq_some_iff.1 h
  obtain ⟨_, hu, -⟩ := List.idxOf?_eq_some_iff.1 h'
  have h1 : r.placement.permanent[i] = v := by simpa using hv
  have h2 : r.placement.permanent[i] = u := by simpa using hu
  rw [← h1, h2]

theorem temp_inj {u : String} {i : Nat} (h : r.placement.temp? v = some i)
    (h' : r.placement.temp? u = some i) : v = u := by
  obtain ⟨hi, hv, -⟩ := List.idxOf?_eq_some_iff.1 h
  obtain ⟨_, hu, -⟩ := List.idxOf?_eq_some_iff.1 h'
  have h1 : r.placement.temporary[i] = v := by simpa using hv
  have h2 : r.placement.temporary[i] = u := by simpa using hu
  rw [← h1, h2]

/-- A variable is a dummy, has a temporary register, or has a slot. -/
theorem kinds (r : Rule) (v : String) : r.placement.isDummy v = true ∨
    r.placement.isDummy v = false ∧
      ((∃ i, r.placement.temp? v = some i) ∨
        r.placement.temp? v = none ∧ ∃ i, r.placement.slot? v = some i) := by
  cases hd : r.placement.isDummy v with
  | true => exact .inl rfl
  | false =>
    have hc : 1 < r.entries.flatten.count (.var v) := by
      by_contra h
      rw [isDummy_iff.2 (by omega)] at hd
      cases hd
    refine .inr ⟨rfl, ?_⟩
    cases hp : isPermanentIn r.occurrences v with
    | true =>
      have h1 : v ∈ r.placement.permanent := mem_permanent.2 ⟨hc, hp⟩
      have h2 : v ∉ r.placement.temporary := fun h => by
        rw [(mem_temporary.1 h).2] at hp
        cases hp
      refine .inr ⟨List.idxOf?_eq_none_iff.2 h2, ?_⟩
      exact Option.isSome_iff_exists.1 (by rw [Placement.slot?, List.isSome_idxOf?]; exact h1)
    | false =>
      have h1 : v ∈ r.placement.temporary := mem_temporary.2 ⟨hc, hp⟩
      exact .inl (Option.isSome_iff_exists.1 (by rw [Placement.temp?, List.isSome_idxOf?]; exact h1))

theorem not_dummy_of_slot {i : Nat} (h : r.placement.slot? v = some i) :
    r.placement.isDummy v = false := by
  have := (mem_permanent.1 (mem_of_slot h)).1
  by_contra hd
  have := isDummy_iff.1 (by simpa using hd)
  omega

theorem not_dummy_of_temp {i : Nat} (h : r.placement.temp? v = some i) :
    r.placement.isDummy v = false := by
  have := (mem_temporary.1 (mem_of_temp h)).1
  by_contra hd
  have := isDummy_iff.1 (by simpa using hd)
  omega

theorem temp_of_slot {i : Nat} (h : r.placement.slot? v = some i) : r.placement.temp? v = none := by
  rcases kinds r v with hd | ⟨-, ⟨j, hj⟩ | ⟨ht, -⟩⟩
  · rw [not_dummy_of_slot h] at hd; cases hd
  · have h1 := (mem_permanent.1 (mem_of_slot h)).2
    rw [(mem_temporary.1 (mem_of_temp hj)).2] at h1
    cases h1
  · exact ht

/-- A temporary variable occurs in the head and in the first entry of the body only. -/
theorem entry_le_of_temp {i e j : Nat} (h : r.placement.temp? v = some i)
    (ho : ⟨v, e, j⟩ ∈ r.occurrences) : e ≤ 1 := by
  have hp := (mem_temporary.1 (mem_of_temp h)).2
  simp only [isPermanentIn, occurrencesIn, Bool.or_eq_false_iff, List.any_eq_false, List.mem_filter,
    decide_eq_true_eq] at hp
  by_contra hlt
  exact hp.1 _ ⟨ho, rfl⟩ (Nat.lt_of_not_le hlt)

theorem mem_head_of_temp {i : Nat} (h : r.placement.temp? v = some i) :
    .var v ∈ r.head.flatten := by
  have hp := (mem_temporary.1 (mem_of_temp h)).2
  simp only [isPermanentIn, occurrencesIn, Bool.or_eq_false_iff, Bool.not_eq_false', List.any_eq_true,
    List.mem_filter, decide_eq_true_eq] at hp
  obtain ⟨-, ⟨x, e, j⟩, ⟨ho, rfl⟩, rfl⟩ := hp
  obtain ⟨l, hl, hj⟩ := Rule.mem_occurrences.1 ho
  obtain rfl : r.head.flatten = l := by simpa [Rule.entries] using hl
  exact List.mem_of_getElem? hj

/-! ## Variables in place -/

/-- All occurrences of a variable in place have the same index. -/
theorem inPlace_index {e i e' i' : Nat} (h : r.placement.inPlace v = true)
    (ho : ⟨v, e, i⟩ ∈ r.occurrences) (ho' : ⟨v, e', i'⟩ ∈ r.occurrences) : i = i' := by
  unfold Placement.inPlace at h
  split at h
  · next first second heq =>
    have hf : first.index = second.index := by simpa using h
    have mem : ∀ e i, ⟨v, e, i⟩ ∈ r.occurrences → i = first.index := by
      intro e i ho
      have : (⟨v, e, i⟩ : Occurrence) ∈ occurrencesIn r.placement.occurrences v :=
        List.mem_filter.2 ⟨ho, by simp⟩
      rw [heq, List.mem_cons, List.mem_singleton] at this
      rcases this with rfl | rfl
      · rfl
      · exact hf.symm
    rw [mem e i ho, mem e' i' ho']
  · cases h

theorem inPlace_of_inPlaceInHead (h : r.placement.inPlaceInHead v = true) :
    r.placement.inPlace v = true := by
  unfold Placement.inPlaceInHead at h
  unfold Placement.inPlace
  split at h
  · simp_all
  · cases h

/-- A variable in place stands once among the terms of one entry. -/
theorem count_le_one_of_inPlace {e : Nat} {l : List Term} (h : r.placement.inPlace v = true)
    (hl : r.entries[e]? = some l) : l.count (.var v) ≤ 1 := by
  by_contra hc
  obtain ⟨i, j, hij, hi, hj⟩ : ∃ i j, i < j ∧ l[i]? = some (Term.var v) ∧
      l[j]? = some (Term.var v) := by
    have hdup : List.Duplicate (Term.var v) l := List.duplicate_iff_two_le_count.2 (by omega)
    obtain ⟨i, j, hij, hi, hj⟩ := List.duplicate_iff_exists_distinct_get.1 hdup
    exact ⟨i, j, hij, List.getElem?_eq_some_iff.2 ⟨i.2, hi.symm⟩,
      List.getElem?_eq_some_iff.2 ⟨j.2, hj.symm⟩⟩
  have := inPlace_index h (Rule.mem_occurrences.2 ⟨l, hl, hi⟩) (Rule.mem_occurrences.2 ⟨l, hl, hj⟩)
  omega

end

end TabledRules
