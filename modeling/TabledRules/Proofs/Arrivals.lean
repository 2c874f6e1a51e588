-- A store follows its history. Whatever was added to it and deleted from it, it
-- holds each triple that was added and not deleted since, once and in the order
-- in which the triples arrived.
import Mathlib.Data.List.Induction
import Mathlib.Data.List.Nodup
import TabledRules.Proofs.Stores

namespace TabledRules

/-! ## Histories of a store -/

inductive Change where
  | add (triple : Triple)
  | delete (triple : Triple)

namespace Graph

/-- The answer to a change, and the store after it. -/
def change (g : Graph) : Change → Bool × Graph
  | .add t => g.add t
  | .delete t => g.delete t

/-- The answers to changes one after the other, and the store after the last. -/
def changes (g : Graph) : List Change → List Bool × Graph
  | [] => ([], g)
  | c :: cs =>
    let (answer, g) := g.change c
    let (answers, g) := g.changes cs
    (answer :: answers, g)

end Graph

/-- What the change with a number makes of the place of a triple. To add a triple that is
there moves nothing. -/
def Change.move (t : Triple) (place : Option Nat) : Change × Nat → Option Nat
  | (.add u, i) => if u = t then place.or (some i) else place
  | (.delete u, _) => if u = t then none else place

/-- The number of the change that put the triple into the store, if the triple is there
after all changes. -/
def arrival (t : Triple) (cs : List Change) : Option Nat :=
  cs.zipIdx.foldl (Change.move t) none

/-- Both triples are there, and the first came first. -/
def Before (cs : List Change) (t u : Triple) : Prop :=
  ∃ i j, arrival t cs = some i ∧ arrival u cs = some j ∧ i < j

section

variable {cs : List Change} {c : Change} {t u : Triple}

theorem arrival_append (t : Triple) (cs : List Change) (c : Change) :
    arrival t (cs ++ [c]) = Change.move t (arrival t cs) (c, cs.length) := by
  simp [arrival, List.zipIdx_append]

theorem arrival_add (t u : Triple) (cs : List Change) : arrival u (cs ++ [.add t]) =
    if t = u then (arrival u cs).or (some cs.length) else arrival u cs :=
  arrival_append u cs _

theorem arrival_delete (t u : Triple) (cs : List Change) :
    arrival u (cs ++ [.delete t]) = if t = u then none else arrival u cs :=
  arrival_append u cs _

theorem arrival_lt {i : Nat} (h : arrival t cs = some i) : i < cs.length := by
  induction cs using List.reverseRecOn with
  | nil => cases h
  | append_singleton cs c ih =>
    rw [List.length_append]
    have old : arrival t cs = some i → i < cs.length + 1 := by
      intro h
      exact Nat.lt_succ_of_lt (ih h)
    cases c with
    | add u =>
      rw [arrival_add] at h
      split at h
      · rcases Option.or_eq_some_iff.1 h with h | ⟨-, h⟩
        · exact old h
        · cases h
          exact Nat.lt_succ_self _
      · exact old h
    | delete u =>
      rw [arrival_delete] at h
      split at h
      · cases h
      · exact old h

theorem Before.ne (h : Before cs t u) : t ≠ u := by
  rintro rfl
  obtain ⟨i, j, hi, hj, hlt⟩ := h
  rw [hi] at hj
  cases hj
  exact Nat.lt_irrefl _ hlt

theorem Before.congr (h : Before cs t u) {ds : List Change} (ht : arrival t ds = arrival t cs)
    (hu : arrival u ds = arrival u cs) : Before ds t u := by
  unfold Before at h ⊢
  rw [ht, hu]
  exact h

end

namespace Graph

theorem changes_append (g : Graph) (cs : List Change) (c : Change) :
    g.changes (cs ++ [c]) = ((g.changes cs).1 ++ [((g.changes cs).2.change c).1],
      ((g.changes cs).2.change c).2) := by
  induction cs generalizing g with
  | nil => rfl
  | cons d cs ih => simp [changes, ih]

/-! ## One change -/

variable {g : Graph} {t u : Triple} {bucket : Bucket} {buckets : List Bucket}

theorem mem_triples (hb : bucket ∈ g.buckets) (ht : t ∈ bucket.triples) : t ∈ g.triples :=
  List.mem_flatMap.2 ⟨bucket, hb, ht⟩

theorem add_of_mem (h : t ∈ g.index) : g.add t = (false, g) := by
  unfold add
  exact if_pos h

theorem add_of_not_mem (h : t ∉ g.index) :
    g.add t = (true, ⟨place t g.buckets, g.index.insert t, g.version + 1⟩) := by
  unfold add
  exact if_neg h

theorem mem_place_iff : u ∈ (place t buckets).flatMap Bucket.triples ↔
    u = t ∨ u ∈ buckets.flatMap Bucket.triples := by
  refine ⟨mem_place, fun h => ?_⟩
  induction buckets with
  | nil => simpa [place] using h
  | cons bucket rest ih =>
    simp only [List.flatMap_cons, List.mem_append] at h ih
    rw [place]
    split
    · simpa using h
    · simp only [List.flatMap_cons, List.mem_append, List.mem_singleton]
      tauto
    · simp only [List.flatMap_cons, List.mem_append]
      tauto

/-- A triple that comes after all others is put at an end. -/
theorem pairwise_place {R : Triple → Triple → Prop}
    (h : ∀ bucket ∈ buckets, bucket.triples.Pairwise R)
    (hlast : ∀ bucket ∈ buckets, ∀ u ∈ bucket.triples, R u t) :
    ∀ bucket ∈ place t buckets, bucket.triples.Pairwise R := by
  induction buckets with
  | nil => simp [place]
  | cons first rest ih =>
    rw [List.forall_mem_cons] at h hlast
    rw [place]
    split
    · refine List.forall_mem_cons.2 ⟨List.pairwise_singleton _ _, ?_⟩
      exact List.forall_mem_cons.2 h
    · refine List.forall_mem_cons.2 ⟨?_, h.2⟩
      refine List.pairwise_append.2 ⟨h.1, List.pairwise_singleton _ _, fun u hu v hv => ?_⟩
      rw [List.mem_singleton.1 hv]
      exact hlast.1 u hu
    · exact List.forall_mem_cons.2 ⟨h.1, ih h.2 hlast.2⟩

/-- What deleting a triple makes of a bucket. -/
def without (t : Triple) (bucket : Bucket) : Bucket :=
  if bucket.predicate = t.predicate then
    { bucket with triples := bucket.triples.filter (· ≠ t) }
  else bucket

theorem delete_of_mem (h : t ∈ g.index) :
    g.delete t = (true, ⟨g.buckets.map (without t), g.index.erase t, g.version + 1⟩) := by
  unfold delete
  exact if_pos h

theorem delete_of_not_mem (h : t ∉ g.index) : g.delete t = (false, g) := by
  unfold delete
  exact if_neg h

/-- A bucket of another predicate does not have the triple in the first place. -/
theorem Tidy.triples_without (h : g.Tidy) (hb : bucket ∈ g.buckets) :
    (without t bucket).triples = bucket.triples.filter (· ≠ t) := by
  unfold without
  split
  · rfl
  · next e =>
    refine (List.filter_eq_self.2 fun u hu => ?_).symm
    have hne : u ≠ t := by
      rintro rfl
      exact e (h.own bucket hb u hu).symm
    exact decide_eq_true hne

theorem Tidy.mem_without_iff (h : g.Tidy) :
    u ∈ (g.buckets.map (without t)).flatMap Bucket.triples ↔ u ∈ g.triples ∧ u ≠ t := by
  simp only [triples, List.mem_flatMap, List.mem_map]
  constructor
  · rintro ⟨_, ⟨bucket, hb, rfl⟩, hu⟩
    rw [h.triples_without hb, List.mem_filter] at hu
    exact ⟨⟨bucket, hb, hu.1⟩, of_decide_eq_true hu.2⟩
  · rintro ⟨⟨bucket, hb, hu⟩, hne⟩
    refine ⟨_, ⟨bucket, hb, rfl⟩, ?_⟩
    rw [h.triples_without hb]
    exact List.mem_filter.2 ⟨hu, decide_eq_true hne⟩

/-! ## Every history -/

/-- What a store keeps through changes that it gave these answers to. -/
structure Records (g : Graph) (cs : List Change) (answers : List Bool) : Prop where
  tidy : g.Tidy
  stored : ∀ t, t ∈ g.triples ↔ (arrival t cs).isSome
  indexed : ∀ t, t ∈ g.index ↔ t ∈ g.triples
  ordered : ∀ bucket ∈ g.buckets, bucket.triples.Pairwise (Before cs)
  version : g.version = answers.count true

section

variable {cs : List Change} {c : Change} {answers : List Bool}

theorem records_nil : Records {} [] [] where
  tidy := ⟨.nil, by simp⟩
  stored := by simp [triples, arrival]
  indexed := by simp [triples]
  ordered := by simp
  version := rfl

/-- The change did nothing, and moved nothing. -/
theorem Records.keep (h : g.Records cs answers)
    (hc : ∀ u, arrival u (cs ++ [c]) = arrival u cs) :
    g.Records (cs ++ [c]) (answers ++ [false]) where
  tidy := h.tidy
  stored := by
    intro u
    rw [hc]
    exact h.stored u
  indexed := h.indexed
  ordered := by
    intro bucket hb
    exact (h.ordered bucket hb).imp fun hbefore => hbefore.congr (hc _) (hc _)
  version := by simpa using h.version

theorem Records.place (h : g.Records cs answers) (ht : t ∉ g.index) :
    Records ⟨place t g.buckets, g.index.insert t, g.version + 1⟩ (cs ++ [.add t])
      (answers ++ [true]) := by
  -- what was stored is another triple, and stays where it is
  have hstay : ∀ u ∈ g.triples, arrival u (cs ++ [.add t]) = arrival u cs := by
    intro u hu
    rw [arrival_add, if_neg]
    rintro rfl
    exact ht ((h.indexed t).2 hu)
  have hnew : arrival t (cs ++ [.add t]) = some cs.length := by
    rw [h.indexed, h.stored, Option.not_isSome_iff_eq_none] at ht
    rw [arrival_add, if_pos rfl, ht]
    rfl
  refine ⟨buckets_place h.tidy, fun u => ?_, fun u => ?_, ?_, by simp [h.version]⟩
  · refine mem_place_iff.trans ?_
    rw [arrival_add]
    by_cases e : t = u
    · subst e
      simp
    · rw [if_neg e, ← h.stored]
      exact or_iff_right (Ne.symm e)
  · refine Iff.trans ?_ mem_place_iff.symm
    rw [Std.TreeSet.mem_insert, Std.LawfulEqCmp.compare_eq_iff_eq, h.indexed, eq_comm]
    rfl
  · refine pairwise_place (fun bucket hb => ?_) fun bucket hb u hu => ?_
    · refine (h.ordered bucket hb).imp_of_mem fun hu hv hbefore => ?_
      exact hbefore.congr (hstay _ (mem_triples hb hu)) (hstay _ (mem_triples hb hv))
    · have hmem := mem_triples hb hu
      obtain ⟨i, hi⟩ := Option.isSome_iff_exists.1 ((h.stored u).1 hmem)
      exact ⟨i, cs.length, (hstay u hmem).trans hi, hnew, arrival_lt hi⟩

theorem Records.add (h : g.Records cs answers) (t : Triple) :
    (g.add t).2.Records (cs ++ [.add t]) (answers ++ [(g.add t).1]) := by
  by_cases ht : t ∈ g.index
  · rw [add_of_mem ht]
    rw [h.indexed, h.stored] at ht
    refine h.keep fun u => ?_
    rw [arrival_add]
    split
    · next e =>
      rw [Option.or_of_isSome (e ▸ ht)]
    · rfl
  · rw [add_of_not_mem ht]
    exact h.place ht

theorem Records.without (h : g.Records cs answers) (ht : t ∈ g.index) :
    Records ⟨g.buckets.map (without t), g.index.erase t, g.version + 1⟩ (cs ++ [.delete t])
      (answers ++ [true]) := by
  have htidy := h.tidy.delete t
  rw [delete_of_mem ht] at htidy
  refine ⟨htidy, fun u => ?_, fun u => ?_, fun bucket hb => ?_, by simp [h.version]⟩
  · refine h.tidy.mem_without_iff.trans ?_
    rw [arrival_delete, h.stored]
    by_cases e : t = u
    · simp [e]
    · simp [e, Ne.symm e]
  · refine Iff.trans ?_ h.tidy.mem_without_iff.symm
    rw [Std.TreeSet.mem_erase, ne_eq, Std.LawfulEqCmp.compare_eq_iff_eq, h.indexed, and_comm,
      ne_eq, eq_comm]
  · obtain ⟨old, hold, rfl⟩ := List.mem_map.1 hb
    rw [h.tidy.triples_without hold]
    have hstay : ∀ u ∈ old.triples.filter (· ≠ t),
        arrival u (cs ++ [.delete t]) = arrival u cs := by
      intro u hu
      rw [arrival_delete, if_neg]
      exact Ne.symm (of_decide_eq_true (List.mem_filter.1 hu).2)
    refine ((h.ordered old hold).sublist List.filter_sublist).imp_of_mem fun hu hv hbefore => ?_
    exact hbefore.congr (hstay _ hu) (hstay _ hv)

theorem Records.delete (h : g.Records cs answers) (t : Triple) :
    (g.delete t).2.Records (cs ++ [.delete t]) (answers ++ [(g.delete t).1]) := by
  by_cases ht : t ∈ g.index
  · rw [delete_of_mem ht]
    exact h.without ht
  · rw [delete_of_not_mem ht]
    rw [h.indexed, h.stored, Option.not_isSome_iff_eq_none] at ht
    refine h.keep fun u => ?_
    rw [arrival_delete]
    split
    · next e => rw [← e, ht]
    · rfl

end

theorem records_changes (cs : List Change) :
    (changes {} cs).2.Records cs (changes {} cs).1 := by
  induction cs using List.reverseRecOn with
  | nil => exact records_nil
  | append_singleton cs c ih =>
    rw [changes_append]
    cases c with
    | add t => exact ih.add t
    | delete t => exact ih.delete t

end Graph

/-! ## Patterns -/

theorem Triple.lookupKey_of_isGround {t : Triple} (h : t.isGround = true) : t.lookupKey = t := by
  simp only [Triple.isGround, Bool.and_eq_true] at h
  simp [lookupKey, mapTerms, Term.lookupKey, h]

theorem Triple.lookupKey_admits_iff {t : Triple} (h : t.isGround = true) (u : Triple) :
    t.lookupKey.admits u = true ↔ u = t := by
  rw [lookupKey_of_isGround h]
  simp only [Triple.isGround, Bool.and_eq_true] at h
  obtain ⟨⟨hs, hp⟩, ho⟩ := h
  simp only [admits, Bool.and_eq_true, Term.admits_iff_eq hs, Term.admits_iff_eq hp,
    Term.admits_iff_eq ho]
  cases t
  cases u
  simp [and_assoc]

theorem Triple.predicate_of_admits {pattern t : Triple} (h : pattern.predicate.isGround = true)
    (hadmits : pattern.lookupKey.admits t = true) : t.predicate = pattern.predicate := by
  simp only [admits, Bool.and_eq_true] at hadmits
  have hp := hadmits.1.2
  have e : pattern.lookupKey.predicate = pattern.predicate := if_pos h
  rw [e, Term.admits_iff_eq h] at hp
  exact hp

namespace Graph

/-! ## What a store has and finds -/

variable {g : Graph} {t u : Triple}

section

variable {cs : List Change} {answers : List Bool} {pattern : Triple}

theorem Records.nodup (h : g.Records cs answers) : g.triples.Nodup := by
  refine List.nodup_flatMap.2 ⟨fun bucket hb => (h.ordered bucket hb).imp Before.ne, ?_⟩
  refine h.tidy.sorted.imp_of_mem fun {x y} hx hy hlt t htx hty => ?_
  have e := (h.tidy.own x hx t htx).symm.trans (h.tidy.own y hy t hty)
  rw [(Term.compare_eq_iff _ _).2 e] at hlt
  cases hlt

theorem Records.size_eq (h : g.Records cs answers) : g.size = g.triples.length := by
  have hdistinct : g.index.toList.Nodup := by
    refine Std.TreeSet.distinct_toList.imp fun hne e => ?_
    exact hne (Std.LawfulEqCmp.compare_eq_iff_eq.2 e)
  have hperm : g.index.toList.Perm g.triples := by
    refine (List.perm_ext_iff_of_nodup hdistinct h.nodup).2 fun t => ?_
    rw [Std.TreeSet.mem_toList, h.indexed]
  rw [← hperm.length_eq, Std.TreeSet.length_toList]
  rfl

theorem Tidy.mem_withPredicate_iff (h : g.Tidy) {p : Term} :
    t ∈ g.withPredicate p ↔ t ∈ g.triples ∧ t.predicate = p := by
  constructor
  · unfold withPredicate
    split
    · next bucket hb =>
      intro ht
      have hmem := List.mem_of_find?_eq_some hb
      have hp : bucket.predicate = p := by simpa using List.find?_some hb
      exact ⟨mem_triples hmem ht, (h.own bucket hmem t ht).trans hp⟩
    · intro ht
      cases ht
  · rintro ⟨ht, rfl⟩
    exact h.mem_withPredicate ht

/-- The triples with a predicate stand together, whatever is said of the others. -/
theorem Tidy.filter_triples (h : g.Tidy) (p : Term) :
    g.triples.filter (·.predicate = p) = g.withPredicate p := by
  unfold Tidy at h
  unfold triples withPredicate
  generalize g.buckets = buckets at h
  induction buckets with
  | nil => rfl
  | cons first rest ih =>
    obtain ⟨hfirst, hrest⟩ := List.pairwise_cons.1 h.sorted
    obtain ⟨howns, hown⟩ := List.forall_mem_cons.1 h.own
    rw [List.flatMap_cons, List.filter_append, ih ⟨hrest, hown⟩]
    by_cases e : first.predicate = p
    · have hall : first.triples.filter (·.predicate = p) = first.triples := by
        refine List.filter_eq_self.2 fun t ht => ?_
        exact decide_eq_true ((howns t ht).trans e)
      have hnone : rest.find? (·.predicate = p) = none := by
        refine List.find?_eq_none.2 fun bucket hb => ?_
        have hlt := hfirst bucket hb
        intro e'
        rw [(Term.compare_eq_iff _ _).2 (e.trans (of_decide_eq_true e').symm)] at hlt
        cases hlt
      rw [hall, hnone, List.append_nil, List.find?_cons_of_pos (by simpa using e)]
    · have hnone : first.triples.filter (·.predicate = p) = [] := by
        refine List.filter_eq_nil_iff.2 fun t ht e' => ?_
        exact e ((howns t ht).symm.trans (of_decide_eq_true e'))
      rw [hnone, List.find?_cons_of_neg (by simpa using e), List.nil_append]

theorem find_of_ground (g : Graph) (h : pattern.predicate.isGround = true) :
    g.find pattern = (g.withPredicate pattern.predicate).filter pattern.lookupKey.admits := by
  have e : pattern.lookupKey.predicate = pattern.predicate := if_pos h
  unfold find
  simp only [e, h, if_true]

theorem find_of_not_ground (g : Graph) (h : pattern.predicate.isGround = false) :
    g.find pattern = g.triples.filter pattern.lookupKey.admits := by
  have e : pattern.lookupKey.predicate = .any := if_neg (by simp [h])
  unfold find
  simp [e]

/-- What is found is what is stored and answers to the pattern. -/
theorem Tidy.mem_find_iff (h : g.Tidy) :
    t ∈ g.find pattern ↔ t ∈ g.triples ∧ pattern.lookupKey.admits t = true := by
  cases hp : pattern.predicate.isGround with
  | false => rw [find_of_not_ground g hp, List.mem_filter]
  | true =>
    rw [find_of_ground g hp, List.mem_filter, h.mem_withPredicate_iff, and_assoc]
    refine and_congr_right fun _ => and_iff_right_of_imp fun hadmits => ?_
    exact Triple.predicate_of_admits hp hadmits

theorem Records.pairwise_withPredicate (h : g.Records cs answers) (p : Term) :
    (g.withPredicate p).Pairwise (Before cs) := by
  unfold withPredicate
  split
  · next bucket hb => exact h.ordered bucket (List.mem_of_find?_eq_some hb)
  · exact .nil

theorem Tidy.contains_iff (h : g.Tidy) (hindex : ∀ t, t ∈ g.index ↔ t ∈ g.triples) (t : Triple) :
    g.contains t = true ↔ g.find t ≠ [] := by
  unfold contains
  split
  · next hground =>
    have hfind : ∀ u, u ∈ g.find t ↔ u ∈ g.triples ∧ u = t := by
      intro u
      rw [h.mem_find_iff, Triple.lookupKey_admits_iff hground]
    rw [Std.TreeSet.contains_iff_mem, hindex, ne_eq, List.eq_nil_iff_forall_not_mem]
    simp [hfind]
  · simp

end

/-- The store is faithful to its history. -/
structure Follows (g : Graph) (cs : List Change) (answers : List Bool) : Prop where
  /-- What is stored was added and not deleted since. -/
  stored : ∀ t, t ∈ g.triples ↔ (arrival t cs).isSome
  indexed : ∀ t, t ∈ g.index ↔ t ∈ g.triples
  once : g.triples.Nodup
  own : ∀ bucket ∈ g.buckets, ∀ t ∈ bucket.triples, t.predicate = bucket.predicate
  apart : g.buckets.Pairwise fun x y => x.predicate ≠ y.predicate
  ordered : ∀ bucket ∈ g.buckets, bucket.triples.Pairwise (Before cs)
  version : g.version = answers.count true
  size : g.size = g.triples.length
  found : ∀ pattern t, t ∈ g.find pattern ↔ t ∈ g.triples ∧ pattern.lookupKey.admits t = true
  found_once : ∀ pattern, (g.find pattern).Nodup
  found_in_order : ∀ pattern, pattern.predicate.isGround = true →
    (g.find pattern).Pairwise (Before cs)
  /-- Where the predicate is left open, the triples of each stand in order. -/
  found_by_predicate : ∀ pattern p,
    ((g.find pattern).filter (·.predicate = p)).Pairwise (Before cs)
  contained : ∀ t, g.contains t = true ↔ g.find t ≠ []

theorem Records.follows {cs : List Change} {answers : List Bool} (h : g.Records cs answers) :
    g.Follows cs answers where
  stored := h.stored
  indexed := h.indexed
  once := h.nodup
  own := h.tidy.own
  apart := by
    refine h.tidy.sorted.imp fun hlt e => ?_
    rw [(Term.compare_eq_iff _ _).2 e] at hlt
    cases hlt
  ordered := h.ordered
  version := h.version
  size := h.size_eq
  found := fun pattern t => h.tidy.mem_find_iff
  found_once := by
    intro pattern
    cases hp : pattern.predicate.isGround with
    | false =>
      rw [find_of_not_ground g hp]
      exact h.nodup.filter _
    | true =>
      rw [find_of_ground g hp]
      exact ((h.pairwise_withPredicate _).imp Before.ne).filter _
  found_in_order := by
    intro pattern hp
    rw [find_of_ground g hp]
    exact (h.pairwise_withPredicate _).filter _
  found_by_predicate := by
    intro pattern p
    cases hp : pattern.predicate.isGround with
    | false =>
      rw [find_of_not_ground g hp, List.filter_comm, h.tidy.filter_triples]
      exact (h.pairwise_withPredicate p).filter _
    | true =>
      rw [find_of_ground g hp]
      exact ((h.pairwise_withPredicate _).filter _).filter _
  contained := h.tidy.contains_iff h.indexed

/-- Whatever is added and deleted, the store holds what came and did not go, in the order
in which it came, finds all of it that answers to a pattern, and counts its changes. -/
theorem changes_follow (cs : List Change) :
    (changes {} cs).2.Follows cs (changes {} cs).1 :=
  (records_changes cs).follows

end Graph

end TabledRules
