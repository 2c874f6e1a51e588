-- A store that is built up triple by triple finds every triple that answers to
-- a pattern. The order of terms is a strict one, so that its buckets stand in
-- order and there is one for each predicate.
import Mathlib.Data.List.Basic
import Mathlib.Data.List.Pairwise
import Mathlib.Tactic.Common
import TabledRules.Proofs.Histories
import TabledRules.Proofs.Terms

namespace TabledRules

/-! ## The order of terms -/

section
variable {α : Type} [Ord α]

theorem ord_swap [Std.OrientedOrd α] (a b : α) : Ord.compare a b = (Ord.compare b a).swap :=
  Std.OrientedCmp.eq_swap

theorem ord_trans [Std.TransOrd α] {a b c : α} (h : Ord.compare a b = .lt)
    (h' : Ord.compare b c = .lt) : Ord.compare a c = .lt :=
  Std.TransCmp.lt_trans h h'

end

theorem then_eq_lt {x y : Ordering} : x.then y = .lt ↔ x = .lt ∨ x = .eq ∧ y = .lt := by
  cases x <;> simp [Ordering.then]

theorem Literal.compare_eq_iff (a b : Literal) : a.compare b = .eq ↔ a = b := by
  cases a with
  | string x => cases b <;> simp [Literal.compare]
  | integer i => cases b <;> simp [Literal.compare, Int64.toInt_inj]
  | boolean x =>
    cases b with
    | boolean y => cases x <;> cases y <;> decide
    | _ => simp [Literal.compare]

theorem Literal.compare_swap (a b : Literal) : a.compare b = (b.compare a).swap := by
  cases a <;> cases b <;> simp only [Literal.compare] <;> first | rfl | exact ord_swap _ _

theorem Literal.compare_trans {a b c : Literal} (h : a.compare b = .lt) (h' : b.compare c = .lt) :
    a.compare c = .lt := by
  cases a <;> cases b <;> cases c <;> simp only [Literal.compare] at h h' ⊢ <;>
    first | exact ord_trans h h' | exact absurd h (by decide) | exact absurd h' (by decide)

theorem Node.compare_eq_iff (a b : Node) : a.compare b = .eq ↔ a = b := by
  cases a <;> cases b <;> simp [Node.compare, Literal.compare_eq_iff]

theorem Node.compare_swap (a b : Node) : a.compare b = (b.compare a).swap := by
  cases a <;> cases b <;> simp only [Node.compare] <;>
    first | rfl | exact Literal.compare_swap _ _ | exact ord_swap _ _

theorem Node.compare_trans {a b c : Node} (h : a.compare b = .lt) (h' : b.compare c = .lt) :
    a.compare c = .lt := by
  cases a <;> cases b <;> cases c <;> simp only [Node.compare] at h h' ⊢ <;>
    first
    | exact Literal.compare_trans h h'
    | exact ord_trans h h'
    | exact absurd h (by decide)
    | exact absurd h' (by decide)

namespace Term

theorem compare_eq_iff (a b : Term) : a.compare b = .eq ↔ a = b := by
  induction a using Term.induct generalizing b with
  | app f as ih =>
    cases b with
    | app g bs =>
      have lists : ∀ (as bs : List Term), (∀ t ∈ as, ∀ b, t.compare b = .eq ↔ t = b) →
          (compareLists as bs = .eq ↔ as = bs) := by
        intro as
        induction as with
        | nil => intro bs _; cases bs <;> simp [compareLists]
        | cons t as ih2 =>
          intro bs h
          cases bs with
          | nil => simp [compareLists]
          | cons u bs =>
            simp [compareLists, Ordering.then_eq_eq, h t List.mem_cons_self u,
              ih2 bs fun t ht => h t (List.mem_cons_of_mem _ ht)]
      simp [Term.compare, Ordering.then_eq_eq, lists as bs ih]
    | _ => simp [Term.compare, Term.rank]
  | node n => cases b <;> simp [Term.compare, Term.rank, Node.compare_eq_iff]
  | var x => cases b <;> simp [Term.compare, Term.rank]
  | ref v => cases b <;> simp [Term.compare, Term.rank]
  | any => cases b <;> simp [Term.compare, Term.rank]

theorem compare_swap (a b : Term) : a.compare b = (b.compare a).swap := by
  induction a using Term.induct generalizing b with
  | app f as ih =>
    cases b with
    | app g bs =>
      have lists : ∀ (as bs : List Term), (∀ t ∈ as, ∀ b, t.compare b = (b.compare t).swap) →
          compareLists as bs = (compareLists bs as).swap := by
        intro as
        induction as with
        | nil => intro bs _; cases bs <;> rfl
        | cons t as ih2 =>
          intro bs h
          cases bs with
          | nil => rfl
          | cons u bs =>
            rw [compareLists, compareLists, Ordering.swap_then, h t List.mem_cons_self u,
              ih2 bs fun t ht => h t (List.mem_cons_of_mem _ ht)]
      rw [Term.compare, Term.compare, Ordering.swap_then, lists as bs ih, ← ord_swap]
    | _ => rfl
  | node n =>
    cases b with
    | node k => exact Node.compare_swap n k
    | _ => rfl
  | var x =>
    cases b with
    | var y => exact ord_swap x y
    | _ => rfl
  | ref v =>
    cases b with
    | ref u => exact ord_swap v u
    | _ => rfl
  | any => cases b <;> rfl

theorem rank_le_of_compare {a b : Term} (h : a.compare b = .lt) : a.rank ≤ b.rank := by
  cases a <;> cases b <;> first | exact Nat.le_refl _ | exact Nat.le_of_lt (Nat.compare_eq_lt.1 h)

theorem compare_of_rank_lt {a b : Term} (h : a.rank < b.rank) : a.compare b = .lt := by
  cases a <;> cases b <;> first | exact Nat.compare_eq_lt.2 h | exact absurd h (Nat.lt_irrefl _)

theorem compareLists_trans {as bs cs : List Term} (hall : ∀ t ∈ as, ∀ {b c : Term},
    t.compare b = .lt → b.compare c = .lt → t.compare c = .lt) (h : compareLists as bs = .lt)
    (h' : compareLists bs cs = .lt) : compareLists as cs = .lt := by
  induction as generalizing bs cs with
  | nil => cases bs <;> cases cs <;> simp [compareLists] at h h' ⊢
  | cons t as ih =>
    cases bs with
    | nil => simp [compareLists] at h
    | cons u bs =>
      cases cs with
      | nil => simp [compareLists] at h'
      | cons v cs =>
        simp only [compareLists, then_eq_lt, compare_eq_iff] at h h' ⊢
        rcases h with h | ⟨rfl, h⟩ <;> rcases h' with h' | ⟨rfl, h'⟩
        · exact .inl (hall t List.mem_cons_self h h')
        · exact .inl h
        · exact .inl h'
        · exact .inr ⟨rfl, ih (fun t ht => hall t (List.mem_cons_of_mem _ ht)) h h'⟩

theorem compare_trans {a b c : Term} (h : a.compare b = .lt) (h' : b.compare c = .lt) :
    a.compare c = .lt := by
  -- only terms of one kind are left to compare
  rcases Nat.lt_or_ge a.rank c.rank with hlt | hge
  · exact compare_of_rank_lt hlt
  have hab : a.rank = b.rank := Nat.le_antisymm (rank_le_of_compare h)
    (Nat.le_trans (rank_le_of_compare h') hge)
  have hbc : b.rank = c.rank := Nat.le_antisymm (rank_le_of_compare h') (hab ▸ hge)
  clear hge
  induction a using Term.induct generalizing b c with
  | app f as ih =>
    cases b <;> cases hab
    cases c <;> cases hbc
    simp only [Term.compare, then_eq_lt, Std.LawfulEqCmp.compare_eq_iff_eq] at h h' ⊢
    rcases h with h | ⟨rfl, h⟩ <;> rcases h' with h' | ⟨rfl, h'⟩
    · exact .inl (ord_trans h h')
    · exact .inl h
    · exact .inl h'
    · refine .inr ⟨rfl, compareLists_trans (fun t ht b c h1 h2 => ?_) h h'⟩
      rcases Nat.lt_or_ge t.rank c.rank with hlt | hge
      · exact compare_of_rank_lt hlt
      · have e := Nat.le_antisymm (rank_le_of_compare h1)
          (Nat.le_trans (rank_le_of_compare h2) hge)
        exact ih t ht h1 h2 e (Nat.le_antisymm (rank_le_of_compare h2) (e ▸ hge))
  | node n =>
    cases b <;> cases hab
    cases c <;> cases hbc
    exact Node.compare_trans h h'
  | var x =>
    cases b <;> cases hab
    cases c <;> cases hbc
    exact ord_trans h h'
  | ref v =>
    cases b <;> cases hab
    cases c <;> cases hbc
    exact ord_trans h h'
  | any =>
    cases b <;> cases hab
    exact absurd h (by decide)

end Term

instance : Std.TransOrd Term where
  eq_swap := Term.compare_swap _ _
  isLE_trans := by
    intro a b c h h'
    rw [Ordering.isLE_iff_eq_lt_or_eq_eq] at h h' ⊢
    rcases h with h | h
    · rcases h' with h' | h'
      · exact .inl (Term.compare_trans h h')
      · exact .inl ((Term.compare_eq_iff b c).1 h' ▸ h)
    · rw [(Term.compare_eq_iff a b).1 h]
      exact h'

instance : Std.LawfulEqOrd Term where
  compare_self := (Term.compare_eq_iff _ _).2 rfl
  eq_of_compare := (Term.compare_eq_iff _ _).1

/-- Triples are compared place by place. -/
instance : Std.TransOrd Triple :=
  inferInstanceAs (Std.TransCmp (compareLex
    (compareLex (compareOn Triple.subject) (compareOn Triple.predicate))
    (compareOn Triple.object)))

instance : Std.LawfulEqOrd Triple where
  compare_self := Std.ReflCmp.compare_self
  eq_of_compare := by
    intro a b h
    change ((a.subject.compare b.subject).then (a.predicate.compare b.predicate)).then
      (a.object.compare b.object) = .eq at h
    simp only [Ordering.then_eq_eq, Term.compare_eq_iff] at h
    cases a
    cases b
    simp_all

/-! ## Buckets -/

/-- The buckets stand in the order of their predicates and hold triples of these only. -/
structure Buckets (buckets : List Bucket) : Prop where
  sorted : buckets.Pairwise fun x y => x.predicate.compare y.predicate = .lt
  own : ∀ bucket ∈ buckets, ∀ t ∈ bucket.triples, t.predicate = bucket.predicate

namespace Graph

variable {g : Graph} {t u : Triple} {buckets : List Bucket}

/-- The store has one bucket for each predicate. -/
def Tidy (g : Graph) : Prop := Buckets g.buckets

theorem mem_predicates_place {bucket : Bucket} (h : bucket ∈ place t buckets) :
    bucket.predicate = t.predicate ∨ ∃ old ∈ buckets, old.predicate = bucket.predicate := by
  induction buckets with
  | nil =>
    obtain rfl := List.mem_singleton.1 h
    exact .inl rfl
  | cons first rest ih =>
    rw [place] at h
    split at h
    · rcases List.mem_cons.1 h with rfl | h
      · exact .inl rfl
      · exact .inr ⟨bucket, h, rfl⟩
    · rcases List.mem_cons.1 h with rfl | h
      · exact .inr ⟨first, List.mem_cons_self, rfl⟩
      · exact .inr ⟨bucket, List.mem_cons_of_mem _ h, rfl⟩
    · rcases List.mem_cons.1 h with rfl | h
      · exact .inr ⟨bucket, List.mem_cons_self, rfl⟩
      · refine (ih h).imp_right ?_
        rintro ⟨old, hold, e⟩
        exact ⟨old, List.mem_cons_of_mem _ hold, e⟩

theorem buckets_place (h : Buckets buckets) : Buckets (place t buckets) := by
  induction buckets with
  | nil => exact ⟨List.pairwise_singleton _ _, by simp [place]⟩
  | cons first rest ih =>
    obtain ⟨hfirst, hrest⟩ := List.pairwise_cons.1 h.sorted
    obtain ⟨howns, hown⟩ := List.forall_mem_cons.1 h.own
    rw [place]
    split
    · next hlt =>
      refine ⟨List.pairwise_cons.2 ⟨fun bucket hb => ?_, h.sorted⟩,
        List.forall_mem_cons.2 ⟨by simp, h.own⟩⟩
      rcases List.mem_cons.1 hb with rfl | hb
      · exact hlt
      · exact Term.compare_trans hlt (hfirst bucket hb)
    · next heq =>
      rw [Term.compare_eq_iff] at heq
      refine ⟨List.pairwise_cons.2 ⟨hfirst, hrest⟩, List.forall_mem_cons.2 ⟨fun u hu => ?_, hown⟩⟩
      rcases List.mem_append.1 hu with hu | hu
      · exact howns u hu
      · rw [List.mem_singleton.1 hu]
        exact heq
    · next hgt =>
      obtain ⟨h1, h2⟩ := ih ⟨hrest, hown⟩
      refine ⟨List.pairwise_cons.2 ⟨fun bucket hb => ?_, h1⟩, List.forall_mem_cons.2 ⟨howns, h2⟩⟩
      rcases mem_predicates_place hb with e | ⟨old, hold, e⟩
      · rw [e, Term.compare_swap, hgt]
        rfl
      · rw [← e]
        exact hfirst old hold

theorem Tidy.add (h : g.Tidy) (t : Triple) : (g.add t).2.Tidy := by
  unfold Graph.add
  split
  · exact h
  · exact buckets_place h

theorem Tidy.delete (h : g.Tidy) (t : Triple) : (g.delete t).2.Tidy := by
  unfold Graph.delete
  split
  · refine ⟨?_, fun bucket hb u hu => ?_⟩
    · refine List.pairwise_map.2 (h.sorted.imp fun {x y} hxy => ?_)
      split <;> split <;> exact hxy
    · obtain ⟨old, hold, rfl⟩ := List.mem_map.1 hb
      split at hu
      · rw [h.own old hold u (List.mem_of_mem_filter hu)]
        split <;> rfl
      · rw [h.own old hold u hu]
        split <;> rfl
  · exact h

theorem tidy_ofTriples (ts : List Triple) : (Graph.ofTriples ts).Tidy := by
  have all : ∀ (ts : List Triple) (g : Graph), g.Tidy →
      (ts.foldl (fun g t => (g.add t).2) g).Tidy := by
    intro ts
    induction ts with
    | nil => exact fun g h => h
    | cons t ts ih => exact fun g h => ih _ (h.add t)
  exact all ts {} ⟨.nil, by simp⟩

/-- A stored triple stands in the bucket of its predicate. -/
theorem Tidy.mem_withPredicate (h : g.Tidy) (ht : t ∈ g.triples) :
    t ∈ g.withPredicate t.predicate := by
  unfold Tidy at h
  unfold triples at ht
  unfold withPredicate
  generalize g.buckets = buckets at h ht
  induction buckets with
  | nil => cases ht
  | cons first rest ih =>
    obtain ⟨hfirst, hrest⟩ := List.pairwise_cons.1 h.sorted
    obtain ⟨howns, hown⟩ := List.forall_mem_cons.1 h.own
    rw [List.flatMap_cons, List.mem_append] at ht
    rcases ht with ht | ht
    · rw [List.find?_cons_of_pos (by simpa using (howns t ht).symm)]
      exact ht
    · obtain ⟨bucket, hb, htb⟩ := List.mem_flatMap.1 ht
      have hne : first.predicate ≠ t.predicate := by
        intro e
        have hlt := hfirst bucket hb
        rw [← hown bucket hb t htb, e, (Term.compare_eq_iff _ _).2 rfl] at hlt
        cases hlt
      rw [List.find?_cons_of_neg (by simpa using hne)]
      exact ih ⟨hrest, hown⟩ ht

/-- A stored triple that answers to a pattern is found. -/
theorem Tidy.mem_find (h : g.Tidy) (ht : t ∈ g.triples) {pattern : Triple}
    (hp : pattern.predicate.isGround = true → t.predicate = pattern.predicate)
    (hadmits : pattern.lookupKey.admits t = true) : t ∈ g.find pattern := by
  unfold find
  refine List.mem_filter.2 ⟨?_, hadmits⟩
  change t ∈ if pattern.predicate.lookupKey.isGround = true then _ else _
  cases hground : pattern.predicate.isGround with
  | false => simpa [Term.lookupKey, hground] using ht
  | true =>
    have e : pattern.predicate.lookupKey = t.predicate := by
      rw [hp hground, Term.lookupKey, if_pos hground]
    change t ∈ if pattern.predicate.lookupKey.isGround = true then
      g.withPredicate pattern.predicate.lookupKey else _
    rw [e, hp hground, if_pos hground, ← hp hground]
    exact h.mem_withPredicate ht

end Graph

theorem Site.Does.tidy {σ σ' : Site} {a : Act} {r : Reply} (h : σ.Does a r σ')
    (hσ : σ.graph.Tidy) : σ'.graph.Tidy := by
  cases h with
  | add => exact hσ.add _
  | delete => exact hσ.delete _
  | _ => exact hσ

theorem Site.Runs.tidy {ok : Act → Reply → Prop} {σ σ' : Site} (h : σ.Runs ok σ')
    (hσ : σ.graph.Tidy) : σ'.graph.Tidy := by
  induction h with
  | refl => exact hσ
  | tail _ hstep ih =>
    obtain ⟨a, r, -, hdoes⟩ := hstep
    exact hdoes.tidy ih

end TabledRules
