-- What the builtin for absent triples finds out. It asks the store for the value of
-- its arguments, where all that is not ground is a wildcard. So it says no also
-- where triples are stored that the arguments do not match, if these have a
-- variable twice or inside a compound term.
import TabledRules.Builtin.Standard
import TabledRules.Proofs.StoreScans

namespace TabledRules

/-- The triple that the arguments of `noValue` are about. Without an object it is any. -/
def askedFor (s p : Term) (o : Option Term) : Triple := ⟨s, p, o.getD .any⟩

/-- Every place is known or is a variable or wildcard by itself, and no variable stands twice. -/
structure Triple.Plain (t : Triple) : Prop where
  place : ∀ u ∈ t.terms, u.isGround = true ∨ u.isVar = true
  once : ∀ v, t.leaves.count (.ref v) ≤ 1

namespace Bindings

variable {b c d : Bindings} {n k v : Nat} {l r x : Term} {goal value t : Triple}

/-! ## Places that match -/

theorem deref_of_deepDeref (h : b.deepDeref k l = some x) (hx : x.isVar = true) :
    b.deref l = x := by
  cases k with
  | zero => cases h
  | succ k =>
    rw [deepDeref] at h
    split at h
    · obtain ⟨xs, -, rfl⟩ := Option.map_eq_some_iff.1 h
      cases hx
    · cases h
      rfl

/-- A place takes a triple's term that answers to it, and binds no other variable than its own. -/
theorem AddsGround.unify_place (hbc : b.AddsGround c) (hl : b.deepDeref k l = some x)
    (hplace : x.isGround = true ∨ x.isVar = true) (hfree : ∀ v, x = .ref v → c.value? v = none)
    (hr : r.isGround = true) (hn : r.size ≤ n) (hadmits : x.lookupKey.admits r = true) :
    ∃ d, c.unify n l r = some (some d) ∧ b.AddsGround d ∧
      ∀ v, x ≠ .ref v → d.value? v = c.value? v := by
  obtain ⟨y, hy⟩ := unify_ends c l hr hn
  rcases hplace with hx | hx
  · have e : r = x := by
      rw [Term.lookupKey, if_pos hx, Term.admits_iff_eq hx] at hadmits
      exact hadmits
    have hout := unify_of_value hbc.extends hl hx hr hy
    rw [if_pos e] at hout
    subst hout
    exact ⟨c, hy, hbc, fun _ _ => rfl⟩
  · have hd := deref_of_deepDeref hl hx
    have hend : c.IsEnd (b.deref l) := by
      rw [hd]
      exact hfree
    have hdc := hbc.extends.deref_eq_of_isEnd hend
    rw [hd] at hdc
    obtain ⟨n, rfl⟩ : ∃ m, n = m + 1 := ⟨n - 1, by have := r.size_pos; omega⟩
    have hdr := deref_of_isGround c hr
    cases x with
    | node y => cases hx
    | app f xs => cases hx
    | var y =>
      have hwild : Wild (c.deref l) ∨ Wild (c.deref r) := .inl (.inr ⟨y, hdc⟩)
      exact ⟨c, unify_wild hwild, hbc, fun _ _ => rfl⟩
    | any =>
      have hwild : Wild (c.deref l) ∨ Wild (c.deref r) := .inl (.inl hdc)
      exact ⟨c, unify_wild hwild, hbc, fun _ _ => rfl⟩
    | ref v =>
      have hwild : ¬ Wild r := by
        rintro (rfl | ⟨y, rfl⟩) <;> simp at hr
      have href : ∀ u, r ≠ .ref u := by
        rintro u rfl
        simp at hr
      have hv := hfree v rfl
      refine ⟨c.bind v r, unify_refLeft hdc hdr hwild href,
        hbc.trans (hbc.cycleFree.addsBinding hv hr), fun u hu => ?_⟩
      by_cases hlt : v < c.size
      · rw [value?_bind hlt, if_neg]
        rintro rfl
        exact hu rfl
      · rw [Bindings.bind, if_neg hlt]

/-- A triple that the store is asked for matches the goal, if the value of the goal is plain. -/
theorem CycleFree.accepts_of_plain (hb : b.CycleFree) (ht : t.isGround = true)
    (hn : ∀ u ∈ t.terms, u.size ≤ n) (hvalue : goal.mapTerms? (b.deepDeref k) = some value)
    (hplain : value.Plain) (hadmits : value.lookupKey.admits t = true) :
    b.accepts n goal t = true := by
  obtain ⟨hs, hp, ho⟩ := mapTerms?_eq_some_iff.1 hvalue
  have hplace := hplain.place
  simp only [Triple.terms, List.forall_mem_cons] at hplace hn
  simp only [Triple.isGround, Bool.and_eq_true] at ht
  simp only [Triple.admits, Triple.lookupKey, Triple.mapTerms, Bool.and_eq_true] at hadmits
  -- a variable of the value has no value of its own
  have hfree : ∀ {l x : Term}, b.deepDeref k l = some x → ∀ v, x = .ref v → b.value? v = none := by
    rintro l x hl v rfl
    exact hb.unbound_of_deref (deref_of_deepDeref hl rfl)
  have honce := hplain.once
  simp only [Triple.leaves, List.count_append] at honce
  obtain ⟨b1, h1, hadds1, hkeep1⟩ := hb.addsNothing.unify_place hs hplace.1 (hfree hs) ht.1.1
    hn.1 hadmits.1.1
  have hfree1 : ∀ v, value.predicate = .ref v → b1.value? v = none := by
    intro v e
    rw [hkeep1, hfree hp v e]
    intro e'
    have hcount := honce v
    rw [e, e', Term.leaves_ref, List.count_singleton_self] at hcount
    omega
  obtain ⟨b2, h2, hadds2, hkeep2⟩ := hadds1.unify_place hp hplace.2.1 hfree1 ht.1.2
    hn.2.1 hadmits.1.2
  have hfree2 : ∀ v, value.object = .ref v → b2.value? v = none := by
    intro v e
    have hcount := honce v
    rw [e, Term.leaves_ref, List.count_singleton_self] at hcount
    rw [hkeep2, hkeep1, hfree ho v e]
    · intro e'
      rw [e', Term.leaves_ref, List.count_singleton_self] at hcount
      omega
    · intro e'
      rw [e', Term.leaves_ref, List.count_singleton_self] at hcount
      omega
  obtain ⟨b3, h3, -⟩ := hadds2.unify_place ho hplace.2.2.1 hfree2 ht.2 hn.2.2.1 hadmits.2
  exact accepts_iff.2 ⟨b3, unifyTriple_eq_some_iff.2 ⟨b1, b2, h1, h2, h3⟩⟩

end Bindings

/-! ## The builtin -/

theorem run_noValue_of_value {n : Nat} {store : Store} {rule : Option Rule} {b : Bindings}
    {s p : Term} {o : Option Term} {value : Triple} {found : Bool}
    (hvalue : (askedFor s p o).mapTerms? (b.deepDeref n) = some value)
    (hfound : store.contains value = .ok found) :
    Builtin.noValue.run n store rule b ([s, p] ++ o.toList) =
      some (.ok (if found then none else some b)) := by
  have hcall : Builtin.noValue.call ⟨b, n, store, rule⟩ ([s, p] ++ o.toList) =
      ((askedFor s p o).mapTerms? (b.deepDeref n)).bind fun pattern =>
        some ((store.contains pattern).map fun found => if found then none else some []) := by
    cases o <;> rfl
  unfold Builtin.run
  rw [hcall, hvalue]
  simp only [Option.bind_some, hfound, Except.map]
  cases found <;> simp [Bindings.unifyAll, Bindings.unifyEach]

/-- What the builtin finds out about a store at a depth. -/
structure Bindings.Absent (b : Bindings) (g : Graph) (n : Nat) (rule : Option Rule) (s p : Term)
    (o : Option Term) (value : Triple) : Prop where
  known : (askedFor s p o).mapTerms? (b.deepDeref n) = some value
  ends : ∀ t ∈ g.triples, ∃ x, b.unifyTriple n (askedFor s p o) t = some x
  /-- It says yes if nothing that is stored answers to the value, and binds nothing. -/
  answer : Builtin.noValue.run n g.toStore rule b ([s, p] ++ o.toList) =
    some (.ok (if g.triples.any value.lookupKey.admits then none else some b))
  /-- Where it says yes there is no triple that matches. -/
  sound : ∀ c, Builtin.noValue.run n g.toStore rule b ([s, p] ++ o.toList) = some (.ok (some c)) →
    ∀ t ∈ g.triples, b.accepts n (askedFor s p o) t = false
  /-- If no variable stands twice or inside a term, it says yes where no triple matches. -/
  exact : value.Plain → (∀ t ∈ g.triples, b.accepts n (askedFor s p o) t = false) →
    Builtin.noValue.run n g.toStore rule b ([s, p] ++ o.toList) = some (.ok (some b))

theorem Bindings.CycleFree.absent {b : Bindings} {g : Graph} {n : Nat} {rule : Option Rule}
    {s p : Term} {o : Option Term} {value : Triple} (hb : b.CycleFree) (hg : g.Tidy)
    (hindex : ∀ t, t ∈ g.index ↔ t ∈ g.triples) (hground : ∀ t ∈ g.triples, t.isGround = true)
    (hvalue : (askedFor s p o).mapTerms? (b.deepDeref n) = some value)
    (hn : Term.sizeAll (g.triples.flatMap Triple.terms) ≤ n) :
    b.Absent g n rule s p o value := by
  have hsize : ∀ t ∈ g.triples, ∀ u ∈ t.terms, u.size ≤ n := by
    intro t ht u hu
    have hle := Term.size_le_sizeAll (List.mem_flatMap.2 ⟨t, ht, hu⟩)
    omega
  have hfound : g.contains value = g.triples.any value.lookupKey.admits := by
    rw [Bool.eq_iff_iff, hg.contains_iff hindex, ne_eq, List.eq_nil_iff_forall_not_mem,
      List.any_eq_true]
    simp [hg.mem_find_iff]
  have hcontains : g.toStore.contains value = .ok (g.triples.any value.lookupKey.admits) := by
    rw [← hfound]
    rfl
  have hanswer : Builtin.noValue.run n g.toStore rule b ([s, p] ++ o.toList) =
      some (.ok (if g.triples.any value.lookupKey.admits then none else some b)) :=
    run_noValue_of_value hvalue hcontains
  refine ⟨hvalue, fun t ht => unifyTriple_ends b _ (hground t ht) (hsize t ht), hanswer,
    fun c hc t ht => ?_, fun hplain hnone => ?_⟩
  · rw [hanswer] at hc
    split at hc
    · cases hc
    · next hany =>
      rw [Bool.eq_false_iff]
      intro haccepts
      obtain ⟨d, hd⟩ := accepts_iff.1 haccepts
      exact hany (List.any_eq_true.2 ⟨t, ht, hb.admits_of_unifyTriple (hground t ht) hvalue hd⟩)
  · rw [hanswer, if_neg]
    rw [List.any_eq_true]
    rintro ⟨t, ht, hadmits⟩
    have haccepts := hb.accepts_of_plain (hground t ht) (hsize t ht) hvalue hplain hadmits
    rw [hnone t ht] at haccepts
    cases haccepts

/-- The builtin always has an answer, and leaves the bindings as they are. It looks for what
answers to the value of its arguments, whatever the store went through. -/
theorem noValue_by_key (b : Bindings) (hb : b.CycleFree) (cs : List Change)
    (hground : ∀ t ∈ (Graph.changes {} cs).2.triples, t.isGround = true) (rule : Option Rule)
    (s p : Term) (o : Option Term) :
    ∃ N value, ∀ n, N ≤ n → b.Absent (Graph.changes {} cs).2 n rule s p o value := by
  obtain ⟨k, value, hvalue⟩ := hb.exists_value (askedFor s p o)
  have hrecords := Graph.records_changes cs
  generalize (Graph.changes {} cs).2 = g at hground hrecords
  refine ⟨max k (Term.sizeAll (g.triples.flatMap Triple.terms)), value, fun n hn => ?_⟩
  exact hb.absent hrecords.tidy hrecords.indexed hground (hvalue n (by omega)) (by omega)

/-- A variable that is bound, one that is not, and no object. -/
theorem noValue_by_key_pair :
    let uri := fun x => Term.node (.uri x)
    let b : Bindings := Bindings.bind ⟨2, ∅, []⟩ 1 (uri "a")
    let cs : List Change := [.add ⟨uri "a", uri "q", uri "b"⟩, .add ⟨uri "b", uri "p", uri "c"⟩]
    b.CycleFree ∧ (∀ t ∈ (Graph.changes {} cs).2.triples, t.isGround = true) ∧
      ∃ N value, ∀ n, N ≤ n →
        b.Absent (Graph.changes {} cs).2 n none (.ref 1) (.ref 0) none value := by
  intro uri b cs
  have hempty : (⟨2, ∅, []⟩ : Bindings).CycleFree := by
    apply Bindings.cycleFree_of_older
    · intro v t hv
      simp at hv
    · rintro v u ⟨t, hv, -⟩
      simp at hv
  have hcycle : b.CycleFree := hempty.bind rfl
  have hground : ∀ t ∈ (Graph.changes {} cs).2.triples, t.isGround = true := by decide
  exact ⟨hcycle, hground, noValue_by_key b hcycle cs hground none (.ref 1) (.ref 0) none⟩

/-- One variable is asked for as subject and as object. No stored triple has the same term in
both places, and the builtin says that there is one. -/
theorem noValue_misses_repeat :
    let uri := fun x => Term.node (.uri x)
    let b : Bindings := ⟨1, ∅, []⟩
    let g : Graph := (Graph.changes {} [.add ⟨uri "a", uri "p", uri "b"⟩]).2
    b.CycleFree ∧ (∀ t ∈ g.triples, t.isGround = true) ∧
      (∀ t ∈ g.triples, ∀ n c,
        b.unifyTriple n (askedFor (.ref 0) (uri "p") (some (.ref 0))) t ≠ some (some c)) ∧
      ∀ n, 1 ≤ n → Builtin.noValue.run n g.toStore none b [.ref 0, uri "p", .ref 0] =
        some (.ok none) := by
  intro uri b g
  have hcycle : b.CycleFree := by
    apply Bindings.cycleFree_of_older
    · intro v t hv
      simp [b] at hv
    · rintro v u ⟨t, hv, -⟩
      simp [b] at hv
  refine ⟨hcycle, by decide, ?_, ?_⟩
  · intro t ht n c hc
    have hall : ∀ t ∈ g.triples, t = ⟨uri "a", uri "p", uri "b"⟩ := by decide
    obtain rfl := hall t ht
    have hnone : b.unifyTriple 1 (askedFor (.ref 0) (uri "p") (some (.ref 0)))
        ⟨uri "a", uri "p", uri "b"⟩ = some none := rfl
    have h1 := Bindings.unifyAll_mono (Nat.le_max_left n 1) hc
    rw [Bindings.unifyAll_mono (Nat.le_max_right n 1) hnone] at h1
    cases h1
  · intro n hn
    obtain ⟨n, rfl⟩ : ∃ k, n = k + 1 := ⟨n - 1, by omega⟩
    rfl

end TabledRules
