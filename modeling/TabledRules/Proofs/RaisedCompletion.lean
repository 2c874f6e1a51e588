-- The completion of generators does not depend on their ids: sessions that are
-- the same but for their ids complete the same generators.
import TabledRules.Proofs.Raising
import TabledRules.Proofs.Wiring

namespace TabledRules

/-! ## Sets of raised ids -/

def IdSet.Raised (k : Nat) (a a' : IdSet) : Prop := a'.ids = a.ids.map (· + k)

namespace IdSet.Raised

variable {k : Nat} {a a' b b' : IdSet}

theorem insert (h : a.Raised k a') (i : Nat) : (a.insert i).Raised k (a'.insert (i + k)) :=
  congrArg (List.cons (i + k)) h

theorem toList (h : a.Raised k a') : a'.toList = a.toList.map (· + k) := by
  unfold IdSet.toList
  rw [h, List.map_reverse]

theorem contains (h : a.Raised k a') (i : Nat) : a'.contains (i + k) = a.contains i := by
  rw [Bool.eq_iff_iff, IdSet.contains_iff, IdSet.contains_iff, h.toList]
  simp

theorem size (h : a.Raised k a') : a'.size = a.size := by
  have hsorted : ∀ s : Std.TreeSet Nat, s.toList.Pairwise (· < ·) :=
    fun s => Std.TreeSet.ordered_toList.imp fun h => Nat.compare_eq_lt.1 h
  have hlist : a'.members.toList = a.members.toList.map (· + k) := by
    refine eq_map_of_sorted (hsorted _) (hsorted _) fun j => ?_
    simp only [Std.TreeSet.mem_toList, IdSet.mem_members]
    rw [h, List.mem_map]
  unfold IdSet.size
  rw [← Std.TreeSet.length_toList, ← Std.TreeSet.length_toList, hlist, List.length_map]

end IdSet.Raised

namespace Session.Raised

variable {k : Nat} {s s' : Session} {g q : Nat}

/-! ## Completion -/

theorem removeAll (h : s.Raised k s') (owned : List (Nat × Consumer)) :
    (s.removeAll owned).Raised k (s'.removeAll (owned.map fun p => (p.1 + k, p.2.raise k))) := by
  unfold Session.removeAll
  rw [List.foldl_map]
  exact foldl (fun p h => h.removeConsumer p.1) owned h

theorem removeOwned (h : s.Raised k s') (o : Owner) :
    (s.removeAll (s.ownedBy o)).Raised k (s'.removeAll (s'.ownedBy (o.raise k))) := by
  rw [h.ownedBy]
  exact h.removeAll _

theorem complete (h : s.Raised k s') (event event' : Triple → Nat → Event) (g : Nat) :
    (s.complete event g).Raised k (s'.complete event' (g + k)) := by
  unfold Session.complete
  rcases rel_elim (h.generator g) with ⟨e1, e2⟩ | ⟨gen, gen', e1, e2, hgen⟩
  · rw [e1, e2]
    exact h
  · rw [e1, e2]
    simp only [hgen.fields.2.2.2.1]
    split
    · exact h
    · have hfinish : Raised k (s.finish g) (s'.finish (g + k)) :=
        h.modifyGenerator g fun {gen gen'} hgen => by
          rw [hgen.eq]
          exact ⟨rfl, .none⟩
      have hnoted := hfinish.note (event gen.goal gen.results.size)
        (event' gen'.goal gen'.results.size)
      exact (hnoted.removeOwned (.generator g)).wakeReaders g

theorem completeAll (h : s.Raised k s') (event : Triple → Nat → Event) (gs : List Nat) :
    (gs.foldl (Session.complete event) s).Raised k
      ((gs.map (· + k)).foldl (Session.complete event) s') := by
  rw [List.foldl_map]
  exact foldl (fun g h => h.complete event event g) gs h

/-! ## What waits for what -/

theorem waitsFor (h : s.Raised k s') (g : Nat) :
    s'.waitsFor (g + k) = (s.waitsFor g).map (· + k) := by
  unfold Session.waitsFor
  rcases rel_elim (h.generator g) with ⟨e1, e2⟩ | ⟨gen, gen', e1, e2, hgen⟩
  · rw [e1, e2]
    rfl
  · rw [e1, e2]
    simp only [hgen.fields.2.2.2.2.2]
    exact h.generators_of _

theorem readersOf (h : s.Raised k s') (g : Nat) :
    s'.readersOf (g + k) = (s.readersOf g).map (· + k) := by
  unfold Session.readersOf
  rcases rel_elim (h.generator g) with ⟨e1, e2⟩ | ⟨gen, gen', e1, e2, hgen⟩
  · rw [e1, e2]
    rfl
  · rw [e1, e2]
    simp only [hgen.fields.2.2.2.2.1, List.filterMap_map, List.map_filterMap]
    congr 1
    funext c
    simp only [Function.comp, h.consumer]
    rcases s.consumers[c]? with - | ⟨gen, read, o, suspended, scheduled⟩
    · rfl
    · cases o <;> rfl

theorem isIncomplete (h : s.Raised k s') (g : Nat) :
    s'.isIncomplete (g + k) = s.isIncomplete g := by
  unfold Session.isIncomplete
  rcases rel_elim (h.generator g) with ⟨e1, e2⟩ | ⟨gen, gen', e1, e2, hgen⟩
  · rw [e1, e2]
  · rw [e1, e2]
    simp only [hgen.fields.2.2.2.1]

theorem reach (h : s.Raised k s') (n : Nat) (pending : List Nat) {a a' : IdSet}
    (ha : a.Raised k a') :
    (s.reach n pending a).Raised k (s'.reach n (pending.map (· + k)) a') := by
  induction n generalizing pending a a' with
  | zero => exact ha
  | succ n ih =>
    have hdrop : (pending.map (· + k)).dropWhile
        (fun g => !s'.isIncomplete g || a'.contains g) =
        (pending.dropWhile fun g => !s.isIncomplete g || a.contains g).map (· + k) := by
      rw [List.dropWhile_map]
      congr 2
      funext g
      simp only [Function.comp, h.isIncomplete, ha.contains]
    unfold Session.reach
    rw [hdrop]
    cases pending.dropWhile fun g => !s.isIncomplete g || a.contains g with
    | nil => exact ha
    | cons g rest =>
      simp only [List.map_cons, h.waitsFor, ← List.map_append]
      exact ih _ (ha.insert g)

theorem reachable (h : s.Raised k s') (roots : List Nat) :
    (s.reachable roots).Raised k (s'.reachable (roots.map (· + k))) := by
  have hsize : s'.generators.size = s.generators.size := by
    refine size_raised (fun g => ?_) h.noGenerator
    rcases rel_elim (h.generator g) with ⟨e1, e2⟩ | ⟨gen, gen', e1, e2, -⟩
    · rw [e1, e2]
    · rw [e1, e2]
      rfl
  unfold Session.reachable
  rw [hsize, ← List.map_reverse]
  exact h.reach _ _ rfl

theorem canRun (h : s.Raised k s') (g : Nat) : s'.canRun (g + k) = s.canRun g := by
  unfold Session.canRun
  rcases rel_elim (h.generator g) with ⟨e1, e2⟩ | ⟨gen, gen', e1, e2, hgen⟩
  · rw [e1, e2]
  · obtain ⟨-, -, hready, -, -, hgenerating⟩ := hgen.fields
    rw [e1, e2]
    simp only [hready, hgenerating, List.any_map]
    rw [show s'.isReady ∘ (· + k) = s.isReady from funext h.isReady]

/-- More generators are live. -/
theorem revive {all all' a a' : IdSet} (hall : all.Raised k all') (fresh gs : List Nat)
    (ha : a.Raised k a') : ∃ a1 a1' fresh1,
      gs.foldl (Session.revive all) (fresh, a) = (fresh1, a1) ∧
      (gs.map (· + k)).foldl (Session.revive all') (fresh.map (· + k), a') =
        (fresh1.map (· + k), a1') ∧ a1.Raised k a1' := by
  induction gs generalizing fresh a a' with
  | nil => exact ⟨a, a', fresh, rfl, rfl, ha⟩
  | cons g gs ih =>
    have hone : Session.revive all' (fresh.map (· + k), a') (g + k) =
        if all.contains g && !a.contains g then ((g :: fresh).map (· + k), a'.insert (g + k))
        else (fresh.map (· + k), a') := by
      unfold Session.revive
      simp only [hall.contains, ha.contains]
      rfl
    have hone0 : Session.revive all (fresh, a) g =
        if all.contains g && !a.contains g then (g :: fresh, a.insert g) else (fresh, a) := rfl
    rw [List.foldl_cons, List.map_cons, List.foldl_cons, hone, hone0]
    split
    · exact ih (g :: fresh) (ha.insert g)
    · exact ih fresh ha

theorem spread (h : s.Raised k s') {all all' : IdSet} (hall : all.Raised k all') (n : Nat)
    (fresh : List Nat) {a a' : IdSet} (ha : a.Raised k a') :
    (s.spread all n fresh a).Raised k (s'.spread all' n (fresh.map (· + k)) a') := by
  induction n generalizing fresh a a' with
  | zero => cases fresh <;> exact ha
  | succ n ih =>
    cases fresh with
    | nil => exact ha
    | cons g fresh =>
      rw [List.map_cons, Session.spread, Session.spread, hall.size, ha.size]
      split
      · exact ha
      · obtain ⟨a1, a1', fresh1, e1, e2, h1⟩ := revive hall fresh (s.readersOf g) ha
        rw [h.readersOf, e1, e2]
        exact ih fresh1 h1

theorem liveAmong (h : s.Raised k s') {all all' : IdSet} (hall : all.Raised k all') :
    (s.liveAmong all).Raised k (s'.liveAmong all') := by
  have hfilter : all'.toList.filter s'.canRun = (all.toList.filter s.canRun).map (· + k) := by
    rw [hall.toList, List.filter_map]
    congr 2
    funext g
    exact h.canRun g
  have hnone : IdSet.Raised k {} {} := rfl
  obtain ⟨a1, a1', fresh1, e1, e2, h1⟩ := revive hall [] (all.toList.filter s.canRun) hnone
  unfold Session.liveAmong
  rw [List.map_nil] at e2
  rw [hfilter, e1, e2, hall.size]
  exact h.spread hall _ fresh1 h1

theorem checkCompletion (h : s.Raised k s') (roots : List Nat) :
    (s.checkCompletion roots).Raised k (s'.checkCompletion (roots.map (· + k))) := by
  have hall := h.reachable roots
  have hdead : (s'.reachable (roots.map (· + k))).toList.filter
      (fun g => !(s'.liveAmong (s'.reachable (roots.map (· + k)))).contains g) =
      ((s.reachable roots).toList.filter
        fun g => !(s.liveAmong (s.reachable roots)).contains g).map (· + k) := by
    rw [hall.toList, List.filter_map]
    congr 2
    funext g
    simp only [Function.comp, (h.liveAmong hall).contains]
  unfold Session.checkCompletion
  simp only [hdead]
  exact h.completeAll .generatorDeadlocked _

/-! ## Closing a query -/

theorem closeQuery (h : s.Raised k s') (q : Nat) :
    (s.closeQuery q).Raised k (s'.closeQuery (q + k)) := by
  have howned : s'.ownedBy (.query (q + k)) =
      (s.ownedBy (.query q)).map fun p => (p.1 + k, p.2.raise k) := h.ownedBy (.query q)
  have hremoved : Raised k (s.removeAll (s.ownedBy (.query q)))
      (s'.removeAll (s'.ownedBy (.query (q + k)))) := h.removeOwned (.query q)
  unfold Session.closeQuery
  simp only
  change Raised k (if (s.removeAll (s.ownedBy (.query q))).queries.contains q then _ else _)
    (if (s'.removeAll (s'.ownedBy (.query (q + k)))).queries.contains (q + k) then _ else _)
  rw [Std.TreeMap.contains_eq_isSome_getElem?, Std.TreeMap.contains_eq_isSome_getElem?,
    hremoved.query, Option.isSome_map]
  split
  · have herase : Session.Raised k
        { s.removeAll (s.ownedBy (.query q)) with
          queries := (s.removeAll (s.ownedBy (.query q))).queries.erase q }
        { s'.removeAll (s'.ownedBy (.query (q + k))) with
          queries := (s'.removeAll (s'.ownedBy (.query (q + k)))).queries.erase (q + k) } :=
      { hremoved with
        query := fun i => by
          change ((s'.removeAll _).queries.erase (q + k))[i + k]? =
            (((s.removeAll _).queries.erase q)[i]?).map _
          simp only [Std.TreeMap.getElem?_erase, Std.LawfulEqCmp.compare_eq_iff_eq]
          by_cases e : q = i
          · rw [if_pos e, if_pos (congrArg (· + k) e)]
            rfl
          · rw [if_neg e, if_neg fun e' => e (Nat.add_right_cancel e')]
            exact hremoved.query i
        noQuery := fun i hi => by
          change ((s'.removeAll _).queries.erase (q + k))[i]? = none
          rw [Std.TreeMap.getElem?_erase, hremoved.noQuery i hi, ite_self] }
    have hroots : (s'.ownedBy (.query (q + k))).map (fun p => p.2.generator) =
        ((s.ownedBy (.query q)).map fun p => p.2.generator).map (· + k) := by
      rw [howned, List.map_map, List.map_map]
      rfl
    refine Raised.note ?_ _ _
    have := herase.checkCompletion ((s.ownedBy (.query q)).map fun p => p.2.generator)
    rw [← hroots] at this
    exact this
  · exact hremoved

/-- To close a query that is older than the session does nothing. -/
theorem closeQuery_old (h : s.Raised k s') (hq : q ≤ k) : s'.closeQuery q = s' := by
  have hnone : s'.ownedBy (.query q) = [] := by
    refine List.eq_nil_iff_forall_not_mem.2 fun ⟨c, x⟩ hmem => ?_
    obtain ⟨hx, ho⟩ := mem_ownedBy.1 hmem
    exact h.not_owned hq hx ho
  have hclosed : ¬ s'.queries.contains q = true := by
    rw [Std.TreeMap.contains_eq_isSome_getElem?, h.noQuery q hq]
    exact Bool.false_ne_true
  unfold Session.closeQuery
  rw [hnone]
  exact if_neg hclosed

end Session.Raised

end TabledRules
