-- What the tables cost that are there and those that may still be called. There are
-- only so many goals over the ground terms that there are, so a call of a new one is
-- paid for as well.
import TabledRules.Proofs.FlatSessions

namespace TabledRules

open Finset

/-! ## Bounds -/

/-- The bounds for goals over a stock. -/
def Program.scale (P : Program) (facts : List Triple) (T : Stock) : Scale where
  facts := facts.length
  results := T.results.length
  code := (P.rules.clauses.toList.map fun cl => cl.code.length).sum

theorem Program.code_le_scale (P : Program) (facts : List Triple) (T : Stock) {cl : Clause}
    (hcl : cl ∈ P.rules.clauses.toList) : cl.code.length ≤ (P.scale facts T).code :=
  List.le_sum_of_mem (List.mem_map_of_mem hcl)

/-- The tables are flat, and their goals are over the stock. -/
structure Session.Within (P : Program) (facts : List Triple) (T : Stock) (s : Session) : Prop
    extends s.Flat P facts where
  goal_over : ∀ {g : Nat} {gen : Generator}, s.generators[g]? = some gen → gen.goal.Over T

/-! ## Costs -/

/-- What the machine for a new goal costs, and its generator. -/
def Program.startCost (P : Program) (sc : Scale) (goal : Triple) : Nat :=
  3 + (P.rules.codeFor goal.standard).length * (sc.cost (sc.code + 1) + 1) +
    sc.facts * (sc.cost 1 + 1)

def Generator.cost (sc : Scale) (s : Session) (gen : Generator) : Nat :=
  if gen.complete then 0 else 1 + gen.machine.elim 0 (Machine.cost sc s)

/-- What the table costs if there is one. -/
def Session.tableCost (sc : Scale) (s : Session) (g : Nat) : Nat :=
  (s.generators[g]?).elim 0 (Generator.cost sc s)

/-- The goals over a stock that have no table. -/
def Stock.fresh (T : Stock) (s : Session) : List Triple :=
  T.keys.filter fun key => key ∉ s.goals.toList.map Prod.fst

def Session.cost (P : Program) (facts : List Triple) (T : Stock) (s : Session) : Nat :=
  ((T.fresh s).map (P.startCost (P.scale facts T))).sum +
    ∑ g ∈ range s.nextId, s.tableCost (P.scale facts T) g

section

variable {P : Program} {facts : List Triple} {S T : Stock} {sc : Scale} {st : Settings}
  {s s' : Session} {m m' : Machine} {g a b : Nat} {goal t value : Triple}

theorem Session.Within.size_le (h : s.Within P facts T) (hT : P.Serves facts T) {gen : Generator}
    (hgen : s.generators[g]? = some gen) : gen.results.size ≤ (P.scale facts T).results := by
  obtain ⟨hnodup, hsettled⟩ := h.results hgen
  exact Stock.length_le_results hnodup fun t ht => (hsettled t ht).mono (hT.stock (h.goal_over hgen))

theorem Generator.cost_eq_zero {gen : Generator} (h : gen.complete = true) :
    gen.cost sc s = 0 := if_pos h

theorem Generator.cost_of_incomplete {gen : Generator} (h : gen.complete = false) :
    gen.cost sc s = 1 + gen.machine.elim 0 (Machine.cost sc s) := by
  rw [cost, h, if_neg (by simp)]

theorem Generator.cost_le_of {gen gen' : Generator} (hs : s.Recedes sc.results s')
    (hm : ∀ m, gen.machine = some m → m.Flat P facts S s)
    (hcomplete : gen.complete = true → gen'.complete = true)
    (hmachine : gen'.machine = gen.machine ∨ gen'.machine = none) :
    gen'.cost sc s' ≤ gen.cost sc s := by
  cases hc' : gen'.complete with
  | true => rw [cost_eq_zero hc']; exact Nat.zero_le _
  | false =>
    have hc : gen.complete = false := by
      cases hc : gen.complete with
      | false => rfl
      | true => rw [hcomplete hc] at hc'; cases hc'
    rw [cost_of_incomplete hc', cost_of_incomplete hc]
    refine Nat.add_le_add_left ?_ 1
    rcases hmachine with e | e
    · rw [e]
      cases hgen : gen.machine with
      | none => exact Nat.le_refl _
      | some m => exact (hm m hgen).cost_le sc hs
    · rw [e]
      exact Nat.zero_le _

theorem Session.tableCost_of_some {gen : Generator} (h : s.generators[g]? = some gen) :
    s.tableCost sc g = gen.cost sc s := by rw [tableCost, h, Option.elim_some]

theorem Session.Flat.tableCost_eq_zero (h : s.Flat P facts) (hg : s.nextId ≤ g) :
    s.tableCost sc g = 0 := by
  unfold tableCost
  cases hgen : s.generators[g]? with
  | none => rfl
  | some gen => exact absurd (h.generator_lt hgen) (Nat.not_lt.2 hg)

/-- A table that goes on as it was. -/
theorem Session.Flat.tableCost_le (h : s.Flat P facts) (hs : s.Recedes sc.results s')
    (hgen : ∀ gen' : Generator, s'.generators[g]? = some gen' →
      ∃ gen : Generator, s.generators[g]? = some gen ∧
        (gen.complete = true → gen'.complete = true) ∧
        (gen'.machine = gen.machine ∨ gen'.machine = none)) :
    s'.tableCost sc g ≤ s.tableCost sc g := by
  unfold tableCost
  cases hgen' : s'.generators[g]? with
  | none => exact Nat.zero_le _
  | some gen' =>
    obtain ⟨gen, hold, hcomplete, hmachine⟩ := hgen gen' hgen'
    rw [hold, Option.elim_some, Option.elim_some]
    exact Generator.cost_le_of hs (fun m hm => h.machine hold hm) hcomplete hmachine

/-- All tables but one go on as they were. -/
theorem Session.Flat.cost_shift (h : s.Flat P facts)
    (hgoals : s'.goals = s.goals)
    (hle : ∀ g', g' ≠ g → s'.tableCost (P.scale facts T) g' ≤ s.tableCost (P.scale facts T) g')
    (hg : s'.tableCost (P.scale facts T) g + a ≤ s.tableCost (P.scale facts T) g + b) :
    s'.cost P facts T + a ≤ s.cost P facts T + b := by
  have hsum := sum_range_shift (n := s.nextId) (p := s'.nextId)
    (fun _ => h.tableCost_eq_zero) hle hg
  have hfresh : T.fresh s' = T.fresh s := by rw [Stock.fresh, Stock.fresh, hgoals]
  unfold cost
  rw [hfresh]
  omega

theorem Session.Flat.cost_le (h : s.Flat P facts) (hgoals : s'.goals = s.goals)
    (hle : ∀ g', s'.tableCost (P.scale facts T) g' ≤ s.tableCost (P.scale facts T) g') :
    s'.cost P facts T ≤ s.cost P facts T :=
  h.cost_shift (g := 0) (a := 0) (b := 0) hgoals (fun g' _ => hle g') (hle 0)

/-! ## What happens to tables -/

theorem Session.Flat.tableCost_ebbs (h : s.Flat P facts) (hs : s.Ebbs s') (g : Nat) :
    s'.tableCost sc g ≤ s.tableCost sc g := by
  refine h.tableCost_le (hs.recedes _) fun gen' hgen' => ?_
  obtain ⟨gen, hgen, -, -, hmachine⟩ := hs.sameTables.generator hgen'
  obtain ⟨gen1, hgen1, hfollows⟩ := hs.spares.generator hgen
  cases hgen'.symm.trans hgen1
  exact ⟨gen, hgen, hfollows.complete, hmachine⟩

theorem Session.Flat.cost_ebbs (h : s.Flat P facts) (hs : s.Ebbs s') :
    s'.cost P facts T ≤ s.cost P facts T :=
  h.cost_le hs.sameTables.goals fun g => h.tableCost_ebbs hs g

theorem Session.Within.ebbs (h : s.Within P facts T) (hs : s.Ebbs s') : s'.Within P facts T where
  toFlat := h.toFlat.ebbs hs
  goal_over hgen := by
    obtain ⟨gen, hold, e, -⟩ := hs.sameTables.generator hgen
    rw [e]
    exact h.goal_over hold

/-- A result is read. -/
theorem Session.Within.read (h : s.Within P facts T) (hT : P.Serves facts T) {c : Nat}
    (hread : s.read c = (.result t, s')) :
    s'.Within P facts T ∧ s'.cost P facts T ≤ s.cost P facts T ∧
      s.Recedes (P.scale facts T).results s' ∧
      s'.lag (P.scale facts T).results c < s.lag (P.scale facts T).results c := by
  obtain ⟨hrecedes, hlag⟩ := Session.recedes_read hread fun g gen hgen => h.size_le hT hgen
  have hsame := s.sameTables_read c
  have hspares := s.spares_read c (o := fun _ => True) fun _ _ => trivial
  rw [hread] at hsame hspares
  refine ⟨⟨h.toFlat.spares hsame hspares, fun hgen => ?_⟩, h.toFlat.cost_le hsame.goals fun g =>
    h.tableCost_le hrecedes fun gen' hgen' => ?_, hrecedes, hlag⟩
  · obtain ⟨gen, hold, e, -⟩ := hsame.generator hgen
    rw [e]
    exact h.goal_over hold
  · obtain ⟨gen, hgen, -, -, hmachine⟩ := hsame.generator hgen'
    obtain ⟨gen1, hgen1, hfollows⟩ := hspares.generator hgen
    cases hgen'.symm.trans hgen1
    exact ⟨gen, hgen, hfollows.complete, hmachine⟩

/-! ## Tables that are called -/

/-- A goal without a table is not among the goals of tables. -/
theorem Session.Flat.not_filed (h : s.Flat P facts) (hnone : s.generatorOf? value = none) :
    value.variantKey ∉ s.goals.toList.map Prod.fst := by
  intro hmem
  obtain ⟨⟨key, g⟩, hg, e⟩ := List.mem_map.1 hmem
  obtain rfl : key = value.variantKey := e
  cases hlookup : (s.goals.bucket value.variantKey.digest).lookup value.variantKey with
  | none =>
    have hbucket : (value.variantKey, g) ∈ s.goals.bucket value.variantKey.digest := by
      rw [Index.bucket_eq]
      exact List.mem_filter.2 ⟨hg, decide_eq_true rfl⟩
    have hne := List.lookup_eq_none_iff.1 hlookup _ hbucket
    simp at hne
  | some g' =>
    have hmem' := lookup_mem hlookup
    rw [Index.bucket_eq] at hmem'
    obtain ⟨gen, hgen, -⟩ := h.filed (List.mem_of_mem_filter hmem')
    unfold Session.generatorOf? at hnone
    simp only [hlookup, hgen] at hnone
    cases hnone

/-- A new machine costs no more than what is kept for it. -/
theorem Machine.cost_start (hP : P.Simple facts) {owner : Owner}
    (hm : Machine.start (P.world st) goal owner = .ok m) (s : Session) :
    1 + m.cost (P.scale facts T) s ≤ P.startCost (P.scale facts T) goal := by
  obtain ⟨m0, hblank, rfl⟩ := start_eq hm
  obtain ⟨-, -, hstack, hsuspended, -⟩ := blank_eq hblank
  have hzero : m0.cost (P.scale facts T) s = 0 := by
    unfold cost
    rw [hstack, hsuspended, List.map_nil, List.sum_nil, Nat.zero_add]
    exact sum_eq_zero fun d _ => by rw [Std.TreeMap.getElem?_emptyc]; rfl
  have hrank : rank .root [.proceed] = 1 := rfl
  have hfacts : (P.find goal.standard.lookupKey).length * ((P.scale facts T).cost 1 + 1) ≤
      (P.scale facts T).facts * ((P.scale facts T).cost 1 + 1) :=
    Nat.mul_le_mul_right _ (hP.length_le _)
  rw [Machine.cost_pushed, hrank, Alternatives.cost, Program.startCost]
  unfold Machine.pushedClauses
  split
  · rw [hzero]
    omega
  · rw [Machine.cost_pushed, hrank, Alternatives.cost, hzero]
    omega

/-- The table of a goal over the stock is there, or it is paid for. -/
theorem Session.Within.generatorFor (h : s.Within P facts T) (hP : P.Simple facts)
    (hvalue : value.Over T) (hg : s.generatorFor (P.world st) value = (.ok g, s')) :
    s'.Within P facts T ∧ s'.cost P facts T ≤ s.cost P facts T := by
  obtain ⟨hflat, hrecedes, -⟩ := h.toFlat.generatorFor hP hvalue.shape hg
  rcases generatorFor_cases hg with ⟨g', gen, -, -, rfl⟩ | ⟨-, e, hx, -⟩ | ⟨m, hnone, hm, -, rfl⟩
  · exact ⟨h, Nat.le_refl _⟩
  · cases hx
  · refine ⟨⟨hflat, fun hgen => ?_⟩, ?_⟩
    · rw [generators_withGenerator] at hgen
      split at hgen
      · cases hgen
        exact hvalue.variantKey
      · exact h.goal_over hgen
    · -- the goal is not fresh any more, and its table is new
      have hnot := h.not_filed hnone
      have hkey : value.variantKey ∈ T.fresh s :=
        List.mem_filter.2 ⟨hvalue.mem_keys, decide_eq_true hnot⟩
      have hfresh : T.fresh (s.withGenerator value.variantKey m) =
          (T.fresh s).filter fun key => key ≠ value.variantKey := by
        rw [Stock.fresh, Stock.fresh, List.filter_filter, goals_withGenerator]
        refine List.filter_congr fun key _ => ?_
        rw [Bool.eq_iff_iff]
        simp only [decide_eq_true_eq, Bool.and_eq_true, List.map_append, List.mem_append,
          List.map_singleton, List.mem_singleton, not_or]
        exact and_comm
      have hsum := sum_range_shift (n := s.nextId)
        (p := (s.withGenerator value.variantKey m).nextId) (k := s.nextId) (a := 0)
        (b := 1 + m.cost (P.scale facts T) (s.withGenerator value.variantKey m))
        (fun _ => h.tableCost_eq_zero)
        (g := (s.withGenerator value.variantKey m).tableCost (P.scale facts T))
        (fun g' hne => h.tableCost_le (hrecedes _) fun gen' hgen' => ?_) ?_
      · have hstart := Machine.cost_start (T := T) hP hm (s.withGenerator value.variantKey m)
        have hpaid := sum_filter_ne_add_le (f := P.startCost (P.scale facts T)) hkey
        unfold Session.cost
        rw [hfresh]
        omega
      · rw [generators_withGenerator, if_neg (Ne.symm hne)] at hgen'
        exact ⟨gen', hgen', id, .inl rfl⟩
      · rw [Session.tableCost_of_some (by rw [generators_withGenerator, if_pos rfl]),
          Generator.cost_of_incomplete rfl]
        exact Nat.le_add_left _ _

theorem Session.Within.addConsumer (h : s.Within P facts T) (owner : Owner) (hg : s.About g goal) :
    (s.addConsumer g owner).2.Within P facts T ∧
      (s.addConsumer g owner).2.cost P facts T ≤ s.cost P facts T := by
  obtain ⟨hflat, hrecedes, -⟩ := h.toFlat.addConsumer owner hg
  refine ⟨⟨hflat, fun hgen => ?_⟩, h.toFlat.cost_le rfl fun g' => h.tableCost_le (hrecedes _)
    fun gen' hgen' => ?_⟩
  · obtain ⟨gen, hold, e, -⟩ := Session.look_addConsumer hgen
    rw [e]
    exact h.goal_over hold
  · obtain ⟨gen, hold, -, -, e1, e2⟩ := Session.look_addConsumer hgen'
    exact ⟨gen, hold, fun hc => e2.trans hc, .inl e1⟩

/-! ## Machines that are out -/

/-- A table gets a result. -/
theorem Session.Within.push (h : s.Within P facts T) {gen : Generator}
    (hgen : s.generators[g]? = some gen) (hnew : gen.isNew t = true)
    (ht : t.Settled (P.stock facts gen.goal)) :
    (s.modifyGenerator g fun gen => { gen with results := gen.results.push t }).Within P facts T ∧
      (s.modifyGenerator g fun gen => { gen with results := gen.results.push t }).cost P facts T ≤
        s.cost P facts T := by
  obtain ⟨hflat, hrecedes⟩ := h.toFlat.push hgen hnew ht
  refine ⟨⟨hflat, fun hgen' => ?_⟩, h.toFlat.cost_le rfl fun g' => h.tableCost_le (hrecedes _)
    fun gen' hgen' => ?_⟩
  · obtain ⟨gen1, hgen1, e, -⟩ := Session.look_modifyGenerator hgen' fun _ => rfl
    rw [e]
    exact h.goal_over hgen1
  · obtain ⟨gen1, hgen1, -, ⟨-, rfl⟩ | ⟨-, rfl⟩⟩ := Session.look_modifyGenerator hgen' fun _ => rfl
    · exact ⟨_, hgen1, id, .inl rfl⟩
    · exact ⟨_, hgen1, id, .inl rfl⟩

/-- What a machine that is taken out costs is taken off the cost of the tables. -/
theorem Session.Within.cost_takeOut (h : s.Within P facts T) {gen : Generator}
    (hgen : s.generators[g]? = some gen) (hinc : gen.complete = false) (hm : gen.machine = some m) :
    (s.modifyGenerator g fun gen => { gen with machine := none }).cost P facts T +
      m.cost (P.scale facts T) s ≤ s.cost P facts T := by
  have hebbs := s.ebbs_takeOut g
  refine h.toFlat.cost_shift (g := g) (b := 0) rfl (fun g' _ => h.tableCost_ebbs hebbs g') ?_
  have hout : (s.modifyGenerator g fun gen => { gen with machine := none }).generators[g]? =
      some { gen with machine := none } := by
    rw [Session.generators_modifyGenerator, if_pos rfl, hgen]
    rfl
  have hinc' : ({ gen with machine := none } : Generator).complete = false := hinc
  rw [Session.tableCost_of_some hgen, Session.tableCost_of_some hout,
    Generator.cost_of_incomplete hinc', Generator.cost_of_incomplete hinc, hm, Option.elim_none,
    Option.elim_some]
  omega

/-- What a machine that is put back costs is added to the cost of the tables. -/
theorem Session.Within.putBack (h : s.Within P facts T) (hg : s.About g goal)
    (hm : m.Flat P facts (P.stock facts goal) s) :
    (s.modifyGenerator g fun gen => { gen with machine := some m }).Within P facts T ∧
      (s.modifyGenerator g fun gen => { gen with machine := some m }).cost P facts T ≤
        s.cost P facts T + m.cost (P.scale facts T) s := by
  obtain ⟨hflat, hrecedes⟩ := h.toFlat.putBack hg hm
  refine ⟨⟨hflat, fun hgen => ?_⟩, h.toFlat.cost_shift (g := g) (a := 0) rfl
    (fun g' hne => h.tableCost_le (hrecedes _) fun gen' hgen => ?_) ?_⟩
  · obtain ⟨gen, hold, e, -⟩ := Session.look_modifyGenerator hgen fun _ => rfl
    rw [e]
    exact h.goal_over hold
  · obtain ⟨gen, hold, -, ⟨-, rfl⟩ | ⟨e, -⟩⟩ := Session.look_modifyGenerator hgen fun _ => rfl
    · exact ⟨_, hold, id, .inl rfl⟩
    · exact absurd e hne
  · cases hgen : s.generators[g]? with
    | none =>
      have hnone : (s.modifyGenerator g fun gen =>
          { gen with machine := some m }).generators[g]? = none := by
        rw [Session.generators_modifyGenerator, if_pos rfl, hgen]
        rfl
      rw [Session.tableCost, hnone]
      exact Nat.zero_le _
    | some gen =>
      have hback : (s.modifyGenerator g fun gen => { gen with machine := some m }).generators[g]? =
          some { gen with machine := some m } := by
        rw [Session.generators_modifyGenerator, if_pos rfl, hgen]
        rfl
      have hcost := hm.cost_le (P.scale facts T) (hrecedes _)
      rw [Session.tableCost_of_some hgen, Session.tableCost_of_some hback]
      rcases Bool.eq_false_or_eq_true gen.complete with hc | hc
      · have hc' : ({ gen with machine := some m } : Generator).complete = true := hc
        rw [Generator.cost_eq_zero hc']
        exact Nat.zero_le _
      · have hc' : ({ gen with machine := some m } : Generator).complete = false := hc
        rw [Generator.cost_of_incomplete hc', Generator.cost_of_incomplete hc, Option.elim_some]
        omega

theorem Session.Within.endPump (h : s.Within P facts T) (hg : s.About g goal)
    (hm : m.Flat P facts (P.stock facts goal) s) (n : Nat) :
    (s.endPump g n m).Within P facts T ∧ (∀ R, s.Recedes R (s.endPump g n m)) ∧
      (s.endPump g n m).cost P facts T ≤ s.cost P facts T + m.cost (P.scale facts T) s := by
  unfold Session.endPump
  split
  · exact ⟨h, fun R => .refl R s, Nat.le_add_right _ _⟩
  · next gen hgen =>
    obtain ⟨h1, hle⟩ := h.putBack hg hm
    have hnoted := ((s.modifyGenerator g fun gen => { gen with machine := some m }).noted_note
      (.generatorPumped g gen.goal n gen.results.size)).ebbs
    exact ⟨h1.ebbs hnoted, fun R => ((h.toFlat.putBack hg hm).2 R).trans (hnoted.recedes R),
      (h1.toFlat.cost_ebbs hnoted).trans hle⟩

/-! ## Completion -/

/-- A table that becomes complete costs nothing any more. -/
theorem Session.Within.complete (h : s.Within P facts T) (event : Triple → Nat → Event) (g : Nat) :
    s.complete event g = s ∨ (s.complete event g).cost P facts T < s.cost P facts T := by
  rcases s.complete_cases event g with e | ⟨gen, hgen, hinc⟩
  · exact .inl e
  · refine .inr ?_
    have hebbs := s.ebbs_complete event g
    obtain ⟨gen', hgen', hc⟩ := Session.done_complete event hgen
    have hshift := h.toFlat.cost_shift (T := T) (g := g) (a := 1) (b := 0)
      hebbs.sameTables.goals (fun g' _ => h.tableCost_ebbs hebbs g') ?_
    · omega
    · rw [Session.tableCost_of_some hgen, Session.tableCost_of_some hgen', Generator.cost_eq_zero hc,
        Generator.cost_of_incomplete hinc]
      omega

end

end TabledRules
