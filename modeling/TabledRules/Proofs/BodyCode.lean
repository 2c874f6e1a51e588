-- The code of a body passes the goals and the arguments of builtins on as the
-- rule says. It never fails before a call, and it leaves the values of the
-- variables in their registers for the entries that follow.
import TabledRules.Proofs.HeadCode

namespace TabledRules

/-! ## The values that are passed on -/

section

variable {r : Rule} {values : Bool} {θ θ' : Values} {b b' : Bindings} {t u : Term}
  {ts us : List Term} {v : String}

theorem putLeaf_keeps (h : r.putLeaf values θ b t = (u, θ', b')) {x : Term}
    (hv : θ v = some x) : θ' v = some x := by
  unfold Rule.putLeaf at h
  split at h
  · next w =>
    split at h
    · cases h; exact hv
    · next hw =>
      cases h
      rw [Values.set_of_ne θ _ (by rintro rfl; rw [hw] at hv; cases hv)]
      exact hv
  · cases h; exact hv
  · cases h; exact hv

theorem putLeaf_isSome (h : r.putLeaf values θ b t = (u, θ', b')) :
    (θ' v).isSome ↔ (θ v).isSome ∨ t = .var v := by
  unfold Rule.putLeaf at h
  split at h
  · next w =>
    split at h
    · next x hx =>
      cases h
      constructor
      · exact .inl
      · rintro (h | h)
        · exact h
        · cases h; simp [hx]
    · next hw =>
      cases h
      by_cases e : v = w
      · subst e; simp
      · rw [Values.set_of_ne θ _ e]
        simp [Ne.symm e]
  · cases h; simp
  · next hvar _ =>
    cases h
    simp only [iff_self_or]
    intro e
    exact absurd e (hvar v)

theorem putLeaves_cons (h : r.putLeaves values θ b (t :: ts) = (us, θ', b')) :
    ∃ u θ1 b1 us1, r.putLeaf values θ b t = (u, θ1, b1) ∧
      r.putLeaves values θ1 b1 ts = (us1, θ', b') ∧ us = u :: us1 := by
  rcases hu : r.putLeaf values θ b t with ⟨u, θ1, b1⟩
  rcases hus : r.putLeaves values θ1 b1 ts with ⟨us1, θ2, b2⟩
  simp only [Rule.putLeaves, hu, hus] at h
  cases h
  exact ⟨u, θ1, b1, us1, rfl, hus, rfl⟩

theorem putLeaves_keeps (h : r.putLeaves values θ b ts = (us, θ', b')) {x : Term}
    (hv : θ v = some x) : θ' v = some x := by
  induction ts generalizing θ b us with
  | nil => cases h; exact hv
  | cons t ts ih =>
    obtain ⟨u, θ1, b1, us1, hu, hus, rfl⟩ := putLeaves_cons h
    exact ih hus (putLeaf_keeps hu hv)

theorem putLeaves_isSome (h : r.putLeaves values θ b ts = (us, θ', b')) :
    (θ' v).isSome ↔ (θ v).isSome ∨ .var v ∈ ts := by
  induction ts generalizing θ b us with
  | nil => cases h; simp
  | cons t ts ih =>
    obtain ⟨u, θ1, b1, us1, hu, hus, rfl⟩ := putLeaves_cons h
    rw [ih hus, putLeaf_isSome hu, List.mem_cons, or_assoc, eq_comm (a := Term.var v)]

theorem length_putLeaves (h : r.putLeaves values θ b ts = (us, θ', b')) :
    us.length = ts.length := by
  induction ts generalizing θ b us with
  | nil => cases h; rfl
  | cons t ts ih =>
    obtain ⟨u, θ1, b1, us1, hu, hus, rfl⟩ := putLeaves_cons h
    simp [ih hus]

end

/-! ## Registers that are kept -/

/-- The slots of a clause have the values of the variables that live in them. -/
structure Rule.Keeps (r : Rule) (known : List String) (θ : Values)
    (vars : List (Option Term)) : Prop where
  length : vars.length = r.placement.permanent.length
  var : ∀ {v i t}, r.placement.slot? v = some i → θ v = some t → vars[i]? = some (some t)
  known_iff : ∀ {v i}, r.placement.slot? v = some i → (v ∈ known ↔ (θ v).isSome)

/-- The value of a variable that is to be passed as the argument `arg` is in its
register. -/
structure Rule.Ready (r : Rule) (θ : Values) (g : Registers) (arg : Nat) (t : Term) : Prop where
  dummy : ∀ {v}, t = .var v → r.placement.isDummy v = true → θ v = none
  temp : ∀ {v i}, t = .var v → r.placement.temp? v = some i → ∃ u, θ v = some u ∧
    (r.placement.inPlace v = false → g.temps[i]? = some (some u)) ∧
    (r.placement.inPlace v = true → g.args[arg]? = some u)

namespace Rule.Keeps

variable {r : Rule} {known : List String} {θ : Values} {vars : List (Option Term)} {v : String}
  {i : Nat} {a : Term}

theorem set_other (h : r.Keeps known θ vars) (hv : r.placement.slot? v = none) :
    r.Keeps known (θ.set v a) vars := by
  refine ⟨h.length, fun {u j t} hu ht => ?_, fun {u j} hu => ?_⟩
  · have hne : u ≠ v := by rintro rfl; rw [hv] at hu; cases hu
    exact h.var hu (by rwa [Values.set_of_ne θ a hne] at ht)
  · have hne : u ≠ v := by rintro rfl; rw [hv] at hu; cases hu
    rw [Values.set_of_ne θ a hne]
    exact h.known_iff hu

theorem set_slot (h : r.Keeps known θ vars) (hs : r.placement.slot? v = some i) :
    r.Keeps (v :: known) (θ.set v a) (vars.set i (some a)) := by
  refine ⟨by simpa using h.length, fun {u j t} hu ht => ?_, fun {u j} hu => ?_⟩
  · by_cases hne : u = v
    · subst hne
      rw [hs] at hu
      cases hu
      rw [Values.set_self] at ht
      cases ht
      exact List.getElem?_set_self (by rw [h.length]; exact lt_of_slot hs)
    · rw [Values.set_of_ne θ a hne] at ht
      have hij : i ≠ j := by rintro rfl; exact hne (slot_inj hu hs)
      rw [List.getElem?_set_ne hij]
      exact h.var hu ht
  · by_cases hne : u = v
    · subst hne; simp
    · rw [Values.set_of_ne θ a hne, List.mem_cons, h.known_iff hu]
      simp [hne]

end Rule.Keeps

/-! ## Passing terms -/

/-- What a body does with a variable. -/
theorem putLeaf_var (r : Rule) (values : Bool) (d : Draft) (arg : Nat) (v : String) :
    r.placement.isDummy v = true ∧ r.placement.slot? v = none ∧
      d.putLeaf r.placement values arg (.var v) = d.emit (.clearArg arg) ∨
    (∃ i, r.placement.temp? v = some i ∧ r.placement.slot? v = none ∧
      d.putLeaf r.placement values arg (.var v) =
        if r.placement.inPlace v then d else d.emit (.putTemp i arg)) ∨
    ∃ i, r.placement.slot? v = some i ∧
      d.putLeaf r.placement values arg (.var v) =
        d.emitFirst v (.putNewVariable i arg)
          (if values then .putDerefVariable i arg else .putVariable i arg) := by
  rcases kinds r v with hd | ⟨hd, ⟨i, ht⟩ | ⟨ht, i, hs⟩⟩
  · refine .inl ⟨hd, ?_, by simp [Draft.putLeaf, hd]⟩
    by_contra h
    obtain ⟨i, hi⟩ := Option.ne_none_iff_exists'.1 h
    rw [not_dummy_of_slot hi] at hd
    cases hd
  · refine .inr (.inl ⟨i, ht, ?_, by simp [Draft.putLeaf, hd, ht]⟩)
    by_contra h
    obtain ⟨j, hj⟩ := Option.ne_none_iff_exists'.1 h
    rw [temp_of_slot hj] at ht
    cases ht
  · exact .inr (.inr ⟨i, hs, by simp [Draft.putLeaf, hd, ht, hs]⟩)

/-- The code for one term sets its argument register. -/
theorem putLeaf_runs (clause : String) (r : Rule) (values : Bool) (d : Draft) (arg : Nat)
    (t : Term) :
    ∃ ops, d.Adds (d.putLeaf r.placement values arg t) ops ∧
      ∀ n θ g, r.Keeps d.known θ g.vars → arg < g.args.length → r.Ready θ g arg t →
      ∀ u θ' b', r.putLeaf values θ g.bindings t = (u, θ', b') →
      ∃ vars, Operation.runAll clause n g ops =
          some (.ok (some ⟨b', g.args.set arg u, g.temps, vars⟩)) ∧
        r.Keeps (d.putLeaf r.placement values arg t).known θ' vars := by
  cases t with
  | var v =>
    rcases putLeaf_var r values d arg v with ⟨hd, hs, hput⟩ | ⟨i, ht, hs, hput⟩ | ⟨i, hs, hput⟩
    · rw [hput]
      refine ⟨[.clearArg arg], rfl, fun n θ g hk ha hr u θ' b' hu => ?_⟩
      rw [Rule.putLeaf, hr.dummy rfl hd] at hu
      cases hu
      exact ⟨g.vars, by rw [Operation.runAll_single, Operation.run_clearArg ha], hk.set_other hs⟩
    · rw [hput]
      cases hp : r.placement.inPlace v with
      | true =>
        refine ⟨[], by simp [Draft.Adds], fun n θ g hk ha hr u θ' b' hu => ?_⟩
        obtain ⟨x, hx, -, hin⟩ := hr.temp rfl ht
        simp only [Rule.putLeaf, hx, hs, Option.isSome_none, Bool.and_false, Bool.false_eq_true,
          if_false] at hu
        cases hu
        have hset : g.args.set arg u = g.args := by
          obtain ⟨h1, h2⟩ := List.getElem?_eq_some_iff.1 (hin hp)
          rw [← h2]
          exact List.set_getElem_self h1
        exact ⟨g.vars, by rw [hset]; rfl, hk⟩
      | false =>
        refine ⟨[.putTemp i arg], rfl, fun n θ g hk ha hr u θ' b' hu => ?_⟩
        obtain ⟨x, hx, hout, -⟩ := hr.temp rfl ht
        simp only [Rule.putLeaf, hx, hs, Option.isSome_none, Bool.and_false, Bool.false_eq_true,
          if_false] at hu
        cases hu
        exact ⟨g.vars, by rw [Operation.runAll_single, Operation.run_putTemp (hout hp) ha], hk⟩
    · rw [hput]
      by_cases hkn : v ∈ d.known
      · rw [emitFirst_of_mem hkn]
        refine ⟨[if values then .putDerefVariable i arg else .putVariable i arg], rfl,
          fun n θ g hk ha _ u θ' b' hu => ?_⟩
        obtain ⟨x, hx⟩ := Option.isSome_iff_exists.1 ((hk.known_iff hs).1 hkn)
        simp only [Rule.putLeaf, hx, hs, Option.isSome_some, Bool.and_true] at hu
        cases hu
        refine ⟨g.vars, ?_, hk⟩
        rw [Operation.runAll_single]
        cases values with
        | true => exact Operation.run_putDerefVariable (hk.var hs hx) ha
        | false => exact Operation.run_putVariable (hk.var hs hx) ha
      · rw [emitFirst_of_not_mem hkn]
        refine ⟨[.putNewVariable i arg], rfl, fun n θ g hk ha _ u θ' b' hu => ?_⟩
        have hnone : θ v = none := by
          by_contra hne
          exact hkn ((hk.known_iff hs).2 (Option.isSome_iff_ne_none.2 hne))
        rw [Rule.putLeaf, hnone] at hu
        cases hu
        refine ⟨_, ?_, hk.set_slot hs⟩
        rw [Operation.runAll_single,
          Operation.run_putNewVariable (by rw [hk.length]; exact lt_of_slot hs) ha]
  | node c =>
    refine ⟨[.putConstant arg (.node c)], rfl, fun n θ g hk ha _ u θ' b' hu => ?_⟩
    cases hu
    exact ⟨g.vars, by rw [Operation.runAll_single, Operation.run_putConstant ha], hk⟩
  | ref x | app f ts | any =>
    refine ⟨[.clearArg arg], rfl, fun n θ g hk ha _ u θ' b' hu => ?_⟩
    cases hu
    exact ⟨g.vars, by rw [Operation.runAll_single, Operation.run_clearArg ha], hk⟩

/-- All the terms can be passed: their values are in the registers, and a dummy stands
among them once. -/
structure Rule.AllReady (r : Rule) (θ : Values) (g : Registers) (arg : Nat) (ts : List Term) :
    Prop where
  ready : ∀ {j t}, ts[j]? = some t → r.Ready θ g (arg + j) t
  once : ∀ {v}, r.placement.isDummy v = true → ts.count (.var v) ≤ 1

/-- What is passed stays out of the way of the terms that follow. -/
theorem Rule.AllReady.tail {r : Rule} {values : Bool} {θ θ' : Values} {g : Registers} {arg : Nat}
    {t u : Term} {ts : List Term} {b' : Bindings} (vars : List (Option Term))
    (h : r.AllReady θ g arg (t :: ts)) (hu : r.putLeaf values θ g.bindings t = (u, θ', b')) :
    r.AllReady θ' ⟨b', g.args.set arg u, g.temps, vars⟩ (arg + 1) ts := by
  refine ⟨fun {j x} hj => ?_, fun hd => ?_⟩
  · have hx : r.Ready θ g (arg + (j + 1)) x := h.ready (by simpa using hj)
    refine ⟨fun {v} e hd => ?_, fun {v i} e ht => ?_⟩
    · have hnone := hx.dummy e hd
      by_contra hne
      have hc := h.once hd
      rcases (putLeaf_isSome hu).1 (Option.isSome_iff_ne_none.2 hne) with h1 | h1
      · rw [hnone] at h1
        cases h1
      · rw [h1, List.count_cons_self] at hc
        have := List.count_pos_iff.2 (e ▸ List.mem_of_getElem? hj)
        omega
    · obtain ⟨y, hy, hout, hin⟩ := hx.temp e ht
      refine ⟨y, putLeaf_keeps hu hy, hout, fun hp => ?_⟩
      change (g.args.set arg u)[arg + 1 + j]? = some y
      rw [List.getElem?_set_ne (by omega), show arg + 1 + j = arg + (j + 1) by omega]
      exact hin hp
  · have := h.once hd
    rw [List.count_cons] at this
    omega

theorem putLeaves_runs (clause : String) (r : Rule) (values : Bool) (d : Draft) (arg : Nat)
    (ts : List Term) :
    ∃ ops, d.Adds (d.putLeaves r.placement values arg ts) ops ∧
      ∀ n θ g, r.Keeps d.known θ g.vars → arg + ts.length ≤ g.args.length →
      r.AllReady θ g arg ts → ∀ us θ' b', r.putLeaves values θ g.bindings ts = (us, θ', b') →
      ∃ vars, Operation.runAll clause n g ops =
          some (.ok (some ⟨b', g.args.take arg ++ us ++ g.args.drop (arg + ts.length), g.temps,
            vars⟩)) ∧
        r.Keeps (d.putLeaves r.placement values arg ts).known θ' vars := by
  induction ts generalizing d arg with
  | nil =>
    refine ⟨[], by simp [Draft.Adds, Draft.putLeaves], fun n θ g hk _ _ us θ' b' hus => ?_⟩
    cases hus
    exact ⟨g.vars, by simp, hk⟩
  | cons t ts ih =>
    obtain ⟨ops, hadds, hops⟩ := putLeaf_runs clause r values d arg t
    obtain ⟨ops', hadds', hops'⟩ := ih (d.putLeaf r.placement values arg t) (arg + 1)
    refine ⟨ops ++ ops', hadds.trans hadds', fun n θ g hk hlen hr us θ' b' hus => ?_⟩
    obtain ⟨u, θ1, b1, us1, hu, hus1, rfl⟩ := putLeaves_cons hus
    rw [List.length_cons] at hlen
    have ha : arg < g.args.length := by omega
    obtain ⟨vars1, hrun1, hk1⟩ := hops n θ g hk ha (hr.ready (j := 0) rfl) u θ1 b1 hu
    obtain ⟨vars2, hrun2, hk2⟩ := hops' n θ1 ⟨b1, g.args.set arg u, g.temps, vars1⟩ hk1
      (by simp; omega) (hr.tail _ hu) us1 θ' b' hus1
    refine ⟨vars2, ?_, hk2⟩
    rw [Operation.runAll_append, hrun1]
    refine hrun2.trans ?_
    have htake : (g.args.set arg u).take (arg + 1) = g.args.take arg ++ [u] := by
      rw [List.take_add_one, List.take_set_of_le (Nat.le_refl arg)]
      simp [ha]
    have hdrop : (g.args.set arg u).drop (arg + 1 + ts.length) =
        g.args.drop (arg + (t :: ts).length) := by
      rw [List.drop_set_of_lt (by omega), List.length_cons, Nat.add_right_comm, Nat.add_assoc]
    simp only [htake, hdrop, List.append_assoc, List.singleton_append]

/-! ## Where the code of a rule stands -/

/-- The registers of a clause that has come to the entries `es`. A temporary variable is
passed on by the first entry only. -/
structure Rule.Stands (r : Rule) (known : List String) (θ : Values) (es : List Entry)
    (g : Registers) : Prop where
  suffix : es <:+ r.body
  keeps : r.Keeps known θ g.vars
  dummy : ∀ {v}, r.placement.isDummy v = true → .var v ∈ es.flatMap Entry.flatten → θ v = none
  temp : ∀ {v i e es'}, es = e :: es' → r.placement.temp? v = some i → .var v ∈ e.flatten →
    ∃ u, θ v = some u ∧ (r.placement.inPlace v = false → g.temps[i]? = some (some u)) ∧
      (r.placement.inPlace v = true → ∀ j : Nat, e.flatten[j]? = some (.var v) → g.args[j]? = some u)

/-- The same from the second entry on, where only the slots count. -/
structure Rule.Later (r : Rule) (known : List String) (θ : Values) (es : List Entry)
    (vars : List (Option Term)) : Prop where
  suffix : es <:+ r.body.tail
  keeps : r.Keeps known θ vars
  dummy : ∀ {v}, r.placement.isDummy v = true → .var v ∈ es.flatMap Entry.flatten → θ v = none

section

variable {r : Rule} {known : List String} {θ θ' : Values} {e : Entry} {es : List Entry}
  {g : Registers} {v : String}

theorem not_mem_tail_of_temp {i : Nat} (h : r.placement.temp? v = some i) {e : Entry}
    (he : e ∈ r.body.tail) : .var v ∉ e.flatten := by
  intro hv
  obtain ⟨k, hk⟩ := List.getElem?_of_mem he
  obtain ⟨j, hj⟩ := List.getElem?_of_mem hv
  have hentry : r.entries[k + 2]? = some e.flatten := by
    rw [List.getElem?_tail] at hk
    simp [Rule.entries, hk]
  have := entry_le_of_temp h (Rule.mem_occurrences.2 ⟨_, hentry, hj⟩)
  omega

theorem Rule.Later.stands {vars : List (Option Term)} (h : r.Later known θ es vars) (b : Bindings)
    (args : List Term) (temps : List (Option Term)) : r.Stands known θ es ⟨b, args, temps, vars⟩ := by
  refine ⟨h.suffix.trans (List.tail_suffix _), h.keeps, h.dummy, fun he ht hv => ?_⟩
  subst he
  exact absurd hv (not_mem_tail_of_temp ht (h.suffix.subset List.mem_cons_self))

theorem suffix_tail_of_cons {α : Type} {a : α} {as bs : List α} (h : a :: as <:+ bs) :
    as <:+ bs.tail := by
  obtain ⟨pre, rfl⟩ := h
  cases pre with
  | nil => exact List.suffix_rfl
  | cons x pre => exact ⟨pre ++ [a], by simp⟩

/-- A dummy of one entry does not stand in another. -/
theorem not_mem_of_dummy (hs : e :: es <:+ r.body) (hd : r.placement.isDummy v = true)
    (he : .var v ∈ e.flatten) : .var v ∉ es.flatMap Entry.flatten := by
  intro hes
  have hc := isDummy_iff.1 hd
  obtain ⟨pre, hpre⟩ := hs
  have h1 := List.count_pos_iff.2 he
  have h2 := List.count_pos_iff.2 hes
  simp only [Rule.entries, ← hpre, List.map_append, List.map_cons, List.flatten_cons,
    List.flatten_append, List.count_append, ← List.flatMap_def] at hc
  omega

/-- Once the terms of an entry are passed, the clause stands at the next one. -/
theorem Rule.Stands.next {known' : List String} {vars : List (Option Term)}
    (h : r.Stands known θ (e :: es) g) (hk : r.Keeps known' θ' vars)
    (hθ : ∀ v, (θ' v).isSome ↔ (θ v).isSome ∨ .var v ∈ e.flatten) :
    r.Later known' θ' es vars := by
  refine ⟨suffix_tail_of_cons h.suffix, hk, fun {v} hd hv => ?_⟩
  by_contra hne
  rcases (hθ v).1 (Option.isSome_iff_ne_none.2 hne) with h1 | h1
  · rw [h.dummy hd (by simp [hv])] at h1
    cases h1
  · exact not_mem_of_dummy h.suffix hd h1 hv

theorem Rule.Stands.allReady (h : r.Stands known θ (e :: es) g) : r.AllReady θ g 0 e.flatten := by
  refine ⟨fun {j t} hj => ⟨?_, ?_⟩, fun {v} hd => ?_⟩
  · rintro v rfl hd
    exact h.dummy hd (by simp [List.mem_of_getElem? hj])
  · rintro v i rfl ht
    obtain ⟨u, hu, hout, hin⟩ := h.temp rfl ht (List.mem_of_getElem? hj)
    exact ⟨u, hu, hout, fun hp => by rw [Nat.zero_add]; exact hin hp j hj⟩
  · have hc := isDummy_iff.1 hd
    obtain ⟨pre, hpre⟩ := h.suffix
    simp only [Rule.entries, ← hpre, List.map_append, List.map_cons, List.flatten_cons,
      List.flatten_append, List.count_append] at hc
    omega

/-- A term that is no variable need not be passed. -/
theorem Rule.AllReady.skip {arg : Nat} {t : Term} {ts : List Term}
    (h : r.AllReady θ g arg (t :: ts)) : r.AllReady θ g (arg + 1) ts := by
  refine ⟨fun {j x} hj => ?_, fun hd => ?_⟩
  · have := h.ready (j := j + 1) (by simpa using hj)
    rwa [show arg + 1 + j = arg + (j + 1) by omega]
  · have := h.once hd
    rw [List.count_cons] at this
    omega

end

/-! ## Calls -/

/-- The arguments of a compound term. -/
def Term.parts : Term → List Term
  | .app _ args => args
  | _ => []

theorem Triple.flatten_eq (t : Triple) :
    t.flatten = [t.subject, t.predicate, t.object] ++ t.object.parts := by
  unfold flatten Term.parts
  cases t.object <;> rfl

theorem putObject_isSome {r : Rule} {θ θ' : Values} {b b' : Bindings} {o u : Term} {v : String}
    (h : r.putObject θ b o = (u, θ', b')) :
    (θ' v).isSome ↔ (θ v).isSome ∨ .var v ∈ o :: o.parts := by
  unfold Rule.putObject at h
  split at h
  · next f ts =>
    rcases h1 : r.putLeaves false θ b ts with ⟨ts1, θ1, b1⟩
    rw [h1] at h
    cases h
    simpa [Term.parts] using putLeaves_isSome h1
  · next happ =>
    have hparts : o.parts = [] := by
      unfold Term.parts
      split
      · next f ts => exact absurd rfl (happ f ts)
      · rfl
    rw [putLeaf_isSome h, hparts, List.mem_singleton, eq_comm (a := o)]

theorem putGoal_isSome {r : Rule} {θ θ' : Values} {b b' : Bindings} {pattern g : Triple}
    {v : String} (h : r.putGoal θ b pattern = (g, θ', b')) :
    (θ' v).isSome ↔ (θ v).isSome ∨ .var v ∈ pattern.flatten := by
  rcases h1 : r.putLeaf false θ b pattern.subject with ⟨s1, θ1, b1⟩
  rcases h2 : r.putLeaf false θ1 b1 pattern.predicate with ⟨p1, θ2, b2⟩
  rcases h3 : r.putObject θ2 b2 pattern.object with ⟨o1, θ3, b3⟩
  simp only [Rule.putGoal, h1, h2, h3] at h
  cases h
  rw [putObject_isSome h3, putLeaf_isSome h2, putLeaf_isSome h1, Triple.flatten_eq]
  simp only [List.mem_append, List.mem_cons, List.not_mem_nil, or_false, eq_comm (a := Term.var v)]
  tauto

/-- Passes the object of a goal. -/
def Draft.putObject (p : Placement) (d : Draft) : Term → Draft
  | .app f ts => (d.putLeaves p false argBase ts).emit (.makeFunctor ⟨f, ts⟩)
  | t => d.putLeaf p false 2 t

theorem callGoal_eq (p : Placement) (layout : Layout) (d : Draft) (goal : Triple) :
    d.callGoal p layout goal =
      let d := ((d.putLeaf p false 0 goal.subject).putLeaf p false 1 goal.predicate).putObject p
        goal.object
      { d with code := d.code ++ [.call (layout.callFor (!p.permanent.isEmpty) goal)] } := by
  unfold Draft.callGoal Draft.putObject
  cases goal.object <;> rfl

/-- A compound object is made of its arguments. -/
theorem putApp_runs (clause : String) (r : Rule) (d : Draft) {f : String} {ts : List Term}
    (hts : argBase + ts.length ≤ maxArguments) :
    ∃ ops, d.Adds (d.putObject r.placement (.app f ts)) ops ∧
      ∀ n θ g, r.Keeps d.known θ g.vars → g.args.length = maxArguments →
      r.AllReady θ g argBase ts → ∀ u θ' b', r.putObject θ g.bindings (.app f ts) = (u, θ', b') →
      ∃ args vars, Operation.runAll clause n g ops = some (.ok (some ⟨b', args, g.temps, vars⟩)) ∧
        args.length = maxArguments ∧ args.take 3 = g.args.take 2 ++ [u] ∧
        r.Keeps (d.putObject r.placement (.app f ts)).known θ' vars := by
  obtain ⟨ops, hadds, hops⟩ := putLeaves_runs clause r false d argBase ts
  refine ⟨ops ++ [.makeFunctor ⟨f, ts⟩], ?_, fun n θ g hk hg hr u θ' b' hu => ?_⟩
  · unfold Draft.Adds at hadds ⊢
    simp [Draft.putObject, Draft.emit, hadds]
  · rcases h1 : r.putLeaves false θ g.bindings ts with ⟨us, θ1, b1⟩
    simp only [Rule.putObject, h1] at hu
    cases hu
    have hus := length_putLeaves h1
    obtain ⟨vars, hrun, hk'⟩ := hops n θ g hk (by rw [hg]; exact hts) hr us θ' b' h1
    generalize hargs : g.args.take argBase ++ us ++ g.args.drop (argBase + ts.length) = args at hrun
    have hthree : (g.args.take argBase).length = 3 := by
      rw [List.length_take, hg]
      rfl
    have hlen : args.length = maxArguments := by
      rw [← hargs, List.length_append, List.length_append, List.length_drop, hthree, hg]
      simp only [argBase, maxArguments] at hts ⊢
      omega
    have hmade : ∀ j (hj : j < us.length), args[argBase + j]? = some (us.get ⟨j, hj⟩) := by
      intro j hj
      rw [← hargs, List.append_assoc,
        List.getElem?_append_right (by rw [hthree]; simp [argBase]), hthree,
        List.getElem?_append_left (by simp only [argBase]; omega)]
      simp [argBase]
    have htwo : args.take 2 = g.args.take 2 := by
      rw [← hargs, List.append_assoc, List.take_append_of_le_length (by omega), List.take_take]
      rfl
    have h2 : 2 < args.length := by rw [hlen]; decide
    refine ⟨args.set 2 (.app f us), vars, ?_, by simpa using hlen, ?_, hk'⟩
    · rw [Operation.runAll_append, hrun]
      change Operation.runAll clause n _ [_] = _
      rw [Operation.runAll_single, Operation.run_makeFunctor hus hmade h2]
    · rw [List.take_add_one, List.take_set_of_le (Nat.le_refl 2), htwo, List.getElem?_set_self h2]
      rfl

/-- The object of a goal is passed in the third argument. -/
theorem putObject_runs (clause : String) (r : Rule) (d : Draft) (o : Term)
    (hlen : ∀ f ts, o = .app f ts → argBase + ts.length ≤ maxArguments) :
    ∃ ops, d.Adds (d.putObject r.placement o) ops ∧
      ∀ n θ g, r.Keeps d.known θ g.vars → g.args.length = maxArguments →
      r.AllReady θ g 2 (o :: o.parts) → ∀ u θ' b', r.putObject θ g.bindings o = (u, θ', b') →
      ∃ args vars, Operation.runAll clause n g ops = some (.ok (some ⟨b', args, g.temps, vars⟩)) ∧
        args.length = maxArguments ∧ args.take 3 = g.args.take 2 ++ [u] ∧
        r.Keeps (d.putObject r.placement o).known θ' vars := by
  cases happ : o.isApp with
  | true =>
    obtain ⟨f, ts, rfl⟩ : ∃ f ts, o = .app f ts := by
      cases o <;> simp [Term.isApp] at happ
      exact ⟨_, _, rfl⟩
    obtain ⟨ops, hadds, hops⟩ := putApp_runs clause r d (f := f) (hlen f ts rfl)
    exact ⟨ops, hadds, fun n θ g hk hg hr => hops n θ g hk hg hr.skip⟩
  | false =>
    have hleaf : d.putObject r.placement o = d.putLeaf r.placement false 2 o := by
      cases o <;> first | rfl | simp [Term.isApp] at happ
    have hval : ∀ θ b, r.putObject θ b o = r.putLeaf false θ b o := by
      intro θ b
      cases o <;> first | rfl | simp [Term.isApp] at happ
    obtain ⟨ops, hadds, hops⟩ := putLeaf_runs clause r false d 2 o
    rw [hleaf]
    refine ⟨ops, hadds, fun n θ g hk hg hr u θ' b' hu => ?_⟩
    rw [hval] at hu
    have h2 : 2 < g.args.length := by rw [hg]; decide
    obtain ⟨vars, hrun, hk'⟩ := hops n θ g hk h2 (hr.ready (j := 0) rfl) u θ' b' hu
    refine ⟨_, vars, hrun, by simpa using hg, ?_, hk'⟩
    rw [List.take_add_one, List.take_set_of_le (Nat.le_refl 2)]
    simp [h2]

/-- The code for a goal passes it on and calls it. -/
theorem goal_runs (clause : String) (r : Rule) (layout : Layout) (registry : Registry) (d : Draft)
    (pattern : Triple) (hf : r.goalFault pattern = none) :
    ∃ ops, (d.addEntry r.placement layout registry (.triple pattern)).code =
        d.code ++ ops.map .operation ++
          [.call (layout.callFor (!r.placement.permanent.isEmpty) pattern)] ∧
      ∀ n θ es g, r.Stands d.known θ (.triple pattern :: es) g → g.args.length = maxArguments →
      ∀ goal θ' b', r.putGoal θ g.bindings pattern = (goal, θ', b') →
      ∃ args vars, Operation.runAll clause n g ops = some (.ok (some ⟨b', args, g.temps, vars⟩)) ∧
        args.length = maxArguments ∧ args.take 3 = goal.terms ∧
        r.Later (d.addEntry r.placement layout registry (.triple pattern)).known θ' es vars := by
  obtain ⟨s, p, o⟩ := pattern
  have hlen : ∀ f ts, o = .app f ts → argBase + ts.length ≤ maxArguments := by
    rintro f ts rfl
    by_contra hlt
    simp only [Rule.goalFault, Nat.lt_of_not_le hlt, if_true] at hf
    split at hf
    · cases hf
    · split at hf <;> cases hf
  obtain ⟨ops1, hadds1, hops1⟩ := putLeaf_runs clause r false d 0 s
  obtain ⟨ops2, hadds2, hops2⟩ :=
    putLeaf_runs clause r false (d.putLeaf r.placement false 0 s) 1 p
  obtain ⟨ops3, hadds3, hops3⟩ := putObject_runs clause r
    ((d.putLeaf r.placement false 0 s).putLeaf r.placement false 1 p) o hlen
  have hentry := callGoal_eq r.placement layout d ⟨s, p, o⟩
  rw [Draft.addEntry, hentry]
  refine ⟨ops1 ++ ops2 ++ ops3, ?_, fun n θ es g hst hg goal θ' b' hput => ?_⟩
  · have := (hadds1.trans hadds2).trans hadds3
    unfold Draft.Adds at this
    simp only [this]
  · have hsome := fun v => putGoal_isSome (v := v) hput
    rcases h1 : r.putLeaf false θ g.bindings s with ⟨s1, θ1, b1⟩
    rcases h2 : r.putLeaf false θ1 b1 p with ⟨p1, θ2, b2⟩
    rcases h3 : r.putObject θ2 b2 o with ⟨o1, θ3, b3⟩
    simp only [Rule.putGoal, h1, h2, h3] at hput
    cases hput
    have hready := hst.allReady
    rw [Entry.flatten, Triple.flatten_eq] at hready
    obtain ⟨vars1, hrun1, hk1⟩ := hops1 n θ g hst.keeps (by rw [hg]; decide)
      (hready.ready (j := 0) rfl) s1 θ1 b1 h1
    have hready1 := hready.tail vars1 h1
    obtain ⟨vars2, hrun2, hk2⟩ := hops2 n θ1 ⟨b1, g.args.set 0 s1, g.temps, vars1⟩ hk1
      (by rw [List.length_set, hg]; decide) (hready1.ready (j := 0) rfl) p1 θ2 b2 h2
    have hready2 := hready1.tail vars2 h2
    obtain ⟨args3, vars3, hrun3, hlen3, htake3, hk3⟩ := hops3 n θ2
      ⟨b2, (g.args.set 0 s1).set 1 p1, g.temps, vars2⟩ hk2 (by simpa using hg) hready2 o1 θ' b' h3
    refine ⟨args3, vars3, ?_, hlen3, ?_, hst.next hk3 hsome⟩
    · rw [Operation.runAll_append, Operation.runAll_append, hrun1]
      simp only [hrun2]
      exact hrun3
    · rw [htake3]
      change ((g.args.set 0 s1).set 1 p1).take 2 ++ [o1] = [s1, p1, o1]
      rcases hargs : g.args with _ | ⟨x, _ | ⟨y, rest⟩⟩
      · rw [hargs] at hg; cases hg
      · rw [hargs] at hg; cases hg
      · rfl

/-- The code for a builtin passes its arguments on and calls it. -/
theorem builtin_runs (clause : String) (r : Rule) (layout : Layout) (registry : Registry)
    (d : Draft) (c : Compound) {f : Builtin} (hf : registry.get? c.name = some f)
    (hlen : c.args.length ≤ maxArguments) :
    ∃ ops, (d.addEntry r.placement layout registry (.builtin c)).code =
        d.code ++ ops.map .operation ++ [.builtin f c.args.length] ∧
      ∀ n θ es g, r.Stands d.known θ (.builtin c :: es) g → g.args.length = maxArguments →
      ∀ us θ' b', r.putLeaves true θ g.bindings c.args = (us, θ', b') →
      ∃ args vars, Operation.runAll clause n g ops = some (.ok (some ⟨b', args, g.temps, vars⟩)) ∧
        args.length = maxArguments ∧ args.take c.args.length = us ∧
        r.Later (d.addEntry r.placement layout registry (.builtin c)).known θ' es vars := by
  obtain ⟨ops, hadds, hops⟩ := putLeaves_runs clause r true d 0 c.args
  refine ⟨ops, ?_, fun n θ es g hst hg us θ' b' hput => ?_⟩
  · unfold Draft.Adds at hadds
    simp [Draft.addEntry, hf, Draft.callBuiltin, hadds]
  · have hus := length_putLeaves hput
    obtain ⟨vars, hrun, hk⟩ := hops n θ g hst.keeps (by rw [hg]; omega) hst.allReady us θ' b' hput
    refine ⟨_, vars, hrun, ?_, ?_, hst.next ?_ fun v => putLeaves_isSome hput⟩
    · simp only [List.take_zero, List.nil_append, List.length_append, List.length_drop, hg, hus]
      omega
    · rw [List.take_zero, List.nil_append, ← hus, List.take_left]
    · simpa [Draft.addEntry, hf, Draft.callBuiltin] using hk

/-! ## What is left of the code -/

/-- The code that is left of a rule's when it has come to `es`, with registers set for the
variables in `known`. -/
def Rule.Rest (r : Rule) (layout : Layout) (registry : Registry) (known : List String)
    (es : List Entry) (code : List Instruction) : Prop :=
  ∃ d : Draft, d.known = known ∧
    (es.foldl (Draft.addEntry r.placement layout registry) d).code ++ [.proceed] = d.code ++ code

section

variable {r : Rule} {layout : Layout} {registry : Registry} {known : List String}
  {es : List Entry} {code : List Instruction}

theorem length_le_of_argumentFault {i : Nat} {ts : List Term} (hi : i ≤ maxArguments)
    (h : r.argumentFault i ts = none) : i + ts.length ≤ maxArguments := by
  induction ts generalizing i with
  | nil => simpa using hi
  | cons t ts ih =>
    rw [Rule.argumentFault] at h
    split at h
    · cases h
    · split at h
      · cases h
      · have := ih (i := i + 1) (by omega) h
        rw [List.length_cons]
        omega

/-- A builtin that is not refused is there and can be passed its arguments. -/
theorem builtin_of_fault {c : Compound} (h : r.entryFault registry (.builtin c) = none) :
    ∃ f, registry.get? c.name = some f ∧ c.args.length ≤ maxArguments := by
  rw [Rule.entryFault, Rule.builtinFault] at h
  split at h
  · cases h
  · next f hf =>
    split at h
    · cases h
    · have := length_le_of_argumentFault (Nat.zero_le _) h
      exact ⟨f, hf, by omega⟩

theorem addEntry_adds (layout : Layout) (d : Draft) {e : Entry} (h : r.entryFault registry e = none) :
    ∃ c, (d.addEntry r.placement layout registry e).code = d.code ++ c := by
  cases e with
  | triple pattern =>
    obtain ⟨ops, hops, -⟩ := goal_runs r.name r layout registry d pattern h
    exact ⟨_, by rw [hops, List.append_assoc]⟩
  | builtin c =>
    obtain ⟨f, hf, hlen⟩ := builtin_of_fault h
    obtain ⟨ops, hops, -⟩ := builtin_runs r.name r layout registry d c hf hlen
    exact ⟨_, by rw [hops, List.append_assoc]⟩

theorem exists_rest (layout : Layout) (d : Draft) (h : ∀ e ∈ es, r.entryFault registry e = none) :
    ∃ code, (es.foldl (Draft.addEntry r.placement layout registry) d).code ++ [.proceed] =
      d.code ++ code := by
  induction es generalizing d with
  | nil => exact ⟨[.proceed], rfl⟩
  | cons e es ih =>
    obtain ⟨c, hc⟩ := addEntry_adds layout d (h e List.mem_cons_self)
    obtain ⟨code, hcode⟩ := ih (d.addEntry r.placement layout registry e)
      fun e he => h e (List.mem_cons_of_mem _ he)
    exact ⟨c ++ code, by rw [List.foldl_cons, hcode, hc, List.append_assoc]⟩

theorem rest_nil (h : r.Rest layout registry known [] code) : code = [.proceed] := by
  obtain ⟨d, -, hd⟩ := h
  exact (List.append_cancel_left hd).symm

/-- The code for a goal calls what the rule passes on, and then the rest follows. -/
theorem rest_goal {pattern : Triple} (h : r.Rest layout registry known (.triple pattern :: es) code)
    (hf : ∀ e ∈ .triple pattern :: es, r.entryFault registry e = none) :
    ∃ ops known' code', code = ops.map .operation ++
        .call (layout.callFor (!r.placement.permanent.isEmpty) pattern) :: code' ∧
      r.Rest layout registry known' es code' ∧
      ∀ n θ g, r.Stands known θ (.triple pattern :: es) g → g.args.length = maxArguments →
      ∀ goal θ' b', r.putGoal θ g.bindings pattern = (goal, θ', b') →
      ∃ args vars, Operation.runAll r.name n g ops = some (.ok (some ⟨b', args, g.temps, vars⟩)) ∧
        args.length = maxArguments ∧ args.take 3 = goal.terms ∧ r.Later known' θ' es vars := by
  obtain ⟨d, rfl, hd⟩ := h
  obtain ⟨ops, hcode, hops⟩ := goal_runs r.name r layout registry d pattern
    (hf _ List.mem_cons_self)
  obtain ⟨code', hcode'⟩ := exists_rest layout
    (d.addEntry r.placement layout registry (.triple pattern))
    fun e he => hf e (List.mem_cons_of_mem _ he)
  refine ⟨ops, _, code', ?_, ⟨_, rfl, hcode'⟩, fun n θ g => hops n θ es g⟩
  rw [List.foldl_cons, hcode', hcode, List.append_assoc, List.append_assoc] at hd
  exact (List.append_cancel_left hd).symm

theorem rest_builtin {c : Compound} (h : r.Rest layout registry known (.builtin c :: es) code)
    (hf : ∀ e ∈ .builtin c :: es, r.entryFault registry e = none) :
    ∃ f ops known' code', registry.get? c.name = some f ∧
      code = ops.map .operation ++ .builtin f c.args.length :: code' ∧
      c.args.length ≤ maxArguments ∧ r.Rest layout registry known' es code' ∧
      ∀ n θ g, r.Stands known θ (.builtin c :: es) g → g.args.length = maxArguments →
      ∀ us θ' b', r.putLeaves true θ g.bindings c.args = (us, θ', b') →
      ∃ args vars, Operation.runAll r.name n g ops = some (.ok (some ⟨b', args, g.temps, vars⟩)) ∧
        args.length = maxArguments ∧ args.take c.args.length = us ∧
        r.Later known' θ' es vars := by
  obtain ⟨d, rfl, hd⟩ := h
  obtain ⟨f, hget, hlen⟩ := builtin_of_fault (hf _ List.mem_cons_self)
  obtain ⟨ops, hcode, hops⟩ := builtin_runs r.name r layout registry d c hget hlen
  obtain ⟨code', hcode'⟩ := exists_rest layout
    (d.addEntry r.placement layout registry (.builtin c))
    fun e he => hf e (List.mem_cons_of_mem _ he)
  refine ⟨f, ops, _, code', hget, ?_, hlen, ⟨_, rfl, hcode'⟩, fun n θ g => hops n θ es g⟩
  rw [List.foldl_cons, hcode', hcode, List.append_assoc, List.append_assoc] at hd
  exact (List.append_cancel_left hd).symm

end

/-! ## Taking up a rule -/

/-- The registers of a rule that is called for a goal. -/
structure Rule.Called (r : Rule) (goal : Triple) (g : Registers) : Prop where
  vars : g.vars = List.replicate r.placement.permanent.length none
  temps_length : r.placement.temporary.length ≤ g.temps.length
  args_length : g.args.length = maxArguments
  called : g.args.take 3 = goal.terms

theorem Rule.Called.met {r : Rule} {goal : Triple} {g : Registers} (h : r.Called goal g) :
    r.Met [] .none g := by
  refine ⟨by simp [h.vars], h.temps_length, ?_, ?_, ?_⟩
  · intro v i t _ ht
    cases ht
  · intro v i t _ _ ht
    cases ht
  · intro v _
    simp [Values.none]

theorem steps_suffix (r : Rule) : r.steps <:+ r.body := by
  unfold Rule.steps
  induction r.body with
  | nil => exact List.suffix_rfl
  | cons e es ih =>
    rw [leadingTests]
    split
    · exact ih.trans (List.suffix_cons e es)
    · exact List.suffix_rfl

/-- After its head a clause stands at its body. -/
theorem Rule.Entered.stands {r : Rule} {known : List String} {θ : Values} {g : Registers}
    (h : r.Entered known θ g) : r.Stands known θ r.steps g := by
  have hsub := steps_suffix r
  refine ⟨hsub, ⟨h.met.vars_length, h.met.var, fun hs => h.met.known_iff ?_⟩, fun {v} hd hv => ?_,
    fun {v i e es} he ht hv => ?_⟩
  · simp [Placement.moves, hs]
  · by_contra hne
    have h1 := List.count_pos_iff.2 (h.isSome_iff.1 (Option.isSome_iff_ne_none.2 hne))
    obtain ⟨e, he, hve⟩ := List.mem_flatMap.1 hv
    have h2 : 0 < (r.body.map Entry.flatten).flatten.count (Term.var v) :=
      List.count_pos_iff.2 (List.mem_flatten.2 ⟨_, List.mem_map_of_mem (hsub.subset he), hve⟩)
    have hc := isDummy_iff.1 hd
    rw [Rule.entries, List.flatten_cons, List.count_append] at hc
    omega
  · have hhead := mem_head_of_temp ht
    obtain ⟨u, hu⟩ := Option.isSome_iff_exists.1 (h.isSome_iff.2 hhead)
    refine ⟨u, hu, fun hp => h.met.temp ht ?_ hu, fun hp j hj => ?_⟩
    · by_contra hne
      rw [inPlace_of_inPlaceInHead (by simpa using hne)] at hp
      cases hp
    · obtain ⟨k, hk⟩ := List.getElem?_of_mem (hsub.subset (he ▸ List.mem_cons_self))
      obtain ⟨j0, hj0⟩ := List.getElem?_of_mem hhead
      have hbody : ⟨v, k + 1, j⟩ ∈ r.occurrences :=
        Rule.mem_occurrences.2 ⟨e.flatten, by simp [Rule.entries, hk], hj⟩
      have hocc : ⟨v, 0, j0⟩ ∈ r.occurrences := Rule.mem_occurrences.2 ⟨_, rfl, hj0⟩
      obtain rfl := inPlace_index hp hbody hocc
      rw [h.in_place hj0 (count_le_one_of_inPlace (e := 0) hp rfl)]
      exact hu

/-- The tests of the arguments that the code of a rule begins with. -/
def Rule.tests (r : Rule) : List Operation := (leadingTests r.head r.body).1

/-- The code of a rule up to the end of its head. -/
def Rule.headDraft (r : Rule) : Draft :=
  (Draft.mk (r.tests.map .operation) []).getHead r.placement r.head

def Instruction.operation? : Instruction → Option Operation
  | .operation op => some op
  | _ => none

/-- The operations that match the head of a rule with a called goal. -/
def Rule.headCode (r : Rule) : List Operation :=
  (r.headDraft.code.drop r.tests.length).filterMap Instruction.operation?

/-- The code of a rule after its head. -/
def Rule.bodyCode (r : Rule) (layout : Layout) (registry : Registry) : List Instruction :=
  (r.code layout registry).drop (r.tests.length + r.headCode.length)

theorem filterMap_operations (ops : List Operation) :
    (ops.map Instruction.operation).filterMap Instruction.operation? = ops := by
  rw [List.filterMap_map]
  exact List.filterMap_some

/-- The code of a rule has three parts. The second matches the head. -/
theorem headCode_agrees (r : Rule) (layout : Layout) (registry : Registry)
    (hf : r.fault? registry = none) :
    r.code layout registry =
        (r.tests ++ r.headCode).map .operation ++ r.bodyCode layout registry ∧
      r.Rest layout registry r.headDraft.known r.steps (r.bodyCode layout registry) ∧
      ∀ n g goal, r.Called goal g →
        Agrees (Operation.runAll r.name n g r.headCode) (matchHead n r.head goal g.bindings)
          fun g' θ => r.Entered r.headDraft.known θ g' := by
  have hhead : r.headFault = none := by
    unfold Rule.fault? at hf
    exact (Option.or_eq_none_iff.1 (Option.or_eq_none_iff.1 hf).2).1
  have hbody : ∀ e ∈ r.steps, r.entryFault registry e = none := by
    unfold Rule.fault? at hf
    exact List.findSome?_eq_none_iff.1 (Option.or_eq_none_iff.1 (Option.or_eq_none_iff.1 hf).2).2
  obtain ⟨ops, hadds, hops⟩ := getHead_agrees r.name r (Draft.mk (r.tests.map .operation) []) rfl
    hhead
  obtain ⟨code, hcode⟩ := exists_rest layout r.headDraft hbody
  have hdraft : r.headDraft.code = r.tests.map .operation ++ ops.map .operation := hadds
  have hops' : r.headCode = ops := by
    rw [Rule.headCode, hdraft, List.drop_left' (by simp), filterMap_operations]
  have hall : r.code layout registry = (r.tests ++ r.headCode).map .operation ++ code := by
    rw [hops', List.map_append, ← hdraft]
    exact hcode
  have hrest : r.bodyCode layout registry = code := by
    rw [Rule.bodyCode, hall, List.drop_left' (by simp)]
  rw [hrest]
  refine ⟨hall, ⟨_, rfl, hcode⟩, fun n g goal hg => ?_⟩
  rw [hops']
  exact hops n g goal hg.met hg.args_length hg.called

/-- The code of a rule begins with operations that take the rule up. -/
theorem enter_agrees (r : Rule) (layout : Layout) (registry : Registry)
    (hf : r.fault? registry = none) :
    ∃ ops known code, r.code layout registry = ops.map .operation ++ code ∧
      r.Rest layout registry known r.steps code ∧ ∀ n g goal, r.Called goal g →
      Agrees (Operation.runAll r.name n g ops) (r.enter n goal g.bindings)
        fun g' θ => r.Stands known θ r.steps g' ∧ g'.args.length = maxArguments := by
  obtain ⟨hcode, hrest, hops⟩ := headCode_agrees r layout registry hf
  refine ⟨r.tests ++ r.headCode, _, _, hcode, hrest, fun n g goal hg => ?_⟩
  rw [Operation.runAll_append, Rule.tests, runAll_tests (fun op => test_of_mem) hg.called, Rule.enter]
  by_cases hall : ((leadingTests r.head r.body).1.all (·.passes g.bindings goal)) = true
  · rw [if_pos hall, if_pos hall]
    exact (hops n g goal hg).mono fun g' θ _ h => ⟨h.stands, h.args_length⟩
  · rw [if_neg hall, if_neg hall]
    rfl

end TabledRules
