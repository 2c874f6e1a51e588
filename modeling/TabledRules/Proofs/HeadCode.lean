-- The code of a head matches a called goal as the rule's head does. While it
-- runs, the registers keep the values of the variables that have been met.
import TabledRules.Proofs.Operations
import TabledRules.Proofs.Placement

namespace TabledRules

/-! ## Outcomes -/

/-- Operations come to the outcome of a match, and then the registers are as `post`
says. -/
def Agrees (x : Option (Except Failure (Option Registers)))
    (y : Option (Option (Values × Bindings))) (post : Registers → Values → Prop) : Prop :=
  match y with
  | none => x = none
  | some none => x = some (.ok none)
  | some (some (θ, b)) => ∃ g, x = some (.ok (some g)) ∧ g.bindings = b ∧ post g θ

variable {n : Nat}

theorem Agrees.mono {x : Option (Except Failure (Option Registers))}
    {y : Option (Option (Values × Bindings))} {p q : Registers → Values → Prop}
    (h : Agrees x y p) (hpq : ∀ g θ, y = some (some (θ, g.bindings)) → p g θ → q g θ) :
    Agrees x y q := by
  rcases y with _ | _ | ⟨θ, b⟩
  · exact h
  · exact h
  · obtain ⟨g, h1, rfl, h3⟩ := h
    exact ⟨g, h1, rfl, hpq g θ rfl h3⟩

/-- One match after the other. -/
theorem Agrees.andThen {clause : String} {g : Registers} {ops ops' : List Operation}
    {y : Option (Option (Values × Bindings))}
    {next : Values → Bindings → Option (Option (Values × Bindings))}
    {p q : Registers → Values → Prop} (h : Agrees (Operation.runAll clause n g ops) y p)
    (hnext : ∀ g θ, y = some (some (θ, g.bindings)) → p g θ →
      Agrees (Operation.runAll clause n g ops') (next θ g.bindings) q) :
    Agrees (Operation.runAll clause n g (ops ++ ops')) (matchThen y next) q := by
  rw [Operation.runAll_append]
  rcases y with _ | _ | ⟨θ, b⟩
  · simp only [Agrees] at h
    rw [h]
    rfl
  · simp only [Agrees] at h
    rw [h]
    rfl
  · obtain ⟨g1, h1, rfl, h3⟩ := h
    rw [h1]
    exact hnext g1 θ rfl h3

theorem agrees_unified {g : Registers} {x : Option (Option Bindings)} {θ : Values}
    {p : Registers → Values → Prop} (h : ∀ b, p { g with bindings := b } θ) :
    Agrees (Operation.unified g x) (x.map (·.map (θ, ·))) p := by
  rcases x with _ | _ | b
  · rfl
  · rfl
  · exact ⟨{ g with bindings := b }, rfl, rfl, h b⟩

/-! ## The variables that a match meets -/

section

variable {θ θ' : Values} {b b' : Bindings} {arg t : Term} {args ts : List Term} {v : String}

theorem matchThen_eq_some {x : Option (Option (Values × Bindings))}
    {next : Values → Bindings → Option (Option (Values × Bindings))}
    (h : matchThen x next = some (some (θ', b'))) :
    ∃ θ b, x = some (some (θ, b)) ∧ next θ b = some (some (θ', b')) := by
  rcases x with _ | _ | ⟨θ, b⟩
  · cases h
  · cases h
  · exact ⟨θ, b, rfl, h⟩

theorem map_map_eq_some {x : Option (Option Bindings)}
    (h : x.map (·.map (θ, ·)) = some (some (θ', b'))) : θ' = θ ∧ x = some (some b') := by
  rcases x with _ | _ | b
  · cases h
  · cases h
  · cases h
    exact ⟨rfl, rfl⟩

/-- A match either keeps the values or meets a new variable. -/
theorem matchLeaf_values (h : matchLeaf n θ b arg t = some (some (θ', b'))) :
    θ' = θ ∧ (∀ v, t = .var v → (θ v).isSome) ∨ ∃ v, t = .var v ∧ θ v = none ∧ θ' = θ.set v arg := by
  unfold matchLeaf at h
  split at h
  · next v =>
    split at h
    · next hv => cases h; exact .inr ⟨v, rfl, hv, rfl⟩
    · next u hv =>
      obtain ⟨rfl, -⟩ := map_map_eq_some h
      exact .inl ⟨rfl, fun w e => by cases e; simp [hv]⟩
  · obtain ⟨rfl, -⟩ := map_map_eq_some h
    exact .inl ⟨rfl, fun w e => by cases e⟩
  · next hvar _ => cases h; exact .inl ⟨rfl, fun w e => absurd e (hvar w)⟩

theorem matchLeaf_keeps (h : matchLeaf n θ b arg t = some (some (θ', b'))) {u : Term}
    (hv : θ v = some u) : θ' v = some u := by
  rcases matchLeaf_values h with ⟨rfl, -⟩ | ⟨w, -, hw, rfl⟩
  · exact hv
  · rw [Values.set_of_ne θ arg (by rintro rfl; rw [hw] at hv; cases hv)]
    exact hv

theorem matchLeaves_keeps (h : matchLeaves n θ b args ts = some (some (θ', b'))) {u : Term}
    (hv : θ v = some u) : θ' v = some u := by
  induction ts generalizing θ b args with
  | nil => cases args <;> (cases h; exact hv)
  | cons t ts ih =>
    cases args with
    | nil => cases h; exact hv
    | cons arg args =>
      obtain ⟨θ1, b1, h1, h2⟩ := matchThen_eq_some h
      exact ih h2 (matchLeaf_keeps h1 hv)

theorem matchLeaves_isSome (h : matchLeaves n θ b args ts = some (some (θ', b')))
    (hlen : args.length = ts.length) : (θ' v).isSome ↔ (θ v).isSome ∨ .var v ∈ ts := by
  induction ts generalizing θ b args with
  | nil => cases args <;> (cases h; simp)
  | cons t ts ih =>
    cases args with
    | nil => simp at hlen
    | cons arg args =>
      obtain ⟨θ1, b1, h1, h2⟩ := matchThen_eq_some h
      rw [ih h2 (by simpa using hlen), List.mem_cons, ← or_assoc]
      refine or_congr_left ?_
      rcases matchLeaf_values h1 with ⟨rfl, ht⟩ | ⟨w, rfl, hw, rfl⟩
      · constructor
        · exact .inl
        · rintro (h | h)
          · exact h
          · exact ht v h.symm
      · by_cases e : v = w
        · subst e; simp
        · rw [Values.set_of_ne θ arg e]
          simp [e]

/-- A variable that is met once has its argument for a value. -/
theorem matchLeaves_once {j : Nat} (h : matchLeaves n θ b args ts = some (some (θ', b')))
    (hlen : args.length = ts.length) (hj : ts[j]? = some (.var v)) (hv : θ v = none)
    (hc : ts.count (.var v) ≤ 1) : args[j]? = θ' v := by
  induction ts generalizing θ b args j with
  | nil => simp at hj
  | cons t ts ih =>
    cases args with
    | nil => simp at hlen
    | cons arg args =>
      obtain ⟨θ1, b1, h1, h2⟩ := matchThen_eq_some h
      cases j with
      | zero =>
        obtain rfl : t = .var v := by simpa using hj
        rcases matchLeaf_values h1 with ⟨rfl, ht⟩ | ⟨w, e, hw, rfl⟩
        · have := ht v rfl
          rw [hv] at this
          cases this
        · cases e
          exact (matchLeaves_keeps h2 (Values.set_self θ v arg)).symm
      | succ j =>
        have hj' : ts[j]? = some (.var v) := by simpa using hj
        have hmem := List.mem_of_getElem? hj'
        have hne : t ≠ .var v := by
          rintro rfl
          rw [List.count_cons_self] at hc
          have := List.count_pos_iff.2 hmem
          omega
        rw [List.getElem?_cons_succ]
        refine ih h2 (by simpa using hlen) hj' ?_ (by rwa [List.count_cons_of_ne hne] at hc)
        rcases matchLeaf_values h1 with ⟨rfl, ht⟩ | ⟨w, rfl, hw, rfl⟩
        · exact hv
        · rw [Values.set_of_ne θ arg (by rintro rfl; exact hne rfl)]
          exact hv

end

/-! ## The registers of a head -/

/-- The variable is moved to a register of its own when it is met in a head. -/
def Placement.moves (p : Placement) (v : String) : Bool :=
  (p.slot? v).isSome || (p.temp? v).isSome && !p.inPlaceInHead v

/-- The registers keep the values of the variables met in a head, and `known` names the
variables that have been moved. -/
structure Rule.Met (r : Rule) (known : List String) (θ : Values) (g : Registers) : Prop where
  vars_length : g.vars.length = r.placement.permanent.length
  temps_length : r.placement.temporary.length ≤ g.temps.length
  var : ∀ {v i t}, r.placement.slot? v = some i → θ v = some t → g.vars[i]? = some (some t)
  temp : ∀ {v i t}, r.placement.temp? v = some i → r.placement.inPlaceInHead v = false →
    θ v = some t → g.temps[i]? = some (some t)
  known_iff : ∀ {v}, r.placement.moves v = true → (v ∈ known ↔ (θ v).isSome)

/-- A variable that is not moved is met for the first time. -/
def Rule.New (r : Rule) (θ : Values) (t : Term) : Prop :=
  ∀ v, t = .var v → r.placement.moves v = false → θ v = none

namespace Rule.Met

variable {r : Rule} {known : List String} {θ : Values} {g : Registers} {v : String} {i : Nat}
  {a : Term}

/-- Only bindings and arguments may differ. -/
theorem congr (h : r.Met known θ g) {g' : Registers} (hv : g'.vars = g.vars)
    (ht : g'.temps = g.temps) : r.Met known θ g' := by
  refine ⟨?_, ?_, ?_, ?_, h.known_iff⟩
  · rw [hv]; exact h.vars_length
  · rw [ht]; exact h.temps_length
  · rw [hv]; exact h.var
  · rw [ht]; exact h.temp

theorem set_unmoved (h : r.Met known θ g) (hv : r.placement.moves v = false) :
    r.Met known (θ.set v a) g := by
  refine ⟨h.vars_length, h.temps_length, fun {u i t} hu ht => ?_, fun {u i t} hu hp ht => ?_,
    fun {u} hm => ?_⟩
  · have hne : u ≠ v := by rintro rfl; simp [Placement.moves, hu] at hv
    exact h.var hu (by rwa [Values.set_of_ne θ a hne] at ht)
  · have hne : u ≠ v := by rintro rfl; simp [Placement.moves, hu, hp] at hv
    exact h.temp hu hp (by rwa [Values.set_of_ne θ a hne] at ht)
  · have hne : u ≠ v := by rintro rfl; rw [hm] at hv; cases hv
    rw [Values.set_of_ne θ a hne]
    exact h.known_iff hm

theorem known_set (h : r.Met known θ g) {u : String} (hm : r.placement.moves u = true) :
    u ∈ v :: known ↔ (θ.set v a u).isSome := by
  by_cases hne : u = v
  · subst hne; simp
  · rw [Values.set_of_ne θ a hne, List.mem_cons, h.known_iff hm]
    simp [hne]

theorem set_slot (h : r.Met known θ g) (hs : r.placement.slot? v = some i) :
    r.Met (v :: known) (θ.set v a) { g with vars := g.vars.set i (some a) } := by
  refine ⟨by simpa using h.vars_length, h.temps_length, fun {u j t} hu ht => ?_,
    fun {u j t} hu hp ht => ?_, fun hm => h.known_set hm⟩
  · by_cases hne : u = v
    · subst hne
      rw [hs] at hu
      cases hu
      rw [Values.set_self] at ht
      cases ht
      exact List.getElem?_set_self (by rw [h.vars_length]; exact lt_of_slot hs)
    · rw [Values.set_of_ne θ a hne] at ht
      have hij : i ≠ j := by rintro rfl; exact hne (slot_inj hu hs)
      rw [List.getElem?_set_ne hij]
      exact h.var hu ht
  · have hne : u ≠ v := by rintro rfl; rw [temp_of_slot hs] at hu; cases hu
    exact h.temp hu hp (by rwa [Values.set_of_ne θ a hne] at ht)

theorem set_temp (h : r.Met known θ g) (ht : r.placement.temp? v = some i) :
    r.Met (v :: known) (θ.set v a) { g with temps := g.temps.set i (some a) } := by
  refine ⟨h.vars_length, by simpa using h.temps_length, fun {u j t} hu hval => ?_,
    fun {u j t} hu hp hval => ?_, fun hm => h.known_set hm⟩
  · have hne : u ≠ v := by rintro rfl; rw [temp_of_slot hu] at ht; cases ht
    exact h.var hu (by rwa [Values.set_of_ne θ a hne] at hval)
  · by_cases hne : u = v
    · subst hne
      rw [ht] at hu
      cases hu
      rw [Values.set_self] at hval
      cases hval
      exact List.getElem?_set_self (Nat.lt_of_lt_of_le (lt_of_temp ht) h.temps_length)
    · rw [Values.set_of_ne θ a hne] at hval
      have hij : i ≠ j := by rintro rfl; exact hne (temp_inj hu ht)
      rw [List.getElem?_set_ne hij]
      exact h.temp hu hp hval

theorem not_known (h : r.Met known θ g) (hm : r.placement.moves v = true) (hk : v ∉ known) :
    θ v = none := by
  by_contra hne
  exact hk ((h.known_iff hm).2 (Option.isSome_iff_ne_none.2 hne))

theorem value_of_known (h : r.Met known θ g) (hm : r.placement.moves v = true) (hk : v ∈ known) :
    ∃ t, θ v = some t := Option.isSome_iff_exists.1 ((h.known_iff hm).1 hk)

end Rule.Met

/-! ## The code of a head -/

/-- Code is added to a draft by operations only. -/
def Draft.Adds (d d' : Draft) (ops : List Operation) : Prop :=
  d'.code = d.code ++ ops.map .operation

theorem Draft.Adds.trans {d d' d'' : Draft} {ops ops' : List Operation} (h : d.Adds d' ops)
    (h' : d'.Adds d'' ops') : d.Adds d'' (ops ++ ops') := by
  unfold Adds at *
  rw [h', h, List.map_append, List.append_assoc]

/-- What a head does with a variable. -/
theorem getLeaf_var (r : Rule) (d : Draft) (arg : Nat) (v : String) :
    r.placement.moves v = false ∧ d.getLeaf r.placement arg (.var v) = d ∨
    (∃ i, r.placement.temp? v = some i ∧ r.placement.inPlaceInHead v = false ∧
      d.getLeaf r.placement arg (.var v) = d.emitFirst v (.getTemp i arg) (.unifyTemp i arg)) ∨
    ∃ i, r.placement.slot? v = some i ∧
      d.getLeaf r.placement arg (.var v) =
        d.emitFirst v (.getVariable i arg) (.unifyVariable i arg) := by
  rcases kinds r v with hd | ⟨hd, ⟨i, ht⟩ | ⟨ht, i, hs⟩⟩
  · refine .inl ⟨?_, by simp [Draft.getLeaf, hd]⟩
    have hs : r.placement.slot? v = none := by
      by_contra h
      obtain ⟨i, hi⟩ := Option.ne_none_iff_exists'.1 h
      rw [not_dummy_of_slot hi] at hd
      cases hd
    have ht : r.placement.temp? v = none := by
      by_contra h
      obtain ⟨i, hi⟩ := Option.ne_none_iff_exists'.1 h
      rw [not_dummy_of_temp hi] at hd
      cases hd
    simp [Placement.moves, hs, ht]
  · have hs : r.placement.slot? v = none := by
      by_contra h
      obtain ⟨j, hj⟩ := Option.ne_none_iff_exists'.1 h
      rw [temp_of_slot hj] at ht
      cases ht
    cases hp : r.placement.inPlaceInHead v with
    | true => exact .inl ⟨by simp [Placement.moves, hs, hp], by simp [Draft.getLeaf, hd, ht, hp]⟩
    | false => exact .inr (.inl ⟨i, ht, rfl, by simp [Draft.getLeaf, hd, ht, hp]⟩)
  · exact .inr (.inr ⟨i, hs, by simp [Draft.getLeaf, hd, ht, hs]⟩)

theorem emitFirst_of_mem {d : Draft} {v : String} {first later : Operation} (h : v ∈ d.known) :
    d.emitFirst v first later = ⟨d.code ++ [.operation later], d.known⟩ := by
  simp [Draft.emitFirst, Draft.emit, h]

theorem emitFirst_of_not_mem {d : Draft} {v : String} {first later : Operation}
    (h : v ∉ d.known) :
    d.emitFirst v first later = ⟨d.code ++ [.operation first], v :: d.known⟩ := by
  simp [Draft.emitFirst, Draft.emit, Draft.learn, h]

/-- The code for one term of a head matches it with its argument. -/
theorem getLeaf_agrees (clause : String) (r : Rule) (d : Draft) (arg : Nat) (t : Term) :
    ∃ ops, d.Adds (d.getLeaf r.placement arg t) ops ∧ ∀ n θ g a, r.Met d.known θ g →
      g.args[arg]? = some a → r.New θ t →
      Agrees (Operation.runAll clause n g ops) (matchLeaf n θ g.bindings a t)
        fun g' θ' => r.Met (d.getLeaf r.placement arg t).known θ' g' ∧ g'.args = g.args := by
  cases t with
  | var v =>
    rcases getLeaf_var r d arg v with ⟨hm, hd⟩ | ⟨i, ht, hp, hd⟩ | ⟨i, hs, hd⟩
    · rw [hd]
      refine ⟨[], by simp [Draft.Adds], fun n θ g a h ha hnew => ?_⟩
      rw [matchLeaf, hnew v rfl hm]
      exact ⟨g, rfl, rfl, h.set_unmoved hm, rfl⟩
    · rw [hd]
      have hm : r.placement.moves v = true := by simp [Placement.moves, ht, hp]
      by_cases hk : v ∈ d.known
      · rw [emitFirst_of_mem hk]
        refine ⟨[.unifyTemp i arg], rfl, fun n θ g a h ha _ => ?_⟩
        obtain ⟨t, hθ⟩ := h.value_of_known hm hk
        rw [matchLeaf, hθ, Operation.runAll_single, Operation.run_unifyTemp ha (h.temp ht hp hθ)]
        exact agrees_unified fun b => ⟨h.congr rfl rfl, rfl⟩
      · rw [emitFirst_of_not_mem hk]
        refine ⟨[.getTemp i arg], rfl, fun n θ g a h ha _ => ?_⟩
        rw [matchLeaf, h.not_known hm hk, Operation.runAll_single,
          Operation.run_getTemp ha (Nat.lt_of_lt_of_le (lt_of_temp ht) h.temps_length)]
        exact ⟨_, rfl, rfl, h.set_temp ht, rfl⟩
    · rw [hd]
      have hm : r.placement.moves v = true := by simp [Placement.moves, hs]
      by_cases hk : v ∈ d.known
      · rw [emitFirst_of_mem hk]
        refine ⟨[.unifyVariable i arg], rfl, fun n θ g a h ha _ => ?_⟩
        obtain ⟨t, hθ⟩ := h.value_of_known hm hk
        rw [matchLeaf, hθ, Operation.runAll_single, Operation.run_unifyVariable ha (h.var hs hθ)]
        exact agrees_unified fun b => ⟨h.congr rfl rfl, rfl⟩
      · rw [emitFirst_of_not_mem hk]
        refine ⟨[.getVariable i arg], rfl, fun n θ g a h ha _ => ?_⟩
        rw [matchLeaf, h.not_known hm hk, Operation.runAll_single,
          Operation.run_getVariable ha (by rw [h.vars_length]; exact lt_of_slot hs)]
        exact ⟨_, rfl, rfl, h.set_slot hs, rfl⟩
  | node c =>
    refine ⟨[.getConstant arg (.node c)], rfl, fun n θ g a h ha _ => ?_⟩
    rw [matchLeaf, Operation.runAll_single, Operation.run_getConstant ha]
    exact agrees_unified fun b => ⟨h.congr rfl rfl, rfl⟩
  | ref v | app f ts | any =>
    exact ⟨[], by simp [Draft.Adds, Draft.getLeaf], fun n θ g a h _ _ => ⟨g, rfl, rfl, h, rfl⟩⟩

/-- The values are those of variables among `done`, and a variable that is not moved
stands once among all the terms. -/
structure Rule.MeetsOnce (r : Rule) (θ : Values) (done ts : List Term) : Prop where
  met : ∀ {v}, (θ v).isSome → .var v ∈ done
  once : ∀ {v}, r.placement.moves v = false → (done ++ ts).count (.var v) ≤ 1

theorem Rule.MeetsOnce.new {r : Rule} {θ : Values} {done ts : List Term} {t : Term}
    (h : r.MeetsOnce θ done (t :: ts)) : r.New θ t := by
  rintro v rfl hm
  by_contra hne
  have h1 := List.count_pos_iff.2 (h.met (Option.isSome_iff_ne_none.2 hne))
  have h2 := h.once hm
  rw [List.count_append, List.count_cons_self] at h2
  omega

theorem getLeaves_agrees (clause : String) (r : Rule) (d : Draft) (arg : Nat) (ts : List Term) :
    ∃ ops, d.Adds (d.getLeaves r.placement arg ts) ops ∧ ∀ n θ g args done, r.Met d.known θ g →
      r.MeetsOnce θ done ts → args.length = ts.length →
      (∀ j (t : Term), args[j]? = some t → g.args[arg + j]? = some t) →
      Agrees (Operation.runAll clause n g ops) (matchLeaves n θ g.bindings args ts)
        fun g' θ' => r.Met (d.getLeaves r.placement arg ts).known θ' g' ∧ g'.args = g.args := by
  induction ts generalizing d arg with
  | nil =>
    refine ⟨[], by simp [Draft.Adds, Draft.getLeaves], fun n θ g args done h _ hlen _ => ?_⟩
    obtain rfl : args = [] := by simpa using hlen
    exact ⟨g, rfl, rfl, h, rfl⟩
  | cons t ts ih =>
    obtain ⟨ops, hadds, hops⟩ := getLeaf_agrees clause r d arg t
    obtain ⟨ops', hadds', hops'⟩ := ih (d.getLeaf r.placement arg t) (arg + 1)
    refine ⟨ops ++ ops', hadds.trans hadds', fun n θ g args done h hone hlen hargs => ?_⟩
    cases args with
    | nil => simp at hlen
    | cons a args =>
      have ha : g.args[arg]? = some a := hargs 0 a (by simp)
      refine (hops n θ g a h ha hone.new).andThen fun g1 θ1 hy ⟨h1, hsame⟩ => ?_
      refine (hops' n θ1 g1 args (done ++ [t]) h1 ?_ (by simpa using hlen) ?_).mono ?_
      · refine ⟨fun {v} hv => ?_, fun hm => by simpa using hone.once hm⟩
        rcases matchLeaf_values hy with ⟨rfl, -⟩ | ⟨w, rfl, -, rfl⟩
        · exact List.mem_append_left _ (hone.met hv)
        · by_cases e : v = w
          · subst e; simp
          · rw [Values.set_of_ne θ a e] at hv
            exact List.mem_append_left _ (hone.met hv)
      · intro j u hj
        rw [hsame, show arg + 1 + j = arg + (j + 1) by omega]
        exact hargs (j + 1) u (by simpa using hj)
      · rintro g2 θ2 - ⟨h2, hsame2⟩
        exact ⟨h2, by rw [hsame2, hsame]⟩

/-! ## The whole head -/

/-- A variable that is not moved stands at most once in the head. -/
theorem count_head_le {r : Rule} {v : String} (hm : r.placement.moves v = false) :
    r.head.flatten.count (.var v) ≤ 1 := by
  rcases kinds r v with hd | ⟨-, ⟨i, ht⟩ | ⟨-, i, hs⟩⟩
  · have := isDummy_iff.1 hd
    simp only [Rule.entries, List.flatten_cons, List.count_append] at this
    omega
  · have hp : r.placement.inPlaceInHead v = true := (by simpa [Placement.moves, ht] using hm : _ ∧ _).2
    exact count_le_one_of_inPlace (e := 0) (inPlace_of_inPlaceInHead hp) rfl
  · simp [Placement.moves, hs] at hm

/-- The registers after a head: a variable that stands once in it is still in its
argument. -/
structure Rule.Entered (r : Rule) (known : List String) (θ : Values) (g : Registers) : Prop where
  met : r.Met known θ g
  args_length : g.args.length = maxArguments
  isSome_iff : ∀ {v}, (θ v).isSome ↔ Term.var v ∈ r.head.flatten
  in_place : ∀ {v : String} {j : Nat}, r.head.flatten[j]? = some (.var v) → r.head.flatten.count (.var v) ≤ 1 →
    g.args[j]? = θ v

/-- What the terms before an object leave behind. -/
structure Rule.Opened (r : Rule) (known : List String) (θ : Values) (g : Registers)
    (goal : Triple) : Prop where
  met : r.Met known θ g
  args_length : g.args.length = maxArguments
  called : g.args.take 3 = goal.terms
  isSome_iff : ∀ {v}, (θ v).isSome ↔ Term.var v ∈ [r.head.subject, r.head.predicate]
  subject : ∀ {v}, r.head.subject = .var v →
    [r.head.subject, r.head.predicate].count (.var v) ≤ 1 → θ v = some goal.subject
  predicate : ∀ {v}, r.head.predicate = .var v →
    [r.head.subject, r.head.predicate].count (.var v) ≤ 1 → θ v = some goal.predicate

theorem getStart_agrees (clause : String) (r : Rule) (d : Draft) (hd : d.known = []) :
    ∃ ops, d.Adds (d.getLeaves r.placement 0 [r.head.subject, r.head.predicate]) ops ∧
      ∀ n g goal, r.Met [] .none g → g.args.length = maxArguments →
      g.args.take 3 = goal.terms →
      Agrees (Operation.runAll clause n g ops)
        (matchLeaves n .none g.bindings [goal.subject, goal.predicate]
          [r.head.subject, r.head.predicate])
        fun g' θ' => r.Opened
          (d.getLeaves r.placement 0 [r.head.subject, r.head.predicate]).known θ' g' goal := by
  obtain ⟨ops, hadds, hops⟩ :=
    getLeaves_agrees clause r d 0 [r.head.subject, r.head.predicate]
  refine ⟨ops, hadds, fun n g goal hmet hlen hgoal => ?_⟩
  have hargs : ∀ j (t : Term), [goal.subject, goal.predicate][j]? = some t →
      g.args[0 + j]? = some t := by
    intro j t hj
    have hj' : (g.args.take 3)[j]? = some t := by
      rw [hgoal]
      match j, hj with
      | 0, hj => exact hj
      | 1, hj => exact hj
    rw [Nat.zero_add]
    rw [List.getElem?_take] at hj'
    split at hj'
    · exact hj'
    · cases hj'
  have hone : r.MeetsOnce .none [] [r.head.subject, r.head.predicate] := by
    refine ⟨fun h => by simp [Values.none] at h, fun {v} hm => ?_⟩
    have := count_head_le hm
    simp only [Triple.flatten, List.nil_append, List.count_cons, List.count_append,
      List.count_nil] at this ⊢
    omega
  rw [← hd] at hmet
  refine (hops n .none g [goal.subject, goal.predicate] [] hmet hone rfl hargs).mono fun g' θ' hy ⟨hm', hsame⟩ => ?_
  refine ⟨hm', by rw [hsame, hlen], by rw [hsame, hgoal], ?_, ?_, ?_⟩
  · intro v
    rw [matchLeaves_isSome hy rfl]
    simp [Values.none]
  · intro v hv hc
    rw [← matchLeaves_once (j := 0) hy rfl (by simp [hv]) rfl hc]
    rfl
  · intro v hv hc
    rw [← matchLeaves_once (j := 1) hy rfl (by simp [hv]) rfl hc]
    rfl

section

variable {r : Rule} {known : List String} {θ θ' : Values} {g : Registers} {goal : Triple}
  {b b' : Bindings} {args ts : List Term} {v : String} {j : Nat}

/-- After the object, too, the terms before it have the values of the goal. -/
theorem Rule.Opened.start_in_place (h : r.Opened known θ g goal)
    (hy : matchLeaves n θ b args ts = some (some (θ', b')))
    (hj : [r.head.subject, r.head.predicate][j]? = some (.var v))
    (hc : [r.head.subject, r.head.predicate].count (.var v) ≤ 1) : goal.terms[j]? = θ' v := by
  match j, hj with
  | 0, hj => exact (matchLeaves_keeps hy (h.subject (Option.some.inj hj) hc)).symm
  | 1, hj => exact (matchLeaves_keeps hy (h.predicate (Option.some.inj hj) hc)).symm

theorem Rule.Opened.rest_in_place (h : r.Opened known θ g goal)
    (hy : matchLeaves n θ b args ts = some (some (θ', b'))) (hlen : args.length = ts.length)
    (hj : ts[j]? = some (.var v))
    (hc : ([r.head.subject, r.head.predicate] ++ ts).count (.var v) ≤ 1) : args[j]? = θ' v := by
  rw [List.count_append] at hc
  have hpos := List.count_pos_iff.2 (List.mem_of_getElem? hj)
  refine matchLeaves_once hy hlen hj ?_ (by omega)
  by_contra hne
  have := List.count_pos_iff.2 (h.isSome_iff.1 (Option.isSome_iff_ne_none.2 hne))
  omega

end

/-- The object of a head that is not compound is one more argument. -/
theorem getObject_agrees (clause : String) (r : Rule) (d : Draft)
    (hobj : r.head.object.isApp = false) :
    ∃ ops, d.Adds (d.getLeaf r.placement 2 r.head.object) ops ∧
      ∀ n θ g goal, r.Opened d.known θ g goal →
      Agrees (Operation.runAll clause n g ops)
        (matchObject n θ g.bindings goal.object r.head.object)
        fun g' θ' => r.Entered (d.getLeaf r.placement 2 r.head.object).known θ' g' := by
  obtain ⟨ops, hadds, hops⟩ := getLeaves_agrees clause r d 2 [r.head.object]
  have hflat : r.head.flatten = [r.head.subject, r.head.predicate] ++ [r.head.object] := by
    unfold Triple.flatten
    split
    · next f ts h => simp [h, Term.isApp] at hobj
    · simp
  refine ⟨ops, hadds, fun n θ g goal h => ?_⟩
  have hmatch : matchObject n θ g.bindings goal.object r.head.object =
      matchLeaves n θ g.bindings [goal.object] [r.head.object] := by
    have : matchObject n θ g.bindings goal.object r.head.object =
        matchLeaf n θ g.bindings goal.object r.head.object := by
      unfold matchObject
      split
      · next f ts h => simp [h, Term.isApp] at hobj
      · rfl
    rw [this, matchLeaves]
    rcases matchLeaf n θ g.bindings goal.object r.head.object with _ | _ | ⟨θ1, b1⟩ <;> rfl
  rw [hmatch]
  have hone : r.MeetsOnce θ [r.head.subject, r.head.predicate] [r.head.object] :=
    ⟨fun hv => h.isSome_iff.1 hv, fun hm => hflat ▸ count_head_le hm⟩
  have hgoal2 : g.args[2]? = some goal.object := by
    have := congrArg (·[2]?) h.called
    simpa [Triple.terms] using this
  refine (hops n θ g [goal.object] _ h.met hone rfl fun j t hj => ?_).mono
    fun g' θ' hy hmet => ?_
  · obtain rfl : j = 0 := by simpa using (List.getElem?_eq_some_iff.1 hj).1
    rw [hgoal2]
    exact hj
  · obtain ⟨hm', hsame⟩ := hmet
    refine ⟨hm', by rw [hsame, h.args_length], fun {v} => ?_, fun {v j} hj hc => ?_⟩
    · rw [matchLeaves_isSome hy rfl, h.isSome_iff, hflat, List.mem_append]
    · have hg : goal.terms[j]? = θ' v := by
        rw [hflat] at hj hc
        by_cases h2 : j < 2
        · rw [List.getElem?_append_left h2] at hj
          exact h.start_in_place hy hj (by rw [List.count_append] at hc; omega)
        · rw [List.getElem?_append_right (by simp only [List.length_cons, List.length_nil]; omega)] at hj
          obtain rfl : j = 2 := by
            have := (List.getElem?_eq_some_iff.1 hj).1
            simp only [List.length_cons, List.length_nil] at this
            omega
          have := h.rest_in_place hy rfl hj hc
          exact this
      have hlt : j < 3 := by
        have := (List.getElem?_eq_some_iff.1 hj).1
        rw [hflat] at this
        simpa using this
      rw [hsame, ← hg, ← h.called, List.getElem?_take, if_pos hlt]

/-- A compound object is taken apart first. -/
theorem getApp_agrees (clause : String) (r : Rule) (d : Draft) {f : String} {ts : List Term}
    (hobj : r.head.object = .app f ts) (hlen : argBase + ts.length ≤ maxArguments) :
    ∃ ops, d.Adds ((d.emit (.getFunctor ⟨f, ts⟩)).getLeaves r.placement argBase ts) ops ∧
      ∀ n θ g goal, r.Opened d.known θ g goal →
      Agrees (Operation.runAll clause n g ops)
        (matchObject n θ g.bindings goal.object r.head.object)
        fun g' θ' => r.Entered
          ((d.emit (.getFunctor ⟨f, ts⟩)).getLeaves r.placement argBase ts).known θ' g' := by
  obtain ⟨ops, hadds, hops⟩ :=
    getLeaves_agrees clause r (d.emit (.getFunctor ⟨f, ts⟩)) argBase ts
  have hflat : r.head.flatten = [r.head.subject, r.head.predicate, .app f ts] ++ ts := by
    simp [Triple.flatten, hobj]
  have hcount : ∀ v, ([r.head.subject, r.head.predicate] ++ ts).count (.var v) =
      r.head.flatten.count (.var v) := fun v => by
    rw [hflat]
    simp [List.count_cons]
  refine ⟨.getFunctor ⟨f, ts⟩ :: ops, ?_, fun n θ g goal h => ?_⟩
  · unfold Draft.Adds at hadds ⊢
    rw [hadds]
    simp [Draft.emit]
  have hgoal2 : g.args[2]? = some goal.object := by
    have := congrArg (·[2]?) h.called
    simpa [Triple.terms] using this
  rw [hobj, matchObject, Operation.runAll,
    Operation.run_getFunctor hgoal2 (by rw [h.args_length]; exact hlen)]
  cases hopen : g.bindings.openObject goal.object f ts with
  | none => rfl
  | some p =>
    obtain ⟨args, b⟩ := p
    have hargs := Bindings.length_openObject hopen
    have hone : r.MeetsOnce θ [r.head.subject, r.head.predicate] ts :=
      ⟨fun hv => h.isSome_iff.1 hv, fun {v} hm => by rw [hcount v]; exact count_head_le hm⟩
    have hthree : (g.args.take argBase).length = 3 := by
      rw [List.length_take, h.args_length]
      rfl
    let g1 : Registers :=
      { g with
        bindings := b
        args := g.args.take argBase ++ args ++ g.args.drop (argBase + args.length) }
    have hmid : ∀ j, j < args.length → g1.args[argBase + j]? = args[j]? := fun j hj => by
      change (g.args.take argBase ++ args ++ _)[argBase + j]? = _
      rw [List.append_assoc, List.getElem?_append_right (by rw [hthree]; simp [argBase]), hthree,
        List.getElem?_append_left (by simp only [argBase]; omega)]
      congr 1
      simp only [argBase]
      omega
    have hstart : ∀ j, j < 3 → g1.args[j]? = goal.terms[j]? := fun j hj => by
      change (g.args.take argBase ++ args ++ _)[j]? = _
      rw [List.append_assoc, List.getElem?_append_left (by omega), ← h.called]
      rfl
    refine (hops n θ g1 args _ (h.met.congr rfl rfl) hone hargs fun j t hj => ?_).mono
      fun g' θ' hy hmet => ?_
    · rw [hmid j (List.getElem?_eq_some_iff.1 hj).1]
      exact hj
    · obtain ⟨hm', hsame⟩ := hmet
      refine ⟨hm', ?_, fun {v} => ?_, fun {v j} hj hc => ?_⟩
      · rw [hsame]
        change (g.args.take argBase ++ args ++ g.args.drop (argBase + args.length)).length = _
        rw [List.length_append, List.length_append, List.length_drop, hthree, h.args_length]
        simp only [argBase, maxArguments] at hlen ⊢
        omega
      · rw [matchLeaves_isSome hy hargs, h.isSome_iff, hflat]
        simp
        tauto
      · rw [hsame]
        rw [← hcount v] at hc
        rw [hflat] at hj
        by_cases h3 : j < 3
        · rw [hstart j h3]
          rw [List.getElem?_append_left (by simpa using h3)] at hj
          refine h.start_in_place hy ?_ (by rw [List.count_append] at hc; omega)
          obtain rfl | rfl | rfl : j = 0 ∨ j = 1 ∨ j = 2 := by omega
          · exact hj
          · exact hj
          · cases hj
        · rw [List.getElem?_append_right (by simpa using h3)] at hj
          simp only [List.length_cons, List.length_nil] at hj
          have hlt := (List.getElem?_eq_some_iff.1 hj).1
          rw [← h.rest_in_place hy hargs hj hc, ← hmid (j - 3) (by omega)]
          congr 1
          simp only [argBase]
          omega

theorem getHead_agrees (clause : String) (r : Rule) (d : Draft) (hd : d.known = [])
    (hf : r.headFault = none) :
    ∃ ops, d.Adds (d.getHead r.placement r.head) ops ∧
      ∀ n g goal, r.Met [] .none g → g.args.length = maxArguments →
      g.args.take 3 = goal.terms →
      Agrees (Operation.runAll clause n g ops) (matchHead n r.head goal g.bindings)
        fun g' θ' => r.Entered (d.getHead r.placement r.head).known θ' g' := by
  obtain ⟨ops, hadds, hops⟩ := getStart_agrees clause r d hd
  cases hobj : r.head.object.isApp with
  | false =>
    obtain ⟨ops', hadds', hops'⟩ := getObject_agrees clause r
      (d.getLeaves r.placement 0 [r.head.subject, r.head.predicate]) hobj
    have hhead : d.getHead r.placement r.head =
        (d.getLeaves r.placement 0 [r.head.subject, r.head.predicate]).getLeaf r.placement 2
          r.head.object := by
      unfold Draft.getHead
      cases h : r.head.object <;> first | rfl | simp [h, Term.isApp] at hobj
    rw [hhead]
    refine ⟨ops ++ ops', hadds.trans hadds', fun n g goal hmet hlen hgoal => ?_⟩
    exact (hops n g goal hmet hlen hgoal).andThen fun g1 θ1 _ h1 => hops' n θ1 g1 goal h1
  | true =>
    obtain ⟨f, ts, happ⟩ : ∃ f ts, r.head.object = .app f ts := by
      cases h : r.head.object <;> simp [h, Term.isApp] at hobj
      exact ⟨_, _, rfl⟩
    have hlen : argBase + ts.length ≤ maxArguments := by
      by_contra hlt
      unfold Rule.headFault at hf
      simp only [happ, Nat.lt_of_not_le hlt, if_true] at hf
      split at hf
      · cases hf
      · split at hf <;> cases hf
    obtain ⟨ops', hadds', hops'⟩ := getApp_agrees clause r
      (d.getLeaves r.placement 0 [r.head.subject, r.head.predicate]) happ hlen
    have hhead : d.getHead r.placement r.head =
        ((d.getLeaves r.placement 0 [r.head.subject, r.head.predicate]).emit
          (.getFunctor ⟨f, ts⟩)).getLeaves r.placement argBase ts := by
      unfold Draft.getHead
      rw [happ]
      rfl
    rw [hhead]
    refine ⟨ops ++ ops', hadds.trans hadds', fun n g goal hmet hlen hgoal => ?_⟩
    exact (hops n g goal hmet hlen hgoal).andThen fun g1 θ1 _ h1 => hops' n θ1 g1 goal h1

/-! ## The tests before the head -/

theorem test_of_mem {head : Triple} {es : List Entry} {op : Operation}
    (h : op ∈ (leadingTests head es).1) :
    ∃ arg < 3, op = .testBound arg ∨ op = .testUnbound arg := by
  induction es with
  | nil => simp [leadingTests] at h
  | cons e es ih =>
    rw [leadingTests] at h
    split at h
    · next test htest =>
      rcases List.mem_cons.1 h with rfl | h
      · unfold Entry.argumentTest? at htest
        split at htest
        · obtain ⟨arg, harg, hop⟩ := Option.bind_eq_some_iff.1 htest
          obtain ⟨hlt, -⟩ := List.idxOf?_eq_some_iff.1 harg
          refine ⟨arg, hlt, ?_⟩
          split at hop
          · cases hop; exact .inl rfl
          · split at hop
            · cases hop; exact .inr rfl
            · cases hop
        · cases htest
      · exact ih h
    · simp at h

theorem runAll_tests {clause : String} {g : Registers} {goal : Triple} {ops : List Operation}
    (hops : ∀ op ∈ ops, ∃ arg < 3, op = .testBound arg ∨ op = .testUnbound arg)
    (hgoal : g.args.take 3 = goal.terms) :
    Operation.runAll clause n g ops =
      some (.ok (if ops.all (·.passes g.bindings goal) then some g else none)) := by
  induction ops with
  | nil => rfl
  | cons op ops ih =>
    obtain ⟨arg, hlt, hop⟩ := hops op List.mem_cons_self
    have ha : g.args[arg]? = some (goal.terms.getD arg .any) := by
      rw [← hgoal, List.getD_eq_getElem?_getD, List.getElem?_take, if_pos hlt]
      have : arg < g.args.length := by
        have h3 := congrArg List.length hgoal
        simp only [List.length_take, Triple.terms, List.length_cons, List.length_nil] at h3
        omega
      simp [this]
    have hrun : op.run clause n g =
        some (.ok (if op.passes g.bindings goal then some g else none)) := by
      rcases hop with rfl | rfl
      · rw [Operation.run_testBound ha]; rfl
      · rw [Operation.run_testUnbound ha]
        by_cases h : g.bindings.isBound (goal.terms.getD arg .any) = true
        · simp only [Operation.passes, h, if_true, Bool.not_true, Bool.false_eq_true, if_false]
        · simp only [Operation.passes, h, Bool.not_false, if_true, Bool.false_eq_true, if_false]
    rw [Operation.runAll, hrun, List.all_cons]
    cases op.passes g.bindings goal with
    | false => rfl
    | true => exact ih fun op h => hops op (List.mem_cons_of_mem _ h)

end TabledRules
