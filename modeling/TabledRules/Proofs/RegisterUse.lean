-- Which registers the code of a rule reads and which it sets. Every register
-- is set before it is read, none but a slot is read after a call unless it
-- was set again, and a slot is set once.
import Mathlib.Data.Set.Basic
import TabledRules.Proofs.BodyCode

namespace TabledRules

/-! ## What an operation reads and sets -/

/-- A register of a clause: an argument, a temporary register, or the slot of a permanent
variable. -/
inductive Register where
  | arg (i : Nat)
  | temp (i : Nat)
  | slot (i : Nat)
deriving DecidableEq

namespace Operation

def reads : Operation → List Register
  | .testBound arg | .testUnbound arg | .getVariable _ arg | .getTemp _ arg
  | .getConstant arg _ => [.arg arg]
  | .getFunctor _ => [.arg 2]
  | .unifyVariable slot arg => [.arg arg, .slot slot]
  | .unifyTemp temp arg => [.arg arg, .temp temp]
  | .putVariable slot _ | .putDerefVariable slot _ => [.slot slot]
  | .putTemp temp _ => [.temp temp]
  | .makeFunctor shape => (List.range shape.args.length).map fun i => .arg (argBase + i)
  | .putNewVariable _ _ | .putConstant _ _ | .clearArg _ => []

def sets : Operation → List Register
  | .getVariable slot _ => [.slot slot]
  | .getTemp temp _ => [.temp temp]
  | .getFunctor shape => (List.range shape.args.length).map fun i => .arg (argBase + i)
  | .putNewVariable slot arg => [.slot slot, .arg arg]
  | .putVariable _ arg | .putDerefVariable _ arg | .putTemp _ arg | .putConstant arg _
  | .clearArg arg => [.arg arg]
  | .makeFunctor _ => [.arg 2]
  | .testBound _ | .testUnbound _ | .getConstant _ _ | .unifyVariable _ _ | .unifyTemp _ _ => []

end Operation

/-! ## Code that sets registers before it reads them -/

namespace Register

variable {K K' : Set Register} {op : Operation} {ops : List Operation} {code : List Instruction}
  {i : Nat}

/-- The registers that are set after an operation. -/
def after (K : Set Register) (op : Operation) : Set Register := K ∪ {x | x ∈ op.sets}

/-- What a call leaves as it is. -/
def slots (K : Set Register) : Set Register := {x | x ∈ K ∧ ∃ i, x = .slot i}

/-- The registers in `K` are set, and those that are read are among them. A slot that is set is
not set again. -/
structure Fine (K : Set Register) (op : Operation) : Prop where
  reads : ∀ x ∈ op.reads, x ∈ K
  once : ∀ i, .slot i ∈ op.sets → .slot i ∉ K

/-- The code can run where the registers in `K` are set. -/
def Suffice (K : Set Register) : List Instruction → Prop
  | [] => True
  | .operation op :: code => Fine K op ∧ Suffice (after K op) code
  | .call _ :: code => (∀ i < 3, .arg i ∈ K) ∧ Suffice (slots K) code
  | .builtin _ arity :: code => (∀ i < arity, .arg i ∈ K) ∧ Suffice K code
  | .proceed :: _ => True

/-- Operations can run where the registers in `K` are set, and leave those in `K'` set. -/
inductive Leads : Set Register → List Operation → Set Register → Prop
  | nil {K : Set Register} : Leads K [] K
  | cons {K K' : Set Register} {op : Operation} {ops : List Operation} : Fine K op →
    Leads (after K op) ops K' → Leads K (op :: ops) K'

@[simp] theorem slot_mem_slots : .slot i ∈ slots K ↔ .slot i ∈ K :=
  ⟨fun h => h.1, fun h => ⟨h, i, rfl⟩⟩

theorem subset_after (K : Set Register) (op : Operation) : K ⊆ after K op := Set.subset_union_left

theorem Leads.single (h : Fine K op) : Leads K [op] (after K op) := .cons h .nil

theorem Leads.append {K'' : Set Register} {ops' : List Operation} (h : Leads K ops K')
    (h' : Leads K' ops' K'') : Leads K (ops ++ ops') K'' := by
  induction h with
  | nil => exact h'
  | cons hop _ ih => exact .cons hop (ih h')

theorem Leads.subset (h : Leads K ops K') : K ⊆ K' := by
  induction h with
  | nil => exact subset_rfl
  | cons _ _ ih => exact (subset_after _ _).trans ih

theorem Leads.suffice (h : Leads K ops K') (hcode : Suffice K' code) :
    Suffice K (ops.map .operation ++ code) := by
  induction h with
  | nil => exact hcode
  | cons hop _ ih => exact ⟨hop, ih hcode⟩

end Register

open Register

/-! ## The registers of a head -/

/-- The slots that are set are those of the variables in `known`. -/
def Rule.Slotted (r : Rule) (known : List String) (K : Set Register) : Prop :=
  ∀ ⦃v i⦄, r.placement.slot? v = some i → (.slot i ∈ K ↔ v ∈ known)

/-- The temporary registers of the variables in `known` are set. -/
def Rule.Stored (r : Rule) (known : List String) (K : Set Register) : Prop :=
  ∀ ⦃v i⦄, r.placement.temp? v = some i → v ∈ known → .temp i ∈ K

section

variable {r : Rule} {known : List String} {K K' : Set Register} {v : String} {i arg : Nat}
  {op : Operation}

/-- An operation that sets no slot. -/
theorem Rule.Slotted.after (h : r.Slotted known K) (hop : ∀ i, .slot i ∉ op.sets) :
    r.Slotted known (after K op) :=
  fun _ _ hs => (or_iff_left (hop _)).trans (h hs)

/-- A variable gets its slot. -/
theorem Rule.Slotted.learn (h : r.Slotted known K) (hs : r.placement.slot? v = some i)
    (hop : ∀ j, .slot j ∈ op.sets ↔ j = i) : r.Slotted (v :: known) (Register.after K op) := by
  intro u j hu
  rw [List.mem_cons, ← h hu]
  refine ⟨Or.rec .inr fun hj => ?_, Or.rec (fun e => ?_) .inl⟩
  · obtain rfl := (hop j).1 hj
    exact .inl (slot_inj hu hs)
  · subst e
    rw [hs] at hu
    cases hu
    exact .inr ((hop i).2 rfl)

/-- A variable without a slot is met. -/
theorem Rule.Slotted.cons (h : r.Slotted known K) (hs : r.placement.slot? v = none) :
    r.Slotted (v :: known) K := by
  intro u j hu
  rw [h hu, List.mem_cons]
  refine ⟨.inr, Or.rec (fun e => ?_) id⟩
  rw [e, hs] at hu
  cases hu

theorem Rule.Slotted.slots (h : r.Slotted known K) : r.Slotted known (Register.slots K) :=
  fun _ _ hs => slot_mem_slots.trans (h hs)

theorem Rule.Stored.mono (h : r.Stored known K) (hK : K ⊆ K') : r.Stored known K' :=
  fun _ _ ht hv => hK (h ht hv)

theorem slot_of_temp (h : r.placement.temp? v = some i) : r.placement.slot? v = none := by
  by_contra hne
  obtain ⟨j, hj⟩ := Option.ne_none_iff_exists'.1 hne
  rw [temp_of_slot hj] at h
  cases h

/-- The registers of the variables in `known` are set. -/
structure Rule.Holds (r : Rule) (known : List String) (K : Set Register) : Prop where
  slotted : r.Slotted known K
  stored : r.Stored known K

theorem Rule.Holds.slot (h : r.Holds known K) (hs : r.placement.slot? v = some i)
    (hop : ∀ j, .slot j ∈ op.sets ↔ j = i) : r.Holds (v :: known) (after K op) := by
  refine ⟨h.slotted.learn hs hop, fun u j ht hu => ?_⟩
  rcases List.mem_cons.1 hu with rfl | hu
  · rw [temp_of_slot hs] at ht
    cases ht
  · exact .inl (h.stored ht hu)

theorem Rule.Holds.temp (h : r.Holds known K) (ht : r.placement.temp? v = some i)
    (hop : op.sets = [.temp i]) : r.Holds (v :: known) (after K op) := by
  refine ⟨(h.slotted.cons (slot_of_temp ht)).after (by simp [hop]), fun u j hu hmem => ?_⟩
  rcases List.mem_cons.1 hmem with rfl | hmem
  · rw [ht] at hu
    cases hu
    exact .inr (by simp [hop])
  · exact .inl (h.stored hu hmem)

theorem Rule.Holds.after (h : r.Holds known K) (hop : ∀ i, .slot i ∉ op.sets) :
    r.Holds known (after K op) :=
  ⟨h.slotted.after hop, h.stored.mono (subset_after K op)⟩

theorem Draft.adds_emit (d : Draft) (op : Operation) : d.Adds (d.emit op) [op] := rfl

/-- What leads from one draft of a head to another. -/
structure Draft.Gets (r : Rule) (d d' : Draft) (ts : List Term) (arg : Nat) : Prop where
  known : d.known ⊆ d'.known
  moved : ∀ v, .var v ∈ ts → r.placement.moves v = true → v ∈ d'.known
  leads : ∃ ops, d.Adds d' ops ∧ ∀ K, r.Holds d.known K →
    (∀ j < ts.length, .arg (arg + j) ∈ K) → ∃ K', Leads K ops K' ∧ r.Holds d'.known K'

theorem getLeaf_gets (r : Rule) (d : Draft) (arg : Nat) (t : Term) :
    d.Gets r (d.getLeaf r.placement arg t) [t] arg := by
  cases t with
  | var v =>
    -- a variable that has been met is compared, and another one is moved
    have first : ∀ op op', d.getLeaf r.placement arg (.var v) = d.emitFirst v op op' →
        (∀ K, r.Holds d.known K → .arg arg ∈ K → (v ∈ d.known → Fine K op' ∧ op'.sets = []) ∧
          (v ∉ d.known → Fine K op ∧ r.Holds (v :: d.known) (after K op))) →
        d.Gets r (d.getLeaf r.placement arg (.var v)) [.var v] arg := by
      intro op op' hd h
      rw [hd]
      by_cases hk : v ∈ d.known
      · rw [emitFirst_of_mem hk]
        refine ⟨List.Subset.refl _, fun u hu _ => ?_, [op'], rfl, fun K hK harg => ?_⟩
        · obtain rfl : u = v := by simpa using hu
          exact hk
        · obtain ⟨h1, h2⟩ := (h K hK (harg 0 Nat.zero_lt_one)).1 hk
          exact ⟨_, .single h1, hK.after (by simp [h2])⟩
      · rw [emitFirst_of_not_mem hk]
        refine ⟨List.subset_cons_self _ _, fun u hu _ => ?_, [op], rfl, fun K hK harg => ?_⟩
        · obtain rfl : u = v := by simpa using hu
          exact List.mem_cons_self
        · obtain ⟨h1, h2⟩ := (h K hK (harg 0 Nat.zero_lt_one)).2 hk
          exact ⟨_, .single h1, h2⟩
    rcases getLeaf_var r d arg v with ⟨hm, hd⟩ | ⟨i, ht, hp, hd⟩ | ⟨i, hs, hd⟩
    · rw [hd]
      refine ⟨List.Subset.refl _, fun u hu hmoved => ?_, [], by simp [Draft.Adds], fun K hK _ =>
        ⟨K, .nil, hK⟩⟩
      obtain rfl : u = v := by simpa using hu
      rw [hm] at hmoved
      cases hmoved
    · refine first _ _ hd fun K hK harg => ⟨fun hk => ⟨⟨?_, by simp [Operation.sets]⟩, rfl⟩,
        fun _ => ⟨⟨?_, by simp [Operation.sets]⟩, hK.temp ht rfl⟩⟩
      · simp [Operation.reads, harg, hK.stored ht hk]
      · simp [Operation.reads, harg]
    · refine first _ _ hd fun K hK harg => ⟨fun hk => ⟨⟨?_, by simp [Operation.sets]⟩, rfl⟩,
        fun hk => ⟨⟨?_, ?_⟩, hK.slot hs (by simp [Operation.sets])⟩⟩
      · simp [Operation.reads, harg, (hK.slotted hs).2 hk]
      · simp [Operation.reads, harg]
      · intro j hj
        obtain rfl : j = i := by simpa [Operation.sets] using hj
        exact fun h => hk ((hK.slotted hs).1 h)
  | node c =>
    refine ⟨List.Subset.refl _, by simp, [.getConstant arg (.node c)], rfl, fun K hK harg => ?_⟩
    exact ⟨_, .single ⟨by simpa [Operation.reads] using harg 0 Nat.zero_lt_one,
      by simp [Operation.sets]⟩, hK.after (by simp [Operation.sets])⟩
  | ref v | app f ts | any =>
    exact ⟨List.Subset.refl _, by simp, [], by simp [Draft.Adds, Draft.getLeaf], fun K hK _ =>
      ⟨K, .nil, hK⟩⟩

theorem Draft.Gets.cons {d d' d'' : Draft} {t : Term} {ts : List Term} (h : d.Gets r d' [t] arg)
    (h' : d'.Gets r d'' ts (arg + 1)) : d.Gets r d'' (t :: ts) arg := by
  obtain ⟨ops, hadds, hops⟩ := h.leads
  obtain ⟨ops', hadds', hops'⟩ := h'.leads
  refine ⟨List.Subset.trans h.known h'.known, fun v hv hm => ?_, ops ++ ops', hadds.trans hadds',
    fun K hK harg => ?_⟩
  · rcases List.mem_cons.1 hv with rfl | hv
    · exact h'.known (h.moved v List.mem_cons_self hm)
    · exact h'.moved v hv hm
  · obtain ⟨K1, h1, hK1⟩ := hops K hK fun j hj => harg j (by simp at hj ⊢; omega)
    obtain ⟨K2, h2, hK2⟩ := hops' K1 hK1 fun j hj => h1.subset (by
      rw [Nat.add_right_comm]
      exact harg (j + 1) (by simpa using hj))
    exact ⟨K2, h1.append h2, hK2⟩

theorem getLeaves_gets (r : Rule) (d : Draft) (arg : Nat) (ts : List Term) :
    d.Gets r (d.getLeaves r.placement arg ts) ts arg := by
  induction ts generalizing d arg with
  | nil =>
    exact ⟨List.Subset.refl _, by simp, [], by simp [Draft.Adds, Draft.getLeaves], fun K hK _ =>
      ⟨K, .nil, hK⟩⟩
  | cons t ts ih => exact (getLeaf_gets r d arg t).cons (ih _ (arg + 1))

/-- The head of a rule is matched with the arguments of a call. After it the parts of a compound
object stand in arguments, too. -/
theorem getHead_gets (r : Rule) (d : Draft) : d.known ⊆ (d.getHead r.placement r.head).known ∧
    (∀ v, .var v ∈ r.head.flatten → r.placement.moves v = true →
      v ∈ (d.getHead r.placement r.head).known) ∧
    ∃ ops, d.Adds (d.getHead r.placement r.head) ops ∧ ∀ K, r.Holds d.known K →
      (∀ j < 3, .arg j ∈ K) → ∃ K', Leads K ops K' ∧
        r.Holds (d.getHead r.placement r.head).known K' ∧
        ∀ j < r.head.flatten.length, .arg j ∈ K' := by
  have hstart := (getLeaf_gets r d 0 r.head.subject).cons
    (getLeaves_gets r (d.getLeaf r.placement 0 r.head.subject) 1 [r.head.predicate])
  rw [Draft.getLeaves, Draft.getLeaves] at hstart
  cases hobj : r.head.object.isApp with
  | false =>
    have hparts : r.head.object.parts = [] := by
      cases h : r.head.object <;> first | rfl | simp [h, Term.isApp] at hobj
    have hhead : d.getHead r.placement r.head =
        ((d.getLeaf r.placement 0 r.head.subject).getLeaf r.placement 1
          r.head.predicate).getLeaf r.placement 2 r.head.object := by
      unfold Draft.getHead
      cases h : r.head.object <;> first | rfl | simp [h, Term.isApp] at hobj
    have hall := (getLeaf_gets r d 0 r.head.subject).cons <|
      (getLeaf_gets r _ 1 r.head.predicate).cons (getLeaf_gets r _ 2 r.head.object)
    rw [← hhead] at hall
    rw [Triple.flatten_eq, hparts]
    obtain ⟨ops, hadds, hops⟩ := hall.leads
    refine ⟨hall.known, hall.moved, ops, hadds, fun K hK harg => ?_⟩
    obtain ⟨K', h1, h2⟩ := hops K hK fun j hj => by simpa using harg j hj
    exact ⟨K', h1, h2, fun j hj => h1.subset (harg j hj)⟩
  | true =>
    obtain ⟨f, ts, happ⟩ : ∃ f ts, r.head.object = .app f ts := by
      cases h : r.head.object <;> simp [h, Term.isApp] at hobj
      exact ⟨_, _, rfl⟩
    have hhead : d.getHead r.placement r.head =
        (((d.getLeaf r.placement 0 r.head.subject).getLeaf r.placement 1
          r.head.predicate).emit (.getFunctor ⟨f, ts⟩)).getLeaves r.placement argBase ts := by
      unfold Draft.getHead
      rw [happ]
    have hrest := getLeaves_gets r (((d.getLeaf r.placement 0 r.head.subject).getLeaf r.placement 1
      r.head.predicate).emit (.getFunctor ⟨f, ts⟩)) argBase ts
    rw [← hhead] at hrest
    obtain ⟨ops, hadds, hops⟩ := hstart.leads
    obtain ⟨ops', hadds', hops'⟩ := hrest.leads
    have hflat : r.head.flatten = [r.head.subject, r.head.predicate, .app f ts] ++ ts := by
      rw [Triple.flatten_eq, happ]
      rfl
    refine ⟨List.Subset.trans hstart.known hrest.known, fun v hv hm => ?_,
      ops ++ ([.getFunctor ⟨f, ts⟩] ++ ops'), hadds.trans ((Draft.adds_emit _ _).trans hadds'),
      fun K hK harg => ?_⟩
    · rw [hflat] at hv
      rcases List.mem_append.1 hv with hv | hv
      · refine hrest.known (hstart.moved v ?_ hm)
        simpa using hv
      · exact hrest.moved v hv hm
    · obtain ⟨K1, h1, hK1⟩ := hops K hK fun j hj => harg _ (by simp at hj; omega)
      have hfine : Fine K1 (.getFunctor ⟨f, ts⟩) := by
        refine ⟨fun x hx => ?_, by simp [Operation.sets]⟩
        obtain rfl : x = .arg 2 := by simpa [Operation.reads] using hx
        exact h1.subset (harg 2 (by omega))
      have hparts : ∀ j < ts.length, .arg (argBase + j) ∈ after K1 (.getFunctor ⟨f, ts⟩) :=
        fun j hj => .inr (List.mem_map.2 ⟨j, List.mem_range.2 hj, rfl⟩)
      obtain ⟨K2, h2, hK2⟩ := hops' _ (hK1.after (by simp [Operation.sets])) hparts
      refine ⟨K2, h1.append (.cons hfine h2), hK2, fun j hj => h2.subset ?_⟩
      by_cases hlt : j < 3
      · exact .inl (h1.subset (harg j hlt))
      · rw [hflat] at hj
        simp only [List.cons_append, List.nil_append, List.length_cons] at hj
        refine .inr (List.mem_map.2 ⟨j - 3, List.mem_range.2 (by simpa using by omega), ?_⟩)
        simp only [argBase]
        congr 1
        omega

/-! ## The registers of a body -/

/-- The temporary variables among the terms can be passed as the arguments from `arg` on. -/
def Rule.Supplies (r : Rule) (K : Set Register) (arg : Nat) (ts : List Term) : Prop :=
  ∀ ⦃v i j⦄, ts[j]? = some (.var v) → r.placement.temp? v = some i →
    (r.placement.inPlace v = false → .temp i ∈ K) ∧
    (r.placement.inPlace v = true → .arg (arg + j) ∈ K)

theorem Rule.Supplies.tail {t : Term} {ts : List Term} (h : r.Supplies K arg (t :: ts))
    (hK : K ⊆ K') : r.Supplies K' (arg + 1) ts := by
  intro v i j hj ht
  obtain ⟨h1, h2⟩ := h (j := j + 1) (by simpa using hj) ht
  refine ⟨fun hp => hK (h1 hp), fun hp => hK ?_⟩
  rw [show arg + 1 + j = arg + (j + 1) by omega]
  exact h2 hp

theorem Rule.Supplies.first {ts us : List Term} (h : r.Supplies K arg (ts ++ us)) :
    r.Supplies K arg ts := by
  intro v i j hj ht
  refine h ?_ ht
  rw [List.getElem?_append_left (List.getElem?_eq_some_iff.1 hj).1]
  exact hj

/-- What leads from one draft of a body to another that passes the terms as arguments. -/
def Draft.Puts (r : Rule) (d d' : Draft) (ts : List Term) (arg : Nat) : Prop :=
  ∃ ops, d.Adds d' ops ∧ ∀ K, r.Slotted d.known K → r.Supplies K arg ts →
    ∃ K', Leads K ops K' ∧ r.Slotted d'.known K' ∧ ∀ j < ts.length, .arg (arg + j) ∈ K'

theorem putLeaf_puts (r : Rule) (values : Bool) (d : Draft) (arg : Nat) (t : Term) :
    d.Puts r (d.putLeaf r.placement values arg t) [t] arg := by
  -- one operation sets the argument
  have one : ∀ op, .arg arg ∈ op.sets → (∀ i, .slot i ∉ op.sets) →
      (∀ K, r.Slotted d.known K → r.Supplies K arg [t] → ∀ x ∈ op.reads, x ∈ K) →
      d.Puts r (d.emit op) [t] arg := by
    intro op harg hslot hreads
    refine ⟨[op], rfl, fun K hK hs => ⟨_, .single ⟨hreads K hK hs, fun i hi => absurd hi (hslot i)⟩,
      hK.after hslot, fun j hj => .inr ?_⟩⟩
    obtain rfl : j = 0 := by simpa using hj
    exact harg
  cases t with
  | var v =>
    rcases putLeaf_var r values d arg v with ⟨-, -, hput⟩ | ⟨i, ht, -, hput⟩ | ⟨i, hs, hput⟩
    · rw [hput]
      exact one _ (by simp [Operation.sets]) (by simp [Operation.sets]) (by simp [Operation.reads])
    · rw [hput]
      cases hp : r.placement.inPlace v with
      | true =>
        refine ⟨[], by simp [Draft.Adds], fun K hK hsup => ⟨K, .nil, hK, fun j hj => ?_⟩⟩
        obtain rfl : j = 0 := by simpa using hj
        exact (hsup (j := 0) rfl ht).2 hp
      | false =>
        refine one _ (by simp [Operation.sets]) (by simp [Operation.sets]) fun K _ hsup => ?_
        simpa [Operation.reads] using (hsup (j := 0) rfl ht).1 hp
    · rw [hput]
      by_cases hk : v ∈ d.known
      · rw [emitFirst_of_mem hk]
        refine one _ ?_ ?_ fun K hK _ => ?_
        · split <;> simp [Operation.sets]
        · split <;> simp [Operation.sets]
        · split <;> simp [Operation.reads, (hK hs).2 hk]
      · rw [emitFirst_of_not_mem hk]
        refine ⟨[.putNewVariable i arg], rfl, fun K hK _ => ⟨_, .single ⟨by simp [Operation.reads],
          fun j hj => ?_⟩, hK.learn hs (by simp [Operation.sets]), fun j hj => .inr ?_⟩⟩
        · obtain rfl : j = i := by simpa [Operation.sets] using hj
          exact fun h => hk ((hK hs).1 h)
        · obtain rfl : j = 0 := by simpa using hj
          simp [Operation.sets]
  | node c | ref x | app f ts | any =>
    exact one _ (by simp [Operation.sets]) (by simp [Operation.sets]) (by simp [Operation.reads])

theorem Draft.Puts.cons {d d' d'' : Draft} {t : Term} {ts : List Term} (h : d.Puts r d' [t] arg)
    (h' : d'.Puts r d'' ts (arg + 1)) : d.Puts r d'' (t :: ts) arg := by
  obtain ⟨ops, hadds, hops⟩ := h
  obtain ⟨ops', hadds', hops'⟩ := h'
  refine ⟨ops ++ ops', hadds.trans hadds', fun K hK hsup => ?_⟩
  obtain ⟨K1, h1, hK1, harg1⟩ := hops K hK hsup.first
  obtain ⟨K2, h2, hK2, harg2⟩ := hops' K1 hK1 (hsup.tail h1.subset)
  refine ⟨K2, h1.append h2, hK2, fun j hj => ?_⟩
  cases j with
  | zero => exact h2.subset (harg1 0 Nat.zero_lt_one)
  | succ j =>
    rw [show arg + (j + 1) = arg + 1 + j by omega]
    exact harg2 j (by simpa using hj)

theorem putLeaves_puts (r : Rule) (values : Bool) (d : Draft) (arg : Nat) (ts : List Term) :
    d.Puts r (d.putLeaves r.placement values arg ts) ts arg := by
  induction ts generalizing d arg with
  | nil => exact ⟨[], by simp [Draft.Adds, Draft.putLeaves], fun K hK _ => ⟨K, .nil, hK, by simp⟩⟩
  | cons t ts ih => exact (putLeaf_puts r values d arg t).cons (ih _ (arg + 1))

/-- The object is passed, in the case of a compound one after its parts. -/
theorem putObject_puts (r : Rule) (d : Draft) (o : Term) :
    ∃ ops, d.Adds (d.putObject r.placement o) ops ∧ ∀ K, r.Slotted d.known K →
      r.Supplies K 2 (o :: o.parts) → ∃ K', Leads K ops K' ∧
        r.Slotted (d.putObject r.placement o).known K' ∧ .arg 2 ∈ K' := by
  cases ho : o.isApp with
  | false =>
    have hput : d.putObject r.placement o = d.putLeaf r.placement false 2 o := by
      cases o <;> first | rfl | cases ho
    rw [hput]
    obtain ⟨ops, hadds, hops⟩ := putLeaf_puts r false d 2 o
    refine ⟨ops, hadds, fun K hK hsup => ?_⟩
    obtain ⟨K', h1, h2, h3⟩ := hops K hK hsup.first
    exact ⟨K', h1, h2, h3 0 Nat.zero_lt_one⟩
  | true =>
    obtain ⟨f, ts, rfl⟩ : ∃ f ts, o = .app f ts := by
      cases o <;> simp [Term.isApp] at ho
      exact ⟨_, _, rfl⟩
    obtain ⟨ops, hadds, hops⟩ := putLeaves_puts r false d argBase ts
    refine ⟨ops ++ [.makeFunctor ⟨f, ts⟩], hadds.trans (Draft.adds_emit _ _), fun K hK hsup => ?_⟩
    obtain ⟨K1, h1, hK1, harg⟩ := hops K hK (hsup.tail subset_rfl)
    refine ⟨_, h1.append (.single ⟨fun x hx => ?_, by simp [Operation.sets]⟩),
      hK1.after (by simp [Operation.sets]), .inr (by simp [Operation.sets])⟩
    obtain ⟨j, hj, rfl⟩ := List.mem_map.1 hx
    exact harg j (by simpa using hj)

/-- An entry of a body passes its arguments and is called. -/
theorem addEntry_suffices (r : Rule) (layout : Layout) (registry : Registry) (d : Draft)
    (e : Entry) : ∃ code, (d.addEntry r.placement layout registry e).code = d.code ++ code ∧
      ∀ K, r.Slotted d.known K → r.Supplies K 0 e.flatten → ∃ K',
        r.Slotted (d.addEntry r.placement layout registry e).known K' ∧
        ∀ rest, Suffice K' rest → Suffice K (code ++ rest) := by
  cases e with
  | triple goal =>
    obtain ⟨ops, hadds, hops⟩ := (putLeaf_puts r false d 0 goal.subject).cons
      (putLeaves_puts r false (d.putLeaf r.placement false 0 goal.subject) 1 [goal.predicate])
    obtain ⟨ops', hadds', hops'⟩ := putObject_puts r
      ((d.putLeaf r.placement false 0 goal.subject).putLeaf r.placement false 1 goal.predicate)
      goal.object
    have hcode := hadds.trans hadds'
    refine ⟨(ops ++ ops').map .operation ++
      [.call (layout.callFor (!r.placement.permanent.isEmpty) goal)], ?_, fun K hK hsup => ?_⟩
    · rw [Draft.addEntry, callGoal_eq, ← List.append_assoc]
      exact congrArg (· ++ _) hcode
    · rw [Entry.flatten, Triple.flatten_eq] at hsup
      obtain ⟨K1, h1, hK1, harg1⟩ := hops K hK (Rule.Supplies.first hsup)
      have hsup' : r.Supplies K1 2 (goal.object :: goal.object.parts) :=
        (hsup.tail h1.subset).tail subset_rfl
      obtain ⟨K2, h2, hK2, harg2⟩ := hops' K1 hK1 hsup'
      refine ⟨slots K2, ?_, fun rest hrest => ?_⟩
      · rw [Draft.addEntry, callGoal_eq]
        exact hK2.slots
      · rw [List.append_assoc]
        refine (h1.append h2).suffice ⟨fun i hi => ?_, hrest⟩
        obtain rfl | rfl | rfl : i = 0 ∨ i = 1 ∨ i = 2 := by omega
        · exact h2.subset (harg1 0 (by simp))
        · exact h2.subset (harg1 1 (by simp))
        · exact harg2
  | builtin c =>
    cases hf : registry.get? c.name with
    | none =>
      exact ⟨[], by simp [Draft.addEntry, hf], fun K hK _ => ⟨K, by simpa [Draft.addEntry, hf] using hK,
        fun rest hrest => hrest⟩⟩
    | some f =>
      obtain ⟨ops, hadds, hops⟩ := putLeaves_puts r true d 0 c.args
      refine ⟨ops.map .operation ++ [.builtin f c.args.length], ?_, fun K hK hsup => ?_⟩
      · simp only [Draft.addEntry, hf, Draft.callBuiltin]
        rw [← List.append_assoc]
        exact congrArg (· ++ _) hadds
      · obtain ⟨K1, h1, hK1, harg⟩ := hops K hK hsup
        refine ⟨K1, by simpa [Draft.addEntry, hf, Draft.callBuiltin] using hK1,
          fun rest hrest => ?_⟩
        rw [List.append_assoc]
        exact h1.suffice ⟨fun i hi => by simpa using harg i hi, hrest⟩

/-- Temporary variables are passed by the first entry of a body only. -/
theorem supplies_of_mem_tail {e : Entry} (he : e ∈ r.body.tail) : r.Supplies K arg e.flatten :=
  fun _ _ _ hj ht => absurd (List.mem_of_getElem? hj) (not_mem_tail_of_temp ht he)

theorem body_suffices (r : Rule) (layout : Layout) (registry : Registry) (d : Draft)
    {es : List Entry} (hes : es <:+ r.body) :
    ∃ code, (es.foldl (Draft.addEntry r.placement layout registry) d).code = d.code ++ code ∧
      ∀ K, r.Slotted d.known K → (∀ e ∈ es.head?, r.Supplies K 0 e.flatten) →
        Suffice K (code ++ [.proceed]) := by
  induction es generalizing d with
  | nil => exact ⟨[], by simp, fun _ _ _ => trivial⟩
  | cons e es ih =>
    obtain ⟨code, hcode, hfirst⟩ := addEntry_suffices r layout registry d e
    have htail := suffix_tail_of_cons hes
    obtain ⟨code', hcode', hrest⟩ := ih (d.addEntry r.placement layout registry e)
      (htail.trans (List.tail_suffix _))
    refine ⟨code ++ code', by rw [List.foldl_cons, hcode', hcode, List.append_assoc],
      fun K hK hsup => ?_⟩
    obtain ⟨K', hK', hlater⟩ := hfirst K hK (hsup e (by simp))
    rw [List.append_assoc]
    refine hlater _ (hrest K' hK' fun e' he' => supplies_of_mem_tail (htail.subset ?_))
    exact List.mem_of_mem_head? he'

/-! ## The code of a rule -/

/-- After the head the temporary variables are where the first entry of the body passes them
from. -/
theorem Rule.Holds.supplies (h : r.Holds known K) {e : Entry} (he : e ∈ r.body)
    (hknown : ∀ v, .var v ∈ r.head.flatten → r.placement.moves v = true → v ∈ known)
    (hargs : ∀ j < r.head.flatten.length, .arg j ∈ K) : r.Supplies K 0 e.flatten := by
  intro v i j hj ht
  have hhead := mem_head_of_temp ht
  refine ⟨fun hp => h.stored ht (hknown v hhead ?_), fun hp => ?_⟩
  · have hnot : r.placement.inPlaceInHead v = false := by
      by_contra hne
      rw [inPlace_of_inPlaceInHead (by simpa using hne)] at hp
      cases hp
    simp [Placement.moves, ht, hnot]
  · obtain ⟨k, hk⟩ := List.getElem?_of_mem he
    obtain ⟨j', hj'⟩ := List.getElem?_of_mem hhead
    have hbody : ⟨v, k + 1, j⟩ ∈ r.occurrences :=
      Rule.mem_occurrences.2 ⟨e.flatten, by simp [Rule.entries, hk], hj⟩
    have hocc : ⟨v, 0, j'⟩ ∈ r.occurrences := Rule.mem_occurrences.2 ⟨_, rfl, hj'⟩
    obtain rfl := inPlace_index hp hbody hocc
    rw [Nat.zero_add]
    exact hargs j (List.getElem?_eq_some_iff.1 hj').1

/-- The registers that a call sets. -/
def Register.called : Set Register := {x | ∃ j < 3, x = .arg j}

theorem leads_tests (hops : ∀ op ∈ ops, ∃ arg < 3, op = .testBound arg ∨ op = .testUnbound arg) :
    Leads called ops called := by
  induction ops with
  | nil => exact .nil
  | cons op ops ih =>
    obtain ⟨arg, harg, hop⟩ := hops op List.mem_cons_self
    have hsame : after called op = called := by
      rcases hop with rfl | rfl <;> simp [after, Operation.sets]
    refine .cons ⟨fun x hx => ?_, fun i hi => ?_⟩ ?_
    · obtain rfl : x = .arg arg := by
        rcases hop with rfl | rfl <;> simpa [Operation.reads] using hx
      exact ⟨arg, harg, rfl⟩
    · rcases hop with rfl | rfl <;> simp [Operation.sets] at hi
    · rw [hsame]
      exact ih fun op h => hops op (List.mem_cons_of_mem _ h)

/-- The code of a rule needs nothing but the three arguments of a call, and sets every slot
before it reads it, and once. -/
theorem Rule.suffice_code (r : Rule) (layout : Layout) (registry : Registry) :
    Suffice called (r.code layout registry) := by
  obtain ⟨-, hmoved, ops, hadds, hops⟩ := getHead_gets r (Draft.mk (r.tests.map .operation) [])
  obtain ⟨code, hcode, hbody⟩ := body_suffices r layout registry r.headDraft (steps_suffix r)
  have hstart : r.Holds [] called := by
    refine ⟨fun v i hs => ⟨?_, by simp⟩, fun v i ht h => by simp at h⟩
    rintro ⟨j, -, hj⟩
    cases hj
  obtain ⟨K, h1, hK, hargs⟩ := hops called hstart fun j hj => ⟨j, hj, rfl⟩
  have hall : r.code layout registry = (r.tests ++ ops).map .operation ++ (code ++ [.proceed]) := by
    have hhead : r.headDraft.code = r.tests.map .operation ++ ops.map .operation := hadds
    rw [List.map_append, ← hhead, ← List.append_assoc, ← hcode]
    rfl
  rw [hall]
  refine ((leads_tests fun op => test_of_mem).append h1).suffice (hbody K hK.slotted fun e he => ?_)
  exact hK.supplies ((steps_suffix r).subset (List.mem_of_mem_head? he)) hmoved hargs

end

end TabledRules
