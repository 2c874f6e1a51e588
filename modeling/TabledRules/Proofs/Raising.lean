-- Sessions that are the same but for their ids. All ids of the one are greater
-- than those of the other by a constant. Whatever is done to both of them,
-- they stay so.
import Mathlib.Data.List.Sort
import Mathlib.Data.Option.Basic
import TabledRules.Proofs.Soundness

namespace TabledRules

/-! ## Lists and maps of raised ids -/

section

variable {α β : Type} {k c : Nat}

theorem filter_raised (l : List Nat) (k c : Nat) :
    (l.map (· + k)).filter (· ≠ c + k) = (l.filter (· ≠ c)).map (· + k) := by
  rw [List.filter_map]
  congr 2
  funext i
  simp

theorem contains_raised (l : List Nat) (k c : Nat) :
    (l.map (· + k)).contains (c + k) = l.contains c := by
  rw [Bool.eq_iff_iff]
  simp

theorem insert_raised (l : List Nat) (k c : Nat) :
    (l.map (· + k)).insert (c + k) = (l.insert c).map (· + k) := by
  by_cases h : c ∈ l
  · rw [List.insert_of_mem h, List.insert_of_mem]
    exact List.mem_map.2 ⟨c, h, rfl⟩
  · rw [List.insert_of_not_mem h, List.insert_of_not_mem (by simpa using h)]
    rfl

theorem erase_raised (l : List Nat) (k c : Nat) :
    (l.map (· + k)).erase (c + k) = (l.erase c).map (· + k) :=
  (List.map_erase (fun _ _ h => Nat.add_right_cancel h) l).symm

theorem lookup_raised (l : List (Triple × Nat)) (k : Nat) (key : Triple) :
    (l.map fun p => (p.1, p.2 + k)).lookup key = (l.lookup key).map (· + k) := by
  induction l with
  | nil => rfl
  | cons p l ih =>
    rw [List.map_cons, List.lookup_cons, List.lookup_cons]
    cases key == p.1 with
    | true => rfl
    | false => exact ih

/-- Increasing lists with the same ids but for the constant. -/
theorem eq_map_of_sorted {l l' : List Nat} (h : l.Pairwise (· < ·)) (h' : l'.Pairwise (· < ·))
    (hmem : ∀ j, j ∈ l' ↔ ∃ i ∈ l, i + k = j) : l' = l.map (· + k) := by
  have hmap : (l.map (· + k)).Pairwise (· < ·) :=
    h.map _ fun _ _ hlt => Nat.add_lt_add_right hlt k
  refine List.Pairwise.eq_of_mem_iff h' hmap fun j => ?_
  rw [hmem, List.mem_map]

theorem sorted_keys (m : Std.TreeMap Nat α) : m.keys.Pairwise (· < ·) :=
  Std.TreeMap.ordered_keys.imp fun h => Nat.compare_eq_lt.1 h

theorem toList_raised {f : α → β} {m : Std.TreeMap Nat α} {m' : Std.TreeMap Nat β}
    (h : ∀ i : Nat, m'[i + k]? = (m[i]?).map f) (low : ∀ i : Nat, i ≤ k → m'[i]? = none) :
    m'.toList = m.toList.map fun p => (p.1 + k, f p.2) := by
  have hanti : Std.Antisymm fun p q : Nat × β => p.1 < q.1 :=
    ⟨fun _ _ h h' => absurd h (Nat.lt_asymm h')⟩
  have hirr : Std.Irrefl fun p q : Nat × β => p.1 < q.1 := ⟨fun _ => Nat.lt_irrefl _⟩
  have hsorted : ∀ {γ : Type} (m : Std.TreeMap Nat γ),
      m.toList.Pairwise fun p q => p.1 < q.1 :=
    fun m => Std.TreeMap.ordered_keys_toList.imp fun h => Nat.compare_eq_lt.1 h
  refine List.Pairwise.eq_of_mem_iff (r := fun p q : Nat × β => p.1 < q.1) (hsorted m')
    ((hsorted m).map _ fun _ _ hlt => Nat.add_lt_add_right hlt k) fun ⟨j, b⟩ => ?_
  rw [Std.TreeMap.mem_toList_iff_getElem?_eq_some, List.mem_map]
  constructor
  · intro hj
    obtain ⟨i, rfl⟩ : ∃ i, j = i + k := by
      refine ⟨j - k, (Nat.sub_add_cancel ?_).symm⟩
      refine Nat.le_of_not_le fun hle => ?_
      rw [low j hle] at hj
      cases hj
    rw [h] at hj
    obtain ⟨a, ha, rfl⟩ := Option.map_eq_some_iff.1 hj
    exact ⟨(i, a), Std.TreeMap.mem_toList_iff_getElem?_eq_some.2 ha, rfl⟩
  · rintro ⟨⟨i, a⟩, hmem, e⟩
    cases e
    rw [h, Std.TreeMap.mem_toList_iff_getElem?_eq_some.1 hmem]
    rfl

theorem size_raised {m : Std.TreeMap Nat α} {m' : Std.TreeMap Nat β}
    (h : ∀ i : Nat, (m'[i + k]?).isSome = (m[i]?).isSome)
    (low : ∀ i : Nat, i ≤ k → m'[i]? = none) : m'.size = m.size := by
  have hkeys : m'.keys = m.keys.map (· + k) := by
    refine eq_map_of_sorted (sorted_keys m) (sorted_keys m') fun j => ?_
    simp only [Std.TreeMap.mem_keys, Std.TreeMap.mem_iff_isSome_getElem?]
    constructor
    · intro hj
      have hlt : k < j := by
        refine Nat.lt_of_not_le fun hle => ?_
        rw [low j hle] at hj
        cases hj
      refine ⟨j - k, ?_, Nat.sub_add_cancel hlt.le⟩
      rw [← h, Nat.sub_add_cancel hlt.le]
      exact hj
    · rintro ⟨i, hi, rfl⟩
      rw [h]
      exact hi
  rw [← Std.TreeMap.length_keys, ← Std.TreeMap.length_keys, hkeys, List.length_map]

end

/-! ## Raised machines -/

def Owner.raise (k : Nat) : Owner → Owner
  | .generator g => .generator (g + k)
  | .query q => .query (q + k)

def Alternatives.raise (k : Nat) : Alternatives → Alternatives
  | .results c goal => .results (c + k) goal
  | .clauses rest args ground => .clauses rest args ground
  | .facts goal rest => .facts goal rest
  | .answers goal rest => .answers goal rest

def Choice.raise (k : Nat) (c : Choice) : Choice :=
  { c with alternatives := c.alternatives.raise k }

def Consumer.raise (k : Nat) (c : Consumer) : Consumer :=
  { c with generator := c.generator + k, owner := c.owner.raise k }

def Task.raise (k : Nat) : Task → Task
  | .start g => .start (g + k)
  | .resume c => .resume (c + k)

/-- The machine with raised ids. `suspended` are its choice points that wait. -/
def Machine.raise (k : Nat) (suspended : Std.TreeMap Nat Choice) (m : Machine) : Machine :=
  { m with owner := m.owner.raise k, stack := m.stack.map (Choice.raise k), suspended }

/-- The ids of the second machine are raised. No query has the id zero. -/
structure Machine.Raised (k : Nat) (m m' : Machine) : Prop where
  owner : m.owner ≠ .query 0
  eq : m' = m.raise k m'.suspended
  suspended : ∀ d : Nat, m'.suspended[d + k]? = (m.suspended[d]?).map (Choice.raise k)

/-- The ids of the second generator are raised. -/
structure Generator.Raised (k : Nat) (g g' : Generator) : Prop where
  eq : g' = { g with
    machine := g'.machine
    consumers := g.consumers.map (· + k)
    generating := g.generating.map (· + k) }
  machine : Option.Rel (Machine.Raised k) g.machine g'.machine

/-- All ids of the second session are raised. -/
structure Session.Raised (k : Nat) (s s' : Session) : Prop where
  nextId : s'.nextId = s.nextId + k
  pos : 0 < s.nextId
  version : s'.version = s.version
  poisoned : s'.poisoned = s.poisoned
  profile : s'.profile = s.profile
  goals : s'.goals.toList = s.goals.toList.map fun p => (p.1, p.2 + k)
  agenda : s'.agenda.toList = s.agenda.toList.map (Task.raise k)
  generator : ∀ g : Nat,
    Option.Rel (Generator.Raised k) s.generators[g]? s'.generators[g + k]?
  consumer : ∀ c : Nat, s'.consumers[c + k]? = (s.consumers[c]?).map (Consumer.raise k)
  query : ∀ q : Nat, s'.queries[q + k]? = (s.queries[q]?).map (List.map (· + k))
  noGenerator : ∀ i : Nat, i ≤ k → s'.generators[i]? = none
  noConsumer : ∀ i : Nat, i ≤ k → s'.consumers[i]? = none
  noQuery : ∀ i : Nat, i ≤ k → s'.queries[i]? = none
  owner : ∀ {c : Nat} {x : Consumer}, s.consumers[c]? = some x → x.owner ≠ .query 0

/-- Two outcomes fail alike or are related. -/
inductive Agree {α β : Type} (R : α → β → Prop) : Except Failure α → Except Failure β → Prop
  | ok {a : α} {b : β} : R a b → Agree R (.ok a) (.ok b)
  | error (e : Failure) : Agree R (.error e) (.error e)

theorem Agree.elim {α β : Type} {R : α → β → Prop} {x : Except Failure α} {y : Except Failure β}
    (h : Agree R x y) : (∃ e, x = .error e ∧ y = .error e) ∨
      ∃ a b, x = .ok a ∧ y = .ok b ∧ R a b := by
  cases h with
  | ok h => exact .inr ⟨_, _, rfl, rfl, h⟩
  | error e => exact .inl ⟨e, rfl, rfl⟩

/-- Two lookups find nothing or what is related. -/
theorem rel_elim {α β : Type} {R : α → β → Prop} {x : Option α} {y : Option β}
    (h : Option.Rel R x y) : x = none ∧ y = none ∨ ∃ a b, x = some a ∧ y = some b ∧ R a b := by
  cases h with
  | none => exact .inl ⟨rfl, rfl⟩
  | some h => exact .inr ⟨_, _, rfl, rfl, h⟩

theorem Owner.raise_inj {k : Nat} {o o' : Owner} : o.raise k = o'.raise k ↔ o = o' := by
  cases o <;> cases o' <;> simp [Owner.raise]

/-! ### New machines -/

section

variable {k : Nat} {w : World} {m m' : Machine} {o : Owner} {goal : Triple}

theorem Machine.Raised.push (h : m.Raised k m') (env : Env) (code : List Instruction)
    (a : Alternatives) :
    Agree (Machine.Raised k) (m.push w env code a) (m'.push w env code (a.raise k)) := by
  obtain ⟨ho, e, hs⟩ := h
  generalize m'.suspended = t at e hs
  subst e
  unfold Machine.push
  by_cases hfull : w.settings.stackLimit ≤ m.choices
  · rw [if_pos hfull, if_pos (show w.settings.stackLimit ≤ (m.raise k t).choices from hfull)]
    exact .error _
  · rw [if_neg hfull, if_neg (show ¬ w.settings.stackLimit ≤ (m.raise k t).choices from hfull)]
    exact .ok ⟨ho, rfl, hs⟩

theorem blank_raised (k : Nat) (w : World) (goal : Triple) (ho : o ≠ .query 0) :
    Agree (Machine.Raised k) (Machine.blank w goal o) (Machine.blank w goal (o.raise k)) := by
  unfold Machine.blank Machine.enterEnv
  simp only
  split
  · exact .error _
  · refine .ok ⟨ho, rfl, fun d => ?_⟩
    simp

theorem Agree.bind {α β α' β' : Type} {R : α → β → Prop} {R' : α' → β' → Prop}
    {x : Except Failure α} {y : Except Failure β} {f : α → Except Failure α'}
    {g : β → Except Failure β'} (h : Agree R x y) (hfg : ∀ {a b}, R a b → Agree R' (f a) (g b)) :
    Agree R' (x >>= f) (y >>= g) := by
  cases h with
  | ok hab => exact hfg hab
  | error e => exact .error e

theorem Machine.Raised.fields (h : m.Raised k m') : m'.goal = m.goal ∧ m'.standard = m.standard ∧
    m'.bindings = m.bindings ∧ m'.args = m.args ∧ m'.temps = m.temps ∧ m'.choices = m.choices ∧
    m'.envs = m.envs ∧ m'.pinned = m.pinned ∧ m'.committed = m.committed := by
  rw [h.eq]
  exact ⟨rfl, rfl, rfl, rfl, rfl, rfl, rfl, rfl, rfl⟩

theorem start_raised (k : Nat) (w : World) (goal : Triple) (ho : o ≠ .query 0) :
    Agree (Machine.Raised k) (Machine.start w goal o) (Machine.start w goal (o.raise k)) := by
  refine (blank_raised k w goal ho).bind fun {m m'} h => ?_
  obtain ⟨-, hstandard, -, hargs, -⟩ := h.fields
  rw [hstandard, hargs]
  have answers : ∀ {m m' : Machine}, m.Raised k m' → Agree (Machine.Raised k)
      (w.store.find m.standard.lookupKey >>= fun facts =>
        m.push w .root [.proceed] (.answers m.standard facts))
      (w.store.find m'.standard.lookupKey >>= fun facts =>
        m'.push w .root [.proceed] (.answers m'.standard facts)) := by
    intro m m' h
    rw [h.fields.2.1]
    cases w.store.find m.standard.lookupKey with
    | error e => exact .error e
    | ok facts => exact h.push .root [.proceed] (.answers m.standard facts)
  dsimp only
  split
  · exact Agree.bind (.ok h) answers
  · exact (h.push .root [.proceed]
      (.clauses (w.rules.codeFor m.standard) m.args goal.isGround)).bind answers

end

/-! ## Operations on sessions -/

namespace Session.Raised

variable {k : Nat} {s s' : Session} {w : World} {g c q : Nat}

theorem note (h : s.Raised k s') (e e' : Event) : (s.note e).Raised k (s'.note e') := { h with }

theorem countEntry (h : s.Raised k s') (clause : Nat) :
    (s.countEntry clause).Raised k (s'.countEntry clause) :=
  { h with
    profile := by
      change s'.profile.insert _ _ = s.profile.insert _ _
      rw [h.profile] }

theorem modifyGenerator (h : s.Raised k s') (g : Nat) {f f' : Generator → Generator}
    (hf : ∀ {gen gen' : Generator}, gen.Raised k gen' → (f gen).Raised k (f' gen')) :
    (s.modifyGenerator g f).Raised k (s'.modifyGenerator (g + k) f') :=
  { h with
    generator := fun i => by
      rw [generators_modifyGenerator, generators_modifyGenerator]
      by_cases e : g = i
      · rw [if_pos e, if_pos (congrArg (· + k) e)]
        rcases rel_elim (h.generator g) with ⟨e1, e2⟩ | ⟨gen, gen', e1, e2, hgen⟩
        · rw [e1, e2]
          exact .none
        · rw [e1, e2]
          exact .some (hf hgen)
      · rw [if_neg e, if_neg fun e' => e (Nat.add_right_cancel e')]
        exact h.generator i
    noGenerator := fun i hi => by
      rw [generators_modifyGenerator]
      split
      · next e =>
        rw [e, h.noGenerator i hi]
        rfl
      · exact h.noGenerator i hi }

theorem modifyConsumer (h : s.Raised k s') (c : Nat) {f f' : Consumer → Consumer}
    (hf : ∀ x, f' (x.raise k) = (f x).raise k) (ho : ∀ x, (f x).owner = x.owner) :
    (s.modifyConsumer c f).Raised k (s'.modifyConsumer (c + k) f') :=
  { h with
    consumer := fun i => by
      rw [consumers_modifyConsumer, consumers_modifyConsumer]
      by_cases e : c = i
      · rw [if_pos e, if_pos (congrArg (· + k) e), h.consumer, Option.map_map, Option.map_map]
        congr 1
        funext x
        exact hf x
      · rw [if_neg e, if_neg fun e' => e (Nat.add_right_cancel e')]
        exact h.consumer i
    noConsumer := fun i hi => by
      rw [consumers_modifyConsumer]
      split
      · next e =>
        rw [e, h.noConsumer i hi]
        rfl
      · exact h.noConsumer i hi
    owner := fun {i x} hx => by
      rw [consumers_modifyConsumer] at hx
      split at hx
      · obtain ⟨y, hy, rfl⟩ := Option.map_eq_some_iff.1 hx
        rw [ho]
        exact h.owner hy
      · exact h.owner hx }

theorem modifyQuery (h : s.Raised k s') (q : Nat) {f f' : List Nat → List Nat}
    (hf : ∀ ids : List Nat, f' (ids.map (· + k)) = (f ids).map (· + k)) :
    Session.Raised k { s with queries := s.queries.modify q f }
      { s' with queries := s'.queries.modify (q + k) f' } :=
  { h with
    query := fun i => by
      change (s'.queries.modify (q + k) f')[i + k]? = ((s.queries.modify q f)[i]?).map _
      simp only [Std.TreeMap.getElem?_modify, Std.LawfulEqCmp.compare_eq_iff_eq]
      by_cases e : q = i
      · rw [if_pos e, if_pos (congrArg (· + k) e), h.query, Option.map_map, Option.map_map]
        congr 1
        funext ids
        exact hf ids
      · rw [if_neg e, if_neg fun e' => e (Nat.add_right_cancel e')]
        exact h.query i
    noQuery := fun i hi => by
      change (s'.queries.modify (q + k) f')[i]? = none
      simp only [Std.TreeMap.getElem?_modify, Std.LawfulEqCmp.compare_eq_iff_eq]
      split
      · next e =>
        rw [e, h.noQuery i hi]
        rfl
      · exact h.noQuery i hi }

theorem setAgenda (h : s.Raised k s') {a a' : Queue Task}
    (ha : a'.toList = a.toList.map (Task.raise k)) :
    Session.Raised k { s with agenda := a } { s' with agenda := a' } :=
  { h with agenda := ha }

theorem schedule (h : s.Raised k s') (task : Task) :
    (s.schedule task).Raised k (s'.schedule (task.raise k)) :=
  h.setAgenda (by rw [Queue.toList_push, Queue.toList_push, h.agenda, List.map_append]; rfl)

/-- The next tasks are the same. -/
theorem pop? (h : s.Raised k s') :
    Option.Rel (fun x x' => x'.1 = x.1.raise k ∧ x'.2.toList = x.2.toList.map (Task.raise k))
      s.agenda.pop? s'.agenda.pop? := by
  have hlist := h.agenda
  rcases hp : s.agenda.pop? with - | ⟨task, a⟩ <;> rcases hp' : s'.agenda.pop? with - | ⟨task', a'⟩
  · exact .none
  · rw [(Queue.pop?_eq_none _).1 hp, Queue.toList_of_pop? hp'] at hlist
    cases hlist
  · rw [(Queue.pop?_eq_none _).1 hp', Queue.toList_of_pop? hp] at hlist
    cases hlist
  · rw [Queue.toList_of_pop? hp', Queue.toList_of_pop? hp, List.map_cons] at hlist
    obtain ⟨h1, h2⟩ := List.cons.inj hlist
    exact .some ⟨h1, h2⟩

/-! ### Tables -/

theorem generatorOf? (h : s.Raised k s') (goal : Triple) :
    Option.Rel (fun x x' => x'.1 = x.1 + k ∧ x.2.Raised k x'.2)
      (s.generatorOf? goal) (s'.generatorOf? goal) := by
  have hlookup : (s'.goals.bucket goal.variantKey.digest).lookup goal.variantKey =
      ((s.goals.bucket goal.variantKey.digest).lookup goal.variantKey).map (· + k) := by
    rw [Index.bucket_eq, Index.bucket_eq, h.goals, List.filter_map, lookup_raised]
    rfl
  unfold Session.generatorOf?
  simp only [hlookup]
  cases (s.goals.bucket goal.variantKey.digest).lookup goal.variantKey with
  | none => exact .none
  | some g =>
    simp only [Option.map_some]
    rcases rel_elim (h.generator g) with ⟨e1, e2⟩ | ⟨gen, gen', e1, e2, hgen⟩
    · rw [e1, e2]
      exact .none
    · rw [e1, e2]
      exact .some ⟨rfl, hgen⟩

end Session.Raised

theorem Generator.Raised.fields {k : Nat} {g g' : Generator} (h : g.Raised k g') :
    g'.goal = g.goal ∧ g'.results = g.results ∧ g'.ready = g.ready ∧ g'.complete = g.complete ∧
      g'.consumers = g.consumers.map (· + k) ∧ g'.generating = g.generating.map (· + k) := by
  rw [h.eq]
  exact ⟨rfl, rfl, rfl, rfl, rfl, rfl⟩

namespace Session.Raised

variable {k : Nat} {s s' : Session} {w : World} {g c q : Nat}

theorem tableInfo (h : s.Raised k s') (goal : Triple) : s'.tableInfo goal = s.tableInfo goal := by
  unfold Session.tableInfo
  rcases rel_elim (h.generatorOf? goal) with ⟨e1, e2⟩ | ⟨x, x', e1, e2, -, hgen⟩
  · rw [e1, e2]
  · obtain ⟨-, hresults, -, hcomplete, -⟩ := hgen.fields
    simp only [e1, e2, Option.map_some, hresults, hcomplete]

theorem tableResults (h : s.Raised k s') (goal : Triple) :
    s'.tableResults goal = s.tableResults goal := by
  unfold Session.tableResults
  rcases rel_elim (h.generatorOf? goal) with ⟨e1, e2⟩ | ⟨x, x', e1, e2, -, hgen⟩
  · rw [e1, e2]
  · simp only [e1, e2, Option.map_some, hgen.fields.2.1]

theorem skipId (h : s.Raised k s') :
    Session.Raised k { s with nextId := s.nextId + 1 } { s' with nextId := s'.nextId + 1 } :=
  { h with
    nextId := by
      change s'.nextId + 1 = s.nextId + 1 + k
      rw [h.nextId, Nat.add_right_comm]
    pos := Nat.succ_pos _ }

theorem addGenerator (h : s.Raised k s') (hg : 0 < g) {gen gen' : Generator}
    (hgen : gen.Raised k gen') (key : Triple) :
    Session.Raised k
      { s with generators := s.generators.insert g gen, goals := s.goals.push (key, g) }
      { s' with
        generators := s'.generators.insert (g + k) gen', goals := s'.goals.push (key, g + k) } :=
  { h with
    goals := by rw [Index.toList_push, Index.toList_push, h.goals, List.map_append]; rfl
    generator := fun i => by
      change Option.Rel _ (s.generators.insert g gen)[i]?
        (s'.generators.insert (g + k) gen')[i + k]?
      simp only [Std.TreeMap.getElem?_insert, Std.LawfulEqCmp.compare_eq_iff_eq]
      by_cases e : g = i
      · rw [if_pos e, if_pos (congrArg (· + k) e)]
        exact .some hgen
      · rw [if_neg e, if_neg fun e' => e (Nat.add_right_cancel e')]
        exact h.generator i
    noGenerator := fun i hi => by
      change (s'.generators.insert (g + k) gen')[i]? = none
      simp only [Std.TreeMap.getElem?_insert, Std.LawfulEqCmp.compare_eq_iff_eq]
      rw [if_neg (by omega)]
      exact h.noGenerator i hi }

theorem generatorFor (h : s.Raised k s') (w : World) (goal : Triple) :
    Agree (fun g g' => g' = g + k) (s.generatorFor w goal).1 (s'.generatorFor w goal).1 ∧
      (s.generatorFor w goal).2.Raised k (s'.generatorFor w goal).2 := by
  unfold Session.generatorFor
  rcases rel_elim (h.generatorOf? goal) with ⟨e1, e2⟩ | ⟨x, x', e1, e2, hid, -⟩
  · rw [e1, e2]
    simp only
    rw [h.nextId]
    have hskip : Session.Raised k { s with nextId := s.nextId + 1 }
        { s' with nextId := s.nextId + k + 1 } := h.nextId ▸ h.skipId
    rcases (start_raised k w goal.variantKey (o := .generator s.nextId) (by simp)).elim with
      ⟨e, e3, e4⟩ | ⟨m, m', e3, e4, hm⟩
    · rw [e3, show Machine.start w goal.variantKey (.generator (s.nextId + k)) = .error e from e4]
      exact ⟨.error e, hskip⟩
    · rw [e3, show Machine.start w goal.variantKey (.generator (s.nextId + k)) = .ok m' from e4]
      refine ⟨.ok rfl, Raised.schedule ?_ (.start s.nextId)⟩
      exact (hskip.note _ _).addGenerator h.pos ⟨rfl, .some hm⟩ goal.variantKey
  · rw [e1, e2]
    exact ⟨.ok hid, h⟩

/-! ### Consumers -/

theorem addConsumer (h : s.Raised k s') (g : Nat) {o : Owner} (ho : o ≠ .query 0) :
    (s'.addConsumer (g + k) (o.raise k)).1 = (s.addConsumer g o).1 + k ∧
      (s.addConsumer g o).2.Raised k (s'.addConsumer (g + k) (o.raise k)).2 := by
  have hinsert : Session.Raised k
      { s with
        nextId := s.nextId + 1
        consumers := s.consumers.insert s.nextId { generator := g, owner := o } }
      { s' with
        nextId := s'.nextId + 1
        consumers := s'.consumers.insert s'.nextId { generator := g + k, owner := o.raise k } } :=
    { h.skipId with
      consumer := fun i => by
        change (s'.consumers.insert s'.nextId _)[i + k]? =
          ((s.consumers.insert s.nextId _)[i]?).map _
        rw [h.nextId]
        simp only [Std.TreeMap.getElem?_insert, Std.LawfulEqCmp.compare_eq_iff_eq]
        by_cases e : s.nextId = i
        · rw [if_pos e, if_pos (congrArg (· + k) e)]
          rfl
        · rw [if_neg e, if_neg fun e' => e (Nat.add_right_cancel e')]
          exact h.consumer i
      noConsumer := fun i hi => by
        change (s'.consumers.insert s'.nextId _)[i]? = none
        simp only [Std.TreeMap.getElem?_insert, Std.LawfulEqCmp.compare_eq_iff_eq]
        have := h.nextId
        have := h.pos
        rw [if_neg (by omega)]
        exact h.noConsumer i hi
      owner := fun {i x} hx => by
        change (s.consumers.insert s.nextId _)[i]? = some x at hx
        rw [Std.TreeMap.getElem?_insert] at hx
        split at hx
        · cases hx
          exact ho
        · exact h.owner hx }
  refine ⟨h.nextId, hinsert.modifyGenerator g fun {gen gen'} hgen => ?_⟩
  obtain ⟨e, hm⟩ := hgen
  rw [e, h.nextId]
  exact ⟨rfl, hm⟩

theorem read (h : s.Raised k s') (c : Nat) :
    (s'.read (c + k)).1 = (s.read c).1 ∧ (s.read c).2.Raised k (s'.read (c + k)).2 := by
  unfold Session.read
  rw [h.consumer]
  cases s.consumers[c]? with
  | none => exact ⟨rfl, h⟩
  | some x =>
    simp only [Option.map_some]
    rw [show (x.raise k).generator = x.generator + k from rfl,
      show (x.raise k).read = x.read from rfl]
    rcases rel_elim (h.generator x.generator) with ⟨e1, e2⟩ | ⟨gen, gen', e1, e2, hgen⟩
    · rw [e1, e2]
      exact ⟨rfl, h⟩
    · obtain ⟨-, hresults, -, hcomplete, -⟩ := hgen.fields
      rw [e1, e2]
      simp only [hresults, hcomplete]
      cases gen.results.get? x.read with
      | none => exact ⟨rfl, h⟩
      | some t => exact ⟨rfl, h.modifyConsumer c (fun _ => rfl) fun _ => rfl⟩

theorem unblock (h : s.Raised k s') (o : Owner) (c : Nat) :
    (s.unblock o c).Raised k (s'.unblock (o.raise k) (c + k)) := by
  cases o with
  | generator g =>
    refine h.modifyGenerator g fun {gen gen'} hgen => ?_
    obtain ⟨e, hm⟩ := hgen
    rw [e]
    refine ⟨?_, hm⟩
    simp only [filter_raised]
  | query q => exact h.modifyQuery q fun ids => filter_raised ids k c

theorem removeConsumer (h : s.Raised k s') (c : Nat) :
    (s.removeConsumer c).Raised k (s'.removeConsumer (c + k)) := by
  unfold Session.removeConsumer
  rw [h.consumer]
  cases s.consumers[c]? with
  | none => exact h
  | some x =>
    have herase : Session.Raised k { s with consumers := s.consumers.erase c }
        { s' with consumers := s'.consumers.erase (c + k) } :=
      { h with
        consumer := fun i => by
          change (s'.consumers.erase (c + k))[i + k]? = ((s.consumers.erase c)[i]?).map _
          simp only [Std.TreeMap.getElem?_erase, Std.LawfulEqCmp.compare_eq_iff_eq]
          by_cases e : c = i
          · rw [if_pos e, if_pos (congrArg (· + k) e)]
            rfl
          · rw [if_neg e, if_neg fun e' => e (Nat.add_right_cancel e')]
            exact h.consumer i
        noConsumer := fun i hi => by
          change (s'.consumers.erase (c + k))[i]? = none
          rw [Std.TreeMap.getElem?_erase, h.noConsumer i hi, ite_self]
        owner := fun {i y} hy => by
          change (s.consumers.erase c)[i]? = some y at hy
          rw [Std.TreeMap.getElem?_erase] at hy
          split at hy
          · cases hy
          · exact h.owner hy }
    refine Raised.unblock ?_ x.owner c
    refine herase.modifyGenerator x.generator fun {gen gen'} hgen => ?_
    obtain ⟨e, hm⟩ := hgen
    rw [e]
    refine ⟨?_, hm⟩
    simp only [filter_raised]

theorem block (h : s.Raised k s') (o : Owner) (c : Nat) :
    (s.block o c).Raised k (s'.block (o.raise k) (c + k)) := by
  have hmarked : Raised k (s.modifyConsumer c fun x => { x with suspended := true })
      (s'.modifyConsumer (c + k) fun x => { x with suspended := true }) :=
    h.modifyConsumer c (fun _ => rfl) fun _ => rfl
  cases o with
  | generator g =>
    refine hmarked.modifyGenerator g fun {gen gen'} hgen => ?_
    obtain ⟨e, hm⟩ := hgen
    rw [e]
    refine ⟨?_, hm⟩
    simp only [insert_raised]
  | query q =>
    refine hmarked.modifyQuery q fun ids => ?_
    simp only [contains_raised]
    split
    · rfl
    · rw [List.map_append]
      rfl

theorem isReady (h : s.Raised k s') (c : Nat) : s'.isReady (c + k) = s.isReady c := by
  unfold Session.isReady
  rw [h.consumer]
  cases s.consumers[c]? with
  | none => rfl
  | some x =>
    simp only [Option.map_some]
    rw [show (x.raise k).generator = x.generator + k from rfl]
    rcases rel_elim (h.generator x.generator) with ⟨e1, e2⟩ | ⟨gen, gen', e1, e2, hgen⟩
    · rw [e1, e2]
      rfl
    · obtain ⟨-, hresults, -, hcomplete, -⟩ := hgen.fields
      rw [e1, e2]
      simp only [hresults, hcomplete]
      rfl

theorem wake (h : s.Raised k s') (c : Nat) : (s.wake c).Raised k (s'.wake (c + k)) := by
  have hmarked : Raised k (s.modifyConsumer c fun x => { x with scheduled := true })
      (s'.modifyConsumer (c + k) fun x => { x with scheduled := true }) :=
    h.modifyConsumer c (fun _ => rfl) fun _ => rfl
  unfold Session.wake
  rw [h.consumer]
  rcases s.consumers[c]? with - | ⟨gen, read, o, suspended, scheduled⟩
  · exact h
  · cases o <;> cases suspended <;> cases scheduled <;>
      first | exact h | exact hmarked.schedule (.resume c)

theorem foldl {α : Type} {f f' : Session → α → Session}
    (hf : ∀ {s s' : Session} (a : α), s.Raised k s' → (f s a).Raised k (f' s' a)) (as : List α)
    (h : s.Raised k s') : (as.foldl f s).Raised k (as.foldl f' s') := by
  induction as generalizing s s' with
  | nil => exact h
  | cons a as ih => exact ih (hf a h)

theorem wakeReaders (h : s.Raised k s') (g : Nat) :
    (s.wakeReaders g).Raised k (s'.wakeReaders (g + k)) := by
  unfold Session.wakeReaders
  rcases rel_elim (h.generator g) with ⟨e1, e2⟩ | ⟨gen, gen', e1, e2, hgen⟩
  · rw [e1, e2]
    exact h
  · rw [e1, e2]
    simp only [hgen.fields.2.2.2.2.1, ← List.map_reverse, List.foldl_map]
    exact foldl (fun c h => h.wake c) _ h

theorem ownedBy (h : s.Raised k s') (o : Owner) :
    s'.ownedBy (o.raise k) = (s.ownedBy o).map fun p => (p.1 + k, p.2.raise k) := by
  unfold Session.ownedBy
  rw [Std.TreeMap.foldr_eq_foldr_toList, Std.TreeMap.foldr_eq_foldr_toList,
    toList_raised h.consumer h.noConsumer, List.foldr_map]
  induction s.consumers.toList with
  | nil => rfl
  | cons p l ih =>
    simp only [List.foldr_cons, ih, show (p.2.raise k).owner = p.2.owner.raise k from rfl,
      Owner.raise_inj]
    split <;> rfl

/-- No consumer is owned by a query that is older than the session. -/
theorem not_owned (h : s.Raised k s') (hq : q ≤ k) {x : Consumer}
    (hx : s'.consumers[c]? = some x) : x.owner ≠ .query q := by
  intro ho
  have hlt : k < c := by
    refine Nat.lt_of_not_le fun hle => ?_
    rw [h.noConsumer c hle] at hx
    cases hx
  rw [← Nat.sub_add_cancel hlt.le, h.consumer] at hx
  obtain ⟨y, hy, rfl⟩ := Option.map_eq_some_iff.1 hx
  have hy' := h.owner hy
  obtain ⟨gen, read, o, suspended, scheduled⟩ := y
  cases o with
  | generator g => cases ho
  | query q' =>
    obtain rfl : q' + k = q := Owner.query.inj ho
    obtain rfl : q' = 0 := by omega
    exact hy' rfl

/-! ### Queries -/

theorem openQuery (h : s.Raised k s') : s'.openQuery.1 = s.openQuery.1 + k ∧
    s.openQuery.2.Raised k s'.openQuery.2 :=
  ⟨h.nextId,
    { h.skipId with
      query := fun i => by
        change (s'.queries.insert s'.nextId [])[i + k]? = ((s.queries.insert s.nextId [])[i]?).map _
        rw [h.nextId]
        simp only [Std.TreeMap.getElem?_insert, Std.LawfulEqCmp.compare_eq_iff_eq]
        by_cases e : s.nextId = i
        · rw [if_pos e, if_pos (congrArg (· + k) e)]
          rfl
        · rw [if_neg e, if_neg fun e' => e (Nat.add_right_cancel e')]
          exact h.query i
      noQuery := fun i hi => by
        change (s'.queries.insert s'.nextId [])[i]? = none
        simp only [Std.TreeMap.getElem?_insert, Std.LawfulEqCmp.compare_eq_iff_eq]
        have := h.nextId
        have := h.pos
        rw [if_neg (by omega)]
        exact h.noQuery i hi }⟩

theorem blocked (h : s.Raised k s') (q : Nat) :
    s'.blocked (q + k) = (s.blocked q).map (· + k) := by
  unfold Session.blocked
  rw [Std.TreeMap.getD_eq_getD_getElem?, Std.TreeMap.getD_eq_getD_getElem?, h.query]
  cases s.queries[q]? <;> rfl

theorem queryReady (h : s.Raised k s') (q : Nat) : s'.queryReady (q + k) = s.queryReady q := by
  unfold Session.queryReady
  rw [h.query]
  cases s.queries[q]? with
  | none => rfl
  | some ids =>
    simp only [Option.map_some, List.any_map]
    congr 1
    funext c
    exact h.isReady c

theorem takeReady (h : s.Raised k s') (q : Nat) :
    Option.Rel (fun x x' => x'.1 = x.1 + k ∧ x.2.Raised k x'.2) (s.takeReady q)
      (s'.takeReady (q + k)) := by
  have hfind : (s'.blocked (q + k)).find? s'.isReady =
      ((s.blocked q).find? s.isReady).map (· + k) := by
    rw [h.blocked, List.find?_map]
    congr 2
    funext c
    exact h.isReady c
  unfold Session.takeReady
  rw [hfind]
  cases (s.blocked q).find? s.isReady with
  | none => exact .none
  | some c => exact .some ⟨rfl, h.modifyQuery q fun ids => erase_raised ids k c⟩

theorem generators_of (h : s.Raised k s') (cs : List Nat) :
    (cs.map (· + k)).filterMap (fun c => (s'.consumers[c]?).map Consumer.generator) =
      (cs.filterMap fun c => (s.consumers[c]?).map Consumer.generator).map (· + k) := by
  rw [List.filterMap_map, List.map_filterMap]
  congr 1
  funext c
  simp only [Function.comp, h.consumer, Option.map_map]
  rfl

theorem blockedOn (h : s.Raised k s') (q : Nat) :
    s'.blockedOn (q + k) = (s.blockedOn q).map (· + k) := by
  unfold Session.blockedOn
  rw [h.blocked]
  exact h.generators_of _

end Session.Raised

end TabledRules
