-- To look a goal up in the store and to try what is found is to try every stored
-- triple. What is asked for is the goal as far as it is known, and no triple that
-- the goal matches is left out by that.
import TabledRules.Machine.Step
import TabledRules.Proofs.Arrivals
import TabledRules.Proofs.GroundMatches

namespace TabledRules

/-! ## Lookups -/

theorem Term.lookupKey_lookupKey (t : Term) : t.lookupKey.lookupKey = t.lookupKey := by
  unfold lookupKey
  by_cases h : t.isGround = true
  · simp [h]
  · simp [h]

theorem Triple.lookupKey_lookupKey (t : Triple) : t.lookupKey.lookupKey = t.lookupKey := by
  simp [lookupKey, mapTerms, Term.lookupKey_lookupKey]

/-- What is picked from the answers to a pattern is what is picked from the whole store, if
nothing else would be picked. -/
theorem Graph.Tidy.filter_find {g : Graph} (h : g.Tidy) {pattern : Triple} {p : Triple → Bool}
    (hp : ∀ t ∈ g.triples, p t = true → pattern.lookupKey.admits t = true) :
    (g.find pattern).filter p = g.triples.filter p := by
  have hboth : ∀ l : List Triple, (∀ t ∈ l, t ∈ g.triples) →
      (l.filter pattern.lookupKey.admits).filter p = l.filter p := by
    intro l hl
    rw [List.filter_filter]
    refine List.filter_congr fun t ht => ?_
    cases hpt : p t with
    | false => rfl
    | true => simp [hp t (hl t ht) hpt]
  cases hground : pattern.predicate.isGround with
  | false =>
    rw [find_of_not_ground g hground]
    exact hboth _ fun t ht => ht
  | true =>
    rw [find_of_ground g hground, hboth _ fun t ht => (h.mem_withPredicate_iff.1 ht).1,
      ← h.filter_triples, List.filter_filter]
    refine List.filter_congr fun t ht => ?_
    cases hpt : p t with
    | false => simp
    | true => simp [Triple.predicate_of_admits hground (hp t ht hpt)]

/-! ## More variables -/

namespace Bindings

variable {b c : Bindings} {v n k : Nat} {t l r : Term} {goal u : Triple}

/-- The numbered variables of the term exist. -/
def Owns (b : Bindings) (t : Term) : Prop := ∀ v, .ref v ∈ t.leaves → v < b.size

/-- There is no cycle, and values are made of variables that exist. -/
structure Closed (b : Bindings) : Prop extends b.CycleFree where
  values : ∀ {v t}, b.value? v = some t → b.Owns t

theorem owns_of_isGround (ht : t.isGround = true) : b.Owns t := by
  intro v hv
  rw [(Term.isGround_iff_leaves t).1 ht] at hv
  cases hv

theorem owns_app {f : String} {ts : List Term} (h : b.Owns (.app f ts)) :
    ∀ t ∈ ts, b.Owns t := by
  intro t ht v hv
  apply h
  simpa using ⟨t, ht, hv⟩

theorem Closed.addsGround (h : b.Closed) (hadds : b.AddsGround c) : c.Closed := by
  refine ⟨hadds.cycleFree, fun {v t} hv => ?_⟩
  rcases hadds.value hv with hv | ht
  · intro u hu
    rw [hadds.size_eq]
    exact h.values hv u hu
  · exact owns_of_isGround ht

theorem Closed.owns_deref (h : b.Closed) (ht : b.Owns t) : b.Owns (b.deref t) := by
  have follows : ∀ n t, b.Owns t → b.Owns (b.follow n t) := by
    intro n
    induction n with
    | zero => exact fun t ht => ht
    | succ n ih =>
      intro t ht
      cases t with
      | ref v =>
        rw [follow]
        cases hval : b.value? v with
        | none => exact ht
        | some x => exact ih x (h.values hval)
      | _ => exact ht
  exact follows b.size t ht

theorem follow_grow (b : Bindings) (k n : Nat) (t : Term) :
    (b.grow k).follow n t = b.follow n t := by
  induction n generalizing t with
  | zero => rfl
  | succ n ih =>
    cases t with
    | ref v =>
      rw [follow, follow, value?_grow]
      cases b.value? v with
      | none => rfl
      | some x => exact ih x
    | _ => rfl

theorem follow_add_of_isEnd (h : b.IsEnd (b.follow n t)) (k : Nat) :
    b.follow (n + k) t = b.follow n t := by
  induction n generalizing t with
  | zero =>
    rw [Nat.zero_add]
    exact follow_of_isEnd k h
  | succ n ih =>
    rw [Nat.add_right_comm]
    cases t with
    | ref v =>
      rw [follow] at h ⊢
      rw [follow]
      cases hval : b.value? v with
      | none => rfl
      | some x =>
        rw [hval] at h
        exact ih h
    | _ => rfl

/-- Where no chain of variables goes round, more variables lead nowhere else. -/
theorem CycleFree.deref_grow (h : b.CycleFree) (k : Nat) (t : Term) :
    (b.grow k).deref t = b.deref t := by
  have hsize : (b.grow k).size = b.size + (max b.size k - b.size) := by
    rw [size_grow]
    omega
  unfold deref
  rw [hsize, follow_grow]
  exact follow_add_of_isEnd (h.isEnd_deref t) _

theorem bind_grow (hv : v < b.size) (t : Term) (k : Nat) :
    (b.grow k).bind v t = (b.bind v t).grow k := by
  have hv' : v < (b.grow k).size := Nat.lt_of_lt_of_le hv (Nat.le_max_left _ _)
  rw [Bindings.bind, Bindings.bind, if_pos hv, if_pos hv']
  rfl

theorem unifyEach_grow {ls rs : List Term} (hb : b.Closed) (hls : ∀ l ∈ ls, b.Owns l)
    (hrs : ∀ r ∈ rs, r.isGround = true)
    (hone : ∀ r ∈ rs, ∀ {b : Bindings} {l : Term}, b.Closed → b.Owns l →
      (b.grow k).unify n l r = (b.unify n l r).map (Option.map (·.grow k))) :
    unifyEach (unify n) (b.grow k) ls rs =
      (unifyEach (unify n) b ls rs).map (Option.map (·.grow k)) := by
  induction ls generalizing b rs with
  | nil => simp [unifyEach]
  | cons l ls ih =>
    cases rs with
    | nil => simp [unifyEach]
    | cons r rs =>
      rw [List.forall_mem_cons] at hls hrs
      rw [unifyEach, unifyEach, hone r List.mem_cons_self hb hls.1]
      cases e : b.unify n l r with
      | none => rfl
      | some x =>
        cases x with
        | none => rfl
        | some c =>
          have hadds := hb.addsGround_unify hrs.1 e
          refine ih (hb.addsGround hadds) (fun l hl v hv => ?_) hrs.2
            fun r hr => hone r (List.mem_cons_of_mem _ hr)
          rw [hadds.size_eq]
          exact hls.2 l hl v hv

theorem Closed.unify_grow (hb : b.Closed) (hl : b.Owns l) (hr : r.isGround = true) (k : Nat) :
    (b.grow k).unify n l r = (b.unify n l r).map (Option.map (·.grow k)) := by
  induction n generalizing b l r with
  | zero => rfl
  | succ n ih =>
    have hdr := deref_of_isGround b hr
    have hdr' := deref_of_isGround (b.grow k) hr
    have hdl' := hb.deref_grow k l
    have hknown := hb.owns_deref hl
    generalize hdl : b.deref l = l' at hdl' hknown
    have hlt : ∀ v, l' = .ref v → v < b.size := by
      rintro v rfl
      exact hknown v (by simp)
    have hne : ∀ v, r ≠ .ref v := by
      rintro v rfl
      simp at hr
    cases Meeting.of l' r with
    | wild hw =>
      have hw1 : Wild (b.deref l) ∨ Wild (b.deref r) := by rwa [hdl, hdr]
      have hw2 : Wild ((b.grow k).deref l) ∨ Wild ((b.grow k).deref r) := by rwa [hdl', hdr']
      rw [unify_wild hw1, unify_wild hw2]
      rfl
    | refs v u => exact absurd rfl (hne u)
    | refLeft v hw ht =>
      rw [unify_refLeft hdl hdr hw ht, unify_refLeft hdl' hdr' hw ht, bind_grow (hlt v rfl)]
      rfl
    | refRight v hw ht => exact absurd rfl (hne v)
    | nodes x y =>
      rw [unify_nodes hdl hdr, unify_nodes hdl' hdr']
      by_cases e : x = y <;> simp [e]
    | nodeApp x f as =>
      rw [unify_nodeApp hdl hdr, unify_nodeApp hdl' hdr']
      rfl
    | appNode x f as =>
      rw [unify_appNode hdl hdr, unify_appNode hdl' hdr']
      rfl
    | apps f g as bs =>
      rw [unify_apps hdl hdr, unify_apps hdl' hdr']
      split
      · rw [Term.isGround_app] at hr
        exact unifyEach_grow hb (owns_app hknown) hr fun r hmem {_ _} hb hl =>
          ih hb hl (hr r hmem)
      · rfl

/-- The goal matches the triple. -/
def accepts (b : Bindings) (n : Nat) (goal t : Triple) : Bool :=
  match b.unifyTriple n goal t with
  | some (some _) => true
  | _ => false

theorem Closed.unifyTriple_grow (hb : b.Closed) (hgoal : ∀ t ∈ goal.terms, b.Owns t)
    (hu : u.isGround = true) (k : Nat) :
    (b.grow k).unifyTriple n goal u = (b.unifyTriple n goal u).map (Option.map (·.grow k)) := by
  have hterms := Triple.isGround_iff.1 hu
  exact unifyEach_grow hb hgoal hterms fun r hr {_ _} hb hl => hb.unify_grow hl (hterms r hr) k

theorem accepts_iff : b.accepts n goal u = true ↔ ∃ c, b.unifyTriple n goal u = some (some c) := by
  unfold accepts
  rcases b.unifyTriple n goal u with _ | _ | c <;> simp

end Bindings

/-! ## Choice points -/

namespace Choice

/-- The choice point has these stored triples left for its goal. -/
def Tries (c : Choice) (goal : Triple) (ts : List Triple) : Prop :=
  c.alternatives = .facts goal ts ∨ c.alternatives = .answers goal ts

/-- The triple that a choice point tries next. -/
def next? (c : Choice) : Option Triple :=
  match c.alternatives with
  | .facts _ (t :: _) | .answers _ (t :: _) => some t
  | _ => none

/-- The choice point without the triple that it tried. -/
def advance (c : Choice) : Choice :=
  match c.alternatives with
  | .facts goal (_ :: ts) => { c with alternatives := .facts goal ts }
  | .answers goal (_ :: ts) => { c with alternatives := .answers goal ts }
  | _ => c

/-- The triples that a choice point accepts on successive retries, whatever is done by the
machine in between. -/
inductive Accepts (w : World) (n : Nat) : Choice → List Triple → Prop
  /-- There is no triple left, and the choice point is left. -/
  | left {c : Choice} :
    (∀ (m : Machine) (s : Session) (below : List Choice), m.stack = c :: below →
      c.id < m.choices → ∃ m' s', m.step w n .backtrack s = (.go .backtrack, m', s') ∧
        m'.stack = below) →
    Accepts w n c []
  /-- The triple is rejected: the next one is tried at once, under the same bindings. -/
  | reject {c c' : Choice} {ts : List Triple} :
    (∀ (m : Machine) (s : Session) (below : List Choice), m.stack = c :: below →
      c.id < m.choices → ∃ m' s', m.step w n .backtrack s = (.go .backtrack, m', s') ∧
        m'.stack = c' :: below ∧ m'.bindings = (m.rewind c).bindings ∧ c'.id < m'.choices) →
    Accepts w n c' ts → Accepts w n c ts
  /-- The triple is accepted: the machine goes on, or has an answer. -/
  | accept {c c' : Choice} {t : Triple} {ts : List Triple} : c.next? = some t →
    (∀ (m : Machine) (s : Session) (below : List Choice), m.stack = c :: below →
      c.id < m.choices → ∃ p m' s', m.step w n .backtrack s = (p, m', s') ∧
        m'.stack = c' :: below ∧ (p = .go (.run c.env c.code) ∨ p = .done (.ok (some t)))) →
    Accepts w n c' ts → Accepts w n c (t :: ts)

variable {c : Choice} {goal t : Triple} {ts : List Triple}

theorem Tries.next? (h : c.Tries goal (t :: ts)) : c.next? = some t := by
  unfold Choice.next?
  rcases h with h | h <;> rw [h]

theorem Tries.advance (h : c.Tries goal (t :: ts)) : c.advance.Tries goal ts := by
  unfold Choice.advance
  rcases h with h | h
  · rw [h]
    exact .inl rfl
  · rw [h]
    exact .inr rfl

@[simp] theorem id_advance (c : Choice) : c.advance.id = c.id := by
  unfold advance
  split <;> rfl

@[simp] theorem bindings_advance (c : Choice) : c.advance.bindings = c.bindings := by
  unfold advance
  split <;> rfl

end Choice

namespace Machine

variable {w : World} {n : Nat} {m : Machine} {s : Session} {c : Choice} {below : List Choice}
  {goal t : Triple} {ts : List Triple}

theorem step_backtrack (hstack : m.stack = c :: below) (hid : c.id < m.choices) :
    m.step w n .backtrack s =
      ({ m.rewind c with stack := below } : Machine).retry w n c s := by
  unfold step
  simp only [hstack]
  rw [if_neg (by omega)]

theorem lt_choices_rewind (hid : c.id < m.choices) : c.id < (m.rewind c).choices := by
  change c.id < min m.choices (max (c.id + 1) m.pinned.choices)
  omega

theorem step_left (hstack : m.stack = c :: below) (hid : c.id < m.choices)
    (hc : c.Tries goal []) :
    ∃ m' s', m.step w n .backtrack s = (.go .backtrack, m', s') ∧ m'.stack = below := by
  rw [step_backtrack hstack hid]
  unfold retry
  rcases hc with hc | hc
  · rw [hc]
    exact ⟨_, _, rfl, rfl⟩
  · rw [hc]
    exact ⟨_, _, rfl, rfl⟩

theorem step_reject (hstack : m.stack = c :: below) (hid : c.id < m.choices)
    (hc : c.Tries goal (t :: ts))
    (hx : (m.rewind c).bindings.unifyTriple n goal t = some none) :
    ∃ m' s', m.step w n .backtrack s = (.go .backtrack, m', s') ∧
      m'.stack = c.advance :: below ∧ m'.bindings = (m.rewind c).bindings ∧
      c.advance.id < m'.choices := by
  have hchoices := lt_choices_rewind hid
  rw [step_backtrack hstack hid, Choice.id_advance]
  unfold retry Choice.advance
  rcases hc with hc | hc
  · simp only [hc, keep, tryTriple, hx]
    exact ⟨_, _, rfl, rfl, rfl, hchoices⟩
  · simp only [hc, keep, tryAnswer, hx]
    exact ⟨_, _, rfl, rfl, rfl, hchoices⟩

theorem step_accept (hstack : m.stack = c :: below) (hid : c.id < m.choices)
    (hc : c.Tries goal (t :: ts)) {b : Bindings}
    (hx : (m.rewind c).bindings.unifyTriple n goal t = some (some b)) :
    ∃ p m' s', m.step w n .backtrack s = (p, m', s') ∧ m'.stack = c.advance :: below ∧
      (p = .go (.run c.env c.code) ∨ p = .done (.ok (some t))) := by
  rw [step_backtrack hstack hid]
  unfold retry Choice.advance
  rcases hc with hc | hc
  · simp only [hc, keep, tryTriple, hx]
    exact ⟨_, _, _, rfl, rfl, .inl rfl⟩
  · simp only [hc, keep, tryAnswer, hx]
    exact ⟨_, _, _, rfl, rfl, .inr rfl⟩

end Machine

section

variable {w : World} {n : Nat} {b : Bindings} {c : Choice} {goal : Triple} {ts : List Triple}

/-- A choice point accepts, one after the other, the triples that its goal matches. -/
theorem Choice.Tries.accepts (hc : c.Tries goal ts) (hbindings : c.bindings = b) (hb : b.Closed)
    (hgoal : ∀ t ∈ goal.terms, b.Owns t)
    (hts : ∀ t ∈ ts, t.isGround = true ∧ ∃ x, b.unifyTriple n goal t = some x) :
    c.Accepts w n (ts.filter (b.accepts n goal)) := by
  induction ts generalizing c with
  | nil => exact .left fun m s below hstack hid => Machine.step_left hstack hid hc
  | cons t ts ih =>
    rw [List.forall_mem_cons] at hts
    obtain ⟨⟨ht, x, hx⟩, hrest⟩ := hts
    have htail := ih hc.advance ((bindings_advance c).trans hbindings) hrest
    -- the bindings that the choice point goes back to, and what is pinned by then
    have hrewind : ∀ m : Machine, (m.rewind c).bindings.unifyTriple n goal t =
        some (x.map (·.grow m.pinnedVars)) := by
      intro m
      change (c.bindings.grow m.pinnedVars).unifyTriple n goal t = _
      rw [hbindings, hb.unifyTriple_grow hgoal ht, hx]
      rfl
    cases x with
    | none =>
      have hreject : b.accepts n goal t = false := by
        unfold Bindings.accepts
        rw [hx]
      rw [List.filter_cons_of_neg (by simp [hreject])]
      refine .reject (fun m s below hstack hid => ?_) htail
      exact Machine.step_reject hstack hid hc (hrewind m)
    | some d =>
      rw [List.filter_cons_of_pos (Bindings.accepts_iff.2 ⟨d, hx⟩)]
      refine .accept hc.next? (fun m s below hstack hid => ?_) htail
      exact Machine.step_accept hstack hid hc (hrewind m)

end

/-! ## Goals -/

/-- What is known of a goal and a store at a depth: to look up the value of the goal and try
what is found is to try all that is stored. -/
structure Bindings.Scans (b : Bindings) (g : Graph) (n : Nat) (goal value : Triple) : Prop where
  known : goal.mapTerms? (b.deepDeref n) = some value
  ends : ∀ t ∈ g.triples, ∃ x, b.unifyTriple n goal t = some x
  scan : (g.find value.lookupKey).filter (b.accepts n goal) =
    (g.find ⟨.any, .any, .any⟩).filter (b.accepts n goal)
  /-- On a manager that is changed in place, what is rejected leaves no trace. -/
  unchanged : ∀ t ∈ g.triples, b.accepts n goal t = false →
    ∃ c, b.attemptTriple n goal t = some (false, c) ∧ b.Alike c
  /-- This is what a call of the store asks for, and what its choice point has to try. -/
  call : ∀ (w : World) (m : Machine) (env : Env) (code : List Instruction) (s : Session),
    w.store = g.toStore → m.bindings = b → m.called = goal → m.choices < w.settings.stackLimit →
    ∃ m' c, m.callStore w n env code s = (.go .backtrack, m', s) ∧ m'.stack = c :: m.stack ∧
      c.bindings = b ∧ c.Tries goal (g.find value.lookupKey)
  /-- A choice point accepts what a scan of the whole store finds, in the order of the scan. -/
  retries : b.Closed → (∀ t ∈ goal.terms, b.Owns t) → ∀ (w : World) (c : Choice),
    c.bindings = b → c.Tries goal (g.find value.lookupKey) →
    c.Accepts w n ((g.find ⟨.any, .any, .any⟩).filter (b.accepts n goal))

section

variable {b : Bindings} {g : Graph} {n : Nat} {goal value : Triple}

theorem Bindings.CycleFree.exists_value (hb : b.CycleFree) (goal : Triple) :
    ∃ n value, ∀ m, n ≤ m → goal.mapTerms? (b.deepDeref m) = some value := by
  obtain ⟨n1, s, hs⟩ := hb.hasValue goal.subject
  obtain ⟨n2, p, hp⟩ := hb.hasValue goal.predicate
  obtain ⟨n3, o, ho⟩ := hb.hasValue goal.object
  refine ⟨max n1 (max n2 n3), ⟨s, p, o⟩, fun m hm => ?_⟩
  rw [mapTerms?_eq_some_iff]
  refine ⟨Bindings.deepDeref_mono ?_ hs, Bindings.deepDeref_mono ?_ hp,
    Bindings.deepDeref_mono ?_ ho⟩ <;> omega

theorem Machine.callStore_eq (w : World) (m : Machine) (env : Env) (code : List Instruction)
    (s : Session) (hstore : w.store = g.toStore) (hlimit : m.choices < w.settings.stackLimit)
    (hvalue : m.called.mapTerms? (m.bindings.deepDeref n) = some value) :
    ∃ m' c, m.callStore w n env code s = (.go .backtrack, m', s) ∧ m'.stack = c :: m.stack ∧
      c.bindings = m.bindings ∧ c.Tries m.called (g.find value.lookupKey) := by
  have hcalled : m.calledValue n = some value := hvalue
  unfold callStore
  simp only [hcalled, hstore, Graph.toStore, push]
  rw [if_neg (by omega)]
  exact ⟨_, _, rfl, rfl, rfl, .inl rfl⟩

theorem Bindings.CycleFree.scans (hb : b.CycleFree) (hg : g.Tidy)
    (hground : ∀ t ∈ g.triples, t.isGround = true)
    (hvalue : goal.mapTerms? (b.deepDeref n) = some value)
    (hn : Term.sizeAll (g.triples.flatMap Triple.terms) ≤ n) : b.Scans g n goal value := by
  have hends : ∀ t ∈ g.triples, ∃ x, b.unifyTriple n goal t = some x := by
    intro t ht
    apply Bindings.unifyTriple_ends b goal (hground t ht)
    intro u hu
    have hle := Term.size_le_sizeAll (List.mem_flatMap.2 ⟨t, ht, hu⟩)
    omega
  have hscan : (g.find value.lookupKey).filter (b.accepts n goal) =
      (g.find ⟨.any, .any, .any⟩).filter (b.accepts n goal) := by
    rw [g.find_any]
    refine hg.filter_find fun t ht haccepts => ?_
    obtain ⟨c, hc⟩ := Bindings.accepts_iff.1 haccepts
    rw [Triple.lookupKey_lookupKey]
    exact hb.admits_of_unifyTriple (hground t ht) hvalue hc
  refine ⟨hvalue, hends, hscan, fun t ht hreject => ?_, ?_, ?_⟩
  · obtain ⟨x, hx⟩ := hends t ht
    apply hb.unchanged_of_mismatch (hground t ht)
    cases x with
    | none => exact hx
    | some c =>
      rw [Bindings.accepts_iff.2 ⟨c, hx⟩] at hreject
      cases hreject
  · rintro w m env code s hstore rfl rfl hlimit
    exact m.callStore_eq w env code s hstore hlimit hvalue
  · intro hclosed hgoal w c hc htries
    rw [← hscan]
    refine htries.accepts hc hclosed hgoal fun t ht => ?_
    have hmem := Graph.mem_triples_of_find ht
    exact ⟨hground t hmem, hends t hmem⟩

end

/-- The lookup of a goal that is tried triple by triple is a scan of the store, whatever the
store went through. -/
theorem lookup_is_scan (b : Bindings) (hb : b.CycleFree) (cs : List Change)
    (hground : ∀ t ∈ (Graph.changes {} cs).2.triples, t.isGround = true) (goal : Triple) :
    ∃ N value, ∀ n, N ≤ n → b.Scans (Graph.changes {} cs).2 n goal value := by
  obtain ⟨k, value, hvalue⟩ := hb.exists_value goal
  generalize hg : (Graph.changes {} cs).2 = g at hground
  have htidy : g.Tidy := hg ▸ (Graph.records_changes cs).tidy
  refine ⟨max k (Term.sizeAll (g.triples.flatMap Triple.terms)), value, fun n hn => ?_⟩
  exact hb.scans htidy hground (hvalue n (by omega)) (by omega)

/-- One variable is another one and stands inside the value of a third. The goal matches where
the subject is the argument of the object. -/
theorem lookup_is_scan_shared :
    let uri := fun x => Term.node (.uri x)
    let f := fun x => Term.app "f" [x]
    let b : Bindings := (Bindings.bind ⟨3, ∅, []⟩ 1 (f (.ref 0))).bind 2 (.ref 0)
    let cs : List Change :=
      [.add ⟨uri "a", uri "q", f (uri "a")⟩, .add ⟨uri "b", uri "p", f (uri "b")⟩,
        .add ⟨uri "a", uri "p", f (uri "b")⟩, .add ⟨uri "a", uri "p", f (uri "a")⟩,
        .delete ⟨uri "a", uri "q", f (uri "a")⟩]
    let goal : Triple := ⟨.ref 2, uri "p", .ref 1⟩
    b.CycleFree ∧ (∀ t ∈ (Graph.changes {} cs).2.triples, t.isGround = true) ∧
      ∃ N value, (∀ n, N ≤ n → b.Scans (Graph.changes {} cs).2 n goal value) ∧
        (Graph.changes {} cs).2.triples.filter (b.accepts 3 goal) =
          [⟨uri "b", uri "p", f (uri "b")⟩, ⟨uri "a", uri "p", f (uri "a")⟩] := by
  intro uri f b cs goal
  have hvalue : ∀ v t, b.value? v = some t → (v = 1 ∧ t = f (.ref 0)) ∨ (v = 2 ∧ t = .ref 0) := by
    intro v t hv
    rw [Bindings.value?_bind (by decide), Bindings.value?_bind (by decide)] at hv
    split at hv
    · next e =>
      cases hv
      exact .inr ⟨e.symm, rfl⟩
    · split at hv
      · next e =>
        cases hv
        exact .inl ⟨e.symm, rfl⟩
      · simp at hv
  have hcycle : b.CycleFree := by
    apply Bindings.cycleFree_of_older
    · intro v t hv
      have hsize : b.size = 3 := rfl
      rcases hvalue v t hv with ⟨rfl, -⟩ | ⟨rfl, -⟩ <;> omega
    · rintro v u ⟨t, hv, hu⟩
      rcases hvalue v t hv with ⟨rfl, rfl⟩ | ⟨rfl, rfl⟩ <;> simp [f] at hu <;> omega
  have hground : ∀ t ∈ (Graph.changes {} cs).2.triples, t.isGround = true := by
    decide
  obtain ⟨N, value, h⟩ := lookup_is_scan b hcycle cs hground goal
  exact ⟨hcycle, hground, N, value, h, by decide⟩

end TabledRules
