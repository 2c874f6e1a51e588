-- A goal meets ground triples. Where the other side is ground, unification binds
-- unbound variables to ground terms, makes no cycle and comes to an end, and a
-- part of the goal that has a ground value matches this value only.
import TabledRules.Proofs.Cycles
import TabledRules.Proofs.Solutions

namespace TabledRules

namespace Bindings

variable {b b' c d : Bindings} {v n k : Nat} {t l r g : Term} {ok : Bool}

/-! ## Bindings of ground terms -/

/-- On top of the trail there are more variables, which were not bound and now have ground
values. -/
structure AddsGround (b c : Bindings) : Prop where
  size_eq : c.size = b.size
  value : ∀ {v t}, c.value? v = some t → b.value? v = some t ∨ t.isGround = true
  trail : ∃ new, c.trail = new ++ b.trail ∧ (∀ v ∈ new, b.value? v = none) ∧
    ∀ v, v ∉ new → c.value? v = b.value? v
  cycleFree : c.CycleFree

theorem CycleFree.addsNothing (h : b.CycleFree) : b.AddsGround b :=
  ⟨rfl, .inl, ⟨[], rfl, by simp, fun _ _ => rfl⟩, h⟩

theorem CycleFree.addsBinding (h : b.CycleFree) (hv : b.value? v = none)
    (ht : t.isGround = true) : b.AddsGround (b.bind v t) := by
  by_cases hlt : v < b.size
  · refine ⟨size_bind b v t, fun {u x} hu => ?_, ⟨[v], ?_, ?_, ?_⟩, h.bind ht⟩
    · rw [value?_bind hlt] at hu
      split at hu
      · cases hu
        exact .inr ht
      · exact .inl hu
    · simp [Bindings.bind, hlt]
    · simpa using hv
    · intro u hu
      rw [value?_bind hlt, if_neg]
      rintro rfl
      exact hu List.mem_cons_self
  · rw [Bindings.bind, if_neg hlt]
    exact h.addsNothing

theorem AddsGround.trans (h : b.AddsGround c) (h' : c.AddsGround d) : b.AddsGround d := by
  obtain ⟨new, htrail, hnone, hvalue⟩ := h.trail
  obtain ⟨new', htrail', hnone', hvalue'⟩ := h'.trail
  refine ⟨h'.size_eq.trans h.size_eq, fun hv => ?_, ⟨new' ++ new, ?_, ?_, ?_⟩, h'.cycleFree⟩
  · rcases h'.value hv with hv | hv
    · exact h.value hv
    · exact .inr hv
  · rw [htrail', htrail, List.append_assoc]
  · intro v hv
    by_cases hnew : v ∈ new
    · exact hnone v hnew
    · have hv' := hnone' v ((List.mem_append.1 hv).resolve_right hnew)
      rwa [hvalue v hnew] at hv'
  · intro v hv
    rw [List.mem_append, not_or] at hv
    rw [hvalue' v hv.1, hvalue v hv.2]

theorem AddsGround.extends (h : b.AddsGround c) : b.Extends c := by
  obtain ⟨new, -, hnone, hvalue⟩ := h.trail
  refine ⟨Nat.le_of_eq h.size_eq.symm, fun {v x} hx => ?_⟩
  have hv : v ∉ new := by
    intro hmem
    rw [hnone v hmem] at hx
    cases hx
  rw [hvalue v hv, hx]

/-- When the trail is unwound the new bindings are gone. -/
theorem AddsGround.unwind (h : b.AddsGround c) : b.Alike (c.unwind b.mark) := by
  obtain ⟨new, htrail, hnone, hvalue⟩ := h.trail
  have hcount : c.mark - b.mark = new.length := by simp [mark, htrail]
  refine ⟨(size_unwind c b.mark).trans h.size_eq, ?_, fun v => ?_⟩
  · rw [Bindings.unwind, trail_undo, hcount, htrail, List.drop_left]
  · rw [Bindings.unwind, value?_undo, hcount, htrail, List.take_left]
    split
    · next hv => exact (hnone v hv).symm
    · next hv => exact hvalue v hv

/-! ## Unification with a ground term -/

theorem deref_of_isGround (b : Bindings) (ht : t.isGround = true) : b.deref t = t := by
  apply deref_of_ne_ref
  rintro v rfl
  simp at ht

theorem addsGround_attemptEach {try1 : Bindings → Term → Term → Option (Bool × Bindings)}
    {ls rs : List Term} (hrs : ∀ r ∈ rs, r.isGround = true)
    (hone : ∀ r ∈ rs, ∀ {b l ok c}, CycleFree b → try1 b l r = some (ok, c) → b.AddsGround c)
    (hb : b.CycleFree) (h : attemptEach try1 b ls rs = some (ok, c)) : b.AddsGround c := by
  induction ls generalizing b rs with
  | nil =>
    cases h
    exact hb.addsNothing
  | cons l ls ih =>
    cases rs with
    | nil =>
      cases h
      exact hb.addsNothing
    | cons r rs =>
      rw [attemptEach] at h
      split at h
      · next b1 h1 =>
        have hadds := hone r List.mem_cons_self hb h1
        refine hadds.trans (ih (fun r hr => hrs r (List.mem_cons_of_mem _ hr))
          (fun r hr => hone r (List.mem_cons_of_mem _ hr)) hadds.cycleFree h)
      · exact hone r List.mem_cons_self hb h

theorem CycleFree.addsGround_attempt (hb : b.CycleFree) (hr : r.isGround = true)
    (h : b.attempt n l r = some (ok, c)) : b.AddsGround c := by
  induction n generalizing b l r ok c with
  | zero => cases h
  | succ n ih =>
    rw [attempt, deref_of_isGround b hr] at h
    cases r with
    | node y =>
      cases hl : b.deref l with
      | ref v =>
        rw [hl] at h
        cases h
        exact hb.addsBinding (hb.unbound_of_deref hl) hr
      | _ =>
        rw [hl] at h
        cases h
        exact hb.addsNothing
    | app f ts =>
      cases hl : b.deref l with
      | ref v =>
        rw [hl] at h
        cases h
        exact hb.addsBinding (hb.unbound_of_deref hl) hr
      | app k us =>
        rw [hl] at h
        simp only at h
        rw [Term.isGround_app] at hr
        split at h
        · exact addsGround_attemptEach hr (fun r hmem {_ _ _ _} hb1 h1 => ih hb1 (hr r hmem) h1) hb h
        · cases h
          exact hb.addsNothing
      | _ =>
        rw [hl] at h
        cases h
        exact hb.addsNothing
    | _ => simp at hr

theorem CycleFree.addsGround_unify (hb : b.CycleFree) (hr : r.isGround = true)
    (h : b.unify n l r = some (some c)) : b.AddsGround c := by
  rw [unify_eq_attempt] at h
  obtain ⟨⟨ok, d⟩, hd, hout⟩ := Option.map_eq_some_iff.1 h
  cases ok with
  | false => cases hout
  | true =>
    cases hout
    exact hb.addsGround_attempt hr hd

theorem unifyEach_ends {ls rs : List Term}
    (hone : ∀ r ∈ rs, ∀ (b : Bindings) (l : Term), ∃ x, b.unify n l r = some x) :
    ∃ x, unifyEach (unify n) b ls rs = some x := by
  induction ls generalizing b rs with
  | nil => exact ⟨some b, by simp [unifyEach]⟩
  | cons l ls ih =>
    cases rs with
    | nil => exact ⟨some b, by simp [unifyEach]⟩
    | cons r rs =>
      obtain ⟨x, hx⟩ := hone r List.mem_cons_self b l
      rw [unifyEach, hx]
      cases x with
      | none => exact ⟨none, rfl⟩
      | some b1 => exact ih fun r hr => hone r (List.mem_cons_of_mem _ hr)

/-- Unification goes no deeper than the ground term. -/
theorem unify_ends (b : Bindings) (l : Term) (hr : r.isGround = true) (hn : r.size ≤ n) :
    ∃ x, b.unify n l r = some x := by
  induction n generalizing b l r with
  | zero => exact absurd r.size_pos (by omega)
  | succ n ih =>
    have hd := deref_of_isGround b hr
    generalize hl : b.deref l = l'
    cases Meeting.of l' r with
    | wild hw => exact ⟨_, unify_wild (by rwa [hl, hd])⟩
    | refs v u => exact ⟨_, unify_refs hl hd⟩
    | refLeft v hw ht => exact ⟨_, unify_refLeft hl hd hw ht⟩
    | refRight v hw ht => exact ⟨_, unify_refRight hl hd hw ht⟩
    | nodes x y => exact ⟨_, unify_nodes hl hd⟩
    | nodeApp x f as => exact ⟨_, unify_nodeApp hl hd⟩
    | appNode x f as => exact ⟨_, unify_appNode hl hd⟩
    | apps f k as bs =>
      rw [unify_apps hl hd]
      split
      · apply unifyEach_ends
        intro r hmem b l
        have hsize := Term.size_lt_app (f := k) hmem
        exact ih b l (Term.isGround_app.1 hr r hmem) (by omega)
      · exact ⟨none, rfl⟩

/-! ## Parts with a ground value -/

theorem unifyEach_of_values {ls gs rs : List Term} {x : Option Bindings}
    (hone : ∀ r ∈ rs, ∀ {l g x}, b.deepDeref k l = some g → g.isGround = true →
      c.unify n l r = some x → x = if r = g then some c else none)
    (hls : List.Forall₂ (fun l g => b.deepDeref k l = some g) ls gs)
    (hgs : ∀ g ∈ gs, g.isGround = true) (hlen : ls.length = rs.length)
    (h : unifyEach (unify n) c ls rs = some x) : x = if rs = gs then some c else none := by
  induction hls generalizing rs with
  | nil =>
    have hrs := List.length_eq_zero_iff.1 hlen.symm
    subst hrs
    simpa [unifyEach, eq_comm] using h
  | @cons l g ls gs hl _ ih =>
    cases rs with
    | nil => simp at hlen
    | cons r rs =>
      rw [List.forall_mem_cons] at hgs
      rw [unifyEach] at h
      obtain ⟨y, hy⟩ : ∃ y, c.unify n l r = some y := by
        cases e : c.unify n l r with
        | none =>
          rw [e] at h
          cases h
        | some y => exact ⟨y, rfl⟩
      rw [hy] at h
      have hhead := hone r List.mem_cons_self hl hgs.1 hy
      subst hhead
      by_cases e : r = g
      · rw [if_pos e] at h
        have htail := ih (fun r hr => hone r (List.mem_cons_of_mem _ hr)) hgs.2
          (by simpa using hlen) h
        simpa [e] using htail
      · rw [if_neg e] at h
        cases h
        simp [e]

/-- What has a ground value matches nothing else, and binds nothing, also under more bindings. -/
theorem unify_of_value {x : Option Bindings} (hbc : b.Extends c)
    (hl : b.deepDeref k l = some g) (hg : g.isGround = true) (hr : r.isGround = true)
    (h : c.unify n l r = some x) : x = if r = g then some c else none := by
  induction k generalizing n l g r x with
  | zero => cases hl
  | succ k ih =>
    cases n with
    | zero => cases h
    | succ n =>
      have hdr := deref_of_isGround c hr
      rw [deepDeref] at hl
      cases hd : b.deref l with
      | node y =>
        have hdl := hbc.deref_eq_of_ne_ref (t := l) (by simp [hd])
        rw [hd] at hl hdl
        cases hl
        cases r with
        | node z =>
          rw [unify_nodes hdl hdr] at h
          cases h
          simp [eq_comm]
        | app f ts =>
          rw [unify_nodeApp hdl hdr] at h
          cases h
          simp
        | _ => simp at hr
      | app f ls =>
        have hdl := hbc.deref_eq_of_ne_ref (t := l) (by simp [hd])
        rw [hd] at hl hdl
        obtain ⟨gs, hgs, rfl⟩ := Option.map_eq_some_iff.1 hl
        have hall := mapM_eq_some_iff.1 hgs
        rw [Term.isGround_app] at hg
        cases r with
        | node z =>
          rw [unify_appNode hdl hdr] at h
          cases h
          simp
        | app f' rs =>
          rw [unify_apps hdl hdr] at h
          rw [Term.isGround_app] at hr
          split at h
          · next e =>
            obtain ⟨rfl, hlen⟩ := e
            have hrest := unifyEach_of_values
              (fun r hmem {l g x} hl hg hu => ih hl hg (hr r hmem) hu) hall hg hlen h
            simpa using hrest
          · next e =>
            cases h
            rw [if_neg]
            rintro e'
            cases e'
            exact e ⟨rfl, hall.length_eq⟩
        | _ => simp at hr
      | _ =>
        rw [hd] at hl
        cases hl
        simp at hg

/-! ## A goal and a triple -/

variable {goal value u : Triple} {x : Option Bindings}

/-- A place of a pattern that has a ground value takes this value only. -/
theorem admits_of_unify (hbc : b.Extends c) (hl : b.deepDeref k l = some g)
    (hr : r.isGround = true) (h : c.unify n l r = some (some d)) : g.lookupKey.admits r = true := by
  unfold Term.lookupKey
  split
  · next hg =>
    have hx := unify_of_value hbc hl hg hr h
    rw [Term.admits_iff_eq hg]
    by_contra hne
    rw [if_neg hne] at hx
    cases hx
  · rfl

theorem unifyTriple_eq_some_iff : b.unifyTriple n goal u = some (some d) ↔
    ∃ b1 b2, b.unify n goal.subject u.subject = some (some b1) ∧
      b1.unify n goal.predicate u.predicate = some (some b2) ∧
      b2.unify n goal.object u.object = some (some d) := by
  simp only [unifyTriple, unifyAll, Triple.terms, unifyEach]
  constructor
  · intro h
    split at h
    · next b1 h1 =>
      split at h
      · next b2 h2 =>
        split at h
        · next b3 h3 =>
          cases h
          exact ⟨b1, b2, h1, h2, h3⟩
        · next hne => exact absurd h (hne d)
      · next hne => exact absurd h (hne d)
    · next hne => exact absurd h (hne d)
  · rintro ⟨b1, b2, h1, h2, h3⟩
    simp only [h1, h2, h3]

/-- A triple that the goal matches is one that the store is asked for. -/
theorem CycleFree.admits_of_unifyTriple (hb : b.CycleFree) (hu : u.isGround = true)
    (hvalue : goal.mapTerms? (b.deepDeref k) = some value)
    (h : b.unifyTriple n goal u = some (some d)) : value.lookupKey.admits u = true := by
  obtain ⟨hs, hp, ho⟩ := mapTerms?_eq_some_iff.1 hvalue
  obtain ⟨b1, b2, h1, h2, h3⟩ := unifyTriple_eq_some_iff.1 h
  simp only [Triple.isGround, Bool.and_eq_true] at hu
  obtain ⟨⟨hus, hup⟩, huo⟩ := hu
  have hadds1 := hb.addsGround_unify hus h1
  have hadds2 := hadds1.trans (hadds1.cycleFree.addsGround_unify hup h2)
  have a1 : value.subject.lookupKey.admits u.subject = true :=
    admits_of_unify (.refl b) hs hus h1
  have a2 : value.predicate.lookupKey.admits u.predicate = true :=
    admits_of_unify hadds1.extends hp hup h2
  have a3 : value.object.lookupKey.admits u.object = true :=
    admits_of_unify hadds2.extends ho huo h3
  simp [Triple.admits, Triple.lookupKey, Triple.mapTerms, a1, a2, a3]

theorem unifyTriple_ends (b : Bindings) (goal : Triple) (hu : u.isGround = true)
    (hn : ∀ t ∈ u.terms, t.size ≤ n) : ∃ x, b.unifyTriple n goal u = some x := by
  apply unifyEach_ends
  intro t ht c l
  exact unify_ends c l (Triple.isGround_iff.1 hu t ht) (hn t ht)

/-! ## In place -/

/-- As `unify`, on one manager that is changed in place: a failure is taken back. -/
def attemptOrUndo (n : Nat) (b : Bindings) (l r : Term) : Option (Bool × Bindings) :=
  (b.attempt n l r).map fun x => if x.1 then x else (false, x.2.unwind b.mark)

/-- As `unifyTriple`, on one manager that is changed in place: what the places before a mismatch
have bound is taken back as well. -/
def attemptTriple (n : Nat) (b : Bindings) (goal t : Triple) : Option (Bool × Bindings) :=
  (attemptEach (attemptOrUndo n) b goal.terms t.terms).map fun x =>
    if x.1 then x else (false, x.2.unwind b.mark)

theorem outcome_or_undo (x : Bool × Bindings) (mark : Nat) :
    outcome (if x.1 then x else (false, x.2.unwind mark)) = outcome x := by
  obtain ⟨ok, c⟩ := x
  cases ok <;> rfl

theorem unify_eq_attemptOrUndo (n : Nat) (b : Bindings) (l r : Term) :
    b.unify n l r = (b.attemptOrUndo n l r).map outcome := by
  rw [unify_eq_attempt, attemptOrUndo, Option.map_map]
  congr 1
  funext x
  exact (outcome_or_undo x _).symm

theorem unifyTriple_eq_attemptTriple (n : Nat) (b : Bindings) (goal t : Triple) :
    b.unifyTriple n goal t = (b.attemptTriple n goal t).map outcome := by
  rw [unifyTriple, unifyAll, attemptTriple,
    unifyEach_eq_attemptEach (unify_eq_attemptOrUndo n) b goal.terms t.terms, Option.map_map]
  congr 1
  funext x
  exact (outcome_or_undo x _).symm

theorem Alike.refl (b : Bindings) : b.Alike b := ⟨rfl, rfl, fun _ => rfl⟩

theorem Alike.unwind (h : c.Alike d) (mark : Nat) : (c.unwind mark).Alike (d.unwind mark) := by
  have hcount : d.mark - mark = c.mark - mark := by
    unfold Bindings.mark
    rw [h.trail]
  refine ⟨?_, ?_, fun v => ?_⟩
  · rw [size_unwind, size_unwind, h.size]
  · rw [Bindings.unwind, Bindings.unwind, trail_undo, trail_undo, hcount, h.trail]
  · rw [Bindings.unwind, Bindings.unwind, value?_undo, value?_undo, hcount, h.trail, h.value]

theorem CycleFree.alike_attemptOrUndo (hb : b.CycleFree) (hr : r.isGround = true)
    (h : b.attemptOrUndo n l r = some (ok, d)) :
    ∃ c, b.AddsGround c ∧ c.Alike d ∧ (ok = true → c = d) := by
  obtain ⟨⟨ok', c⟩, hc, e⟩ := Option.map_eq_some_iff.1 h
  have hadds := hb.addsGround_attempt hr hc
  cases ok' with
  | true =>
    cases e
    exact ⟨_, hadds, .refl _, fun _ => rfl⟩
  | false =>
    cases e
    exact ⟨b, hb.addsNothing, hadds.unwind, fun e => by cases e⟩

/-- Up to a mismatch there are only more bindings. -/
theorem CycleFree.alike_attemptEach {ls rs : List Term} (hb : b.CycleFree)
    (hrs : ∀ r ∈ rs, r.isGround = true)
    (h : attemptEach (attemptOrUndo n) b ls rs = some (ok, d)) :
    ∃ c, b.AddsGround c ∧ c.Alike d := by
  induction ls generalizing b rs with
  | nil =>
    cases h
    exact ⟨_, hb.addsNothing, .refl _⟩
  | cons l ls ih =>
    cases rs with
    | nil =>
      cases h
      exact ⟨_, hb.addsNothing, .refl _⟩
    | cons r rs =>
      rw [List.forall_mem_cons] at hrs
      rw [attemptEach] at h
      split at h
      · next b1 h1 =>
        obtain ⟨c, hadds, -, e⟩ := hb.alike_attemptOrUndo hrs.1 h1
        obtain rfl := e rfl
        obtain ⟨c', hadds', hlike⟩ := ih hadds.cycleFree hrs.2 h
        exact ⟨c', hadds.trans hadds', hlike⟩
      · obtain ⟨c, hadds, hlike, -⟩ := hb.alike_attemptOrUndo hrs.1 h
        exact ⟨c, hadds, hlike⟩

/-- A triple that is rejected leaves the manager as it was. -/
theorem CycleFree.unchanged_of_mismatch (hb : b.CycleFree) (hu : u.isGround = true)
    (h : b.unifyTriple n goal u = some none) :
    ∃ c, b.attemptTriple n goal u = some (false, c) ∧ b.Alike c := by
  rw [unifyTriple_eq_attemptTriple] at h
  obtain ⟨⟨ok, c⟩, hc, hout⟩ := Option.map_eq_some_iff.1 h
  cases ok with
  | true => cases hout
  | false =>
    refine ⟨c, hc, ?_⟩
    obtain ⟨⟨ok, d⟩, hd, e⟩ := Option.map_eq_some_iff.1 hc
    obtain ⟨b1, hadds, hlike⟩ := hb.alike_attemptEach (Triple.isGround_iff.1 hu) hd
    cases ok with
    | true => cases e
    | false =>
      cases e
      exact hadds.unwind.trans (hlike.unwind _)

end Bindings

end TabledRules
