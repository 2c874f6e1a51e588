-- Unification in place: one manager is changed as far as the terms match, and what
-- was bound on the way to a mismatch is still there. The trail tells it from what
-- was bound before. Where variables are bound in a circle, to follow one of them
-- has no end, and neither has a unification that comes across it.
import Mathlib.Data.Finset.Card
import Mathlib.Data.Finset.Range
import TabledRules.Proofs.Trails

namespace TabledRules.Bindings

variable {b b' c : Bindings} {t l r : Term} {n v : Nat} {ok : Bool}

/-! ## Attempts -/

/-- As `unifyEach`, with the bindings that there are at the end also where a pair does not
match. -/
def attemptEach (one : Bindings → Term → Term → Option (Bool × Bindings)) :
    Bindings → List Term → List Term → Option (Bool × Bindings)
  | b, l :: ls, r :: rs =>
    match one b l r with
    | some (true, b) => attemptEach one b ls rs
    | other => other
  | b, _, _ => some (true, b)

/-- As `unify`, on one manager that is changed in place: whether the terms match, and what the
manager is then, with the bindings that were made before a mismatch was met. -/
def attempt : Nat → Bindings → Term → Term → Option (Bool × Bindings)
  | 0, _, _, _ => none
  | n + 1, b, l, r =>
    match b.deref l, b.deref r with
    | .any, _ | .var _, _ | _, .any | _, .var _ => some (true, b)
    | .ref v, .ref u => some (true, b.merge v u)
    | .ref v, t => some (true, b.bind v t)
    | t, .ref v => some (true, b.bind v t)
    | .node x, .node y => some (x = y, b)
    | .app f as, .app g bs =>
      if f = g ∧ as.length = bs.length then attemptEach (attempt n) b as bs else some (false, b)
    | .node _, .app _ _ | .app _ _, .node _ => some (false, b)

/-- What a unification comes to: the bindings of an attempt that succeeds. -/
def outcome (x : Bool × Bindings) : Option Bindings := if x.1 then some x.2 else none

theorem unifyEach_eq_attemptEach {one : Bindings → Term → Term → Option (Option Bindings)}
    {try1 : Bindings → Term → Term → Option (Bool × Bindings)}
    (hone : ∀ b l r, one b l r = (try1 b l r).map outcome) (b : Bindings) (ls rs : List Term) :
    unifyEach one b ls rs = (attemptEach try1 b ls rs).map outcome := by
  induction ls generalizing b rs with
  | nil => rfl
  | cons l ls ih =>
    cases rs with
    | nil => rfl
    | cons r rs =>
      rw [unifyEach, attemptEach, hone]
      rcases try1 b l r with _ | ⟨_ | _, c⟩
      · rfl
      · rfl
      · exact ih c rs

/-- The unification that the machine uses is the outcome of the one in place. -/
theorem unify_eq_attempt (n : Nat) (b : Bindings) (l r : Term) :
    b.unify n l r = (b.attempt n l r).map outcome := by
  induction n generalizing b l r with
  | zero => rfl
  | succ n ih =>
    rw [unify, attempt]
    generalize b.deref l = l', b.deref r = r'
    cases l' <;> cases r' <;> try rfl
    case node.node x y => by_cases e : x = y <;> simp [e, outcome]
    case app.app f as g bs =>
      simp only
      split
      · exact unifyEach_eq_attemptEach ih b as bs
      · rfl

theorem unify_of_attempt (h : b.attempt n l r = some (true, c)) : b.unify n l r = some (some c) := by
  rw [unify_eq_attempt, h]
  rfl

theorem attempt_of_unify (h : b.unify n l r = some none) : ∃ c, b.attempt n l r = some (false, c) := by
  rw [unify_eq_attempt] at h
  obtain ⟨⟨ok, c⟩, hc, hnone⟩ := Option.map_eq_some_iff.1 h
  cases ok with
  | false => exact ⟨c, hc⟩
  | true => cases hnone

/-! ## Chains that end -/

/-- The chain of variables from a term has an end, however long it is. -/
def Ends (b : Bindings) (t : Term) : Prop := ∃ n, b.IsEnd (b.follow n t)

theorem follow_follow (b : Bindings) (n k : Nat) (t : Term) :
    b.follow k (b.follow n t) = b.follow (n + k) t := by
  induction n generalizing t with
  | zero => cases t <;> simp [follow]
  | succ n ih =>
    cases t with
    | ref v =>
      rw [Nat.succ_add, follow, follow]
      cases hv : b.value? v with
      | none => exact follow_of_isEnd k (isEnd_ref.2 hv)
      | some t => exact ih t
    | _ => simp only [follow_of_ne_ref, ne_eq, reduceCtorEq, not_false_eq_true, implies_true]

/-- A chain that has an end has it within as many steps as there are variables: in a longer one
a variable would come again, and with it all that comes after. -/
theorem Ends.isEnd_deref (hlt : ∀ {v t}, b.value? v = some t → v < b.size) (h : b.Ends t) :
    b.IsEnd (b.deref t) := by
  classical
  obtain ⟨n, hn, hmin⟩ : ∃ n, b.IsEnd (b.follow n t) ∧ ∀ i < n, ¬ b.IsEnd (b.follow i t) :=
    ⟨Nat.find h, Nat.find_spec h, fun _ => Nat.find_min h⟩
  by_cases hle : n ≤ b.size
  · obtain ⟨k, hk⟩ := Nat.exists_eq_add_of_le hle
    rw [deref, hk, ← follow_follow, follow_of_isEnd k hn]
    exact hn
  · exfalso
    have bound : ∀ i < n, ∃ v < b.size, b.follow i t = .ref v := by
      intro i hi
      obtain ⟨v, hv⟩ := not_forall.1 (hmin i hi)
      obtain ⟨hv, hsome⟩ := Classical.not_imp.1 hv
      obtain ⟨u, hu⟩ := Option.ne_none_iff_exists'.1 hsome
      exact ⟨v, hlt hu, hv⟩
    -- the variables of the chain are too many to be different
    choose! var hvar using bound
    obtain ⟨i, hi, j, hj, hne, hsame⟩ := Finset.exists_ne_map_eq_of_card_lt_of_maps_to
      (s := Finset.range (b.size + 1)) (t := Finset.range b.size) (f := var) (by simp)
      (fun i hi => by
        rw [Finset.mem_coe, Finset.mem_range] at hi
        exact Finset.mem_coe.2 (Finset.mem_range.2 (hvar i (by omega)).1))
    rw [Finset.mem_range] at hi hj
    have again : ∀ {i j}, i < j → j < n → b.follow i t = b.follow j t → False := by
      intro i j hij hj hsame
      refine hmin (i + (n - j)) (by omega) ?_
      rw [← follow_follow, hsame, follow_follow, Nat.add_sub_cancel' (Nat.le_of_lt hj)]
      exact hn
    have hfollow : b.follow i t = b.follow j t := by
      rw [(hvar i (by omega)).2, (hvar j (by omega)).2, hsame]
    rcases Nat.lt_or_gt_of_ne hne with h | h
    · exact again h (by omega) hfollow
    · exact again h (by omega) hfollow.symm

/-- The chains end in every pair of two lists, each pair under the bindings that those before it
leave. -/
def ChainsEndEach (ends : Bindings → Term → Term → Prop)
    (one : Bindings → Term → Term → Option (Bool × Bindings)) :
    Bindings → List Term → List Term → Prop
  | b, l :: ls, r :: rs =>
    ends b l r ∧ ∀ c, one b l r = some (true, c) → ChainsEndEach ends one c ls rs
  | _, _, _ => True

/-- Every chain of variables that an attempt follows has an end. -/
def ChainsEnd : Nat → Bindings → Term → Term → Prop
  | 0, _, _, _ => True
  | n + 1, b, l, r =>
    b.Ends l ∧ b.Ends r ∧
      ∀ f as bs, b.deref l = .app f as → b.deref r = .app f bs → as.length = bs.length →
        ChainsEndEach (ChainsEnd n) (attempt n) b as bs

theorem Solves.ordered {eqs : List (Term × Term)} (h : Solves b eqs b') (hb : b.Ordered) :
    b'.Ordered := by
  induction h with
  | done b => exact hb
  | bind _ hold _ ih => exact ih (hb.bind hold)
  | free _ _ ih | same _ _ ih | parts _ _ _ _ ih => exact ih hb

theorem Ordered.chainsEndEach {ends : Bindings → Term → Term → Prop} {ls rs : List Term}
    (hone : ∀ {b l r}, Ordered b → ends b l r) (hb : b.Ordered) :
    ChainsEndEach ends (attempt n) b ls rs := by
  induction ls generalizing b rs with
  | nil => trivial
  | cons l ls ih =>
    cases rs with
    | nil => trivial
    | cons r rs =>
      refine ⟨hone hb, fun c hc => ih ?_⟩
      exact (solves_of_unify (unify_of_attempt hc) (.done c)).ordered hb

/-- Where variables are bound to older ones only, all chains end. -/
theorem Ordered.chainsEnd (hb : b.Ordered) : b.ChainsEnd n l r := by
  induction n generalizing b l r with
  | zero => trivial
  | succ n ih =>
    exact ⟨⟨_, isEnd_deref hb l⟩, ⟨_, isEnd_deref hb r⟩, fun f as bs _ _ _ => hb.chainsEndEach ih⟩

/-! ## What an attempt adds -/

/-- Bindings were added, above those that there were. -/
structure Adds (b c : Bindings) : Prop extends b.Since c where
  recorded : c.Recorded
  size_eq : c.size = b.size

theorem Recorded.adds_nothing (hb : b.Recorded) : b.Adds b := ⟨.refl b, hb, rfl⟩

theorem Adds.trans {d : Bindings} (h : b.Adds c) (h' : c.Adds d) : b.Adds d :=
  ⟨h.toSince.trans h'.toSince, h'.recorded, h'.size_eq.trans h.size_eq⟩

theorem Recorded.adds_bind (hb : b.Recorded) (hv : b.value? v = none) (t : Term) :
    b.Adds (b.bind v t) :=
  ⟨.bind hv t, hb.bind hv t, size_bind b v t⟩

theorem Recorded.adds_merge {u : Nat} (hb : b.Recorded) (hv : b.value? v = none)
    (hu : b.value? u = none) : b.Adds (b.merge v u) := by
  unfold merge
  split
  · exact hb.adds_nothing
  · split
    · exact hb.adds_bind hv _
    · exact hb.adds_bind hu _

theorem Recorded.adds_attemptEach {ends : Bindings → Term → Term → Prop}
    {one : Bindings → Term → Term → Option (Bool × Bindings)}
    (hone : ∀ {b l r ok c}, Recorded b → ends b l r → one b l r = some (ok, c) → b.Adds c)
    {ls rs : List Term} (hb : b.Recorded) (hends : ChainsEndEach ends one b ls rs)
    (h : attemptEach one b ls rs = some (ok, c)) : b.Adds c := by
  induction ls generalizing b rs with
  | nil => cases h; exact hb.adds_nothing
  | cons l ls ih =>
    cases rs with
    | nil => cases h; exact hb.adds_nothing
    | cons r rs =>
      rw [attemptEach] at h
      split at h
      · next b1 h1 =>
        have hadds := hone hb hends.1 h1
        exact hadds.trans (ih hadds.recorded (hends.2 b1 h1) h)
      · exact hone hb hends.1 h

/-- An attempt only adds bindings, whether it succeeds or not: what a chain ends with is not
bound. -/
theorem Recorded.adds_attempt (hb : b.Recorded) (hends : b.ChainsEnd n l r)
    (h : b.attempt n l r = some (ok, c)) : b.Adds c := by
  induction n generalizing b l r ok c with
  | zero => cases h
  | succ n ih =>
    obtain ⟨hendsl, hendsr, hparts⟩ := hends
    have hendl := hendsl.isEnd_deref hb.bound_lt
    have hendr := hendsr.isEnd_deref hb.bound_lt
    rw [attempt] at h
    split at h
    case h_5 v u hl hr => cases h; exact hb.adds_merge (hendl v hl) (hendr u hr)
    case h_6 v hl _ _ _ => cases h; exact hb.adds_bind (hendl v hl) _
    case h_7 v hr _ _ _ => cases h; exact hb.adds_bind (hendr v hr) _
    case h_9 f as g bs hl hr =>
      split at h
      · next hshape =>
        obtain ⟨rfl, hlen⟩ := hshape
        exact hb.adds_attemptEach (fun hb1 hends1 h1 => ih hb1 hends1 h1)
          (hparts f as bs hl hr hlen) h
      · cases h; exact hb.adds_nothing
    all_goals cases h; exact hb.adds_nothing

/-- When the trail is unwound after an attempt, nothing has changed. -/
theorem Recorded.unwind_attempt (hb : b.Recorded) (hends : b.ChainsEnd n l r)
    (h : b.attempt n l r = some (ok, c)) : b.Alike (c.unwind b.mark) := by
  have hadds := hb.adds_attempt hends h
  obtain ⟨htrail, hvalue⟩ := hadds.toSince.unwind hb hadds.recorded
  exact ⟨(size_unwind c b.mark).trans hadds.size_eq, htrail, hvalue⟩

theorem Trailed.unwind_attempt (hb : b.Trailed) (h : b.attempt n l r = some (ok, c)) :
    b.Alike (c.unwind b.mark) :=
  hb.recorded.unwind_attempt hb.ordered.chainsEnd h

end TabledRules.Bindings
