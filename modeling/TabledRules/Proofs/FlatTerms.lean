-- Flat terms. Where nothing builds a compound term, all that an evaluation comes
-- across is a ground term that was there from the start, a variable or a wildcard.
-- So a term is followed to its value in a number of steps that is known before.
import Mathlib
import TabledRules.Proofs.DirectSearch
import TabledRules.Proofs.GroundMatches
import TabledRules.Proofs.RegisterRuns

namespace TabledRules

/-! ## What there is from the start -/

/-- Finitely many ground terms. -/
structure Stock where
  terms : List Term
  ground : ∀ t ∈ terms, t.isGround = true

namespace Stock

/-- The ground ones of some terms. -/
def of (ts : List Term) : Stock := ⟨ts.filter Term.isGround, fun _ ht => List.of_mem_filter ht⟩

theorem mem_of {ts : List Term} {t : Term} : t ∈ (of ts).terms ↔ t ∈ ts ∧ t.isGround = true :=
  List.mem_filter

/-- No term of the stock has more terms inside each other. -/
def depth (S : Stock) : Nat := (S.terms.map Term.size).sum + 1

theorem size_lt_depth {S : Stock} {t : Term} (ht : t ∈ S.terms) : t.size < S.depth :=
  Nat.lt_succ_of_le (List.le_sum_of_mem (List.mem_map_of_mem ht))

end Stock

/-- A term of the stock, a variable of the evaluation or a wildcard. -/
def Term.Flat (S : Stock) (t : Term) : Prop := t ∈ S.terms ∨ t = .any ∨ ∃ v, t = .ref v

def Triple.Flat (S : Stock) (t : Triple) : Prop := ∀ u ∈ t.terms, u.Flat S

/-- A triple without variables: what a table holds. -/
def Triple.Settled (S : Stock) (t : Triple) : Prop := ∀ u ∈ t.terms, u ∈ S.terms ∨ u = .any

/-- All values of variables are flat. -/
def Bindings.Flat (S : Stock) (b : Bindings) : Prop := ∀ v t, b.value? v = some t → t.Flat S

section

variable {S T : Stock} {b b' : Bindings} {t l r : Term} {v n : Nat} {goal u : Triple}

theorem Term.flat_ref (S : Stock) (v : Nat) : (Term.ref v).Flat S := .inr (.inr ⟨v, rfl⟩)

theorem Term.flat_any (S : Stock) : Term.any.Flat S := .inr (.inl rfl)

theorem Triple.Settled.flat (h : u.Settled S) : u.Flat S :=
  fun t ht => (h t ht).imp_right .inl

theorem Triple.Settled.mono (h : u.Settled S) (hST : S.terms ⊆ T.terms) : u.Settled T :=
  fun t ht => (h t ht).imp_left (hST ·)

/-- A flat term that is followed to its end is ground, a wildcard or a variable. -/
theorem Term.Flat.shape (h : t.Flat S) :
    (t ∈ S.terms ∧ t.isGround = true) ∨ t = .any ∨ ∃ v, t = .ref v :=
  h.imp_left fun ht => ⟨ht, S.ground t ht⟩

/-! ## Values -/

namespace Bindings

theorem Flat.empty (S : Stock) (n : Nat) : Bindings.Flat S { size := n } := by
  intro v t h
  simp [value?] at h

theorem Flat.grow (h : b.Flat S) (n : Nat) : (b.grow n).Flat S := h

theorem Flat.newVar (h : b.Flat S) : b.newVar.2.Flat S := h

theorem Flat.bind (h : b.Flat S) (ht : t.Flat S) : (b.bind v t).Flat S := by
  intro u x hx
  unfold Bindings.bind value? at hx
  split at hx
  · rw [Std.TreeMap.getElem?_insert] at hx
    split at hx
    · cases hx
      exact ht
    · exact h u x hx
  · exact h u x hx

theorem Flat.follow (h : b.Flat S) (ht : t.Flat S) (n : Nat) : (b.follow n t).Flat S := by
  induction n generalizing t with
  | zero => unfold Bindings.follow; exact ht
  | succ n ih =>
    rw [Bindings.follow.eq_def]
    split
    · next _ k v e =>
      cases e
      split
      · next u hu => exact ih (h v u hu)
      · exact ht
    · exact ht

theorem Flat.deref (h : b.Flat S) (ht : t.Flat S) : (b.deref t).Flat S := h.follow ht _

/-- A ground term is its own value, which is found in as many steps as it has parts. -/
theorem deepDeref_of_isGround (b : Bindings) (ht : t.isGround = true) (hn : t.size ≤ n) :
    b.deepDeref n t = some t := by
  induction n generalizing t with
  | zero => exact absurd t.size_pos (by omega)
  | succ n ih =>
    rw [deepDeref, deref_of_isGround b ht]
    split
    · next f args =>
      have hargs : args.mapM (b.deepDeref n) = some args := by
        refine mapM_eq_some_iff.2 (List.forall₂_same.2 fun x hx => ?_)
        have hsize := Term.size_lt_app (f := f) hx
        exact ih (Term.isGround_app.1 ht x hx) (by omega)
      rw [hargs]
      rfl
    · rfl

/-- A flat term is followed to its value at once. -/
theorem Flat.deepDeref (h : b.Flat S) (ht : t.Flat S) (hn : S.depth ≤ n) :
    b.deepDeref n t = some (b.deref t) := by
  have hpos : 0 < S.depth := Nat.succ_pos _
  obtain ⟨k, rfl⟩ : ∃ k, n = k + 1 := ⟨n - 1, by omega⟩
  rw [Bindings.deepDeref]
  rcases (h.deref ht).shape with ⟨hmem, hground⟩ | hany | ⟨v, hv⟩
  · -- the end is ground, and its parts are their own values
    have hself := deepDeref_of_isGround b hground
      (Nat.le_of_lt (Nat.lt_of_lt_of_le (Stock.size_lt_depth hmem) hn))
    rwa [Bindings.deepDeref, deref_of_isGround b hground] at hself
  · rw [hany]
  · rw [hv]

theorem Flat.calledValue (h : b.Flat S) (hgoal : goal.Flat S) (hn : S.depth ≤ n) :
    goal.mapTerms? (b.deepDeref n) = some (goal.mapTerms b.deref) := by
  refine mapTerms?_eq_some_iff.2 ⟨?_, ?_, ?_⟩
  · exact h.deepDeref (hgoal _ (by simp [Triple.terms])) hn
  · exact h.deepDeref (hgoal _ (by simp [Triple.terms])) hn
  · exact h.deepDeref (hgoal _ (by simp [Triple.terms])) hn

theorem Flat.mapTerms (h : b.Flat S) (hgoal : goal.Flat S) : (goal.mapTerms b.deref).Flat S := by
  intro u hu
  obtain ⟨s, p, o⟩ := goal
  simp only [Triple.mapTerms, Triple.terms, List.mem_cons, List.not_mem_nil, or_false] at hu
  rcases hu with rfl | rfl | rfl
  · exact h.deref (hgoal _ (by simp [Triple.terms]))
  · exact h.deref (hgoal _ (by simp [Triple.terms]))
  · exact h.deref (hgoal _ (by simp [Triple.terms]))

/-- The value of a term is also what it is followed to with less. -/
theorem Flat.of_deepDeref (h : b.Flat S) (ht : t.Flat S) {x : Term}
    (hx : b.deepDeref n t = some x) : x = b.deref t := by
  have h1 := deepDeref_mono (Nat.le_max_left n S.depth) hx
  rw [h.deepDeref ht (Nat.le_max_right n S.depth)] at h1
  exact (Option.some.inj h1).symm

theorem Flat.of_calledValue (h : b.Flat S) (hgoal : goal.Flat S) {value : Triple}
    (hv : goal.mapTerms? (b.deepDeref n) = some value) : value = goal.mapTerms b.deref := by
  obtain ⟨h1, h2, h3⟩ := mapTerms?_eq_some_iff.1 hv
  rw [Triple.mapTerms, ← h.of_deepDeref (hgoal _ (by simp [Triple.terms])) h1,
    ← h.of_deepDeref (hgoal _ (by simp [Triple.terms])) h2,
    ← h.of_deepDeref (hgoal _ (by simp [Triple.terms])) h3]

/-! ## Output -/

/-- What is put out has no variables. -/
theorem Flat.resolve (h : b.Flat S) (ht : t.Flat S) {x : Term} (hx : b.resolve n t = some x) :
    x ∈ S.terms ∨ x = .any := by
  obtain ⟨y, hy, rfl⟩ := Option.map_eq_some_iff.1 hx
  obtain rfl := h.of_deepDeref ht hy
  rcases (h.deref ht).shape with ⟨hmem, hground⟩ | hany | ⟨v, hv⟩
  · rw [Term.mapVars_of_isGround _ _ hground]
    exact .inl hmem
  · rw [hany]
    exact .inr rfl
  · rw [hv]
    exact .inr rfl

theorem Flat.settled (h : b.Flat S) (hgoal : goal.Flat S)
    (hu : goal.mapTerms? (b.resolve n) = some u) : u.Settled S := by
  obtain ⟨h1, h2, h3⟩ := mapTerms?_eq_some_iff.1 hu
  intro x hx
  simp only [Triple.terms, List.mem_cons, List.not_mem_nil, or_false] at hx
  rcases hx with rfl | rfl | rfl
  · exact h.resolve (hgoal _ (by simp [Triple.terms])) h1
  · exact h.resolve (hgoal _ (by simp [Triple.terms])) h2
  · exact h.resolve (hgoal _ (by simp [Triple.terms])) h3

/-- The output comes out alike however deep it may look. -/
theorem Flat.solution (h : b.Flat S) (hgoal : goal.Flat S) :
    ∃ u, ∀ n, S.depth ≤ n → goal.mapTerms? (b.resolve n) = some u := by
  refine ⟨goal.mapTerms fun t => (b.deref t).mapVars fun _ => .any, fun n hn =>
    mapTerms?_eq_some_iff.2 ⟨?_, ?_, ?_⟩⟩
  · exact congrArg _ (h.deepDeref (hgoal _ (by simp [Triple.terms])) hn)
  · exact congrArg _ (h.deepDeref (hgoal _ (by simp [Triple.terms])) hn)
  · exact congrArg _ (h.deepDeref (hgoal _ (by simp [Triple.terms])) hn)

/-! ## Unification -/

/-- No binding of a unification builds a term. -/
theorem Solves.flat {eqs : List (Term × Term)} (hs : Solves b eqs b') (h : b.Flat S)
    (heqs : ∀ e ∈ eqs, (e.1.Flat S ∧ e.2.Flat S) ∨ (e.1.isGround = true ∧ e.2.isGround = true)) :
    b'.Flat S := by
  induction hs with
  | done b => exact h
  | free _ _ ih => exact ih h fun e he => heqs e (List.mem_cons_of_mem _ he)
  | same _ _ ih => exact ih h fun e he => heqs e (List.mem_cons_of_mem _ he)
  | @bind b b' l r t v eqs hends _ _ ih =>
    refine ih (h.bind ?_) fun e he => heqs e (List.mem_cons_of_mem _ he)
    rcases heqs _ List.mem_cons_self with ⟨hl, hr⟩ | ⟨hl, hr⟩
    · rcases hends with ⟨-, rfl⟩ | ⟨-, rfl⟩
      · exact h.deref hr
      · exact h.deref hl
    · -- two ground terms have no variable to bind
      rcases hends with ⟨hv, -⟩ | ⟨hv, -⟩
      · rw [deref_of_isGround _ hl] at hv
        rw [hv] at hl
        cases hl
      · rw [deref_of_isGround _ hr] at hv
        rw [hv] at hr
        cases hr
  | @parts b b' l r f as bs eqs hl hr _ _ ih =>
    refine ih h fun e he => ?_
    rcases List.mem_append.1 he with he | he
    · -- the parts of flat compound terms are ground
      have hground : (Term.app f as).isGround = true ∧ (Term.app f bs).isGround = true := by
        rcases heqs _ List.mem_cons_self with ⟨h1, h2⟩ | ⟨h1, h2⟩
        · constructor
          · rcases (h.deref h1).shape with ⟨-, hg⟩ | hany | ⟨v, hv⟩
            · rwa [← hl]
            · rw [hl] at hany; cases hany
            · rw [hl] at hv; cases hv
          · rcases (h.deref h2).shape with ⟨-, hg⟩ | hany | ⟨v, hv⟩
            · rwa [← hr]
            · rw [hr] at hany; cases hany
            · rw [hr] at hv; cases hv
        · rw [← hl, ← hr, deref_of_isGround _ h1, deref_of_isGround _ h2]
          exact ⟨h1, h2⟩
      exact .inr ⟨Term.isGround_app.1 hground.1 _ (List.of_mem_zip he).1,
        Term.isGround_app.1 hground.2 _ (List.of_mem_zip he).2⟩
    · exact heqs e (List.mem_cons_of_mem _ he)

theorem Flat.of_unify (h : b.Flat S) (hl : l.Flat S) (hr : r.Flat S)
    (hu : b.unify n l r = some (some b')) : b'.Flat S := by
  refine (solves_of_unify hu (.done b')).flat h fun e he => ?_
  obtain rfl := List.mem_singleton.1 he
  exact .inl ⟨hl, hr⟩

theorem Flat.of_unifyTriple (h : b.Flat S) (hgoal : goal.Flat S) (ht : u.Flat S)
    (hu : b.unifyTriple n goal u = some (some b')) : b'.Flat S :=
  (solves_of_unifyAll hu).flat h fun _ he =>
    .inl ⟨hgoal _ (List.of_mem_zip he).1, ht _ (List.of_mem_zip he).2⟩

/-- The unification of flat terms has an outcome. -/
theorem Flat.unify_ends (h : b.Flat S) (hl : l.Flat S) (hr : r.Flat S) (hn : S.depth ≤ n) :
    ∃ x, b.unify n l r = some x := by
  have hpos : 0 < S.depth := Nat.succ_pos _
  obtain ⟨k, rfl⟩ : ∃ k, n = k + 1 := ⟨n - 1, by omega⟩
  rcases (h.deref hr).shape with ⟨hmem, hground⟩ | hany | ⟨u, hu⟩
  · -- the right side is followed to a ground term
    obtain ⟨x, hx⟩ := Bindings.unify_ends (n := k + 1) b l hground
      (Nat.le_of_lt (Nat.lt_of_lt_of_le (Stock.size_lt_depth hmem) hn))
    rw [unify, deref_of_isGround b hground] at hx
    exact ⟨x, by rwa [unify]⟩
  · exact ⟨_, unify_wild (.inr (.inl hany))⟩
  · rcases (h.deref hl).shape with ⟨hmem, hground⟩ | hany | ⟨v, hv⟩
    · refine ⟨_, unify_refRight rfl hu ?_ ?_⟩
      · rintro (hw | ⟨x, hw⟩)
        · rw [hw] at hground; cases hground
        · rw [hw] at hground; cases hground
      · intro x hw
        rw [hw] at hground
        cases hground
    · exact ⟨_, unify_wild (.inl (.inl hany))⟩
    · exact ⟨_, unify_refs hv hu⟩

theorem Flat.unifyEach_ends {ls rs : List Term} (h : b.Flat S) (hls : ∀ x ∈ ls, x.Flat S)
    (hrs : ∀ x ∈ rs, x.Flat S) (hn : S.depth ≤ n) : ∃ x, unifyEach (unify n) b ls rs = some x := by
  induction ls generalizing b rs with
  | nil => exact ⟨some b, by simp [unifyEach]⟩
  | cons l ls ih =>
    cases rs with
    | nil => exact ⟨some b, by simp [unifyEach]⟩
    | cons r rs =>
      rw [List.forall_mem_cons] at hls hrs
      obtain ⟨x, hx⟩ := h.unify_ends hls.1 hrs.1 hn
      rw [unifyEach, hx]
      cases x with
      | none => exact ⟨none, rfl⟩
      | some b1 => exact ih (h.of_unify hls.1 hrs.1 hx) hls.2 hrs.2

theorem Flat.unifyTriple_ends (h : b.Flat S) (hgoal : goal.Flat S) (ht : u.Flat S) :
    ∃ x, ∀ n, S.depth ≤ n → b.unifyTriple n goal u = some x := by
  obtain ⟨x, hx⟩ := h.unifyEach_ends hgoal ht (Nat.le_refl _)
  exact ⟨x, fun n hn => unifyAll_mono hn hx⟩

end Bindings

end

/-! ## Registers -/

/-- All that the registers have is flat. -/
structure Registers.Flat (S : Stock) (g : Registers) : Prop where
  bindings : g.bindings.Flat S
  value : ∀ {x : Register} {t : Term}, g.value? x = some t → t.Flat S

/-- The operation builds no term, and its constant is one of the stock. -/
def Operation.Flat (S : Stock) : Operation → Prop
  | .getFunctor _ | .makeFunctor _ => False
  | .getConstant _ t | .putConstant _ t => t ∈ S.terms
  | _ => True

section

open Registers

variable {S : Stock} {clause : String} {n : Nat} {g g' : Registers} {t : Term} {op : Operation}

theorem Registers.Flat.update (h : g.Flat S) {y : Register} (hb : g'.bindings = g.bindings)
    (hval : ∀ x, g'.value? x = if x = y then some t else g.value? x) (ht : t.Flat S) : g'.Flat S := by
  refine ⟨hb ▸ h.bindings, fun {x u} hu => ?_⟩
  rw [hval] at hu
  split at hu
  · cases hu
    exact ht
  · exact h.value hu

theorem Registers.Flat.setArg (h : g.Flat S) {i : Nat} (hg : g.setArg clause i t = .ok g')
    (ht : t.Flat S) : g'.Flat S := by
  refine h.update ?_ (value?_setArg hg) ht
  unfold Registers.setArg at hg
  split at hg <;> cases hg
  rfl

theorem Registers.Flat.setTemp (h : g.Flat S) {i : Nat} (hg : g.setTemp clause i t = .ok g')
    (ht : t.Flat S) : g'.Flat S := by
  refine h.update ?_ (value?_setTemp hg) ht
  unfold Registers.setTemp at hg
  split at hg <;> cases hg
  rfl

theorem Registers.Flat.setVar (h : g.Flat S) {i : Nat} (hg : g.setVar clause i t = .ok g')
    (ht : t.Flat S) : g'.Flat S := by
  refine h.update ?_ (value?_setVar hg) ht
  unfold Registers.setVar at hg
  split at hg <;> cases hg
  rfl

theorem Registers.Flat.fresh (h : g.Flat S) : g.fresh.2.Flat S :=
  ⟨h.bindings.newVar, fun {x u} hu => h.value (x := x) (by rwa [← value?_bindings g.bindings.newVar.2])⟩

/-- What is unified, if it can be read. -/
theorem Registers.Flat.unify (h : g.Flat S) {x : Except Failure (Term × Term)}
    (hx : ∀ l r, x = .ok (l, r) → l.Flat S ∧ r.Flat S)
    (hg : g.unify n x = some (.ok (some g'))) : g'.Flat S := by
  refine ⟨?_, fun {y u} hu => h.value (x := y) (by rwa [← value?_unify hg])⟩
  rcases x with e | ⟨l, r⟩
  · cases hg
  · obtain ⟨hl, hr⟩ := hx l r rfl
    obtain ⟨b, hb, e⟩ := Option.map_eq_some_iff.1 hg
    cases b with
    | none => cases e
    | some b =>
      cases e
      exact h.bindings.of_unify hl hr hb

theorem Registers.Flat.unify_ends (h : g.Flat S) {x : Except Failure (Term × Term)}
    (hx : ∀ l r, x = .ok (l, r) → l.Flat S ∧ r.Flat S) :
    ∃ y, ∀ n, S.depth ≤ n → g.unify n x = some y := by
  rcases x with e | ⟨l, r⟩
  · exact ⟨_, fun _ _ => rfl⟩
  · obtain ⟨hl, hr⟩ := hx l r rfl
    obtain ⟨b, hb⟩ := h.bindings.unify_ends hl hr (Nat.le_refl _)
    refine ⟨.ok (b.map fun b => { g with bindings := b }), fun n hn => ?_⟩
    exact Option.map_eq_some_iff.2 ⟨b, Bindings.unify_mono hn hb, rfl⟩

/-- What two registers, or a register and a constant, are to be made equal by. -/
theorem flat_of_pair {x y : Except Failure Term} (hx : ∀ t, x = .ok t → t.Flat S)
    (hy : ∀ t, y = .ok t → t.Flat S) (l r : Term)
    (h : (do .ok (← x, ← y) : Except Failure (Term × Term)) = .ok (l, r)) :
    l.Flat S ∧ r.Flat S := by
  obtain ⟨a, ha, h⟩ := ok_of_bind h
  obtain ⟨c, hc, h⟩ := ok_of_bind h
  cases h
  exact ⟨hx _ ha, hy _ hc⟩

/-- An operation that builds no term keeps the registers flat. -/
theorem Operation.Flat.run (hop : op.Flat S) (h : g.Flat S)
    (hg : op.run clause n g = some (.ok (some g'))) : g'.Flat S := by
  have arg : ∀ {i t}, g.arg clause i = .ok t → t.Flat S := fun h1 => h.value (value?_of_arg h1)
  have temp : ∀ {i t}, g.temp clause i = .ok t → t.Flat S := fun h1 => h.value (value?_of_temp h1)
  have var : ∀ {i t}, g.var clause i = .ok t → t.Flat S := fun h1 => h.value (value?_of_var h1)
  cases op with
  | testBound i =>
    obtain ⟨a, -, hg⟩ := ok_of_bind (Option.some.inj hg)
    split at hg <;> cases hg
    exact h
  | testUnbound i =>
    obtain ⟨a, -, hg⟩ := ok_of_bind (Option.some.inj hg)
    split at hg <;> cases hg
    exact h
  | getConstant i c =>
    refine h.unify (fun l r e => ?_) hg
    obtain ⟨a, ha, e⟩ := ok_of_bind e
    cases e
    exact ⟨arg ha, .inl hop⟩
  | unifyVariable slot i => exact h.unify (flat_of_pair (fun _ => arg) fun _ => var) hg
  | unifyTemp j i => exact h.unify (flat_of_pair (fun _ => arg) fun _ => temp) hg
  | getVariable slot i =>
    obtain ⟨a, ha, hg⟩ := ok_of_bind (Option.some.inj hg)
    obtain ⟨g1, h1, h2⟩ := ok_of_map hg
    cases h2
    exact h.setVar h1 (arg ha)
  | getTemp j i =>
    obtain ⟨a, ha, hg⟩ := ok_of_bind (Option.some.inj hg)
    obtain ⟨g1, h1, h2⟩ := ok_of_map hg
    cases h2
    exact h.setTemp h1 (arg ha)
  | getFunctor shape => exact hop.elim
  | makeFunctor shape => exact hop.elim
  | putNewVariable slot i =>
    obtain ⟨g1, h1, hg⟩ := ok_of_bind (Option.some.inj hg)
    obtain ⟨g2, h2, h3⟩ := ok_of_map hg
    cases h3
    exact (h.fresh.setVar h1 (Term.flat_ref S _)).setArg h2 (Term.flat_ref S _)
  | putVariable slot i =>
    obtain ⟨a, ha, hg⟩ := ok_of_bind (Option.some.inj hg)
    obtain ⟨g1, h1, h2⟩ := ok_of_map hg
    cases h2
    exact h.setArg h1 (var ha)
  | putDerefVariable slot i =>
    obtain ⟨a, ha, hg⟩ := ok_of_bind (Option.some.inj hg)
    obtain ⟨g1, h1, h2⟩ := ok_of_map hg
    cases h2
    exact h.setArg h1 (h.bindings.deref (var ha))
  | putTemp j i =>
    obtain ⟨a, ha, hg⟩ := ok_of_bind (Option.some.inj hg)
    obtain ⟨g1, h1, h2⟩ := ok_of_map hg
    cases h2
    exact h.setArg h1 (temp ha)
  | putConstant i c =>
    obtain ⟨g1, h1, h2⟩ := ok_of_map (Option.some.inj hg)
    cases h2
    exact h.setArg h1 (.inl hop)
  | clearArg i =>
    obtain ⟨g1, h1, h2⟩ := ok_of_map (Option.some.inj hg)
    cases h2
    exact h.fresh.setArg h1 (Term.flat_ref S _)

/-- An operation that builds no term has an outcome. -/
theorem Operation.Flat.run_ends (hop : op.Flat S) (clause : String) (h : g.Flat S) :
    ∃ y, ∀ n, S.depth ≤ n → op.run clause n g = some y := by
  have arg : ∀ {i t}, g.arg clause i = .ok t → t.Flat S := fun h1 => h.value (value?_of_arg h1)
  have temp : ∀ {i t}, g.temp clause i = .ok t → t.Flat S := fun h1 => h.value (value?_of_temp h1)
  have var : ∀ {i t}, g.var clause i = .ok t → t.Flat S := fun h1 => h.value (value?_of_var h1)
  cases op with
  | getConstant i c =>
    refine h.unify_ends fun l r e => ?_
    obtain ⟨a, ha, e⟩ := ok_of_bind e
    cases e
    exact ⟨arg ha, .inl hop⟩
  | unifyVariable slot i => exact h.unify_ends (flat_of_pair (fun _ => arg) fun _ => var)
  | unifyTemp j i => exact h.unify_ends (flat_of_pair (fun _ => arg) fun _ => temp)
  | _ => exact ⟨_, fun _ _ => rfl⟩

end

end TabledRules
