-- The trail of bindings. It names the variables that are bound, each of them
-- once, so that bindings can be taken back to where they were and made again
-- from a snapshot.
import TabledRules.Proofs.OperationRuns

namespace TabledRules

namespace Bindings

variable {a b b' o : Bindings} {v n k : Nat} {t : Term}

/-- The trail names the variables that are bound, each of them once. -/
structure Trailed (b : Bindings) : Prop where
  ordered : b.Ordered
  nodup : b.trail.Nodup
  mem_iff : ∀ v, v ∈ b.trail ↔ (b.value? v).isSome = true

/-- The trail names the variables that are bound, each of them once, and they exist. What they are
bound to does not matter. -/
structure Recorded (b : Bindings) : Prop where
  bound_lt : ∀ {v t}, b.value? v = some t → v < b.size
  nodup : b.trail.Nodup
  mem_iff : ∀ v, v ∈ b.trail ↔ (b.value? v).isSome = true

/-- There is no variable, so it has no value. -/
theorem Trailed.value?_of_le (h : b.Trailed) (hv : b.size ≤ v) : b.value? v = none := by
  cases hval : b.value? v with
  | none => rfl
  | some t => exact absurd (h.ordered.bound_lt hval) (Nat.not_lt.2 hv)

theorem Trailed.recorded (h : b.Trailed) : b.Recorded := ⟨h.ordered.bound_lt, h.nodup, h.mem_iff⟩

/-- `b` came from `o`: there may be more variables, and more bindings on top of the trail. -/
structure Since (o b : Bindings) : Prop extends o.Extends b where
  trail : o.trail <:+ b.trail

/-- The same variables with the same values, bound in the same order. -/
structure Alike (a b : Bindings) : Prop where
  size : b.size = a.size
  trail : b.trail = a.trail
  value : ∀ v, b.value? v = a.value? v

theorem Alike.trans (h : a.Alike b) (h' : b.Alike b') : a.Alike b' :=
  ⟨h'.size.trans h.size, h'.trail.trans h.trail, fun v => (h'.value v).trans (h.value v)⟩

/-! ## New variables and new bindings -/

theorem Trailed.empty (n : Nat) : (⟨n, ∅, []⟩ : Bindings).Trailed :=
  ⟨.empty n, List.nodup_nil, fun v => by simp⟩

theorem Trailed.grow (h : b.Trailed) (n : Nat) : (b.grow n).Trailed :=
  ⟨h.ordered.grow n, h.nodup, h.mem_iff⟩

theorem Trailed.newVar (h : b.Trailed) : b.newVar.2.Trailed :=
  ⟨h.ordered.newVar, h.nodup, h.mem_iff⟩

theorem Recorded.empty (n : Nat) : (⟨n, ∅, []⟩ : Bindings).Recorded := (Trailed.empty n).recorded

theorem Recorded.newVar (h : b.Recorded) : b.newVar.2.Recorded :=
  ⟨fun hv => Nat.lt_succ_of_lt (h.bound_lt hv), h.nodup, h.mem_iff⟩

/-- An unbound variable is bound. A variable that does not exist is left alone. -/
theorem Recorded.bind (h : b.Recorded) (hv : b.value? v = none) (t : Term) :
    (b.bind v t).Recorded := by
  by_cases hlt : v < b.size
  · have hvalue := value?_bind hlt t
    have htrail : (b.bind v t).trail = v :: b.trail := by simp [Bindings.bind, hlt]
    have hnot : v ∉ b.trail := by simp [h.mem_iff, hv]
    refine ⟨fun {u x} hu => ?_, ?_, fun u => ?_⟩
    · rw [hvalue] at hu
      rw [size_bind]
      split at hu
      · next e => exact e ▸ hlt
      · exact h.bound_lt hu
    · rw [htrail]
      exact List.nodup_cons.2 ⟨hnot, h.nodup⟩
    · rw [htrail, hvalue, List.mem_cons, h.mem_iff]
      by_cases e : v = u
      · simp [e]
      · simp [e, Ne.symm e]
  · rw [Bindings.bind, if_neg hlt]
    exact h

/-- An unbound variable is bound to a term that is no younger variable. -/
theorem Trailed.bind (h : b.Trailed) (hv : b.value? v = none) (ht : ∀ u, t = .ref u → u < v) :
    (b.bind v t).Trailed :=
  have hrec := h.recorded.bind hv t
  ⟨h.ordered.bind ht, hrec.nodup, hrec.mem_iff⟩

theorem Since.refl (b : Bindings) : b.Since b := ⟨.refl b, List.suffix_rfl⟩

theorem Since.trans (h : o.Since b) (h' : b.Since b') : o.Since b' :=
  ⟨h.toExtends.trans h'.toExtends, h.trail.trans h'.trail⟩

theorem Since.grow (b : Bindings) (n : Nat) : b.Since (b.grow n) := ⟨.grow b n, List.suffix_rfl⟩

theorem Since.newVar (b : Bindings) : b.Since b.newVar.2 := ⟨.newVar b, List.suffix_rfl⟩

theorem Since.bind (hv : b.value? v = none) (t : Term) : b.Since (b.bind v t) := by
  by_cases hlt : v < b.size
  · refine ⟨⟨by simp, fun {u x} hu => ?_⟩, ?_⟩
    · have hne : v ≠ u := by
        rintro rfl
        rw [hv] at hu
        cases hu
      rw [value?_bind hlt, if_neg hne, hu]
    · simp [Bindings.bind, hlt]
  · rw [Bindings.bind, if_neg hlt]
    exact .refl b

/-- Unification binds unbound variables. -/
theorem Solves.trailed {eqs : List (Term × Term)} (h : Solves b eqs b') (hb : b.Trailed) :
    b'.Trailed ∧ b.Since b' := by
  induction h with
  | done b => exact ⟨hb, .refl b⟩
  | free _ _ ih => exact ih hb
  | same _ _ ih => exact ih hb
  | @bind b b' l r t v eqs hside hold _ ih =>
    have hv : b.value? v = none := by
      rcases hside with ⟨hl, -⟩ | ⟨hr, -⟩
      · exact value?_of_deref_eq_ref hb.ordered hl
      · exact value?_of_deref_eq_ref hb.ordered hr
    obtain ⟨h1, h2⟩ := ih (hb.bind hv hold)
    exact ⟨h1, (Since.bind hv t).trans h2⟩
  | parts _ _ _ _ ih => exact ih hb

theorem Trailed.unify {l r : Term} (hb : b.Trailed) (h : b.unify n l r = some (some b')) :
    b'.Trailed ∧ b.Since b' := (solves_of_unify h (.done b')).trailed hb

theorem Trailed.unifyAll {ls rs : List Term} (hb : b.Trailed)
    (h : b.unifyAll n ls rs = some (some b')) : b'.Trailed ∧ b.Since b' :=
  (solves_of_unifyAll h).trailed hb

/-! ## Going back -/

theorem size_undo (n : Nat) (b : Bindings) : (undo n b).size = b.size := by
  induction n generalizing b with
  | zero => rfl
  | succ n ih =>
    obtain ⟨size, values, trail⟩ := b
    cases trail with
    | nil => rfl
    | cons v trail => exact ih _

theorem trail_undo (n : Nat) (b : Bindings) : (undo n b).trail = b.trail.drop n := by
  induction n generalizing b with
  | zero => rfl
  | succ n ih =>
    obtain ⟨size, values, trail⟩ := b
    cases trail with
    | nil => rfl
    | cons v trail => exact ih _

theorem value?_undo (n : Nat) (b : Bindings) (v : Nat) :
    (undo n b).value? v = if v ∈ b.trail.take n then none else b.value? v := by
  induction n generalizing b with
  | zero => simp [undo]
  | succ n ih =>
    obtain ⟨size, values, trail⟩ := b
    cases trail with
    | nil => simp [undo]
    | cons u trail =>
      rw [undo, ih]
      by_cases hv : v ∈ trail.take n
      · simp [hv]
      · by_cases e : v = u
        · simp [e, value?]
        · simp [hv, e, value?, Std.TreeMap.getElem?_erase, Ne.symm e]

/-- Bindings that are taken back to where they were once. -/
theorem Since.unwind (h : o.Since b) (ho : o.Recorded) (hb : b.Recorded) :
    (b.unwind o.mark).trail = o.trail ∧ ∀ v, (b.unwind o.mark).value? v = o.value? v := by
  obtain ⟨new, hnew⟩ := h.trail
  have hcount : b.mark - o.mark = new.length := by simp [mark, ← hnew]
  have hdrop : b.trail.drop new.length = o.trail := by simp [← hnew]
  have htake : b.trail.take new.length = new := by simp [← hnew]
  refine ⟨?_, fun v => ?_⟩
  · rw [Bindings.unwind, trail_undo, hcount, hdrop]
  · rw [Bindings.unwind, value?_undo, hcount, htake]
    split
    · next hv =>
      have hdisjoint := hb.nodup
      rw [← hnew, List.nodup_append] at hdisjoint
      have hnot : v ∉ o.trail := fun hv' => hdisjoint.2.2 v hv v hv' rfl
      rw [ho.mem_iff] at hnot
      exact (by simpa using hnot : o.value? v = none).symm
    · next hv =>
      cases hval : o.value? v with
      | some t => exact h.value hval
      | none =>
        have hnot : v ∉ b.trail := by
          rw [← hnew, List.mem_append, ho.mem_iff]
          simp [hv, hval]
        rw [hb.mem_iff] at hnot
        simpa using hnot

theorem size_unwind (b : Bindings) (n : Nat) : (b.unwind n).size = b.size := size_undo _ b

theorem value?_of_unwind {mark : Nat} (h : (b.unwind mark).value? v = some t) :
    b.value? v = some t := by
  rw [unwind, value?_undo] at h
  split at h
  · cases h
  · exact h

theorem Ordered.unwind (hb : b.Ordered) (mark : Nat) : (b.unwind mark).Ordered :=
  ⟨fun hv => (size_unwind b mark).symm ▸ hb.bound_lt (value?_of_unwind hv),
    fun hv => hb.older (value?_of_unwind hv)⟩

/-- The trail that is left names what is still bound: no variable stood on it twice. -/
theorem Recorded.unwind (hb : b.Recorded) (mark : Nat) : (b.unwind mark).Recorded where
  bound_lt := fun hv => (size_unwind b mark).symm ▸ hb.bound_lt (value?_of_unwind hv)
  nodup := by
    rw [Bindings.unwind, trail_undo]
    exact hb.nodup.drop
  mem_iff := fun v => by
    have hsplit := List.take_append_drop (b.mark - mark) b.trail
    have hdisjoint := hb.nodup
    rw [← hsplit, List.nodup_append] at hdisjoint
    rw [Bindings.unwind, trail_undo, value?_undo]
    split
    · next hv => simpa using fun hd => hdisjoint.2.2 v hv v hd rfl
    · next hv =>
      rw [← hb.mem_iff]
      conv_rhs => rw [← hsplit, List.mem_append]
      simp [hv]

theorem Trailed.unwind (hb : b.Trailed) (mark : Nat) : (b.unwind mark).Trailed :=
  have hrec := hb.recorded.unwind mark
  ⟨hb.ordered.unwind mark, hrec.nodup, hrec.mem_iff⟩

theorem value?_reclaim (b : Bindings) (n v : Nat) :
    (b.reclaim n).value? v = if v < n then b.value? v else none := by
  unfold reclaim value?
  rw [Std.TreeMap.getElem?_filter']
  cases b.values[v]? with
  | none => simp
  | some t => simp [Option.filter]

/-- To go back to old bindings is to unwind the trail to its old length, and to give up what
variables are not needed. -/
theorem Since.rewind (h : o.Since b) (ho : o.Trailed) (hb : b.Trailed) (k : Nat) :
    ((b.unwind o.mark).reclaim (max o.size k)).Alike (o.grow (min b.size k)) := by
  obtain ⟨htrail, hvalue⟩ := h.unwind ho.recorded hb.recorded
  have hle := h.size_le
  refine ⟨?_, htrail.symm, fun v => ?_⟩
  · simp only [size_grow, reclaim, size_unwind]
    omega
  · rw [value?_grow, value?_reclaim, hvalue]
    split
    · rfl
    · next hv =>
      have hv : o.size ≤ v := by omega
      exact ho.value?_of_le hv

/-! ## Snapshots -/

/-- What is bound again from a snapshot: the variables `l`, the last one first, get the values
that `f` has for them. -/
theorem replay_spec (f : Nat → Option Term) {l : List Nat} {x y : Bindings}
    (h : ∀ v ∈ l, (f v).isSome = true ∧ v < x.size)
    (hy : y = (l.reverse.filterMap fun v => (f v).map (v, ·)).foldl (fun b p => b.bind p.1 p.2) x) :
    y.size = x.size ∧ y.trail = l ++ x.trail ∧
      ∀ v, y.value? v = if v ∈ l then f v else x.value? v := by
  induction l generalizing y with
  | nil => simp [hy]
  | cons v l ih =>
    obtain ⟨hsome, hlt⟩ := h v List.mem_cons_self
    obtain ⟨t, ht⟩ := Option.isSome_iff_exists.1 hsome
    obtain ⟨h1, h2, h3⟩ := ih (fun u hu => h u (List.mem_cons_of_mem _ hu)) rfl
    simp only [List.reverse_cons, List.filterMap_append, List.filterMap_cons, ht, Option.map_some,
      List.filterMap_nil, List.foldl_append, List.foldl_cons, List.foldl_nil] at hy
    generalize (l.reverse.filterMap fun v => (f v).map (v, ·)).foldl
      (fun b p => b.bind p.1 p.2) x = z at h1 h2 h3 hy
    subst hy
    rw [← h1] at hlt
    refine ⟨by rw [size_bind, h1], ?_, fun u => ?_⟩
    · rw [Bindings.bind, if_pos hlt, h2]
      rfl
    · rw [value?_bind hlt, h3]
      by_cases e : v = u
      · simp [← e, ht]
      · simp [e, Ne.symm e]

/-- When the whole trail is unwound no variable is bound. -/
theorem Trailed.unwind_all (hb : b.Trailed) :
    (b.unwind 0).trail = [] ∧ ∀ v, (b.unwind 0).value? v = none := by
  have hmark : b.mark - 0 = b.trail.length := rfl
  refine ⟨by rw [Bindings.unwind, trail_undo, hmark, List.drop_length], fun v => ?_⟩
  rw [Bindings.unwind, value?_undo, hmark, List.take_length]
  split
  · rfl
  · next hv =>
    rw [hb.mem_iff] at hv
    simpa using hv

theorem Trailed.of_unbound (htrail : b.trail = []) (hvalue : ∀ v, b.value? v = none) :
    b.Trailed := by
  refine ⟨⟨fun h => ?_, fun h => ?_⟩, htrail ▸ List.nodup_nil, fun v => by simp [htrail, hvalue]⟩
  · rw [hvalue] at h
    cases h
  · rw [hvalue] at h
    cases h

/-- Bindings that are made again from a snapshot, after all others were undone. -/
theorem Trailed.restore (ho : o.Trailed) (hb : b.Trailed) (hle : o.size ≤ b.size) :
    (b.restore o.snapshot).Alike (o.grow b.size) := by
  obtain ⟨htrail, hnone⟩ := hb.unwind_all
  have hvars : ∀ v ∈ o.trail, (o.value? v).isSome = true ∧ v < (b.unwind 0).size := by
    intro v hv
    have hsome := (ho.mem_iff v).1 hv
    obtain ⟨t, ht⟩ := Option.isSome_iff_exists.1 hsome
    refine ⟨hsome, ?_⟩
    rw [size_unwind]
    exact Nat.lt_of_lt_of_le (ho.ordered.bound_lt ht) hle
  obtain ⟨h1, h2, h3⟩ := replay_spec o.value? (y := b.restore o.snapshot) hvars rfl
  refine ⟨?_, ?_, fun v => ?_⟩
  · rw [h1, size_unwind, size_grow, Nat.max_eq_right hle]
  · rw [h2, htrail, List.append_nil]
    rfl
  · rw [value?_grow, h3, hnone]
    split
    · rfl
    · next hv =>
      rw [ho.mem_iff] at hv
      simpa using hv

end Bindings

/-! ## Operations and builtins -/

section
open Bindings

variable {clause : String} {n : Nat} {g g' : Registers}

/-- What was done to bindings keeps their trail, and only adds to it. -/
def Bindings.Follows (b b' : Bindings) : Prop := b.Trailed → b'.Trailed ∧ b.Since b'

theorem Bindings.Follows.of_eq {b b' : Bindings} (h : b' = b) : b.Follows b' := by
  subst h
  exact fun hb => ⟨hb, .refl _⟩

theorem Bindings.Follows.trans {b b' b'' : Bindings} (h : b.Follows b') (h' : b'.Follows b'') :
    b.Follows b'' := by
  intro hb
  obtain ⟨h1, h2⟩ := h hb
  obtain ⟨h3, h4⟩ := h' h1
  exact ⟨h3, h2.trans h4⟩

theorem Bindings.follows_newVar (b : Bindings) : b.Follows b.newVar.2 :=
  fun hb => ⟨hb.newVar, .newVar b⟩

theorem Bindings.follows_freshen (replaced : Term → Bool) (b : Bindings) (ts : List Term) :
    b.Follows (b.freshen replaced ts).2 ∧
      ∀ v, (b.freshen replaced ts).2.value? v = b.value? v := by
  induction ts generalizing b with
  | nil => exact ⟨.of_eq rfl, fun v => rfl⟩
  | cons t ts ih =>
    by_cases h : replaced t = true
    · obtain ⟨h1, h2⟩ := ih b.newVar.2
      simp only [Bindings.freshen, h, if_true]
      exact ⟨b.follows_newVar.trans h1, h2⟩
    · simp only [Bindings.freshen, h]
      exact ih b

theorem Registers.bindings_setArg {i : Nat} {t : Term} (h : g.setArg clause i t = .ok g') :
    g'.bindings = g.bindings := by
  unfold setArg at h
  split at h <;> cases h
  rfl

theorem Registers.bindings_setTemp {i : Nat} {t : Term} (h : g.setTemp clause i t = .ok g') :
    g'.bindings = g.bindings := by
  unfold setTemp at h
  split at h <;> cases h
  rfl

theorem Registers.bindings_setVar {i : Nat} {t : Term} (h : g.setVar clause i t = .ok g') :
    g'.bindings = g.bindings := by
  unfold setVar at h
  split at h <;> cases h
  rfl

theorem Registers.bindings_setArgs {i : Nat} {ts : List Term}
    (h : g.setArgs clause i ts = .ok g') : g'.bindings = g.bindings := by
  induction ts generalizing g i with
  | nil => cases h; rfl
  | cons t ts ih =>
    obtain ⟨g1, h1, h2⟩ := ok_of_bind h
    exact (ih h2).trans (bindings_setArg h1)

theorem Registers.follows_unify {x : Except Failure (Term × Term)}
    (h : g.unify n x = some (.ok (some g'))) : g.bindings.Follows g'.bindings := by
  rcases x with e | ⟨l, t⟩
  · cases h
  · obtain ⟨b, hb, h⟩ := Option.map_eq_some_iff.1 h
    cases b with
    | none => cases h
    | some b => cases h; exact fun htrail => htrail.unify hb

theorem Registers.follows_getFunctor {shape : Compound}
    (h : g.getFunctor clause shape = .ok (some g')) : g.bindings.Follows g'.bindings := by
  obtain ⟨a, -, h⟩ := ok_of_bind h
  split at h
  · split at h
    · obtain ⟨g1, h1, h2⟩ := ok_of_map h
      cases h2
      exact .of_eq (bindings_setArgs h1)
    · cases h
  · next v hv =>
    obtain ⟨g1, h1, h2⟩ := ok_of_bind h
    cases h2
    have hset : g1.bindings = (Bindings.freshen Term.isVar g.bindings shape.args).2 := by
      rw [bindings_setArgs h1, Registers.freshen_eq]
    obtain ⟨hfresh, hvalue⟩ := Bindings.follows_freshen Term.isVar g.bindings shape.args
    intro hb
    obtain ⟨h2, h3⟩ := hfresh hb
    have hnone : g1.bindings.value? v = none := by
      rw [hset, hvalue]
      exact value?_of_deref_eq_ref hb.ordered hv
    rw [← hset] at h2 h3
    exact ⟨h2.bind hnone fun u e => (by cases e), h3.trans (.bind hnone _)⟩
  · obtain ⟨g1, h1, h2⟩ := ok_of_map h
    cases h2
    rw [bindings_setArgs h1, Registers.freshen_eq]
    exact (Bindings.follows_freshen _ g.bindings shape.args).1
  · obtain ⟨g1, h1, h2⟩ := ok_of_map h
    cases h2
    rw [bindings_setArgs h1, Registers.freshen_eq]
    exact (Bindings.follows_freshen _ g.bindings shape.args).1
  · cases h

/-- No operation takes a binding back. -/
theorem Operation.follows_run {op : Operation} (h : op.run clause n g = some (.ok (some g'))) :
    g.bindings.Follows g'.bindings := by
  cases op with
  | testBound arg =>
    obtain ⟨a, -, h⟩ := ok_of_bind (Option.some.inj h)
    split at h <;> cases h
    exact .of_eq rfl
  | testUnbound arg =>
    obtain ⟨a, -, h⟩ := ok_of_bind (Option.some.inj h)
    split at h <;> cases h
    exact .of_eq rfl
  | getVariable slot arg =>
    obtain ⟨a, -, h⟩ := ok_of_bind (Option.some.inj h)
    obtain ⟨g1, h1, h2⟩ := ok_of_map h
    cases h2
    exact .of_eq (Registers.bindings_setVar h1)
  | getTemp temp arg =>
    obtain ⟨a, -, h⟩ := ok_of_bind (Option.some.inj h)
    obtain ⟨g1, h1, h2⟩ := ok_of_map h
    cases h2
    exact .of_eq (Registers.bindings_setTemp h1)
  | getConstant arg constant => exact Registers.follows_unify h
  | getFunctor shape => exact Registers.follows_getFunctor (Option.some.inj h)
  | unifyVariable slot arg => exact Registers.follows_unify h
  | unifyTemp temp arg => exact Registers.follows_unify h
  | putNewVariable slot arg =>
    obtain ⟨g1, h1, h⟩ := ok_of_bind (Option.some.inj h)
    obtain ⟨g2, h2, h3⟩ := ok_of_map h
    cases h3
    rw [Registers.bindings_setArg h2, Registers.bindings_setVar h1]
    exact g.bindings.follows_newVar
  | putVariable slot arg | putDerefVariable slot arg | putTemp temp arg =>
    obtain ⟨a, -, h⟩ := ok_of_bind (Option.some.inj h)
    obtain ⟨g1, h1, h2⟩ := ok_of_map h
    cases h2
    exact .of_eq (Registers.bindings_setArg h1)
  | putConstant arg constant =>
    obtain ⟨g1, h1, h2⟩ := ok_of_map (Option.some.inj h)
    cases h2
    exact .of_eq (Registers.bindings_setArg h1)
  | clearArg arg =>
    obtain ⟨g1, h1, h2⟩ := ok_of_map (Option.some.inj h)
    cases h2
    rw [Registers.bindings_setArg h1]
    exact g.bindings.follows_newVar
  | makeFunctor shape =>
    obtain ⟨a, -, h⟩ := ok_of_bind (Option.some.inj h)
    obtain ⟨g1, h1, h2⟩ := ok_of_map h
    cases h2
    exact .of_eq (Registers.bindings_setArg h1)

/-- No builtin takes a binding back. -/
theorem Builtin.follows_run {f : Builtin} {store : Store} {rule : Option Rule} {b b' : Bindings}
    {args : List Term} (h : f.run n store rule b args = some (.ok (some b'))) : b.Follows b' := by
  unfold Builtin.run at h
  split at h
  · cases h
  · cases h
  · cases h
  · obtain ⟨b1, h1, h2⟩ := Option.map_eq_some_iff.1 h
    cases h2
    exact fun hb => hb.unifyAll h1

end

end TabledRules
