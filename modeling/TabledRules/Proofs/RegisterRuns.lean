-- What an operation does to the registers, one by one: those that it sets have
-- a value afterwards, and all others keep theirs. Where only the slots differ
-- that it does not read, it does the same.
import TabledRules.Proofs.RegisterUse
import TabledRules.Proofs.Trails

namespace TabledRules

/-- What is in a register, if it was set. -/
def Registers.value? (g : Registers) : Register → Option Term
  | .arg i => g.args[i]?
  | .temp i => g.temps[i]?.join
  | .slot i => g.vars[i]?.join

namespace Registers

variable {clause : String} {n i : Nat} {g g' : Registers} {t : Term} {ts : List Term}
  {x : Register}

/-! ## Reading and setting -/

theorem value?_of_arg (h : g.arg clause i = .ok t) : g.value? (.arg i) = some t := by
  unfold arg at h
  split at h <;> cases h
  next hi => exact hi

theorem value?_of_temp (h : g.temp clause i = .ok t) : g.value? (.temp i) = some t := by
  unfold temp at h
  split at h <;> cases h
  next hi => exact hi

theorem value?_of_var (h : g.var clause i = .ok t) : g.value? (.slot i) = some t := by
  unfold var at h
  split at h <;> cases h
  next hi => exact hi

theorem getElem?_set_if {α : Type} {l : List α} {i : Nat} (hi : i < l.length) (a : α) (j : Nat) :
    (l.set i a)[j]? = if j = i then some a else l[j]? := by
  split
  · next e => rw [e, List.getElem?_set_self hi]
  · next e => rw [List.getElem?_set_ne (Ne.symm e)]

theorem value?_setArg (h : g.setArg clause i t = .ok g') (x : Register) :
    g'.value? x = if x = .arg i then some t else g.value? x := by
  unfold setArg at h
  split at h <;> cases h
  next hi =>
    cases x with
    | arg j => simp [value?, getElem?_set_if hi]
    | temp j | slot j => simp [value?]

theorem value?_setTemp (h : g.setTemp clause i t = .ok g') (x : Register) :
    g'.value? x = if x = .temp i then some t else g.value? x := by
  unfold setTemp at h
  split at h <;> cases h
  next hi =>
    cases x with
    | temp j =>
      simp only [value?, getElem?_set_if hi, Register.temp.injEq]
      split <;> simp_all
    | arg j | slot j => simp [value?]

theorem value?_setVar (h : g.setVar clause i t = .ok g') (x : Register) :
    g'.value? x = if x = .slot i then some t else g.value? x := by
  unfold setVar at h
  split at h <;> cases h
  next hi =>
    cases x with
    | slot j =>
      simp only [value?, getElem?_set_if hi, Register.slot.injEq]
      split <;> simp_all
    | arg j | temp j => simp [value?]

theorem value?_setArgs (h : g.setArgs clause i ts = .ok g') :
    (∀ j t, ts[j]? = some t → g'.value? (.arg (i + j)) = some t) ∧
    ∀ x, (∀ j < ts.length, x ≠ .arg (i + j)) → g'.value? x = g.value? x := by
  induction ts generalizing g i with
  | nil => cases h; exact ⟨by simp, fun _ _ => rfl⟩
  | cons u ts ih =>
    obtain ⟨g1, h1, h2⟩ := ok_of_bind h
    obtain ⟨hset, hkeep⟩ := ih h2
    refine ⟨fun j t hj => ?_, fun x hx => ?_⟩
    · cases j with
      | zero =>
        obtain rfl : u = t := by simpa using hj
        rw [Nat.add_zero, hkeep _ fun k _ e => ?_, value?_setArg h1, if_pos rfl]
        have := Register.arg.inj e
        omega
      | succ j =>
        rw [show i + (j + 1) = i + 1 + j by omega]
        exact hset j t (by simpa using hj)
    · have hne : x ≠ .arg i := hx 0 (by simp)
      rw [hkeep x fun j hj e => hx (j + 1) (by simpa using hj) (by rw [e]; congr 1; omega),
        value?_setArg h1, if_neg hne]

theorem argsFrom_value? {m : Nat} (h : g.argsFrom clause i m = .ok ts) :
    ∀ t ∈ ts, ∃ j < m, g.value? (.arg (i + j)) = some t := by
  induction m generalizing i ts with
  | zero => cases h; simp
  | succ m ih =>
    obtain ⟨u, h1, h⟩ := ok_of_bind h
    obtain ⟨us, h2, h⟩ := ok_of_bind h
    cases h
    intro t ht
    rcases List.mem_cons.1 ht with rfl | ht
    · exact ⟨0, Nat.succ_pos m, value?_of_arg h1⟩
    · obtain ⟨j, hj, hv⟩ := ih h2 t ht
      exact ⟨j + 1, Nat.succ_lt_succ hj, by rw [← hv]; congr 2; omega⟩

@[simp] theorem value?_bindings (b : Bindings) :
    ({ g with bindings := b } : Registers).value? x = g.value? x := by
  cases x <;> rfl

theorem value?_freshen (replaced : Term → Bool) (ts : List Term) :
    (g.freshen replaced ts).2.value? x = g.value? x := by
  rw [freshen_eq, value?_bindings]

theorem value?_unify {y : Except Failure (Term × Term)}
    (h : g.unify n y = some (.ok (some g'))) : g'.value? x = g.value? x := by
  rcases y with e | ⟨l, r⟩
  · cases h
  · obtain ⟨b, -, hb⟩ := Option.map_eq_some_iff.1 h
    cases b with
    | none => cases hb
    | some b => cases hb; exact value?_bindings b

/-- Taking a compound object apart sets the arguments that its parts stand in. -/
theorem value?_getFunctor {shape : Compound} (h : g.getFunctor clause shape = .ok (some g')) :
    ∃ args : List Term, args.length = shape.args.length ∧
      (∀ j t, args[j]? = some t → g'.value? (.arg (argBase + j)) = some t) ∧
      ∀ x, (∀ j < shape.args.length, x ≠ .arg (argBase + j)) → g'.value? x = g.value? x := by
  have length : ∀ replaced, (g.freshen replaced shape.args).1.length = shape.args.length :=
    fun replaced => by rw [freshen_eq]; exact Bindings.length_freshen _ _ _
  obtain ⟨a, -, h⟩ := ok_of_bind h
  split at h
  · next f args _ =>
    split at h
    · next heq =>
      obtain ⟨g1, h1, h2⟩ := ok_of_map h
      cases h2
      obtain ⟨hset, hkeep⟩ := value?_setArgs h1
      exact ⟨args, heq.2, hset, fun x hx => hkeep x (heq.2 ▸ hx)⟩
    · cases h
  · obtain ⟨g1, h1, h2⟩ := ok_of_bind h
    cases h2
    obtain ⟨hset, hkeep⟩ := value?_setArgs h1
    refine ⟨_, length Term.isVar, fun j t hj => ?_, fun x hx => ?_⟩
    · rw [value?_bindings]
      exact hset j t hj
    · rw [value?_bindings, hkeep x (length Term.isVar ▸ hx), value?_freshen]
  · obtain ⟨g1, h1, h2⟩ := ok_of_map h
    cases h2
    obtain ⟨hset, hkeep⟩ := value?_setArgs h1
    exact ⟨_, length _, hset, fun x hx => by rw [hkeep x (length _ ▸ hx), value?_freshen]⟩
  · obtain ⟨g1, h1, h2⟩ := ok_of_map h
    cases h2
    obtain ⟨hset, hkeep⟩ := value?_setArgs h1
    exact ⟨_, length _, hset, fun x hx => by rw [hkeep x (length _ ▸ hx), value?_freshen]⟩
  · cases h

end Registers

open Registers

/-! ## Operations -/

namespace Operation

variable {clause : String} {n i : Nat} {g g' : Registers} {op : Operation} {x : Register}

/-- An operation sets the registers that it sets and no others. -/
theorem value?_run (h : op.run clause n g = some (.ok (some g'))) :
    (∀ x ∈ op.sets, (g'.value? x).isSome = true) ∧ ∀ x ∉ op.sets, g'.value? x = g.value? x := by
  have nothing : (∀ x, g'.value? x = g.value? x) → op.sets = [] →
      (∀ x ∈ op.sets, (g'.value? x).isSome = true) ∧ ∀ x ∉ op.sets, g'.value? x = g.value? x :=
    fun hsame hsets => ⟨by simp [hsets], fun x _ => hsame x⟩
  have one : ∀ y t, (∀ x, g'.value? x = if x = y then some t else g.value? x) → op.sets = [y] →
      (∀ x ∈ op.sets, (g'.value? x).isSome = true) ∧ ∀ x ∉ op.sets, g'.value? x = g.value? x := by
    intro y t hval hsets
    refine ⟨fun x hx => ?_, fun x hx => ?_⟩
    · obtain rfl : x = y := by simpa [hsets] using hx
      rw [hval, if_pos rfl]
      rfl
    · rw [hval, if_neg (by simpa [hsets] using hx)]
  cases op with
  | testBound arg =>
    obtain ⟨a, -, h⟩ := ok_of_bind (Option.some.inj h)
    split at h <;> cases h
    exact nothing (fun _ => rfl) rfl
  | testUnbound arg =>
    obtain ⟨a, -, h⟩ := ok_of_bind (Option.some.inj h)
    split at h <;> cases h
    exact nothing (fun _ => rfl) rfl
  | getConstant arg constant => exact nothing (fun _ => value?_unify h) rfl
  | unifyVariable slot arg => exact nothing (fun _ => value?_unify h) rfl
  | unifyTemp temp arg => exact nothing (fun _ => value?_unify h) rfl
  | getVariable slot arg =>
    obtain ⟨a, -, h⟩ := ok_of_bind (Option.some.inj h)
    obtain ⟨g1, h1, h2⟩ := ok_of_map h
    cases h2
    exact one _ a (value?_setVar h1) rfl
  | getTemp temp arg =>
    obtain ⟨a, -, h⟩ := ok_of_bind (Option.some.inj h)
    obtain ⟨g1, h1, h2⟩ := ok_of_map h
    cases h2
    exact one _ a (value?_setTemp h1) rfl
  | getFunctor shape =>
    obtain ⟨args, hlen, hset, hkeep⟩ := value?_getFunctor (Option.some.inj h)
    refine ⟨fun x hx => ?_, fun x hx => hkeep x fun j hj e => hx ?_⟩
    · obtain ⟨j, hj, rfl⟩ := List.mem_map.1 hx
      have hlt : j < args.length := by rw [hlen]; simpa using hj
      rw [hset j _ (List.getElem?_eq_getElem hlt)]
      rfl
    · rw [e]
      exact List.mem_map.2 ⟨j, List.mem_range.2 hj, rfl⟩
  | putNewVariable slot arg =>
    obtain ⟨g1, h1, h⟩ := ok_of_bind (Option.some.inj h)
    obtain ⟨g2, h2, h3⟩ := ok_of_map h
    cases h3
    have hval : ∀ x, g'.value? x = if x = .arg arg ∨ x = .slot slot then some (.ref g.bindings.size)
        else g.value? x := by
      intro x
      rw [value?_setArg h2, value?_setVar h1]
      by_cases ha : x = .arg arg
      · simp only [ha, if_true, true_or]
      · by_cases hs : x = .slot slot
        · simp only [hs, if_true, or_true]; rfl
        · simp only [ha, hs, if_false, or_self]
          exact value?_bindings _
    refine ⟨fun x hx => ?_, fun x hx => ?_⟩
    · rw [hval, if_pos (by simpa [sets, or_comm] using hx)]
      rfl
    · rw [hval, if_neg (by simpa [sets, or_comm] using hx)]
  | putVariable slot arg | putDerefVariable slot arg | putTemp temp arg =>
    obtain ⟨a, -, h⟩ := ok_of_bind (Option.some.inj h)
    obtain ⟨g1, h1, h2⟩ := ok_of_map h
    cases h2
    exact one _ _ (value?_setArg h1) rfl
  | putConstant arg constant =>
    obtain ⟨g1, h1, h2⟩ := ok_of_map (Option.some.inj h)
    cases h2
    exact one _ _ (value?_setArg h1) rfl
  | clearArg arg =>
    obtain ⟨g1, h1, h2⟩ := ok_of_map (Option.some.inj h)
    cases h2
    exact one _ (.ref g.bindings.size) (fun x => by
      rw [value?_setArg h1]
      split
      · rfl
      · exact value?_bindings _) rfl
  | makeFunctor shape =>
    obtain ⟨a, -, h⟩ := ok_of_bind (Option.some.inj h)
    obtain ⟨g1, h1, h2⟩ := ok_of_map h
    cases h2
    exact one _ _ (value?_setArg h1) rfl

end Operation

/-! ## Other slots -/

namespace Registers

variable {clause : String} {n i : Nat} {g g' : Registers} {t : Term} {ts : List Term}
  {x : Register} (w : List (Option Term))

/-- The registers with other slots. -/
def withVars (w : List (Option Term)) (g : Registers) : Registers := { g with vars := w }

theorem arg_withVars : (g.withVars w).arg clause i = g.arg clause i := rfl

theorem temp_withVars : (g.withVars w).temp clause i = g.temp clause i := rfl

theorem setArg_withVars :
    (g.withVars w).setArg clause i t = (g.setArg clause i t).map (withVars w) := by
  unfold setArg withVars
  split <;> rfl

theorem setTemp_withVars :
    (g.withVars w).setTemp clause i t = (g.setTemp clause i t).map (withVars w) := by
  unfold setTemp withVars
  split <;> rfl

theorem setArgs_withVars :
    (g.withVars w).setArgs clause i ts = (g.setArgs clause i ts).map (withVars w) := by
  induction ts generalizing g i with
  | nil => rfl
  | cons t ts ih =>
    simp only [setArgs, setArg_withVars]
    cases g.setArg clause i t with
    | error e => rfl
    | ok g1 => exact ih

theorem argsFrom_withVars (m : Nat) :
    (g.withVars w).argsFrom clause i m = g.argsFrom clause i m := by
  induction m generalizing i with
  | zero => rfl
  | succ m ih => simp only [argsFrom, arg_withVars, ih]

theorem freshen_withVars (replaced : Term → Bool) :
    (g.withVars w).freshen replaced ts =
      ((g.freshen replaced ts).1, (g.freshen replaced ts).2.withVars w) := by
  simp only [freshen_eq]
  rfl

theorem unify_withVars (y : Except Failure (Term × Term)) :
    (g.withVars w).unify n y = (g.unify n y).map (·.map (·.map (withVars w))) := by
  rcases y with e | ⟨l, r⟩
  · rfl
  · change (g.bindings.unify n l r).map _ = ((g.bindings.unify n l r).map _).map _
    rcases g.bindings.unify n l r with _ | _ | b <;> rfl

theorem getFunctor_withVars (shape : Compound) :
    (g.withVars w).getFunctor clause shape =
      (g.getFunctor clause shape).map (·.map (withVars w)) := by
  unfold getFunctor
  rw [arg_withVars]
  cases g.arg clause 2 with
  | error e => rfl
  | ok a =>
    simp only [bind, Except.bind, show (g.withVars w).bindings = g.bindings from rfl]
    cases g.bindings.deref a with
    | app name args =>
      simp only [setArgs_withVars]
      split
      · cases g.setArgs clause argBase args <;> rfl
      · rfl
    | ref v =>
      simp only [freshen_withVars, setArgs_withVars]
      cases (g.freshen Term.isVar shape.args).2.setArgs clause argBase
        (g.freshen Term.isVar shape.args).1 <;> rfl
    | any =>
      simp only [freshen_withVars, setArgs_withVars]
      cases (g.freshen (fun _ => true) shape.args).2.setArgs clause argBase
        (g.freshen (fun _ => true) shape.args).1 <;> rfl
    | var v =>
      simp only [freshen_withVars, setArgs_withVars]
      cases (g.freshen (fun _ => true) shape.args).2.setArgs clause argBase
        (g.freshen (fun _ => true) shape.args).1 <;> rfl
    | node x => rfl

end Registers

namespace Operation

variable {clause : String} {n i : Nat} {g g' : Registers} {op : Operation} {x : Register}

/-- An operation that neither reads nor sets a slot does not depend on the slots. -/
theorem run_withVars (hreads : ∀ i, .slot i ∉ op.reads) (hsets : ∀ i, .slot i ∉ op.sets)
    (w : List (Option Term)) : op.run clause n (g.withVars w) =
      (op.run clause n g).map (·.map (·.map (withVars w))) := by
  cases op with
  | testBound arg | testUnbound arg =>
    simp only [run, arg_withVars]
    cases g.arg clause arg with
    | error e => rfl
    | ok a =>
      change some (Except.ok (if g.bindings.isBound a then _ else _)) =
        Option.map _ (some (Except.ok (if g.bindings.isBound a then _ else _)))
      split <;> rfl
  | getTemp temp arg =>
    simp only [run, arg_withVars]
    cases g.arg clause arg with
    | error e => rfl
    | ok a =>
      change some (some <$> (g.withVars w).setTemp clause temp a) = some (Except.map _ (some <$> g.setTemp clause temp a))
      rw [setTemp_withVars]
      cases g.setTemp clause temp a <;> rfl
  | getConstant arg constant =>
    simp only [run, arg_withVars]
    exact unify_withVars w _
  | getFunctor shape => exact congrArg some (getFunctor_withVars w shape)
  | unifyTemp temp arg =>
    simp only [run, arg_withVars, temp_withVars]
    exact unify_withVars w _
  | putTemp temp arg =>
    simp only [run, temp_withVars]
    cases g.temp clause temp with
    | error e => rfl
    | ok a =>
      change some (some <$> (g.withVars w).setArg clause arg a) = some (Except.map _ (some <$> g.setArg clause arg a))
      rw [setArg_withVars]
      cases g.setArg clause arg a <;> rfl
  | putConstant arg constant =>
    simp only [run, setArg_withVars]
    cases g.setArg clause arg constant <;> rfl
  | clearArg arg =>
    change some (some <$> (g.fresh.2.withVars w).setArg clause arg g.fresh.1) = some (Except.map _ (some <$> g.fresh.2.setArg clause arg g.fresh.1))
    rw [setArg_withVars]
    cases g.fresh.2.setArg clause arg g.fresh.1 <;> rfl
  | makeFunctor shape =>
    simp only [run, argsFrom_withVars]
    cases g.argsFrom clause argBase shape.args.length with
    | error e => rfl
    | ok args =>
      change some (some <$> (g.withVars w).setArg clause 2 _) = some (Except.map _ (some <$> g.setArg clause 2 _))
      rw [setArg_withVars]
      cases g.setArg clause 2 (.app shape.name args) <;> rfl
  | getVariable slot arg => exact absurd List.mem_cons_self (hsets slot)
  | unifyVariable slot arg =>
    exact absurd (List.mem_cons_of_mem _ List.mem_cons_self) (hreads slot)
  | putNewVariable slot arg => exact absurd List.mem_cons_self (hsets slot)
  | putVariable slot arg => exact absurd List.mem_cons_self (hreads slot)
  | putDerefVariable slot arg => exact absurd List.mem_cons_self (hreads slot)

/-- The slots `w` have what the slots `vars` have: there are as many, and what is set there is
the same here. -/
structure Agreeing (vars w : List (Option Term)) : Prop where
  length : w.length = vars.length
  value : ∀ (i : Nat) (t : Term), vars[i]?.join = some t → w[i]?.join = some t

theorem Agreeing.refl (vars : List (Option Term)) : Agreeing vars vars := ⟨rfl, fun _ _ => id⟩

theorem Agreeing.trans {vars w w' : List (Option Term)} (h : Agreeing vars w)
    (h' : Agreeing w w') : Agreeing vars w' :=
  ⟨h'.length.trans h.length, fun i t ht => h'.value i t (h.value i t ht)⟩

theorem Agreeing.var {w : List (Option Term)} {t : Term} (h : Agreeing g.vars w)
    (ht : g.var clause i = .ok t) : (g.withVars w).var clause i = .ok t := by
  have hw : w[i]?.join = some t := h.value i t (value?_of_var ht)
  unfold Registers.var withVars
  simp only [hw]

theorem setVar_withVars {w : List (Option Term)} {t : Term} (hlen : w.length = g.vars.length)
    (h : g.setVar clause i t = .ok g') :
    (g.withVars w).setVar clause i t = .ok (g'.withVars (w.set i (some t))) := by
  unfold setVar at h ⊢
  split at h <;> cases h
  next hi =>
    have hi' : i < (g.withVars w).vars.length := by
      change i < w.length
      rw [hlen]
      exact hi
    rw [if_pos hi']
    rfl

theorem join_set {w : List (Option Term)} {t : Term} (hi : i < w.length) (j : Nat) :
    (w.set i (some t))[j]?.join = if j = i then some t else w[j]?.join := by
  rw [getElem?_set_if hi]
  split <;> rfl

theorem run_fails_withVars {w : List (Option Term)} (hw : Agreeing g.vars w)
    (h : op.run clause n g = some (.ok none)) : op.run clause n (g.withVars w) = some (.ok none) := by
  by_cases hslot : (∀ i, .slot i ∉ op.reads) ∧ ∀ i, .slot i ∉ op.sets
  · rw [run_withVars hslot.1 hslot.2, h]
    rfl
  cases op with
  | unifyVariable slot arg =>
    simp only [run] at h ⊢
    cases ha : g.arg clause arg with
    | error e => rw [ha] at h; cases h
    | ok a =>
      cases hv : g.var clause slot with
      | error e => rw [ha, hv] at h; cases h
      | ok t =>
        rw [ha, hv] at h
        rw [arg_withVars, ha, hw.var hv, unify_withVars]
        exact congrArg (Option.map _) h
  | getVariable slot arg | putVariable slot arg | putDerefVariable slot arg =>
    obtain ⟨a, -, h⟩ := ok_of_bind (Option.some.inj h)
    obtain ⟨g1, -, h2⟩ := ok_of_map h
    cases h2
  | putNewVariable slot arg =>
    obtain ⟨g1, -, h⟩ := ok_of_bind (Option.some.inj h)
    obtain ⟨g2, -, h3⟩ := ok_of_map h
    cases h3
  | _ => exact absurd ⟨by simp [reads], by simp [sets]⟩ hslot

/-- An operation does the same with other slots that agree with its own, and they agree
afterwards. -/
theorem run_agreeing {w : List (Option Term)} (hw : Agreeing g.vars w)
    (h : op.run clause n g = some (.ok (some g'))) :
    ∃ w', op.run clause n (g.withVars w) = some (.ok (some (g'.withVars w'))) ∧
      w'.length = w.length ∧ ∀ i, w'[i]?.join =
        if .slot i ∈ op.sets then g'.value? (.slot i) else w[i]?.join := by
  by_cases hslot : (∀ i, .slot i ∉ op.reads) ∧ ∀ i, .slot i ∉ op.sets
  · refine ⟨w, ?_, rfl, fun i => by rw [if_neg (hslot.2 i)]⟩
    rw [run_withVars hslot.1 hslot.2, h]
    rfl
  cases op with
  | getVariable slot arg =>
    obtain ⟨a, ha, h⟩ := ok_of_bind (Option.some.inj h)
    obtain ⟨g1, h1, h2⟩ := ok_of_map h
    cases h2
    have hset := setVar_withVars hw.length h1
    have hlt : slot < w.length := by
      rw [hw.length]
      unfold setVar at h1
      split at h1
      · next hi => exact hi
      · cases h1
    refine ⟨w.set slot (some a), ?_, by simp, fun i => ?_⟩
    · simp only [run, arg_withVars, ha]
      exact congrArg (fun y => some (some <$> y)) hset
    · rw [join_set hlt, value?_setVar h1]
      by_cases e : i = slot <;> simp [sets, e]
  | unifyVariable slot arg =>
    refine ⟨w, ?_, rfl, fun i => by simp [sets]⟩
    simp only [run] at h ⊢
    cases ha : g.arg clause arg with
    | error e => rw [ha] at h; cases h
    | ok a =>
      cases hv : g.var clause slot with
      | error e => rw [ha, hv] at h; cases h
      | ok t =>
        rw [ha, hv] at h
        rw [arg_withVars, ha, hw.var hv, unify_withVars]
        exact congrArg (Option.map _) h
  | putNewVariable slot arg =>
    obtain ⟨g1, h1, h⟩ := ok_of_bind (Option.some.inj h)
    obtain ⟨g2, h2, h3⟩ := ok_of_map h
    cases h3
    have hlen : w.length = g.fresh.2.vars.length := hw.length
    have hset := setVar_withVars hlen (show g.fresh.2.setVar clause slot g.fresh.1 = .ok g1 from h1)
    have hlt : slot < w.length := by
      rw [hw.length]
      unfold setVar at h1
      split at h1
      · next hi => exact hi
      · cases h1
    refine ⟨w.set slot (some g.fresh.1), ?_, by simp, fun i => ?_⟩
    · have harg : g1.setArg clause arg g.fresh.1 = .ok g' := h2
      change some ((g.fresh.2.withVars w).setVar clause slot g.fresh.1 >>= fun r =>
        some <$> r.setArg clause arg g.fresh.1) = _
      rw [hset]
      change some (some <$> (g1.withVars _).setArg clause arg g.fresh.1) = _
      rw [setArg_withVars, harg]
      rfl
    · rw [join_set hlt, value?_setArg h2, value?_setVar h1]
      by_cases e : i = slot <;> simp [sets, e, Registers.fresh, Bindings.newVar]
  | putVariable slot arg | putDerefVariable slot arg =>
    obtain ⟨t, ht, h⟩ := ok_of_bind (Option.some.inj h)
    obtain ⟨g1, h1, h2⟩ := ok_of_map h
    cases h2
    refine ⟨w, ?_, rfl, fun i => by simp [sets]⟩
    simp only [run, hw.var ht]
    change some (some <$> (g.withVars w).setArg clause arg _) = _
    rw [setArg_withVars]
    exact congrArg (fun y => some (some <$> Except.map (withVars w) y)) h1
  | _ => exact absurd ⟨by simp [reads], by simp [sets]⟩ hslot

end Operation

end TabledRules
