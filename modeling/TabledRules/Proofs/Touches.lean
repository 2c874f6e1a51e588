-- What is done to variables. A term is followed to its value, or a variable is
-- bound; here are all the things that a unification, an operation and a builtin
-- do. Where terms and values know of no variables but those that there are, no
-- variable is met that is not there, and none is bound twice.
import TabledRules.Proofs.Realms
import TabledRules.Proofs.RegisterRuns

namespace TabledRules

/-! ## Touches -/

namespace Bindings

/-- A variable of the term, or one that is met in the value of such a variable. -/
inductive Meets (b : Bindings) : Term → Nat → Prop
  | here {t : Term} {v : Nat} : .ref v ∈ t.leaves → Meets b t v
  | value {t u : Term} {v w : Nat} : .ref v ∈ t.leaves → b.value? v = some u → Meets b u w →
    Meets b t w

/-- The variables of the term are there. -/
abbrev Knows (b : Bindings) (t : Term) : Prop := b.Scoped (fun _ => True) t

/-- Chains of variables end, and the variables of all values are there. -/
abbrev Sane (b : Bindings) : Prop := b.Fits fun _ => True

end Bindings

/-- One thing that is done to variables, and the bindings at that moment. -/
inductive Touch where
  /-- The term is followed to its value, and maybe its parts are, too. -/
  | deref (b : Bindings) (t : Term)
  | bind (b : Bindings) (v : Nat) (t : Term)

/-- No variable is met that is not there, and none is bound that is not there or has a value. -/
def Touch.Safe : Touch → Prop
  | .deref b t => ∀ v, b.Meets t v → v < b.size
  | .bind b v _ => v < b.size ∧ b.value? v = none

/-- The list is all that is done to the bindings on the way from the first to the last ones, but
for new variables. -/
inductive Touch.Leads : Bindings → List Touch → Bindings → Prop
  | done (b : Bindings) : Leads b [] b
  | deref {b b' : Bindings} {t : Term} {xs : List Touch} : Leads b xs b' →
    Leads b (.deref b t :: xs) b'
  | bind {b b' : Bindings} {v : Nat} {t : Term} {xs : List Touch} : Leads (b.bind v t) xs b' →
    Leads b (.bind b v t :: xs) b'
  | newVar {b b' : Bindings} {xs : List Touch} : Leads b.newVar.2 xs b' → Leads b xs b'

namespace Bindings

/-- What is done where one variable is made of two. -/
def mergeTouches (b : Bindings) (v u : Nat) : List Touch :=
  if v = u then [] else if u < v then [.bind b v (.ref u)] else [.bind b u (.ref v)]

/-- What is done where term after term is unified. -/
def eachTouches (one : Bindings → Term → Term → Option (Option Bindings))
    (touches : Bindings → Term → Term → List Touch) :
    Bindings → List Term → List Term → List Touch
  | b, l :: ls, r :: rs =>
    touches b l r ++
      match one b l r with
      | some (some b') => eachTouches one touches b' ls rs
      | _ => []
  | _, _, _ => []

/-- What is done where two terms are unified, whether they match or not. -/
def unifyTouches : Nat → Bindings → Term → Term → List Touch
  | 0, _, _, _ => []
  | n + 1, b, l, r =>
    .deref b l :: .deref b r ::
      match b.deref l, b.deref r with
      | .any, _ | .var _, _ | _, .any | _, .var _ => []
      | .ref v, .ref u => b.mergeTouches v u
      | .ref v, t => [.bind b v t]
      | t, .ref v => [.bind b v t]
      | .node _, .node _ => []
      | .app f as, .app g bs =>
        if f = g ∧ as.length = bs.length then eachTouches (unify n) (unifyTouches n) b as bs
        else []
      | .node _, .app _ _ | .app _ _, .node _ => []

def allTouches (n : Nat) (b : Bindings) (ls rs : List Term) : List Touch :=
  eachTouches (unify n) (unifyTouches n) b ls rs

/-- What is done where the variables of a snapshot are bound again. -/
def replayTouches : Bindings → List (Nat × Term) → List Touch
  | _, [] => []
  | b, (v, t) :: saved => .bind b v t :: (b.bind v t).replayTouches saved

/-- What is done to go back to a snapshot, after all bindings were undone. -/
def restoreTouches (b : Bindings) (saved : List (Nat × Term)) : List Touch :=
  (b.unwind 0).replayTouches saved

/-- What is done where a compound object is taken apart, or is built in the place of a variable. -/
def functorTouches (b : Bindings) (object : Term) (shape : Compound) : List Touch :=
  .deref b object ::
    match b.deref object with
    | .ref v =>
      let (args, b) := b.freshen Term.isVar shape.args
      [.bind b v (.app shape.name args)]
    | _ => []

end Bindings

open Bindings

/-- What is done where the terms of two registers are unified. -/
def Registers.unifyTouches (n : Nat) (g : Registers) : Option Term → Option Term → List Touch
  | some l, some r => g.bindings.unifyTouches n l r
  | _, _ => []

/-- What is done by an operation. -/
def Operation.touches (n : Nat) (g : Registers) : Operation → List Touch
  | .testBound arg | .testUnbound arg => (g.value? (.arg arg)).toList.map (.deref g.bindings)
  | .getConstant arg constant => g.unifyTouches n (g.value? (.arg arg)) (some constant)
  | .getFunctor shape =>
    match g.value? (.arg 2) with
    | some object => g.bindings.functorTouches object shape
    | none => []
  | .unifyVariable slot arg => g.unifyTouches n (g.value? (.arg arg)) (g.value? (.slot slot))
  | .unifyTemp temp arg => g.unifyTouches n (g.value? (.arg arg)) (g.value? (.temp temp))
  | .putDerefVariable slot _ => (g.value? (.slot slot)).toList.map (.deref g.bindings)
  | .getVariable _ _ | .getTemp _ _ | .putNewVariable _ _ | .putVariable _ _ | .putTemp _ _
  | .putConstant _ _ | .clearArg _ | .makeFunctor _ => []

/-- What is done by a builtin, which may follow all its arguments. -/
def Builtin.touches (f : Builtin) (n : Nat) (store : Store) (rule : Option Rule) (b : Bindings)
    (args : List Term) : List Touch :=
  args.map (.deref b) ++
    match f.call ⟨b, n, store, rule⟩ args with
    | some (.ok (some pairs)) => b.allTouches n (pairs.map (·.1)) (pairs.map (·.2))
    | _ => []

section

variable {n : Nat} {b b' b'' o : Bindings} {l r t : Term} {ls rs ts : List Term} {v u : Nat}
  {xs ys : List Touch} {saved : List (Nat × Term)}

/-! ## The touches are all that is done -/

theorem Touch.Leads.append (h : Leads b xs b') (h' : Leads b' ys b'') :
    Leads b (xs ++ ys) b'' := by
  induction h with
  | done b => exact h'
  | deref _ ih => exact .deref (ih h')
  | bind _ ih => exact .bind (ih h')
  | newVar _ ih => exact .newVar (ih h')

theorem Touch.Leads.derefs (h : Leads b xs b') (ts : List Term) :
    Leads b (ts.map (.deref b) ++ xs) b' := by
  induction ts with
  | nil => exact h
  | cons t ts ih => exact .deref ih

theorem Touch.leads_derefs (b : Bindings) (ts : List Term) : Leads b (ts.map (.deref b)) b := by
  simpa using (Leads.done b).derefs ts

theorem Touch.leads_freshen (replaced : Term → Bool) (b : Bindings) (ts : List Term) :
    Leads b [] (b.freshen replaced ts).2 := by
  induction ts generalizing b with
  | nil => exact .done b
  | cons t ts ih =>
    rw [freshen_cons]
    split
    · exact .newVar (ih _)
    · exact ih b

namespace Bindings

theorem leads_mergeTouches (b : Bindings) (v u : Nat) :
    Touch.Leads b (b.mergeTouches v u) (b.merge v u) := by
  unfold mergeTouches merge
  split
  · exact .done b
  · split
    · exact .bind (.done _)
    · exact .bind (.done _)

theorem leads_eachTouches {one : Bindings → Term → Term → Option (Option Bindings)}
    {touches : Bindings → Term → Term → List Touch}
    (hone : ∀ {b b' : Bindings} {l r : Term}, one b l r = some (some b') →
      Touch.Leads b (touches b l r) b')
    (h : unifyEach one b ls rs = some (some b')) :
    Touch.Leads b (eachTouches one touches b ls rs) b' := by
  induction ls generalizing b rs with
  | nil =>
    obtain rfl : b = b' := by simpa [unifyEach] using h
    exact .done b
  | cons l ls ih =>
    cases rs with
    | nil =>
      obtain rfl : b = b' := by simpa [unifyEach] using h
      exact .done b
    | cons r rs =>
      rcases h1 : one b l r with _ | _ | b1
      · simp [unifyEach, h1] at h
      · simp [unifyEach, h1] at h
      · rw [unifyEach, h1] at h
        rw [eachTouches, h1]
        exact (hone h1).append (ih h)

/-- Both terms are followed. Then nothing is done, a variable is bound, or two variables are made
one, or the parts of the terms are unified. -/
theorem unifyTouches_cases (n : Nat) (b : Bindings) (l r : Term) :
    ∃ xs, b.unifyTouches (n + 1) l r = .deref b l :: .deref b r :: xs ∧
      ((xs = [] ∧ ∀ b', b.unify (n + 1) l r = some (some b') → b' = b) ∨
      (∃ v u, xs = b.mergeTouches v u ∧ b.unify (n + 1) l r = some (some (b.merge v u)) ∧
        b.deref l = .ref v ∧ b.deref r = .ref u) ∨
      (∃ v t, xs = [.bind b v t] ∧ b.unify (n + 1) l r = some (some (b.bind v t)) ∧
        (b.deref l = .ref v ∨ b.deref r = .ref v)) ∨
      ∃ f as bs, xs = eachTouches (unify n) (unifyTouches n) b as bs ∧
        b.unify (n + 1) l r = unifyEach (unify n) b as bs ∧ b.deref l = .app f as ∧
        b.deref r = .app f bs) := by
  refine ⟨_, rfl, ?_⟩
  generalize hl : b.deref l = l'
  generalize hr : b.deref r = r'
  cases Meeting.of l' r' with
  | wild h =>
    refine .inl ⟨?_, fun b' hu => ?_⟩
    · rcases h with (rfl | ⟨x, rfl⟩) | (rfl | ⟨x, rfl⟩)
      · rfl
      · rfl
      · cases l' <;> rfl
      · cases l' <;> rfl
    · rw [unify_wild (by rwa [hl, hr])] at hu
      cases hu
      rfl
  | refs v u => exact .inr (.inl ⟨v, u, rfl, unify_refs hl hr, rfl, rfl⟩)
  | refLeft v hw ht =>
    refine .inr (.inr (.inl ⟨v, r', ?_, unify_refLeft hl hr hw ht, .inl rfl⟩))
    cases r' <;> first | rfl | exact absurd rfl (ht _) | simp [Wild] at hw
  | refRight v hw ht =>
    refine .inr (.inr (.inl ⟨v, l', ?_, unify_refRight hl hr hw ht, .inr rfl⟩))
    cases l' <;> first | rfl | exact absurd rfl (ht _) | simp [Wild] at hw
  | nodes x y =>
    refine .inl ⟨rfl, fun b' hu => ?_⟩
    rw [unify_nodes hl hr] at hu
    split at hu <;> cases hu
    rfl
  | apps f g as bs =>
    by_cases hfg : f = g ∧ as.length = bs.length
    · obtain ⟨rfl, hlen⟩ := hfg
      refine .inr (.inr (.inr ⟨f, as, bs, if_pos ⟨rfl, hlen⟩, ?_, rfl, rfl⟩))
      rw [unify_apps hl hr, if_pos ⟨rfl, hlen⟩]
    · refine .inl ⟨if_neg hfg, fun b' hu => ?_⟩
      rw [unify_apps hl hr, if_neg hfg] at hu
      cases hu
  | nodeApp x f as =>
    refine .inl ⟨rfl, fun b' hu => ?_⟩
    rw [unify_nodeApp hl hr] at hu
    cases hu
  | appNode x f as =>
    refine .inl ⟨rfl, fun b' hu => ?_⟩
    rw [unify_appNode hl hr] at hu
    cases hu

theorem leads_unifyTouches (h : b.unify n l r = some (some b')) :
    Touch.Leads b (b.unifyTouches n l r) b' := by
  induction n generalizing b b' l r with
  | zero => cases h
  | succ n ih =>
    obtain ⟨xs, hxs, hcases⟩ := unifyTouches_cases n b l r
    rw [hxs]
    refine .deref (.deref ?_)
    rcases hcases with ⟨rfl, hb⟩ | ⟨v, u, rfl, hu, -⟩ | ⟨v, t, rfl, hu, -⟩ | ⟨f, as, bs, rfl, hu, -⟩
    · rw [hb b' h]
      exact .done b
    · cases h.symm.trans hu
      exact leads_mergeTouches b v u
    · cases h.symm.trans hu
      exact .bind (.done _)
    · exact leads_eachTouches ih (hu.symm.trans h)

theorem leads_allTouches (h : b.unifyAll n ls rs = some (some b')) :
    Touch.Leads b (b.allTouches n ls rs) b' :=
  leads_eachTouches leads_unifyTouches h

end Bindings

/-! ## Variables that are there -/

/-- Sane bindings, and terms whose variables are there, make a realm. -/
theorem sane_realm : Realm Bindings.Sane fun _ => True where
  ordered := fun h => h.ordered
  grow := fun k h => h.grow k
  newVar := fun h => h.newVar
  fresh := fun _ => trivial
  deref := fun h ht => h.deref ht
  bind := fun h _ hc ht => h.bind hc ht

theorem Bindings.Fits.meets (hb : b.Sane) (ht : b.Knows t) (h : b.Meets t v) : v < b.size := by
  induction h with
  | here hv => exact (ht _ hv).2 _ rfl
  | value _ hval _ ih => exact ih (hb.values _ _ hval)

theorem Touch.safe_deref (hb : b.Sane) (ht : b.Knows t) : (Touch.deref b t).Safe :=
  fun _ => hb.meets ht

theorem Touch.safe_derefs (hb : b.Sane) (hts : ∀ t ∈ ts, b.Knows t) :
    ∀ x ∈ ts.map (Touch.deref b), x.Safe := by
  intro x hx
  obtain ⟨t, ht, rfl⟩ := List.mem_map.1 hx
  exact safe_deref hb (hts t ht)

/-- A variable that a term is followed to can be bound. -/
theorem Touch.safe_bind (hb : b.Sane) (hl : b.Knows l) (hv : b.deref l = .ref v) (t : Term) :
    (Touch.bind b v t).Safe := by
  have hscoped := hb.deref hl
  rw [hv] at hscoped
  exact ⟨(Term.has_ref.1 hscoped).2 v rfl, value?_of_deref_eq_ref hb.ordered hv⟩

namespace Bindings

theorem mergeTouches_safe (hb : b.Sane) (hl : b.Knows l) (hr : b.Knows r)
    (hv : b.deref l = .ref v) (hu : b.deref r = .ref u) :
    ∀ x ∈ b.mergeTouches v u, x.Safe := by
  intro x hx
  unfold mergeTouches at hx
  split at hx
  · cases hx
  · split at hx
    · obtain rfl := List.mem_singleton.1 hx
      exact Touch.safe_bind hb hl hv _
    · obtain rfl := List.mem_singleton.1 hx
      exact Touch.safe_bind hb hr hu _

theorem eachTouches_safe {one : Bindings → Term → Term → Option (Option Bindings)}
    {touches : Bindings → Term → Term → List Touch}
    (hsafe : ∀ {b : Bindings} {l r : Term}, b.Sane → b.Knows l → b.Knows r →
      ∀ x ∈ touches b l r, x.Safe)
    (hone : ∀ {b b' : Bindings} {l r : Term}, b.Sane → b.Knows l → b.Knows r →
      one b l r = some (some b') → b'.Sane ∧ b'.size = b.size)
    (hb : b.Sane) (hls : ∀ t ∈ ls, b.Knows t) (hrs : ∀ t ∈ rs, b.Knows t) :
    ∀ x ∈ eachTouches one touches b ls rs, x.Safe := by
  induction ls generalizing b rs with
  | nil => exact List.forall_mem_nil _
  | cons l ls ih =>
    cases rs with
    | nil => exact List.forall_mem_nil _
    | cons r rs =>
      obtain ⟨hl, hls⟩ := List.forall_mem_cons.1 hls
      obtain ⟨hr, hrs⟩ := List.forall_mem_cons.1 hrs
      intro x hx
      rw [eachTouches, List.mem_append] at hx
      rcases hx with hx | hx
      · exact hsafe hb hl hr x hx
      · split at hx
        · next b' hb' =>
          obtain ⟨hsane, hsize⟩ := hone hb hl hr hb'
          have hle := Nat.le_of_eq hsize.symm
          exact ih hsane (fun t ht => (hls t ht).mono hle) (fun t ht => (hrs t ht).mono hle) x hx
        · cases hx

/-- To unify terms whose variables are there is safe. -/
theorem unifyTouches_safe (hb : b.Sane) (hl : b.Knows l) (hr : b.Knows r) :
    ∀ x ∈ b.unifyTouches n l r, x.Safe := by
  induction n generalizing b l r with
  | zero => exact List.forall_mem_nil _
  | succ n ih =>
    obtain ⟨xs, hxs, hcases⟩ := unifyTouches_cases n b l r
    rw [hxs]
    refine List.forall_mem_cons.2 ⟨Touch.safe_deref hb hl,
      List.forall_mem_cons.2 ⟨Touch.safe_deref hb hr, ?_⟩⟩
    rcases hcases with ⟨rfl, -⟩ | ⟨v, u, rfl, -, hv, hu⟩ | ⟨v, t, rfl, -, hv⟩ |
      ⟨f, as, bs, rfl, -, has, hbs⟩
    · exact List.forall_mem_nil _
    · exact mergeTouches_safe hb hl hr hv hu
    · intro x hx
      obtain rfl := List.mem_singleton.1 hx
      rcases hv with hv | hv
      · exact Touch.safe_bind hb hl hv t
      · exact Touch.safe_bind hb hr hv t
    · have hl' := hb.deref hl
      have hr' := hb.deref hr
      rw [has] at hl'
      rw [hbs] at hr'
      exact eachTouches_safe ih (fun h1 h2 h3 => sane_realm.unify h1 h2 h3) hb
        (Term.has_app.1 hl') (Term.has_app.1 hr')

theorem allTouches_safe (hb : b.Sane) (hls : ∀ t ∈ ls, b.Knows t) (hrs : ∀ t ∈ rs, b.Knows t) :
    ∀ x ∈ b.allTouches n ls rs, x.Safe :=
  eachTouches_safe unifyTouches_safe (fun h1 h2 h3 => sane_realm.unify h1 h2 h3) hb hls hrs

/-! ## Snapshots -/

theorem replayTouches_safe (hnodup : (saved.map (·.1)).Nodup)
    (h : ∀ p ∈ saved, p.1 < b.size ∧ b.value? p.1 = none) :
    ∀ x ∈ b.replayTouches saved, x.Safe := by
  induction saved generalizing b with
  | nil => exact List.forall_mem_nil _
  | cons p saved ih =>
    obtain ⟨hp, hrest⟩ := List.forall_mem_cons.1 h
    obtain ⟨hnew, hnodup⟩ := List.nodup_cons.1 hnodup
    refine List.forall_mem_cons.2 ⟨hp, ih hnodup fun q hq => ?_⟩
    obtain ⟨hlt, hnone⟩ := hrest q hq
    have hne : p.1 ≠ q.1 := fun e => hnew (List.mem_map.2 ⟨q, hq, e.symm⟩)
    rw [size_bind, value?_bind hp.1, if_neg hne]
    exact ⟨hlt, hnone⟩

/-- A snapshot has the variables of the trail, first the one that was bound first. -/
theorem Trailed.snapshot_vars (ho : o.Trailed) : o.snapshot.map (·.1) = o.trail.reverse := by
  unfold snapshot
  rw [List.map_filterMap]
  have hall : ∀ v ∈ o.trail.reverse,
      ((o.value? v).map (v, ·)).map (fun p : Nat × Term => p.1) = some v := by
    intro v hv
    obtain ⟨t, ht⟩ := Option.isSome_iff_exists.1 ((ho.mem_iff v).1 (List.mem_reverse.1 hv))
    rw [ht]
    rfl
  rw [List.filterMap_congr hall, List.filterMap_some]

/-- To bind the variables of a snapshot again is safe where no fewer variables are there. -/
theorem Trailed.restoreTouches_safe (ho : o.Trailed) (hb : b.Trailed) (hle : o.size ≤ b.size) :
    ∀ x ∈ b.restoreTouches o.snapshot, x.Safe := by
  refine replayTouches_safe ?_ fun p hp => ?_
  · rw [ho.snapshot_vars]
    exact List.nodup_reverse.2 ho.nodup
  · have hmem : p.1 ∈ o.trail := by
      rw [← List.mem_reverse, ← ho.snapshot_vars]
      exact List.mem_map_of_mem hp
    obtain ⟨t, ht⟩ := Option.isSome_iff_exists.1 ((ho.mem_iff p.1).1 hmem)
    rw [size_unwind]
    exact ⟨Nat.lt_of_lt_of_le (ho.ordered.bound_lt ht) hle, hb.unwind_all.2 p.1⟩

end Bindings

end

/-! ## Operations -/

/-- The constants of the operation are ground, and no parts of a compound object are compound. -/
def Operation.Plain : Operation → Prop
  | .getConstant _ constant | .putConstant _ constant => constant.isGround = true
  | .getFunctor shape => ∀ t ∈ shape.args, t.isApp = false
  | _ => True

section
open Registers

variable {clause : String} {n : Nat} {g g' : Registers} {op : Operation} {object : Term}
  {args : List Term} {b b' : Bindings} {shape : Compound} {name : String} {store : Store}
  {rule : Option Rule} {f : Builtin}

namespace Bindings

theorem leads_functorTouches
    (h : b.openObject object shape.name shape.args = some (args, b')) :
    Touch.Leads b (b.functorTouches object shape) b' := by
  unfold functorTouches
  unfold openObject at h
  refine .deref ?_
  split at h
  · next hd =>
    split at h <;> cases h
    rw [hd]
    exact .done b
  · next hd =>
    cases h
    rw [hd]
    exact (Touch.leads_freshen Term.isVar b shape.args).append (.bind (.done _))
  · next hd =>
    have hall := Touch.leads_freshen (fun _ => true) b shape.args
    rw [Option.some.inj h] at hall
    rw [hd]
    exact hall
  · next hd =>
    have hall := Touch.leads_freshen (fun _ => true) b shape.args
    rw [Option.some.inj h] at hall
    rw [hd]
    exact hall
  · cases h

theorem functorTouches_safe (hb : b.Sane) (ho : b.Knows object)
    (hshape : ∀ t ∈ shape.args, t.isApp = false) :
    ∀ x ∈ b.functorTouches object shape, x.Safe := by
  have hleaf : ∀ t ∈ shape.args, t.isVar = true ∨ t.isGround = true := by
    intro t ht
    have := hshape t ht
    cases t <;> simp_all [Term.isVar, Term.isApp]
  refine List.forall_mem_cons.2 ⟨Touch.safe_deref hb ho, ?_⟩
  split
  · next v hd =>
    obtain ⟨-, hle, -, hsame⟩ := sane_realm.freshen Term.isVar hb hleaf
    obtain ⟨hlt, hnone⟩ := Touch.safe_bind hb ho hd object
    intro x hx
    obtain rfl := List.mem_singleton.1 hx
    exact ⟨Nat.lt_of_lt_of_le hlt hle, (hsame v).trans hnone⟩
  · exact List.forall_mem_nil _

end Bindings

namespace Registers

/-- What a unification in the registers comes from. -/
theorem unify_ok {y : Except Failure (Term × Term)} (h : g.unify n y = some (.ok (some g'))) :
    ∃ l r b', y = .ok (l, r) ∧ g.bindings.unify n l r = some (some b') ∧
      g' = { g with bindings := b' } := by
  rcases y with e | ⟨l, r⟩
  · cases h
  · obtain ⟨x, hx, h⟩ := Option.map_eq_some_iff.1 h
    cases x with
    | none => cases h
    | some b' =>
      cases h
      exact ⟨l, r, b', rfl, hx, rfl⟩

/-- The parts of the object are set. -/
theorem getFunctor_opens (h : g.getFunctor clause shape = .ok (some g')) :
    ∃ object args, g.value? (.arg 2) = some object ∧
      g.bindings.openObject object shape.name shape.args = some (args, g'.bindings) ∧
      ∀ j t, args[j]? = some t → g'.value? (.arg (argBase + j)) = some t := by
  obtain ⟨a, ha, h⟩ := ok_of_bind h
  refine ⟨a, ?_⟩
  split at h
  · next f args hd =>
    split at h
    · next heq =>
      obtain ⟨g1, h1, h2⟩ := ok_of_map h
      cases h2
      refine ⟨args, value?_of_arg ha, ?_, (value?_setArgs h1).1⟩
      rw [Bindings.openObject, hd, bindings_setArgs h1]
      exact if_pos heq
    · cases h
  · next v hd =>
    obtain ⟨g1, h1, h2⟩ := ok_of_bind h
    cases h2
    refine ⟨(g.bindings.freshen Term.isVar shape.args).1, value?_of_arg ha, ?_, fun j t hj => ?_⟩
    · rw [Bindings.openObject, hd, bindings_setArgs h1, freshen_eq]
    · rw [value?_bindings]
      refine (value?_setArgs h1).1 j t ?_
      rw [freshen_eq]
      exact hj
  · next hd =>
    obtain ⟨g1, h1, h2⟩ := ok_of_map h
    cases h2
    refine ⟨_, value?_of_arg ha, ?_, (value?_setArgs h1).1⟩
    rw [Bindings.openObject, hd, bindings_setArgs h1, freshen_eq]
  · next hd =>
    obtain ⟨g1, h1, h2⟩ := ok_of_map h
    cases h2
    refine ⟨_, value?_of_arg ha, ?_, (value?_setArgs h1).1⟩
    rw [Bindings.openObject, hd, bindings_setArgs h1, freshen_eq]
  · cases h

theorem unifyTouches_safe {x y : Option Term} (hb : g.bindings.Sane)
    (hx : ∀ t, x = some t → g.bindings.Knows t) (hy : ∀ t, y = some t → g.bindings.Knows t) :
    ∀ z ∈ g.unifyTouches n x y, z.Safe := by
  cases x with
  | none => exact List.forall_mem_nil _
  | some l =>
    cases y with
    | none => exact List.forall_mem_nil _
    | some r => exact Bindings.unifyTouches_safe hb (hx l rfl) (hy r rfl)

end Registers

namespace Operation

/-- What an operation does to variables leads to the bindings that it leaves behind. -/
theorem leads_touches (h : op.run clause n g = some (.ok (some g'))) :
    Touch.Leads g.bindings (op.touches n g) g'.bindings := by
  have unified : ∀ {l r : Term} {b' : Bindings}, g.bindings.unify n l r = some (some b') →
      ∀ {x y : Option Term}, x = some l → y = some r →
      Touch.Leads g.bindings (g.unifyTouches n x y) b' := by
    rintro l r b' hu x y rfl rfl
    exact leads_unifyTouches hu
  cases op with
  | testBound arg | testUnbound arg =>
    obtain ⟨a, ha, h⟩ := ok_of_bind (Option.some.inj h)
    split at h <;> cases h
    rw [touches, value?_of_arg ha]
    exact Touch.leads_derefs _ [a]
  | getVariable slot arg =>
    obtain ⟨a, -, h⟩ := ok_of_bind (Option.some.inj h)
    obtain ⟨g1, h1, h2⟩ := ok_of_map h
    cases h2
    rw [bindings_setVar h1]
    exact .done _
  | getTemp temp arg =>
    obtain ⟨a, -, h⟩ := ok_of_bind (Option.some.inj h)
    obtain ⟨g1, h1, h2⟩ := ok_of_map h
    cases h2
    rw [bindings_setTemp h1]
    exact .done _
  | getConstant arg constant =>
    obtain ⟨l, r, b', hy, hu, rfl⟩ := Registers.unify_ok h
    obtain ⟨a, ha, hy⟩ := ok_of_bind hy
    cases hy
    exact unified hu (value?_of_arg ha) rfl
  | unifyVariable slot arg =>
    obtain ⟨l, r, b', hy, hu, rfl⟩ := Registers.unify_ok h
    obtain ⟨a, ha, hy⟩ := ok_of_bind hy
    obtain ⟨t, ht, hy⟩ := ok_of_bind hy
    cases hy
    exact unified hu (value?_of_arg ha) (value?_of_var ht)
  | unifyTemp temp arg =>
    obtain ⟨l, r, b', hy, hu, rfl⟩ := Registers.unify_ok h
    obtain ⟨a, ha, hy⟩ := ok_of_bind hy
    obtain ⟨t, ht, hy⟩ := ok_of_bind hy
    cases hy
    exact unified hu (value?_of_arg ha) (value?_of_temp ht)
  | getFunctor shape =>
    obtain ⟨object, args, hobject, hopen, -⟩ := getFunctor_opens (Option.some.inj h)
    rw [touches, hobject]
    exact leads_functorTouches hopen
  | putNewVariable slot arg =>
    obtain ⟨g1, h1, h⟩ := ok_of_bind (Option.some.inj h)
    obtain ⟨g2, h2, h3⟩ := ok_of_map h
    cases h3
    rw [bindings_setArg h2, bindings_setVar h1]
    exact .newVar (.done _)
  | putDerefVariable slot arg =>
    obtain ⟨a, ha, h⟩ := ok_of_bind (Option.some.inj h)
    obtain ⟨g1, h1, h2⟩ := ok_of_map h
    cases h2
    rw [touches, value?_of_var ha, bindings_setArg h1]
    exact Touch.leads_derefs _ [a]
  | putVariable slot arg | putTemp temp arg =>
    obtain ⟨a, -, h⟩ := ok_of_bind (Option.some.inj h)
    obtain ⟨g1, h1, h2⟩ := ok_of_map h
    cases h2
    rw [bindings_setArg h1]
    exact .done _
  | putConstant arg constant =>
    obtain ⟨g1, h1, h2⟩ := ok_of_map (Option.some.inj h)
    cases h2
    rw [bindings_setArg h1]
    exact .done _
  | clearArg arg =>
    obtain ⟨g1, h1, h2⟩ := ok_of_map (Option.some.inj h)
    cases h2
    rw [bindings_setArg h1]
    exact .newVar (.done _)
  | makeFunctor shape =>
    obtain ⟨a, -, h⟩ := ok_of_bind (Option.some.inj h)
    obtain ⟨g1, h1, h2⟩ := ok_of_map h
    cases h2
    rw [bindings_setArg h1]
    exact .done _

/-- What an operation does is safe where the variables are there of all terms that it reads. -/
theorem touches_safe (hb : g.bindings.Sane) (hop : op.Plain)
    (hreads : ∀ x ∈ op.reads, ∀ t, g.value? x = some t → g.bindings.Knows t) :
    ∀ z ∈ op.touches n g, z.Safe := by
  have derefs : ∀ x ∈ op.reads, ∀ z ∈ (g.value? x).toList.map (Touch.deref g.bindings), z.Safe :=
    fun x hx => Touch.safe_derefs hb fun t ht => hreads x hx t (Option.mem_toList.1 ht)
  cases op with
  | testBound arg | testUnbound arg | putDerefVariable slot arg => exact derefs _ (by simp [reads])
  | getConstant arg constant =>
    refine unifyTouches_safe hb (hreads _ (by simp [reads])) fun t ht => ?_
    cases ht
    exact .of_isGround hop
  | unifyVariable slot arg | unifyTemp temp arg =>
    exact unifyTouches_safe hb (hreads _ (by simp [reads])) (hreads _ (by simp [reads]))
  | getFunctor shape =>
    cases ho : g.value? (.arg 2) with
    | none =>
      rw [touches, ho]
      exact List.forall_mem_nil _
    | some object =>
      rw [touches, ho]
      exact functorTouches_safe hb (hreads _ (by simp [reads]) _ ho) hop
  | _ => exact List.forall_mem_nil _

/-- The variables are there, too, of all terms that an operation sets. -/
theorem knows_run (hb : g.bindings.Sane) (hop : op.Plain)
    (hreads : ∀ x ∈ op.reads, ∀ t, g.value? x = some t → g.bindings.Knows t)
    (h : op.run clause n g = some (.ok (some g'))) :
    g'.bindings.Sane ∧ g.bindings.size ≤ g'.bindings.size ∧
      ∀ x ∈ op.sets, ∀ t, g'.value? x = some t → g'.bindings.Knows t := by
  have nothing : g' = g → op.sets = [] → g'.bindings.Sane ∧
      g.bindings.size ≤ g'.bindings.size ∧
      ∀ x ∈ op.sets, ∀ t, g'.value? x = some t → g'.bindings.Knows t := by
    rintro rfl hsets
    exact ⟨hb, Nat.le_refl _, by simp [hsets]⟩
  have one : ∀ y t, g'.value? y = some t → op.sets = [y] → g'.bindings = g.bindings →
      g.bindings.Knows t → g'.bindings.Sane ∧ g.bindings.size ≤ g'.bindings.size ∧
      ∀ x ∈ op.sets, ∀ t, g'.value? x = some t → g'.bindings.Knows t := by
    intro y t hval hsets he ht
    rw [he]
    refine ⟨hb, Nat.le_refl _, fun x hx u hu => ?_⟩
    obtain rfl : x = y := by simpa [hsets] using hx
    cases hval.symm.trans hu
    exact ht
  have unified : ∀ {l r : Term} {b' : Bindings}, g.bindings.unify n l r = some (some b') →
      g.bindings.Knows l → g.bindings.Knows r → g' = { g with bindings := b' } → op.sets = [] →
      g'.bindings.Sane ∧ g.bindings.size ≤ g'.bindings.size ∧
      ∀ x ∈ op.sets, ∀ t, g'.value? x = some t → g'.bindings.Knows t := by
    rintro l r b' hu hl hr rfl hsets
    obtain ⟨h1, h2⟩ := sane_realm.unify hb hl hr hu
    exact ⟨h1, Nat.le_of_eq h2.symm, by simp [hsets]⟩
  cases op with
  | testBound arg | testUnbound arg =>
    obtain ⟨a, -, h⟩ := ok_of_bind (Option.some.inj h)
    split at h <;> cases h
    exact nothing rfl rfl
  | getVariable slot arg =>
    obtain ⟨a, ha, h⟩ := ok_of_bind (Option.some.inj h)
    obtain ⟨g1, h1, h2⟩ := ok_of_map h
    cases h2
    exact one _ a ((value?_setVar h1 _).trans (if_pos rfl)) rfl (bindings_setVar h1)
      (hreads _ (by simp [reads]) a (value?_of_arg ha))
  | getTemp temp arg =>
    obtain ⟨a, ha, h⟩ := ok_of_bind (Option.some.inj h)
    obtain ⟨g1, h1, h2⟩ := ok_of_map h
    cases h2
    exact one _ a ((value?_setTemp h1 _).trans (if_pos rfl)) rfl (bindings_setTemp h1)
      (hreads _ (by simp [reads]) a (value?_of_arg ha))
  | getConstant arg constant =>
    obtain ⟨l, r, b', hy, hu, hg⟩ := Registers.unify_ok h
    obtain ⟨a, ha, hy⟩ := ok_of_bind hy
    cases hy
    exact unified hu (hreads _ (by simp [reads]) _ (value?_of_arg ha)) (.of_isGround hop) hg rfl
  | unifyVariable slot arg =>
    obtain ⟨l, r, b', hy, hu, hg⟩ := Registers.unify_ok h
    obtain ⟨a, ha, hy⟩ := ok_of_bind hy
    obtain ⟨t, ht, hy⟩ := ok_of_bind hy
    cases hy
    exact unified hu (hreads _ (by simp [reads]) _ (value?_of_arg ha))
      (hreads _ (by simp [reads]) _ (value?_of_var ht)) hg rfl
  | unifyTemp temp arg =>
    obtain ⟨l, r, b', hy, hu, hg⟩ := Registers.unify_ok h
    obtain ⟨a, ha, hy⟩ := ok_of_bind hy
    obtain ⟨t, ht, hy⟩ := ok_of_bind hy
    cases hy
    exact unified hu (hreads _ (by simp [reads]) _ (value?_of_arg ha))
      (hreads _ (by simp [reads]) _ (value?_of_temp ht)) hg rfl
  | getFunctor shape =>
    obtain ⟨object, args, hobject, hopen, hset⟩ := getFunctor_opens (Option.some.inj h)
    obtain ⟨h1, h2, h3⟩ := sane_realm.openObject hb (hreads _ (by simp [reads]) _ hobject) hop hopen
    refine ⟨h1, h2, fun x hx t ht => ?_⟩
    obtain ⟨j, hj, rfl⟩ := List.mem_map.1 hx
    have hlt : j < args.length := by
      rw [length_openObject hopen]
      simpa using hj
    have hval := hset j _ (List.getElem?_eq_getElem hlt)
    cases hval.symm.trans ht
    exact h3 _ (List.getElem_mem hlt)
  | putNewVariable slot arg =>
    obtain ⟨g1, h1, h⟩ := ok_of_bind (Option.some.inj h)
    obtain ⟨g2, h2, h3⟩ := ok_of_map h
    cases h3
    have hbindings : g'.bindings = g.bindings.newVar.2 := by
      rw [bindings_setArg h2, bindings_setVar h1]
      rfl
    have hnew : ∀ t, t = .ref g.bindings.size → g.bindings.newVar.2.Knows t := by
      rintro t rfl
      exact sane_realm.scoped_fresh hb
    rw [hbindings]
    refine ⟨hb.newVar, Nat.le_succ _, fun x hx t ht => hnew t ?_⟩
    rw [value?_setArg h2, value?_setVar h1] at ht
    split at ht
    · cases ht
      rfl
    · next hne =>
      have hslot : x = .slot slot := by
        rcases List.mem_cons.1 hx with rfl | hx
        · rfl
        · exact absurd (List.mem_singleton.1 hx) hne
      rw [if_pos hslot] at ht
      cases ht
      rfl
  | putVariable slot arg =>
    obtain ⟨a, ha, h⟩ := ok_of_bind (Option.some.inj h)
    obtain ⟨g1, h1, h2⟩ := ok_of_map h
    cases h2
    exact one _ a ((value?_setArg h1 _).trans (if_pos rfl)) rfl (bindings_setArg h1)
      (hreads _ (by simp [reads]) a (value?_of_var ha))
  | putDerefVariable slot arg =>
    obtain ⟨a, ha, h⟩ := ok_of_bind (Option.some.inj h)
    obtain ⟨g1, h1, h2⟩ := ok_of_map h
    cases h2
    exact one _ _ ((value?_setArg h1 _).trans (if_pos rfl)) rfl (bindings_setArg h1)
      (hb.deref (hreads _ (by simp [reads]) a (value?_of_var ha)))
  | putTemp temp arg =>
    obtain ⟨a, ha, h⟩ := ok_of_bind (Option.some.inj h)
    obtain ⟨g1, h1, h2⟩ := ok_of_map h
    cases h2
    exact one _ a ((value?_setArg h1 _).trans (if_pos rfl)) rfl (bindings_setArg h1)
      (hreads _ (by simp [reads]) a (value?_of_temp ha))
  | putConstant arg constant =>
    obtain ⟨g1, h1, h2⟩ := ok_of_map (Option.some.inj h)
    cases h2
    exact one _ _ ((value?_setArg h1 _).trans (if_pos rfl)) rfl (bindings_setArg h1)
      (.of_isGround hop)
  | clearArg arg =>
    obtain ⟨g1, h1, h2⟩ := ok_of_map (Option.some.inj h)
    cases h2
    have hbindings : g'.bindings = g.bindings.newVar.2 := bindings_setArg h1
    rw [hbindings]
    refine ⟨hb.newVar, Nat.le_succ _, fun x hx t ht => ?_⟩
    rw [value?_setArg h1, if_pos (by simpa [sets] using hx)] at ht
    cases ht
    exact sane_realm.scoped_fresh hb
  | makeFunctor shape =>
    obtain ⟨args, hargs, h⟩ := ok_of_bind (Option.some.inj h)
    obtain ⟨g1, h1, h2⟩ := ok_of_map h
    cases h2
    refine one _ _ ((value?_setArg h1 _).trans (if_pos rfl)) rfl (bindings_setArg h1)
      (Term.has_app.2 fun t ht => ?_)
    obtain ⟨j, hj, hval⟩ := argsFrom_value? hargs t ht
    exact hreads (.arg (argBase + j)) (List.mem_map.2 ⟨j, List.mem_range.2 hj, rfl⟩) t hval

end Operation

/-! ## Builtins -/

/-- What a standard builtin unifies is an argument and a ground term. -/
theorem Builtin.standard_pairs (hf : Builtin.standard.get? name = some f)
    {pairs : List (Term × Term)} (h : f.call ⟨b, n, store, rule⟩ args = some (.ok (some pairs))) :
    ∀ p ∈ pairs, p.1 ∈ args ∧ p.2.isGround = true := by
  have hmem : f = equal ∨ f = notEqual ∨ f = bound ∨ f = unbound ∨ f = lessThan ∨
      f = greaterThan ∨ f = sum ∨ f = noValue := by
    simpa [standard] using (standard_of_get? hf).1
  have tested : ∀ {name : String} {arity : Nat} {holds : CallContext → List Term → Option Bool},
      (test name arity holds).call ⟨b, n, store, rule⟩ args = some (.ok (some pairs)) →
      ∀ p ∈ pairs, p.1 ∈ args ∧ p.2.isGround = true := by
    intro name arity holds hcall
    obtain ⟨yes, -, hyes⟩ := Option.map_eq_some_iff.1 hcall
    cases yes <;> cases hyes
    exact List.forall_mem_nil _
  rcases hmem with rfl | rfl | rfl | rfl | rfl | rfl | rfl | rfl
  · exact tested h
  · exact tested h
  · exact tested h
  · exact tested h
  · exact tested h
  · exact tested h
  · unfold sum at h
    simp only at h
    split at h
    · obtain ⟨x, -, h⟩ := Option.bind_eq_some_iff.1 h
      obtain ⟨y, -, h⟩ := Option.bind_eq_some_iff.1 h
      split at h
      · split at h
        · cases h
          simp
        · cases h
      · cases h
    · cases h
  · have absent : ∀ {s p o : Term},
        ((⟨s, p, o⟩ : Triple).mapTerms? (CallContext.deref ⟨b, n, store, rule⟩)).bind
          (fun pattern => some ((store.contains pattern).map fun found =>
            if found then none else some [])) = some (.ok (some pairs)) → pairs = [] := by
      intro s p o hp
      obtain ⟨pattern, -, hp⟩ := Option.bind_eq_some_iff.1 hp
      cases hc : store.contains pattern with
      | error e => simp [hc, Except.map] at hp
      | ok found => cases found <;> simp_all [Except.map]
    have hnil : pairs = [] := by
      unfold noValue at h
      simp only at h
      split at h
      · exact absent h
      · exact absent h
      · cases h
    subst hnil
    exact List.forall_mem_nil _

theorem Builtin.leads_touches (h : f.run n store rule b args = some (.ok (some b'))) :
    Touch.Leads b (f.touches n store rule b args) b' := by
  unfold run at h
  refine Touch.Leads.derefs ?_ args
  split at h
  · cases h
  · cases h
  · cases h
  · next hcall =>
    obtain ⟨x, hx, h⟩ := Option.map_eq_some_iff.1 h
    cases h
    rw [hcall]
    exact leads_allTouches hx

theorem Builtin.touches_safe (hf : Builtin.standard.get? name = some f) (hb : b.Sane)
    (hargs : ∀ t ∈ args, b.Knows t) : ∀ z ∈ f.touches n store rule b args, z.Safe := by
  intro z hz
  rcases List.mem_append.1 hz with hz | hz
  · exact Touch.safe_derefs hb hargs z hz
  · split at hz
    · next pairs hcall =>
      have hpairs := standard_pairs hf hcall
      refine allTouches_safe hb (fun t ht => ?_) (fun t ht => ?_) z hz
      · obtain ⟨p, hp, rfl⟩ := List.mem_map.1 ht
        exact hargs _ (hpairs p hp).1
      · obtain ⟨p, hp, rfl⟩ := List.mem_map.1 ht
        exact .of_isGround (hpairs p hp).2
    · cases hz

theorem Builtin.sane_run (hf : Builtin.standard.get? name = some f) (hb : b.Sane)
    (hargs : ∀ t ∈ args, b.Knows t) (h : f.run n store rule b args = some (.ok (some b'))) :
    b'.Sane ∧ b'.size = b.size := by
  rcases standard_binds hf h with rfl | ⟨u, hu, i, hunify⟩
  · exact ⟨hb, rfl⟩
  · exact sane_realm.unify hb (hargs u hu) (.of_isGround (Term.isGround_node _)) hunify

end

end TabledRules
