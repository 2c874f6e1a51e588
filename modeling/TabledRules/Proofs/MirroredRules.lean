-- Rules on the two sides of a mirror. The one side matches a head with the goal
-- leaf by leaf and gives a variable the term that it meets first; the other one
-- has renamed the rule and unifies. So the variables of the right side that the
-- left one has not met yet are kept free, and all else is the same.
import TabledRules.Proofs.Evaluation

namespace TabledRules

open Bindings

/-! ## Twins -/

/-- Two evaluations have come equally far. Ground terms say the same on both sides, and the
variables of `G` are not in use on the right one. -/
structure Twins (S : Pairing) (G : Set Nat) (b b' : Bindings) : Prop
    extends Mirror S S ∅ G b b' where
  ground : ∀ t : Term, t.isGround = true → S t t

section

variable {S S' R : Pairing} {F G H : Set Nat} {b b' : Bindings} {t t' l l' y y' : Term} {v n : Nat}

theorem Twins.less (h : Twins S G b b') (hF : F ⊆ G) : Twins S F b b' :=
  ⟨h.toMirror.mono le_rfl le_rfl subset_rfl hF, h.ground⟩

/-- The sides stay twins with one more pair. -/
theorem Twins.of_insert (hg : ∀ t : Term, t.isGround = true → S t t)
    (h : Mirror (S.insert t t') S H G b b') : Twins (S.insert t t') G b b' :=
  ⟨h.mono le_rfl (S.le_insert t t') (Set.empty_subset H) subset_rfl,
    fun u hu => S.le_insert t t' _ _ (hg u hu)⟩

theorem Twins.unify (h : Twins S G b b') (hl : S l l') (ht : S t t') {x : Option Bindings}
    (hx : b.unify n l t = some x) :
    ∃ x', b'.unify n l' t' = some x' ∧ Option.Rel (Twins S G) x x' := by
  have hu := h.toMirror.unify hl ht n
  rw [hx] at hu
  generalize b'.unify n l' t' = z at hu
  cases hu with
  | some hz =>
    refine ⟨_, rfl, ?_⟩
    cases hz with
    | none => exact .none
    | some hc => exact .some ⟨hc, h.ground⟩

/-- A variable that is not in use takes up a term on the right side. -/
theorem Twins.meet (h : Twins S G b b') (hy : S y y') (hv : v ∈ G) :
    ∃ c', (∀ n, b'.unify (n + 1) y' (.ref v) = some (some c')) ∧
      Twins (S.insert y (.ref v)) (G \ {v}) b c' := by
  obtain ⟨c', hc', -, hm⟩ := h.toMirror.meet_right hy hv
  exact ⟨c', hc', .of_insert h.ground hm⟩

theorem Twins.insert_of_same (h : Twins S G b b') (hy : S y y')
    (ht : b.deref t = b.deref y) (ht' : b'.deref t' = b'.deref y') : Twins (S.insert t t') G b b' :=
  .of_insert h.ground (h.toMirror.insert_of_same hy ht ht')

/-- The left side makes a variable for one that the right side has. -/
theorem Twins.newVar (h : Twins S G b b') (hv : v ∈ G) :
    Twins (S.insert (.ref b.size) (.ref v)) (G \ {v}) b.newVar.2 b' :=
  .of_insert h.ground (h.toMirror.newVar_left.insert_free (.inr rfl) hv)

/-- Both sides make a variable. -/
theorem Twins.newVars (h : Twins S G b b') :
    Twins (S.insert (.ref b.size) (.ref b'.size)) G b.newVar.2 b'.newVar.2 := by
  have hleft : b.size ∈ ∅ ∪ ({b.size} : Set Nat) := .inr rfl
  have hright : b'.size ∈ G ∪ {b'.size} := .inr rfl
  have hnew := h.toMirror.newVar_left.newVar_right.insert_free hleft hright
  refine .of_insert h.ground (hnew.mono le_rfl le_rfl subset_rfl fun v hv => ⟨.inl hv, ?_⟩)
  rintro rfl
  exact Nat.lt_irrefl _ (h.right.free hv).1

end

/-! ## Values of a rule -/

/-- The variables of the rule that are met stand for their values. Those that are not are free,
as the variables of `F` are, which belong to others. -/
structure Mirrored (r : Rule) (name : String → Nat) (S : Pairing) (F G : Set Nat) (θ : Values) :
    Prop where
  inj : ∀ v ∈ r.names, ∀ u ∈ r.names, name v = name u → v = u
  apart : ∀ v ∈ r.names, name v ∉ F
  keeps : F ⊆ G
  met : ∀ v ∈ r.names, ∀ t, θ v = some t → S t (.ref (name v))
  unmet : ∀ v ∈ r.names, θ v = none → name v ∈ G

/-- A match and a unification come out the same. -/
inductive Entered (r : Rule) (name : String → Nat) (S : Pairing) (F : Set Nat) :
    Option (Values × Bindings) → Option Bindings → Prop
  | none : Entered r name S F none none
  | some {S' : Pairing} {G : Set Nat} {θ : Values} {b b' : Bindings} : S ≤ S' → Twins S' G b b' →
    Mirrored r name S' F G θ → Entered r name S F (some (θ, b)) (some b')

section

variable {r : Rule} {name : String → Nat} {S S' R : Pairing} {F F' G H : Set Nat} {θ : Values}
  {b b' b1 : Bindings} {t t' arg arg' : Term} {args args' ts us : List Term} {v : String}
  {W X : List Nat} {n k w : Nat} {x : Option (Values × Bindings)} {y : Option Bindings}

theorem Mirrored.mono (h : Mirrored r name S F G θ) (hS : S ≤ S') : Mirrored r name S' F G θ :=
  ⟨h.inj, h.apart, h.keeps, fun v hv t ht => hS _ _ (h.met v hv t ht), h.unmet⟩

theorem Mirrored.less (h : Mirrored r name S F G θ) (hF : F' ⊆ F) : Mirrored r name S F' G θ :=
  ⟨h.inj, fun v hv hin => h.apart v hv (hF hin), hF.trans h.keeps, h.met, h.unmet⟩

/-- A variable is met. -/
theorem Mirrored.learn (h : Mirrored r name S F G θ) (hv : v ∈ r.names) (t : Term) :
    Mirrored r name (S.insert t (.ref (name v))) F (G \ {name v}) (θ.set v t) where
  inj := h.inj
  apart := h.apart
  keeps := fun w hw => ⟨h.keeps hw, fun e => h.apart v hv (e ▸ hw)⟩
  met := by
    intro u hu s hs
    by_cases e : u = v
    · subst e
      rw [Values.set_self] at hs
      cases hs
      exact S.insert_self _ _
    · rw [Values.set_of_ne _ _ e] at hs
      exact .inl (h.met u hu s hs)
  unmet := by
    intro u hu hnone
    by_cases e : u = v
    · subst e
      rw [Values.set_self] at hnone
      cases hnone
    · rw [Values.set_of_ne _ _ e] at hnone
      exact ⟨h.unmet u hu hnone, fun e' => e (h.inj u hu v hv e')⟩

/-- A wildcard of the rule is met. -/
theorem Mirrored.drop (h : Mirrored r name S F G θ) (hw : w ∈ F) :
    Mirrored r name S (F \ {w}) (G \ {w}) θ where
  inj := h.inj
  apart := fun v hv hin => h.apart v hv hin.1
  keeps := fun _ hu => ⟨h.keeps hu.1, hu.2⟩
  met := h.met
  unmet := fun v hv hnone => ⟨h.unmet v hv hnone, fun e => h.apart v hv (e ▸ hw)⟩

theorem Entered.mono (h : Entered r name S' F' x y) (hS : S ≤ S') (hF : F ⊆ F') :
    Entered r name S F x y := by
  cases h with
  | none => exact .none
  | some h1 h2 h3 => exact .some (hS.trans h1) h2 (h3.less hF)

/-! ## Renamed terms -/

/-- Terms without parts as they are renamed, and the variables that stand for wildcards. -/
inductive Renamed (name : String → Nat) : List Term → List Term → List Nat → Prop
  | nil : Renamed name [] [] []
  | node (c : Node) {ts us : List Term} {W : List Nat} : Renamed name ts us W →
    Renamed name (.node c :: ts) (.node c :: us) W
  | var (v : String) {ts us : List Term} {W : List Nat} : Renamed name ts us W →
    Renamed name (.var v :: ts) (.ref (name v) :: us) W
  | wild {t : Term} (w : Nat) {ts us : List Term} {W : List Nat} : t.isVar = true →
    (∀ v, t ≠ .var v) → Renamed name ts us W → Renamed name (t :: ts) (.ref w :: us) (w :: W)

/-- The arguments of an unbound object that is opened: new variables but for the constants. -/
inductive FreshArgs : List Term → List Term → List Nat → Prop
  | nil : FreshArgs [] [] []
  | node (c : Node) {ts args : List Term} {X : List Nat} : FreshArgs ts args X →
    FreshArgs (.node c :: ts) (.node c :: args) X
  | leaf {t : Term} (x : Nat) {ts args : List Term} {X : List Nat} : t.isVar = true →
    FreshArgs ts args X → FreshArgs (t :: ts) (.ref x :: args) (x :: X)

theorem grow_size (b : Bindings) : b.grow b.size = b := by
  simp [Bindings.grow]

theorem newVar_grow (b : Bindings) (k : Nat) :
    b.newVar.2.grow (b.newVar.2.size + k) = b.grow (b.size + (k + 1)) := by
  simp only [Bindings.newVar, Bindings.grow, Bindings.mk.injEq, and_true]
  omega

theorem renameAll_renamed (hflat : ∀ t ∈ ts, t.isApp = false)
    (h : Term.renameAll name ts b = (us, b')) :
    ∃ k, Renamed name ts us (List.range' b.size k) ∧ b' = b.grow (b.size + k) := by
  induction ts generalizing b us with
  | nil =>
    cases h
    exact ⟨0, .nil, (grow_size _).symm⟩
  | cons t ts ih =>
    have hrest := fun t ht => hflat t (List.mem_cons_of_mem _ ht)
    -- a wildcard takes the next number
    have wild : t.isVar = true → (∀ v, t ≠ .var v) → Term.rename name t b = b.newVar →
        ∃ k, Renamed name (t :: ts) us (List.range' b.size k) ∧ b' = b.grow (b.size + k) := by
      intro hvar hne hnew
      rcases h1 : Term.renameAll name ts b.newVar.2 with ⟨us1, b1⟩
      rw [Term.renameAll, hnew] at h
      simp only [h1] at h
      cases h
      obtain ⟨k, hren, rfl⟩ := ih hrest h1
      refine ⟨k + 1, ?_, newVar_grow b k⟩
      rw [List.range'_succ]
      exact .wild b.size hvar hne hren
    rcases h1 : Term.renameAll name ts b with ⟨us1, b1⟩
    cases t with
    | node c =>
      simp only [Term.renameAll, Term.rename, h1] at h
      cases h
      obtain ⟨k, hren, rfl⟩ := ih hrest h1
      exact ⟨k, .node c hren, rfl⟩
    | var v =>
      simp only [Term.renameAll, Term.rename, h1] at h
      cases h
      obtain ⟨k, hren, rfl⟩ := ih hrest h1
      exact ⟨k, .var v hren, rfl⟩
    | app f args => exact absurd (hflat _ List.mem_cons_self) (by simp [Term.isApp])
    | ref i => exact wild rfl (by simp) rfl
    | any => exact wild rfl (by simp) rfl

theorem freshen_freshArgs (hflat : ∀ t ∈ ts, t.isApp = false)
    (h : b.freshen Term.isVar ts = (args, b')) :
    ∃ k, FreshArgs ts args (List.range' b.size k) ∧ b' = b.grow (b.size + k) := by
  induction ts generalizing b args with
  | nil =>
    cases h
    exact ⟨0, .nil, (grow_size _).symm⟩
  | cons t ts ih =>
    have hrest := fun t ht => hflat t (List.mem_cons_of_mem _ ht)
    by_cases hvar : t.isVar = true
    · rcases h1 : b.newVar.2.freshen Term.isVar ts with ⟨args1, b1⟩
      rw [Bindings.freshen, if_pos hvar] at h
      simp only [h1] at h
      cases h
      obtain ⟨k, hfresh, rfl⟩ := ih hrest h1
      refine ⟨k + 1, ?_, newVar_grow b k⟩
      rw [List.range'_succ]
      exact .leaf b.size hvar hfresh
    · rcases h1 : b.freshen Term.isVar ts with ⟨args1, b1⟩
      rw [Bindings.freshen, if_neg hvar] at h
      simp only [h1] at h
      cases h
      obtain ⟨k, hfresh, rfl⟩ := ih hrest h1
      refine ⟨k, ?_, rfl⟩
      cases t with
      | node c => exact .node c hfresh
      | app f args => exact absurd (hflat _ List.mem_cons_self) (by simp [Term.isApp])
      | _ => exact absurd rfl hvar

theorem Renamed.length_eq (h : Renamed name ts us W) : us.length = ts.length := by
  induction h with
  | nil => rfl
  | node c _ ih | var v _ ih | wild w _ _ _ ih => rw [List.length_cons, List.length_cons, ih]

theorem Renamed.split {ss : List Term} (h : Renamed name (ss ++ ts) us W) :
    ∃ us1 us2 W1 W2, us = us1 ++ us2 ∧ W = W1 ++ W2 ∧ Renamed name ss us1 W1 ∧
      Renamed name ts us2 W2 := by
  induction ss generalizing us W with
  | nil => exact ⟨[], us, [], W, rfl, rfl, .nil, h⟩
  | cons s ss ih =>
    cases h with
    | node c h =>
      obtain ⟨us1, us2, W1, W2, rfl, rfl, h1, h2⟩ := ih h
      exact ⟨_, us2, W1, W2, rfl, rfl, .node c h1, h2⟩
    | var v h =>
      obtain ⟨us1, us2, W1, W2, rfl, rfl, h1, h2⟩ := ih h
      exact ⟨_, us2, W1, W2, rfl, rfl, .var v h1, h2⟩
    | wild w hvar hne h =>
      obtain ⟨us1, us2, W1, W2, rfl, rfl, h1, h2⟩ := ih h
      exact ⟨_, us2, _, W2, rfl, rfl, .wild w hvar hne h1, h2⟩

theorem FreshArgs.length_eq (h : FreshArgs ts args X) : args.length = ts.length := by
  induction h with
  | nil => rfl
  | node c _ ih | leaf i _ _ ih => rw [List.length_cons, List.length_cons, ih]

/-- An object as it is renamed, with its arguments if it is compound. -/
inductive RenamedObject (name : String → Nat) : Term → Term → List Nat → Prop
  | leaf {t u : Term} {W : List Nat} : Renamed name [t] [u] W → t.isApp = false →
    RenamedObject name t u W
  | app (f : String) {ts us : List Term} {W : List Nat} : Renamed name ts us W →
    (∀ t ∈ ts, t.isApp = false) → RenamedObject name (.app f ts) (.app f us) W

/-- A head that is not refused is renamed leaf by leaf, its wildcards last. -/
theorem rename_head (hfault : r.headFault = none) (name : String → Nat) (b : Bindings) :
    ∃ k W1 W2, W1 ++ W2 = List.range' b.size k ∧
      (r.head.rename name b).2 = b.grow (b.size + k) ∧
      Renamed name [r.head.subject, r.head.predicate]
        [(r.head.rename name b).1.subject, (r.head.rename name b).1.predicate] W1 ∧
      RenamedObject name r.head.object (r.head.rename name b).1.object W2 := by
  obtain ⟨hsubject, hpredicate, hobject⟩ := flat_of_headFault hfault
  obtain ⟨us, hus, hload⟩ := Triple.rename_items name r.head b
  generalize r.head.rename name b = z at hus hload
  obtain ⟨⟨s', p', o'⟩, b'⟩ := z
  generalize r.head = head at hsubject hpredicate hobject hus hload
  obtain ⟨s, p, o⟩ := head
  -- subject and predicate, then what the object is made of
  have cut : ∀ {rest : List Term}, (Entry.triple ⟨s, p, o⟩).items = [s, p] ++ rest →
      (∀ t ∈ rest, t.isApp = false) → ∃ k W1 W2 s1 p1 us2, us = s1 :: p1 :: us2 ∧
        W1 ++ W2 = List.range' b.size k ∧ b' = b.grow (b.size + k) ∧
        Renamed name [s, p] [s1, p1] W1 ∧ Renamed name rest us2 W2 := by
    intro rest hitems hrest
    rw [hitems] at hus
    obtain ⟨k, hren, rfl⟩ := renameAll_renamed (by
      simp only [List.cons_append, List.nil_append, List.forall_mem_cons]
      exact ⟨hsubject, hpredicate, hrest⟩) hus
    obtain ⟨us1, us2, W1, W2, rfl, hW, h1, h2⟩ := hren.split
    match us1, h1.length_eq with
    | [s1, p1], _ => exact ⟨k, W1, W2, s1, p1, us2, rfl, hW.symm, rfl, h1, h2⟩
  by_cases happ : o.isApp = true
  · cases o with
    | app f ts =>
      obtain ⟨k, W1, W2, s1, p1, us2, rfl, hW, hb, h1, h2⟩ := cut rfl (hobject f ts rfl)
      cases hload
      exact ⟨k, W1, W2, hW, hb, h1, .app f h2 (hobject f ts rfl)⟩
    | _ => cases happ
  · have hitems : (Entry.triple ⟨s, p, o⟩).items = [s, p] ++ [o] := by
      cases o with
      | app f ts => exact absurd rfl happ
      | _ => rfl
    obtain ⟨k, W1, W2, s1, p1, us2, rfl, hW, hb, h1, h2⟩ := cut hitems (by simpa using happ)
    match us2, h2.length_eq with
    | [o1], _ =>
      have hterms : [s1, p1, o1] = [s', p', o'] := by
        cases o with
        | app f ts => exact absurd rfl happ
        | _ => exact hload
      cases hterms
      exact ⟨k, W1, W2, hW, hb, h1, .leaf h2 (by simpa using happ)⟩

/-! ## Heads -/

/-- Goes on after a unification that succeeded. -/
def unifyThen (x : Option (Option Bindings)) (next : Bindings → Option (Option Bindings)) :
    Option (Option Bindings) :=
  match x with
  | some (some b) => next b
  | other => other

theorem unifyTriple_eq (k : Nat) (b : Bindings) (goal t : Triple) : b.unifyTriple k goal t =
    unifyThen (unifyEach (Bindings.unify k) b [goal.subject, goal.predicate]
      [t.subject, t.predicate]) fun b => b.unify k goal.object t.object := by
  unfold Bindings.unifyTriple Bindings.unifyAll Triple.terms
  simp only [unifyEach]
  rcases b.unify k goal.subject t.subject with _ | _ | b1
  · rfl
  · rfl
  · simp only
    rcases b1.unify k goal.predicate t.predicate with _ | _ | b2
    · rfl
    · rfl
    · simp only [unifyThen]
      rcases b2.unify k goal.object t.object with _ | _ | b3 <;> rfl

theorem unifyEach_single (k : Nat) (b : Bindings) (l t : Term) :
    unifyEach (Bindings.unify k) b [l] [t] = b.unify k l t := by
  simp only [unifyEach]
  rcases b.unify k l t with _ | _ | b1 <;> rfl

theorem matchLeaves_single (n : Nat) (θ : Values) (b : Bindings) (l t : Term) :
    matchLeaves n θ b [l] [t] = matchLeaf n θ b l t := by
  simp only [matchLeaves]
  rcases matchLeaf n θ b l t with _ | _ | ⟨θ1, b1⟩ <;> rfl

theorem unifyEach_cons (k : Nat) (b : Bindings) (l : Term) (ls : List Term) (t : Term)
    (ts : List Term) : unifyEach (Bindings.unify k) b (l :: ls) (t :: ts) =
      unifyThen (b.unify k l t) fun b => unifyEach (Bindings.unify k) b ls ts := by
  rw [unifyEach]
  rfl

/-- Both sides unify, and go on in the same way. -/
theorem unify_entered (h : Twins S G b b') (harg : S arg arg') (ht : S t t') (hnk : n ≤ k)
    {next : Values → Bindings → Option (Option (Values × Bindings))}
    {next' : Bindings → Option (Option Bindings)}
    (hnext : ∀ c c', Twins S G c c' → next θ c = some x →
      ∃ y, next' c' = some y ∧ Entered r name S F x y)
    (hx : matchThen ((b.unify n arg t).map (·.map (θ, ·))) next = some x) :
    ∃ y, unifyThen (b'.unify k arg' t') next' = some y ∧ Entered r name S F x y := by
  cases hu : b.unify n arg t with
  | none =>
    rw [hu] at hx
    cases hx
  | some z =>
    obtain ⟨z', hz', hrel⟩ := h.unify harg ht hu
    rw [hu] at hx
    rw [unify_mono hnk hz']
    cases hrel with
    | none =>
      cases hx
      exact ⟨none, rfl, .none⟩
    | some hc => exact hnext _ _ hc hx

/-- Leaves of a head are matched on the one side and unified on the other one. -/
theorem matchLeaves_entered (hren : Renamed name ts us W)
    (hnames : ∀ v, Term.var v ∈ ts → v ∈ r.names) (hnodup : W.Nodup) (hW : ∀ w ∈ W, w ∈ F)
    (hargs : List.Forall₂ S args args') (h : Twins S G b b') (hm : Mirrored r name S F G θ)
    (hnk : n ≤ k) (hx : matchLeaves n θ b args ts = some x) :
    ∃ y, unifyEach (Bindings.unify (k + 1)) b' args' us = some y ∧
      Entered r name S (F \ {w | w ∈ W}) x y := by
  induction hren generalizing S F G θ b b' args args' with
  | nil =>
    obtain rfl : some (θ, b) = x := by cases args <;> exact Option.some.inj hx
    refine ⟨some b', ?_, .some le_rfl h (hm.less Set.sdiff_subset)⟩
    cases args' <;> rfl
  | @node c ts us W hren ih =>
    cases hargs with
    | nil =>
      cases hx
      exact ⟨some b', rfl, .some le_rfl h (hm.less Set.sdiff_subset)⟩
    | @cons arg arg' args args' harg hargs =>
      rw [unifyEach_cons]
      refine unify_entered h harg (h.ground (.node c) rfl) (Nat.le_succ_of_le hnk) ?_ hx
      intro d d' hd hnext
      exact ih (fun v hv => hnames v (List.mem_cons_of_mem _ hv)) hnodup hW hargs hd hm hnext
  | @var v ts us W hren ih =>
    cases hargs with
    | nil =>
      cases hx
      exact ⟨some b', rfl, .some le_rfl h (hm.less Set.sdiff_subset)⟩
    | @cons arg arg' args args' harg hargs =>
      have hv := hnames v List.mem_cons_self
      have hnames' : ∀ u, Term.var u ∈ ts → u ∈ r.names := fun u hu =>
        hnames u (List.mem_cons_of_mem _ hu)
      rw [unifyEach_cons]
      rw [matchLeaves, matchLeaf] at hx
      cases hθ : θ v with
      | some t =>
        rw [hθ] at hx
        refine unify_entered h harg (hm.met v hv t hθ) (Nat.le_succ_of_le hnk) ?_ hx
        intro d d' hd hnext
        exact ih hnames' hnodup hW hargs hd hm hnext
      | none =>
        rw [hθ] at hx
        obtain ⟨c', hc', htwins⟩ := h.meet harg (hm.unmet v hv hθ)
        have hle := S.le_insert arg (.ref (name v))
        obtain ⟨y, hy, hent⟩ := ih hnames' hnodup hW (hargs.imp fun _ _ h => hle _ _ h) htwins
          (hm.learn hv arg) hx
        refine ⟨y, ?_, hent.mono hle subset_rfl⟩
        rw [hc' k]
        exact hy
  | @wild t w ts us W hvar hne hren ih =>
    cases hargs with
    | nil =>
      cases hx
      exact ⟨some b', rfl, .some le_rfl h (hm.less Set.sdiff_subset)⟩
    | @cons arg arg' args args' harg hargs =>
      obtain ⟨hnotin, hnodup'⟩ := List.nodup_cons.1 hnodup
      have hw := hW w List.mem_cons_self
      have hleaf : matchLeaf n θ b arg t = some (some (θ, b)) := by
        cases t with
        | var v => exact absurd rfl (hne v)
        | node c => cases hvar
        | _ => rfl
      rw [matchLeaves, hleaf] at hx
      obtain ⟨c', hc', htwins⟩ := h.meet harg (hm.keeps hw)
      have hle := S.le_insert arg (.ref w)
      have hW' : ∀ u ∈ W, u ∈ F \ {w} := fun u hu =>
        ⟨hW u (List.mem_cons_of_mem _ hu), fun e => hnotin (e ▸ hu)⟩
      obtain ⟨y, hy, hent⟩ := ih (fun u hu => hnames u (List.mem_cons_of_mem _ hu)) hnodup' hW'
        (hargs.imp fun _ _ h => hle _ _ h) htwins ((hm.drop hw).mono hle) hx
      refine ⟨y, ?_, hent.mono hle ?_⟩
      · rw [unifyEach_cons, hc' k]
        exact hy
      · rintro u ⟨hu, hnot⟩
        exact ⟨⟨hu, fun e => hnot (e ▸ List.mem_cons_self)⟩,
          fun hin => hnot (List.mem_cons_of_mem _ hin)⟩

/-- An object that is opened on the left side. On the right one it has the renamed arguments at
once, so all that is left is to give the new variables of the left side their values. -/
theorem matchLeaves_opened (hren : Renamed name ts us W) (hfresh : FreshArgs ts args X)
    (hnames : ∀ v, Term.var v ∈ ts → v ∈ r.names) (hnodup : W.Nodup) (hW : ∀ w ∈ W, w ∈ F)
    (hnodupX : X.Nodup) (hX : ∀ i ∈ X, i ∈ H) (h : Mirror S R H G b b')
    (hground : ∀ t : Term, t.isGround = true → S t t) (hm : Mirrored r name S F G θ)
    (hR : ∀ u u', R u u' → S u u' ∨ (u, u') ∈ args.zip us)
    (hx : matchLeaves n θ b args ts = some x) :
    Entered r name S (F \ {w | w ∈ W}) x (some b') := by
  induction hren generalizing S F G H θ b args X with
  | nil =>
    cases hfresh
    cases hx
    refine .some le_rfl ⟨h.mono le_rfl (fun u u' hu => ?_) (Set.empty_subset H) subset_rfl, hground⟩
      (hm.less Set.sdiff_subset)
    exact (hR u u' hu).resolve_right (by simp)
  | @node c ts us W hren ih =>
    cases hfresh with
    | leaf _ hvar _ => cases hvar
    | @node _ _ args _ hfresh =>
      rw [matchLeaves, matchLeaf] at hx
      cases n with
      | zero => cases hx
      | succ n =>
        rw [unify_nodes (deref_node c) (deref_node c), if_pos rfl] at hx
        refine ih hfresh (fun v hv => hnames v (List.mem_cons_of_mem _ hv)) hnodup hW hnodupX hX h
          hground hm (fun u u' hu => ?_) hx
        rcases hR u u' hu with hS | hin
        · exact .inl hS
        · rw [List.zip_cons_cons, List.mem_cons] at hin
          rcases hin with e | hin
          · cases e
            exact .inl (hground (.node c) rfl)
          · exact .inr hin
  | @var v ts us W hren ih =>
    cases hfresh with
    | @leaf _ i _ args X _ hfresh =>
      have hv := hnames v List.mem_cons_self
      obtain ⟨hnotin, hnodupX'⟩ := List.nodup_cons.1 hnodupX
      have hi := hX i List.mem_cons_self
      have hle := S.le_insert (.ref i) (.ref (name v))
      -- the two variables stand for each other from now on
      have next : ∀ {θ' : Values} {G' : Set Nat} {c : Bindings},
          Mirror (S.insert (.ref i) (.ref (name v))) R (H \ {i}) G' c b' →
          Mirrored r name (S.insert (.ref i) (.ref (name v))) F G' θ' →
          matchLeaves n θ' c args ts = some x →
          Entered r name S (F \ {w | w ∈ W}) x (some b') := by
        intro θ' G' c hmirror hm' hx'
        refine (ih hfresh (fun u hu => hnames u (List.mem_cons_of_mem _ hu)) hnodup hW hnodupX' ?_
          hmirror (fun t ht => hle _ _ (hground t ht)) hm' ?_ hx').mono hle subset_rfl
        · intro j hj
          refine ⟨hX j (List.mem_cons_of_mem _ hj), ?_⟩
          rintro rfl
          exact hnotin hj
        · intro u u' hu
          rcases hR u u' hu with hS | hin
          · exact .inl (.inl hS)
          · rw [List.zip_cons_cons, List.mem_cons] at hin
            rcases hin with e | hin
            · cases e
              exact .inl (S.insert_self _ _)
            · exact .inr hin
      rw [matchLeaves, matchLeaf] at hx
      cases hθ : θ v with
      | none =>
        rw [hθ] at hx
        exact next (h.insert_free hi (hm.unmet v hv hθ)) (hm.learn hv (.ref i)) hx
      | some t =>
        rw [hθ] at hx
        cases n with
        | zero => cases hx
        | succ n =>
          obtain ⟨c, hc, hmirror⟩ := h.meet_left (hm.met v hv t hθ) hi
          simp only [hc n] at hx
          exact next hmirror (hm.mono hle) hx
  | @wild t w ts us W hvar hne hren ih =>
    cases hfresh with
    | node c => cases hvar
    | @leaf _ i _ args X _ hfresh =>
      obtain ⟨hnotin, hnodupX'⟩ := List.nodup_cons.1 hnodupX
      obtain ⟨hnotinW, hnodup'⟩ := List.nodup_cons.1 hnodup
      have hi := hX i List.mem_cons_self
      have hw := hW w List.mem_cons_self
      have hle := S.le_insert (.ref i) (.ref w)
      have hleaf : matchLeaf n θ b (.ref i) t = some (some (θ, b)) := by
        cases t with
        | var v => exact absurd rfl (hne v)
        | node c => cases hvar
        | _ => rfl
      rw [matchLeaves, hleaf] at hx
      refine (ih hfresh (fun u hu => hnames u (List.mem_cons_of_mem _ hu)) hnodup' ?_ hnodupX' ?_
        (h.insert_free hi (hm.keeps hw)) (fun t ht => hle _ _ (hground t ht))
        ((hm.drop hw).mono hle) ?_ hx).mono hle ?_
      · exact fun u hu => ⟨hW u (List.mem_cons_of_mem _ hu), fun e => hnotinW (e ▸ hu)⟩
      · exact fun j hj => ⟨hX j (List.mem_cons_of_mem _ hj), fun e => hnotin (e ▸ hj)⟩
      · intro u u' hu
        rcases hR u u' hu with hS | hin
        · exact .inl (.inl hS)
        · rw [List.zip_cons_cons, List.mem_cons] at hin
          rcases hin with e | hin
          · cases e
            exact .inl (S.insert_self _ _)
          · exact .inr hin
      · rintro u ⟨hu, hnot⟩
        exact ⟨⟨hu, fun e => hnot (e ▸ List.mem_cons_self)⟩,
          fun hin => hnot (List.mem_cons_of_mem _ hin)⟩

/-- The object of a head is matched on the one side and unified on the other one. -/
theorem matchObject_entered {o o' : Term} (hobj : RenamedObject name t t' W)
    (hnames : ∀ v, Term.var v ∈ t.leaves → v ∈ r.names) (hnodup : W.Nodup) (hW : ∀ w ∈ W, w ∈ F)
    (ho : S o o') (h : Twins S G b b') (hm : Mirrored r name S F G θ)
    (hx : matchObject n θ b o t = some x) :
    ∃ y, b'.unify (n + 2) o' t' = some y ∧ Entered r name S (F \ {w | w ∈ W}) x y := by
  cases hobj with
  | leaf hren happ =>
    rw [← unifyEach_single]
    refine matchLeaves_entered (n := n) hren (fun v hv => hnames v ?_) hnodup hW
      (.cons ho .nil) h hm (Nat.le_succ n) ?_
    · obtain rfl := List.mem_singleton.1 hv
      exact List.mem_singleton_self _
    · rw [matchLeaves_single, ← hx]
      cases t with
      | app f ts => cases happ
      | _ => rfl
  | @app f ts us _ hren hflat =>
    have hnames' : ∀ v, Term.var v ∈ ts → v ∈ r.names := fun v hv =>
      hnames v (Term.mem_leaves_of_mem hv)
    have hd := h.shape ho
    rw [matchObject, Bindings.openObject] at hx
    generalize hL : b.deref o = L, hL' : b'.deref o' = L' at hd hx
    cases hd with
    | node c =>
      cases hx
      exact ⟨none, unify_nodeApp hL' (deref_app f us), .none⟩
    | @app g as as' hargs =>
      rw [unify_apps hL' (deref_app f us), ← hargs.length_eq, hren.length_eq]
      by_cases heq : g = f ∧ as.length = ts.length
      · rw [if_pos heq]
        simp only [if_pos heq] at hx
        exact matchLeaves_entered hren hnames' hnodup hW hargs h hm (Nat.le_refl n) hx
      · rw [if_neg heq]
        simp only [if_neg heq] at hx
        cases hx
        exact ⟨none, rfl, .none⟩
    | ref v v' =>
      rcases hfreshen : b.freshen Term.isVar ts with ⟨args, b1⟩
      obtain ⟨k, hfresh, rfl⟩ := freshen_freshArgs hflat hfreshen
      simp only [hfreshen] at hx
      refine ⟨_, unify_refLeft hL' (deref_app f us) (by simp [Wild]) (by simp), ?_⟩
      -- until the arguments are matched they are the parts of terms that say the same, no more
      let R : Pairing := fun u u' => S u u' ∨ (u, u') ∈ args.zip us
      have hparts : List.Forall₂ R args us :=
        List.forall₂_iff_zip.2 ⟨hfresh.length_eq.trans hren.length_eq.symm, fun hin => .inr hin⟩
      have hgrown := (h.toMirror.grow_left k).mono le_rfl (fun u u' hu => .inl hu : S ≤ R)
        subset_rfl subset_rfl
      have hbound := hgrown.bind ho (by rw [deref_grow_of_ordered h.left.ordered, hL]) hL'
        (Term.Shape.app f hparts) (by simp)
      refine matchLeaves_opened hren hfresh hnames' hnodup hW List.nodup_range' (fun i hi => ?_)
        hbound h.ground hm (fun u u' hu => hu) hx
      rw [List.mem_range'_1] at hi
      exact .inr hi

/-- The head is matched on the one side and unified on the other one. -/
theorem matchHead_entered {goal goal' head' : Triple} {W1 W2 : List Nat}
    (hren : Renamed name [r.head.subject, r.head.predicate] [head'.subject, head'.predicate] W1)
    (hobj : RenamedObject name r.head.object head'.object W2) (hnodup : (W1 ++ W2).Nodup)
    (hW : ∀ w ∈ W1 ++ W2, w ∈ F) (hgoal : S.Triples goal goal') (h : Twins S G b b')
    (hm : Mirrored r name S F G .none) (hx : matchHead n r.head goal b = some x) :
    ∃ y, b'.unifyTriple (n + 2) goal' head' = some y ∧
      Entered r name S (F \ {w | w ∈ W1 ++ W2}) x y := by
  have hnames : ∀ v, Term.var v ∈ r.head.leaves → v ∈ r.names := fun v hv =>
    r.mem_names_of_leaves (List.mem_append_left _ hv)
  obtain ⟨hnodup1, hnodup2, hdisjoint⟩ := List.nodup_append'.1 hnodup
  rw [matchHead] at hx
  cases h1 : matchLeaves n .none b [goal.subject, goal.predicate]
    [r.head.subject, r.head.predicate] with
  | none =>
    rw [h1] at hx
    cases hx
  | some z =>
    obtain ⟨y, hy, hent⟩ := matchLeaves_entered hren (fun v hv => hnames v (by
        simp only [List.mem_cons, List.not_mem_nil, or_false] at hv
        rcases hv with e | e
        · simp [Triple.leaves, ← e]
        · simp [Triple.leaves, ← e])) hnodup1
      (fun w hw => hW w (List.mem_append_left _ hw))
      (.cons hgoal.subject (.cons hgoal.predicate .nil)) h hm (Nat.le_succ n) h1
    rw [unifyTriple_eq, hy]
    rw [h1] at hx
    cases hent with
    | none =>
      cases hx
      exact ⟨none, rfl, .none⟩
    | @some S1 G1 θ1 c c' hle htwins hm1 =>
      have hW2 : ∀ w ∈ W2, w ∈ F \ {w | w ∈ W1} := fun w hw =>
        ⟨hW w (List.mem_append_right _ hw), fun hin => hdisjoint hin hw⟩
      obtain ⟨y, hy, hent⟩ := matchObject_entered hobj
        (fun v hv => hnames v (List.mem_append_right _ hv)) hnodup2 hW2 (hle _ _ hgoal.object)
        htwins hm1 hx
      refine ⟨y, hy, hent.mono hle ?_⟩
      rintro w ⟨hw, hnot⟩
      exact ⟨⟨hw, fun hin => hnot (List.mem_append_left _ hin)⟩,
        fun hin => hnot (List.mem_append_right _ hin)⟩

end

end TabledRules
