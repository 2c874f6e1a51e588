-- Unification. A success is a chain of bindings, `Solves`, and what holds of
-- it is shown by induction over that chain: values stay, the two sides
-- come to mean the same, and only leaves that were there are used.
import TabledRules.Proofs.Bindings

namespace TabledRules.Bindings

variable {b b' : Bindings} {v u n m : Nat} {t l r : Term}

/-! ## One step, by the shapes of the terms -/

/-- A term that matches anything and takes no value. -/
def Wild (t : Term) : Prop := t = .any ∨ ∃ x, t = .var x

/-- What can meet when two terms that are followed to their ends are unified. -/
inductive Meeting : Term → Term → Prop
  | wild {l r : Term} : Wild l ∨ Wild r → Meeting l r
  | refs (v u : Nat) : Meeting (.ref v) (.ref u)
  | refLeft (v : Nat) {t : Term} : ¬ Wild t → (∀ u, t ≠ .ref u) → Meeting (.ref v) t
  | refRight (v : Nat) {t : Term} : ¬ Wild t → (∀ u, t ≠ .ref u) → Meeting t (.ref v)
  | nodes (x y : Node) : Meeting (.node x) (.node y)
  | apps (f g : String) (as bs : List Term) : Meeting (.app f as) (.app g bs)
  | nodeApp (x : Node) (f : String) (as : List Term) : Meeting (.node x) (.app f as)
  | appNode (x : Node) (f : String) (as : List Term) : Meeting (.app f as) (.node x)

theorem Meeting.of (l r : Term) : Meeting l r := by
  cases l with
  | any => exact .wild (.inl (.inl rfl))
  | var x => exact .wild (.inl (.inr ⟨x, rfl⟩))
  | ref v =>
    cases r with
    | any => exact .wild (.inr (.inl rfl))
    | var x => exact .wild (.inr (.inr ⟨x, rfl⟩))
    | ref u => exact .refs v u
    | _ => exact .refLeft v (by simp [Wild]) (by simp)
  | node x =>
    cases r with
    | any => exact .wild (.inr (.inl rfl))
    | var x => exact .wild (.inr (.inr ⟨x, rfl⟩))
    | ref u => exact .refRight u (by simp [Wild]) (by simp)
    | node y => exact .nodes x y
    | app g bs => exact .nodeApp x g bs
  | app f as =>
    cases r with
    | any => exact .wild (.inr (.inl rfl))
    | var x => exact .wild (.inr (.inr ⟨x, rfl⟩))
    | ref u => exact .refRight u (by simp [Wild]) (by simp)
    | node y => exact .appNode y f as
    | app g bs => exact .apps f g as bs

theorem unify_wild (h : Wild (b.deref l) ∨ Wild (b.deref r)) : unify (n + 1) b l r = some (some b) := by
  rw [unify]
  rcases h with (h | ⟨x, h⟩) | (h | ⟨x, h⟩)
  · simp [h]
  · simp [h]
  · rw [h]; split <;> simp_all
  · rw [h]; split <;> simp_all

-- A wildcard takes no value.
example : unify 1 (grow {} 1) (.ref 0) .any = some (some (grow {} 1)) := by cbv

theorem unify_refs (hl : b.deref l = .ref v) (hr : b.deref r = .ref u) :
    unify (n + 1) b l r = some (some (b.merge v u)) := by
  rw [unify, hl, hr]

theorem unify_refLeft (hl : b.deref l = .ref v) (hr : b.deref r = t) (hw : ¬ Wild t)
    (ht : ∀ u, t ≠ .ref u) : unify (n + 1) b l r = some (some (b.bind v t)) := by
  rw [unify, hl, hr]
  cases t <;> first | rfl | exact absurd rfl (ht _) | simp [Wild] at hw

theorem unify_refRight (hl : b.deref l = t) (hr : b.deref r = .ref v) (hw : ¬ Wild t)
    (ht : ∀ u, t ≠ .ref u) : unify (n + 1) b l r = some (some (b.bind v t)) := by
  rw [unify, hl, hr]
  cases t <;> first | rfl | exact absurd rfl (ht _) | simp [Wild] at hw

theorem unify_nodes {x y : Node} (hl : b.deref l = .node x) (hr : b.deref r = .node y) :
    unify (n + 1) b l r = some (if x = y then some b else none) := by
  rw [unify, hl, hr]

theorem unify_apps {f g : String} {as bs : List Term} (hl : b.deref l = .app f as)
    (hr : b.deref r = .app g bs) :
    unify (n + 1) b l r =
      if f = g ∧ as.length = bs.length then unifyEach (unify n) b as bs else some none := by
  rw [unify, hl, hr]

theorem unify_nodeApp {x : Node} {f : String} {as : List Term} (hl : b.deref l = .node x)
    (hr : b.deref r = .app f as) : unify (n + 1) b l r = some none := by
  rw [unify, hl, hr]

theorem unify_appNode {x : Node} {f : String} {as : List Term} (hl : b.deref l = .app f as)
    (hr : b.deref r = .node x) : unify (n + 1) b l r = some none := by
  rw [unify, hl, hr]

/-! ## More depth changes no outcome -/

theorem unifyEach_mono {f g : Bindings → Term → Term → Option (Option Bindings)}
    (hfg : ∀ b l r x, f b l r = some x → g b l r = some x) {ls rs : List Term}
    {x : Option Bindings} (h : unifyEach f b ls rs = some x) : unifyEach g b ls rs = some x := by
  induction ls generalizing b rs with
  | nil => simpa [unifyEach] using h
  | cons l ls ih =>
    cases rs with
    | nil => simpa [unifyEach] using h
    | cons r rs =>
      rw [unifyEach] at h ⊢
      cases hf : f b l r with
      | none => simp [hf] at h
      | some y =>
        rw [hf] at h
        rw [hfg b l r y hf]
        cases y with
        | none => exact h
        | some b1 => exact ih h

theorem unify_mono (hnm : n ≤ m) {x : Option Bindings} (h : unify n b l r = some x) :
    unify m b l r = some x := by
  induction n generalizing m b l r x with
  | zero => simp [unify] at h
  | succ n ih =>
    obtain ⟨k, rfl⟩ : ∃ k, m = k + 1 := ⟨m - 1, by omega⟩
    rw [unify] at h ⊢
    split at h <;> try exact h
    split at h
    · next heq =>
      rw [if_pos heq]
      exact unifyEach_mono (fun _ _ _ _ hx => ih (by omega) hx) h
    · next heq => rw [if_neg heq]; exact h

theorem unifyAll_mono (hnm : n ≤ m) {ls rs : List Term} {x : Option Bindings}
    (h : b.unifyAll n ls rs = some x) : b.unifyAll m ls rs = some x :=
  unifyEach_mono (fun _ _ _ _ => unify_mono hnm) h

/-! ## A success as a chain of bindings -/

/-- The equations are solved one after the other, the parts of compound terms first. -/
inductive Solves : Bindings → List (Term × Term) → Bindings → Prop
  | done (b : Bindings) : Solves b [] b
  | free {b b' : Bindings} {l r : Term} {eqs : List (Term × Term)} :
    Wild (b.deref l) ∨ Wild (b.deref r) → Solves b eqs b' → Solves b ((l, r) :: eqs) b'
  | same {b b' : Bindings} {l r : Term} {eqs : List (Term × Term)} :
    b.deref l = b.deref r → Solves b eqs b' → Solves b ((l, r) :: eqs) b'
  | bind {b b' : Bindings} {l r t : Term} {v : Nat} {eqs : List (Term × Term)} :
    b.deref l = .ref v ∧ b.deref r = t ∨ b.deref r = .ref v ∧ b.deref l = t →
    (∀ u, t = .ref u → u < v) → Solves (b.bind v t) eqs b' → Solves b ((l, r) :: eqs) b'
  | parts {b b' : Bindings} {l r : Term} {f : String} {as bs : List Term}
    {eqs : List (Term × Term)} : b.deref l = .app f as → b.deref r = .app f bs →
    as.length = bs.length → Solves b (as.zip bs ++ eqs) b' → Solves b ((l, r) :: eqs) b'

theorem solves_of_unifyEach {one : Bindings → Term → Term → Option (Option Bindings)}
    (hone : ∀ b l r b1, one b l r = some (some b1) → ∀ eqs b', Solves b1 eqs b' →
      Solves b ((l, r) :: eqs) b')
    {ls rs : List Term} {b1 : Bindings} (h : unifyEach one b ls rs = some (some b1))
    {eqs : List (Term × Term)} (hs : Solves b1 eqs b') : Solves b (ls.zip rs ++ eqs) b' := by
  induction ls generalizing b rs with
  | nil =>
    obtain rfl : b = b1 := by simpa [unifyEach] using h
    exact hs
  | cons l ls ih =>
    cases rs with
    | nil =>
      obtain rfl : b = b1 := by simpa [unifyEach] using h
      exact hs
    | cons r rs =>
      rw [unifyEach] at h
      split at h
      · next b2 hb2 => exact hone b l r b2 hb2 _ _ (ih h)
      · next other hne => exact absurd h (hne b1)

theorem solves_of_merge {eqs : List (Term × Term)} (hl : b.deref l = .ref v)
    (hr : b.deref r = .ref u) (hs : Solves (b.merge v u) eqs b') : Solves b ((l, r) :: eqs) b' := by
  by_cases hvu : v = u
  · rw [merge, if_pos hvu] at hs
    exact .same (by rw [hl, hr, hvu]) hs
  · rw [merge, if_neg hvu] at hs
    split at hs
    · next hlt => exact .bind (.inl ⟨hl, hr⟩) (fun w e => by cases e; exact hlt) hs
    · next hlt => exact .bind (.inr ⟨hr, hl⟩) (fun w e => by cases e; omega) hs

theorem solves_of_unify {b1 : Bindings} (h : unify n b l r = some (some b1))
    {eqs : List (Term × Term)} (hs : Solves b1 eqs b') : Solves b ((l, r) :: eqs) b' := by
  induction n generalizing b l r b1 eqs b' with
  | zero => simp [unify] at h
  | succ n ih =>
    generalize hl : b.deref l = l', hr : b.deref r = r'
    cases Meeting.of l' r' with
    | wild hw =>
      subst hl hr
      rw [unify_wild hw] at h
      cases h
      exact .free hw hs
    | refs v u =>
      rw [unify_refs hl hr] at h
      cases h
      exact solves_of_merge hl hr hs
    | refLeft v hw ht =>
      rw [unify_refLeft hl hr hw ht] at h
      cases h
      exact .bind (.inl ⟨hl, hr⟩) (fun u e => absurd e (ht u)) hs
    | refRight v hw ht =>
      rw [unify_refRight hl hr hw ht] at h
      cases h
      exact .bind (.inr ⟨hr, hl⟩) (fun u e => absurd e (ht u)) hs
    | nodes x y =>
      rw [unify_nodes hl hr] at h
      split at h
      · next e =>
        cases h
        exact .same (by rw [hl, hr, e]) hs
      · simp at h
    | apps f g as bs =>
      rw [unify_apps hl hr] at h
      split at h
      · next e =>
        obtain ⟨rfl, hlen⟩ := e
        exact .parts hl hr hlen (solves_of_unifyEach (fun _ _ _ _ h1 _ _ h2 => ih h1 h2) h hs)
      · simp at h
    | nodeApp x f as => simp [unify_nodeApp hl hr] at h
    | appNode x f as => simp [unify_appNode hl hr] at h

theorem solves_of_unifyAll {ls rs : List Term} (h : b.unifyAll n ls rs = some (some b')) :
    Solves b (ls.zip rs) b' := by
  have := solves_of_unifyEach (fun _ _ _ _ h1 _ _ h2 => solves_of_unify h1 h2) h (.done b')
  simpa using this

/-! ## Leaves that may stand in terms -/

/-- A leaf of a kind that `q` picks; a variable is one that exists. -/
def Allowed (q : Term → Prop) (size : Nat) (x : Term) : Prop :=
  q x ∧ ∀ v, x = .ref v → v < size

/-- The term is made of leaves that are allowed under the bindings. -/
def Scoped (q : Term → Prop) (b : Bindings) (t : Term) : Prop := t.Has (Allowed q b.size)

/-- Chains end, and values are made of leaves that are allowed. -/
structure Fits (q : Term → Prop) (b : Bindings) : Prop where
  ordered : b.Ordered
  values : b.ValuesHave (Allowed q b.size)

variable {q : Term → Prop}

theorem Allowed.mono {x : Term} (hnm : n ≤ m) (h : Allowed q n x) : Allowed q m x :=
  ⟨h.1, fun v e => Nat.lt_of_lt_of_le (h.2 v e) hnm⟩

theorem Scoped.mono (h : b.Scoped q t) (hs : b.size ≤ b'.size) : b'.Scoped q t :=
  Term.Has.mono (fun _ => Allowed.mono hs) h

theorem Scoped.of_isGround (h : t.isGround = true) : b.Scoped q t := Term.Has.of_isGround h

theorem Fits.empty (q : Term → Prop) (n : Nat) : (⟨n, ∅, []⟩ : Bindings).Fits q :=
  ⟨.empty n, fun v t h => by simp at h⟩

theorem Fits.grow (h : b.Fits q) (n : Nat) : (b.grow n).Fits q :=
  ⟨h.ordered.grow n, h.values.mono fun _ => Allowed.mono (Nat.le_max_left _ _)⟩

theorem Fits.newVar (h : b.Fits q) : b.newVar.2.Fits q :=
  ⟨h.ordered.newVar, h.values.mono fun _ => Allowed.mono (Nat.le_succ _)⟩

theorem Fits.deref (h : b.Fits q) (ht : b.Scoped q t) : b.Scoped q (b.deref t) :=
  h.values.deref h.ordered ht

theorem Fits.bind (h : b.Fits q) (hc : b.CanBind v t) (ht : b.Scoped q t) :
    (b.bind v t).Fits q :=
  ⟨hc.ordered h.ordered, by rw [size_bind]; exact h.values.bind ht⟩

/-- A variable that a term is followed to can be bound. -/
theorem Fits.canBind (h : b.Fits q) (hl : b.Scoped q l) (hv : b.deref l = .ref v)
    (ht : b.deref r = t) (hold : ∀ u, t = .ref u → u < v) : b.CanBind v t where
  exists_var := by
    have := h.deref hl
    rw [hv] at this
    exact (Term.has_ref.1 this).2 v rfl
  unbound := value?_of_deref_eq_ref h.ordered hv
  isEnd := ht ▸ isEnd_deref h.ordered r
  older := hold

theorem Fits.canBind_of_meet (h : b.Fits q) (hl : b.Scoped q l) (hr : b.Scoped q r)
    (hm : b.deref l = .ref v ∧ b.deref r = t ∨ b.deref r = .ref v ∧ b.deref l = t)
    (hold : ∀ u, t = .ref u → u < v) : b.CanBind v t ∧ b.Scoped q t := by
  rcases hm with ⟨hv, ht⟩ | ⟨hv, ht⟩
  · exact ⟨h.canBind hl hv ht hold, ht ▸ h.deref hr⟩
  · exact ⟨h.canBind hr hv ht hold, ht ▸ h.deref hl⟩

theorem zip_scoped {as bs : List Term} (ha : ∀ a ∈ as, b.Scoped q a)
    (hb : ∀ a ∈ bs, b.Scoped q a) : ∀ e ∈ as.zip bs, b.Scoped q e.1 ∧ b.Scoped q e.2 :=
  fun _ he => ⟨ha _ (List.of_mem_zip he).1, hb _ (List.of_mem_zip he).2⟩

/-- What a solution makes of bindings that fit: they still fit, and values stay. -/
structure After (q : Term → Prop) (b b' : Bindings) : Prop where
  fits : b'.Fits q
  keeps : b.Extends b'
  size_eq : b'.size = b.size

theorem Solves.size_eq {eqs : List (Term × Term)} (hs : Solves b eqs b') : b'.size = b.size := by
  induction hs with
  | done b => rfl
  | bind _ _ _ ih => rw [ih, size_bind]
  | free _ _ ih | same _ _ ih | parts _ _ _ _ ih => exact ih

theorem Solves.after {eqs : List (Term × Term)} (hs : Solves b eqs b') (h : b.Fits q)
    (he : ∀ e ∈ eqs, b.Scoped q e.1 ∧ b.Scoped q e.2) : After q b b' := by
  induction hs with
  | done b => exact ⟨h, .refl b, rfl⟩
  | free _ _ ih | same _ _ ih => exact ih h fun e hm => he e (List.mem_cons_of_mem _ hm)
  | bind hm hold _ ih =>
    obtain ⟨hl, hr⟩ := he _ List.mem_cons_self
    obtain ⟨hc, ht⟩ := h.canBind_of_meet hl hr hm hold
    have := ih (h.bind hc ht) fun e hm => by
      obtain ⟨h1, h2⟩ := he e (List.mem_cons_of_mem _ hm)
      exact ⟨h1.mono (by simp), h2.mono (by simp)⟩
    exact ⟨this.fits, hc.keeps.trans this.keeps, by simpa using this.size_eq⟩
  | parts hl hr _ _ ih =>
    obtain ⟨h1, h2⟩ := he _ List.mem_cons_self
    have ha := h.deref h1
    have hb := h.deref h2
    rw [hl] at ha
    rw [hr] at hb
    refine ih h fun e hm => ?_
    rcases List.mem_append.1 hm with hm | hm
    · exact zip_scoped (Term.has_app.1 ha) (Term.has_app.1 hb) e hm
    · exact he e (List.mem_cons_of_mem _ hm)

theorem unifyAll_after {ls rs : List Term} (h : b.Fits q) (hl : ∀ t ∈ ls, b.Scoped q t)
    (hr : ∀ t ∈ rs, b.Scoped q t) (hu : b.unifyAll n ls rs = some (some b')) : After q b b' :=
  (solves_of_unifyAll hu).after h (zip_scoped hl hr)

theorem unify_after (h : b.Fits q) (hl : b.Scoped q l) (hr : b.Scoped q r)
    (hu : unify n b l r = some (some b')) : After q b b' :=
  (solves_of_unify hu (.done b')).after h (by simpa using ⟨hl, hr⟩)

/-! ## What terms mean -/

theorem deepDeref_mono (hnm : n ≤ m) {g : Term} (h : b.deepDeref n t = some g) :
    b.deepDeref m t = some g := by
  induction n generalizing m t g with
  | zero => simp [deepDeref] at h
  | succ n ih =>
    obtain ⟨k, rfl⟩ : ∃ k, m = k + 1 := ⟨m - 1, by omega⟩
    rw [deepDeref] at h ⊢
    split at h
    · next f args _ =>
      obtain ⟨gs, hgs, rfl⟩ := Option.map_eq_some_iff.1 h
      rw [mapM_eq_some_iff.2 ((mapM_eq_some_iff.1 hgs).imp fun _ _ hx => ih (by omega) hx)]
      rfl
    · exact h

/-- Under the bindings the term stands for a ground term. -/
def Means (b : Bindings) (t g : Term) : Prop := ∃ n, b.deepDeref n t = some g ∧ g.isGround = true

theorem Means.unique {g g' : Term} (h : b.Means t g) (h' : b.Means t g') : g = g' := by
  obtain ⟨n, hn, _⟩ := h
  obtain ⟨m, hm, _⟩ := h'
  have h1 := deepDeref_mono (Nat.le_max_left n m) hn
  rw [deepDeref_mono (Nat.le_max_right n m) hm] at h1
  exact (Option.some.inj h1).symm

theorem Means.isGround {g : Term} (h : b.Means t g) : g.isGround = true := h.choose_spec.2

theorem deepDeref_deref (ho : b.Ordered) (n : Nat) (t : Term) :
    b.deepDeref n (b.deref t) = b.deepDeref n t := by
  cases n with
  | zero => rfl
  | succ n => rw [deepDeref, deepDeref, deref_deref ho]

theorem means_deref (ho : b.Ordered) {g : Term} : b.Means (b.deref t) g ↔ b.Means t g := by
  simp only [Means, deepDeref_deref ho]

@[simp] theorem means_node {x : Node} {g : Term} : b.Means (.node x) g ↔ g = .node x := by
  constructor
  · rintro ⟨n, hn, _⟩
    cases n with
    | zero => simp [deepDeref] at hn
    | succ n => simpa [deepDeref, eq_comm] using hn
  · rintro rfl
    exact ⟨1, by simp [deepDeref], by simp⟩

theorem means_app {f : String} {ts : List Term} {g : Term} :
    b.Means (.app f ts) g ↔ ∃ gs, g = .app f gs ∧ List.Forall₂ b.Means ts gs := by
  constructor
  · rintro ⟨n, hn, hg⟩
    cases n with
    | zero => simp [deepDeref] at hn
    | succ n =>
      simp only [deepDeref, deref_app] at hn
      obtain ⟨gs, hgs, rfl⟩ := Option.map_eq_some_iff.1 hn
      have hall := mapM_eq_some_iff.1 hgs
      have hgr := Term.isGround_app.1 hg
      refine ⟨gs, rfl, ?_⟩
      clear hn hgs hg
      induction hall with
      | nil => exact .nil
      | cons h1 _ ih =>
        exact .cons ⟨n, h1, hgr _ List.mem_cons_self⟩
          (ih fun t ht => hgr t (List.mem_cons_of_mem _ ht))
  · rintro ⟨gs, rfl, hall⟩
    -- the depth is one more than the deepest argument needs
    have : ∃ n, List.Forall₂ (fun t g => b.deepDeref n t = some g) ts gs ∧
        ∀ g ∈ gs, g.isGround = true := by
      induction hall with
      | nil => exact ⟨0, .nil, by simp⟩
      | cons h1 _ ih =>
        obtain ⟨n, hn, hg⟩ := h1
        obtain ⟨m, hm, hgs⟩ := ih
        refine ⟨max n m, .cons (deepDeref_mono (Nat.le_max_left n m) hn)
          (hm.imp fun _ _ hx => deepDeref_mono (Nat.le_max_right n m) hx), ?_⟩
        simpa using ⟨hg, hgs⟩
    obtain ⟨n, hn, hg⟩ := this
    exact ⟨n + 1, by simp [deepDeref, mapM_eq_some_iff.2 hn], Term.isGround_app.2 hg⟩

theorem not_means_of_isEnd {g : Term} (h : b.value? v = none) : ¬ b.Means (.ref v) g := by
  rintro ⟨n, hn, hg⟩
  cases n with
  | zero => simp [deepDeref] at hn
  | succ n =>
    rw [deepDeref, deref_ref_of_none h] at hn
    cases hn
    simp at hg

theorem means_of_isGround (h : t.isGround = true) : b.Means t t := by
  induction t using Term.induct with
  | node x => simp
  | app f ts ih =>
    refine means_app.2 ⟨ts, rfl, ?_⟩
    exact List.forall₂_same.2 fun t ht => ih t ht (Term.isGround_app.1 h t ht)
  | _ => simp at h

theorem Means.extend (h : b.Extends b') (ho : b.Ordered) (ho' : b'.Ordered) {g : Term}
    (hm : b.Means t g) : b'.Means t g := by
  obtain ⟨n, hn, hg⟩ := hm
  induction n generalizing t g with
  | zero => simp [deepDeref] at hn
  | succ n ih =>
    have hd := h.deref_deref ho ho' t
    rw [deepDeref] at hn
    split at hn
    · next f args hf =>
      obtain ⟨gs, hgs, rfl⟩ := Option.map_eq_some_iff.1 hn
      rw [hf, deref_app] at hd
      rw [← means_deref ho', ← hd]
      have hgr := Term.isGround_app.1 hg
      refine means_app.2 ⟨gs, rfl, ?_⟩
      have hall := mapM_eq_some_iff.1 hgs
      clear hgs hn hg hd hf
      induction hall with
      | nil => exact .nil
      | cons h1 _ ih2 =>
        exact .cons (ih h1 (hgr _ List.mem_cons_self))
          (ih2 fun t ht => hgr t (List.mem_cons_of_mem _ ht))
    · cases hn
      rw [← means_deref ho', ← hd, means_deref ho']
      exact means_of_isGround hg

/-- Under more bindings a term means what its old end means. -/
theorem Extends.means_deref (h : b.Extends b') (ho : b.Ordered) (ho' : b'.Ordered) {g : Term} :
    b'.Means (b.deref t) g ↔ b'.Means t g := by
  rw [← Bindings.means_deref ho', h.deref_deref ho ho', Bindings.means_deref ho']

/-- No wildcard and no named variable. -/
def IsRef (x : Term) : Prop := ∃ v, x = .ref v

theorem not_wild_of_scoped (h : b.Scoped IsRef t) : ¬ Wild t := by
  rintro (rfl | ⟨x, rfl⟩)
  · obtain ⟨⟨v, hv⟩, -⟩ := Term.has_any.1 h
    cases hv
  · obtain ⟨⟨v, hv⟩, -⟩ := Term.has_var.1 h
    cases hv

/-- `M` says what terms stand for under the bindings: a compound term for what its parts make
up, and a bound variable for what its value stands for. -/
structure Respects (c : Bindings) (M : Term → Term → Prop) : Prop where
  app : ∀ {f : String} {ts : List Term} {g : Term},
    M (.app f ts) g ↔ ∃ gs, g = .app f gs ∧ List.Forall₂ M ts gs
  bound : ∀ {v : Nat} {t g : Term}, c.value? v = some t → (M (.ref v) g ↔ M t g)

theorem Respects.deref {M : Term → Term → Prop} {c : Bindings} (hM : c.Respects M)
    (hbc : b.Extends c) (ho : b.Ordered) (t g : Term) : M (b.deref t) g ↔ M t g := by
  induction t using ho.chain_induct with
  | stop t hend => rw [deref_of_isEnd hend]
  | link v t hv ih => rw [deref_ref_of_some ho hv, ih, hM.bound (hbc.value hv)]

theorem Ordered.respects_means {c : Bindings} (hco : c.Ordered) : c.Respects c.Means where
  app := means_app
  bound := fun hv => by
    rw [← Bindings.means_deref hco, deref_ref_of_some hco hv, Bindings.means_deref hco]

/-- Where no wildcard occurs, the sides of a solved equation stand for the same from then on. -/
theorem Solves.iff_of_respects {M : Term → Term → Prop} {eqs : List (Term × Term)} (hs : Solves b eqs b')
    (h : b.Fits IsRef) (he : ∀ e ∈ eqs, b.Scoped IsRef e.1 ∧ b.Scoped IsRef e.2) {c : Bindings}
    (hc : b'.Extends c) (hM : c.Respects M) : ∀ e ∈ eqs, ∀ g, M e.1 g ↔ M e.2 g := by
  induction hs with
  | done b => simp
  | @free b b' l r eqs hw hs ih =>
    obtain ⟨hl, hr⟩ := he _ List.mem_cons_self
    exact absurd hw (not_or.2 ⟨not_wild_of_scoped (h.deref hl), not_wild_of_scoped (h.deref hr)⟩)
  | @same b b' l r eqs heq hs ih =>
    have hrest := fun e hm => he e (List.mem_cons_of_mem _ hm)
    have hbc := ((hs.after h hrest).keeps).trans hc
    refine List.forall_mem_cons.2 ⟨fun g => ?_, ih h hrest hc⟩
    rw [← hM.deref hbc h.ordered l, ← hM.deref hbc h.ordered r, heq]
  | @bind b b' l r t v eqs hm hold hs ih =>
    obtain ⟨hl, hr⟩ := he _ List.mem_cons_self
    obtain ⟨hcan, ht⟩ := h.canBind_of_meet hl hr hm hold
    have hrest : ∀ e ∈ eqs, (b.bind v t).Scoped IsRef e.1 ∧ (b.bind v t).Scoped IsRef e.2 :=
      fun e hm => by
        obtain ⟨h1, h2⟩ := he e (List.mem_cons_of_mem _ hm)
        exact ⟨h1.mono (by simp), h2.mono (by simp)⟩
    have hafter := hs.after (h.bind hcan ht) hrest
    have hbc := hcan.keeps.trans (hafter.keeps.trans hc)
    have hval : c.value? v = some t :=
      hc.value (hafter.keeps.value (by rw [value?_bind hcan.exists_var, if_pos rfl]))
    refine List.forall_mem_cons.2 ⟨fun g => ?_, ih (h.bind hcan ht) hrest hc⟩
    rw [← hM.deref hbc h.ordered l, ← hM.deref hbc h.ordered r]
    rcases hm with ⟨hv, ht⟩ | ⟨hv, ht⟩
    · rw [hv, ht, hM.bound hval]
    · rw [hv, ht, hM.bound hval]
  | @parts b b' l r f as bs eqs hl hr hlen hs ih =>
    obtain ⟨h1, h2⟩ := he _ List.mem_cons_self
    have ha := h.deref h1
    have hb := h.deref h2
    rw [hl] at ha
    rw [hr] at hb
    have hall : ∀ e ∈ as.zip bs ++ eqs, b.Scoped IsRef e.1 ∧ b.Scoped IsRef e.2 := fun e hm => by
      rcases List.mem_append.1 hm with hm | hm
      · exact zip_scoped (Term.has_app.1 ha) (Term.has_app.1 hb) e hm
      · exact he e (List.mem_cons_of_mem _ hm)
    have hbc := (hs.after h hall).keeps.trans hc
    have heach := ih h hall hc
    refine List.forall_mem_cons.2 ⟨fun g => ?_, fun e hm => heach e (List.mem_append_right _ hm)⟩
    rw [← hM.deref hbc h.ordered l, ← hM.deref hbc h.ordered r, hl, hr, hM.app, hM.app]
    exact exists_congr fun gs => and_congr_right fun _ =>
      forall₂_iff_of_zip hlen (fun e hm => heach e (List.mem_append_left _ hm)) gs

/-- In particular they mean the same ground terms. -/
theorem Solves.means_iff {eqs : List (Term × Term)} (hs : Solves b eqs b') (h : b.Fits IsRef)
    (he : ∀ e ∈ eqs, b.Scoped IsRef e.1 ∧ b.Scoped IsRef e.2) {c : Bindings} (hc : b'.Extends c)
    (hco : c.Ordered) : ∀ e ∈ eqs, ∀ g, c.Means e.1 g ↔ c.Means e.2 g :=
  hs.iff_of_respects h he hc hco.respects_means

theorem unify_means_iff (h : b.Fits IsRef) (hl : b.Scoped IsRef l) (hr : b.Scoped IsRef r)
    (hu : unify n b l r = some (some b')) {c : Bindings} (hc : b'.Extends c) (hco : c.Ordered)
    (g : Term) : c.Means l g ↔ c.Means r g :=
  (solves_of_unify hu (.done b')).means_iff h (by simpa using ⟨hl, hr⟩) hc hco (l, r) (by simp) g

end TabledRules.Bindings
