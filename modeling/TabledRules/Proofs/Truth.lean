-- What resolution derives is true. Under the bindings that a run of steps ends
-- with, every goal on the way means a derivable triple. So do the goals that
-- the machines answer, as their answers say.
import TabledRules.Proofs.Nodes
import TabledRules.Proofs.Patterns

namespace TabledRules

open Bindings

/-! ## Values of variables -/

/-- The values are made of variables that exist. -/
def Values.Scoped (b : Bindings) (θ : Values) : Prop := ∀ v t, θ v = some t → b.Scoped IsRef t

/-- The second has the values of the first. -/
def Values.Le (θ θ' : Values) : Prop := ∀ v t, θ v = some t → θ' v = some t

/-- What a variable of a rule stands for in the end. One without a value is of no
importance. -/
noncomputable def Values.ground (θ : Values) (c : Bindings) (v : String) : Term :=
  open Classical in
  if h : ∃ g t, θ v = some t ∧ c.Means t g then h.choose else .node (.blank "")

/-- The variable has a value in the end. -/
def Values.Known (θ : Values) (c : Bindings) (v : String) : Prop :=
  ∃ t, θ v = some t ∧ c.Means t (θ.ground c v)

section

variable {θ θ' : Values} {b b' c : Bindings} {v : String} {t g : Term}

theorem Values.Scoped.mono (h : θ.Scoped b) (hs : b.size ≤ b'.size) : θ.Scoped b' :=
  fun v t ht => (h v t ht).mono hs

theorem Values.Scoped.set (h : θ.Scoped b) (ht : b.Scoped IsRef t) : (θ.set v t).Scoped b := by
  intro u x hx
  by_cases e : u = v
  · subst e
    rw [Values.set_self] at hx
    cases hx
    exact ht
  · rw [Values.set_of_ne θ t e] at hx
    exact h u x hx

theorem Values.Le.trans {θ'' : Values} (h : θ.Le θ') (h' : θ'.Le θ'') : θ.Le θ'' :=
  fun v t ht => h' v t (h v t ht)

theorem Values.known (ht : θ v = some t) (hg : c.Means t g) : θ.Known c v := by
  have h : ∃ g t, θ v = some t ∧ c.Means t g := ⟨g, t, ht, hg⟩
  unfold Values.Known Values.ground
  rw [dif_pos h]
  exact h.choose_spec

theorem Values.isGround_ground (θ : Values) (c : Bindings) (v : String) :
    (θ.ground c v).isGround = true := by
  unfold Values.ground
  split
  · next h =>
    obtain ⟨t, -, hg⟩ := h.choose_spec
    exact hg.isGround
  · simp

theorem Values.Known.fills (h : θ.Known c v) (ht : θ v = some t) :
    c.Means t g ↔ Fills (θ.ground c) (.var v) g := by
  obtain ⟨u, hu, hmeans⟩ := h
  rw [ht] at hu
  cases hu
  constructor
  · intro hg
    refine ⟨hg.isGround, fun w hw => ?_⟩
    cases hw
    exact hg.unique hmeans
  · rintro ⟨-, hg⟩
    rw [hg v rfl]
    exact hmeans

end

/-! ## Heads -/

section

variable {n : Nat} {θ θ' θ'' : Values} {b b' c : Bindings} {arg t : Term} {args ts : List Term}

/-- What a match leaves behind fits, and goes on from what was there. -/
structure Matched (b : Bindings) (θ : Values) (b' : Bindings) (θ' : Values) : Prop where
  fits : b'.Fits IsRef
  values : θ'.Scoped b'
  keeps : b.Extends b'
  le : θ.Le θ'

/-- The term of a head stands for what the argument means, whatever comes later. -/
def MatchMeans (b : Bindings) (θ : Values) (arg t : Term) : Prop :=
  ∀ (c : Bindings) (θ' : Values), b.Extends c → c.Ordered → θ.Le θ' →
    (∀ v, .var v ∈ t.leaves → θ'.Known c v) → ∀ g, t.Instance (Fills (θ'.ground c)) g → c.Means arg g

theorem MatchMeans.mono (h : MatchMeans b θ arg t) (hb : b.Extends b') (hθ : θ.Le θ') :
    MatchMeans b' θ' arg t :=
  fun c θ'' hc ho hle => h c θ'' (hb.trans hc) ho (hθ.trans hle)

theorem Matched.refl (hb : b.Fits IsRef) (hθ : θ.Scoped b) : Matched b θ b θ :=
  ⟨hb, hθ, .refl b, fun _ _ h => h⟩

theorem Matched.trans {b'' : Bindings} (h : Matched b θ b' θ') (h' : Matched b' θ' b'' θ'') :
    Matched b θ b'' θ'' :=
  ⟨h'.fits, h'.values, h.keeps.trans h'.keeps, h.le.trans h'.le⟩

theorem Matched.of_unify {l r : Term} (hb : b.Fits IsRef) (hθ : θ.Scoped b)
    (hl : b.Scoped IsRef l) (hr : b.Scoped IsRef r) (h : unify n b l r = some (some b')) :
    Matched b θ b' θ :=
  have hafter := unify_after hb hl hr h
  ⟨hafter.fits, hθ.mono hafter.keeps.size_le, hafter.keeps, fun _ _ h => h⟩

theorem matchLeaf_matched (hb : b.Fits IsRef) (hθ : θ.Scoped b) (harg : b.Scoped IsRef arg)
    (h : matchLeaf n θ b arg t = some (some (θ', b'))) : Matched b θ b' θ' := by
  unfold matchLeaf at h
  split at h
  · next v =>
    split at h
    · next hv =>
      cases h
      refine ⟨hb, hθ.set harg, .refl b, fun u x hx => ?_⟩
      rw [Values.set_of_ne θ arg (by rintro rfl; rw [hv] at hx; cases hx)]
      exact hx
    · next x hx =>
      obtain ⟨rfl, hu⟩ := map_map_eq_some h
      exact .of_unify hb hθ harg (hθ v x hx) hu
  · next x =>
    obtain ⟨rfl, hu⟩ := map_map_eq_some h
    exact .of_unify hb hθ harg (.of_isGround (by simp)) hu
  · cases h
    exact .refl hb hθ

theorem matchLeaf_means (hb : b.Fits IsRef) (hθ : θ.Scoped b) (harg : b.Scoped IsRef arg)
    (ht : t.isApp = false) (hvars : ∀ x ∈ t.leaves, ∃ v, x = .var v)
    (h : matchLeaf n θ b arg t = some (some (θ', b'))) : MatchMeans b' θ' arg t := by
  intro c θ'' hc ho hle hknown g hg
  cases t with
  | app f ts => cases ht
  | ref v => simpa using hvars (.ref v) (by simp)
  | any => simpa using hvars .any (by simp)
  | node x =>
    obtain ⟨rfl, hu⟩ := map_map_eq_some h
    exact (unify_means_iff hb harg (.of_isGround (by simp)) hu hc ho g).2 (by simpa using hg)
  | var v =>
    unfold matchLeaf at h
    simp only at h
    split at h
    · next hv =>
      cases h
      exact ((hknown v (by simp)).fills (hle v arg (by simp))).2 (by simpa using hg)
    · next x hx =>
      obtain ⟨rfl, hu⟩ := map_map_eq_some h
      refine (unify_means_iff hb harg (hθ v x hx) hu hc ho g).2 ?_
      exact ((hknown v (by simp)).fills (hle v x hx)).2 (by simpa using hg)

theorem matchLeaves_matched (hb : b.Fits IsRef) (hθ : θ.Scoped b)
    (hargs : ∀ a ∈ args, b.Scoped IsRef a) (h : matchLeaves n θ b args ts = some (some (θ', b'))) :
    Matched b θ b' θ' := by
  induction ts generalizing θ b args with
  | nil =>
    cases args <;> cases h <;> exact .refl hb hθ
  | cons t ts ih =>
    cases args with
    | nil =>
      cases h
      exact .refl hb hθ
    | cons arg args =>
      obtain ⟨θ1, b1, h1, h2⟩ := matchThen_eq_some h
      have hm := matchLeaf_matched hb hθ (hargs arg List.mem_cons_self) h1
      exact hm.trans (ih hm.fits hm.values
        (fun a ha => (hargs a (List.mem_cons_of_mem _ ha)).mono hm.keeps.size_le) h2)

theorem matchLeaves_means (hb : b.Fits IsRef) (hθ : θ.Scoped b)
    (hargs : ∀ a ∈ args, b.Scoped IsRef a) (hlen : args.length = ts.length)
    (hts : ∀ t ∈ ts, t.isApp = false) (hvars : ∀ t ∈ ts, ∀ x ∈ t.leaves, ∃ v, x = .var v)
    (h : matchLeaves n θ b args ts = some (some (θ', b'))) :
    List.Forall₂ (MatchMeans b' θ') args ts := by
  induction ts generalizing θ b args with
  | nil =>
    obtain rfl := List.eq_nil_of_length_eq_zero hlen
    exact .nil
  | cons t ts ih =>
    cases args with
    | nil => cases hlen
    | cons arg args =>
      obtain ⟨θ1, b1, h1, h2⟩ := matchThen_eq_some h
      have harg := hargs arg List.mem_cons_self
      have hm := matchLeaf_matched hb hθ harg h1
      have hmeans := matchLeaf_means hb hθ harg (hts t List.mem_cons_self)
        (hvars t List.mem_cons_self) h1
      have hargs' : ∀ a ∈ args, b1.Scoped IsRef a := fun a ha =>
        (hargs a (List.mem_cons_of_mem _ ha)).mono hm.keeps.size_le
      have hm2 := matchLeaves_matched hm.fits hm.values hargs' h2
      have hall := ih hm.fits hm.values hargs' (by simpa using hlen)
        (fun t ht => hts t (List.mem_cons_of_mem _ ht))
        (fun t ht => hvars t (List.mem_cons_of_mem _ ht)) h2
      exact .cons (hmeans.mono hm2.keeps hm2.le) hall

theorem freshen_cons (replaced : Term → Bool) (b : Bindings) (t : Term) (ts : List Term) :
    b.freshen replaced (t :: ts) =
      if replaced t then
        (.ref b.size :: (b.newVar.2.freshen replaced ts).1, (b.newVar.2.freshen replaced ts).2)
      else (t :: (b.freshen replaced ts).1, (b.freshen replaced ts).2) := by
  cases h : replaced t <;> simp [freshen, h, newVar]

/-- New variables have no values, and old ones keep theirs. -/
theorem freshen_fits (replaced : Term → Bool) (hb : b.Fits IsRef)
    (hts : ∀ t ∈ ts, replaced t = true ∨ t.isGround = true) :
    (b.freshen replaced ts).2.Fits IsRef ∧ b.Extends (b.freshen replaced ts).2 ∧
      (∀ u ∈ (b.freshen replaced ts).1, (b.freshen replaced ts).2.Scoped IsRef u) ∧
      ∀ v, (b.freshen replaced ts).2.value? v = b.value? v := by
  induction ts generalizing b with
  | nil => exact ⟨hb, .refl _, by simp [freshen], fun _ => rfl⟩
  | cons t ts ih =>
    have hrest := fun t ht => hts t (List.mem_cons_of_mem _ ht)
    rw [freshen_cons]
    split
    · obtain ⟨h1, h2, h3, h4⟩ := ih hb.newVar hrest
      refine ⟨h1, (Extends.newVar b).trans h2, fun u hu => ?_, h4⟩
      rcases List.mem_cons.1 hu with rfl | hu
      · have hlt := Nat.lt_of_lt_of_le (Nat.lt_succ_self b.size) h2.size_le
        exact Term.has_ref.2 ⟨⟨_, rfl⟩, fun v e => by cases e; exact hlt⟩
      · exact h3 u hu
    · next hr =>
      obtain ⟨h1, h2, h3, h4⟩ := ih hb hrest
      refine ⟨h1, h2, fun u hu => ?_, h4⟩
      rcases List.mem_cons.1 hu with rfl | hu
      · exact .of_isGround ((hts u List.mem_cons_self).resolve_left hr)
      · exact h3 u hu

/-- The arguments of an object that was opened make up what the object means. -/
theorem openObject_means {object : Term} {f : String} (hb : b.Fits IsRef)
    (hobject : b.Scoped IsRef object)
    (hts : ∀ t ∈ ts, t.isApp = false) (h : b.openObject object f ts = some (args, b')) :
    b'.Fits IsRef ∧ b.Extends b' ∧ (∀ a ∈ args, b'.Scoped IsRef a) ∧
      ∀ c : Bindings, b'.Extends c → c.Ordered → ∀ gs, List.Forall₂ c.Means args gs →
        c.Means object (.app f gs) := by
  have hwild := not_wild_of_scoped (hb.deref hobject)
  unfold Bindings.openObject at h
  split at h
  · next g as hd =>
    split at h
    · next e =>
      obtain ⟨rfl, -⟩ := e
      cases h
      have hscoped := hb.deref hobject
      rw [hd] at hscoped
      refine ⟨hb, .refl _, Term.has_app.1 hscoped, fun c hc ho gs hgs => ?_⟩
      rw [← hc.means_deref hb.ordered ho, hd]
      exact means_app.2 ⟨gs, rfl, hgs⟩
    · cases h
  · next v hd =>
    obtain ⟨h1, h2, h3, h4⟩ := freshen_fits Term.isVar hb (fun t ht => by
      have := hts t ht
      cases t <;> simp_all [Term.isVar, Term.isApp])
    have hvalue := value?_of_deref_eq_ref hb.ordered hd
    have hlt : v < b.size := by
      have := hb.deref hobject
      rw [hd] at this
      exact (Term.has_ref.1 this).2 v rfl
    have hcan : (b.freshen Term.isVar ts).2.CanBind v (.app f (b.freshen Term.isVar ts).1) :=
      ⟨Nat.lt_of_lt_of_le hlt h2.size_le, (h4 v).trans hvalue, isEnd_of_ne_ref (by simp),
        by simp⟩
    cases h
    refine ⟨h1.bind hcan (Term.has_app.2 h3), h2.trans hcan.keeps,
      fun a ha => (h3 a ha).mono (by simp), fun c hc ho gs hgs => ?_⟩
    have hval : c.value? v = some (.app f (b.freshen Term.isVar ts).1) :=
      hc.value (by rw [value?_bind hcan.exists_var, if_pos rfl])
    rw [← (h2.trans (hcan.keeps.trans hc)).means_deref hb.ordered ho, hd, ← means_deref ho,
      deref_ref_of_some ho hval, means_deref ho]
    exact means_app.2 ⟨gs, rfl, hgs⟩
  · next hd => exact absurd (.inl hd) hwild
  · next x hd => exact absurd (.inr ⟨x, hd⟩) hwild
  · cases h

theorem matchObject_matched (hb : b.Fits IsRef) (hθ : θ.Scoped b) (harg : b.Scoped IsRef arg)
    (ht : ∀ f ts, t = .app f ts → ∀ t ∈ ts, t.isApp = false)
    (h : matchObject n θ b arg t = some (some (θ', b'))) : Matched b θ b' θ' := by
  unfold matchObject at h
  split at h
  · next f ts =>
    split at h
    · cases h
    · next args b1 hopen =>
      obtain ⟨h1, h2, h3, -⟩ := openObject_means hb harg (ht f ts rfl) hopen
      have hm := matchLeaves_matched h1 (hθ.mono h2.size_le) h3 h
      exact ⟨hm.fits, hm.values, h2.trans hm.keeps, hm.le⟩
  · exact matchLeaf_matched hb hθ harg h

theorem matchObject_means (hb : b.Fits IsRef) (hθ : θ.Scoped b) (harg : b.Scoped IsRef arg)
    (ht : ∀ f ts, t = .app f ts → ∀ t ∈ ts, t.isApp = false)
    (hvars : ∀ x ∈ t.leaves, ∃ v, x = .var v)
    (h : matchObject n θ b arg t = some (some (θ', b'))) : MatchMeans b' θ' arg t := by
  unfold matchObject at h
  split at h
  · next f ts =>
    split at h
    · cases h
    · next args b1 hopen =>
      obtain ⟨h1, h2, h3, h4⟩ := openObject_means hb harg (ht f ts rfl) hopen
      have hleaves : ∀ t ∈ ts, ∀ x ∈ t.leaves, ∃ v, x = .var v :=
        fun t ht x hx => hvars x (by simpa using ⟨t, ht, hx⟩)
      have h5 := matchLeaves_matched h1 (hθ.mono h2.size_le) h3 h
      have h6 := matchLeaves_means h1 (hθ.mono h2.size_le) h3
        (Bindings.length_openObject hopen) (ht f ts rfl) hleaves h
      intro c θ'' hc ho hle hknown g hg
      obtain ⟨gs, rfl, hgs⟩ := Term.instance_app.1 hg
      refine h4 c (h5.keeps.trans hc) ho gs ?_
      clear hopen h3 h4 h5 h ht hg hvars hleaves
      induction h6 generalizing gs with
      | nil =>
        cases hgs
        exact .nil
      | @cons a t as ts h7 _ ih =>
        obtain ⟨g, gs, h8, h9, rfl⟩ := List.forall₂_cons_left_iff.1 hgs
        simp only [Term.leaves_app, List.flatMap_cons, List.mem_append] at hknown ih
        exact .cons (h7 c θ'' hc ho hle (fun v hv => hknown v (.inl hv)) g h8)
          (ih (fun v hv => hknown v (.inr hv)) gs h9)
  · next hne =>
    exact matchLeaf_means hb hθ harg (by cases t <;> simp_all [Term.isApp]) hvars h

/-- The terms of a triple are made of variables that exist. -/
def Triple.Scoped (b : Bindings) (t : Triple) : Prop := ∀ u ∈ t.terms, b.Scoped IsRef u

theorem Triple.Scoped.mono {g : Triple} (h : g.Scoped b) (hs : b.size ≤ b'.size) : g.Scoped b' :=
  fun u hu => (h u hu).mono hs

/-- In a head that is not refused, compound terms stand in the object only, and not inside
each other. -/
theorem flat_of_headFault {r : Rule} (hfault : r.headFault = none) :
    r.head.subject.isApp = false ∧ r.head.predicate.isApp = false ∧
      ∀ f ts, r.head.object = .app f ts → ∀ t ∈ ts, t.isApp = false := by
  unfold Rule.headFault at hfault
  split at hfault
  · cases hfault
  · next hne =>
    simp only [Bool.or_eq_true, not_or, Bool.not_eq_true] at hne
    refine ⟨hne.1, hne.2, fun f ts ho t ht => ?_⟩
    rw [ho] at hfault
    simp only at hfault
    split at hfault
    · cases hfault
    · next hany =>
      simp only [List.any_eq_true, not_exists, not_and, Bool.not_eq_true] at hany
      exact hany t ht

theorem Triple.Scoped.start {g : Triple} (h : g.Scoped b) :
    ∀ a ∈ [g.subject, g.predicate], b.Scoped IsRef a := by
  intro a ha
  refine h a ?_
  rcases List.mem_cons.1 ha with rfl | ha
  · simp [Triple.terms]
  · obtain rfl := List.mem_singleton.1 ha
    simp [Triple.terms]

theorem Triple.Scoped.object {g : Triple} (h : g.Scoped b) : b.Scoped IsRef g.object :=
  h g.object (by simp [Triple.terms])

/-- A head is matched with a goal term by term. -/
theorem matchHead_matched {r : Rule} {goal : Triple} (hfault : r.headFault = none)
    (hb : b.Fits IsRef) (hgoal : goal.Scoped b)
    (h : matchHead n r.head goal b = some (some (θ', b'))) :
    ∃ θ1 b1, matchLeaves n .none b [goal.subject, goal.predicate]
        [r.head.subject, r.head.predicate] = some (some (θ1, b1)) ∧
      matchObject n θ1 b1 goal.object r.head.object = some (some (θ', b')) ∧
      Matched b .none b1 θ1 ∧ b1.Scoped IsRef goal.object ∧ Matched b1 θ1 b' θ' := by
  obtain ⟨θ1, b1, h1, h2⟩ := matchThen_eq_some h
  have hm1 := matchLeaves_matched hb (fun v t ht => by cases ht) hgoal.start h1
  have hobject := hgoal.object.mono hm1.keeps.size_le
  exact ⟨θ1, b1, h1, h2, hm1, hobject,
    matchObject_matched hm1.fits hm1.values hobject (flat_of_headFault hfault).2.2 h2⟩

/-- A rule whose head is matched with a goal says something about what the goal means. -/
theorem matchHead_means {r : Rule} {goal : Triple} (hfault : r.headFault = none)
    (hvars : ∀ x ∈ r.head.leaves, ∃ v, x = .var v) (hb : b.Fits IsRef) (hgoal : goal.Scoped b)
    (h : matchHead n r.head goal b = some (some (θ', b'))) :
    b'.Fits IsRef ∧ θ'.Scoped b' ∧ b.Extends b' ∧
      ∀ (c : Bindings) (θ'' : Values), b'.Extends c → c.Ordered → θ'.Le θ'' →
        (∀ v, .var v ∈ r.head.leaves → θ''.Known c v) →
        ∀ u, r.head.Instance (Fills (θ''.ground c)) u → c.MeansTriple goal u := by
  have hsp := flat_of_headFault hfault
  simp only [Triple.leaves, List.mem_append] at hvars
  obtain ⟨θ1, b1, h1, h2, hm1, hobject, hm2⟩ := matchHead_matched hfault hb hgoal h
  have hall := matchLeaves_means hb (fun v t ht => by cases ht) hgoal.start (by rfl)
    (fun t ht => by
      rcases List.mem_cons.1 ht with rfl | ht
      · exact hsp.1
      · obtain rfl := List.mem_singleton.1 ht
        exact hsp.2.1)
    (fun t ht x hx => by
      rcases List.mem_cons.1 ht with rfl | ht
      · exact hvars x (.inl (.inl hx))
      · obtain rfl := List.mem_singleton.1 ht
        exact hvars x (.inl (.inr hx))) h1
  have ho := matchObject_means hm1.fits hm1.values hobject hsp.2.2 (fun x hx => hvars x (.inr hx)) h2
  cases hall with
  | cons hs hall =>
    cases hall with
    | cons hp _ =>
      refine ⟨hm2.fits, hm2.values, hm1.keeps.trans hm2.keeps, fun c θ'' hc hord hle hknown u hu => ?_⟩
      simp only [Triple.leaves, List.mem_append] at hknown
      exact
        ⟨hs.mono hm2.keeps hm2.le c θ'' hc hord hle (fun v hv => hknown v (.inl (.inl hv))) _ hu.subject,
          hp.mono hm2.keeps hm2.le c θ'' hc hord hle (fun v hv => hknown v (.inl (.inr hv))) _
            hu.predicate,
          ho c θ'' hc hord hle (fun v hv => hknown v (.inr hv)) _ hu.object⟩

end

/-! ## Bodies -/

section

variable {r : Rule} {values : Bool} {θ θ' θ'' : Values} {b b' c : Bindings} {t u : Term}
  {ts us : List Term}

/-- If what is passed on for a term of a body means something in the end, so does the
term. -/
def PassMeans (b : Bindings) (θ : Values) (u t : Term) : Prop :=
  ∀ (c : Bindings) (θ' : Values), b.Extends c → c.Ordered → θ.Le θ' → ∀ g, c.Means u g →
    t.Instance (Fills (θ'.ground c)) g ∧ ∀ v, .var v ∈ t.leaves → θ'.Known c v

theorem PassMeans.mono (h : PassMeans b θ u t) (hb : b.Extends b') (hθ : θ.Le θ') :
    PassMeans b' θ' u t :=
  fun c θ'' hc ho hle => h c θ'' (hb.trans hc) ho (hθ.trans hle)

/-- A term that is passed on. For a wildcard it is a variable of no value yet. -/
structure Passed (b : Bindings) (θ : Values) (u t : Term) : Prop where
  exists_vars : b.Scoped IsRef u
  means : PassMeans b θ u t
  wild : t.isVar = true → (∀ v, t ≠ .var v) → ∃ k, u = .ref k ∧ b.value? k = none

/-- Passing terms on makes new variables and binds none. -/
structure Passes (b : Bindings) (θ : Values) (b' : Bindings) (θ' : Values) : Prop
    extends Matched b θ b' θ' where
  same : ∀ v, b'.value? v = b.value? v

theorem Passes.trans {b'' : Bindings} (h : Passes b θ b' θ') (h' : Passes b' θ' b'' θ'') :
    Passes b θ b'' θ'' :=
  ⟨h.toMatched.trans h'.toMatched, fun v => (h'.same v).trans (h.same v)⟩

theorem Passed.mono (h : Passed b θ u t) (hp : Passes b θ b' θ') : Passed b' θ' u t := by
  refine ⟨h.exists_vars.mono hp.keeps.size_le, h.means.mono hp.keeps hp.le, fun h1 h2 => ?_⟩
  obtain ⟨k, hk, hv⟩ := h.wild h1 h2
  exact ⟨k, hk, (hp.same k).trans hv⟩

theorem value?_size (hb : b.Fits IsRef) : b.value? b.size = none := by
  cases h : b.value? b.size with
  | none => rfl
  | some t => exact absurd (hb.ordered.bound_lt h) (Nat.lt_irrefl _)

theorem putLeaf_means (hb : b.Fits IsRef) (hθ : θ.Scoped b) (ht : t.isApp = false)
    (h : r.putLeaf values θ b t = (u, θ', b')) : Passes b θ b' θ' ∧ Passed b' θ' u t := by
  have fresh : Passes b θ b.newVar.2 θ :=
    ⟨⟨hb.newVar, hθ.mono (Nat.le_succ _), .newVar b, fun _ _ h => h⟩, fun _ => rfl⟩
  have hnew : b.newVar.2.Scoped IsRef (.ref b.size) :=
    Term.has_ref.2 ⟨⟨_, rfl⟩, fun v e => by cases e; exact Nat.lt_succ_self _⟩
  cases t with
  | app f ts => cases ht
  | node n =>
    cases h
    refine ⟨⟨⟨hb, hθ, .refl _, fun _ _ h => h⟩, fun _ => rfl⟩, .of_isGround (by simp), ?_, ?_⟩
    · intro c θ'' hc ho hle g hg
      exact ⟨by simpa using hg, by simp⟩
    · intro h
      cases h
  | any =>
    cases h
    refine ⟨fresh, hnew, fun c θ'' hc ho hle g hg => ?_, fun _ _ => ⟨_, rfl, value?_size hb⟩⟩
    exact ⟨Term.instance_any.2 ⟨hg.isGround, fun v e => by cases e⟩, by simp⟩
  | ref k =>
    cases h
    refine ⟨fresh, hnew, fun c θ'' hc ho hle g hg => ?_, fun _ _ => ⟨_, rfl, value?_size hb⟩⟩
    exact ⟨Term.instance_ref.2 ⟨hg.isGround, fun v e => by cases e⟩, by simp⟩
  | var v =>
    have var : ∀ {c : Bindings} {θ'' : Values} {x : Term}, θ'' v = some x → ∀ g, c.Means x g →
        (Term.var v).Instance (Fills (θ''.ground c)) g ∧
          ∀ w, .var w ∈ (Term.var v).leaves → θ''.Known c w := by
      intro c θ'' x hx g hg
      have hknown := Values.known hx hg
      refine ⟨Term.instance_var.2 ((hknown.fills hx).1 hg), fun w hw => ?_⟩
      obtain rfl : w = v := by simpa using hw
      exact hknown
    unfold Rule.putLeaf at h
    simp only at h
    split at h
    · next x hx =>
      cases h
      refine ⟨⟨⟨hb, hθ, .refl _, fun _ _ h => h⟩, fun _ => rfl⟩, ?_, fun c θ'' hc ho hle g hg => ?_,
        fun _ h => absurd rfl (h v)⟩
      · split
        · exact hb.deref (hθ v x hx)
        · exact hθ v x hx
      · refine var (hle v x hx) g ?_
        split at hg
        · exact (hc.means_deref hb.ordered ho).1 hg
        · exact hg
    · next hv =>
      cases h
      refine ⟨⟨⟨hb.newVar, (hθ.mono (Nat.le_succ _)).set hnew, .newVar b, fun w x hx => ?_⟩,
        fun _ => rfl⟩, hnew, fun c θ'' hc ho hle g hg => ?_, fun _ h => absurd rfl (h v)⟩
      · rw [Values.set_of_ne θ _ (by rintro rfl; rw [hv] at hx; cases hx)]
        exact hx
      · exact var (hle v (.ref b.size) (by simp)) g hg

theorem putLeaves_means (hb : b.Fits IsRef) (hθ : θ.Scoped b) (hts : ∀ t ∈ ts, t.isApp = false)
    (h : r.putLeaves values θ b ts = (us, θ', b')) :
    Passes b θ b' θ' ∧ List.Forall₂ (Passed b' θ') us ts := by
  induction ts generalizing θ b us with
  | nil =>
    cases h
    exact ⟨⟨⟨hb, hθ, .refl _, fun _ _ h => h⟩, fun _ => rfl⟩, .nil⟩
  | cons t ts ih =>
    obtain ⟨u, θ1, b1, us1, hu, hus, rfl⟩ := putLeaves_cons h
    obtain ⟨h1, h2⟩ := putLeaf_means hb hθ (hts t List.mem_cons_self) hu
    obtain ⟨h3, h4⟩ := ih h1.fits h1.values (fun t ht => hts t (List.mem_cons_of_mem _ ht)) hus
    exact ⟨h1.trans h3, .cons (h2.mono h3) h4⟩

theorem putObject_means (hb : b.Fits IsRef) (hθ : θ.Scoped b)
    (ht : ∀ f ts, t = .app f ts → ∀ t ∈ ts, t.isApp = false)
    (h : r.putObject θ b t = (u, θ', b')) :
    Passes b θ b' θ' ∧ b'.Scoped IsRef u ∧ PassMeans b' θ' u t := by
  unfold Rule.putObject at h
  split at h
  · next f ts =>
    rcases hp : r.putLeaves false θ b ts with ⟨us, θ1, b1⟩
    simp only [hp] at h
    cases h
    obtain ⟨h1, h2⟩ := putLeaves_means hb hθ (ht f ts rfl) hp
    refine ⟨h1, Term.has_app.2 fun u hu => ?_, fun c θ'' hc ho hle g hg => ?_⟩
    · obtain ⟨t, -, h3⟩ := exists_right h2 hu
      exact h3.exists_vars
    · obtain ⟨gs, rfl, hgs⟩ := means_app.1 hg
      clear hp h1 hg ht
      have : List.Forall₂ (Term.Instance (Fills (θ''.ground c))) ts gs ∧
          ∀ t ∈ ts, ∀ v, .var v ∈ t.leaves → θ''.Known c v := by
        induction h2 generalizing gs with
        | nil =>
          cases hgs
          exact ⟨.nil, by simp⟩
        | @cons u t us ts h3 _ ih =>
          obtain ⟨g, gs, h4, h5, rfl⟩ := List.forall₂_cons_left_iff.1 hgs
          obtain ⟨h6, h7⟩ := h3.means c θ'' hc ho hle g h4
          obtain ⟨h8, h9⟩ := ih gs h5
          exact ⟨.cons h6 h8, List.forall_mem_cons.2 ⟨h7, h9⟩⟩
      refine ⟨Term.instance_app.2 ⟨gs, rfl, this.1⟩, fun v hv => ?_⟩
      obtain ⟨t, ht, hv⟩ : ∃ t ∈ ts, .var v ∈ t.leaves := by simpa using hv
      exact this.2 t ht v hv
  · next hne =>
    obtain ⟨h1, h2⟩ := putLeaf_means hb hθ (by cases t <;> simp_all [Term.isApp]) h
    exact ⟨h1, h2.exists_vars, h2.means⟩

/-- A goal that means a triple in the end is a goal of the rule with this instance. -/
theorem putGoal_means {pattern g : Triple} (hb : b.Fits IsRef) (hθ : θ.Scoped b)
    (hfault : r.goalFault pattern = none) (h : r.putGoal θ b pattern = (g, θ', b')) :
    Passes b θ b' θ' ∧ g.Scoped b' ∧
      ∀ (c : Bindings) (θ'' : Values), b'.Extends c → c.Ordered → θ'.Le θ'' →
        ∀ u, c.MeansTriple g u → pattern.Instance (Fills (θ''.ground c)) u ∧
          ∀ v, .var v ∈ pattern.leaves → θ''.Known c v := by
  unfold Rule.goalFault at hfault
  split at hfault
  · cases hfault
  · next hne =>
    simp only [Bool.or_eq_true, not_or, Bool.not_eq_true] at hne
    have hobject : ∀ f ts, pattern.object = .app f ts → ∀ t ∈ ts, t.isApp = false := by
      intro f ts ho t ht
      rw [ho] at hfault
      simp only at hfault
      split at hfault
      · cases hfault
      · next hany =>
        simp only [List.any_eq_true, not_exists, not_and, Bool.not_eq_true] at hany
        exact hany t ht
    rcases h1 : r.putLeaf false θ b pattern.subject with ⟨s, θ1, b1⟩
    rcases h2 : r.putLeaf false θ1 b1 pattern.predicate with ⟨p, θ2, b2⟩
    rcases h3 : r.putObject θ2 b2 pattern.object with ⟨o, θ3, b3⟩
    simp only [Rule.putGoal, h1, h2, h3] at h
    cases h
    obtain ⟨hs, hs'⟩ := putLeaf_means hb hθ hne.1 h1
    obtain ⟨hp, hp'⟩ := putLeaf_means hs.fits hs.values hne.2 h2
    obtain ⟨ho, ho', ho''⟩ := putObject_means hp.fits hp.values hobject h3
    have hlast := hp.trans ho
    refine ⟨hs.trans hlast, ?_, fun c θ'' hc hord hle u hu => ?_⟩
    · simp only [Triple.Scoped, Triple.terms, List.forall_mem_cons]
      exact ⟨hs'.exists_vars.mono hlast.keeps.size_le, hp'.exists_vars.mono ho.keeps.size_le, ho',
        by simp⟩
    · obtain ⟨h4, h5⟩ := (hs'.mono hlast).means c θ'' hc hord hle _ hu.subject
      obtain ⟨h6, h7⟩ := (hp'.mono ho).means c θ'' hc hord hle _ hu.predicate
      obtain ⟨h8, h9⟩ := ho'' c θ'' hc hord hle _ hu.object
      refine ⟨⟨h4, h6, h8⟩, fun v hv => ?_⟩
      simp only [Triple.leaves, List.mem_append] at hv
      rcases hv with (hv | hv) | hv
      · exact h5 v hv
      · exact h7 v hv
      · exact h9 v hv

end

end TabledRules
