-- A rule's head and a called goal. Matching them comes to bindings without a
-- cycle if and only if they unify, and the values of the rule's variables
-- are then a most general unifier.
import TabledRules.Proofs.Unifiers
import TabledRules.Proofs.BodyCode

namespace TabledRules

open Bindings TabledRules.Valuation

/-! ## Unifiers of a goal and a head -/

/-- Under the bindings the goal can come to be a ground triple that is an instance of the head.
The variables of the head are apart from those of the goal: they stand for what `ψ` says. -/
def Triple.Unifies (b : Bindings) (goal head : Triple) : Prop :=
  ∃ (V : Valuation) (ψ : String → Term) (w : Triple),
    V.Settles b ∧ V.MakesTriple goal w ∧ head.Instance (Fills ψ) w

/-- A leaf of a rule comes to be `g`: a variable if its value does, a wildcard anyway. -/
def Values.Comes (θ : Values) (V : Valuation) (x g : Term) : Prop :=
  g.isGround = true ∧ ∀ v, x = .var v → ∃ t, θ v = some t ∧ V.Makes t g

/-- The values and the bindings `b'` are a most general unifier of the goal and the head: they
make both the same, and whatever makes both the same goes on from them. -/
structure Triple.Unifier (b : Bindings) (goal head : Triple) (θ : Values) (b' : Bindings) :
    Prop where
  keeps : b.Extends b'
  same : ∀ (V : Valuation) (w : Triple), V.Settles b' → V.MakesTriple goal w →
    head.Instance (θ.Comes V) w
  general : ∀ (V : Valuation) (ψ : String → Term) (w : Triple), V.Settles b →
    V.MakesTriple goal w → head.Instance (Fills ψ) w →
    ∃ V' : Valuation, V.Le V' ∧ V'.Settles b' ∧ ∀ v t, θ v = some t → V'.Makes t (ψ v)

section

variable {V : Valuation} {θ θ' θ'' : Values} {b b' c : Bindings} {goal w : Triple}
  {arg t g : Term} {args ts gs : List Term} {n : Nat} {ψ : String → Term}

/-- What a goal without wildcards comes to be. -/
theorem Valuation.Settles.exists_makesTriple (h : V.Settles b) (hgoal : goal.Scoped b) :
    ∃ w, V.MakesTriple goal w := by
  obtain ⟨g1, h1⟩ := h.exists_makes (hgoal goal.subject (by simp [Triple.terms]))
  obtain ⟨g2, h2⟩ := h.exists_makes (hgoal goal.predicate (by simp [Triple.terms]))
  obtain ⟨g3, h3⟩ := h.exists_makes hgoal.object
  exact ⟨⟨g1, g2, g3⟩, h1, h2, h3⟩

theorem Valuation.MakesTriple.upTo (h : V.MakesTriple goal w) (hgoal : goal.Scoped b) :
    (V.upTo b.size).MakesTriple goal w :=
  ⟨h.subject.upTo (hgoal _ (by simp [Triple.terms])),
    h.predicate.upTo (hgoal _ (by simp [Triple.terms])), h.object.upTo hgoal.object⟩

/-! ## A match makes both the same -/

/-- From these bindings and values on, the term of a head comes to be what the argument
comes to be. -/
def Joined (b : Bindings) (θ : Values) (arg t : Term) : Prop :=
  ∀ (V : Valuation) (c : Bindings) (θ' : Values), b.Extends c → V.Settles c → θ.Le θ' →
    ∀ g, V.Makes arg g → t.Instance (θ'.Comes V) g

theorem Joined.mono (h : Joined b θ arg t) (hb : b.Extends b') (hθ : θ.Le θ') :
    Joined b' θ' arg t :=
  fun V c θ'' hc hV hle => h V c θ'' (hb.trans hc) hV (hθ.trans hle)

theorem matchLeaf_joined (hb : b.Fits IsRef) (hθ : θ.Scoped b) (harg : b.Scoped IsRef arg)
    (ht : t.isApp = false) (h : matchLeaf n θ b arg t = some (some (θ', b'))) :
    Joined b' θ' arg t := by
  intro V c θ'' hc hV hle g hg
  have hground : g.isGround = true := hV.makes_ground hg
  cases t with
  | app f ts => cases ht
  | ref v => exact Term.instance_ref.2 ⟨hground, fun v e => by cases e⟩
  | any => exact Term.instance_any.2 ⟨hground, fun v e => by cases e⟩
  | node x =>
    obtain ⟨rfl, hu⟩ := map_map_eq_some h
    have hnode := (hV.makes_iff hb harg (.of_isGround (by simp)) hu hc g).1 hg
    exact Term.instance_node.2 (makes_node.1 hnode)
  | var v =>
    refine Term.instance_var.2 ⟨hground, fun u e => ?_⟩
    cases e
    unfold matchLeaf at h
    simp only at h
    split at h
    · cases h
      exact ⟨arg, hle v arg (by simp), hg⟩
    · next x hx =>
      obtain ⟨rfl, hu⟩ := map_map_eq_some h
      exact ⟨x, hle v x hx, (hV.makes_iff hb harg (hθ v x hx) hu hc g).1 hg⟩

theorem matchLeaves_joined (hb : b.Fits IsRef) (hθ : θ.Scoped b)
    (hargs : ∀ a ∈ args, b.Scoped IsRef a) (hlen : args.length = ts.length)
    (hts : ∀ t ∈ ts, t.isApp = false) (h : matchLeaves n θ b args ts = some (some (θ', b'))) :
    List.Forall₂ (Joined b' θ') args ts := by
  induction ts generalizing θ b args with
  | nil =>
    obtain rfl := List.eq_nil_of_length_eq_zero hlen
    exact .nil
  | cons t ts ih =>
    cases args with
    | nil => cases hlen
    | cons arg args =>
      obtain ⟨θ1, b1, h1, h2⟩ := matchThen_eq_some h
      have harg := hargs arg List.mem_cons_self
      have hm := matchLeaf_matched hb hθ harg h1
      have hjoined := matchLeaf_joined hb hθ harg (hts t List.mem_cons_self) h1
      have hargs' : ∀ a ∈ args, b1.Scoped IsRef a := fun a ha =>
        (hargs a (List.mem_cons_of_mem _ ha)).mono hm.keeps.size_le
      have hm2 := matchLeaves_matched hm.fits hm.values hargs' h2
      exact .cons (hjoined.mono hm2.keeps hm2.le) (ih hm.fits hm.values hargs' (by simpa using hlen)
        (fun t ht => hts t (List.mem_cons_of_mem _ ht)) h2)

/-- What an object that was opened comes to be is made of what its arguments come to be. -/
theorem openObject_makes {object : Term} {f : String} (hb : b.Fits IsRef)
    (hobject : b.Scoped IsRef object) (hts : ∀ t ∈ ts, t.isApp = false)
    (h : b.openObject object f ts = some (args, b')) (hc : b'.Extends c) (hV : V.Settles c)
    (hg : V.Makes object g) : ∃ gs, g = .app f gs ∧ List.Forall₂ V.Makes args gs := by
  obtain ⟨-, hbb, -, -⟩ := openObject_means hb hobject hts h
  have hd := (hV.respects.deref (hbb.trans hc) hb.ordered object g).2 hg
  have hwild := not_wild_of_scoped (hb.deref hobject)
  unfold Bindings.openObject at h
  split at h
  · next k as e =>
    split at h
    · next e' =>
      obtain ⟨rfl, -⟩ := e'
      cases h
      rw [e] at hd
      exact makes_app.1 hd
    · cases h
  · next v e =>
    cases h
    rw [e] at hd
    have hlt : v < b.size := by
      have := hb.deref hobject
      rw [e] at this
      exact (Term.has_ref.1 this).2 v rfl
    have hsize : b.size ≤ (b.freshen Term.isVar ts).2.size := by
      have := hbb.size_le
      rwa [size_bind] at this
    have hval : c.value? v = some (.app f (b.freshen Term.isVar ts).1) :=
      hc.value (by rw [value?_bind (Nat.lt_of_lt_of_le hlt hsize), if_pos rfl])
    exact makes_app.1 ((hV.respects.bound hval).1 hd)
  · next e => exact absurd (.inl e) hwild
  · next x e => exact absurd (.inr ⟨x, e⟩) hwild
  · cases h

theorem matchObject_joined (hb : b.Fits IsRef) (hθ : θ.Scoped b) (harg : b.Scoped IsRef arg)
    (ht : ∀ f ts, t = .app f ts → ∀ t ∈ ts, t.isApp = false)
    (h : matchObject n θ b arg t = some (some (θ', b'))) : Joined b' θ' arg t := by
  unfold matchObject at h
  split at h
  · next f ts =>
    split at h
    · cases h
    · next args b1 hopen =>
      obtain ⟨h1, h2, h3, -⟩ := openObject_means hb harg (ht f ts rfl) hopen
      have hm := matchLeaves_matched h1 (hθ.mono h2.size_le) h3 h
      have hall := matchLeaves_joined h1 (hθ.mono h2.size_le) h3
        (Bindings.length_openObject hopen) (ht f ts rfl) h
      intro V c θ'' hc hV hle g hg
      obtain ⟨gs, rfl, hgs⟩ :=
        openObject_makes hb harg (ht f ts rfl) hopen (hm.keeps.trans hc) hV hg
      refine Term.instance_app.2 ⟨gs, rfl, ?_⟩
      clear hopen h3 hm h ht hg
      induction hall generalizing gs with
      | nil =>
        cases hgs
        exact .nil
      | cons h5 _ ih =>
        obtain ⟨g, gs, h6, h7, rfl⟩ := List.forall₂_cons_left_iff.1 hgs
        exact .cons (h5 V c θ'' hc hV hle g h6) (ih gs h7)
  · next hne =>
    exact matchLeaf_joined hb hθ harg (by cases t <;> simp_all [Term.isApp]) h

/-! ## A match finds what makes both the same -/

theorem matchLeaf_ends (h : V.Suits ψ θ b) (harg : V.Makes arg g) (ht : t.Instance (Fills ψ) g)
    (hn : g.size ≤ n) :
    ∃ θ' b', matchLeaf n θ b arg t = some (some (θ', b')) ∧ V.Suits ψ θ' b' := by
  have ends : ∃ x, matchLeaf n θ b arg t = some x := by
    have unified : ∀ {u : Term}, V.Makes u g → ∃ x, (b.unify n arg u).map (·.map (θ, ·)) = some x := by
      intro u hu
      obtain ⟨b', hb', -⟩ := unify_ends h.obeys harg hu hn
      exact ⟨_, by rw [hb']; rfl⟩
    cases t with
    | var v =>
      obtain ⟨-, hv⟩ := Term.instance_var.1 ht
      unfold matchLeaf
      simp only
      split
      · exact ⟨_, rfl⟩
      · next x hx => exact unified (hv v rfl ▸ h.agrees v x hx)
    | node x => exact unified (makes_node.2 (Term.instance_node.1 ht))
    | _ => exact ⟨_, rfl⟩
  obtain ⟨x, hx⟩ := ends
  obtain ⟨θ', b', rfl, hs⟩ := matchLeaf_suits h harg ht hx
  exact ⟨θ', b', hx, hs⟩

theorem matchLeaves_ends (h : V.Suits ψ θ b) (hargs : List.Forall₂ V.Makes args gs)
    (hts : List.Forall₂ (Term.Instance (Fills ψ)) ts gs) (hn : ∀ g ∈ gs, g.size ≤ n) :
    ∃ θ' b', matchLeaves n θ b args ts = some (some (θ', b')) ∧ V.Suits ψ θ' b' := by
  induction hargs generalizing θ b ts with
  | nil =>
    cases hts
    exact ⟨θ, b, rfl, h⟩
  | cons harg _ ih =>
    obtain ⟨t, ts, ht, hts', rfl⟩ := List.forall₂_cons_right_iff.1 hts
    obtain ⟨θ1, b1, h1, hs⟩ := matchLeaf_ends h harg ht (hn _ List.mem_cons_self)
    rw [matchLeaves, h1]
    exact ih hs hts' fun g hg => hn g (List.mem_cons_of_mem _ hg)

theorem matchObject_ends (h : V.Suits ψ θ b) (harg : V.Makes arg g) (ht : t.Instance (Fills ψ) g)
    (hflat : ∀ f ts, t = .app f ts → ∀ t ∈ ts, t.isApp = false) (hn : g.size ≤ n) :
    ∃ x, matchObject n θ b arg t = some x := by
  unfold matchObject
  split
  · next f ts =>
    obtain ⟨gs, rfl, hgs⟩ := Term.instance_app.1 ht
    obtain ⟨args, b1, V', hopen, h1, h2, h3⟩ := openObject_obeys h.obeys harg hgs (hflat f ts rfl)
    obtain ⟨θ', b', hm, -⟩ := matchLeaves_ends (h.mono h1 h2) h3 hgs fun g hg =>
      Nat.le_of_lt (Nat.lt_of_lt_of_le (Term.size_lt_app hg) hn)
    rw [hopen]
    exact ⟨_, hm⟩
  · obtain ⟨θ', b', hm, -⟩ := matchLeaf_ends h harg ht hn
    exact ⟨_, hm⟩

theorem matchHead_ends {head : Triple} (h : V.Obeys b) (hgoal : V.MakesTriple goal w)
    (hhead : head.Instance (Fills ψ) w)
    (hflat : ∀ f ts, head.object = .app f ts → ∀ t ∈ ts, t.isApp = false) :
    ∃ n θ' b', matchHead n head goal b = some (some (θ', b')) := by
  let n := w.subject.size + w.predicate.size + w.object.size
  obtain ⟨θ1, b1, h1, hs⟩ := matchLeaves_ends (n := n) (.none h ψ)
    (.cons hgoal.subject (.cons hgoal.predicate .nil))
    (.cons hhead.subject (.cons hhead.predicate .nil)) (by
      simp only [List.forall_mem_cons]
      exact ⟨by omega, by omega, by simp⟩)
  obtain ⟨x, hx⟩ := matchObject_ends (n := n) hs hgoal.object hhead.object hflat (by omega)
  have hm : matchHead n head goal b = some x := by
    unfold matchHead
    rw [h1]
    exact hx
  obtain ⟨V', θ', b', rfl, -⟩ := matchHead_suits h hgoal hhead hflat hm
  exact ⟨n, θ', b', hm⟩

/-! ## Heads -/

variable {r : Rule}

/-- A match of a head is a most general unifier. -/
theorem matchHead_unifier (hfault : r.headFault = none) (hb : b.Fits IsRef)
    (hgoal : goal.Scoped b) (h : matchHead n r.head goal b = some (some (θ', b'))) :
    Triple.Unifier b goal r.head θ' b' := by
  obtain ⟨hsubject, hpredicate, hobject⟩ := flat_of_headFault hfault
  obtain ⟨θ1, b1, h1, h2, hm1, hscoped, hm2⟩ := matchHead_matched hfault hb hgoal h
  have hkeeps := hm1.keeps.trans hm2.keeps
  refine ⟨hkeeps, fun V w hV hw => ?_, fun V ψ w hV hw hhead => ?_⟩
  · have hstart := matchLeaves_joined hb (fun v t ht => by cases ht) hgoal.start (by rfl)
      (by simpa using ⟨hsubject, hpredicate⟩) h1
    have hlast := matchObject_joined hm1.fits hm1.values hscoped hobject h2
    cases hstart with
    | cons hs hrest =>
      cases hrest with
      | cons hp _ =>
        exact ⟨hs V b' θ' hm2.keeps hV hm2.le _ hw.subject,
          hp V b' θ' hm2.keeps hV hm2.le _ hw.predicate,
          hlast V b' θ' (.refl b') hV (fun _ _ h => h) _ hw.object⟩
  · obtain ⟨V', θ2, b2, e, hle, hsuits, hnew⟩ := matchHead_suits hV.toObeys hw hhead hobject h
    cases e
    refine ⟨V', hle, ⟨hsuits.obeys, fun {v} hv => ?_⟩, hsuits.agrees⟩
    by_cases hlt : v < b.size
    · obtain ⟨g, hg⟩ := hV.total hlt
      exact ⟨g, hle v g hg⟩
    · exact hnew v (Nat.le_of_not_lt hlt) hv

theorem Triple.Unifier.unifies {head : Triple} (h : Triple.Unifier b goal head θ b')
    (hb : b.Fits IsRef) (hgoal : goal.Scoped b) (hb' : b'.Fits IsRef) (ha : b'.Acyclic) :
    Triple.Unifies b goal head := by
  obtain ⟨V, hV⟩ := exists_settles hb' ha
  obtain ⟨w, hw⟩ := hV.exists_makesTriple (fun u hu => (hgoal u hu).mono h.keeps.size_le)
  -- a rule's variable stands for what its value comes to be
  classical
  let ψ : String → Term := fun v =>
    if hv : ∃ g t, θ v = some t ∧ V.Makes t g then hv.choose else .any
  have hψ : ∀ {v t g}, θ v = some t → V.Makes t g → ψ v = g := by
    intro v t g ht hg
    have hv : ∃ g t, θ v = some t ∧ V.Makes t g := ⟨g, t, ht, hg⟩
    obtain ⟨t', h1, h2⟩ := hv.choose_spec
    cases ht.symm.trans h1
    exact (dif_pos hv).trans (h2.unique hg)
  have fill : ∀ {t g : Term}, t.Instance (θ.Comes V) g → t.Instance (Fills ψ) g := by
    intro t g ht
    refine ht.mono fun x _ g ⟨hg, hx⟩ => ⟨hg, fun v e => ?_⟩
    obtain ⟨t, ht, hmakes⟩ := hx v e
    exact (hψ ht hmakes).symm
  have hhead := h.same V w hV hw
  exact ⟨V.upTo b.size, ψ, w, hV.upTo hb h.keeps, hw.upTo hgoal, fill hhead.subject,
    fill hhead.predicate, fill hhead.object⟩

/-- A head is matched with a goal, without a cycle, if and only if they unify. -/
theorem matchHead_iff (hfault : r.headFault = none) (hb : b.Fits IsRef) (hgoal : goal.Scoped b) :
    (∃ n θ b', matchHead n r.head goal b = some (some (θ, b')) ∧ b'.Acyclic) ↔
      Triple.Unifies b goal r.head := by
  constructor
  · rintro ⟨n, θ, b', h, ha⟩
    obtain ⟨θ1, b1, -, -, -, -, hm⟩ := matchHead_matched hfault hb hgoal h
    exact (matchHead_unifier hfault hb hgoal h).unifies hb hgoal hm.fits ha
  · rintro ⟨V, ψ, w, hV, hw, hhead⟩
    obtain ⟨n, θ, b', h⟩ := matchHead_ends hV.toObeys hw hhead (flat_of_headFault hfault).2.2
    obtain ⟨V', -, hV', -⟩ := (matchHead_unifier hfault hb hgoal h).general V ψ w hV hw hhead
    exact ⟨n, θ, b', h, hV'.acyclic⟩

end

end TabledRules
