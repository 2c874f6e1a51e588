-- What the numbering of a pattern's variables keeps: the numbered form is the
-- pattern with a number in the place of every variable, one for each, and
-- what the numbers stand for tells what the pattern matches.
import TabledRules.Proofs.Instances
import TabledRules.Proofs.Resolution

namespace TabledRules

open Bindings

/-! ## Numberings -/

namespace Numbering

/-- Numbers that were given out are below the next one. -/
def Bounded (n : Numbering) : Prop := ∀ x i, n.known.lookup x = some i → i < n.next

/-- The second has the numbers of the first. -/
structure Le (n n' : Numbering) : Prop where
  next_le : n.next ≤ n'.next
  known : ∀ x i, n.known.lookup x = some i → n'.known.lookup x = some i

theorem Le.refl (n : Numbering) : n.Le n := ⟨Nat.le_refl _, fun _ _ h => h⟩

theorem Le.trans {n n' n'' : Numbering} (h : n.Le n') (h' : n'.Le n'') : n.Le n'' :=
  ⟨Nat.le_trans h.next_le h'.next_le, fun x i hx => h'.known x i (h.known x i hx)⟩

/-- The number stands for the leaf. -/
def Has (n : Numbering) (x : Term) (i : Nat) : Prop :=
  i < n.next ∧ (x ≠ .any → n.known.lookup x = some i)

theorem Has.mono {n n' : Numbering} {x : Term} {i : Nat} (h : n.Has x i) (hle : n.Le n') :
    n'.Has x i :=
  ⟨Nat.lt_of_lt_of_le h.1 hle.next_le, fun hx => hle.known x i (h.2 hx)⟩

theorem number_has {n : Numbering} (hn : n.Bounded) (x : Term) :
    (n.number x).2.Bounded ∧ n.Le (n.number x).2 ∧ (n.number x).2.Has x (n.number x).1 := by
  unfold number
  split
  · exact ⟨fun x i hx => Nat.lt_succ_of_lt (hn x i hx), ⟨Nat.le_succ _, fun _ _ h => h⟩,
      Nat.lt_succ_self _, fun h => absurd rfl h⟩
  · split
    · next i hi => exact ⟨hn, .refl n, hn x i hi, fun _ => hi⟩
    · next hnone =>
      refine ⟨fun y i hy => ?_, ⟨Nat.le_succ _, fun y i hy => ?_⟩, Nat.lt_succ_self _, fun _ => ?_⟩
      · rw [List.lookup_cons] at hy
        split at hy
        · cases hy
          exact Nat.lt_succ_self _
        · exact Nat.lt_succ_of_lt (hn y i hy)
      · rw [List.lookup_cons]
        split
        · next e =>
          rw [eq_of_beq e, hnone] at hy
          cases hy
        · exact hy
      · simp

end Numbering

/-! ## Numbered forms -/

section

variable {make : Nat → Term}

theorem Term.renumber_of_isVar {t : Term} (h : t.isVar = true) (n : Numbering) :
    t.renumber make n = (make (n.number t).1, (n.number t).2) := by
  cases t with
  | node k => cases h
  | app f ts => cases h
  | _ => rfl

/-- What is known of a term and its numbered form. -/
def Term.NumberedAs (make : Nat → Term) (n : Numbering) (t t' : Term) : Prop :=
  t.Instance (fun x y => ∃ i, y = make i ∧ n.Has x i) t'

theorem Term.NumberedAs.mono {n n' : Numbering} {t t' : Term} (h : t.NumberedAs make n t')
    (hle : n.Le n') : t.NumberedAs make n' t' :=
  Term.Instance.mono h fun _ _ _ ⟨i, e, hi⟩ => ⟨i, e, hi.mono hle⟩

theorem Term.renumber_numberedAs (make : Nat → Term) (t : Term) {n : Numbering} (hn : n.Bounded) :
    (t.renumber make n).2.Bounded ∧ n.Le (t.renumber make n).2 ∧
      t.NumberedAs make (t.renumber make n).2 (t.renumber make n).1 := by
  have leaf : ∀ {t : Term} {n : Numbering}, n.Bounded → t.isVar = true →
      (t.renumber make n).2.Bounded ∧ n.Le (t.renumber make n).2 ∧
        t.NumberedAs make (t.renumber make n).2 (t.renumber make n).1 := by
    intro t n hn hvar
    rw [Term.renumber_of_isVar hvar]
    obtain ⟨h1, h2, h3⟩ := Numbering.number_has hn t
    exact ⟨h1, h2, (Term.instance_of_isVar hvar).2 ⟨_, rfl, h3⟩⟩
  induction t using Term.induct generalizing n with
  | node k => exact ⟨hn, .refl n, Term.instance_node.2 rfl⟩
  | app f ts ih =>
    have all : ∀ {us : List Term} {n : Numbering}, (∀ u ∈ us, u ∈ ts) → n.Bounded →
        (Term.renumberAll make us n).2.Bounded ∧ n.Le (Term.renumberAll make us n).2 ∧
          List.Forall₂ (Term.NumberedAs make (Term.renumberAll make us n).2) us
            (Term.renumberAll make us n).1 := by
      intro us
      induction us with
      | nil => exact fun _ hn => ⟨hn, .refl _, .nil⟩
      | cons u us ih2 =>
        intro n hus hn
        obtain ⟨h1, h2, h3⟩ := ih u (hus u List.mem_cons_self) hn
        obtain ⟨h4, h5, h6⟩ := ih2 (fun u hu => hus u (List.mem_cons_of_mem _ hu)) h1
        exact ⟨h4, h2.trans h5, .cons (h3.mono h5) h6⟩
    obtain ⟨h1, h2, h3⟩ := all (fun _ h => h) hn
    exact ⟨h1, h2, Term.instance_app.2 ⟨_, rfl, h3⟩⟩
  | var v => exact leaf hn rfl
  | ref v => exact leaf hn rfl
  | any => exact leaf hn rfl

/-- The form of a pattern that `make` numbers the variables of. -/
structure Triple.NumberedAs (make : Nat → Term) (n : Numbering) (t t' : Triple) : Prop where
  subject : t.subject.NumberedAs make n t'.subject
  predicate : t.predicate.NumberedAs make n t'.predicate
  object : t.object.NumberedAs make n t'.object

theorem Triple.renumber_numberedAs (make : Nat → Term) (t : Triple) :
    t.NumberedAs make (t.renumber make).2 (t.renumber make).1 := by
  have hn : ({} : Numbering).Bounded := fun x i h => by cases h
  obtain ⟨h1, -, h2⟩ := t.subject.renumber_numberedAs make hn
  obtain ⟨h3, h4, h5⟩ := t.predicate.renumber_numberedAs make h1
  obtain ⟨-, h6, h7⟩ := t.object.renumber_numberedAs make h3
  exact ⟨h2.mono (h4.trans h6), h5.mono h6, h7⟩

/-- A ground triple has no variables to number. -/
theorem Triple.renumber_of_isGround (t : Triple) (h : t.isGround = true) :
    (t.renumber make).1 = t := by
  obtain ⟨hs, hp, ho⟩ := t.renumber_numberedAs make
  exact Triple.Instance.eq_of_isGround ⟨hs, hp, ho⟩ h

end

/-! ## What a pattern asks for -/

section

variable {b : Bindings} {n : Numbering} {t t' g : Term}

theorem Bindings.Means.instance {u : Term} (h : b.Means u g) : u.Instance b.Means g := by
  induction u using Term.induct generalizing g with
  | node k => exact Term.instance_node.2 (means_node.1 h)
  | app f ts ih =>
    obtain ⟨gs, rfl, hgs⟩ := means_app.1 h
    refine Term.instance_app.2 ⟨gs, rfl, ?_⟩
    clear h
    induction hgs with
    | nil => exact .nil
    | @cons t g ts gs h1 _ ih2 =>
      exact .cons (ih t List.mem_cons_self h1) (ih2 fun t ht => ih t (List.mem_cons_of_mem _ ht))
  | var v => exact Term.instance_var.2 h
  | ref v => exact Term.instance_ref.2 h
  | any => exact Term.instance_any.2 h

/-- The leaves of a numbered term exist. -/
theorem Term.NumberedAs.has (h : t.NumberedAs .ref n t') :
    t'.Has (Allowed IsRef n.next) := by
  induction t using Term.induct generalizing t' with
  | node k =>
    obtain rfl := Term.instance_node.1 h
    exact Term.has_node _ _
  | app f ts ih =>
    obtain ⟨us, rfl, hus⟩ := Term.instance_app.1 h
    refine Term.has_app.2 fun u hu => ?_
    obtain ⟨t, ht, htu⟩ := exists_left hus hu
    exact ih t ht htu
  | _ =>
    obtain ⟨i, rfl, hi, -⟩ := (Term.instance_of_isVar rfl).1 h
    exact Term.has_ref.2 ⟨⟨i, rfl⟩, fun v e => by cases e; exact hi⟩

theorem Triple.standard_scoped (goal : Triple) : ∀ u ∈ goal.standard.terms,
    goal.unbound.Scoped IsRef u := by
  have h := goal.renumber_numberedAs .ref
  simp only [Triple.terms, List.forall_mem_cons]
  exact ⟨h.subject.has, h.predicate.has, h.object.has, by simp⟩

theorem Triple.unbound_fits (goal : Triple) : goal.unbound.Fits IsRef := .empty _ _

/-- The terms of the triple mean those of the other. -/
structure Bindings.MeansTriple (c : Bindings) (t g : Triple) : Prop where
  subject : c.Means t.subject g.subject
  predicate : c.Means t.predicate g.predicate
  object : c.Means t.object g.object

/-- What the numbered variables of a goal come to mean is what the goal asks for. -/
theorem Triple.matches_of_means {goal t : Triple} (h : b.MeansTriple goal.standard t) :
    goal.Matches t := by
  have hnum := goal.renumber_numberedAs .ref
  generalize hn : (goal.renumber .ref).2 = n at hnum
  have : ∃ σ : Term → Term, ∀ x i g, n.Has x i → b.Means (.ref i) g → x ≠ .any → g = σ x := by
    classical
    refine ⟨fun x => if h : ∃ g i, n.known.lookup x = some i ∧ b.Means (.ref i) g then h.choose
      else .any, fun x i g hx hg hne => ?_⟩
    have hex : ∃ g i, n.known.lookup x = some i ∧ b.Means (.ref i) g := ⟨g, i, hx.2 hne, hg⟩
    simp only [dif_pos hex]
    obtain ⟨j, hj, hmeans⟩ := hex.choose_spec
    rw [hx.2 hne] at hj
    cases hj
    exact hg.unique hmeans
  obtain ⟨σ, hσ⟩ := this
  have each : ∀ {t t' g : Term}, t.NumberedAs .ref n t' → b.Means t' g →
      t.Instance (fun x g => x ≠ .any → g = σ x) g := by
    intro t t' g ht hg
    refine Term.Instance.comp ht hg.instance ?_ ?_
    · rintro x y ⟨i, rfl, -⟩
      rfl
    · rintro x y g ⟨i, rfl, hx⟩ hg hne
      exact hσ x i g hx hg hne
  exact ⟨σ, each hnum.subject h.subject, each hnum.predicate h.predicate,
    each hnum.object h.object⟩

theorem resolve_eq_of_means {k : Nat} {u : Term} (hg : b.Means t g)
    (h : b.resolve k t = some u) : u = g := by
  obtain ⟨x, hx, rfl⟩ := Option.map_eq_some_iff.1 h
  obtain ⟨m, hm, hground⟩ := hg
  have h1 := deepDeref_mono (Nat.le_max_left k m) hx
  rw [deepDeref_mono (Nat.le_max_right k m) hm] at h1
  cases h1
  exact Term.mapVars_of_isGround _ _ hground

theorem resolve_eq_of_meansTriple {k : Nat} {t g u : Triple} (hg : b.MeansTriple t g)
    (h : t.mapTerms? (b.resolve k) = some u) : u = g := by
  obtain ⟨h1, h2, h3⟩ := mapTerms?_eq_some_iff.1 h
  obtain ⟨s, p, o⟩ := u
  obtain ⟨s', p', o'⟩ := g
  obtain rfl : s = s' := resolve_eq_of_means hg.subject h1
  obtain rfl : p = p' := resolve_eq_of_means hg.predicate h2
  obtain rfl : o = o' := resolve_eq_of_means hg.object h3
  rfl

end

end TabledRules
