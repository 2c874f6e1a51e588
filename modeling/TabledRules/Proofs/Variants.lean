-- A numbered form of a pattern is a variant of it: to number its variables
-- again gives what the pattern itself gives.
import Std.Data.String.ToNat
import TabledRules.Proofs.Patterns

namespace TabledRules

/-- Names of numbers. Different numbers have different names. -/
structure Numbering.Names (make : Nat → Term) : Prop where
  isVar : ∀ i, (make i).isVar = true
  ne_any : ∀ i, make i ≠ .any
  inj : ∀ {i j}, make i = make j → i = j

namespace Numbering

variable {make name : Nat → Term} {n n' : Numbering}

/-- Where a pattern was numbered up to `n`, its named form is numbered up to `n'`: each name has
the number that it was made from. -/
structure Retraces (name : Nat → Term) (n n' : Numbering) : Prop where
  bounded : n.Bounded
  next : n'.next = n.next
  given : ∀ {i}, i < n.next → n'.known.lookup (name i) = some i
  free : ∀ {i}, n.next ≤ i → n'.known.lookup (name i) = none

theorem Retraces.start (name : Nat → Term) : Retraces name {} {} :=
  ⟨fun _ _ h => (by cases h), rfl, fun h => absurd h (Nat.not_lt_zero _), fun _ => rfl⟩

theorem number_of_ne_any {t : Term} (h : t ≠ .any) (n : Numbering) :
    n.number t = match n.known.lookup t with
      | some i => (i, n)
      | none => (n.next, ⟨n.next + 1, (t, n.next) :: n.known⟩) := by
  cases t with
  | any => exact absurd rfl h
  | _ => rfl

theorem Retraces.given_number (hname : Names name) (h : Retraces name n n') {i : Nat}
    (hi : i < n.next) : n'.number (name i) = (i, n') := by
  rw [number_of_ne_any (hname.ne_any i), h.given hi]

/-- The next number is given to the next name. -/
theorem Retraces.next_number (hname : Names name) (h : Retraces name n n') {known : List (Term × Nat)}
    (hb : Bounded ⟨n.next + 1, known⟩) : (n'.number (name n.next)).1 = n.next ∧
      Retraces name ⟨n.next + 1, known⟩ (n'.number (name n.next)).2 := by
  rw [number_of_ne_any (hname.ne_any _), h.free (Nat.le_refl _)]
  have lookup : ∀ i, ((name n.next, n'.next) :: n'.known).lookup (name i) =
      if i = n.next then some n.next else n'.known.lookup (name i) := by
    intro i
    rw [List.lookup_cons, h.next]
    by_cases e : i = n.next
    · rw [if_pos e, e, beq_self_eq_true]
    · rw [if_neg e, beq_false_of_ne fun e' => e (hname.inj e')]
  refine ⟨h.next, hb, congrArg (· + 1) h.next, fun {i} hi => ?_, fun {i} hi => ?_⟩
  · change i < n.next + 1 at hi
    refine (lookup i).trans ?_
    split
    · next e => rw [e]
    · exact h.given (by omega)
  · change n.next + 1 ≤ i at hi
    refine (lookup i).trans ?_
    rw [if_neg (by omega)]
    exact h.free (by omega)

theorem Retraces.number (hname : Names name) (h : Retraces name n n') (x : Term) :
    (n'.number (name (n.number x).1)).1 = (n.number x).1 ∧
      Retraces name (n.number x).2 (n'.number (name (n.number x).1)).2 := by
  by_cases hx : x = .any
  · subst hx
    exact h.next_number hname fun y i hy => Nat.lt_succ_of_lt (h.bounded y i hy)
  · have hb := (number_has h.bounded x).1
    rw [number_of_ne_any hx] at hb ⊢
    cases hl : n.known.lookup x with
    | some i =>
      simp only [h.given_number hname (h.bounded x i hl)]
      exact ⟨trivial, h⟩
    | none =>
      rw [hl] at hb
      exact h.next_number hname hb

end Numbering

section

variable {make name : Nat → Term} {n n' : Numbering}

theorem Numbering.Retraces.renumber (hname : Numbering.Names name) (h : Retraces name n n')
    {t : Term} (ht : t.isVar = true) :
    ((t.renumber name n).1.renumber make n').1 = (t.renumber make n).1 ∧
      Retraces name (t.renumber make n).2 ((t.renumber name n).1.renumber make n').2 ∧
      (t.renumber name n).2 = (t.renumber make n).2 := by
  simp only [Term.renumber_of_isVar ht, Term.renumber_of_isVar (hname.isVar _)]
  obtain ⟨h1, h2⟩ := h.number hname t
  exact ⟨congrArg make h1, h2, trivial⟩

/-- A term and its named form are numbered alike. -/
theorem Term.renumber_renumber (hname : Numbering.Names name) (make : Nat → Term) (t : Term)
    (h : Numbering.Retraces name n n') :
    ((t.renumber name n).1.renumber make n').1 = (t.renumber make n).1 ∧
      Numbering.Retraces name (t.renumber make n).2 ((t.renumber name n).1.renumber make n').2 ∧
      (t.renumber name n).2 = (t.renumber make n).2 := by
  induction t using Term.induct generalizing n n' with
  | node k => exact ⟨rfl, h, rfl⟩
  | app f ts ih =>
    have all : ∀ {us : List Term} {n n' : Numbering}, (∀ u ∈ us, u ∈ ts) →
        Numbering.Retraces name n n' →
        (Term.renumberAll make (Term.renumberAll name us n).1 n').1 =
            (Term.renumberAll make us n).1 ∧
          Numbering.Retraces name (Term.renumberAll make us n).2
            (Term.renumberAll make (Term.renumberAll name us n).1 n').2 ∧
          (Term.renumberAll name us n).2 = (Term.renumberAll make us n).2 := by
      intro us
      induction us with
      | nil => exact fun _ h => ⟨rfl, h, rfl⟩
      | cons u us ih2 =>
        intro n n' hus h
        obtain ⟨h1, h2, h3⟩ := ih u (hus u List.mem_cons_self) h
        obtain ⟨h4, h5, h6⟩ := ih2 (fun u hu => hus u (List.mem_cons_of_mem _ hu)) h2
        simp only [Term.renumberAll, h1, h3, h4, h6]
        exact ⟨trivial, h5, trivial⟩
    obtain ⟨h1, h2, h3⟩ := all (fun _ h => h) h
    exact ⟨congrArg (Term.app f) h1, h2, h3⟩
  | _ => exact h.renumber hname rfl

/-- A pattern and its named form are numbered alike. -/
theorem Triple.renumber_renumber (hname : Numbering.Names name) (make : Nat → Term) (t : Triple) :
    ((t.renumber name).1.renumber make).1 = (t.renumber make).1 ∧
      ((t.renumber name).1.renumber make).2.next = (t.renumber make).2.next := by
  obtain ⟨h1, h2, h3⟩ := Term.renumber_renumber hname make t.subject (.start name)
  obtain ⟨h4, h5, h6⟩ := Term.renumber_renumber hname make t.predicate h2
  obtain ⟨h7, h8, -⟩ := Term.renumber_renumber hname make t.object h5
  simp only [Triple.renumber, h1, h3, h4, h6, h7]
  exact ⟨trivial, h8.next⟩

end

namespace Triple

theorem names_var : Numbering.Names fun i => .var s!"_{i}" := by
  refine ⟨fun _ => rfl, fun _ h => (by cases h), fun {i j} h => ?_⟩
  have e : "_" ++ i.repr = "_" ++ j.repr := Term.var.inj h
  exact Nat.repr_inj.1 ((String.append_right_inj "_").1 e)

theorem names_ref : Numbering.Names .ref := ⟨fun _ => rfl, fun _ h => (by cases h), Term.ref.inj⟩

/-- The form that variants share is its own. -/
@[simp] theorem variantKey_variantKey (t : Triple) : t.variantKey.variantKey = t.variantKey :=
  (t.renumber_renumber names_var _).1

@[simp] theorem variantKey_standard (t : Triple) : t.standard.variantKey = t.variantKey :=
  (t.renumber_renumber names_ref _).1

@[simp] theorem standard_variantKey (t : Triple) : t.variantKey.standard = t.standard :=
  (t.renumber_renumber names_var _).1

@[simp] theorem unbound_variantKey (t : Triple) : t.variantKey.unbound = t.unbound :=
  congrArg (fun n => ({ size := n } : Bindings)) (t.renumber_renumber names_var .ref).2

end Triple

end TabledRules
