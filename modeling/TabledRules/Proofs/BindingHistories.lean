-- The life of one binding manager. Its trail is exact: to go back to a mark gives
-- back what there was when the mark was taken, whatever was bound, undone and
-- tried in vain since then. And where only functor terms are bound besides what
-- unification binds, a chain of variables leads to ever smaller numbers.
import Mathlib.Logic.Relation
import TabledRules.Proofs.Attempts

namespace TabledRules.Bindings

open Relation (ReflTransGen)

variable {b b' c : Bindings} {t l r : Term} {n m v : Nat} {ok : Bool}

/-- Unification as it is done with the one manager: after a mismatch what was bound on the way is
undone. -/
def unifyInPlace (n : Nat) (b : Bindings) (l r : Term) : Option (Bool × Bindings) :=
  (b.attempt n l r).map fun (ok, c) => (ok, if ok then c else c.unwind b.mark)

/-- It succeeds where the machine's unification does, with the same bindings. -/
theorem unify_eq_unifyInPlace (n : Nat) (b : Bindings) (l r : Term) :
    b.unify n l r = (b.unifyInPlace n l r).map outcome := by
  rw [unify_eq_attempt, unifyInPlace, Option.map_map]
  congr 1
  funext ⟨ok, c⟩
  cases ok <;> rfl

/-! ## The trail -/

/-- What can be done to a manager from outside. A variable can be bound to anything, so variables
may be bound in a circle; a unification that has to follow such a circle does not come back. -/
inductive Edit : Bindings → Bindings → Prop
  | newVar (b : Bindings) : Edit b b.newVar.2
  | unify {b c : Bindings} {n : Nat} {l r : Term} {ok : Bool} :
    b.ChainsEnd n l r → b.unifyInPlace n l r = some (ok, c) → Edit b c
  | bind {b : Bindings} {v : Nat} (t : Term) : b.value? v = none → Edit b (b.bind v t)
  | unwind (b : Bindings) (mark : Nat) : Edit b (b.unwind mark)

/-- A history in which the trail was never shorter than `m`. -/
def EditsAbove (m : Nat) : Bindings → Bindings → Prop :=
  ReflTransGen fun b b' => b.Edit b' ∧ m ≤ b'.mark

theorem Recorded.unifyInPlace (hb : b.Recorded) (hends : b.ChainsEnd n l r)
    (h : b.unifyInPlace n l r = some (ok, c)) : c.Recorded ∧ b.Since c := by
  obtain ⟨⟨ok', c'⟩, hattempt, heq⟩ := Option.map_eq_some_iff.1 h
  have hadds := hb.adds_attempt hends hattempt
  cases ok' with
  | true => cases heq; exact ⟨hadds.recorded, hadds.toSince⟩
  | false =>
    cases heq
    have hback := hb.unwind_attempt hends hattempt
    exact ⟨hadds.recorded.unwind _, ⟨Nat.le_of_eq hback.size.symm,
      fun hv => (hback.value _).trans hv⟩, hback.trail ▸ List.suffix_rfl⟩

/-- An edit keeps the trail right. -/
theorem Edit.recorded (h : b.Edit b') (hb : b.Recorded) : b'.Recorded := by
  cases h with
  | newVar => exact hb.newVar
  | unify hends h => exact (hb.unifyInPlace hends h).1
  | bind t hv => exact hb.bind hv t
  | unwind mark => exact hb.unwind mark

/-- To unwind no further than to an old mark undoes nothing of what there was then. -/
theorem Since.unwind_above {o : Bindings} (h : o.Since b) (ho : o.Recorded) (hb : b.Recorded)
    (hmark : o.mark ≤ (b.unwind m).mark) : o.Since (b.unwind m) := by
  obtain ⟨new, hnew⟩ := h.trail
  have htrail : (b.unwind m).trail = new.drop (b.mark - m) ++ o.trail := by
    rw [Bindings.unwind, trail_undo, ← hnew, List.drop_append_of_le_length]
    rw [mark, mark, Bindings.unwind, trail_undo, List.length_drop, ← hnew,
      List.length_append] at hmark
    simp only [mark, ← hnew, List.length_append] at hmark ⊢
    omega
  refine ⟨⟨(size_unwind b m).symm ▸ h.size_le, fun {v x} hv => ?_⟩, ⟨_, htrail.symm⟩⟩
  -- what had a value then is on the trail still, so it was not undone
  have hin : v ∈ (b.unwind m).trail := by
    rw [htrail, List.mem_append, ho.mem_iff]
    exact .inr (by rw [hv]; rfl)
  obtain ⟨y, hy⟩ := Option.isSome_iff_exists.1 (((hb.unwind m).mem_iff v).1 hin)
  have hsame := (value?_of_unwind hy).symm.trans (h.value hv)
  rw [hy, hsame]

/-- An edit that does not go back behind an old mark leaves what there was then. -/
theorem Edit.since {o : Bindings} (h : b.Edit b') (ho : o.Recorded) (hb : b.Recorded)
    (hsince : o.Since b) (hmark : o.mark ≤ b'.mark) : o.Since b' := by
  cases h with
  | newVar => exact hsince.trans (.newVar b)
  | unify hends h => exact hsince.trans (hb.unifyInPlace hends h).2
  | bind t hv => exact hsince.trans (.bind hv t)
  | unwind m => exact hsince.unwind_above ho hb hmark

theorem Recorded.edits (hb : b.Recorded) (h : ReflTransGen Edit b b') : b'.Recorded := by
  induction h with
  | refl => exact hb
  | tail _ hedit ih => exact hedit.recorded ih

theorem Recorded.editsAbove (hb : b.Recorded) (h : EditsAbove b.mark b b') :
    b'.Recorded ∧ b.Since b' := by
  induction h with
  | refl => exact ⟨hb, .refl b⟩
  | tail _ hedit ih =>
    obtain ⟨hrec, hsince⟩ := ih
    exact ⟨hedit.1.recorded hrec, hedit.1.since hb hrec hsince hedit.2⟩

/-- In every history of a manager the trail names the bound variables, each of them once; and
whatever happens after a mark that is not gone back behind, to unwind to the mark gives back the
trail and the values that there were, with all variables that came later unbound. -/
theorem trail_exact (h : ReflTransGen Edit {} b) :
    (∀ v, v ∈ b.trail ↔ (b.value? v).isSome = true) ∧ b.trail.Nodup ∧
      ∀ b', EditsAbove b.mark b b' →
        (b'.unwind b.mark).trail = b.trail ∧ b.size ≤ (b'.unwind b.mark).size ∧
          (∀ v < b.size, (b'.unwind b.mark).value? v = b.value? v) ∧
          ∀ v, b.size ≤ v → (b'.unwind b.mark).value? v = none := by
  have hb := (Recorded.empty 0).edits h
  refine ⟨hb.mem_iff, hb.nodup, fun b' h' => ?_⟩
  obtain ⟨hb', hsince⟩ := hb.editsAbove h'
  obtain ⟨htrail, hvalue⟩ := hsince.unwind hb hb'
  refine ⟨htrail, (size_unwind b' b.mark).symm ▸ hsince.size_le, fun v _ => hvalue v,
    fun v hv => ?_⟩
  rw [hvalue]
  cases hval : b.value? v with
  | none => rfl
  | some t => exact absurd (hb.bound_lt hval) (Nat.not_lt.2 hv)

/-- Two variables are made one. Then a unification binds both before it fails, and a third variable
is bound to itself. -/
theorem trail_exact_circle :
    let b := ({} : Bindings).newVar.2.newVar.2.bind 1 (.ref 0)
    let c := (b.bind 0 (.node (.uri "x"))).unwind 1
    let d := c.newVar.2.bind 2 (.ref 2)
    b.unifyInPlace 2 (.app "f" [.ref 1, .node (.uri "y")])
        (.app "f" [.node (.uri "x"), .node (.uri "z")]) = some (false, c) ∧
      (d.unwind b.mark).trail = [1] ∧ (d.unwind b.mark).value? 1 = some (.ref 0) ∧
      (d.unwind b.mark).value? 2 = none := by
  intro b c d
  have hunify : b.unifyInPlace 2 (.app "f" [.ref 1, .node (.uri "y")])
      (.app "f" [.node (.uri "x"), .node (.uri "z")]) = some (false, c) := rfl
  have hb : ReflTransGen Edit {} b :=
    ((ReflTransGen.refl.tail (.newVar _)).tail (.newVar _)).tail (.bind _ (by decide))
  have hordered : b.Ordered := (Ordered.empty 0).newVar.newVar.bind (by simp)
  have hd : EditsAbove b.mark b d :=
    ((ReflTransGen.refl.tail ⟨.unify hordered.chainsEnd hunify, by decide⟩).tail
      ⟨.newVar _, by decide⟩).tail ⟨.bind _ (by decide), by decide⟩
  obtain ⟨-, -, hback⟩ := trail_exact hb
  obtain ⟨htrail, -, hold, hnew⟩ := hback d hd
  exact ⟨hunify, htrail, hold 1 (by decide), hnew 2 (by decide)⟩

/-! ## Chains of variables -/

/-- `k` bindings lead from a term to another. -/
inductive Links (b : Bindings) : Nat → Term → Term → Prop
  | refl (t : Term) : Links b 0 t t
  | link {v k : Nat} {t x : Term} :
    b.value? v = some t → Links b k t x → Links b (k + 1) (.ref v) x

theorem Links.le_of_ordered {k : Nat} {x : Term} (h : b.Links k t x) (hb : b.Ordered) :
    k ≤ b.size := by
  have hlt : ∀ v, t = .ref v → k ≤ v + 1 := by
    induction h with
    | refl => omega
    | @link v k t x hv hlinks ih =>
      intro u e
      cases e
      cases t with
      | ref w =>
        have := ih w rfl
        have := hb.older hv
        omega
      | _ => cases hlinks; omega
  cases h with
  | refl => omega
  | link hv _ =>
    have := hlt _ rfl
    have := hb.bound_lt hv
    omega

/-- To follow a term is to follow its chain to the end. -/
theorem Ordered.links_deref (hb : b.Ordered) (t : Term) : ∃ k, b.Links k t (b.deref t) := by
  induction t using hb.chain_induct with
  | stop t ht => exact ⟨0, (deref_of_isEnd ht).symm ▸ .refl t⟩
  | link v t hv ih =>
    obtain ⟨k, hk⟩ := ih
    exact ⟨k + 1, deref_ref_of_some hb hv ▸ .link hv hk⟩

theorem Ordered.merge {u : Nat} (hb : b.Ordered) (v : Nat) : (b.merge v u).Ordered := by
  unfold Bindings.merge
  split
  · exact hb
  · split
    · next hlt => exact hb.bind fun w e => by cases e; exact hlt
    · exact hb.bind fun w e => by cases e; omega

theorem Ordered.attemptEach {one : Bindings → Term → Term → Option (Bool × Bindings)}
    (hone : ∀ {b l r ok c}, Ordered b → one b l r = some (ok, c) → c.Ordered)
    {ls rs : List Term} (hb : b.Ordered) (h : attemptEach one b ls rs = some (ok, c)) :
    c.Ordered := by
  induction ls generalizing b rs with
  | nil => cases h; exact hb
  | cons l ls ih =>
    cases rs with
    | nil => cases h; exact hb
    | cons r rs =>
      rw [Bindings.attemptEach] at h
      split at h
      · next b1 h1 => exact ih (hone hb h1) h
      · exact hone hb h

/-- Unification binds a variable to an older one or to what is no variable, and so it does where it
fails in the end. -/
theorem Ordered.attempt (hb : b.Ordered) (h : b.attempt n l r = some (ok, c)) : c.Ordered := by
  induction n generalizing b l r ok c with
  | zero => cases h
  | succ n ih =>
    rw [Bindings.attempt] at h
    split at h
    case h_5 v u _ _ => cases h; exact hb.merge v
    case h_6 v _ _ _ hne => cases h; exact hb.bind fun u e => absurd e (hne u)
    case h_7 v _ _ _ hne => cases h; exact hb.bind fun u e => absurd e (hne u)
    case h_9 =>
      split at h
      · exact hb.attemptEach ih h
      · cases h; exact hb
    all_goals cases h; exact hb

theorem Ordered.unifyInPlace (hb : b.Ordered) (h : b.unifyInPlace n l r = some (ok, c)) :
    c.Ordered := by
  obtain ⟨⟨ok', c'⟩, hattempt, heq⟩ := Option.map_eq_some_iff.1 h
  have hc' := hb.attempt hattempt
  cases ok' <;> cases heq
  · exact hc'.unwind _
  · exact hc'

theorem Ordered.reclaim (hb : b.Ordered) (count : Nat) : (b.reclaim count).Ordered where
  bound_lt := fun {v t} hv => by
    rw [value?_reclaim] at hv
    split at hv
    · exact Nat.lt_min.2 ⟨hb.bound_lt hv, ‹_›⟩
    · cases hv
  older := fun {v u} hv => by
    rw [value?_reclaim] at hv
    split at hv
    · exact hb.older hv
    · cases hv

/-- A snapshot in which a variable has no younger one as its value. -/
def OlderOnly (saved : List (Nat × Term)) : Prop := ∀ p ∈ saved, ∀ u, p.2 = .ref u → u < p.1

theorem Ordered.olderOnly (hb : b.Ordered) : OlderOnly b.snapshot := by
  rintro ⟨v, t⟩ hp u e
  obtain ⟨w, -, hw⟩ := List.mem_filterMap.1 hp
  obtain ⟨x, hx, heq⟩ := Option.map_eq_some_iff.1 hw
  cases heq
  exact hb.older (e ▸ hx)

theorem Ordered.restore {saved : List (Nat × Term)} (hb : b.Ordered) (h : OlderOnly saved) :
    (b.restore saved).Ordered := by
  have replay : ∀ {b : Bindings}, b.Ordered →
      (saved.foldl (fun b p => b.bind p.1 p.2) b).Ordered := by
    intro b hb
    induction saved generalizing b with
    | nil => exact hb
    | cons p saved ih =>
      exact ih (fun q hq => h q (List.mem_cons_of_mem _ hq)) (hb.bind (h p List.mem_cons_self))
  exact replay (hb.unwind 0)

/-- A binding manager, and the snapshots that were taken of it so far. -/
structure Archive where
  bindings : Bindings := {}
  saved : List (List (Nat × Term)) := []

/-- What an engine does with its bindings. Variables may be given up at any time, those that values
and snapshots still mention as well. -/
inductive Archive.Turn (a : Archive) : Archive → Prop
  | newVar : Turn a { a with bindings := a.bindings.newVar.2 }
  | unify {n : Nat} {l r : Term} {ok : Bool} {c : Bindings} :
    a.bindings.unifyInPlace n l r = some (ok, c) → Turn a { a with bindings := c }
  | functor {v : Nat} (f : String) (args : List Term) :
    a.bindings.value? v = none → Turn a { a with bindings := a.bindings.bind v (.app f args) }
  | unwind (mark : Nat) : Turn a { a with bindings := a.bindings.unwind mark }
  | reclaim (count : Nat) : Turn a { a with bindings := a.bindings.reclaim count }
  | snapshot : Turn a { a with saved := a.bindings.snapshot :: a.saved }
  | restore {saved : List (Nat × Term)} :
    saved ∈ a.saved → Turn a { a with bindings := a.bindings.restore saved }

/-- No variable leads to a younger one, and neither does it when a snapshot is restored. -/
structure Archive.Ordered (a : Archive) : Prop where
  bindings : a.bindings.Ordered
  olderOnly : ∀ saved ∈ a.saved, OlderOnly saved

theorem Archive.Turn.ordered {a a' : Archive} (h : a.Turn a') (ha : a.Ordered) : a'.Ordered := by
  obtain ⟨hb, hsaved⟩ := ha
  cases h with
  | newVar => exact ⟨hb.newVar, hsaved⟩
  | unify h => exact ⟨hb.unifyInPlace h, hsaved⟩
  | functor f args _ => exact ⟨hb.bind (by simp), hsaved⟩
  | unwind mark => exact ⟨hb.unwind mark, hsaved⟩
  | reclaim count => exact ⟨hb.reclaim count, hsaved⟩
  | snapshot => exact ⟨hb, List.forall_mem_cons.2 ⟨hb.olderOnly, hsaved⟩⟩
  | restore hmem => exact ⟨hb.restore (hsaved _ hmem), hsaved⟩

/-- What an instruction does that looks for a functor term: it makes variables for the parts and
binds the unbound variable that it finds in the place of the term. -/
theorem Archive.turns_getFunctor {g g' : Registers} {clause : String} {shape : Compound}
    (h : g.getFunctor clause shape = .ok (some g')) (hg : g.bindings.Ordered)
    (saved : List (List (Nat × Term))) :
    ReflTransGen Archive.Turn ⟨g.bindings, saved⟩ ⟨g'.bindings, saved⟩ := by
  have fresh : ∀ (replaced : Term → Bool) (b : Bindings) (ts : List Term),
      ReflTransGen Archive.Turn ⟨b, saved⟩ ⟨(b.freshen replaced ts).2, saved⟩ := by
    intro replaced b ts
    induction ts generalizing b with
    | nil => exact .refl
    | cons t ts ih =>
      cases hreplaced : replaced t with
      | true =>
        rw [freshen, if_pos hreplaced]
        exact .head .newVar (ih b.newVar.2)
      | false =>
        rw [freshen, if_neg (by simp [hreplaced])]
        exact ih b
  obtain ⟨a, -, h⟩ := ok_of_bind h
  split at h
  · split at h
    · obtain ⟨g1, h1, h2⟩ := ok_of_map h
      cases h2
      rw [Registers.bindings_setArgs h1]
    · cases h
  · next v hv =>
    obtain ⟨g1, h1, h2⟩ := ok_of_bind h
    cases h2
    have hset : g1.bindings = (freshen Term.isVar g.bindings shape.args).2 := by
      rw [Registers.bindings_setArgs h1, Registers.freshen_eq]
    have hnone : g1.bindings.value? v = none := by
      rw [hset, (follows_freshen Term.isVar g.bindings shape.args).2]
      exact value?_of_deref_eq_ref hg hv
    exact (hset ▸ fresh Term.isVar g.bindings shape.args).tail (.functor _ _ hnone)
  · obtain ⟨g1, h1, h2⟩ := ok_of_map h
    cases h2
    rw [Registers.bindings_setArgs h1, Registers.freshen_eq]
    exact fresh _ g.bindings shape.args
  · obtain ⟨g1, h1, h2⟩ := ok_of_map h
    cases h2
    rw [Registers.bindings_setArgs h1, Registers.freshen_eq]
    exact fresh _ g.bindings shape.args
  · cases h

theorem Archive.ordered_of_turns {a : Archive} (h : ReflTransGen Archive.Turn {} a) : a.Ordered := by
  induction h with
  | refl => exact ⟨.empty 0, fun _ h => nomatch h⟩
  | tail _ hturn ih => exact hturn.ordered ih

/-- Whatever an engine did with its bindings, a variable that is bound to another one is bound to
one with a smaller number. A chain is no longer than there are variables, and to follow a term is to
follow its chain up to a value or an unbound variable. -/
theorem deref_ends {a : Archive} (h : ReflTransGen Archive.Turn {} a) :
    (∀ v u, a.bindings.value? v = some (.ref u) → u < v) ∧
      ∀ t, (∀ k x, a.bindings.Links k t x → k ≤ a.bindings.size) ∧
        (∃ k, a.bindings.Links k t (a.bindings.deref t)) ∧
        a.bindings.IsEnd (a.bindings.deref t) := by
  have hb := (Archive.ordered_of_turns h).bindings
  exact ⟨fun v u hv => hb.older hv, fun t =>
    ⟨fun k x hlinks => hlinks.le_of_ordered hb, hb.links_deref t, isEnd_deref hb t⟩⟩

/-- A term that contains itself is saved, undone, partly given up and restored. -/
theorem deref_ends_cyclic :
    let b := (({} : Bindings).newVar.2.newVar.2.bind 1 (.ref 0)).bind 0 (.app "f" [.ref 1])
    let c := ((b.unwind 1).reclaim 1).newVar.2
    (∀ k x, (c.restore b.snapshot).Links k (.ref 1) x → k ≤ 2) ∧
      (c.restore b.snapshot).IsEnd ((c.restore b.snapshot).deref (.ref 1)) := by
  intro b c
  have hb : ReflTransGen Archive.Turn {} ⟨b, []⟩ :=
    (((ReflTransGen.refl.tail .newVar).tail .newVar).tail
      (@Archive.Turn.unify _ 1 (.ref 0) (.ref 1) true _ rfl)).tail (.functor _ _ rfl)
  have hc : ReflTransGen Archive.Turn {} ⟨c.restore b.snapshot, [b.snapshot]⟩ :=
    ((((hb.tail .snapshot).tail (.unwind 1)).tail (.reclaim 1)).tail .newVar).tail
      (.restore List.mem_cons_self)
  obtain ⟨-, hends⟩ := deref_ends hc
  exact ⟨(hends (.ref 1)).1, (hends (.ref 1)).2.2⟩

end TabledRules.Bindings
