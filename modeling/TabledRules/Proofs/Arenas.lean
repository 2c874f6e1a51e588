-- The environments of a machine are kept in one row, by their numbers, and are
-- shared: whoever sets a permanent variable sets it for all who use the
-- environment, and an environment that is given up leaves its number to a new one.
-- A consumer that waits puts aside what it will need of them.
import TabledRules.Proofs.ReadyCode

namespace TabledRules

/-- An environment as it is kept for all who use it. The one at the root has no clause and no
caller. -/
structure Activation where
  clause : Option Clause := none
  /-- The number of the caller's environment. -/
  link : Option Nat := none
  /-- Where to go on in the code of the caller. -/
  code : List Instruction := []
  commit : Option Nat := none
  vars : List (Option Term)
deriving Inhabited

/-- The environments of a machine, by their numbers, and the permanent variables that were put
aside by each consumer that has waited. The environment at the root has the terms of the goal. -/
structure Arena where
  frames : List Activation
  saved : Nat → List (Nat × List (Option Term)) := fun _ => []

namespace Arena

def vars (F : Arena) (i : Nat) : List (Option Term) := ((F.frames[i]?).map Activation.vars).getD []

/-- Sets the permanent variables of an environment, if there is one of that number. -/
def put (i : Nat) (vars : List (Option Term)) (F : Arena) : Arena :=
  { F with frames := F.frames.modify i fun a => { a with vars } }

/-- Gives up all environments but the first `n`. -/
def truncate (n : Nat) (F : Arena) : Arena := { F with frames := F.frames.take n }

def push (a : Activation) (F : Arena) : Arena := { F with frames := F.frames ++ [a] }

/-- An environment and its callers, which are older, up to the root. -/
def chain (F : Arena) (i : Nat) : List (Nat × Activation) :=
  match F.frames[i]? with
  | none => []
  | some a =>
    (i, a) ::
      match a.link with
      | none => []
      | some j => if j < i then F.chain j else []

/-- The permanent variables of an environment and its callers. -/
def chainVars (F : Arena) (i : Nat) : List (Nat × List (Option Term)) :=
  (F.chain i).map fun p => (p.1, p.2.vars)

def putAll (l : List (Nat × List (Option Term))) (F : Arena) : Arena :=
  l.foldl (fun F p => F.put p.1 p.2) F

/-- Brings back what the consumer has put aside. -/
def restore (d : Nat) (F : Arena) : Arena := F.putAll (F.saved d)

/-- The consumer, which goes on in the environment, puts aside what it will need. -/
def save (d i : Nat) (F : Arena) : Arena :=
  { F with saved := fun k => if k = d then F.chainVars i else F.saved k }

/-- The registers of a machine that runs in an environment. -/
def registers (env : Env) (m : Machine) (F : Arena) : Registers :=
  (m.registers env).withVars (F.vars env.id)

/-- What the consumer of a choice point finds when the machine goes back to it. -/
def reread (c : Choice) (d : Nat) (m : Machine) (F : Arena) : Arena :=
  (F.truncate (m.rewind c).envs).restore d

/-- What becomes of the environments when the machine goes back to a choice point. -/
def retry (c : Choice) (m : Machine) (s : Session) (F : Arena) : Arena :=
  match c.alternatives with
  | .clauses (cl :: _) _ ground =>
    let F := F.truncate (m.rewind c).envs
    if m.committed.contains c.id then F
    else
      F.push
        { clause := some cl
          link := some c.env.id
          code := c.code
          commit := if ground then some c.id else none
          vars := List.replicate cl.permanents none }
  | .results d _ =>
    match (s.read d).1 with
    | .pending => (F.reread c d m).save d c.env.id
    | _ => F.reread c d m
  | _ => F.truncate (m.rewind c).envs

def step (n : Nat) (x : Moment) (F : Arena) : Arena :=
  match x.control with
  | .run env (.operation op :: _) =>
    match op.run env.name n (F.registers env x.machine) with
    | some (.ok (some g)) => F.put env.id g.vars
    | _ => F
  | .run _ _ => F
  | .backtrack =>
    match x.machine.stack with
    | [] => F
    | c :: _ => F.retry c x.machine x.session

/-- What becomes of the environments when something happens to the machine. -/
def after : Happening → Moment → Arena → Arena
  | .step n, x, F => F.step n x
  | .restore d, x, F => (F.truncate x.machine.discard.envs).restore d
  | .setUp, _, F | .others, _, F => F

end Arena

namespace Env

/-- The environment as it is kept, with these permanent variables. -/
def activation (vars : List (Option Term)) : Env → Activation
  | .root => { vars }
  | .frame _ clause _ caller code commit =>
    { clause := some clause, link := some caller.id, code, commit, vars }

/-- The environment and its callers as they are kept, each with the permanent variables of its
number. -/
def chain (vars : Nat → List (Option Term)) : Env → List (Nat × Activation)
  | .root => [(0, Env.root.activation (vars 0))]
  | .frame i clause own caller code commit =>
    (i, (Env.frame i clause own caller code commit).activation (vars i)) :: caller.chain vars

/-- The permanent variables of the environment and its callers. -/
def chainVars (vars : Nat → List (Option Term)) (env : Env) : List (Nat × List (Option Term)) :=
  (env.chain vars).map fun p => (p.1, p.2.vars)

end Env

section

variable {F F' : Arena} {e env : Env} {i j n d : Nat} {vars : List (Option Term)}
  {a : Activation} {l : List (Nat × List (Option Term))} {v : Nat → List (Option Term)}

/-! ## Permanent variables -/

namespace Arena

theorem vars_put_ne (h : j ≠ i) (F : Arena) : (F.put i vars).vars j = F.vars j := by
  simp [Arena.vars, put, Ne.symm h]

theorem vars_put_self (h : i < F.frames.length) : (F.put i vars).vars i = vars := by
  simp only [Arena.vars, put, List.getElem?_modify_eq, List.getElem?_eq_getElem h]
  rfl

theorem vars_put (h : i < F.frames.length) (j : Nat) :
    (F.put i vars).vars j = if j = i then vars else F.vars j := by
  split
  · next e => rw [e, vars_put_self h]
  · next hne => exact vars_put_ne hne F

@[simp] theorem length_put (F : Arena) : (F.put i vars).frames.length = F.frames.length :=
  List.length_modify _ _ _

theorem vars_truncate (h : j < n) (F : Arena) : (F.truncate n).vars j = F.vars j := by
  simp only [Arena.vars, truncate, List.getElem?_take_of_lt h]

theorem vars_push (h : j ≠ F.frames.length) : (F.push a).vars j = F.vars j := by
  simp only [Arena.vars, push]
  rcases Nat.lt_or_ge j F.frames.length with hlt | hge
  · rw [List.getElem?_append_left hlt]
  · rw [List.getElem?_append_right hge, List.getElem?_eq_none hge,
      List.getElem?_eq_none (by simp; omega)]

theorem vars_push_self (F : Arena) : (F.push a).vars F.frames.length = a.vars := by
  simp [Arena.vars, push]

theorem length_putAll (l : List (Nat × List (Option Term))) (F : Arena) :
    (F.putAll l).frames.length = F.frames.length := by
  induction l generalizing F with
  | nil => rfl
  | cons p l ih => exact (ih (F.put p.1 p.2)).trans F.length_put

theorem vars_putAll (l : List (Nat × List (Option Term))) (hj : j < F.frames.length) :
    ((F.putAll l).vars j = F.vars j ∧ ∀ p ∈ l, p.1 ≠ j) ∨
      ∃ p ∈ l, p.1 = j ∧ (F.putAll l).vars j = p.2 := by
  induction l generalizing F with
  | nil => exact .inl ⟨rfl, by simp⟩
  | cons p l ih =>
    have hj' : j < (F.put p.1 p.2).frames.length := by rwa [length_put]
    rcases ih hj' with ⟨h, hne⟩ | ⟨q, hq, hid, h⟩
    · by_cases e : p.1 = j
      · subst e
        exact .inr ⟨p, List.mem_cons_self, rfl, h.trans (vars_put_self hj)⟩
      · refine .inl ⟨h.trans (vars_put_ne (Ne.symm e) F), fun q hq => ?_⟩
        rcases List.mem_cons.1 hq with rfl | hq
        · exact e
        · exact hne q hq
    · exact .inr ⟨q, List.mem_cons_of_mem _ hq, hid, h⟩

theorem saved_putAll (l : List (Nat × List (Option Term))) (F : Arena) :
    (F.putAll l).saved = F.saved := by
  induction l generalizing F with
  | nil => rfl
  | cons p l ih => exact ih (F.put p.1 p.2)

theorem saved_restore (d : Nat) (F : Arena) : (F.restore d).saved = F.saved :=
  saved_putAll _ F

/-! ## Clauses, callers and code -/

/-- The environments without their permanent variables. -/
def heads (F : Arena) : List Activation := F.frames.map fun a => { a with vars := [] }

@[simp] theorem heads_put (F : Arena) : (F.put i vars).heads = F.heads := by
  refine List.ext_getElem? fun j => ?_
  by_cases h : i = j <;> simp [heads, put, Function.comp_def, h]

@[simp] theorem heads_truncate (F : Arena) : (F.truncate n).heads = F.heads.take n := by
  simp [heads, truncate, List.map_take]

@[simp] theorem heads_push (F : Arena) : (F.push a).heads = F.heads ++ [{ a with vars := [] }] := by
  simp [heads, push]

theorem heads_putAll (l : List (Nat × List (Option Term))) (F : Arena) :
    (F.putAll l).heads = F.heads := by
  induction l generalizing F with
  | nil => rfl
  | cons p l ih => exact (ih (F.put p.1 p.2)).trans F.heads_put

@[simp] theorem heads_restore (F : Arena) : (F.restore d).heads = F.heads := heads_putAll _ F

@[simp] theorem heads_save (F : Arena) : (F.save d i).heads = F.heads := rfl

@[simp] theorem length_heads (F : Arena) : F.heads.length = F.frames.length := by simp [heads]

end Arena

theorem Env.On.activation_of_setVars (h : e.On (env.setVars vars)) :
    ∃ e' : Env, e'.On env ∧ e'.id = e.id ∧ e'.activation [] = e.activation [] := by
  cases env with
  | root => exact ⟨e, h, rfl, rfl⟩
  | frame =>
    cases h with
    | here => exact ⟨_, .here, rfl, rfl⟩
    | outer h => exact ⟨e, .outer h, rfl, rfl⟩

/-- The arena has the environments of the chain. -/
def Arena.Houses (env : Env) (F : Arena) : Prop :=
  ∀ e : Env, e.On env → F.heads[e.id]? = some (e.activation [])

namespace Arena.Houses

theorem lt (h : F.Houses env) (he : e.On env) : e.id < F.frames.length := by
  obtain ⟨hlt, -⟩ := List.getElem?_eq_some_iff.1 (h e he)
  rwa [F.length_heads] at hlt

theorem caller {cl : Clause} {caller : Env} {back : List Instruction} {commit : Option Nat}
    (h : F.Houses (.frame i cl vars caller back commit)) : F.Houses caller :=
  fun e he => h e (.outer he)

theorem congr (h : F.Houses env) (heads : F'.heads = F.heads) : F'.Houses env :=
  fun e he => heads ▸ h e he

theorem setVars (h : F.Houses env) : F.Houses (env.setVars vars) := by
  intro e he
  obtain ⟨e', he', hid, hsame⟩ := he.activation_of_setVars
  rw [← hid, ← hsame]
  exact h e' he'

/-- The first environments are the same. -/
theorem of_take {l : List Activation} (h : F.Houses env) (hbelow : env.Below n)
    (heads : F'.heads = F.heads.take n ++ l) : F'.Houses env := by
  intro e he
  have hlt := he.lt hbelow
  have hlen := h.lt he
  rw [← F.length_heads] at hlen
  rw [heads, List.getElem?_append_left (by rw [List.length_take]; omega),
    List.getElem?_take_of_lt hlt, h e he]

/-- An environment as it is in the arena. -/
theorem frame (h : F.Houses env) (he : e.On env) :
    F.frames[e.id]? = some (e.activation (F.vars e.id)) := by
  have hhead := h e he
  rw [Arena.heads, List.getElem?_map] at hhead
  obtain ⟨a, ha, hsame⟩ := Option.map_eq_some_iff.1 hhead
  have hvars : F.vars e.id = a.vars := by
    rw [Arena.vars, ha]
    rfl
  rw [ha, hvars]
  obtain ⟨clause, link, code, commit, own⟩ := a
  cases e <;> cases hsame <;> rfl

/-- The chain in the arena is that of the environment. -/
theorem chain_eq (h : F.Houses env) (hbelow : env.Below n) :
    F.chain env.id = env.chain F.vars := by
  induction env generalizing n with
  | root =>
    rw [Arena.chain, h.frame .here]
    rfl
  | frame i cl own caller back commit ih =>
    have hlt : caller.id < i := Env.Below.id_lt hbelow.2
    rw [Arena.chain, h.frame .here]
    change (i, _) :: (if caller.id < i then F.chain caller.id else []) = _
    rw [if_pos hlt, ih h.caller hbelow.2]
    rfl

theorem chainVars_eq (h : F.Houses env) (hbelow : env.Below n) :
    F.chainVars env.id = env.chainVars F.vars := by
  rw [Arena.chainVars, h.chain_eq hbelow]
  rfl

end Arena.Houses

/-- To put something aside leaves the environments as they are. -/
theorem Arena.chain_save (F : Arena) (d i j : Nat) : (F.save d i).chain j = F.chain j := by
  induction j using Nat.strongRecOn with
  | ind j ih =>
    rw [Arena.chain, Arena.chain]
    change (match F.frames[j]? with | none => _ | some a => _) = _
    cases F.frames[j]? with
    | none => rfl
    | some a =>
      cases hlink : a.link with
      | none => simp only [hlink]
      | some k =>
        simp only [hlink]
        split
        · next hlt => rw [ih k hlt]
        · rfl

/-! ## What a consumer puts aside -/

theorem Env.mem_chainVars {p : Nat × List (Option Term)} :
    p ∈ env.chainVars v ↔ ∃ e : Env, e.On env ∧ p = (e.id, v e.id) := by
  unfold Env.chainVars
  induction env with
  | root =>
    rw [Env.chain, List.map_singleton, List.mem_singleton]
    refine ⟨fun h => ⟨.root, .here, h⟩, ?_⟩
    rintro ⟨e, he, rfl⟩
    cases he
    rfl
  | frame i cl vars caller back commit ih =>
    rw [Env.chain, List.map_cons, List.mem_cons, ih]
    constructor
    · rintro (rfl | ⟨e, he, rfl⟩)
      · exact ⟨_, .here, rfl⟩
      · exact ⟨e, .outer he, rfl⟩
    · rintro ⟨e, he, rfl⟩
      cases he with
      | here => exact .inl rfl
      | outer he => exact .inr ⟨e, he, rfl⟩

theorem Env.chain_congr {v' : Nat → List (Option Term)} (h : ∀ e : Env, e.On env → v' e.id = v e.id) :
    env.chain v' = env.chain v := by
  induction env with
  | root =>
    rw [Env.chain, Env.chain]
    rw [show v' 0 = v 0 from h .root .here]
  | frame i cl vars caller back commit ih =>
    rw [Env.chain, Env.chain, ih fun e he => h e (.outer he)]
    rw [show v' i = v i from h _ .here]

/-- A chain that was put aside whole is back after it was restored, whatever the environments had
since. -/
theorem Arena.Houses.chain_restore (h : F.Houses env) (hbelow : env.Below n)
    (hsaved : F.saved d = env.chainVars v) : (F.restore d).chain env.id = env.chain v := by
  have hhouses : (F.restore d).Houses env := h.congr F.heads_restore
  rw [hhouses.chain_eq hbelow]
  refine Env.chain_congr fun e he => ?_
  rcases Arena.vars_putAll (F.saved d) (h.lt he) with ⟨-, hne⟩ | ⟨p, hp, hid, hval⟩
  · exact absurd rfl (hne (e.id, v e.id) (hsaved ▸ Env.mem_chainVars.2 ⟨e, he, rfl⟩))
  · rw [hsaved, Env.mem_chainVars] at hp
    obtain ⟨f, -, rfl⟩ := hp
    have hid : f.id = e.id := hid
    rw [← hid] at hval ⊢
    exact hval

end

end TabledRules
