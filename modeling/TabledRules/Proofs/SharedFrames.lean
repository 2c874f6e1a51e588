-- Environments are shared, and whoever sets a permanent variable sets it for all.
-- A clause does not notice: what it has set is there whenever it goes on, and the
-- environments of all that a machine may go back to are kept.
import TabledRules.Proofs.Arenas

namespace TabledRules

open Register
open Operation (Agreeing)

section

variable {P : Program} {st : Settings} {W : World → Prop} {ok : Session → Prop} {w : World}
  {h : Happening} {x x' : Moment} {m m' : Machine} {s s' : Session} {c c' y : Choice}
  {rest : List Choice} {e env env' : Env} {code : List Instruction} {n i j d : Nat}
  {control control' : Control} {a : Alternatives} {op : Operation} {g g' : Registers}
  {clause : String} {F F' : Arena} {top vars vars' : List (Option Term)}
  {l : List (Nat × List (Option Term))}

/-! ## Operations on shared slots -/

theorem Operation.vars_length (h : op.run clause n g = some (.ok (some g'))) :
    g'.vars.length = g.vars.length := by
  obtain ⟨v, hv, hlen, -⟩ := op.run_agreeing (.refl g.vars) h
  have hrun : op.run clause n g = some (.ok (some (g'.withVars v))) := hv
  have hsame : g' = g'.withVars v := by
    rw [h] at hrun
    simpa using hrun
  have hvars : g'.vars = v := congrArg Registers.vars hsame
  rw [hvars, hlen]

/-- The registers of a machine that has run an operation on slots that agree with its own. -/
theorem Operation.run_shared (hw : Agreeing g.vars vars)
    (h : op.run clause n g = some (.ok (some g'))) :
    ∃ vars', op.run clause n (g.withVars vars) = some (.ok (some (g'.withVars vars'))) ∧
      Agreeing g'.vars vars' ∧ vars'.length = vars.length ∧
      ∀ i, .slot i ∉ op.sets → (vars'[i]?).join = (vars[i]?).join := by
  obtain ⟨vars', hrun, hlen, hval⟩ := op.run_agreeing hw h
  refine ⟨vars', hrun, ⟨?_, fun i t ht => ?_⟩, hlen, fun i hi => by rw [hval, if_neg hi]⟩
  · rw [hlen, Operation.vars_length h, hw.length]
  · have ht : g'.value? (.slot i) = some t := ht
    rw [hval]
    split
    · exact ht
    · next hi =>
      rw [(Operation.value?_run h).2 _ hi] at ht
      exact hw.value i t ht

/-! ## Chains of environments -/

/-- The permanent variables of an environment, which has those in `top` at the root. -/
def Env.slots (top : List (Option Term)) : Env → List (Option Term)
  | .root => top
  | .frame _ _ vars _ _ _ => vars

/-- Where the environments of two chains are the same, the second chain has all that the first
one has. -/
def Env.Keeps (top : List (Option Term)) (e env : Env) : Prop :=
  ∀ f f' : Env, f.On e → f'.On env → f.id = f'.id → Agreeing (f.slots top) (f'.slots top)

theorem Env.Below.pos (h : env.Below n) : 0 < n := by
  cases env with
  | root => exact h
  | frame => exact Nat.lt_of_le_of_lt (Nat.zero_le _) h.1

theorem Env.On.eq_of_id {f f' : Env} (hf : f.On env) (hf' : f'.On env) (h : env.Below n)
    (hid : f.id = f'.id) : f = f' := by
  induction env generalizing n with
  | root =>
    cases hf
    cases hf'
    rfl
  | frame i cl vars caller back commit ih =>
    cases hf with
    | here =>
      cases hf' with
      | here => rfl
      | outer hf' => exact absurd hid.symm (Nat.ne_of_lt (hf'.lt h.2))
    | outer hf =>
      cases hf' with
      | here => exact absurd hid (Nat.ne_of_lt (hf.lt h.2))
      | outer hf' => exact ih hf hf' h.caller

theorem Env.On.eq_root (he : e.On env) (h : env.Below n) (hid : e.id = 0) : e = .root := by
  induction he generalizing n with
  | here =>
    cases e with
    | root => rfl
    | frame i =>
      have hpos : 0 < i := Env.Below.pos h.2
      exact absurd hid (Nat.ne_of_gt hpos)
  | outer _ ih => exact ih h.caller

theorem Env.Keeps.refl (h : env.Below n) : env.Keeps top env := by
  intro f f' hf hf' hid
  obtain rfl := hf.eq_of_id hf' h hid
  exact .refl _

theorem Env.Keeps.caller {i : Nat} {cl : Clause} {caller : Env} {back : List Instruction}
    {commit : Option Nat} (h : e.Keeps top (.frame i cl vars caller back commit)) :
    e.Keeps top caller :=
  fun f f' hf hf' => h f f' hf (.outer hf')

/-- What is set of the chain is the same in the arena. -/
def Arena.Shows (top : List (Option Term)) (env : Env) (F : Arena) : Prop :=
  ∀ e : Env, e.On env → Agreeing (e.slots top) (F.vars e.id)

theorem Arena.Shows.caller {i : Nat} {cl : Clause} {caller : Env} {back : List Instruction}
    {commit : Option Nat} (h : F.Shows top (.frame i cl vars caller back commit)) :
    F.Shows top caller :=
  fun e he => h e (.outer he)

/-- The first environments have the same variables. -/
theorem Arena.Shows.congr (h : F.Shows top env) (hbelow : env.Below n)
    (hvars : ∀ j < n, F'.vars j = F.vars j) : F'.Shows top env := by
  intro e he
  rw [hvars e.id (he.lt hbelow)]
  exact h e he

/-! ## What a consumer puts aside -/

/-- All in the list is of the chain, and has what is set there. -/
def Env.Saves (top : List (Option Term)) (l : List (Nat × List (Option Term))) (env : Env) :
    Prop :=
  ∀ p ∈ l, ∃ e : Env, e.On env ∧ p.1 = e.id ∧ Agreeing (e.slots top) p.2

/-- The list has all of the chain. -/
def Env.Covers (l : List (Nat × List (Option Term))) (env : Env) : Prop :=
  ∀ e : Env, e.On env → ∃ p ∈ l, p.1 = e.id

theorem Arena.Shows.saves (h : F.Shows top env) : env.Saves top (env.chainVars F.vars) := by
  intro p hp
  obtain ⟨e, he, rfl⟩ := Env.mem_chainVars.1 hp
  exact ⟨e, he, rfl, h e he⟩

theorem Env.covers_chainVars (v : Nat → List (Option Term)) (env : Env) :
    env.Covers (env.chainVars v) :=
  fun e he => ⟨(e.id, v e.id), Env.mem_chainVars.2 ⟨e, he, rfl⟩, rfl⟩

/-- What was put aside is brought back where a younger chain has all that is set in an older
one. -/
theorem Env.Saves.shows (hsaves : env.Saves top l) (hkeeps : e.Keeps top env)
    (hroom : e.Below F.frames.length) (h : F.Shows top e ∨ e = env ∧ env.Covers l) :
    (F.putAll l).Shows top e := by
  intro f hf
  rcases Arena.vars_putAll l (hf.lt hroom) with ⟨hsame, hne⟩ | ⟨p, hp, hid, hval⟩
  · rw [hsame]
    rcases h with h | ⟨rfl, hcovers⟩
    · exact h f hf
    · obtain ⟨p, hp, hid⟩ := hcovers f hf
      exact absurd hid (hne p hp)
  · obtain ⟨f', hf', hid', hagree⟩ := hsaves p hp
    rw [hval]
    exact (hkeeps f f' hf hf' (hid.symm.trans hid')).trans hagree

/-- The root keeps the terms of the goal. -/
theorem Env.Saves.root (hsaves : env.Saves top l) (hbelow : env.Below F.frames.length)
    (h : Agreeing top (F.vars 0)) : Agreeing top ((F.putAll l).vars 0) := by
  rcases Arena.vars_putAll l hbelow.pos with ⟨hsame, -⟩ | ⟨p, hp, hid, hval⟩
  · rw [hsame]
    exact h
  · obtain ⟨e, he, hid', hagree⟩ := hsaves p hp
    obtain rfl := he.eq_root hbelow (hid'.symm.trans hid)
    rw [hval]
    exact hagree

/-! ## Arenas that fit a machine -/

/-- The arena has all that is set in the environments that the machine runs in or may go back
to. A younger environment has what is set in an older one of its number. -/
structure Arena.Fits (top : List (Option Term)) (control : Control) (stack : List Choice)
    (F : Arena) : Prop where
  root : Agreeing top (F.vars 0)
  shows : ∀ c ∈ stack, F.Shows top c.env
  order : stack.Pairwise fun y c => c.env.Keeps top y.env
  control : ∀ {env : Env} {code : List Instruction}, control = .run env code →
    F.Shows top env ∧ ∀ c ∈ stack, c.env.Keeps top env

/-- The arena has put aside, for every consumer that waits, what is set in its environments.
Consumers that do not exist yet have put nothing aside. -/
structure Arena.Stores (top : List (Option Term)) (next : Nat) (m : Machine) (F : Arena) :
    Prop where
  saves : ∀ {c : Choice} {d : Nat}, m.Has c → c.Consumes d → c.env.Saves top (F.saved d)
  covers : ∀ {c : Choice} {d : Nat}, m.suspended[d]? = some c → c.env.Covers (F.saved d)
  fresh : ∀ d, next ≤ d → F.saved d = []

namespace Arena.Fits

theorem backtrack {stack : List Choice} (h : F.Fits top control stack) :
    F.Fits top .backtrack stack :=
  ⟨h.root, h.shows, h.order, fun e => nomatch e⟩

theorem tail {stack : List Choice} (h : F.Fits top control (c :: stack)) :
    F.Fits top .backtrack stack :=
  ⟨h.root, fun y hy => h.shows y (List.mem_cons_of_mem _ hy), (List.pairwise_cons.1 h.order).2,
    fun e => nomatch e⟩

/-- A choice point is made in the environment that runs. -/
theorem push {stack : List Choice} (h : F.Fits top (.run env code) stack) (hbelow : env.Below n)
    (hc : c.env = env) : F.Fits top (.run env code) (c :: stack) := by
  obtain ⟨hshows, hkeeps⟩ := h.control rfl
  refine ⟨h.root, fun y hy => ?_, List.pairwise_cons.2 ⟨fun y hy => hc ▸ hkeeps y hy, h.order⟩,
    fun e => ?_⟩
  · rcases List.mem_cons.1 hy with rfl | hy
    · exact hc ▸ hshows
    · exact h.shows y hy
  · cases e
    refine ⟨hshows, fun y hy => ?_⟩
    rcases List.mem_cons.1 hy with rfl | hy
    · rw [hc]
      exact .refl hbelow
    · exact hkeeps y hy

/-- The choice points of a call are made. -/
theorem call {cls : List Clause} {ground : Bool} (h : F.Fits top (.run env code) m.stack)
    (hbelow : env.Below n) {code' : List Instruction} :
    F.Fits top .backtrack ((m.pushedClauses env code' cls ground).pushed env code' a).stack := by
  have hclauses : F.Fits top (.run env code) (m.pushedClauses env code' cls ground).stack := by
    unfold Machine.pushedClauses
    split
    · exact h
    · exact h.push hbelow rfl
  exact (hclauses.push hbelow rfl).backtrack

/-- The last choice point has other alternatives. -/
theorem keep (h : F.Fits top control (c :: rest)) :
    F.Fits top .backtrack ({ c with alternatives := a } :: rest) := by
  refine ⟨h.root, fun y hy => ?_, List.pairwise_cons.2 (List.pairwise_cons.1 h.order),
    fun e => nomatch e⟩
  rcases List.mem_cons.1 hy with rfl | hy
  · exact h.shows c List.mem_cons_self
  · exact h.shows y (List.mem_cons_of_mem _ hy)

/-- The machine goes on where the last choice point was made. -/
theorem resume (h : F.Fits top control (c :: rest)) (hbelow : c.env.Below n) :
    F.Fits top (.run c.env c.code) (c :: rest) := by
  refine ⟨h.root, h.shows, h.order, fun e => ?_⟩
  cases e
  refine ⟨h.shows c List.mem_cons_self, fun y hy => ?_⟩
  rcases List.mem_cons.1 hy with rfl | hy
  · exact .refl hbelow
  · exact (List.pairwise_cons.1 h.order).1 y hy

/-- The machine goes back to the caller. -/
theorem leave {i : Nat} {cl : Clause} {caller : Env} {back : List Instruction}
    {commit : Option Nat} {stack : List Choice}
    (h : F.Fits top (.run (.frame i cl vars caller back commit) code) stack) :
    F.Fits top (.run caller back) stack := by
  obtain ⟨hshows, hkeeps⟩ := h.control rfl
  refine ⟨h.root, h.shows, h.order, fun e => ?_⟩
  cases e
  exact ⟨hshows.caller, fun y hy => (hkeeps y hy).caller⟩

/-- The environments of the choice points are kept. -/
theorem truncate {stack : List Choice} (h : F.Fits top .backtrack stack) (hpos : 0 < n)
    (hbelow : ∀ y ∈ stack, y.env.Below n) : (F.truncate n).Fits top .backtrack stack := by
  have hvars : ∀ j < n, (F.truncate n).vars j = F.vars j := fun j hj => F.vars_truncate hj
  exact ⟨hvars 0 hpos ▸ h.root, fun y hy => (h.shows y hy).congr (hbelow y hy) hvars, h.order,
    fun e => nomatch e⟩

/-- A clause is taken up in a new environment. -/
theorem enter {cl : Clause} {ground : Bool} {b : Activation} (h : F.Fits top control (c :: rest))
    (hbelow : ∀ y ∈ c :: rest, y.env.Below F.frames.length) (hb : b.vars = vars) :
    (F.push b).Fits top (.run (c.entered F.frames.length cl vars ground) cl.code)
      (c :: rest) := by
  subst hb
  have hc := hbelow c List.mem_cons_self
  have hvars : ∀ j < F.frames.length, (F.push b).vars j = F.vars j :=
    fun j hj => Arena.vars_push (Nat.ne_of_lt hj)
  refine ⟨hvars 0 hc.pos ▸ h.root, fun y hy => (h.shows y hy).congr (hbelow y hy) hvars, h.order,
    fun e => ?_⟩
  cases e
  refine ⟨fun e he => ?_, fun y hy f f' hf hf' hid => ?_⟩
  · cases he with
    | here =>
      change Agreeing b.vars ((F.push b).vars F.frames.length)
      rw [F.vars_push_self]
      exact .refl _
    | outer he => exact (h.shows c List.mem_cons_self).congr hc hvars e he
  · cases hf' with
    | here => exact absurd hid (Nat.ne_of_lt (hf.lt (hbelow y hy)))
    | outer hf' =>
      rcases List.mem_cons.1 hy with rfl | hy
      · exact Env.Keeps.refl hc f f' hf hf' hid
      · exact (List.pairwise_cons.1 h.order).1 y hy f f' hf hf' hid

/-- An operation sets slots that were not set. -/
theorem operation {stack : List Choice} {K : Set Register}
    (h : F.Fits top (.run env code) stack) (henv : env.IsFrame)
    (hbelow : env.Below F.frames.length)
    (hslot : ∀ k t, (env.vars[k]?).join = some t → .slot k ∈ K) (hfine : Fine K op)
    (hg : Agreeing g.vars vars) (hlen : vars.length = (F.vars env.id).length)
    (hkeep : ∀ k, .slot k ∉ op.sets → (vars[k]?).join = ((F.vars env.id)[k]?).join)
    (hset : Agreeing env.vars g.vars) (code' : List Instruction) :
    (F.put env.id vars).Fits top (.run (env.setVars g.vars) code') stack := by
  obtain ⟨i, cl, vars0, caller, back, commit, rfl⟩ := henv
  obtain ⟨hshows, hkeeps⟩ := h.control rfl
  have hput : ∀ j, (F.put i vars).vars j = if j = i then vars else F.vars j := Arena.vars_put hbelow.1
  have hown : Agreeing vars0 (F.vars i) := hshows _ .here
  -- slots that were set are not set again
  have hold : Agreeing vars0 vars := by
    refine ⟨hlen.trans hown.length, fun k t ht => ?_⟩
    rw [hkeep k fun hk => hfine.once k hk (hslot k t ht)]
    exact hown.value k t ht
  refine ⟨?_, fun y hy e he => ?_, h.order, fun e => ?_⟩
  · have hpos : 0 ≠ i := Nat.ne_of_lt (Env.Below.pos hbelow.2)
    rw [show Env.id _ = i from rfl, hput, if_neg hpos]
    exact h.root
  · rw [show Env.id (.frame i cl vars0 caller back commit) = i from rfl, hput]
    split
    · next hid => exact (hkeeps y hy e _ he .here hid).trans hold
    · exact h.shows y hy e he
  · cases e
    refine ⟨fun e he => ?_, fun y hy f f' hf hf' hid => ?_⟩
    · rw [show Env.id (.frame i cl vars0 caller back commit) = i from rfl, hput]
      cases he with
      | here => rw [show Env.id _ = i from rfl, if_pos rfl]; exact hg
      | outer he =>
        rw [if_neg (Nat.ne_of_lt (he.lt hbelow.2))]
        exact hshows e (.outer he)
    · cases hf' with
      | here => exact (hkeeps y hy f _ hf .here hid).trans hset
      | outer hf' => exact hkeeps y hy f f' hf (.outer hf') hid

/-- What the consumer of the last choice point has put aside is brought back. -/
theorem restore (h : F.Fits top .backtrack (c :: rest))
    (hbelow : ∀ y ∈ c :: rest, y.env.Below F.frames.length)
    (hsaves : c.env.Saves top (F.saved d)) : (F.restore d).Fits top .backtrack (c :: rest) := by
  have hc := hbelow c List.mem_cons_self
  refine ⟨hsaves.root hc h.root, fun y hy => ?_, h.order, fun e => nomatch e⟩
  have hkeeps : y.env.Keeps top c.env := by
    rcases List.mem_cons.1 hy with rfl | hy
    · exact .refl hc
    · exact (List.pairwise_cons.1 h.order).1 y hy
  exact hsaves.shows hkeeps (hbelow y hy) (.inl (h.shows y hy))

/-- A consumer that waited comes back. Nothing else is left to try. -/
theorem comeBack (h : F.Fits top .backtrack []) (hbelow : c.env.Below F.frames.length)
    (hsaves : c.env.Saves top (F.saved d)) (hcovers : c.env.Covers (F.saved d)) :
    (F.restore d).Fits top .backtrack [c] := by
  refine ⟨hsaves.root hbelow h.root, fun y hy => ?_, List.pairwise_singleton _ _,
    fun e => nomatch e⟩
  obtain rfl := List.mem_singleton.1 hy
  exact hsaves.shows (.refl hbelow) hbelow (.inr ⟨rfl, hcovers⟩)

theorem save {stack : List Choice} (h : F.Fits top control stack) : (F.save d i).Fits top control stack :=
  ⟨h.root, h.shows, h.order, h.control⟩

end Arena.Fits

/-! ## Whatever happens -/

theorem Arena.step_operation (hw : Agreeing env.vars (F.vars env.id))
    (hop : op.run env.name n (m.registers env) = some (.ok (some g))) :
    ∃ vars, (∀ code s, F.step n ⟨.run env (.operation op :: code), m, s⟩ = F.put env.id vars) ∧
      Agreeing g.vars vars ∧ vars.length = (F.vars env.id).length ∧
      ∀ k, .slot k ∉ op.sets → (vars[k]?).join = ((F.vars env.id)[k]?).join := by
  obtain ⟨vars, hrun, hrest⟩ := op.run_shared hw hop
  refine ⟨vars, fun code s => ?_, hrest⟩
  have hrun : op.run env.name n (F.registers env m) = some (.ok (some (g.withVars vars))) := hrun
  simp only [Arena.step, hrun]
  rfl

theorem Arena.step_operationFails {s : Session} (hw : Agreeing env.vars (F.vars env.id))
    (hop : op.run env.name n (m.registers env) = some (.ok none)) :
    F.step n ⟨.run env (.operation op :: code), m, s⟩ = F := by
  have hrun : op.run env.name n (F.registers env m) = some (.ok none) :=
    op.run_fails_withVars hw hop
  simp only [Arena.step, hrun]

theorem Arena.step_retry {s : Session} (hstack : m.stack = c :: rest) :
    F.step n ⟨.backtrack, m, s⟩ = F.retry c m s := by
  simp only [Arena.step, hstack]

theorem Arena.retry_spent (h : c.Spent m.committed) (F : Arena) :
    F.retry c m s = F.truncate (m.rewind c).envs := by
  unfold Arena.retry
  unfold Choice.Spent at h
  split
  · next cl cls args ground halt =>
    rw [halt] at h
    simp only
    rw [if_pos (h.resolve_left (by simp))]
  · next halt =>
    rw [halt] at h
    exact h.elim
  · rfl

theorem Arena.retry_offers {goal t : Triple} (h : c.Offers s goal t a s') (F : Arena) :
    F.retry c m s = F.truncate (m.rewind c).envs ∨
      ∃ d, c.Consumes d ∧ F.retry c m s = F.reread c d m := by
  cases h with
  | fact halt | answer halt =>
    refine .inl ?_
    simp only [Arena.retry, halt]
  | result halt hread =>
    refine .inr ⟨_, ⟨_, halt⟩, ?_⟩
    simp only [Arena.retry, halt, hread]

theorem Arena.retry_exhausted {goal : Triple} (halt : c.alternatives = .results d goal)
    (hread : s.read d = (.exhausted, s')) (F : Arena) : F.retry c m s = F.reread c d m := by
  simp only [Arena.retry, halt, hread]

theorem Arena.retry_pending {goal : Triple} (halt : c.alternatives = .results d goal)
    (hread : s.read d = (.pending, s')) (F : Arena) :
    F.retry c m s = (F.reread c d m).save d c.env.id := by
  simp only [Arena.retry, halt, hread]

theorem Arena.retry_enter (rest : List Choice) {cl : Clause} {cls : List Clause}
    {args : List Term} {ground : Bool} (halt : c.alternatives = .clauses (cl :: cls) args ground)
    (hopen : m.committed.contains c.id = false) (F : Arena) :
    F.retry c m s = (F.truncate (m.rewind c).envs).push
      ((c.entered (m.popped c rest).envs cl (List.replicate cl.permanents none) ground).activation
        (List.replicate cl.permanents none)) := by
  simp only [Arena.retry, halt, hopen]
  rfl

theorem Machine.Numbered.below_stack (hm : m.Numbered) (hstack : m.stack = c :: rest) :
    ∀ y ∈ c :: rest, y.env.Below (m.popped c rest).envs := by
  obtain ⟨h1, h2⟩ := hm.popped hstack
  intro y hy
  rcases List.mem_cons.1 hy with rfl | hy
  · exact h2.2.2.mono h2.2.1
  · exact h1.below (.inl hy)

/-- The machine goes back to a choice point, and gives up the environments that are newer. -/
theorem Arena.length_rewind (hlen : F.frames.length = m.envs) :
    (F.truncate (m.rewind c).envs).frames.length = (m.rewind c).envs := by
  have hle : (m.rewind c).envs ≤ m.envs := Nat.min_le_left _ _
  change (F.frames.take _).length = _
  rw [List.length_take, hlen, Nat.min_eq_left hle]

theorem Arena.Fits.rewind (h : F.Fits top control m.stack) (hm : m.Numbered)
    (hstack : m.stack = c :: rest) :
    (F.truncate (m.rewind c).envs).Fits top .backtrack (c :: rest) := by
  have hbelow := hm.below_stack hstack
  rw [hstack] at h
  exact h.backtrack.truncate (hbelow c List.mem_cons_self).pos hbelow

/-- What the consumer of the last choice point finds. -/
theorem Arena.Fits.reread (h : F.Fits top control m.stack) (hm : m.Numbered)
    (hlen : F.frames.length = m.envs) (hstack : m.stack = c :: rest)
    (hsaves : c.env.Saves top (F.saved d)) :
    (F.reread c d m).Fits top .backtrack (c :: rest) := by
  refine (h.rewind hm hstack).restore (fun y hy => ?_) hsaves
  rw [Arena.length_rewind hlen]
  exact hm.below_stack hstack y hy

/-- A clause that runs in an environment with instructions other than to proceed is not at the
root. -/
theorem Env.Runs.isFrame {p : Term → Prop} {i : Instruction} (h : env.Runs p m (i :: code))
    (hi : i ≠ .proceed) : env.IsFrame := by
  cases env with
  | root =>
    have h : i :: code = [.proceed] := h
    exact absurd (List.cons.inj h).1 hi
  | frame i cl vars caller back commit => exact ⟨i, cl, vars, caller, back, commit, rfl⟩

theorem Arena.Fits.own (h : F.Fits top (.run env code) m.stack) (henv : env.IsFrame) :
    Agreeing env.vars (F.vars env.id) := by
  obtain ⟨i, cl, vars, caller, back, commit, rfl⟩ := henv
  exact (h.control rfl).1 _ .here

theorem Machine.Acts.fits (hacts : m.Acts w.program st n s control control' m' s')
    (hx : Moment.Regular ⟨control, m, s⟩) (hr : Moment.Ready P ⟨control, m, s⟩)
    (hlen : F.frames.length = m.envs) (hF : F.Fits top control m.stack)
    (hS : F.Stores top s.nextId m) :
    (F.step n ⟨control, m, s⟩).Fits top control' m'.stack := by
  have below : ∀ {env : Env} {code : List Instruction}, control = .run env code →
      env.Below F.frames.length := by
    rintro env code rfl
    rw [hlen]
    exact hx.below
  -- what a choice point that is tried finds in the arena
  have retried : ∀ {c : Choice} {rest : List Choice} {goal t : Triple} {a : Alternatives}
      {s1 : Session}, control = .backtrack → m.stack = c :: rest → c.Offers s goal t a s1 →
      (F.step n ⟨control, m, s⟩).Fits top .backtrack (c :: rest) := by
    rintro c rest goal t a s1 rfl hstack hoffers
    rw [Arena.step_retry hstack]
    have hmem : m.Has c := .inl (hstack ▸ List.mem_cons_self)
    rcases Arena.retry_offers (m := m) hoffers F with e | ⟨d, hd, e⟩
    · rw [e]
      exact hF.rewind hx.numbered hstack
    · rw [e]
      exact hF.reread hx.numbered hlen hstack (hS.saves hmem hd)
  cases hacts with
  | @operation env op code g hop =>
    have henv := (hr.control rfl).isFrame (by simp)
    obtain ⟨vars, hstep, hg, hlen, hkeep⟩ := Arena.step_operation (hF.own henv) hop
    rw [hstep]
    obtain ⟨i, cl, vars0, caller, back, commit, rfl⟩ := henv
    obtain ⟨-, K, hgrants, hsuff⟩ := hr.control rfl
    have hslot : ∀ (k : Nat) (t : Term), (vars0[k]?).join = some t → .slot k ∈ K := by
      intro k t ht
      have hval : (vars0[k]?).join.isSome = true := by rw [ht]; rfl
      exact (hgrants.slot k).2 hval
    refine hF.operation ⟨_, _, _, _, _, _, rfl⟩ (below rfl) hslot hsuff.1 hg hlen hkeep ?_ code
    refine ⟨Operation.vars_length hop, fun k t ht => ?_⟩
    have hsame := (Operation.value?_run hop).2 (.slot k) fun hk => hsuff.1.once k hk (hslot k t ht)
    have hval : (g.vars[k]?).join = (vars0[k]?).join := hsame
    rw [hval]
    exact ht
  | operationFails hop =>
    rw [Arena.step_operationFails (hF.own ((hr.control rfl).isFrame (by simp))) hop]
    exact hF.backtrack
  | builtin =>
    have hF' := hF.control rfl
    exact ⟨hF.root, hF.shows, hF.order, fun e => by cases e; exact hF'⟩
  | builtinFails | answer => exact hF.backtrack
  | call hcalls =>
    cases hcalls with
    | search => exact hF.call (below rfl)
    | table => exact (hF.push (below rfl) rfl).backtrack
  | @leave i cl vars caller back code commit =>
    have hleft : F.Fits top (.run caller back) m.stack := hF.leave
    cases commit <;> exact hleft
  | empty hnil =>
    simp only [Arena.step, hnil]
    rw [hnil] at hF
    exact hF
  | spent hstack hspent =>
    rw [Arena.step_retry hstack, Arena.retry_spent hspent]
    exact (hF.rewind hx.numbered hstack).tail
  | @enter c rest cl cls args ground _ hstack halt hopen =>
    rw [Arena.step_retry hstack, Arena.retry_enter rest halt hopen]
    have hroom := Arena.length_rewind (c := c) hlen
    have hkeep := (hF.rewind hx.numbered hstack).keep (a := .clauses cls args ground)
    rw [show (m.popped c rest).envs = _ from hroom.symm]
    refine Arena.Fits.enter hkeep (fun y hy => ?_) rfl
    rw [hroom]
    have hbelow := hx.numbered.below_stack hstack
    rcases List.mem_cons.1 hy with rfl | hy
    · exact hbelow c List.mem_cons_self
    · exact hbelow y (List.mem_cons_of_mem _ hy)
  | stay hstack hoffers => exact (retried rfl hstack hoffers).keep
  | @resume c rest goal t a _ _ _ hstack hoffers =>
    have hbelow : c.env.Below m.envs := hx.numbered.below (.inl (hstack ▸ List.mem_cons_self))
    exact ((retried rfl hstack hoffers).keep (a := a)).resume hbelow
  | @exhausted c rest d goal s1 _ hstack halt hread =>
    have hmem : m.Has c := .inl (hstack ▸ List.mem_cons_self)
    rw [Arena.step_retry hstack, Arena.retry_exhausted halt hread]
    exact (hF.reread hx.numbered hlen hstack (hS.saves hmem ⟨goal, halt⟩)).tail
  | @park c rest d goal s1 _ hstack halt hread =>
    have hmem : m.Has c := .inl (hstack ▸ List.mem_cons_self)
    rw [Arena.step_retry hstack, Arena.retry_pending halt hread]
    exact (hF.reread hx.numbered hlen hstack (hS.saves hmem ⟨goal, halt⟩)).tail.save

/-! ### What is kept -/

/-- The environments that the machine keeps are those of the arena, and all that it runs in or may
go back to are among them. -/
structure Arena.Lodges (control : Control) (m : Machine) (F : Arena) : Prop where
  length : F.frames.length = m.envs
  root : F.Houses .root
  choice : ∀ {c : Choice}, m.Has c → F.Houses c.env
  control : ∀ {env : Env} {code : List Instruction}, control = .run env code → F.Houses env

/-- The environments of the last choice point are there when the machine goes back to it. -/
theorem Arena.Lodges.rewind (h : F.Lodges control m) (hm : m.Numbered)
    (hstack : m.stack = c :: rest) : (F.truncate (m.rewind c).envs).Houses c.env := by
  have hbelow := hm.below_stack hstack c List.mem_cons_self
  refine (h.choice (.inl (hstack ▸ List.mem_cons_self))).of_take hbelow (l := []) ?_
  rw [Arena.heads_truncate, List.append_nil]
  rfl

theorem Arena.Lodges.reread (h : F.Lodges control m) (hm : m.Numbered)
    (hstack : m.stack = c :: rest) : (F.reread c d m).Houses c.env :=
  (h.rewind hm hstack).congr (Arena.heads_restore _)

theorem Arena.heads_step_run {s : Session} (F : Arena) :
    (F.step n ⟨.run env code, m, s⟩).heads = F.heads := by
  unfold Arena.step
  split
  · split
    · exact F.heads_put
    · rfl
  · rfl
  · next h => cases h

theorem Arena.heads_reread (F : Arena) :
    (F.reread c d m).heads = F.heads.take (m.rewind c).envs := by
  rw [Arena.reread, Arena.heads_restore, Arena.heads_truncate]

theorem Arena.heads_offers {goal t : Triple} (h : c.Offers s goal t a s') (F : Arena) :
    (F.retry c m s).heads = F.heads.take (m.rewind c).envs := by
  rcases Arena.retry_offers (m := m) h F with e | ⟨d, -, e⟩
  · rw [e, F.heads_truncate]
  · rw [e, F.heads_reread]

/-- The first environments are kept, and no others are needed. -/
theorem Arena.Lodges.of_take (h : F.Lodges control m) (hx' : Moment.Regular ⟨control', m', s'⟩)
    (hle : m'.envs ≤ m.envs) (hpos : 0 < m'.envs) (hheads : F'.heads = F.heads.take m'.envs)
    (hold : ∀ {c : Choice}, m'.Has c → F.Houses c.env)
    (hrun : ∀ {env : Env} {code : List Instruction}, control' = .run env code → F.Houses env) :
    F'.Lodges control' m' := by
  have hheads' : F'.heads = F.heads.take m'.envs ++ [] := by rw [hheads, List.append_nil]
  refine ⟨?_, h.root.of_take hpos hheads',
    fun hc => (hold hc).of_take (hx'.numbered.below hc) hheads', ?_⟩
  · rw [← Arena.length_heads, hheads, List.length_take, Arena.length_heads, h.length]
    exact Nat.min_eq_left hle
  · rintro env code rfl
    exact (hrun rfl).of_take hx'.below hheads'

/-- A clause is taken up in a new environment, which is the last one. -/
theorem Arena.Lodges.enter {cl : Clause} {args : List Term} {ground : Bool}
    (h : F.Lodges .backtrack m) (hm : m.Numbered) (hstack : m.stack = c :: rest)
    (hheads : F'.heads = F.heads.take (m.popped c rest).envs ++
      [(c.entered (m.popped c rest).envs cl vars ground).activation []]) :
    F'.Lodges (.run (c.entered (m.popped c rest).envs cl vars ground) code)
      (((m.popped c rest).keep c a).entering args) := by
  have hkept := hm.keep hstack (a := a)
  have hbelow := hm.below_stack hstack c List.mem_cons_self
  have hc : F.Houses c.env := h.choice (.inl (hstack ▸ List.mem_cons_self))
  have hlen : (F.heads.take (m.popped c rest).envs).length = (m.popped c rest).envs := by
    have hle : (m.popped c rest).envs ≤ m.envs := Nat.min_le_left _ _
    rw [List.length_take, F.length_heads, h.length]
    exact Nat.min_eq_left hle
  refine ⟨?_, h.root.of_take hbelow.pos hheads, fun {y} hy => ?_, fun e => ?_⟩
  · rw [← Arena.length_heads, hheads, List.length_append, hlen]
    rfl
  · have hy : ((m.popped c rest).keep c a).Has y := hy
    obtain ⟨y', hy', henv⟩ := Machine.has_keep_env hstack hy
    exact (henv ▸ h.choice hy').of_take (hkept.below hy) hheads
  · cases e
    intro e he
    cases he with
    | here =>
      rw [hheads]
      change (_ ++ _)[(m.popped c rest).envs]? = _
      rw [List.getElem?_append_right (by rw [hlen]), hlen, Nat.sub_self]
      rfl
    | outer he => exact hc.of_take hbelow hheads e he

/-- Choice points stand in environments that were there before. -/
theorem Machine.Acts.houses (hacts : m.Acts w.program st n s control control' m' s')
    (h : F.Lodges control m) (hc : m'.Has c) : F.Houses c.env := by
  rcases hacts.has hc with ⟨y, hy, hsame, -⟩ | ⟨env, k, code, rfl, hmakes, -⟩
  · have henv : c.env = y.env := by rw [show c = _ from hsame]
    rw [henv]
    exact h.choice hy
  · rw [hmakes.env]
    exact h.control rfl

/-- Whatever a machine does, the environments that it keeps are those of the arena. -/
theorem Machine.Acts.lodges (hacts : m.Acts w.program st n s control control' m' s')
    (hx : Moment.Regular ⟨control, m, s⟩) (hx' : Moment.Regular ⟨control', m', s'⟩)
    (h : F.Lodges control m) : (F.step n ⟨control, m, s⟩).Lodges control' m' := by
  have hold : ∀ {c : Choice}, m'.Has c → F.Houses c.env := hacts.houses h
  -- code that runs leaves the environments as they are
  have runs : ∀ {env : Env} {code : List Instruction}, control = .run env code →
      m'.envs = m.envs → (∀ {env : Env} {code : List Instruction}, control' = .run env code →
        F.Houses env) → (F.step n ⟨control, m, s⟩).Lodges control' m' := by
    rintro env code rfl henvs hrun
    have hbelow : env.Below m.envs := hx.below
    refine h.of_take hx' henvs.le (henvs ▸ hbelow.pos) ?_ hold hrun
    rw [F.heads_step_run, henvs, List.take_of_length_le]
    rw [F.length_heads, h.length]
  -- those that are newer than a choice point are given up
  have retries : ∀ {c : Choice} {rest : List Choice}, control = .backtrack →
      m.stack = c :: rest → (F.retry c m s).heads = F.heads.take (m.rewind c).envs →
      m'.envs = (m.popped c rest).envs → (∀ {env : Env} {code : List Instruction},
        control' = .run env code → F.Houses env) →
      (F.step n ⟨control, m, s⟩).Lodges control' m' := by
    rintro c rest rfl hstack hheads henvs hrun
    have hle : (m.popped c rest).envs ≤ m.envs := Nat.min_le_left _ _
    have hbelow := hx.numbered.below_stack hstack c List.mem_cons_self
    refine h.of_take hx' (henvs ▸ hle) (henvs ▸ hbelow.pos) ?_ hold hrun
    rw [Arena.step_retry hstack, hheads, henvs]
    rfl
  cases hacts with
  | operation =>
    refine runs rfl rfl fun e => ?_
    cases e
    exact (h.control rfl).setVars
  | builtin =>
    refine runs rfl rfl fun e => ?_
    cases e
    exact h.control rfl
  | operationFails | builtinFails | answer => exact runs rfl rfl fun e => nomatch e
  | call hcalls =>
    refine runs rfl ?_ fun e => nomatch e
    cases hcalls with
    | search => exact Machine.Numbered.envs_pushedClauses _ _ _ _ _
    | table => rfl
  | @leave i cl vars caller back code commit =>
    have henvs : (m.left commit).envs = m.envs := by cases commit <;> rfl
    refine runs rfl henvs fun e => ?_
    cases e
    exact (h.control rfl).caller
  | empty hnil =>
    have hstep : F.step n ⟨.backtrack, m, s⟩ = F := by simp only [Arena.step, hnil]
    rw [hstep]
    exact ⟨h.length, h.root, h.choice, fun e => nomatch e⟩
  | spent hstack hspent =>
    refine retries rfl hstack ?_ rfl fun e => nomatch e
    rw [Arena.retry_spent hspent, F.heads_truncate]
  | stay hstack hoffers => exact retries rfl hstack (F.heads_offers hoffers) rfl fun e => nomatch e
  | resume hstack hoffers =>
    refine retries rfl hstack (F.heads_offers hoffers) rfl fun e => ?_
    cases e
    exact h.choice (.inl (hstack ▸ List.mem_cons_self))
  | exhausted hstack halt hread =>
    refine retries rfl hstack ?_ rfl fun e => nomatch e
    rw [Arena.retry_exhausted halt hread, F.heads_reread]
  | park hstack halt hread =>
    refine retries rfl hstack ?_ rfl fun e => nomatch e
    rw [Arena.retry_pending halt hread, Arena.heads_save, F.heads_reread]
  | @enter c rest cl cls args ground _ hstack halt hopen =>
    refine h.enter hx.numbered hstack ?_
    rw [Arena.step_retry hstack, Arena.retry_enter rest halt hopen, Arena.heads_push,
      Arena.heads_truncate]
    rfl

/-! ### What was put aside -/

theorem Arena.Stores.later {F' : Arena} {k : Nat} (h : F.Stores top n m)
    (hsaved : F'.saved = F.saved) (hle : n ≤ k)
    (hnew : ∀ y d, m'.Has y → y.Consumes d → m.Has y ∨ n ≤ d)
    (hsusp : ∀ {d : Nat} {c : Choice}, m'.suspended[d]? = some c → m.suspended[d]? = some c) :
    F'.Stores top k m' := by
  refine ⟨fun {c d} hc hd => ?_, fun hc => hsaved ▸ h.covers (hsusp hc),
    fun d hd => hsaved ▸ h.fresh d (Nat.le_trans hle hd)⟩
  rw [hsaved]
  rcases hnew c d hc hd with hc | hd
  · exact h.saves hc ‹_›
  · rw [h.fresh d hd]
    exact fun p hp => nomatch hp

theorem Arena.saved_reread (F : Arena) : (F.reread c d m).saved = F.saved :=
  Arena.saved_putAll _ _

theorem Arena.saved_retry (h : ∀ d goal, c.alternatives = .results d goal →
    (s.read d).1 ≠ .pending) (F : Arena) : (F.retry c m s).saved = F.saved := by
  unfold Arena.retry
  split
  · split <;> rfl
  · next d goal halt =>
    split
    · next hread => exact absurd hread (h d goal halt)
    · exact F.saved_reread
  · rfl

theorem Arena.saved_step_run {s : Session} :
    (F.step n ⟨.run env code, m, s⟩).saved = F.saved := by
  unfold Arena.step
  split
  · split <;> rfl
  · rfl
  · next h => cases h

theorem Choice.Offers.not_pending {goal t : Triple} (h : c.Offers s goal t a s') (k : Nat)
    (goal' : Triple) (halt : c.alternatives = .results k goal') : (s.read k).1 ≠ .pending := by
  cases h with
  | fact h | answer h =>
    rw [h] at halt
    cases halt
  | result h hread =>
    rw [h] at halt
    cases halt
    rw [hread]
    intro e
    cases e

/-- A consumer puts aside what it will need. -/
theorem Arena.Stores.park (h : F.Stores top s.nextId m) (hm : m.Assigned s.nextId)
    (hstack : m.stack = c :: rest) (hc : c.Consumes d) (hle : s.nextId ≤ n)
    (hsame : F'.saved = F.saved) (hshows : F'.Shows top c.env)
    (hchain : F'.chainVars c.env.id = c.env.chainVars F'.vars) :
    (F'.save d c.env.id).Stores top n ((m.popped c rest).parked c d) := by
  have hmem : m.Has c := .inl (hstack ▸ List.mem_cons_self)
  have hsaved : ∀ k, (F'.save d c.env.id).saved k =
      if k = d then c.env.chainVars F'.vars else F.saved k := by
    intro k
    rw [← hsame, ← hchain]
    rfl
  refine ⟨fun {y k} hy hk => ?_, fun {y k} hy => ?_, fun k hk => ?_⟩
  · have hold := Machine.has_parked hstack rfl hy
    rw [hsaved]
    split
    · next e =>
      subst e
      obtain rfl := hm.unique hold hk hmem hc
      exact hshows.saves
    · exact h.saves hold hk
  · change (m.suspended.insert d c)[k]? = some y at hy
    rw [Std.TreeMap.getElem?_insert] at hy
    rw [hsaved]
    split at hy
    · next e =>
      obtain rfl := Std.LawfulEqCmp.eq_of_compare e
      cases hy
      rw [if_pos rfl]
      exact Env.covers_chainVars _ _
    · next e =>
      have hne : k ≠ d := by
        rintro rfl
        exact e (Std.ReflCmp.compare_self)
      rw [if_neg hne]
      exact h.covers hy
  · have hne : k ≠ d := by
      rintro rfl
      exact absurd (hm.lt hmem hc) (Nat.not_lt.2 (Nat.le_trans hle hk))
    rw [hsaved, if_neg hne]
    exact h.fresh k (Nat.le_trans hle hk)

theorem Machine.Acts.stores (hacts : m.Acts w.program st n s control control' m' s')
    (hgoes : m.Goes s control control' m' s') (hx : Moment.Regular ⟨control, m, s⟩)
    (hL : F.Lodges control m) (hF : F.Fits top control m.stack) (hS : F.Stores top s.nextId m) :
    (F.step n ⟨control, m, s⟩).Stores top s'.nextId m' := by
  obtain ⟨hle, new, hnew⟩ := hgoes.consumes
  have hnew' : ∀ y d, m'.Has y → y.Consumes d → m.Has y ∨ s.nextId ≤ d :=
    fun y d hy hd => (hnew hy hd).imp_right fun h => h.2.1
  -- all but a consumer that has to wait leave what was put aside as it is
  have retried : ∀ {c : Choice} {rest : List Choice}, control = .backtrack → m.stack = c :: rest →
      (∀ d goal, c.alternatives = .results d goal → (s.read d).1 ≠ .pending) →
      m'.suspended = m.suspended → (F.step n ⟨control, m, s⟩).Stores top s'.nextId m' := by
    rintro c rest rfl hstack hnot hsusp
    rw [Arena.step_retry hstack]
    exact hS.later (F.saved_retry hnot) hle hnew' fun hc => hsusp ▸ hc
  cases hacts with
  | operation | operationFails | builtin | builtinFails | answer =>
    exact hS.later Arena.saved_step_run hle hnew' fun hc => hc
  | @leave _ _ _ _ _ _ commit =>
    refine hS.later Arena.saved_step_run hle hnew' fun hc => ?_
    cases commit <;> exact hc
  | @call env k code m' s' hcalls =>
    refine hS.later Arena.saved_step_run hle hnew' fun hc => ?_
    cases hcalls with
    | search => exact Machine.suspended_called ▸ hc
    | table => exact hc
  | empty hnil =>
    have hstep : F.step n ⟨.backtrack, m, s⟩ = F := by simp only [Arena.step, hnil]
    rw [hstep]
    exact hS.later rfl hle hnew' fun hc => hc
  | spent hstack hspent =>
    refine retried rfl hstack (fun d goal halt => ?_) rfl
    rw [Choice.Spent, halt] at hspent
    exact hspent.elim
  | enter hstack halt =>
    refine retried rfl hstack (fun d goal halt' => ?_) rfl
    rw [halt] at halt'
    cases halt'
  | stay hstack hoffers => exact retried rfl hstack hoffers.not_pending rfl
  | resume hstack hoffers => exact retried rfl hstack hoffers.not_pending rfl
  | exhausted hstack halt hread =>
    refine retried rfl hstack (fun d goal halt' => ?_) rfl
    rw [halt] at halt'
    cases halt'
    rw [hread]
    intro e
    cases e
  | @park c rest d goal s1 _ hstack halt hread =>
    have hmem : m.Has c := .inl (hstack ▸ List.mem_cons_self)
    have hd : c.Consumes d := ⟨goal, halt⟩
    rw [Arena.step_retry hstack, Arena.retry_pending halt hread]
    have hfits := hF.reread hx.numbered hL.length hstack (hS.saves hmem hd)
    refine hS.park hx.assigned hstack hd hle F.saved_reread (hfits.shows c List.mem_cons_self) ?_
    exact (hL.reread hx.numbered hstack).chainVars_eq (hx.numbered.below hmem)

/-! ### Lives -/

/-- The arena has all that the machine needs. -/
structure Arena.Serves (top : List (Option Term)) (x : Moment) (F : Arena) : Prop where
  lodges : F.Lodges x.control x.machine
  fits : F.Fits top x.control x.machine.stack
  stores : F.Stores top x.session.nextId x.machine

/-- A new machine keeps the environment at the root. -/
theorem envs_blank {goal : Triple} {owner : Owner} (h : Machine.blank w goal owner = .ok m) :
    m.envs = 1 := by
  unfold Machine.blank Machine.enterEnv at h
  simp only at h
  split at h
  · cases h
  · cases h
    rfl

/-- The arena of a machine that was not set up yet. -/
def Machine.arena (m : Machine) : Arena := { frames := [{ vars := m.standard.terms.map some }] }

theorem Moment.Fresh.serves (hx : x.Fresh W) :
    x.machine.arena.Serves (x.machine.standard.terms.map some) x := by
  cases hx with
  | @blank w goal owner m s hw hm =>
    obtain ⟨-, -, -, -, hno⟩ := @blank_regular 0 m goal w.program w.settings owner hm
    obtain ⟨-, -, hstack, -⟩ := @blank_eq w.program w.settings _ _ _ hm
    refine ⟨⟨(envs_blank hm).symm, fun e he => ?_, fun hc => absurd hc (hno _),
      fun e => nomatch e⟩, ⟨.refl _, fun c hc => absurd (.inl hc) (hno c), ?_, fun e => nomatch e⟩,
      ⟨fun hc => absurd hc (hno _), fun hc => absurd (.inr ⟨_, hc⟩) (hno _), fun _ _ => rfl⟩⟩
    · cases he
      rfl
    · rw [show Moment.machine _ = m from rfl, hstack]
      exact .nil

/-- The choice points of a machine that is set up stand at the root. -/
theorem Arena.Serves.setUp {goal : Triple} {owner : Owner}
    (h : F.Serves top ⟨.backtrack, m, s⟩) (hm : Machine.blank w goal owner = .ok m)
    (hle : s.nextId ≤ s'.nextId) (hset : m.SetUp s.nextId m') :
    F.Serves top ⟨.backtrack, m', s'⟩ := by
  obtain ⟨-, hbelow, -, -, hno⟩ := @blank_regular 0 m goal w.program w.settings owner hm
  obtain ⟨-, -, hstack, -⟩ := @blank_eq w.program w.settings _ _ _ hm
  have hfits : F.Fits top (.run .root [.proceed]) m.stack := by
    refine ⟨h.fits.root, h.fits.shows, h.fits.order, fun e => ?_⟩
    cases e
    rw [hstack]
    refine ⟨fun e he => ?_, fun c hc => nomatch hc⟩
    cases he
    exact h.fits.root
  refine ⟨⟨h.lodges.length.trans ?_, h.lodges.root, fun hc => ?_, fun e => nomatch e⟩, ?_,
    h.stores.later rfl hle (fun y d hy hd => (hset.has hy).imp_right fun hnew => hnew.2 d hd)
      fun hc => hset.suspended ▸ hc⟩
  · obtain ⟨cls, ground, a, rfl, -⟩ := hset
    exact (Machine.Numbered.envs_pushedClauses _ _ _ _ _).symm
  · rcases hset.has hc with hc | ⟨henv, -⟩
    · exact h.lodges.choice hc
    · rw [henv]
      exact h.lodges.root
  · obtain ⟨cls, ground, a, rfl, -⟩ := hset
    exact hfits.call hbelow

/-- The arena has all that a consumer needs which comes back. -/
theorem Arena.Serves.comeBack (h : F.Serves top ⟨.backtrack, m, s⟩)
    (hx : Moment.Regular ⟨.backtrack, m, s⟩) (hstack : m.stack = [])
    (hc : m.suspended[d]? = some c) (hid : s'.nextId = s.nextId) :
    ((F.truncate m.discard.envs).restore d).Serves top ⟨.backtrack, m.restored d c, s'⟩ := by
  have hmem : m.Has c := .inr ⟨d, hc⟩
  have hnumbered := hx.numbered.restored hstack hc
  -- all that wait are pinned, and so are their environments
  have hbelow : ∀ {y : Choice}, (m.restored d c).Has y → y.env.Below m.discard.envs :=
    fun hy => hnumbered.below hy
  have hc' : c.env.Below m.discard.envs := hbelow (.inl List.mem_cons_self)
  have hheads : ((F.truncate m.discard.envs).restore d).heads =
      F.heads.take m.discard.envs ++ [] := by
    rw [Arena.heads_restore, Arena.heads_truncate, List.append_nil]
  have hlen : (F.truncate m.discard.envs).frames.length = m.discard.envs := by
    have hle : m.discard.envs ≤ m.envs := Nat.min_le_left _ _
    change (F.frames.take _).length = _
    rw [List.length_take, h.lodges.length]
    exact Nat.min_eq_left hle
  refine ⟨⟨(Arena.length_putAll _ _).trans hlen, h.lodges.root.of_take hc'.pos hheads,
    fun hy => (h.lodges.choice (Machine.has_restored hc hy)).of_take (hbelow hy) hheads,
    fun e => nomatch e⟩, ?_, ?_⟩
  · have hfits : F.Fits top .backtrack [] := by
      have := h.fits
      rwa [show Moment.machine _ = m from rfl, hstack] at this
    have hroom : c.env.Below (F.truncate m.discard.envs).frames.length := by rwa [hlen]
    exact (hfits.truncate hc'.pos fun y hy => nomatch hy).comeBack hroom
      (h.stores.saves hmem (hx.assigned.suspended hc)) (h.stores.covers hc)
  · exact h.stores.later (Arena.saved_restore _ _) hid.ge
      (fun y _ hy _ => .inl (Machine.has_restored hc hy)) fun hy => (Machine.suspended_restored hy).2

/-- Whatever happens, the arena has all that the machine needs. -/
theorem Moment.Passes.serves (h' : x.Passes P.Governs ok h x') (hx : x.Regular)
    (hr : x.Ready P) (hF : F.Serves top x) : (F.after h x).Serves top x' := by
  cases h' with
  | setUp hw h0 hm => exact hF.setUp h0 (Nat.le_refl _) (Machine.setUp_start h0 hm _)
  | setUpQuery hw h0 hm =>
    obtain ⟨hle, hset⟩ := Machine.setUp_startQuery h0 hm
    exact hF.setUp h0 hle hset
  | @step w n control control' m m' s s' p hw hstep hp =>
    have hacts : m.Acts w.program w.settings n s control control' m' s' := acts_of_step hstep hp
    have hx' : Moment.Regular ⟨control', m', s'⟩ := Moment.Next.regular (.step hstep hp) hx
    exact ⟨hacts.lodges hx hx' hF.lodges, hacts.fits hx hr hF.lodges.length hF.fits hF.stores,
      hacts.stores (step_goes hstep hp) hx hF.lodges hF.fits hF.stores⟩
  | @restore d m m' s s' hrestore =>
    obtain ⟨c, hstack, hc, ⟨_, _, rfl⟩, rfl⟩ := restore_eq hrestore
    exact hF.comeBack hx hstack hc rfl
  | others hle =>
    exact ⟨hF.lodges, hF.fits, hF.stores.later rfl hle (fun _ _ hy _ => .inl hy) fun hc => hc⟩

end

end TabledRules
