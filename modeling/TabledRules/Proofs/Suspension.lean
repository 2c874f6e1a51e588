-- Suspension is transparent. A consumer that is brought back goes on from where
-- it stopped: with the bindings and the trail of that moment, and in the
-- environments of that moment, whatever was done meanwhile to the variables and
-- to the environments, which are shared with others that have waited.
import TabledRules.Proofs.Backtracking

namespace TabledRules

open Bindings

/-! ## Consumers that are put aside and come back -/

namespace Scene

/-- The consumer has read its table in vain and is put aside, with its choice point. -/
structure Suspends (P : Program) (d : Nat) (c : Choice) (x x' : Scene) : Prop where
  passes : x.Passes P x'
  runs : x.machine.suspended[d]? = none
  waits : x'.machine.suspended[d]? = some c

/-- The consumer is brought back. -/
structure BringsBack (P : Program) (d : Nat) (x x' : Scene) : Prop where
  passes : x.moment.Passes P.Governs (fun _ => True) (.restore d) x'.moment
  arena : x'.arena = x.arena.after (.restore d) x.moment

/-- The machine is about to go back to the choice point. -/
def Retries (c : Choice) (x : Scene) : Prop :=
  x.moment.control = .backtrack ∧ x.machine.stack.head? = some c

/-- When the machine of `z` goes back to the choice point of the consumer, it has what it had when
the consumer was put aside at `x`. -/
structure Resumes (c : Choice) (x z : Scene) : Prop where
  /-- It goes back by unwinding the trail to the mark and giving up variables. -/
  unwound : ((z.machine.bindings.unwind c.bindings.mark).reclaim
    (max c.bindings.size z.machine.pinned.vars)).Alike (z.machine.rewind c).bindings
  trail : (z.machine.rewind c).bindings.trail = x.machine.bindings.trail
  value : ∀ v < x.machine.bindings.size,
    (z.machine.rewind c).bindings.value? v = x.machine.bindings.value? v
  unbound : ∀ v, x.machine.bindings.size ≤ v → (z.machine.rewind c).bindings.value? v = none
  /-- With the step that goes back to it, the environments from its own to the root become those
  of then: their clauses, their callers, where to go on there, and their permanent variables. -/
  chain : ∀ n, (z.arena.step n z.moment).chain c.env.id = x.arena.chain c.env.id

end Scene

section

variable {P : Program} {W : World → Prop} {ok : Session → Prop} {w : World} {st : Settings}
  {h : Happening} {x x' : Moment} {x0 a a' b b' z : Scene} {m m' : Machine} {s s' : Session}
  {control control' : Control} {c y : Choice} {n d : Nat} {F : Arena} {goal : Triple}
  {v : Nat → List (Option Term)}

/-! ### The choice point of a consumer -/

/-- A choice point of a consumer stays the only one of that consumer. -/
theorem Moment.Passes.consumes (h' : x.Passes W ok h x') (hd : d < x.session.nextId)
    (hx : ∀ y, x.machine.Has y → y.Consumes d → y = c) :
    d < x'.session.nextId ∧ ∀ y, x'.machine.Has y → y.Consumes d → y = c := by
  -- the choice points with which a machine is set up are of new consumers, if of any
  have old : ∀ {m m' : Machine} {new : Nat}, m.SetUp new m' → d < new →
      (∀ y, m.Has y → y.Consumes d → y = c) → ∀ y, m'.Has y → y.Consumes d → y = c := by
    intro m m' new hset hlt hm y hy hyd
    rcases hset.has hy with hy | ⟨-, hnew⟩
    · exact hm y hy hyd
    · exact absurd hlt (Nat.not_lt.2 (hnew d hyd))
  cases h' with
  | setUp hw h0 hm => exact ⟨hd, old (Machine.setUp_start h0 hm _) hd hx⟩
  | setUpQuery hw h0 hm =>
    obtain ⟨hle, hset⟩ := Machine.setUp_startQuery h0 hm
    exact ⟨Nat.lt_of_lt_of_le hd hle, old hset hd hx⟩
  | step _ hstep hp =>
    obtain ⟨hle, new, hnew⟩ := (step_goes hstep hp).consumes
    refine ⟨Nat.lt_of_lt_of_le hd hle, fun y hy hyd => ?_⟩
    rcases hnew hy hyd with hold | ⟨-, hge, -⟩
    · exact hx y hold hyd
    · exact absurd hd (Nat.not_lt.2 hge)
  | restore hrestore =>
    obtain ⟨c, -, hc, ⟨_, _, rfl⟩, rfl⟩ := restore_eq hrestore
    exact ⟨hd, fun y hy => hx y (Machine.has_restored hc hy)⟩
  | others hle => exact ⟨Nat.lt_of_lt_of_le hd hle, hx⟩

/-- Only a consumer that has to wait is put aside. -/
theorem Machine.Acts.suspends (hacts : m.Acts w.program st n s control control' m' s')
    (hruns : m.suspended[d]? = none) (hwaits : m'.suspended[d]? = some c) :
    control = .backtrack ∧ ∃ (rest : List Choice) (goal : Triple) (s1 : Session),
      m.stack = c :: rest ∧ c.alternatives = .results d goal ∧ s.read d = (.pending, s1) ∧
      m' = (m.popped c rest).parked c d := by
  have old : m'.suspended = m.suspended → False := by
    intro e
    rw [e, hruns] at hwaits
    cases hwaits
  cases hacts with
  | @park y rest k goal s1 _ hstack halt hread =>
    change (m.suspended.insert k y)[d]? = some c at hwaits
    rw [Std.TreeMap.getElem?_insert] at hwaits
    split at hwaits
    · next e =>
      obtain rfl := Std.LawfulEqCmp.eq_of_compare e
      cases hwaits
      exact ⟨rfl, rest, goal, s1, hstack, halt, hread, rfl⟩
    · rw [hruns] at hwaits
      cases hwaits
  | call hcalls =>
    cases hcalls with
    | search => exact (old Machine.suspended_called).elim
    | table => exact (old rfl).elim
  | @leave _ _ _ _ _ _ commit => cases commit <;> exact (old rfl).elim
  | _ => exact (old rfl).elim

/-- When a consumer is put aside, the machine has gone back to its choice point, and what the
consumer finds in the arena is put aside with it. -/
theorem Scene.Suspends.parked (hs : a.Suspends P d c b) : ∃ rest,
    a.moment.control = .backtrack ∧ a.machine.stack = c :: rest ∧ c.Consumes d ∧
    b.machine = (a.machine.popped c rest).parked c d ∧
    b.arena = (a.arena.reread c d a.machine).save d c.env.id := by
  obtain ⟨⟨h, hpasses, harena⟩, hruns, hwaits⟩ := hs
  obtain ⟨x, F⟩ := a
  obtain ⟨x', F'⟩ := b
  have old : ∀ {m : Machine}, m.suspended[d]? = none → m.suspended[d]? ≠ some c := by
    intro m hm hc
    rw [hm] at hc
    cases hc
  cases hpasses with
  | setUp _ h0 hm =>
    have hsame := (Machine.setUp_start h0 hm 0).suspended
    exact absurd (hsame ▸ hwaits) (old hruns)
  | setUpQuery _ h0 hm =>
    have hsame := (Machine.setUp_startQuery h0 hm).2.suspended
    exact absurd (hsame ▸ hwaits) (old hruns)
  | @step w n control control' m m' s s' p hw hstep hp =>
    have hacts : m.Acts w.program w.settings n s control control' m' s' := acts_of_step hstep hp
    obtain ⟨rfl, rest, goal, s1, hstack, halt, hread, rfl⟩ := hacts.suspends hruns hwaits
    have hretry : F.step n ⟨.backtrack, m, s⟩ = F.retry c m s := Arena.step_retry hstack
    exact ⟨rest, rfl, hstack, ⟨goal, halt⟩, rfl,
      harena.trans (hretry.trans (F.retry_pending halt hread))⟩
  | restore hrestore =>
    obtain ⟨y, -, -, -, rfl⟩ := restore_eq hrestore
    exact absurd (Machine.suspended_restored hwaits).2 (old hruns)
  | others => exact absurd hwaits (old hruns)

/-! ### What was put aside stays -/

/-- A step puts nothing aside for a consumer, or what the consumer finds. -/
theorem Arena.saved_step (F : Arena) (x : Moment) (d : Nat) : (F.step n x).saved d = F.saved d ∨
    ∃ c rest, x.machine.stack = c :: rest ∧ c.Consumes d ∧
      (F.step n x).saved d = (F.reread c d x.machine).chainVars c.env.id := by
  obtain ⟨control, m, s⟩ := x
  cases control with
  | run env code => exact .inl (congrFun Arena.saved_step_run d)
  | backtrack =>
    cases hstack : m.stack with
    | nil =>
      refine .inl ?_
      simp only [Arena.step, hstack]
    | cons c rest =>
      rw [Arena.step_retry hstack]
      by_cases hpending : ∃ k goal, c.alternatives = .results k goal ∧ (s.read k).1 = .pending
      · obtain ⟨k, goal, halt, hread⟩ := hpending
        rw [F.retry_pending halt (Prod.ext hread rfl)]
        by_cases e : d = k
        · subst e
          exact .inr ⟨c, rest, rfl, ⟨goal, halt⟩, if_pos rfl⟩
        · refine .inl ((if_neg e).trans ?_)
          rw [F.saved_reread]
      · refine .inl (congrFun (F.saved_retry fun k goal halt hread => ?_) d)
        exact hpending ⟨k, goal, halt, hread⟩

/-- What a consumer finds is what it has put aside. -/
theorem Scene.Sound.chain_reread {rest : List Choice} (ha : a.Sound P goal)
    (hstack : a.machine.stack = c :: rest) (hsaved : a.arena.saved d = c.env.chainVars v) :
    (a.arena.reread c d a.machine).chain c.env.id = c.env.chain v := by
  have hnumbered := ha.regular.numbered
  have hhouses := ha.serves.lodges.rewind hnumbered hstack
  exact hhouses.chain_restore (hnumbered.below (.inl (hstack ▸ List.mem_cons_self))) hsaved

/-- Whatever happens, also when the consumer has to wait again, what it has put aside is the
same. -/
theorem Scene.Passes.saved (h : a.Passes P b) (ha : a.Sound P goal)
    (hone : ∀ y, a.machine.Has y → y.Consumes d → y = c)
    (hsaved : a.arena.saved d = c.env.chainVars v) : b.arena.saved d = c.env.chainVars v := by
  obtain ⟨k, hpasses, harena⟩ := h
  rw [harena]
  cases k with
  | setUp => exact hsaved
  | others => exact hsaved
  | restore d => exact (congrFun (Arena.saved_restore _ _) _).trans hsaved
  | step n =>
    rcases a.arena.saved_step (n := n) a.moment d with hsame | ⟨y, rest, hstack, hyd, hnew⟩
    · exact hsame.trans hsaved
    · obtain rfl := hone y (.inl (hstack ▸ List.mem_cons_self)) hyd
      refine hnew.trans ?_
      rw [Arena.chainVars, ha.chain_reread hstack hsaved]
      rfl

theorem Scene.Reaches.saved (hP : P.Compiled) (h : a.Reaches P b) (ha : a.Sound P goal)
    (hd : d < a.moment.session.nextId) (hone : ∀ y, a.machine.Has y → y.Consumes d → y = c)
    (hsaved : a.arena.saved d = c.env.chainVars v) :
    (∀ y, b.machine.Has y → y.Consumes d → y = c) ∧ b.arena.saved d = c.env.chainVars v := by
  suffices hb : d < b.moment.session.nextId ∧ (∀ y, b.machine.Has y → y.Consumes d → y = c) ∧
      b.arena.saved d = c.env.chainVars v from hb.2
  induction h with
  | refl => exact ⟨hd, hone, hsaved⟩
  | @tail b b' hreach hpasses ih =>
    obtain ⟨hlt, hone', hsaved'⟩ := ih
    have hsound := Reaches.sound hP hreach ha
    have hsaved'' := Passes.saved hpasses hsound hone' hsaved'
    obtain ⟨k, hk, -⟩ := hpasses
    obtain ⟨hlt', hone''⟩ := hk.consumes hlt hone'
    exact ⟨hlt', hone'', hsaved''⟩

/-! ### What a consumer comes back to -/

/-- The snapshot of a trail, bound again where all bindings were undone, gives the bindings of a
consumer that comes back. -/
theorem Machine.Tracked.replayed (h : m.Tracked) (hc : m.suspended[d]? = some c) :
    (((m.bindings.unwind 0).reclaim m.pinned.vars).restore c.bindings.snapshot).Alike
      (m.restored d c).bindings := by
  have hsize : ((m.bindings.unwind 0).reclaim m.pinned.vars).size = m.pinned.vars := by
    change min (m.bindings.unwind 0).size m.pinned.vars = _
    rw [size_unwind]
    exact Nat.min_eq_right h.pinned_le
  have hcleared : ((m.bindings.unwind 0).reclaim m.pinned.vars).Trailed := by
    obtain ⟨htrail, hnone⟩ := h.trailed.unwind_all
    refine .of_unbound htrail fun v => ?_
    rw [value?_reclaim, hnone]
    split <;> rfl
  have hreplay := (h.choice (.inr ⟨d, hc⟩)).restore hcleared
    (by rw [hsize]; exact h.suspended_le hc)
  rw [hsize] at hreplay
  change Alike _ (c.bindings.grow m.discard.pinnedVars)
  rw [h.discard_pinnedVars]
  exact hreplay

theorem Scene.BringsBack.restored (h : b.BringsBack P d b') : ∃ c,
    b.machine.suspended[d]? = some c ∧ b'.moment.control = .backtrack ∧
    b'.machine = b.machine.restored d c := by
  obtain ⟨hpasses, -⟩ := h
  obtain ⟨x, F⟩ := b
  obtain ⟨x', F'⟩ := b'
  cases hpasses with
  | restore hrestore =>
    obtain ⟨c, -, hc, -, rfl⟩ := restore_eq hrestore
    exact ⟨c, hc, rfl, rfl⟩

/-- A consumer that has put its chain aside finds it again, whether there is something to read or
not. -/
theorem Scene.Sound.chain_step {rest : List Choice} (hz : z.Sound P goal) (hcd : c.Consumes d)
    (hcontrol : z.moment.control = .backtrack) (hstack : z.machine.stack = c :: rest)
    (hsaved : z.arena.saved d = c.env.chainVars v) (n : Nat) :
    (z.arena.step n z.moment).chain c.env.id = c.env.chain v := by
  have hstep : z.arena.step n z.moment = z.arena.retry c z.machine z.moment.session := by
    have := @Arena.step_retry z.machine c rest n z.arena z.moment.session hstack
    rwa [← hcontrol] at this
  obtain ⟨goal', halt⟩ := hcd
  rw [hstep, ← hz.chain_reread hstack hsaved, Arena.retry]
  simp only [halt]
  split
  · exact Arena.chain_save _ _ _ _
  · rfl

/-- Suspension is transparent. When a consumer that was put aside is brought back, its choice
point is the only one to go back to, and its bindings are those that the snapshot of the trail gives
when it is replayed after all others were undone. Whenever the machine goes back to the choice
point then, which is the next thing that it does, the trail, all bindings and the whole chain of
environments are those with which the consumer was put aside, whatever was done between. -/
theorem suspension_transparent (hP : P.Compiled) (hx0 : x0.Begins P) (hbefore : x0.Reaches P a)
    (hsuspends : a.Suspends P d c a') (hmeanwhile : a'.Reaches P b)
    (hback : b.BringsBack P d b') :
    a'.arena.chain c.env.id = c.env.chain a'.arena.vars ∧
    b'.moment.control = .backtrack ∧ b'.machine.stack = [c] ∧ c.Consumes d ∧
    (((b.machine.bindings.unwind 0).reclaim b.machine.pinned.vars).restore
      a'.machine.bindings.snapshot).Alike b'.machine.bindings ∧
    ∀ z, b'.Reaches P z → z.Retries c → Scene.Resumes c a' z := by
  have hsound := hbefore.sound hP hx0.sound
  obtain ⟨rest, -, hstack, hcd, hmachine, harena⟩ := hsuspends.parked
  have hsound' := hsuspends.passes.sound hP hsound
  have hc : a'.machine.Has c := .inr ⟨d, hsuspends.waits⟩
  have htrailed : c.bindings.Trailed := hsound'.regular.tracked.choice hc
  have hbindings : a'.machine.bindings = c.bindings.grow a.machine.pinnedVars := by
    rw [hmachine]
    rfl
  have hchain : a'.arena.chain c.env.id = c.env.chain a'.arena.vars :=
    (hsound'.serves.lodges.choice hc).chain_eq (hsound'.regular.numbered.below hc)
  have hsaved : a'.arena.saved d = c.env.chainVars a'.arena.vars := by
    have hnew : a'.arena.saved d = (a.arena.reread c d a.machine).chainVars c.env.id := by
      rw [harena]
      exact if_pos rfl
    have hsame : a'.arena.chainVars c.env.id = (a.arena.reread c d a.machine).chainVars c.env.id := by
      rw [harena, Arena.chainVars, Arena.chain_save]
      rfl
    rw [hnew, ← hsame, Arena.chainVars, hchain]
    rfl
  -- from now on it is the only choice point of the consumer, and what was put aside stays
  have hkept : ∀ {z}, a'.Reaches P z → (∀ y, z.machine.Has y → y.Consumes d → y = c) ∧
      z.arena.saved d = c.env.chainVars a'.arena.vars := fun hz =>
    hz.saved hP hsound' (hsound'.regular.assigned.lt hc hcd)
      (fun y hy hyd => hsound'.regular.assigned.unique hy hyd hc hcd) hsaved
  have hsoundb := hmeanwhile.sound hP hsound'
  obtain ⟨c', hc', hcontrol, hrestored⟩ := hback.restored
  obtain rfl : c' = c :=
    (hkept hmeanwhile).1 c' (.inr ⟨d, hc'⟩) (hsoundb.regular.assigned.suspended hc')
  have hreach : a'.Reaches P b' := hmeanwhile.tail ⟨_, hback.passes, hback.arena⟩
  refine ⟨hchain, hcontrol, by rw [hrestored]; rfl, hcd, ?_, fun z hz hretries => ?_⟩
  · have hsnapshot : a'.machine.bindings.snapshot = c'.bindings.snapshot := by
      rw [hbindings]
      rfl
    rw [hsnapshot, hrestored]
    exact hsoundb.regular.tracked.replayed hc'
  · obtain ⟨hcontrolz, hhead⟩ := hretries
    obtain ⟨rest, hstack⟩ := List.head?_eq_some_iff.1 hhead
    have hsoundz := Scene.Reaches.sound hP (hreach.trans hz) hsound'
    refine ⟨hsoundz.regular.tracked.rewind (hstack ▸ List.mem_cons_self), ?_, fun v _ => ?_,
      fun v hv => ?_, fun n => ?_⟩
    · rw [hbindings]
      rfl
    · rw [hbindings]
      rfl
    · rw [hbindings] at hv
      exact htrailed.value?_of_le (Nat.le_trans (Nat.le_max_left _ _) hv)
    · rw [hsoundz.chain_step hcd hcontrolz hstack (hkept (hreach.trans hz)).2, hchain]

end

/-! ## A consumer that shares its environment with another one -/

namespace Forks

open Roads (uri road)

/-- Roads lead on from where roads lead from their ends. -/
def rules : RuleSet :=
  { rules :=
      [⟨"far", ⟨.var "x", uri "leads", .var "z"⟩,
        [.triple ⟨.var "x", uri "road", .var "y"⟩, .triple ⟨.var "y", uri "leads", .var "w"⟩,
          .triple ⟨.var "w", uri "road", .var "z"⟩]⟩]
    tabled := [uri "leads"] }

/-- The road from `a` forks. -/
def graph : Graph := .ofTriples [road "a" "b", road "a" "c"]

def base : RuleBase :=
  (rules.compile Builtin.standard).toOption.getD { clauses := {}, layout := rules.layout }

theorem compile_rules : rules.compile Builtin.standard = .ok base :=
  eq_ok_getD (by decide +kernel) _

def program : Program := ⟨Builtin.standard, base, graph.toStore⟩

def world : World := ⟨graph.toStore, base, {}⟩

def pattern : Triple := ⟨uri "a", uri "leads", .var "z"⟩

/-- The machine that is to fill the table of where roads lead from `a`. -/
def blank : Machine := ((Machine.blank world pattern (.generator 1)).toOption).getD default

theorem blank_ok : Machine.blank world pattern (.generator 1) = .ok blank :=
  eq_ok_getD (by decide +kernel) _

/-- The machine when it is set up. -/
def filler : Machine := ((Machine.start world pattern (.generator 1)).toOption).getD default

theorem start_filler : Machine.start world pattern (.generator 1) = .ok filler :=
  eq_ok_getD (by decide +kernel) _

/-- The tables with that table. -/
def filling : Session := (({} : Session).generatorFor world pattern).2

/-- What becomes of a scene in `k` steps, if none of them fails. -/
def after : Nat → Scene → Option Scene
  | 0, x => some x
  | k + 1, x =>
    match x.machine.step world 30 x.moment.control x.moment.session with
    | (p, m, s) =>
      p.next?.bind fun control => after k ⟨⟨control, m, s⟩, x.arena.step 30 x.moment⟩

def broughtBack (d : Nat) (x : Scene) : Option Scene :=
  match x.moment.control, x.machine.restore d x.moment.session with
  | .backtrack, (.ok (), m, s) => some ⟨⟨.backtrack, m, s⟩, x.arena.after (.restore d) x.moment⟩
  | _, _ => none

theorem reaches_of_after {k : Nat} {x x' : Scene} (h : after k x = some x') :
    x.Reaches program x' := by
  induction k generalizing x with
  | zero =>
    cases h
    exact .refl
  | succ k ih =>
    obtain ⟨⟨control, m, s⟩, F⟩ := x
    rcases hstep : m.step world 30 control s with ⟨p, m', s'⟩
    simp only [after, hstep] at h
    obtain ⟨control', hp, h⟩ := Option.bind_eq_some_iff.1 h
    exact .head ⟨.step 30, .step (w := world) rfl hstep hp, rfl⟩ (ih h)

theorem passes_of_after {x x' : Scene} (h : after 1 x = some x') : x.Passes program x' := by
  obtain ⟨⟨control, m, s⟩, F⟩ := x
  rcases hstep : m.step world 30 control s with ⟨p, m', s'⟩
  simp only [after, hstep] at h
  obtain ⟨control', hp, h⟩ := Option.bind_eq_some_iff.1 h
  cases h
  exact ⟨.step 30, .step (w := world) rfl hstep hp, rfl⟩

theorem bringsBack_of_broughtBack {d : Nat} {x x' : Scene} (h : broughtBack d x = some x') :
    x.BringsBack program d x' := by
  obtain ⟨⟨control, m, s⟩, F⟩ := x
  rcases hrestore : m.restore d s with ⟨e | u, m', s'⟩
  · cases control <;> simp [broughtBack, hrestore] at h
  · cases control with
    | run env code => simp [broughtBack] at h
    | backtrack =>
      simp only [broughtBack, hrestore, Option.some.injEq] at h
      subst h
      exact ⟨.restore hrestore, rfl⟩

/-- The consumer 3 has to wait for where roads lead from `b`. Then the consumer 5 has to wait for
where they lead from `c`, in the same environment, and it comes back and has to wait again. -/
theorem forks : ∃ a a' b0 b1 b b' c,
    after 12 ⟨⟨.backtrack, filler, filling⟩, blank.arena⟩ = some a ∧ after 1 a = some a' ∧
    after 8 a' = some b0 ∧ broughtBack 5 b0 = some b1 ∧ after 1 b1 = some b ∧
    broughtBack 3 b = some b' ∧ a.machine.suspended[3]? = none ∧
    a'.machine.suspended[3]? = some c ∧ c.env.name = "far" ∧
    a'.machine.bindings.trail = [1] ∧
    b.machine.bindings.value? 1 ≠ a'.machine.bindings.value? 1 ∧
    b.arena.vars c.env.id ≠ a'.arena.vars c.env.id := by
  have h : ((after 12 ⟨⟨.backtrack, filler, filling⟩, blank.arena⟩).bind fun a =>
      (after 1 a).bind fun a' => (after 8 a').bind fun b0 => (broughtBack 5 b0).bind fun b1 =>
      (after 1 b1).bind fun b => (broughtBack 3 b).map fun _ =>
        (a.machine.suspended[3]?.isNone, a'.machine.suspended[3]?.map fun c =>
          (c.env.name, decide (a'.machine.bindings.trail = [1]),
            decide (b.machine.bindings.value? 1 ≠ a'.machine.bindings.value? 1),
            decide (b.arena.vars c.env.id ≠ a'.arena.vars c.env.id)))) =
      some (true, some ("far", true, true, true)) := by
    decide +kernel
  obtain ⟨a, ha, h⟩ := Option.bind_eq_some_iff.1 h
  obtain ⟨a', ha', h⟩ := Option.bind_eq_some_iff.1 h
  obtain ⟨b0, hb0, h⟩ := Option.bind_eq_some_iff.1 h
  obtain ⟨b1, hb1, h⟩ := Option.bind_eq_some_iff.1 h
  obtain ⟨b, hb, h⟩ := Option.bind_eq_some_iff.1 h
  obtain ⟨b', hb', h⟩ := Option.map_eq_some_iff.1 h
  obtain ⟨hruns, h⟩ := Prod.mk.inj h
  obtain ⟨c, hc, h⟩ := Option.map_eq_some_iff.1 h
  simp only [Prod.mk.injEq, decide_eq_true_eq] at h
  exact ⟨a, a', b0, b1, b, b', c, ha, ha', hb0, hb1, hb, hb', Option.isNone_iff_eq_none.1 hruns,
    hc, h⟩

end Forks

open Forks in
/-- The consumer finds the variable of its own table in the shared environment, in place of that of
the other table. -/
theorem suspension_transparent_forks : ∃ (x0 a a' b b' : Scene) (c : Choice),
    program.Compiled ∧ x0.Begins program ∧ x0.Reaches program a ∧ a.Suspends program 3 c a' ∧
    a'.Reaches program b ∧ b.BringsBack program 3 b' ∧ c.env.name = "far" ∧
    a'.machine.bindings.trail = [1] ∧
    b.machine.bindings.value? 1 ≠ a'.machine.bindings.value? 1 ∧
    b.arena.vars c.env.id ≠ a'.arena.vars c.env.id ∧ b'.Retries c ∧ Scene.Resumes c a' b' := by
  have hP : program.Compiled := compiled_of_compile compile_rules _
  have hw : program.Governs world := rfl
  obtain ⟨a, a', b0, b1, b, b', c, ha, ha', hb0, hb1, hb, hb', hruns, hwaits, hrest⟩ := forks
  have hbegins : Scene.Begins program ⟨⟨.backtrack, blank, filling⟩, blank.arena⟩ :=
    ⟨.blank _ hw blank_ok, rfl⟩
  have hsetUp : Scene.Passes program ⟨⟨.backtrack, blank, filling⟩, blank.arena⟩
      ⟨⟨.backtrack, filler, filling⟩, blank.arena⟩ := ⟨.setUp, .setUp hw blank_ok start_filler, rfl⟩
  have hbefore := Relation.ReflTransGen.head hsetUp (reaches_of_after ha)
  have hsuspends : a.Suspends program 3 c a' := ⟨passes_of_after ha', hruns, hwaits⟩
  have hback : b0.BringsBack program 5 b1 := bringsBack_of_broughtBack hb1
  have hmeanwhile : a'.Reaches program b :=
    ((reaches_of_after hb0).tail ⟨_, hback.passes, hback.arena⟩).trans (reaches_of_after hb)
  have hback := bringsBack_of_broughtBack hb'
  obtain ⟨-, hcontrol, hstack, -, -, hresumes⟩ :=
    suspension_transparent hP hbegins hbefore hsuspends hmeanwhile hback
  have hretries : b'.Retries c := ⟨hcontrol, by rw [hstack]; rfl⟩
  obtain ⟨hname, htrail, hvalue, hother⟩ := hrest
  exact ⟨_, a, a', b, b', c, hP, hbegins, hbefore, hsuspends, hmeanwhile, hback, hname, htrail,
    hvalue, hother, hretries, hresumes b' .refl hretries⟩

end TabledRules
