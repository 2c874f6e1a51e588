-- Backtracking is exact. Whenever a machine goes back to a choice point it has
-- the bindings and the trail with which it made the choice point, and those
-- permanent variables that the code after it may still read.
import TabledRules.Proofs.SharedFrames

namespace TabledRules

open Bindings Register
open Operation (Agreeing)

/-! ## Scenes -/

/-- A machine in the middle of its work, with the permanent variables of its environments. -/
structure Scene where
  moment : Moment
  arena : Arena

namespace Scene

abbrev machine (x : Scene) : Machine := x.moment.machine

/-- Something happens to the machine, and it does not fail. -/
def Passes (P : Program) (x x' : Scene) : Prop :=
  ∃ h, x.moment.Passes P.Governs (fun _ => True) h x'.moment ∧ x'.arena = x.arena.after h x.moment

/-- The machine was not set up yet. -/
structure Begins (P : Program) (x : Scene) : Prop where
  fresh : x.moment.Fresh P.Governs
  arena : x.arena = x.machine.arena

/-- A part of a life without failures. -/
def Reaches (P : Program) : Scene → Scene → Prop := Relation.ReflTransGen (Passes P)

/-- The machine makes the choice point. -/
structure Makes (P : Program) (c : Choice) (x x' : Scene) : Prop where
  passes : x.Passes P x'
  new : ∀ y, x.machine.Has y → y.id ≠ c.id
  made : ∃ y ∈ x'.machine.stack, y.Same c

/-- The machine has the choice point all the time. -/
def Holds (P : Program) (c : Choice) : Scene → Scene → Prop :=
  Relation.ReflTransGen fun x x' => x.Passes P x' ∧ ∃ y, x'.machine.Has y ∧ y.Same c

end Scene

/-! ## Code that reads a slot -/

/-- The code reads the slot, and does not set it before. -/
def Register.Live (k : Nat) : List Instruction → Prop
  | [] => False
  | .operation op :: code => .slot k ∈ op.reads ∨ .slot k ∉ op.sets ∧ Live k code
  | .call _ :: code => Live k code
  | .builtin _ _ :: code => Live k code
  | .proceed :: _ => False

/-- Where the code goes on, first in the environment and then in the callers. -/
inductive Env.Resumes : Env → List Instruction → Env → List Instruction → Prop
  | here {env : Env} {code : List Instruction} : Resumes env code env code
  | outer {i : Nat} {cl : Clause} {vars : List (Option Term)} {caller e : Env}
    {code back code' : List Instruction} {commit : Option Nat} : Resumes caller back e code' →
    Resumes (.frame i cl vars caller back commit) code e code'

/-- When the machine of `x` goes back to the choice point it has what it had at `z`. -/
structure Scene.Restores (c : Choice) (z x : Scene) : Prop where
  /-- It goes back by unwinding the trail to the mark and giving up variables. -/
  unwound : ((x.machine.bindings.unwind c.bindings.mark).reclaim
    (max c.bindings.size x.machine.pinned.vars)).Alike (x.machine.rewind c).bindings
  trail : (x.machine.rewind c).bindings.trail = z.machine.bindings.trail
  value : ∀ v < z.machine.bindings.size,
    (x.machine.rewind c).bindings.value? v = z.machine.bindings.value? v
  unbound : ∀ v, z.machine.bindings.size ≤ v → (x.machine.rewind c).bindings.value? v = none
  /-- All environments of the chain are kept. -/
  envs : ∀ e : Env, e.On c.env → e.id < (x.machine.rewind c).envs
  /-- What the code may read was set, and has the same value. -/
  slots : ∀ e code, c.env.Resumes c.code e code → ∀ k, Live k code →
    ∃ t, ((z.arena.vars e.id)[k]?).join = some t ∧ ((x.arena.vars e.id)[k]?).join = some t
  /-- So have the terms of the goal, which an answer is read from. -/
  root : x.arena.vars 0 = z.arena.vars 0

section

variable {P : Program} {W : World → Prop} {ok : Session → Prop} {h : Happening}
  {x0 x x' z : Scene} {y y' : Moment} {m m' : Machine} {s s' : Session} {c c' : Choice}
  {rest : List Choice} {e env : Env} {code code' : List Instruction} {n k fuel : Nat}
  {K : Set Register} {w : World} {F : Arena} {goal : Triple} {owner : Owner}

theorem Register.Suffice.live (h : Suffice K code) (hk : Live k code) : .slot k ∈ K := by
  induction code generalizing K with
  | nil => exact hk.elim
  | cons i code ih =>
    cases i with
    | operation op =>
      rcases hk with hk | ⟨hset, hk⟩
      · exact h.1.reads _ hk
      · exact (ih h.2 hk).resolve_right hset
    | call c => exact slot_mem_slots.1 (ih h.2 hk)
    | builtin f arity => exact ih h.2 hk
    | proceed => exact hk.elim

theorem Env.Resumes.on (h : env.Resumes code e code') : e.On env := by
  induction h with
  | here => exact .here
  | outer _ ih => exact .outer ih

/-- The slots that code may read are set wherever it goes on. -/
theorem Env.Ready.live (h : env.Ready code) (hon : env.Resumes code e code') (hk : Live k code')
    (top : List (Option Term)) : ∃ t, ((e.slots top)[k]?).join = some t := by
  induction hon with
  | @here env code =>
    cases env with
    | root =>
      obtain rfl : code = [.proceed] := h
      exact hk.elim
    | frame i cl vars caller back commit =>
      exact Option.isSome_iff_exists.1 (slot_mem_assigned.1 (h.1.live hk))
  | outer _ ih => exact ih h.2 hk

theorem Operation.Agreeing.eq_map {ts : List Term} {vars : List (Option Term)}
    (h : Agreeing (ts.map some) vars) : vars = ts.map some := by
  refine List.ext_getElem h.length fun i hi hi' => ?_
  have hlt : i < ts.length := by simpa using hi'
  have hval := h.value i ts[i] (by simp [List.getElem?_eq_getElem hlt])
  rw [List.getElem?_eq_getElem hi] at hval
  rw [List.getElem_map]
  exact hval

/-! ## Lives -/

/-- What holds all the life of a machine that does not fail. -/
structure Scene.Sound (P : Program) (goal : Triple) (x : Scene) : Prop where
  regular : x.moment.Regular
  ready : x.moment.Ready P
  serves : x.arena.Serves (goal.terms.map some) x.moment

theorem Scene.Begins.sound (h : x.Begins P) : x.Sound P x.machine.standard :=
  ⟨h.fresh.regular, h.fresh.ready, h.arena ▸ h.fresh.serves⟩

theorem Scene.Passes.sound (hP : P.Compiled) (h : x.Passes P x') (hx : x.Sound P goal) :
    x'.Sound P goal := by
  obtain ⟨happening, hpasses, harena⟩ := h
  exact ⟨hpasses.regular hx.regular, hpasses.ready hP hx.ready,
    harena ▸ hpasses.serves hx.regular hx.ready hx.serves⟩

theorem Scene.Reaches.sound (hP : P.Compiled) (h : x.Reaches P x') (hx : x.Sound P goal) :
    x'.Sound P goal := by
  induction h with
  | refl => exact hx
  | tail _ hpasses ih => exact Passes.sound hP hpasses ih

/-- A run that does not fail is a part of a life. -/
theorem run_reaches {o : Option Triple} {control : Control} (hw : P.Governs w)
    (h : Machine.run w fuel control m s = some (.ok o, m', s')) (F : Arena) :
    ∃ F', Scene.Reaches P ⟨⟨control, m, s⟩, F⟩ ⟨⟨.backtrack, m', s'⟩, F'⟩ := by
  induction fuel generalizing control m s F with
  | zero => cases h
  | succ fuel ih =>
    rcases hstep : m.step w fuel control s with ⟨p, m1, s1⟩
    rcases run_of_step hstep h with ⟨rfl, rfl, rfl⟩ | ⟨control1, rfl, hrun⟩
    · exact ⟨_, .single ⟨_, .step hw hstep rfl, rfl⟩⟩
    · obtain ⟨F', hrest⟩ := ih hrun (F.step fuel ⟨control, m, s⟩)
      exact ⟨F', .head ⟨_, .step hw hstep rfl, rfl⟩ hrest⟩

/-- To ask for the next answer is a part of a life. -/
theorem next_reaches {o : Option Triple} (hw : P.Governs w)
    (h : m.next w fuel s = some (.ok o, m', s')) (F : Arena) :
    ∃ F', Scene.Reaches P ⟨⟨.backtrack, m, s⟩, F⟩ ⟨⟨.backtrack, m', s'⟩, F'⟩ := by
  unfold Machine.next at h
  split at h
  · next t m1 s1 hrun =>
    cases h
    obtain ⟨F', hreach⟩ := run_reaches hw hrun F
    exact ⟨F', hreach.tail ⟨.others, .others (Nat.le_refl _) trivial, rfl⟩⟩
  · exact run_reaches hw h F

/-- A clause that runs on the shared slots does what it does on its own. -/
theorem Scene.Reaches.run_operation (hP : P.Compiled) (hx0 : x0.Begins P) (h : x0.Reaches P x)
    {op : Operation} {g : Option Registers} (hcontrol : x.moment.control = .run env (.operation op :: code))
    (hop : op.run env.name n (x.machine.registers env) = some (.ok g)) :
    ∃ vars, op.run env.name n (x.arena.registers env x.machine) =
      some (.ok (g.map (Registers.withVars vars))) := by
  have hsound := h.sound hP hx0.sound
  have hframe := (hsound.ready.control hcontrol).isFrame (by simp)
  have hown : Agreeing env.vars (x.arena.vars env.id) := by
    have hfits := hsound.serves.fits
    rw [hcontrol] at hfits
    exact hfits.own hframe
  cases g with
  | none => exact ⟨[], op.run_fails_withVars hown hop⟩
  | some g =>
    obtain ⟨vars, hrun, -⟩ := op.run_shared hown hop
    exact ⟨vars, hrun⟩

theorem Machine.Numbered.id_lt (hm : m.Numbered) (hc : m.Has c) : c.id < m.choices := by
  rcases hc with hc | ⟨d, hc⟩
  · exact (hm.stack c hc).1
  · exact Nat.lt_of_lt_of_le (hm.suspended hc).1 hm.choices_le

theorem Scene.Holds.congr (h : z.Holds P c x) (hsame : c.Same c') : z.Holds P c' x :=
  Relation.ReflTransGen.mono (fun _ _ ⟨hp, y, hy, hyc⟩ => ⟨hp, y, hy, hyc.trans hsame⟩) _ _ h

theorem Scene.Makes.congr (h : z.Makes P c x) (hsame : c.Same c') : z.Makes P c' x := by
  obtain ⟨y, hy, hyc⟩ := h.made
  have hid : c'.id = c.id := by
    rw [show c' = _ from hsame]
  exact ⟨h.passes, hid ▸ h.new, y, hy, hyc.trans hsame⟩

/-- For every choice point there is a time when it was made, and the machine has had it since
then. -/
theorem Scene.Reaches.made (hP : P.Compiled) (hx0 : x0.Begins P) (h : x0.Reaches P x)
    (hc : x.machine.Has c) : ∃ z z', x0.Reaches P z ∧ z.Makes P c z' ∧ z'.Holds P c x ∧
      z'.machine.bindings = c.bindings := by
  induction h generalizing c with
  | refl =>
    cases hx0 with
    | mk hfresh harena =>
      obtain ⟨y, F⟩ := x0
      cases hfresh with
      | @blank w goal owner m s hw hm =>
        obtain ⟨-, -, -, -, hno⟩ := @blank_regular 0 m goal w.program w.settings owner hm
        exact absurd hc (hno c)
  | @tail x x' hreach hpasses ih =>
    obtain ⟨happening, hp, harena⟩ := hpasses
    have hpasses : x.Passes P x' := ⟨happening, hp, harena⟩
    rcases hp.has hc with ⟨y, hy, hsame, -⟩ | ⟨w, env, code, -, -, hmakes, hmem, hb⟩
    · obtain ⟨z, z', hz, hmade, hholds, hb⟩ := ih hy
      refine ⟨z, z', hz, hmade.congr hsame,
        (hholds.congr hsame).tail ⟨hpasses, c, hc, .refl c⟩, hb.trans ?_⟩
      rw [show c = _ from hsame]
    · have hnumbered := (Reaches.sound hP hreach hx0.sound).regular.numbered
      refine ⟨x, x', hreach, ⟨hpasses, fun y hy => ?_, c, hmem, .refl c⟩, .refl,
        hb.trans hmakes.bindings.symm⟩
      exact Nat.ne_of_lt (Nat.lt_of_lt_of_le (hnumbered.id_lt hy) hmakes.id)

/-- The bindings with which a choice point was made are back. -/
theorem Scene.Sound.restores (hx : x.Sound P goal) (hz : z.Sound P goal) (hc : c ∈ x.machine.stack)
    (hmade : ∃ y ∈ z.machine.stack, y.Same c) (hb : z.machine.bindings = c.bindings) :
    z.Restores c x := by
  have hmem : x.machine.Has c := .inl hc
  have htracked := hx.regular.tracked
  have htrailed : c.bindings.Trailed := htracked.choice hmem
  obtain ⟨y, hy, hsame⟩ := hmade
  have henv : c.env = y.env := by
    rw [show c = _ from hsame]
  have hshows := hx.serves.fits.shows c hc
  have hshows' := hz.serves.fits.shows y hy
  refine ⟨htracked.rewind hc, ?_, fun v _ => ?_, fun v hv => ?_, fun e he => ?_,
    fun e code hon k hk => ?_, ?_⟩
  · rw [hb]
    rfl
  · rw [hb]
    exact value?_grow _ _ _
  · rw [hb] at hv
    have hval : (x.machine.rewind c).bindings.value? v = c.bindings.value? v := value?_grow _ _ _
    rw [hval]
    exact htrailed.value?_of_le hv
  · have hkept := hx.regular.numbered.stack c hc
    refine he.lt (hkept.2.2.mono ?_)
    exact Nat.le_min.2 ⟨hkept.2.1, Nat.le_max_left _ _⟩
  · obtain ⟨t, ht⟩ := (hx.ready.choice hmem).env.live hon hk (goal.terms.map some)
    refine ⟨t, (hshows' e ?_).value k t ht, (hshows e hon.on).value k t ht⟩
    rw [← henv]
    exact hon.on
  · rw [hx.serves.fits.root.eq_map, hz.serves.fits.root.eq_map]

/-- Backtracking restores exactly. The marks of the choice points never increase down the stack.
For the one that the machine goes back to there is a time when it was made, since which the
machine has had it, and what the machine had then it has when it goes back. -/
theorem backtracking_exact (hP : P.Compiled) (hx0 : x0.Begins P) (h : x0.Reaches P x) :
    (x.machine.stack.Pairwise fun y c => c.bindings.mark ≤ y.bindings.mark) ∧
    ∀ c rest, x.moment.control = .backtrack → x.machine.stack = c :: rest →
      ∃ z z', x0.Reaches P z ∧ z.Makes P c z' ∧ z'.Holds P c x ∧ z'.Restores c x := by
  have hsound := h.sound hP hx0.sound
  refine ⟨hsound.regular.tracked.order.imp fun hsince => hsince.trail.length_le,
    fun c rest _ hstack => ?_⟩
  have hc : c ∈ x.machine.stack := hstack ▸ List.mem_cons_self
  obtain ⟨z, z', hz, hmakes, hholds, hb⟩ := h.made hP hx0 (.inl hc)
  have hsound' := hmakes.passes.sound hP (hz.sound hP hx0.sound)
  exact ⟨z, z', hz, hmakes, hholds, hsound.restores hsound' hc hmakes.made hb⟩

end

/-! ## A consumer that comes back to a clause -/

namespace Roads

def program : Program := ⟨Builtin.standard, base, graph.toStore⟩

def world : World := ⟨graph.toStore, base, {}⟩

/-- The machine that fills the table of where roads lead from `a`. -/
def filler : Machine := ((Machine.start world pattern (.generator 1)).toOption).getD default

/-- The tables with that table. -/
def filling : Session := (({} : Session).generatorFor world pattern).2

theorem start_filler : Machine.start world pattern (.generator 1) = .ok filler :=
  eq_ok_getD (by decide +kernel) _

/-- The rule that asks the table has to wait, the other rule finds an answer, and when nothing else
is left to try the first rule goes on. -/
theorem filler_comes_back : ∃ t m1 s1 m2 s2 m3 s3,
    filler.next world 30 filling = some (.ok (some t), m1, s1) ∧
    m1.next world 30 s1 = some (.ok none, m2, s2) ∧ m2.restore 2 s2 = (.ok (), m3, s3) ∧
    m3.stack.map (fun c => c.env.name) = ["far"] := by
  have h : ((filler.next world 30 filling).bind fun r => (r.2.1.next world 30 r.2.2).map fun r' =>
      (r.1.toOption, r'.1.toOption, (r'.2.1.restore 2 r'.2.2).1.isOk,
        (r'.2.1.restore 2 r'.2.2).2.1.stack.map fun c => c.env.name)) =
      some (some (some (leads (uri "a") (uri "b"))), some none, true, ["far"]) := by
    decide +kernel
  obtain ⟨⟨x1, m1, s1⟩, h1, h⟩ := Option.bind_eq_some_iff.1 h
  obtain ⟨⟨x2, m2, s2⟩, h2, h⟩ := Option.map_eq_some_iff.1 h
  simp only [Prod.mk.injEq] at h
  obtain ⟨hx1, hx2, hok, hname⟩ := h
  obtain rfl := ok_of_toOption hx1
  obtain rfl := ok_of_toOption hx2
  rcases hrestore : m2.restore 2 s2 with ⟨e | u, m3, s3⟩
  · rw [hrestore] at hok
    cases hok
  · rw [hrestore] at hname
    exact ⟨_, m1, s1, m2, s2, m3, s3, h1, h2, hrestore, hname⟩

end Roads

open Roads in
/-- Since the rule was left, another one was tried, answers were found and all bindings undone. -/
theorem backtracking_exact_roads : ∃ (x0 x : Scene) (c : Choice), program.Compiled ∧
    x0.Begins program ∧ x0.Reaches program x ∧ x.moment.control = .backtrack ∧
    x.machine.stack = [c] ∧ c.env.name = "far" ∧
    ∃ z z', x0.Reaches program z ∧ z.Makes program c z' ∧ z'.Holds program c x ∧
      z'.Restores c x := by
  have hP : program.Compiled := compiled_of_compile compile_rules _
  have hw : program.Governs world := rfl
  obtain ⟨t, m1, s1, m2, s2, m3, s3, h1, h2, h3, hname⟩ := filler_comes_back
  obtain ⟨m0, h0, -⟩ := @start_eq world.program world.settings _ _ _ start_filler
  have hbegins : Scene.Begins program ⟨⟨.backtrack, m0, filling⟩, m0.arena⟩ := ⟨.blank _ hw h0, rfl⟩
  have hsetUp : Scene.Passes program ⟨⟨.backtrack, m0, filling⟩, m0.arena⟩
      ⟨⟨.backtrack, filler, filling⟩, m0.arena⟩ := ⟨.setUp, .setUp hw h0 start_filler, rfl⟩
  obtain ⟨F1, hreach1⟩ := next_reaches hw h1 m0.arena
  obtain ⟨F2, hreach2⟩ := next_reaches hw h2 F1
  have hrestore : Scene.Passes program ⟨⟨.backtrack, m2, s2⟩, F2⟩
      ⟨⟨.backtrack, m3, s3⟩, F2.after (.restore 2) ⟨.backtrack, m2, s2⟩⟩ :=
    ⟨.restore 2, .restore h3, rfl⟩
  have hreach := ((Relation.ReflTransGen.head hsetUp hreach1).trans hreach2).tail hrestore
  obtain ⟨c, hstack, hc⟩ := List.map_eq_singleton_iff.1 hname
  exact ⟨_, _, c, hP, hbegins, hreach, rfl, hstack, hc,
    (backtracking_exact hP hbegins hreach).2 c [] rfl hstack⟩

end TabledRules
