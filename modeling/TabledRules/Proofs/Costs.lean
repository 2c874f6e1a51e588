-- What is left to do, as a number. All that a machine can still try, run or read
-- has a cost, and every step is paid for out of it.
import Mathlib
import TabledRules.Proofs.CoveredMoves
import TabledRules.Proofs.FlatMachines
import TabledRules.Proofs.Readings

namespace TabledRules

open Finset

/-! ## Sums over ids -/

section

variable {n p k a b : Nat} {f g : Nat → Nat}

/-- The sum goes down by what one summand goes down. -/
theorem sum_range_shift (hzero : ∀ i, n ≤ i → f i = 0) (hle : ∀ i, i ≠ k → g i ≤ f i)
    (hk : g k + a ≤ f k + b) : ∑ i ∈ range p, g i + a ≤ ∑ i ∈ range n, f i + b := by
  have hn : n ≤ max (max n p) (k + 1) := by omega
  have hp : p ≤ max (max n p) (k + 1) := by omega
  have hkn : k ∈ range (max (max n p) (k + 1)) := mem_range.2 (by omega)
  generalize max (max n p) (k + 1) = N at hn hp hkn
  have h1 : ∑ i ∈ range n, f i = ∑ i ∈ range N, f i :=
    sum_subset (range_mono hn) fun i _ hi => hzero i (by simpa using hi)
  have h2 : ∑ i ∈ range p, g i ≤ ∑ i ∈ range N, g i := sum_le_sum_of_subset (range_mono hp)
  have h3 : ∑ i ∈ (range N).erase k, g i ≤ ∑ i ∈ (range N).erase k, f i :=
    sum_le_sum fun i hi => hle i (ne_of_mem_erase hi)
  rw [← add_sum_erase _ f hkn] at h1
  rw [← add_sum_erase _ g hkn] at h2
  omega

theorem sum_range_le (hzero : ∀ i, n ≤ i → f i = 0) (hle : ∀ i, g i ≤ f i) :
    ∑ i ∈ range p, g i ≤ ∑ i ∈ range n, f i :=
  sum_range_shift (k := 0) (a := 0) (b := 0) hzero (fun i _ => hle i) (hle 0)

/-- What is taken out of a list is taken off its sum. -/
theorem sum_filter_ne_add_le {α : Type} [DecidableEq α] {f : α → Nat} {x : α} {l : List α}
    (hx : x ∈ l) : ((l.filter fun y => y ≠ x).map f).sum + f x ≤ (l.map f).sum := by
  induction l with
  | nil => cases hx
  | cons y l ih =>
    rw [List.map_cons, List.sum_cons]
    by_cases e : y = x
    · have hle : ((l.filter fun y => y ≠ x).map f).sum ≤ (l.map f).sum :=
        (List.filter_sublist.map f).sum_le_sum fun _ _ => Nat.zero_le _
      rw [List.filter_cons_of_neg (by simpa using e), e]
      omega
    · have hle := ih ((List.mem_cons.1 hx).resolve_left (Ne.symm e))
      rw [List.filter_cons_of_pos (by simpa using e), List.map_cons, List.sum_cons]
      omega

end

/-! ## What code costs -/

/-- How many stored triples there are, how many results a table can have and how many
instructions a clause can have. -/
structure Scale where
  facts : Nat
  results : Nat
  code : Nat

namespace Scale

variable {sc : Scale} {n k : Nat}

/-- What `n` instructions cost. A call makes a choice point for stored triples or for the
results of a table, and after each of them the rest of the code may run. -/
def cost (sc : Scale) : Nat → Nat
  | 0 => 2
  | n + 1 => (sc.facts + 2 * sc.results + 2) * (sc.cost n + 2) + 3

theorem two_le_cost (sc : Scale) (n : Nat) : 2 ≤ sc.cost n := by
  cases n with
  | zero => exact Nat.le_refl _
  | succ n =>
    rw [cost]
    omega

theorem cost_lt_succ (sc : Scale) (n : Nat) : sc.cost n < sc.cost (n + 1) := by
  have h : 1 * (sc.cost n + 2) ≤ (sc.facts + 2 * sc.results + 2) * (sc.cost n + 2) :=
    Nat.mul_le_mul_right _ (by omega)
  rw [cost]
  omega

theorem cost_mono (sc : Scale) (h : n ≤ k) : sc.cost n ≤ sc.cost k :=
  monotone_nat_of_le_succ (fun n => Nat.le_of_lt (sc.cost_lt_succ n)) h

/-- A call pays for a choice point for stored triples. -/
theorem facts_lt_cost (sc : Scale) (n : Nat) (hk : k ≤ sc.facts) : 1 + k * (sc.cost n + 1) < sc.cost (n + 1) := by
  have h1 : k * (sc.cost n + 1) ≤ (sc.facts + 2 * sc.results + 2) * (sc.cost n + 2) :=
    Nat.mul_le_mul (by omega) (by omega)
  rw [cost]
  omega

/-- A call pays for a choice point for the results of a table. -/
theorem results_lt_cost (sc : Scale) (n : Nat) (hk : k ≤ 2 * sc.results + 1) :
    1 + k * (sc.cost n + 2) < sc.cost (n + 1) := by
  have h1 : k * (sc.cost n + 2) ≤ (sc.facts + 2 * sc.results + 2) * (sc.cost n + 2) :=
    Nat.mul_le_mul_right _ (by omega)
  rw [cost]
  omega

end Scale

/-! ## What is left to read -/

namespace Session

/-- How many results the consumer may still read from a table of `R` results. -/
def unread (R : Nat) (s : Session) (d : Nat) : Nat := (s.consumers[d]?).elim 0 fun k => R - k.read

/-- To wait costs one: it makes the way back to the choice point worth its price. -/
def lag (R : Nat) (s : Session) (d : Nat) : Nat :=
  match (s.read d).1 with
  | .pending => 2 * s.unread R d + 1
  | _ => 2 * s.unread R d

variable {R : Nat} {s s' s'' : Session} {d : Nat} {key : Triple}

theorem unread_le (R : Nat) (s : Session) (d : Nat) : s.unread R d ≤ R := by
  unfold unread
  cases s.consumers[d]? with
  | none => exact Nat.zero_le _
  | some k => exact Nat.sub_le _ _

theorem lag_le (R : Nat) (s : Session) (d : Nat) : s.lag R d ≤ 2 * R + 1 := by
  have h := s.unread_le R d
  unfold lag
  split <;> omega

theorem lag_of_pending (h : (s.read d).1 = .pending) : s.lag R d = 2 * s.unread R d + 1 := by
  rw [lag, h]

theorem lag_of_ne (h : (s.read d).1 ≠ .pending) : s.lag R d = 2 * s.unread R d := by
  unfold lag
  split
  · next hp => exact absurd hp h
  · rfl

theorem lag_le_unread (R : Nat) (s : Session) (d : Nat) : s.lag R d ≤ 2 * s.unread R d + 1 := by
  unfold lag
  split <;> omega

/-- What a consumer still has to read does not grow. -/
structure Recedes (R : Nat) (s s' : Session) : Prop where
  grows : s.Grows s'
  lag_le : ∀ {d : Nat} {key : Triple}, s.Reads d key → s'.lag R d ≤ s.lag R d
  unread_le : ∀ {d : Nat} {key : Triple}, s.Reads d key → s'.unread R d ≤ s.unread R d

theorem Recedes.refl (R : Nat) (s : Session) : s.Recedes R s :=
  ⟨.refl s, fun _ => Nat.le_refl _, fun _ => Nat.le_refl _⟩

theorem Recedes.trans (h : s.Recedes R s') (h' : s'.Recedes R s'') : s.Recedes R s'' :=
  ⟨h.grows.trans h'.grows, fun hd => (h'.lag_le (hd.grows h.grows)).trans (h.lag_le hd),
    fun hd => (h'.unread_le (hd.grows h.grows)).trans (h.unread_le hd)⟩

theorem Unread.same (h : s.Unread s') (hd : s.Reads d key) {k' : Consumer}
    (hk' : s'.consumers[d]? = some k') :
    ∃ k : Consumer, s.consumers[d]? = some k ∧ k'.generator = k.generator ∧ k'.read = k.read := by
  rcases h.consumer hk' with ⟨k, hk, hkin, hread⟩ | ⟨hle, -⟩
  · exact ⟨k, hk, hkin.generator, hread⟩
  · exact absurd hd.exists_id (Nat.not_lt.2 hle)

/-- The tables keep their results, and those that are complete stay so. -/
def Keeps (s s' : Session) : Prop :=
  ∀ {g : Nat} {gen : Generator}, s.generators[g]? = some gen →
    ∃ gen' : Generator, s'.generators[g]? = some gen' ∧
      gen.results.toList <+: gen'.results.toList ∧ (gen.complete = true → gen'.complete = true)

/-- A consumer that has nothing to read had nothing to read. -/
theorem Unread.pending (h : s.Unread s') (hgrows : s.Grows s') (hgen : s.Keeps s')
    (hd : s.Reads d key) (hp : (s'.read d).1 = .pending) : (s.read d).1 = .pending := by
  obtain ⟨k', gen', hk', hgen', hsize, hinc⟩ := of_read_pending hp
  obtain ⟨k, hk, hgenerator, hread⟩ := h.same hd hk'
  rw [hgenerator] at hgen'
  obtain ⟨gen, hg, -⟩ := hgrows.generator (hd.generator_lt hk) hgen'
  obtain ⟨gen1, hgen1, hprefix, hcomplete⟩ := hgen hg
  cases hgen'.symm.trans hgen1
  have hnone : gen.results.get? k.read = none := by
    refine Array.getElem?_eq_none_iff.2 ?_
    have hlen : gen.results.size ≤ gen'.results.size := hprefix.length_le
    exact Nat.le_trans hlen (hread ▸ hsize)
  have hinc' : gen.complete = false := by
    cases hc : gen.complete with
    | false => rfl
    | true => rw [hcomplete hc] at hinc; cases hinc
  simp only [read, hk, hg, hnone, hinc', Bool.false_eq_true, if_false]

/-- Consumers have read what they had read, and what tables have they keep. -/
theorem Unread.recedes (h : s.Unread s') (hgrows : s.Grows s') (hgen : s.Keeps s') (R : Nat) :
    s.Recedes R s' := by
  have hunread : ∀ {d : Nat} {key : Triple}, s.Reads d key → s'.unread R d ≤ s.unread R d := by
    intro d key hd
    unfold unread
    cases hk' : s'.consumers[d]? with
    | none => exact Nat.zero_le _
    | some k' =>
      obtain ⟨k, hk, -, hread⟩ := h.same hd hk'
      rw [hk, Option.elim_some, Option.elim_some, hread]
  refine ⟨hgrows, fun {d key} hd => ?_, hunread⟩
  have hle := hunread hd
  by_cases hp' : (s'.read d).1 = .pending
  · rw [lag_of_pending (h.pending hgrows hgen hd hp'), lag_of_pending hp']
    omega
  · rw [lag_of_ne hp']
    refine (Nat.mul_le_mul_left 2 hle).trans ?_
    unfold lag
    split <;> omega

end Session

/-! ## What a machine costs -/

/-- How many instructions the callers go on with. -/
def Env.pending : Env → Nat
  | .root => 0
  | .frame _ _ _ caller code _ => code.length + caller.pending

/-- How many instructions are left in an environment. -/
def rank (env : Env) (code : List Instruction) : Nat := code.length + env.pending

/-- What the alternatives cost where `n` instructions are left. -/
def Alternatives.cost (sc : Scale) (s : Session) (n : Nat) : Alternatives → Nat
  | .clauses rest _ _ => rest.length * (sc.cost (sc.code + n) + 1)
  | .facts _ rest | .answers _ rest => rest.length * (sc.cost n + 1)
  | .results d _ => s.lag sc.results d * (sc.cost n + 2)

def Choice.cost (sc : Scale) (s : Session) (c : Choice) : Nat :=
  1 + c.alternatives.cost sc s (rank c.env c.code)

/-- What the choice point of the consumer `d` costs while it waits. -/
def Choice.waitCost (sc : Scale) (s : Session) (d : Nat) (c : Choice) : Nat :=
  2 + 2 * s.unread sc.results d * (sc.cost (rank c.env c.code) + 2)

def Machine.cost (sc : Scale) (s : Session) (m : Machine) : Nat :=
  (m.stack.map (Choice.cost sc s)).sum +
    ∑ d ∈ range s.nextId, (m.suspended[d]?).elim 0 (Choice.waitCost sc s d)

def Control.cost (sc : Scale) : Control → Nat
  | .backtrack => 0
  | .run env code => sc.cost (rank env code)

section

variable {P : Program} {facts : List Triple} {S : Stock} {sc : Scale} {s s' : Session}
  {m : Machine} {c : Choice} {rest : List Choice} {env : Env} {code : List Instruction}
  {a : Alternatives} {goal : Triple} {d n : Nat}

theorem rank_setVars (env : Env) (vars : List (Option Term)) (code : List Instruction) :
    rank (env.setVars vars) code = rank env code := by
  cases env <;> rfl

theorem cost_rank_cons (sc : Scale) (env : Env) (i : Instruction) (code : List Instruction) :
    sc.cost (rank env (i :: code)) = sc.cost (rank env code + 1) := by
  rw [rank, rank, List.length_cons, Nat.add_right_comm]

theorem Machine.Flat.suspended_lt (h : m.Flat P facts S s) (hc : m.suspended[d]? = some c) :
    d < s.nextId := by
  obtain ⟨hflat, goal, halt⟩ := h.suspended hc
  have hall := hflat.alternatives
  rw [halt] at hall
  obtain ⟨-, key, hreads, -⟩ := hall
  exact hreads.exists_id

/-- No choice point waits for a consumer that is not there yet. -/
theorem Machine.Flat.waitCost_eq_zero (h : m.Flat P facts S s) (hd : s.nextId ≤ d) :
    (m.suspended[d]?).elim 0 (Choice.waitCost sc s d) = 0 := by
  cases hc : m.suspended[d]? with
  | none => rfl
  | some c => exact absurd (h.suspended_lt hc) (Nat.not_lt.2 hd)

/-! ### Other sessions -/

theorem Alternatives.Flat.cost_le (h : a.Flat P facts S s) (hs : s.Recedes sc.results s') :
    a.cost sc s' n ≤ a.cost sc s n := by
  cases a with
  | results d goal =>
    obtain ⟨-, key, hreads, -⟩ := h
    exact Nat.mul_le_mul_right _ (hs.lag_le hreads)
  | _ => exact Nat.le_refl _

theorem Choice.Flat.cost_le (h : c.Flat P facts S s) (hs : s.Recedes sc.results s') :
    c.cost sc s' ≤ c.cost sc s :=
  Nat.add_le_add_left (h.alternatives.cost_le hs) 1

theorem Choice.Flat.waitCost_le (h : c.Flat P facts S s) (halt : c.alternatives = .results d goal)
    (hs : s.Recedes sc.results s') : c.waitCost sc s' d ≤ c.waitCost sc s d := by
  have hall := h.alternatives
  rw [halt] at hall
  obtain ⟨-, key, hreads, -⟩ := hall
  refine Nat.add_le_add_left (Nat.mul_le_mul_right _ (Nat.mul_le_mul_left 2 ?_)) 2
  exact hs.unread_le hreads

/-- A machine costs no more when what there is to read has become less. -/
theorem Machine.Flat.cost_le (sc : Scale) (h : m.Flat P facts S s) (hs : s.Recedes sc.results s') :
    m.cost sc s' ≤ m.cost sc s := by
  refine Nat.add_le_add (List.sum_le_sum fun c hc => (h.stack c hc).cost_le hs)
    (sum_range_le (fun _ => h.waitCost_eq_zero) fun d => ?_)
  cases hc : m.suspended[d]? with
  | none => exact Nat.le_refl _
  | some c =>
    obtain ⟨hflat, goal, halt⟩ := h.suspended hc
    exact hflat.waitCost_le halt hs

/-! ### Choice points that come and go -/

theorem Machine.cost_pushed (sc : Scale) (s : Session) (m : Machine) (env : Env)
    (code : List Instruction) (a : Alternatives) :
    (m.pushed env code a).cost sc s = 1 + a.cost sc s (rank env code) + m.cost sc s := by
  simp only [cost, stack_pushed, List.map_cons, List.sum_cons, Choice.cost]
  rw [Nat.add_assoc]
  rfl

theorem Machine.cost_popped (sc : Scale) (s : Session) (hstack : m.stack = c :: rest) :
    m.cost sc s = c.cost sc s + (m.popped c rest).cost sc s := by
  simp only [cost, hstack, List.map_cons, List.sum_cons]
  rw [Nat.add_assoc]
  rfl

theorem Machine.cost_keep (sc : Scale) (s : Session) (m : Machine) (c : Choice) (a : Alternatives) :
    (m.keep c a).cost sc s = 1 + a.cost sc s (rank c.env c.code) + m.cost sc s := by
  simp only [cost, keep, List.map_cons, List.sum_cons, Choice.cost]
  rw [Nat.add_assoc]

/-- A choice point that waits is paid for by the one that it was. -/
theorem Machine.Flat.cost_parked (sc : Scale) (h : m.Flat P facts S s) (c : Choice) (d : Nat) :
    (m.parked c d).cost sc s ≤ c.waitCost sc s d + m.cost sc s := by
  have hsum : ∑ e ∈ range s.nextId,
      ((m.parked c d).suspended[e]?).elim 0 (Choice.waitCost sc s e) + 0 ≤
      ∑ e ∈ range s.nextId, (m.suspended[e]?).elim 0 (Choice.waitCost sc s e) +
        c.waitCost sc s d := by
    refine sum_range_shift (k := d) (fun _ => h.waitCost_eq_zero) (fun e he => ?_) ?_
    · change ((m.suspended.insert d c)[e]?).elim _ _ ≤ _
      rw [Std.TreeMap.getElem?_insert, if_neg]
      rw [Std.LawfulEqCmp.compare_eq_iff_eq]
      exact Ne.symm he
    · change ((m.suspended.insert d c)[d]?).elim _ _ + 0 ≤ _
      rw [Std.TreeMap.getElem?_insert_self]
      exact Nat.le_add_left _ _
  have hstack : (m.parked c d).stack = m.stack := rfl
  unfold cost
  rw [hstack]
  omega

/-- A consumer's choice point that is put back. -/
theorem Machine.Flat.cost_restored (h : m.Flat P facts S s) (sc : Scale) (hstack : m.stack = [])
    (hc : m.suspended[d]? = some c) :
    (m.restored d c).cost sc s + c.waitCost sc s d ≤ m.cost sc s + c.cost sc s := by
  have hsum : ∑ e ∈ range s.nextId,
      ((m.restored d c).suspended[e]?).elim 0 (Choice.waitCost sc s e) + c.waitCost sc s d ≤
      ∑ e ∈ range s.nextId, (m.suspended[e]?).elim 0 (Choice.waitCost sc s e) + 0 := by
    refine sum_range_shift (k := d) (fun _ => h.waitCost_eq_zero) (fun e he => ?_) ?_
    · change ((m.suspended.erase d)[e]?).elim _ _ ≤ _
      rw [Std.TreeMap.getElem?_erase, if_neg]
      rw [Std.LawfulEqCmp.compare_eq_iff_eq]
      exact Ne.symm he
    · change ((m.suspended.erase d)[d]?).elim _ _ + _ ≤ _
      rw [Std.TreeMap.getElem?_erase_self, hc]
      exact Nat.le_of_eq (Nat.zero_add _)
  have hnew : (m.restored d c).stack = [c] := rfl
  unfold cost
  rw [hstack, hnew, List.map_singleton, List.sum_singleton, List.map_nil, List.sum_nil]
  omega

end

end TabledRules
