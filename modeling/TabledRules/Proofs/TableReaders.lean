-- The machine of a query that reads a table. It takes the results of the
-- table one after the other, returns each of them as it is, and has read them
-- all when the query comes to its end.
import TabledRules.Proofs.CoveredMoves
import TabledRules.Proofs.Rereading

namespace TabledRules

/-! ## Tables and their readers -/

/-- The table of the pattern is `g`, and its results begin with `ts`. -/
def Session.Begins (s : Session) (pattern : Triple) (g : Nat) (ts : List Triple) : Prop :=
  ∃ gen : Generator, s.generators[g]? = some gen ∧ gen.goal = pattern.variantKey ∧
    ts <+: gen.results.toList

/-- The table of the pattern is `g`, which is complete with the results `ts`. -/
def Session.Finished (s : Session) (pattern : Triple) (g : Nat) (ts : List Triple) : Prop :=
  ∃ gen : Generator, s.generators[g]? = some gen ∧ gen.goal = pattern.variantKey ∧
    gen.complete = true ∧ gen.results.toList = ts

/-- The consumer `c` has read `n` results of the table `g` for the query `q`. -/
def Session.Reader (s : Session) (q g n c : Nat) : Prop :=
  ∃ k : Consumer, s.consumers[c]? = some k ∧ k.generator = g ∧ k.read = n ∧ k.owner = .query q

section

variable {P : Program} {s s' : Session} {o : Owner → Prop} {pattern r : Triple} {q g n c : Nat}
  {ts : List Triple} {gen : Generator}

theorem Session.Begins.spares (h : s.Begins pattern g ts) (hs : s.Spares o s') :
    s'.Begins pattern g ts := by
  obtain ⟨gen, hgen, hgoal, hts⟩ := h
  obtain ⟨gen', hgen', hfollows⟩ := hs.generator hgen
  exact ⟨gen', hgen', hfollows.goal.trans hgoal, hts.trans hfollows.results⟩

theorem Session.Finished.begins (h : s.Finished pattern g ts) : s.Begins pattern g ts := by
  obtain ⟨gen, hgen, hgoal, -, rfl⟩ := h
  exact ⟨gen, hgen, hgoal, List.prefix_rfl⟩

theorem Session.Finished.kept (h : s.Finished pattern g ts) (hs : s.Spares o s')
    (hsettles : s.Settles s') : s'.Finished pattern g ts := by
  obtain ⟨gen, hgen, hgoal, hc, hts⟩ := h
  obtain ⟨gen1, hgen1, hfollows⟩ := hs.generator hgen
  obtain ⟨gen2, hgen2, hc', e⟩ := hsettles g gen hgen hc
  cases hgen1.symm.trans hgen2
  exact ⟨gen1, hgen1, hfollows.goal.trans hgoal, hc', by rw [e, hts]⟩

/-- The readers of queries that others spare stay as they are. -/
theorem Session.Reader.spares (h : s.Reader q g n c) (hs : s.Spares o s') (ho : ¬ o (.query q))
    (hopen : (s'.queries[q]?).isSome = true) : s'.Reader q g n c := by
  obtain ⟨k, hk, hgen, hread, howner⟩ := h
  rcases hs.consumer hk (howner ▸ ho) with hdone | ⟨k', hk', hsame⟩
  · rw [howner] at hdone
    rw [hdone.2] at hopen
    cases hopen
  · exact ⟨k', hk', hsame.generator.trans hgen, hsame.read.trans hread, hsame.owner.trans howner⟩

theorem Session.Reader.noted (h : s.Reader q g n c) (hs : s.Noted s') : s'.Reader q g n c := by
  obtain ⟨j, p, rfl⟩ := hs
  exact h

/-- The next result of a table. -/
theorem prefix_of_get? (h : ts <+: gen.results.toList)
    (hr : gen.results.get? ts.length = some r) : ts ++ [r] <+: gen.results.toList := by
  obtain ⟨us, e⟩ := h
  have hget : gen.results.toList[ts.length]? = some r := by
    rw [← hr, Index.get?, Index.toList, Array.getElem?_toList]
  rw [← e, List.getElem?_append_right (Nat.le_refl _), Nat.sub_self] at hget
  cases us with
  | nil => cases hget
  | cons u us =>
    cases hget
    exact ⟨us, by rw [← e, List.append_assoc, List.singleton_append]⟩

theorem eq_of_get?_eq_none (h : ts <+: gen.results.toList)
    (hr : gen.results.get? ts.length = none) : gen.results.toList = ts := by
  refine (h.eq_of_length_le ?_).symm
  rw [Index.get?, Array.getElem?_eq_none_iff] at hr
  exact hr

/-- The results of a table are what its goal may have been resolved to. -/
theorem Session.Sound.resolves (hP : ∀ t, P.Stored t → t.isGround = true) (hs : s.Sound P)
    (hgen : s.generators[g]? = some gen) (hgoal : gen.goal = pattern.variantKey)
    (hr : r ∈ gen.results.toList) : pattern.Resolves r := by
  have hderives := (derives_of_answer (hs.results hgen hr)).resolves hP
  unfold Triple.Resolves at hderives ⊢
  rwa [hgoal, Triple.standard_variantKey] at hderives

end

/-! ## Machines that read a table -/

/-- At the choice point the results that the consumer `c` reads are answers to the pattern. -/
structure Choice.Reads (pattern : Triple) (c : Nat) (x : Choice) : Prop where
  env : x.env = .root
  code : x.code = [.proceed]
  bindings : x.bindings = pattern.unbound
  alternatives : x.alternatives = .results c pattern.standard

/-- The machine of the query `q` has read `n` results of the table `g` and can try the next. -/
structure Machine.Ready (pattern : Triple) (q g n : Nat) (s : Session) (m : Machine) : Prop where
  standard : m.standard = pattern.standard
  alone : ∀ (d : Nat) (y : Choice), m.suspended[d]? ≠ some y
  choice : ∃ c x, m.stack = [x] ∧ x.Reads pattern c ∧ s.Reader q g n c

/-- How the machine of the query `q` stands when it has read the results `ts`. -/
inductive Machine.Reads (pattern : Triple) (q g : Nat) (ts : List Triple) (s : Session)
    (m : Machine) : Prop
  | ready : m.Ready pattern q g ts.length s → Reads pattern q g ts s m
  /-- All results are read so far. -/
  | waiting {c : Nat} {x : Choice} : m.standard = pattern.standard → m.stack = [] →
    m.suspended[c]? = some x → (∀ (d : Nat) (y : Choice), m.suspended[d]? = some y → d = c) →
    x.Reads pattern c →
    s.Reader q g ts.length c → Reads pattern q g ts s m
  /-- There will be no more results. -/
  | drained : m.stack = [] → (∀ (d : Nat) (y : Choice), m.suspended[d]? ≠ some y) →
    s.Finished pattern g ts → Reads pattern q g ts s m

section

variable {P : Program} {st : Settings} {pattern : Triple} {q g n : Nat} {ts : List Triple}
  {s s' : Session} {m m' : Machine} {o : Owner → Prop} {control : Control} {p : Progress}

theorem Machine.Ready.spares (h : m.Ready pattern q g n s) (hs : s.Spares o s')
    (ho : ¬ o (.query q)) (hopen : (s'.queries[q]?).isSome = true) : m.Ready pattern q g n s' := by
  obtain ⟨c, x, hstack, hx, hreader⟩ := h.choice
  exact ⟨h.standard, h.alone, c, x, hstack, hx, hreader.spares hs ho hopen⟩

theorem Machine.Ready.noted (h : m.Ready pattern q g n s) (hs : s.Noted s') :
    m.Ready pattern q g n s' := by
  obtain ⟨c, x, hstack, hx, hreader⟩ := h.choice
  exact ⟨h.standard, h.alone, c, x, hstack, hx, hreader.noted hs⟩

theorem Machine.Reads.spares (h : m.Reads pattern q g ts s) (hs : s.Spares o s')
    (hsettles : s.Settles s') (ho : ¬ o (.query q)) (hopen : (s'.queries[q]?).isSome = true) :
    m.Reads pattern q g ts s' := by
  cases h with
  | ready h => exact .ready (h.spares hs ho hopen)
  | waiting hstd hstack hsusp hall hx hreader =>
    exact .waiting hstd hstack hsusp hall hx (hreader.spares hs ho hopen)
  | drained hstack hno hfinished => exact .drained hstack hno (hfinished.kept hs hsettles)

/-! ## Turns of the machine -/

/-- What a machine does whose one choice point reads a table. -/
theorem Turn.of_results {x : Choice} {c : Nat} {goal : Triple}
    (h : Turn P st .backtrack m s p m' s') (hstack : m.stack = [x])
    (hx : x.alternatives = .results c goal) :
    (∃ t n, s.read c = (.result t, s') ∧
      ((m.popped x []).bindings.unifyTriple n goal t = some none ∨
      ∃ b, (m.popped x []).bindings.unifyTriple n goal t = some (some b) ∧
        p = .go (.run x.env x.code) ∧
        m' = { (m.popped x []).keep x (.results c goal) with bindings := b })) ∨
    ((s.read c).1 = .exhausted ∧ (s.removeConsumer c).Noted s' ∧ p = .go .backtrack ∧
      m' = m.popped x []) ∨
    ((s.read c).1 = .pending ∧ (s.block m.owner c).Noted s' ∧ p = .go .backtrack ∧
      m' = (m.popped x []).parked x c) := by
  have other : ∀ {y : Choice} {rest : List Choice} {a : Alternatives}, m.stack = y :: rest →
      y.alternatives = a → a ≠ .results c goal → False := by
    intro y rest a hy ha hne
    cases hstack.symm.trans hy
    exact hne (ha.symm.trans hx)
  cases h with
  | empty hnil => cases hstack.symm.trans hnil
  | spent hs hspent =>
    cases hstack.symm.trans hs
    rw [Choice.Spent, hx] at hspent
    exact hspent.elim
  | full hs ha => exact (other hs ha (by simp)).elim
  | refuse hs ha => exact (other hs ha (by simp)).elim
  | enter hs ha => exact (other hs ha (by simp)).elim
  | missFact hs ha => exact (other hs ha (by simp)).elim
  | fact hs ha => exact (other hs ha (by simp)).elim
  | missAnswer hs ha => exact (other hs ha (by simp)).elim
  | storedAnswer hs ha => exact (other hs ha (by simp)).elim
  | missResult hs ha hread hu =>
    cases hstack.symm.trans hs
    cases hx.symm.trans ha
    exact .inl ⟨_, _, hread, .inl hu⟩
  | result hs ha hread hu =>
    cases hstack.symm.trans hs
    cases hx.symm.trans ha
    exact .inl ⟨_, _, hread, .inr ⟨_, hu, rfl, rfl⟩⟩
  | exhausted hs ha hread hnoted =>
    cases hstack.symm.trans hs
    cases hx.symm.trans ha
    exact .inr (.inl ⟨hread, hnoted, rfl, rfl⟩)
  | park hs ha hread hnoted =>
    cases hstack.symm.trans hs
    cases hx.symm.trans ha
    exact .inr (.inr ⟨hread, hnoted, rfl, rfl⟩)

/-- To proceed from the root is to have an answer. -/
theorem Turn.of_root (h : Turn P st (.run .root [.proceed]) m s p m' s') :
    ∃ n t, m.solution n = some t ∧ s.Noted s' ∧ p = .done (.ok (some t)) ∧ m' = m := by
  have nocode : ∀ {ops : List Operation} {i : Instruction} {code : List Instruction},
      i ≠ .proceed → ops.map Instruction.operation ++ i :: code ≠ [.proceed] := by
    intro ops i code hi e
    cases ops with
    | nil =>
      cases e
      exact hi rfl
    | cons op ops => cases e
  generalize henv : Env.root = env at h
  generalize hcode : [Instruction.proceed] = code at h
  cases h with
  | leave => cases henv
  | answer ht hnoted => exact ⟨_, _, ht, hnoted, rfl, rfl⟩
  | call => exact absurd hcode.symm (nocode (by simp))
  | builtinFails => exact absurd hcode.symm (nocode (by simp))
  | builtinStops => exact absurd hcode.symm (nocode (by simp))
  | builtin => exact absurd hcode.symm (nocode (by simp))

/-- The machine has taken the result `r`, and what its goal is resolved to is `r`. -/
structure Machine.Returns (pattern : Triple) (q g : Nat) (ts : List Triple) (s : Session)
    (r : Triple) (m : Machine) : Prop where
  ready : m.Ready pattern q g (ts.length + 1) s
  begins : s.Begins pattern g (ts ++ [r])
  solution : ∀ {n t}, m.solution n = some t → t = r

/-- What comes of a turn that goes back to the choice point of a table. -/
theorem Machine.Reads.turn (hm : m.Reads pattern q g ts s)
    (h : Turn P st .backtrack m s p m' s') (hP : ∀ t, P.Stored t → t.isGround = true)
    (hs : s.Sound P) (howner : m.owner = .query q) (hbegins : s.Begins pattern g ts) :
    (p = .go (.run .root [.proceed]) ∧ ∃ r, m'.Returns pattern q g ts s' r) ∨
    (p = .go .backtrack ∧ m'.Reads pattern q g ts s') ∨
    p = .done (.ok none) ∧ m' = m ∧ s' = s := by
  obtain ⟨gen, hgen, hgoal, hts⟩ := hbegins
  have dry : m.stack = [] → p = .done (.ok none) ∧ m' = m ∧ s' = s := by
    intro hnil
    cases h with
    | empty => exact ⟨rfl, rfl, rfl⟩
    | spent hs => cases hnil.symm.trans hs
    | full hs => cases hnil.symm.trans hs
    | refuse hs => cases hnil.symm.trans hs
    | enter hs => cases hnil.symm.trans hs
    | missFact hs => cases hnil.symm.trans hs
    | fact hs => cases hnil.symm.trans hs
    | missAnswer hs => cases hnil.symm.trans hs
    | storedAnswer hs => cases hnil.symm.trans hs
    | missResult hs => cases hnil.symm.trans hs
    | result hs => cases hnil.symm.trans hs
    | exhausted hs => cases hnil.symm.trans hs
    | park hs => cases hnil.symm.trans hs
  cases hm with
  | waiting _ hnil => exact .inr (.inr (dry hnil))
  | drained hnil => exact .inr (.inr (dry hnil))
  | ready hready =>
    obtain ⟨c, x, hstack, hx, k, hk, rfl, hread, hko⟩ := hready.choice
    rcases h.of_results hstack hx.alternatives with ⟨r, n, hr, hu⟩ | ⟨he, hnoted, rfl, rfl⟩ |
      ⟨hp, hnoted, rfl, rfl⟩
    · -- a result is read, and it matches the pattern
      obtain ⟨k', gen', hk', hgen', hget, rfl⟩ := Session.of_read_result hr
      cases hk.symm.trans hk'
      cases hgen.symm.trans hgen'
      rw [hread] at hget
      have hnext := prefix_of_get? hts hget
      have hresolves : pattern.Resolves r :=
        hs.resolves hP hgen hgoal (hnext.subset (List.mem_append_right _ List.mem_cons_self))
      have hbindings : (m.popped x []).bindings = pattern.unbound.grow m.pinnedVars := by
        change x.bindings.grow _ = _
        rw [hx.bindings]
      rw [hbindings] at hu
      rcases hu with hno | ⟨b, hu, rfl, rfl⟩
      · obtain ⟨b, e, -⟩ := hresolves.again hno
        cases e
      · obtain ⟨b', e, hsolution⟩ := hresolves.again hu
        cases e
        refine .inl ⟨by rw [hx.env, hx.code], r, ⟨hready.standard, hready.alone, c, x, ?_, hx, ?_⟩,
          ⟨gen, hgen, hgoal, hnext⟩, fun {n t} ht => ?_⟩
        · change [{ x with alternatives := .results c pattern.standard }] = [x]
          rw [← hx.alternatives]
        · refine ⟨{ k with read := k.read + 1 }, ?_, rfl, congrArg (· + 1) hread, hko⟩
          rw [Session.consumers_modifyConsumer, if_pos rfl, hk]
          rfl
        · change m.standard.mapTerms? (b.resolve n) = some t at ht
          rw [hready.standard] at ht
          exact hsolution ht
    · -- the table is complete and read to its end
      have hfinished : gen.results.get? ts.length = none ∧ gen.complete = true := by
        unfold Session.read at he
        simp only [hk, hgen, hread] at he
        split at he
        · cases he
        · next hnone =>
          split at he
          · next hc => exact ⟨hnone, hc⟩
          · cases he
      obtain ⟨j, pr, rfl⟩ := hnoted
      obtain ⟨gen1, hgen1, hsame⟩ := s.find_removeConsumer c hgen
      refine .inr (.inl ⟨rfl, .drained rfl hready.alone ⟨gen1, hgen1, hsame.goal.trans hgoal,
        hsame.complete.trans hfinished.2, ?_⟩⟩)
      rw [hsame.results, eq_of_get?_eq_none hts hfinished.1]
    · -- there is no result to read as yet
      have hsusp : ∀ d : Nat, ((m.popped x []).parked x c).suspended[d]? =
          if c = d then some x else m.suspended[d]? := by
        intro d
        change (m.suspended.insert c x)[d]? = _
        simp only [Std.TreeMap.getElem?_insert, Std.LawfulEqCmp.compare_eq_iff_eq]
      refine .inr (.inl ⟨rfl, .waiting (c := c) (x := x) hready.standard rfl ?_ (fun d y hy => ?_) hx
        (Session.Reader.noted ?_ hnoted)⟩)
      · rw [hsusp, if_pos rfl]
      · rw [hsusp] at hy
        split at hy
        · next e => exact e.symm
        · exact absurd hy (hready.alone d y)
      · refine ⟨{ k with suspended := true }, ?_, rfl, hread, hko⟩
        rw [howner]
        change (s.modifyConsumer c fun k => { k with suspended := true }).consumers[c]? = _
        rw [Session.consumers_modifyConsumer, if_pos rfl, hk]
        rfl

/-! ## Moves -/

/-- How far the query has come that has read the results `ts`. -/
def Phase.Reads (pattern : Triple) (q g : Nat) (ts : List Triple) (s : Session) : Phase → Prop
  | .search .backtrack own | .wait own | .agenda _ own | .pump _ _ _ _ _ own | .returned own =>
    s.Begins pattern g ts ∧ own.Reads pattern q g ts s
  | .search (.run env code) own => env = .root ∧ code = [.proceed] ∧
    ∃ r, own.Returns pattern q g ts s r
  | .found (some t) own => s.Begins pattern g (ts ++ [t]) ∧ own.Ready pattern q g (ts.length + 1) s
  | .found none _ => s.Finished pattern g ts

/-- The machine goes on with its consumer. -/
theorem Machine.Reads.restore (hm : m.Reads pattern q g ts s) {c : Nat} {s1 : Session}
    (htake : s.takeReady q = some (c, s1)) (hr : m.restore c s1 = (.ok (), m', s')) :
    m'.Reads pattern q g ts s' := by
  have hcons : s1.consumers = s.consumers := by
    unfold Session.takeReady at htake
    obtain ⟨c', -, e⟩ := Option.map_eq_some_iff.1 htake
    cases e
    rfl
  obtain ⟨y, hstack, hy, hnoted, rfl⟩ := restore_eq hr
  cases hm with
  | ready hready =>
    obtain ⟨_, x, hone, -⟩ := hready.choice
    cases hstack.symm.trans hone
  | drained _ hno => exact absurd hy (hno c y)
  | waiting hstd _ hsusp hall hx hreader =>
    cases hall c y hy
    cases hsusp.symm.trans hy
    obtain ⟨k, hk, hgen, hread, hko⟩ := hreader
    refine .ready ⟨hstd, fun d z hz => ?_, c, y, rfl, hx, Session.Reader.noted ?_ hnoted⟩
    · obtain ⟨hne, hz⟩ := Machine.suspended_restored hz
      exact hne (hall d z hz)
    · refine ⟨{ k with suspended := false }, ?_, hgen, hread, hko⟩
      change (s1.modifyConsumer c fun k => { k with suspended := false }).consumers[c]? = _
      rw [Session.consumers_modifyConsumer, if_pos rfl, hcons, hk]
      rfl

/-- A query whose consumers do not wait has read its table to the end. -/
theorem Machine.Reads.ended (hm : m.Reads pattern q g ts s) (hs : s.Idle) (hasks : m.Asks q s)
    (hstack : m.stack = []) (hnone : s.blocked q = []) : s.Finished pattern g ts := by
  cases hm with
  | ready hready =>
    obtain ⟨_, x, hone, -⟩ := hready.choice
    cases hstack.symm.trans hone
  | drained _ _ hfinished => exact hfinished
  | @waiting c x _ _ hsusp =>
    obtain ⟨-, k, hk, howner, hwaits⟩ := hasks.tied.waits hsusp
    obtain ⟨waiting, hw, hmem⟩ := hs.wired.asker hk (howner.trans hasks.owner)
    rw [Session.blocked, Std.TreeMap.getD_eq_getD_getElem?, hw] at hnone
    have hmem := hmem hwaits
    rw [show waiting = [] from hnone] at hmem
    cases hmem

/-- Every move leaves the query with what it has read, or takes the next result of its table. -/
theorem Moves.reads (hP : ∀ t, P.Stored t → t.isGround = true) {x y : Phase × Session}
    (h : Moves P st q x y) (hkept : x.1.Kept q x.2) (hs : x.2.Sound P)
    (hx : x.1.Reads pattern q g ts x.2) : y.1.Reads pattern q g ts y.2 := by
  obtain ⟨hkept', hspares⟩ := h.kept hkept
  have hsettles := h.settles hkept
  -- the machine of the query waits while generators run
  have aside : ∀ {s s' : Session} {own : Machine} {o : Owner → Prop}, own.Asks q s' →
      s.Spares o s' → s.Settles s' → ¬ o (.query q) →
      s.Begins pattern g ts ∧ own.Reads pattern q g ts s →
      s'.Begins pattern g ts ∧ own.Reads pattern q g ts s' := fun hasks hspares hsettles ho hx =>
    ⟨hx.1.spares hspares, hx.2.spares hspares hsettles ho (Option.isSome_iff_exists.2 hasks.works)⟩
  have others : ∀ {s : Session}, ¬ (∃ g, Owner.query q = .generator g ∧ s.Works (.query q)) := by
    rintro s ⟨g, e, -⟩
    cases e
  cases h with
  | @turn control control' m m' s s' hturn =>
    cases control with
    | backtrack =>
      rcases hx.2.turn hturn hP hs hkept.2.owner hx.1 with ⟨e, hreturns⟩ | ⟨e, hreads⟩ | ⟨e, -⟩
      · cases e
        exact ⟨rfl, rfl, hreturns⟩
      · cases e
        exact ⟨hx.1.spares hspares, hreads⟩
      · cases e
    | run env code =>
      obtain ⟨rfl, rfl, -⟩ := hx
      obtain ⟨_, _, -, -, e, -⟩ := hturn.of_root
      cases e
  | @answer control m m' s s1 s' t hturn hnoted =>
    cases control with
    | backtrack =>
      rcases hx.2.turn hturn hP hs hkept.2.owner hx.1 with ⟨e, -⟩ | ⟨e, -⟩ | ⟨e, -⟩ <;> cases e
    | run env code =>
      obtain ⟨rfl, rfl, r, hreturns⟩ := hx
      obtain ⟨n, t', ht, hnoted', e, rfl⟩ := hturn.of_root
      cases e
      cases hreturns.solution ht
      exact ⟨hreturns.begins.spares hspares, hreturns.ready.noted (hnoted'.trans hnoted)⟩
  | @dry control m m' s s' hturn =>
    cases control with
    | backtrack =>
      rcases hx.2.turn hturn hP hs hkept.2.owner hx.1 with ⟨e, -⟩ | ⟨e, -⟩ | ⟨-, rfl, rfl⟩
      · cases e
      · cases e
      · exact hx
    | run env code =>
      obtain ⟨rfl, rfl, -⟩ := hx
      obtain ⟨_, _, -, -, e, -⟩ := hturn.of_root
      cases e
  | restore htake hr => exact ⟨hx.1.spares hspares, hx.2.restore htake hr⟩
  | @ended m s hnone hempty =>
    obtain ⟨hidle, hasks, hstack⟩ := hkept
    exact (hx.2.ended hidle hasks hstack hempty).kept hspares hsettles
  | await => exact hx
  | ready => exact hx
  | check => exact aside hkept'.2.1 hspares hsettles others hx
  | force => exact aside hkept'.2.1 hspares hsettles others hx
  | start => exact aside hkept'.2.toAsks hspares hsettles others hx
  | skip => exact aside hkept'.2.toAsks hspares hsettles others hx
  | rests => exact aside hkept'.2.toAsks hspares hsettles others hx
  | work => exact aside hkept'.2.toAsks hspares hsettles others hx
  | known => exact aside hkept'.2.toAsks hspares hsettles others hx
  | result => exact aside hkept'.2.toAsks hspares hsettles others hx
  | pumped => exact aside hkept'.2.toAsks hspares hsettles others hx
  | leave => exact aside hkept'.2.1.toAsks hspares hsettles others hx

theorem Phase.Sound.session {K : Triple → Prop} {phase : Phase} (h : phase.Sound P K s) :
    s.Sound P := by
  cases phase <;> exact h.1

theorem MovesTo.reads {K : Triple → Prop} (hP : P.Compiled)
    (hground : ∀ t, P.Stored t → t.isGround = true) {x y : Phase × Session}
    (h : MovesTo P st q x y) (hkept : x.1.Kept q x.2) (hsound : x.1.Sound P K x.2)
    (hx : x.1.Reads pattern q g ts x.2) : y.1.Reads pattern q g ts y.2 := by
  induction h with
  | refl => exact hx
  | tail hmoves hmove ih =>
    exact hmove.reads hground (MovesTo.kept hmoves hkept).1
      (MovesTo.sound hP hmoves hsound).1.session ih

end

end TabledRules
