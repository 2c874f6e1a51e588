-- Searches over rules that build no terms. A query comes to its next answer or to its
-- end: while it waits, the tables are run, and where nothing can run any more the
-- tables that it waits for are completed, so that it can go on.
import TabledRules.Proofs.FlatPumps

namespace TabledRules

section

variable {P : Program} {facts : List Triple} {S T : Stock} {st : Settings} {s s' s1 : Session}
  {m m' own : Machine} {q k : Nat}

/-! ## Queries that can go on -/

theorem takeReady_of_queryReady (hopen : s.Works (.query q)) (hready : s.queryReady q = true) :
    ∃ c s', s.takeReady q = some (c, s') := by
  obtain ⟨waiting, hw⟩ := hopen
  unfold Session.queryReady at hready
  rw [hw] at hready
  have hblocked : s.blocked q = waiting := by
    rw [Session.blocked, Std.TreeMap.getD_eq_getD_getElem?, hw]
    rfl
  obtain ⟨c, hc⟩ := Option.isSome_iff_exists.1 (List.find?_isSome.2 (List.any_eq_true.1 hready))
  unfold Session.takeReady
  rw [hblocked, hc]
  exact ⟨_, _, rfl⟩

theorem isReady_takeReady {c : Nat} (h : s.takeReady q = some (c, s')) : s'.isReady c = true := by
  unfold Session.takeReady at h
  obtain ⟨c', hc, e⟩ := Option.map_eq_some_iff.1 h
  cases e
  exact (List.find?_some hc : s.isReady c = true)

/-- Once the tables that a query waits for are completed it can go on. -/
theorem queryReady_forced (hs : s.Idle) (hwaits : own.Waits q s) :
    ((s.blockedOn q).foldl (Session.complete .generatorDeadlocked)
      (s.checkCompletion (s.blockedOn q))).queryReady q = true := by
  obtain ⟨c, k, hk, howner, hsusp⟩ := hwaits.waiting
  have hblocked := hs.wired.mem_blockedOn hk howner hsusp
  have hchecked := s.spares_checkCompletion (s.blockedOn q) fun _ => False
  have hforced := Session.spares_completeAll .generatorDeadlocked (s.blockedOn q)
    (s.checkCompletion (s.blockedOn q)) fun _ => False
  have hidle := (hs.checkCompletion (s.blockedOn q)).completeAll .generatorDeadlocked
    (s.blockedOn q)
  obtain ⟨gen, hgen, -⟩ := hs.wired.reader hk
  obtain ⟨gen', hgen', -⟩ := hchecked.generator hgen
  have hdone := Session.done_completeAll .generatorDeadlocked (s.blockedOn q) hgen' hblocked
  rcases (hchecked.trans hforced).consumer hk id with hclosed | ⟨k', hk', hsame⟩
  · -- the query is open
    obtain ⟨waiting, hopen⟩ := hwaits.works
    rw [howner] at hclosed
    have hstill := (hchecked.trans hforced).query (q := q) (by rw [hopen]; rfl) id
    rw [hclosed.2] at hstill
    cases hstill
  · exact hidle.wired.queryReady_of_done hk' (hsame.owner.trans howner) (hsame.suspended.trans hsusp)
      (hsame.generator ▸ hdone)

/-! ## Searches -/

/-- The machine of a query and the tables are in order. -/
structure Machine.Searches (P : Program) (facts : List Triple) (S T : Stock) (q : Nat) (s : Session)
    (m : Machine) : Prop where
  active : Underway P facts S T .backtrack m s
  formed : m.Formed P
  tables : s.Formed P
  idle : s.Idle
  asks : m.Asks q s

/-- What a search comes to, unless it fails. -/
structure Finds (P : Program) (facts : List Triple) (S T : Stock) (s : Session) (o : Option Triple)
    (m' : Machine) (s' : Session) : Prop where
  active : Underway P facts S T .backtrack m' s'
  recedes : s.Recedes (P.scale facts T).results s'
  settled : ∀ t, o = some t → t.Settled S

theorem Finds.after {x : Except Failure (Option Triple) × Machine × Session}
    (h : Unless (Finds P facts S T s1) x) (hs : s.Recedes (P.scale facts T).results s1) :
    Unless (Finds P facts S T s) x := by
  obtain ⟨e | o, m', s'⟩ := x
  · trivial
  · exact ⟨h.active, hs.trans h.recedes, h.settled⟩

/-- The tables may wane while the machine of the query waits. -/
theorem Underway.wanes (h : Underway P facts S T .backtrack m s) (hs : s.Wanes P facts T s') :
    Underway P facts S T .backtrack m s' ∧
      toll P facts T .backtrack m s' ≤ toll P facts T .backtrack m s := by
  have hcost := h.machine.cost_le (P.scale facts T) hs.recedes
  have hle := hs.cost_le
  refine ⟨⟨hs.tables, h.machine.grows hs.recedes.grows, trivial⟩, ?_⟩
  unfold toll
  omega

/-- A query whose consumer can go on, where all that costs less comes to an end. -/
theorem await_ready_settles (hP : P.Compiled) {c : Nat} (h : m.Searches P facts S T q s)
    (hstack : m.stack = []) (hk : toll P facts T .backtrack m s ≤ k)
    (hless : ∀ m' s', m'.Searches P facts S T q s' → toll P facts T .backtrack m' s' < k →
      Settles (fun n => Session.advance (P.world st) q n m' s') (Unless (Finds P facts S T s')))
    (htake : s.takeReady q = some (c, s1)) :
    Settles (fun n => Session.await (P.world st) q n m s) (Unless (Finds P facts S T s)) := by
  refine .succ (g := fun n => Session.await (P.world st) q (n + 1) m s) ?_ rfl fun n => rfl
  simp only [Session.await, htake]
  have hebbs := Session.ebbs_takeReady htake
  obtain ⟨h1, h2, hle⟩ := h.active.ebbs hebbs
  rcases hr : m.restore c s1 with ⟨e | ok, m2, s2⟩
  · exact .pure trivial
  · cases ok
    obtain ⟨h3, h4, h5, hlt⟩ := restore_fares h1 h2
      (fun _ _ => Session.read_ne_pending (isReady_takeReady htake)) hr
    have hmove : Moves P st q (.wait m, s) (.search .backtrack m2, s2) := .restore htake hr
    obtain ⟨⟨hidle, hasks⟩, -⟩ := hmove.kept ⟨h.idle, h.asks, hstack⟩
    obtain ⟨hformed, -, htables⟩ := hmove.formed hP ⟨h.formed, h.tables⟩
    refine (hless m2 s2 ⟨⟨h3, h4, trivial⟩, hformed, htables, hidle, hasks⟩ ?_).imp
      fun x hx => Finds.after hx ((hebbs.trans h5).recedes _)
    refine Nat.lt_of_lt_of_le ?_ hk
    unfold toll
    omega

/-- A query that waits, where all that costs less comes to an end. -/
theorem await_settles (hP : P.Compiled) (hbounded : P.Bounded facts S T)
    (h : m.Searches P facts S T q s) (hstack : m.stack = [])
    (hk : toll P facts T .backtrack m s ≤ k)
    (hless : ∀ m' s', m'.Searches P facts S T q s' → toll P facts T .backtrack m' s' < k →
      Settles (fun n => Session.advance (P.world st) q n m' s') (Unless (Finds P facts S T s'))) :
    Settles (fun n => Session.await (P.world st) q n m s) (Unless (Finds P facts S T s)) := by
  -- the query goes on when it can
  have hgo : ∀ s1, s.Wanes P facts T s1 → s1.Idle → m.Asks q s1 → s1.Formed P →
      s1.queryReady q = true →
      Settles (fun n => Session.await (P.world st) q n m s1) (Unless (Finds P facts S T s)) := by
    intro s1 hwanes hidle hasks htables hready
    obtain ⟨c, s2, htake⟩ := takeReady_of_queryReady hasks.works hready
    obtain ⟨hactive, hle⟩ := h.active.wanes hwanes
    exact (await_ready_settles hP ⟨hactive, h.formed, htables, hidle, hasks⟩ hstack (hle.trans hk)
      hless htake).imp fun x hx => Finds.after hx hwanes.recedes
  cases htake : s.takeReady q with
  | some x =>
    obtain ⟨c, s1⟩ := x
    exact await_ready_settles hP h hstack hk hless htake
  | none =>
    refine .succ (g := fun n => Session.await (P.world st) q (n + 1) m s) ?_ rfl fun n => rfl
    simp only [Session.await, htake]
    split
    · have hebbs := (s.noted_note (.queryDone q)).ebbs
      obtain ⟨h1, h2, -⟩ := h.active.ebbs hebbs
      exact .pure ⟨⟨h1, h2, trivial⟩, hebbs.recedes _, fun t e => by cases e⟩
    · next hne =>
      have hstart : Phase.Formed P s (.wait m) := ⟨h.formed, h.tables⟩
      have hkept : Phase.Kept q s (.wait m) := ⟨h.idle, h.asks, hstack⟩
      have hout : MovesTo P st q (.wait m, s) (.agenda [] m, s) :=
        .single (.await htake (by simpa using hne))
      refine ((runAgenda_settles st (q := q) hbounded.simple hbounded.serves_all []
        h.active.tables).and (q := fun x => x.1 = .ok () →
          MovesTo P st q (.wait m, s) (.returned m, x.2))
        fun e => (runAgenda_moves hP hstart hout e).1).andThen
        (fun n hn => by simp only [hn]) fun x hx => ?_
      obtain ⟨e | ok, s1⟩ := x
      · exact ⟨fun _ => some (.error e, m, s1), .pure trivial, fun n hn => by simp only [hn]⟩
      · obtain ⟨hwanes, hmoves⟩ := hx
        have hreturned := hmoves rfl
        obtain ⟨⟨hidle, hwaits, -⟩, -⟩ := hreturned.kept hkept
        obtain ⟨-, htables⟩ := hreturned.formed hP hstart
        by_cases hready : s1.queryReady q = true
        · exact ⟨_, hgo s1 hwanes hidle hwaits.toAsks htables hready,
            fun n hn => by simp only [hn, hready, if_true]⟩
        · have hchecked := s1.ebbs_checkCompletion (s1.blockedOn q)
          have hforced := Session.ebbs_completeAll .generatorDeadlocked (s1.blockedOn q)
            (s1.checkCompletion (s1.blockedOn q))
          have hidle1 := hidle.checkCompletion (s1.blockedOn q)
          by_cases hready1 : (s1.checkCompletion (s1.blockedOn q)).queryReady q = true
          · refine ⟨_, hgo _ (hwanes.trans (hwanes.tables.wanes hchecked)) hidle1 ?_
              (htables.sameTables hchecked.sameTables) hready1,
              fun n hn => by
                simp only [hn, hready, hready1, if_true, Bool.false_eq_true, if_false]⟩
            exact hwaits.toAsks.spares (s1.spares_checkCompletion _ fun _ => False) id
          · have hboth := hchecked.trans hforced
            refine ⟨_, hgo _ (hwanes.trans (hwanes.tables.wanes hboth))
              (hidle1.completeAll _ _) ?_ (htables.sameTables hboth.sameTables)
              (queryReady_forced hidle hwaits),
              fun n hn => by simp only [hn, hready, hready1, Bool.false_eq_true, if_false]⟩
            exact hwaits.toAsks.spares ((s1.spares_checkCompletion _ fun _ => False).trans
              (Session.spares_completeAll _ _ _ _)) id

/-- Every search for the next answer of a query comes to an end. -/
theorem advance_settles (st : Settings) (hP : P.Compiled) (hbounded : P.Bounded facts S T)
    (h : m.Searches P facts S T q s) :
    Settles (fun n => Session.advance (P.world st) q n m s) (Unless (Finds P facts S T s)) := by
  generalize htoll : toll P facts T .backtrack m s = k
  induction k using Nat.strong_induction_on generalizing m s with
  | h k ih =>
    refine .succ (g := fun n => Session.advance (P.world st) q (n + 1) m s) ?_ rfl fun n => rfl
    have hstart : Phase.Formed P s (.search .backtrack m) := ⟨h.formed, trivial, h.tables⟩
    have hkept : Phase.Kept q s (.search .backtrack m) := ⟨h.idle, h.asks⟩
    have hdry : ∀ {n : Nat} {x : Except Failure (Option Triple) × Machine × Session},
        m.next (P.world st) n s = some x → x.1 = .ok none →
        MovesTo P st q (.search .backtrack m, s) (.wait x.2.1, x.2.2) := by
      rintro n ⟨-, m1, s1⟩ hnext rfl
      obtain ⟨control1, m2, s2, s3, h1, h2, -, e⟩ := next_moves hP hstart .search .turn
        (fun hformed => ⟨hformed.1, hformed.2.1⟩) .refl hnext
      obtain rfl := e rfl
      exact h1.tail (.dry h2)
    refine ((next_settles st hbounded h.active).and hdry).andThen
      (fun n hn => by rw [Session.advance, hn]) fun x hx => ?_
    obtain ⟨hfares, hmoves⟩ := hx
    rcases x with ⟨e | _ | t, m1, s1⟩
    · exact ⟨fun _ => some (.error e, m1, s1), .pure trivial, fun n hn => by rw [Session.advance, hn]⟩
    · obtain ⟨hactive, hrecedes, -, hpaid⟩ := hfares
      have hdry := hmoves rfl
      obtain ⟨⟨hidle, hasks, hstack⟩, -⟩ := hdry.kept hkept
      obtain ⟨hformed, htables⟩ := hdry.formed hP hstart
      have hle : toll P facts T .backtrack m1 s1 ≤ k := by
        rcases hpaid with hlt | ⟨-, -, rfl, rfl⟩
        · exact Nat.le_of_lt (htoll ▸ hlt)
        · exact Nat.le_of_eq htoll
      exact ⟨_, (await_settles hP hbounded ⟨hactive, hformed, htables, hidle, hasks⟩ hstack hle
        fun m' s' h' hlt => ih _ hlt h' rfl).imp fun x hx => Finds.after hx hrecedes,
        fun n hn => by rw [Session.advance, hn]⟩
    · exact ⟨fun _ => some (.ok (some t), m1, s1), .pure
        ⟨hfares.active, hfares.recedes, hfares.settled⟩, fun n hn => by rw [Session.advance, hn]⟩

end

end TabledRules
