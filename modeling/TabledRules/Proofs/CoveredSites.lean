-- A query that has come to its end has returned all that was asked for, after
-- every history in which no act has failed since the tables were last cleared.
import TabledRules.Proofs.CoveredMoves
import TabledRules.Proofs.DeadQueries

namespace TabledRules

/-! ## Queries that are opened -/

section
variable {P : Program} {X : Prospect P} {st : Settings} {s s' : Session} {m : Machine}
  {pattern : Triple} {q : Nat}

/-- The machine of a new query gives all that is asked for. -/
theorem Session.Covered.startQuery (h : s.Covered X fun _ => False) (hidle : s.Idle)
    (hs : s.Sound P)
    (hnew : ∀ {c : Nat} {k : Consumer}, s.consumers[c]? = some k → k.owner ≠ .query q)
    (hstart : Machine.startQuery (P.world st) pattern q s = (.ok m, s')) :
    s'.Covered X (fun _ => False) ∧ m.Covers X s' (X.asked · pattern) .backtrack := by
  rcases startQuery_ok hstart with ⟨hno, hm, rfl⟩ | ⟨htable, m0, g, s1, hm0, hg, rfl, rfl⟩
  · exact ⟨h, start_linked hm s', trivial, fun n t hasked =>
      .inl (start_gives hm (X.asked_start hasked hno) s')⟩
  · obtain ⟨hstandard, hbindings, hstack, hsusp, -, -, howner, -⟩ := blank_eq hm0
    have hunused : m0.Unused := ⟨by unfold Machine.readers; rw [hstack]; rfl, hsusp⟩
    have htied : m0.Tied s := hunused.tied (by rwa [howner])
    have heffect : Effect P st m0 s
        (m0.pushed .root [.proceed] (.results s1.nextId pattern.standard))
        (s1.addConsumer g (.query q)).2 := by
      refine .table hg ?_ rfl (by rw [howner])
      unfold Machine.readers
      rw [Machine.stack_pushed]
      rfl
    obtain ⟨-, hgrows, -⟩ := startQuery_sound hs hstart
    refine ⟨heffect.covered hgrows htied hidle.wired hidle.manned (fun g e => ?_) h,
      (blank_linked hm0 _).pushed_root (fun rest args halt => nomatch halt), trivial,
      fun n t hasked => .inl ?_⟩
    · rw [howner] at e
      cases e
    · obtain ⟨r, hdue, hoffers⟩ := X.asked_table hasked htable
      have hgives := reader_gives (X := X) (m := m0) (t := t) hidle.wired hs hg rfl hdue
        .root (by rw [hstandard, hbindings]; exact hoffers)
      rw [howner] at hgives
      exact hgives

/-- The session in which a query was opened has the tables it had. -/
theorem Session.Covered.openQuery (h : s.Covered X fun _ => False) (hidle : s.Idle) :
    s.openQuery.2.Covered X fun _ => False := by
  have hgrows : s.Grows s.openQuery.2 :=
    ⟨rfl, Nat.le_succ _, fun _ hk => ⟨_, hk, rfl⟩, fun _ hg => ⟨_, hg, rfl⟩⟩
  refine h.spares hidle.manned (s.spares_openQuery fun _ => False) hgrows (fun _ e => e.elim) h.full
    fun hg hnone => ?_
  cases hg.symm.trans hnone

/-! ## Queries that are closed -/

/-- Consumers are given up, and no table is touched. -/
theorem Session.Covered.dismissed (h : s.Covered X fun _ => False) (hidle : s.Idle) (q : Nat) :
    (s.dismissed q).Covered X fun _ => False := by
  have hsame : s.SameTables (s.dismissed q) :=
    (Session.SameTables.foldl (fun s (a : Nat × Consumer) => s.sameTables_removeConsumer a.1) _ s).trans
      (Session.sameTables_queries _ _)
  refine h.kept hidle.manned (s.spares_dismissed q) hsame (fun g e => by cases e)
    fun {g gen gen'} hgen hgen' hc => .inl ?_
  obtain ⟨gen1, hgen1, e⟩ := Session.look_removeAll _ s hgen'
  cases hgen.symm.trans hgen1
  exact e ▸ hc

theorem Session.Covered.closeQuery (h : s.Covered X fun _ => False) (hidle : s.Idle) (q : Nat) :
    (s.closeQuery q).Covered X fun _ => False := by
  rcases s.closeQuery_cases q with e | ⟨roots, e⟩
  · rw [e]
    have hsame := Session.SameTables.foldl
      (fun s (a : Nat × Consumer) => s.sameTables_removeConsumer a.1) (s.ownedBy (.query q)) s
    refine h.kept hidle.manned (s.spares_removeOwned (o := (· = .query q)) _ (.inl rfl)) hsame
      (fun g e => by cases e) fun {g gen gen'} hgen hgen' hc => .inl ?_
    obtain ⟨gen1, hgen1, e⟩ := Session.look_removeAll _ s hgen'
    cases hgen.symm.trans hgen1
    exact e ▸ hc
  · rw [e]
    have hidle' := hidle.dismissed q
    exact ((h.dismissed hidle q).checkCompletion hidle' roots).noted
      (hidle'.checkCompletion roots).manned (Session.noted_note _ _)

end

/-! ## Queries that are read -/

/-- All that is wanted of the query is given by its machine, which finds answers only, or is the
answer that it has looked ahead to. -/
structure Query.Covers {P : Program} (X : Prospect P) (s : Session) (want : Nat → Triple → Prop)
    (q : Query) : Prop where
  machine : ∀ m, q.machine = some m → (∃ pattern, m.Sound P s (QueryAnswer P pattern)) ∧
    m.Covers X s (fun n t => want n t ∧ q.lookahead ≠ some t) .backtrack
  ended : q.finished = true ∨ q.machine = none → ∀ n t, want n t → q.lookahead = some t

section
variable {P : Program} {X : Prospect P} {st : Settings} {s s' : Session} {q found : Query}
  {want want' : Nat → Triple → Prop} {id : Nat} {K : Triple → Prop}

theorem Query.Covers.imp (h : q.Covers X s want) (hw : ∀ n t, want' n t → want n t) :
    q.Covers X s want' :=
  ⟨fun m hm => (h.machine m hm).imp_right fun h => h.imp fun n t ht => ⟨hw n t ht.1, ht.2⟩,
    fun he n t ht => h.ended he n t (hw n t ht)⟩

/-- The answer that was looked ahead to is taken. -/
theorem Query.Covers.take (h : q.Covers X s want) :
    ({ q with lookahead := none } : Query).Covers X s
      fun n t => want n t ∧ q.lookahead ≠ some t where
  machine m hm := (h.machine m hm).imp_right fun h => h.imp fun _ _ ht => ht.1
  ended he n t ht := absurd (h.ended he n t ht.1) ht.2

/-- A query that looks for its next answer loses nothing, and where there is none nothing is
wanted of it. -/
theorem Query.Looks.covers (h : q.Looks P st id s found s') (hP : P.Standard) (hidle : s.Idle)
    (hasks : ∀ m, q.machine = some m → m.Asks id s) (hs : s.Sound P)
    (hcov : s.Covered X fun _ => False) (hcovers : q.Covers X s want) :
    (s'.Covered X (fun _ => False) ∧ found.Covers X s' want ∧
      (found.lookahead = none → ∀ n t, ¬ want n t)) ∧
    s.Spares (Owner.Involved id) s' ∧ s.Grows s' := by
  have nothing : q.lookahead = none → q.finished = true ∨ q.machine = none → ∀ n t, ¬ want n t := by
    intro hnone hend n t hw
    rw [hcovers.ended hend n t hw] at hnone
    cases hnone
  cases h with
  | there hthere =>
    refine ⟨⟨hcov, hcovers, fun hnone => nothing hnone (.inl (hthere.resolve_left ?_))⟩,
      .refl _ _, .refl _⟩
    rw [hnone]
    simp
  | idle hnone hm =>
    have hno := nothing hnone (.inr hm)
    exact ⟨⟨hcov, ⟨fun m hm' => hcovers.machine m hm', fun _ n t hw => absurd hw (hno n t)⟩,
      fun _ => hno⟩, .refl _ _, .refl _⟩
  | @answer m m' t _ hnone hm hmoves =>
    obtain ⟨⟨pattern, hsound⟩, hown⟩ := hcovers.machine m hm
    have hfinds : ∀ u, QueryAnswer P pattern u → P.Finds u := fun u hu => .inr ⟨pattern, hu⟩
    obtain ⟨-, hspares⟩ := hmoves.kept ⟨hidle, hasks m hm⟩
    obtain ⟨⟨-, hsound'⟩, hgrows⟩ := MovesTo.sound hP.compiled hmoves ⟨hs, hsound, trivial⟩
    obtain ⟨hcov', hown'⟩ := hmoves.covered hP hfinds ⟨hidle, hasks m hm⟩ ⟨hs, hsound, trivial⟩
      ⟨hcov, hown⟩
    refine ⟨⟨hcov', ⟨fun m1 hm1 => ?_, fun hend n u hw => ?_⟩, fun e => by cases e⟩, hspares, hgrows⟩
    · cases hm1
      exact ⟨⟨pattern, hsound'⟩, hown'.imp fun n u hw => ⟨⟨hw.1, by rw [hnone]; simp⟩, hw.2⟩⟩
    · exact absurd hw (nothing hnone (.inl (hend.resolve_right (by simp))) n u)
  | @ended m m' _ hnone hm hmoves =>
    obtain ⟨⟨pattern, hsound⟩, hown⟩ := hcovers.machine m hm
    have hfinds : ∀ u, QueryAnswer P pattern u → P.Finds u := fun u hu => .inr ⟨pattern, hu⟩
    obtain ⟨⟨hidle', hasks', hend⟩, hspares⟩ := hmoves.kept ⟨hidle, hasks m hm⟩
    obtain ⟨-, hgrows⟩ := MovesTo.sound hP.compiled hmoves ⟨hs, hsound, trivial⟩
    obtain ⟨hcov', hown'⟩ := hmoves.covered hP hfinds ⟨hidle, hasks m hm⟩ ⟨hs, hsound, trivial⟩
      ⟨hcov, hown⟩
    have hno : ∀ n t, ¬ want n t := fun n t hw =>
      hown'.ended hidle' hasks' (hend rfl).1 (hend rfl).2 n t ⟨⟨hw, by rw [hnone]; simp⟩, by simp⟩
    exact ⟨⟨hcov', ⟨fun m1 hm1 => (by cases hm1), fun _ n t hw => absurd hw (hno n t)⟩,
      fun _ => hno⟩, hspares, hgrows⟩

end

/-! ## Engines -/

/-- The tables are covered, and so is what `W` says is wanted of each query by its id. -/
structure Site.Covered (R : Registry) (X : ∀ P, Prospect P) (W : Nat → Nat → Triple → Prop)
    (σ : Site) : Prop where
  tables : σ.engine.session.version = σ.graph.version →
    σ.engine.session.Covered (X (σ.program R)) fun _ => False
  query : ∀ {id : Nat} {q : Query}, σ.engine.queries[id]? = some q → q.closed = false →
    q.version = σ.graph.version → (σ.engine.session.queries[id]?).isSome = true →
    q.Covers (X (σ.program R)) σ.engine.session (W id)

section
variable {R : Registry} {X : ∀ P, Prospect P} {W W' : Nat → Nat → Triple → Prop}
  {K : Nat → Triple → Prop} {σ σ' : Site} {g : Graph} {e e' : Engine} {o : Owner → Prop}

theorem Site.Covered.imp (h : σ.Covered R X W) (hW : ∀ id n t, W' id n t → W id n t) :
    σ.Covered R X W' :=
  ⟨h.tables, fun hq hc hv hopen => (h.query hq hc hv hopen).imp (hW _)⟩

theorem Session.Covered.of_empty {P : Program} {X : Prospect P} {s : Session}
    (hg : s.generators = ∅) : s.Covered X fun _ => False := by
  refine ⟨fun g gen hgen => ?_, fun hgen => ?_⟩
  · rw [hg] at hgen
    cases hgen.symm.trans Std.TreeMap.getElem?_emptyc
  · rw [hg] at hgen
    cases hgen.symm.trans Std.TreeMap.getElem?_emptyc

theorem Site.Covered.of_cleared (hg : e.session.generators = ∅) (hq : e.session.queries = ∅) :
    (Site.mk g e).Covered R X W := by
  refine ⟨fun _ => .of_empty hg, fun {id _} _ _ _ hopen => ?_⟩
  change (e.session.queries[id]?).isSome = true at hopen
  rw [hq, Std.TreeMap.getElem?_emptyc] at hopen
  cases hopen

/-- The engine goes on with another session and other queries. -/
theorem Site.Covered.update (h : (Site.mk g e).Covered R X W) (hkept : e.Kept R)
    (hσ : (Site.mk g e).Sound R K) {s' : Session} {queries : Std.TreeMap Nat Query}
    (hs : e.session.Spares o s') (hgrows : e.session.Grows s')
    (hkept' : ({ e with session := s', queries } : Engine).Kept R)
    (htables : e.session.version = g.version → s'.Covered (X ⟨R, e.rules, g⟩) fun _ => False)
    (hqueries : ∀ {id : Nat} {q : Query}, queries[id]? = some q → q.closed = false →
      q.version = g.version → q.Covers (X ⟨R, e.rules, g⟩) s' (W' id) ∨
        ¬ o (.query id) ∧ (∀ n t, W' id n t → W id n t) ∧
          ∃ old : Query, e.queries[id]? = some old ∧ q = { old with handles := q.handles }) :
    (Site.mk g { e with session := s', queries }).Covered R X W' := by
  refine ⟨fun hv => htables (hgrows.version.symm.trans hv), fun {id q} hq hclosed hv hopen => ?_⟩
  rcases hqueries hq hclosed hv with hcovers | ⟨ho, hW, old, hold, hsame⟩
  · exact hcovers
  · -- a query that is not open is never opened again
    have hbefore : (e.session.queries[id]?).isSome = true := by
      by_contra hno
      obtain ⟨waiting, hw⟩ := Option.isSome_iff_exists.1 hopen
      have hdone : e.session.Done (.query id) :=
        ⟨hσ.query_lt hold, Option.not_isSome_iff_eq_none.1 hno⟩
      cases (hs.done hdone).2.symm.trans hw
    rw [hsame] at hclosed hv ⊢
    have hcovers := (h.query hold hclosed hv hbefore).imp hW
    refine ⟨fun m hm => ?_, hcovers.ended⟩
    have hm' : q.machine = some m := by
      rw [hsame]
      exact hm
    obtain ⟨⟨pattern, hsound⟩, hmachine⟩ := hcovers.machine m hm
    exact ⟨⟨pattern, hsound.grows hgrows⟩, hmachine.aside (hkept.asks hold hm hbefore)
      (hkept'.asks hq hm' hopen) hs hgrows ho⟩

/-- Only the journal changes, and how many handles there are. -/
theorem Site.Covered.noted (h : (Site.mk g e).Covered R X W) (hkept : e.Kept R)
    (hσ : (Site.mk g e).Sound R K) {s' : Session} {queries : Std.TreeMap Nat Query}
    (hs : e.session.Noted s') (hkept' : ({ e with session := s', queries } : Engine).Kept R)
    (hqueries : ∀ {id : Nat} {q : Query}, queries[id]? = some q →
      ∃ old : Query, e.queries[id]? = some old ∧ q = { old with handles := q.handles }) :
    (Site.mk g { e with session := s', queries }).Covered R X W :=
  h.update hkept hσ (hs.spares fun _ => False) hs.grows hkept'
    (fun hv => (h.tables hv).noted hkept.idle.manned hs)
    fun hq _ _ => .inr ⟨fun e => e, fun _ _ hw => hw, hqueries hq⟩

/-- Of a changed store there is nothing to know. -/
theorem Site.Covered.outdated (hσ : (Site.mk g e).Sound R K) {g' : Graph}
    (hv : g'.version = g.version + 1) : (Site.mk g' e).Covered R X W := by
  have hle : e.session.version ≤ g.version := hσ.version_le
  refine ⟨fun hv' => ?_, fun {id q} hq _ hv' _ => ?_⟩
  · change e.session.version = g'.version at hv'
    omega
  · have hq' : q.version ≤ e.session.version := hσ.query_le hq
    change q.version = g'.version at hv'
    omega

theorem Site.Covered.closeQuery (h : (Site.mk g e).Covered R X W) (hkept : e.Kept R)
    (hσ : (Site.mk g e).Sound R K) (id : Nat) :
    (Site.mk g (e.closeQuery id)).Covered R X W := by
  have hkept' := hkept.closeQuery id
  unfold Engine.closeQuery at hkept' ⊢
  split
  · exact h
  · next query hq =>
    simp only [hq] at hkept'
    split
    · exact h
    · next hopen =>
      rw [if_neg hopen] at hkept'
      refine h.update hkept hσ (e.session.spares_closeQuery id)
        (e.session.sameTables_closeQuery id).grows hkept'
        (fun hv => (h.tables hv).closeQuery hkept.idle id) fun {id' q} hq' hclosed _ => ?_
      rw [Std.TreeMap.getElem?_insert] at hq'
      split at hq'
      · cases hq'
        cases hclosed
      · next hne =>
        refine .inr ⟨fun e => hne ?_, fun _ _ hw => hw, q, hq', rfl⟩
        cases e
        exact Std.LawfulEqCmp.compare_eq_iff_eq.2 rfl

/-- A query is opened, on the tables as they are or on cleared ones. -/
theorem Site.Covered.find (h : e.session.version = g.version → (Site.mk g e).Covered R X W)
    (hkept : e.session.version = g.version → e.Kept R) (hσ : (Site.mk g e).Sound R K)
    {pattern : Triple} {handle : Handle} (hfind : e.find g.toStore pattern = (.ok handle, e')) :
    (Site.mk g e').Covered R X
      (Function.update W handle.query ((X ⟨R, e.rules, g⟩).asked · pattern)) := by
  have hkept' := Engine.Kept.find hkept hσ.compiled hσ.query_lt hfind
  obtain ⟨m, s', rfl, hstart, rfl⟩ := find_ok hfind
  -- the engine whose tables are about the store as it is
  have h1 := Engine.Kept.refresh hkept hσ.compiled hσ.query_lt
  have h2 : (Site.mk g { e with session := e.session.refresh g.toStore.version }).Sound R K :=
    hσ.refresh
  have hfresh :
      (Site.mk g { e with session := e.session.refresh g.toStore.version }).Covered R X W ∧
      (e.session.refresh g.toStore.version).version = g.version := by
    unfold Session.refresh
    split
    · next hv => exact ⟨h hv, hv⟩
    · exact ⟨.of_cleared rfl rfl, rfl⟩
  obtain ⟨h3, hv⟩ := hfresh
  generalize e.session.refresh g.toStore.version = s0 at h1 h2 h3 hv hstart hkept'
  have hnoted := Session.noted_note s0.openQuery.2 (.queryOpened s0.nextId pattern)
  have hidle := h1.idle.openQuery
  have hopened := hidle.noted hnoted
  have hgrows : s0.Grows s0.openQuery.2 :=
    ⟨rfl, Nat.le_succ _, fun _ hk => ⟨_, hk, rfl⟩, fun _ hg => ⟨_, hg, rfl⟩⟩
  have hsound := (h2.tables hv).openQuery pattern
  have hcovered := ((h3.tables hv).openQuery h1.idle).noted hidle.manned hnoted
  obtain ⟨-, -, hspares⟩ := hopened.startQuery (P := ⟨R, e.rules, g⟩) (s0.works_openQuery pattern)
    h1.idle.wired.owner_ne hstart
  obtain ⟨h4, h5⟩ := hcovered.startQuery (P := ⟨R, e.rules, g⟩) hopened hsound
    h1.idle.wired.owner_ne hstart
  obtain ⟨-, hgrows', hmachine⟩ := startQuery_sound (P := ⟨R, e.rules, g⟩) hsound hstart
  refine h3.update h1 h2 (((s0.spares_openQuery _).trans (Session.spares_note _ _ _)).trans hspares)
    ((hgrows.trans hnoted.grows).trans hgrows') hkept' (fun _ => h4) fun {id q} hq _ _ => ?_
  rw [Std.TreeMap.getElem?_insert] at hq
  split at hq
  · next heq =>
    cases hq
    rw [Std.LawfulEqCmp.compare_eq_iff_eq] at heq
    subst heq
    refine .inl ⟨fun m' hm' => ?_, fun hend => ?_⟩
    · cases hm'
      refine ⟨⟨pattern, hmachine m rfl⟩, h5.imp fun n t hw => ?_⟩
      change Function.update W s0.nextId _ s0.nextId n t ∧ _ at hw
      rw [Function.update_self] at hw
      exact hw.1
    · rcases hend with hend | hend <;> cases hend
  · next hne =>
    have hid : id ≠ s0.nextId := fun e => hne (Std.LawfulEqCmp.compare_eq_iff_eq.2 e.symm)
    refine .inr ⟨fun e => ?_, fun n t hw => ?_, q, hq, rfl⟩
    · cases e
      exact hid rfl
    · change Function.update W s0.nextId _ id n t at hw
      rw [Function.update_of_ne hid] at hw
      exact hw

/-- A query is read: what it returns is not wanted any more, and at its end nothing is. -/
theorem Site.Covered.fill (h : (Site.mk g e).Covered R X W) (hkept : e.Kept R)
    (hσ : (Site.mk g e).Sound R K) (hP : (Program.mk R e.rules g).Standard) {fuel id : Nat}
    {take : Bool} {answer : Option Triple}
    (hfill : e.fill g.toStore fuel id take = some (.ok answer, e')) :
    (Site.mk g e').Covered R X (Function.update W id fun n t =>
      W id n t ∧ (take = true → answer ≠ some t)) ∧ (answer = none → ∀ n t, ¬ W id n t) := by
  have hkept' := hkept.fill hfill
  obtain ⟨query, found, s', hq, hobstacle, hlooks, rfl, rfl⟩ := hkept.fill_ok hfill
  obtain ⟨hclosed, hv, hopen⟩ := of_obstacle hobstacle
  have hsv := hσ.version_eq hq hv
  have hasks : ∀ m, query.machine = some m → m.Asks id e.session :=
    fun m hm => hkept.asks hq hm hopen
  obtain ⟨⟨h1, h2, h3⟩, hspares, hgrows⟩ := hlooks.covers hP hkept.idle hasks (hσ.tables hsv)
    (h.tables hsv) (h.query hq hclosed hv hopen)
  refine ⟨h.update hkept hσ hspares hgrows hkept' (fun _ => h1) fun {id' q} hq' _ _ => ?_, h3⟩
  rw [Std.TreeMap.getElem?_insert] at hq'
  split at hq'
  · next heq =>
    cases hq'
    rw [Std.LawfulEqCmp.compare_eq_iff_eq] at heq
    subst heq
    refine .inl ?_
    rw [Function.update_self]
    cases take with
    | false => exact h2.imp fun n t hw => hw.1
    | true => exact h2.take.imp fun n t hw => ⟨hw.1, hw.2 rfl⟩
  · next hne =>
    have hid : id' ≠ id := fun e => hne (Std.LawfulEqCmp.compare_eq_iff_eq.2 e.symm)
    refine .inr ⟨fun e => hid e, fun n t hw => ?_, q, hq', rfl⟩
    rw [Function.update_of_ne hid] at hw
    exact hw

theorem Site.Covered.clone (h : (Site.mk g e).Covered R X W) (hkept : e.Kept R)
    (hσ : (Site.mk g e).Sound R K) (handle : Handle) (hkept' : (e.clone handle).2.Kept R) :
    (Site.mk g (e.clone handle).2).Covered R X W := by
  refine h.noted hkept hσ (.refl _) hkept' fun {id query} hq => ?_
  rw [Std.TreeMap.getElem?_modify] at hq
  split at hq
  · next heq =>
    obtain ⟨old, hold, rfl⟩ := Option.map_eq_some_iff.1 hq
    rw [Std.LawfulEqCmp.compare_eq_iff_eq] at heq
    exact ⟨old, heq ▸ hold, rfl⟩
  · exact ⟨query, hq, rfl⟩

/-- A handle is dropped, which closes its query if it was the last one. -/
theorem Site.Covered.drop (h : (Site.mk g e).Covered R X W) (hkept : e.Kept R)
    (hσ : (Site.mk g e).Sound R K) (handle : Handle) (hkept' : (e.drop handle).Kept R) :
    (Site.mk g (e.drop handle)).Covered R X W := by
  unfold Engine.drop at hkept' ⊢
  split
  · exact h
  · next query hq =>
    simp only [hq] at hkept'
    split
    · next hlast =>
      rw [if_pos hlast] at hkept'
      refine (h.closeQuery hkept hσ handle.query).noted (hkept.closeQuery handle.query)
        (hσ.closeQuery handle.query) (.refl _) hkept' fun {id query'} hq' => ⟨query', ?_, rfl⟩
      rw [Std.TreeMap.getElem?_erase] at hq'
      split at hq'
      · cases hq'
      · exact hq'
    · next hmore =>
      rw [if_neg hmore] at hkept'
      refine h.noted hkept hσ (.refl _) hkept' fun {id query'} hq' => ?_
      rcases getElem?_insert_cases hq' with ⟨rfl, rfl⟩ | hq'
      · exact ⟨query, hq, rfl⟩
      · exact ⟨query', hq', rfl⟩

end

/-! ## Histories -/

/-- What is wanted of the queries after an act: all that is asked for of a query that was opened,
and what a query has returned not any more. -/
def wantedAfter (X : ∀ P, Prospect P) (P : Program) (W : Nat → Nat → Triple → Prop) :
    Act → Reply → Nat → Nat → Triple → Prop
  | .find pattern, .opened (.ok handle) =>
    Function.update W handle.query ((X P).asked · pattern)
  | .next handle, .answer (.ok (some t)) =>
    Function.update W handle.query fun n u => W handle.query n u ∧ u ≠ t
  | _, _ => W

section
variable {R : Registry} {X : ∀ P, Prospect P} {W W' : Nat → Nat → Triple → Prop}
  {K : Nat → Triple → Prop} {start σ σ' : Site} {id : Nat} {ts : List Triple}

theorem wantedAfter_next {P : Program} {handle : Handle} {answer : Option Triple} {n : Nat}
    {t : Triple} (h : wantedAfter X P W (.next handle) (.answer (.ok answer)) id n t) :
    Function.update W handle.query
      (fun n t => W handle.query n t ∧ (true = true → answer ≠ some t)) id n t := by
  cases answer with
  | none =>
    by_cases hid : id = handle.query
    · subst hid
      rw [Function.update_self]
      exact ⟨h, fun _ => by simp⟩
    · rw [Function.update_of_ne hid]
      exact h
  | some u =>
    change Function.update W handle.query _ id n t at h
    by_cases hid : id = handle.query
    · subst hid
      rw [Function.update_self] at h ⊢
      exact ⟨h.1, fun _ e => h.2 (Option.some.inj e).symm⟩
    · rw [Function.update_of_ne hid] at h ⊢
      exact h

/-- No act that does not fail loses what is wanted, as long as the store is ground. -/
theorem Site.Covered.does {a : Act} {r : Reply} (h : σ.Ground → σ.Covered R X W)
    (hkept : σ.engine.Kept R) (hσ : σ.Sound R K) (hP : σ.Ground → (σ.program R).Standard)
    (hdoes : σ.Does a r σ') (hr : ¬ r.Failed) (hground : σ'.Ground) :
    σ'.Covered R X (wantedAfter X (σ.program R) W a r) := by
  have hkept' := hdoes.kept hr hkept
  rcases hdoes.store_cases with hsame | ⟨hengine, hv⟩
  swap
  · obtain ⟨g', e'⟩ := σ'
    obtain rfl : e' = σ.engine := hengine
    exact .outdated hσ hv
  have hground' : σ.Ground := hground.congr hsame.symm
  replace h := h hground'
  replace hP := hP hground'
  cases hdoes with
  | @find g e e' pattern x hfind =>
    cases x with
    | error failure => exact absurd trivial hr
    | ok handle => exact Site.Covered.find (fun _ => h) (fun _ => hkept) hσ hfind
  | @next g e e' fuel handle x hnext =>
    cases x with
    | error failure => exact absurd trivial hr
    | ok answer =>
      obtain ⟨h1, -⟩ := h.fill hkept hσ hP hnext
      exact h1.imp fun id n t hw => wantedAfter_next hw
  | @hasNext g e e' fuel handle x hnext =>
    obtain ⟨⟨y, e1⟩, hfill, hmap⟩ := Option.map_eq_some_iff.1 hnext
    cases y with
    | error failure =>
      cases hmap
      exact absurd trivial hr
    | ok answer =>
      cases hmap
      obtain ⟨h1, -⟩ := h.fill hkept hσ hP hfill
      refine h1.imp fun id n t hw => ?_
      by_cases hid : id = handle.query
      · subst hid
        rw [Function.update_self]
        exact ⟨hw, fun e => by cases e⟩
      · rw [Function.update_of_ne hid]
        exact hw
  | @close g e handle => exact h.closeQuery hkept hσ handle.query
  | @clone g e handle => exact h.clone hkept hσ handle hkept'
  | @drop g e handle => exact h.drop hkept hσ handle hkept'
  | reset => exact .of_cleared rfl rfl
  | @nextMessage g e =>
    exact h.noted hkept hσ ⟨_, _, rfl⟩ hkept' fun {_ query} hq => ⟨query, hq, rfl⟩
  | @printProfile g e =>
    obtain ⟨j, hj⟩ := e.printProfile_eq
    rw [hj] at hkept' ⊢
    exact h.noted hkept hσ ⟨j, e.session.profile, rfl⟩ hkept' fun {_ query} hq => ⟨query, hq, rfl⟩
  | @add g e t =>
    obtain hsame : (g.add t).2 = g := hsame
    rw [hsame]
    exact h
  | @delete g e t =>
    obtain hsame : (g.delete t).2 = g := hsame
    rw [hsame]
    exact h

/-- After every history without failures tables are covered, and so is what is wanted, if the store
is ground then. -/
theorem Site.Unfailing.covered (h : start.Unfailing σ) (hstart : start.engine.Kept Builtin.standard)
    (hcov : start.Covered Builtin.standard X fun _ _ _ => False)
    (hσ : start.Sound Builtin.standard K) : ∃ W, σ.Ground → σ.Covered Builtin.standard X W := by
  induction h with
  | start => exact ⟨_, fun _ => hcov⟩
  | reset hruns hdoes =>
    cases hdoes
    exact ⟨fun _ _ _ => False, fun _ => .of_cleared rfl rfl⟩
  | outdated hruns hv hdoes =>
    obtain ⟨-, -, L, hL, -⟩ := hσ.runs hruns
    cases hdoes with
    | find hfind =>
      exact ⟨_, fun _ => Site.Covered.find (W := fun _ _ _ => False) (fun e => absurd e hv)
        (fun e => absurd e hv) hL hfind⟩
  | act hbefore hr hdoes ih =>
    obtain ⟨W, hW⟩ := ih
    obtain ⟨-, -, L, hL, -⟩ := hσ.runs hbefore.runs
    exact ⟨_, Site.Covered.does hW (hbefore.kept hstart hσ) hL
      (fun hground => ⟨hL.compiled, rfl, hground.stored _⟩) hdoes hr⟩

/-- Acts that do not fail, in which the query with the id returns the answers `ts`. -/
inductive Site.Reads (id : Nat) (start : Site) : List Triple → Site → Prop
  | start : Reads id start [] start
  | answer {σ σ' : Site} {ts : List Triple} {handle : Handle} {t : Triple} : Reads id start ts σ →
    handle.query = id → σ.Does (.next handle) (.answer (.ok (some t))) σ' →
    Reads id start (ts ++ [t]) σ'
  | act {σ σ' : Site} {ts : List Triple} {a : Act} {r : Reply} : Reads id start ts σ → ¬ r.Failed →
    (∀ handle t, a = .next handle → handle.query = id → r ≠ .answer (.ok (some t))) →
    σ.Does a r σ' → Reads id start ts σ'

theorem Site.Reads.runs (h : σ.Reads id ts σ') : σ.Runs (fun _ r => ¬ r.Failed) σ' := by
  induction h with
  | start => exact .refl
  | answer _ _ hdoes ih => exact ih.tail ⟨_, .answer (.ok (some _)), fun hr => hr, hdoes⟩
  | act _ hr _ hdoes ih => exact ih.tail ⟨_, _, hr, hdoes⟩

/-- A query that is opened has a new id. -/
theorem Site.Does.fresh {pattern : Triple} {handle : Handle}
    (h : σ.Does (.find pattern) (.opened (.ok handle)) σ') :
    handle.query = σ.engine.session.nextId := by
  cases h with
  | find hfind =>
    obtain ⟨m, s', rfl, -⟩ := find_ok hfind
    change (Session.refresh _ _).nextId = _
    unfold Session.refresh
    split
    · rfl
    · rfl

/-- What was wanted of a query and not returned is still wanted. -/
theorem Site.Reads.covered (h : σ.Reads id ts σ') (hkept : σ.engine.Kept Builtin.standard)
    (hσ : σ.Sound Builtin.standard K) (hid : id < σ.engine.session.nextId)
    (hcov : σ.Ground → σ.Covered Builtin.standard X W) :
    ∃ W', (σ'.Ground → σ'.Covered Builtin.standard X W') ∧
      ∀ n t, W id n t → t ∉ ts → W' id n t := by
  induction h with
  | start => exact ⟨W, hcov, fun n t hw _ => hw⟩
  | @answer σ1 σ2 ts handle t hbefore hhandle hdoes ih =>
    obtain ⟨W1, h1, h2⟩ := ih
    obtain ⟨-, hle, L, hL, -⟩ := hσ.runs hbefore.runs
    have hkept1 := hbefore.runs.kept (fun _ _ hr => hr) hkept
    refine ⟨_, Site.Covered.does h1 hkept1 hL (fun hground => ⟨hL.compiled, rfl, hground.stored _⟩)
      hdoes (fun hr => hr), fun n u hw hu => ?_⟩
    rw [List.mem_append, List.mem_singleton, not_or] at hu
    change Function.update W1 handle.query _ id n u
    rw [hhandle, Function.update_self]
    exact ⟨h2 n u hw hu.1, hu.2⟩
  | @act σ1 σ2 ts a r hbefore hr hother hdoes ih =>
    obtain ⟨W1, h1, h2⟩ := ih
    obtain ⟨-, hle, L, hL, -⟩ := hσ.runs hbefore.runs
    have hkept1 := hbefore.runs.kept (fun _ _ hr => hr) hkept
    refine ⟨_, Site.Covered.does h1 hkept1 hL (fun hground => ⟨hL.compiled, rfl, hground.stored _⟩)
      hdoes hr, fun n u hw hu => ?_⟩
    have hw1 := h2 n u hw hu
    unfold wantedAfter
    split
    · next pattern handle =>
      have hne : id ≠ handle.query := by
        rw [hdoes.fresh]
        omega
      rw [Function.update_of_ne hne]
      exact hw1
    · next handle t =>
      have hne : id ≠ handle.query := fun e => hother handle t rfl e.symm rfl
      rw [Function.update_of_ne hne]
      exact hw1
    · exact hw1

end

/-- A query that is read has the store on which it was opened. -/
theorem Site.Opened.graph_eq {σ₂ σ₃ σ₄ : Site} {id : Nat} {ok : Act → Reply → Prop} {handle : Handle}
    {answer : Option Triple} (h : σ₂.Opened id σ₂.graph.version) (hruns : σ₂.Runs ok σ₃)
    (hid : handle.query = id) (hnext : σ₃.Does (.next handle) (.answer (.ok answer)) σ₄) :
    σ₃.graph = σ₂.graph := by
  refine hruns.graph_eq ?_
  have hopened := h.runs hruns
  cases hnext with
  | @next g e e' fuel _ _ hfill =>
    unfold Engine.next Engine.fill at hfill
    split at hfill
    · cases hfill
    · next query hq =>
      split at hfill
      · cases hfill
      · next hobstacle =>
        rw [hid] at hq
        exact (of_obstacle hobstacle).2.1.symm.trans (hopened.query hq)

/-- A query that is read to its end over a ground store returns all that was asked for. -/
theorem asked_of_drained {X : ∀ P, Prospect P} {start σ₁ σ₂ σ₃ σ₄ : Site}
    {K : Nat → Triple → Prop} {pattern t : Triple} {ts : List Triple} {handle handle' : Handle} {n : Nat}
    (hstart : start.engine.Kept Builtin.standard) (hcov : start.Covered Builtin.standard X fun _ _ _ => False)
    (hσ : start.Sound Builtin.standard K) (hbefore : start.Unfailing σ₁) (hground : σ₁.Ground)
    (hfind : σ₁.Does (.find pattern) (.opened (.ok handle)) σ₂)
    (hreads : σ₂.Reads handle.query ts σ₃) (hsame : handle'.query = handle.query)
    (hend : σ₃.Does (.next handle') (.answer (.ok none)) σ₄)
    (ht : (X (σ₁.program Builtin.standard)).asked n pattern t) : t ∈ ts := by
  obtain ⟨W, hW⟩ := hbefore.covered hstart hcov hσ
  obtain ⟨-, -, K1, hK1, -⟩ := hσ.runs hbefore.runs
  have hkept1 := hbefore.kept hstart hσ
  obtain ⟨K2, hK2⟩ := hK1.does hfind
  have hkept2 := hfind.kept (fun hr => hr) hkept1
  have hcov2 := Site.Covered.does hW hkept1 hK1
    (fun hground => ⟨hK1.compiled, rfl, hground.stored _⟩) hfind id
  obtain ⟨W3, hcov3, hwant⟩ := hreads.covered hkept2 hK2.sound (hK2.opened _ _ rfl rfl).1 hcov2
  by_contra hno
  have hw := hwant n t (by
    change Function.update W handle.query _ handle.query n t
    rw [Function.update_self]
    exact ht) hno
  obtain ⟨-, -, K3, hK3, -⟩ := hK2.sound.runs hreads.runs
  have hkept3 := hreads.runs.kept (fun _ _ hr => hr) hkept2
  -- the store is still the one on which the query was opened
  have hgraph : σ₂.graph = σ₁.graph := by
    cases hfind
    rfl
  have hopened : σ₂.Opened handle.query σ₂.graph.version := hgraph ▸ hfind.opened
  have hground3 : σ₃.Ground :=
    hground.congr ((hopened.graph_eq hreads.runs hsame hend).trans hgraph)
  cases hend with
  | next hnext =>
    obtain ⟨-, hnothing⟩ := (hcov3 hground3).fill hkept3 hK3
      ⟨hK3.compiled, rfl, hground3.stored _⟩ hnext
    rw [hsame] at hnothing
    exact hnothing rfl n t hw

end TabledRules
