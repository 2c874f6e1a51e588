-- Queries that the store alone answers. Where all goals are tabled and no clause is for the
-- pattern, the machine has nothing but the stored triples to try, one after the other, so the
-- query has as many answers at most.
import TabledRules.Proofs.Indexes
import TabledRules.Proofs.KeptSites
import TabledRules.Proofs.UntabledQueries

namespace TabledRules

/-! ## Machines that go through the store -/

/-- The machine has at most `n` stored triples to try, and nothing else. -/
structure Machine.Scans (n : Nat) (m : Machine) : Prop where
  alone : ∀ (d : Nat) (y : Choice), m.suspended[d]? ≠ some y
  stack : m.stack = [] ∨ ∃ (x : Choice) (goal : Triple) (rest : List Triple), m.stack = [x] ∧
    x.alternatives = .answers goal rest ∧ rest.length ≤ n

/-- The search has at most `n` answers to find. -/
def Phase.Scans (n : Nat) : Phase → Prop
  | .search .backtrack own | .wait own | .agenda _ own | .pump _ _ _ _ _ own | .returned own =>
    own.Scans n
  | .search (.run _ _) _ => False
  | .found (some _) own => ∃ k, n = k + 1 ∧ own.Scans k
  | .found none _ => True

section

variable {P : Program} {st : Settings} {s s' : Session} {m m' : Machine} {p : Progress} {q n : Nat}
  {pattern : Triple}

/-- A stored triple is tried, and it is an answer or it is not. -/
theorem Machine.Scans.turn (hm : m.Scans n) (h : Turn P st .backtrack m s p m' s') :
    (p = .go .backtrack ∧ m'.Scans n) ∨
    (∃ t k, p = .done (.ok (some t)) ∧ n = k + 1 ∧ m'.Scans k) ∨
    p = .done (.ok none) ∧ m' = m := by
  have one : ∀ {c : Choice} {rest : List Choice}, m.stack = c :: rest →
      rest = [] ∧ ∃ goal facts, c.alternatives = .answers goal facts ∧ facts.length ≤ n := by
    intro c rest hs
    rcases hm.stack with hnil | ⟨x, goal, facts, hx, halt, hle⟩
    · cases hs.symm.trans hnil
    · cases hs.symm.trans hx
      exact ⟨rfl, goal, facts, halt, hle⟩
  have other : ∀ {c : Choice} {rest : List Choice} {a : Alternatives}, m.stack = c :: rest →
      c.alternatives = a → (∀ goal facts, a ≠ .answers goal facts) → False := by
    intro c rest a hs ha hne
    obtain ⟨-, goal, facts, halt, -⟩ := one hs
    exact hne goal facts (ha.symm.trans halt)
  cases h with
  | empty => exact .inr (.inr ⟨rfl, rfl⟩)
  | spent hs =>
    obtain ⟨rfl, -⟩ := one hs
    exact .inl ⟨rfl, hm.alone, .inl rfl⟩
  | @missAnswer c rest goal fact facts _ _ _ hs ha =>
    obtain ⟨rfl, _, _, halt, hle⟩ := one hs
    cases ha.symm.trans halt
    exact .inl ⟨rfl, hm.alone, .inr ⟨_, goal, facts, rfl, rfl, Nat.le_of_succ_le hle⟩⟩
  | @storedAnswer c rest goal fact facts _ _ _ _ _ hs ha =>
    obtain ⟨rfl, _, _, halt, hle⟩ := one hs
    cases ha.symm.trans halt
    obtain ⟨k, rfl⟩ := Nat.exists_eq_succ_of_ne_zero (Nat.ne_zero_of_lt hle)
    exact .inr (.inl ⟨fact, k, rfl, rfl, hm.alone,
      .inr ⟨_, goal, facts, rfl, rfl, Nat.le_of_succ_le_succ hle⟩⟩)
  | full hs ha => exact (other hs ha (by simp)).elim
  | refuse hs ha => exact (other hs ha (by simp)).elim
  | enter hs ha => exact (other hs ha (by simp)).elim
  | missFact hs ha => exact (other hs ha (by simp)).elim
  | fact hs ha => exact (other hs ha (by simp)).elim
  | missResult hs ha => exact (other hs ha (by simp)).elim
  | result hs ha => exact (other hs ha (by simp)).elim
  | exhausted hs ha => exact (other hs ha (by simp)).elim
  | park hs ha => exact (other hs ha (by simp)).elim

/-- Every move leaves what there is to find, or finds one of it. -/
theorem Moves.scans {x y : Phase × Session} (h : Moves P st q x y) (hx : x.1.Scans n) :
    y.1.Scans n := by
  cases h with
  | @turn control control' m m' s s' hturn =>
    cases control with
    | run env code => exact hx.elim
    | backtrack =>
      rcases Machine.Scans.turn hx hturn with ⟨e, h⟩ | ⟨_, _, e, -⟩ | ⟨e, -⟩ <;> cases e
      exact h
  | @answer control m m' s s1 s' t hturn =>
    cases control with
    | run env code => exact hx.elim
    | backtrack =>
      rcases Machine.Scans.turn hx hturn with ⟨e, -⟩ | ⟨_, k, e, hk, h⟩ | ⟨e, -⟩ <;> cases e
      exact ⟨k, hk, h⟩
  | @dry control m m' s s' hturn =>
    cases control with
    | run env code => exact hx.elim
    | backtrack =>
      rcases Machine.Scans.turn hx hturn with ⟨e, -⟩ | ⟨_, _, e, -⟩ | ⟨-, rfl⟩
      · cases e
      · cases e
      · exact hx
  | @restore c m m' s s1 s' htake hr =>
    obtain ⟨y, -, hy, -⟩ := restore_eq hr
    exact absurd hy (Machine.Scans.alone hx c y)
  | ended => trivial
  | _ => exact hx

theorem MovesTo.scans {x y : Phase × Session} (h : MovesTo P st q x y) (hx : x.1.Scans n) :
    y.1.Scans n := by
  induction h with
  | refl => exact hx
  | tail _ hmove ih => exact hmove.scans ih

/-- A new query for a pattern that no clause is for. -/
theorem startQuery_scans (htabled : P.rules.isTabled pattern.standard.predicate = true)
    (hno : P.readsTable pattern = false)
    (hstart : Machine.startQuery (P.world st) pattern q s = (.ok m, s')) :
    m.Scans (P.find pattern.standard.lookupKey).length := by
  rcases startQuery_ok hstart with ⟨-, hm, rfl⟩ | ⟨hyes, -⟩
  · obtain ⟨m0, hblank, rfl⟩ := start_eq hm
    obtain ⟨-, -, hstack, hsusp, -⟩ := blank_eq hblank
    rw [Program.codeFor_of_not_readsTable hno htabled]
    refine ⟨fun d y hy => ?_, .inr ?_⟩
    · change m0.suspended[d]? = some y at hy
      rw [hsusp] at hy
      cases hy.symm.trans Std.TreeMap.getElem?_emptyc
    · have hpushed : (m0.pushedClauses .root [.proceed] [] pattern.isGround).stack = [] := hstack
      rw [Machine.stack_pushed, hpushed]
      exact ⟨_, _, _, rfl, rfl, Nat.le_refl _⟩
  · cases hno.symm.trans hyes

end

/-! ## Queries -/

/-- The query has at most `n` answers to return. -/
def Query.Scans (n : Nat) (q : Query) : Prop :=
  ∃ k, k + q.lookahead.toList.length ≤ n ∧ ∀ m, q.machine = some m → m.Scans k

section

variable {P : Program} {st : Settings} {s s' : Session} {q found : Query} {id n : Nat}

/-- To look for an answer makes no more of them. -/
theorem Query.Looks.scans (h : q.Looks P st id s found s') (hq : q.Scans n) : found.Scans n := by
  obtain ⟨k, hle, hm⟩ := hq
  cases h with
  | there => exact ⟨k, hle, hm⟩
  | idle => exact ⟨k, hle, hm⟩
  | @answer m m' t _ hnone hmachine hmoves =>
    obtain ⟨k', rfl, hm'⟩ : ∃ k', k = k' + 1 ∧ m'.Scans k' := hmoves.scans (hm m hmachine)
    rw [hnone] at hle
    refine ⟨k', hle, fun m1 hm1 => ?_⟩
    cases hm1
    exact hm'
  | ended hnone =>
    refine ⟨0, ?_, fun m1 hm1 => by cases hm1⟩
    rw [hnone]
    exact Nat.zero_le n

/-- The answer that was looked ahead to is returned. -/
theorem Query.Scans.take (h : q.Scans n) :
    q.lookahead.toList.length ≤ n ∧
      ({ q with lookahead := none } : Query).Scans (n - q.lookahead.toList.length) := by
  obtain ⟨k, hle, hm⟩ := h
  exact ⟨by omega, k, by change k + 0 ≤ _; omega, hm⟩

end

/-! ## Sites -/

/-- The query `id` has returned `ts`, and it returns at most `N` answers in all. -/
structure Site.Scanning (id N : Nat) (ts : List Triple) (σ : Site) : Prop where
  id_lt : id < σ.engine.session.nextId
  length_le : ts.length ≤ N
  query : ∀ {q : Query}, σ.engine.queries[id]? = some q → q.closed = false →
    q.Scans (N - ts.length)

section

variable {R : Registry} {g : Graph} {e e' : Engine} {σ σ' : Site} {id N : Nat} {ts us : List Triple}
  {a : Act} {r : Reply} {pattern : Triple}

/-- The query is an old one, as far as its answers go. -/
theorem Site.Scanning.update (h : (Site.mk g e).Scanning id N ts)
    (hid : e.session.nextId ≤ e'.session.nextId)
    (hqueries : ∀ {q : Query}, e'.queries[id]? = some q → q.closed = false →
      ∃ old : Query, e.queries[id]? = some old ∧ old.closed = false ∧
        old.machine = q.machine ∧ old.lookahead = q.lookahead) :
    (Site.mk g e').Scanning id N ts := by
  refine ⟨Nat.lt_of_lt_of_le h.id_lt hid, h.length_le, fun {q} hq hc => ?_⟩
  obtain ⟨old, hold, hc', hm, hl⟩ := hqueries hq hc
  obtain ⟨k, hle, hscans⟩ := h.query hold hc'
  exact ⟨k, hl ▸ hle, fun m hm' => hscans m (hm.trans hm')⟩

/-- A query is read. If it is the one that goes through the store, it has one answer less. -/
theorem Site.Scanning.fill (h : (Site.mk g e).Scanning id N ts) (hkept : e.Kept R) {fuel id' : Nat}
    {take : Bool} {answer : Option Triple}
    (hfill : e.fill g.toStore fuel id' take = some (.ok answer, e')) :
    (Site.mk g e').Scanning id N
      (if id' = id ∧ take = true then ts ++ answer.toList else ts) := by
  have hid : e.session.nextId ≤ e'.session.nextId := (Engine.ages_fill hfill).session.nextId_le
  obtain ⟨query, found, s', hq, hobstacle, hlooks, rfl, rfl⟩ := hkept.fill_ok hfill
  obtain ⟨hclosed, -⟩ := of_obstacle hobstacle
  by_cases hsame : id' = id
  · subst hsame
    have hscans := hlooks.scans (h.query hq hclosed)
    have hlt := Nat.lt_of_lt_of_le h.id_lt hid
    cases take with
    | false =>
      rw [if_neg (by simp)]
      refine ⟨hlt, h.length_le, fun {q} hq' _ => ?_⟩
      cases Std.TreeMap.getElem?_insert_self.symm.trans hq'
      exact hscans
    | true =>
      rw [if_pos ⟨rfl, rfl⟩]
      obtain ⟨hle, htaken⟩ := hscans.take
      have hlength := h.length_le
      refine ⟨hlt, ?_, fun {q} hq' _ => ?_⟩
      · rw [List.length_append]
        omega
      · cases Std.TreeMap.getElem?_insert_self.symm.trans hq'
        rw [List.length_append, Nat.sub_add_eq]
        exact htaken
  · rw [if_neg fun e => hsame e.1]
    refine h.update hid fun {q} hq' hc => ?_
    rw [Std.TreeMap.getElem?_insert, if_neg (by simpa using hsame)] at hq'
    exact ⟨q, hq', hc, rfl, rfl⟩

theorem Site.Scanning.closeQuery (h : (Site.mk g e).Scanning id N ts) (id' : Nat) :
    (Site.mk g (e.closeQuery id')).Scanning id N ts := by
  refine h.update (e.ages_closeQuery id').session.nextId_le fun {q} hq hc => ?_
  unfold Engine.closeQuery at hq
  split at hq
  · exact ⟨q, hq, hc, rfl, rfl⟩
  · split at hq
    · exact ⟨q, hq, hc, rfl, rfl⟩
    · rcases getElem?_insert_cases hq with ⟨-, rfl⟩ | hq
      · cases hc
      · exact ⟨q, hq, hc, rfl, rfl⟩

/-- A query is opened for a pattern that no clause is for. -/
theorem Site.Scanning.opened
    (htabled : (e.program R g.toStore).rules.isTabled pattern.standard.predicate = true)
    (hno : (e.program R g.toStore).readsTable pattern = false) {handle : Handle}
    (hfind : e.find g.toStore pattern = (.ok handle, e')) :
    (Site.mk g e').Scanning handle.query
      ((e.program R g.toStore).find pattern.standard.lookupKey).length [] := by
  have hopened := (Site.Does.find hfind).opened
  refine ⟨hopened.id_lt, Nat.zero_le _, fun {q} hq _ => ?_⟩
  obtain ⟨m, s', rfl, hstart, rfl⟩ := find_ok hfind
  have hscans := startQuery_scans (P := e.program R g.toStore) htabled hno hstart
  cases Std.TreeMap.getElem?_insert_self.symm.trans hq
  refine ⟨_, Nat.le_refl _, fun m' hm => ?_⟩
  cases hm
  exact hscans

/-- An act that does not fail returns an answer, of which there is then one less, or nothing. -/
theorem Site.Scanning.does (h : σ.Scanning id N ts) (hkept : σ.engine.Kept R)
    (hdoes : σ.Does a r σ') (hr : ¬ r.Failed) : σ'.Scanning id N (ts ++ r.returned id a) := by
  have hid := hdoes.ages.session.nextId_le
  have quiet : r.returned id a = [] → σ'.Scanning id N ts →
      σ'.Scanning id N (ts ++ r.returned id a) := fun hnil h => by
    rw [hnil, List.append_nil]
    exact h
  cases hdoes with
  | @find g e e' pattern x hfind =>
    cases x with
    | error failure => exact absurd trivial hr
    | ok handle =>
      obtain ⟨m, s', rfl, hstart, rfl⟩ := find_ok hfind
      refine quiet rfl (h.update hid fun {q} hq hc => ?_)
      rcases getElem?_insert_cases hq with ⟨hnew, -⟩ | hq
      · have hle := (e.session.ages_refresh g.toStore.version).nextId_le
        have hlt : id < e.session.nextId := h.id_lt
        omega
      · exact ⟨q, hq, hc, rfl, rfl⟩
  | @next g e e' fuel handle x hnext =>
    cases x with
    | error failure => exact absurd trivial hr
    | ok answer =>
      have hreturned : Reply.returned id (.next handle) (.answer (.ok answer)) =
          if handle.query = id then answer.toList else [] := by
        cases answer with
        | none => exact (ite_self []).symm
        | some t => rfl
      have hfilled := h.fill hkept hnext
      rw [hreturned]
      split at hfilled
      · next e => rwa [if_pos e.1]
      · next e => rwa [if_neg fun hid => e ⟨hid, rfl⟩, List.append_nil]
  | @hasNext g e e' fuel handle x hnext =>
    obtain ⟨⟨y, e1⟩, hfill, hmap⟩ := Option.map_eq_some_iff.1 hnext
    cases y with
    | error failure =>
      cases hmap
      exact absurd trivial hr
    | ok answer =>
      cases hmap
      have hfilled := h.fill hkept hfill
      rw [if_neg (by simp)] at hfilled
      exact quiet rfl hfilled
  | @close g e handle => exact quiet rfl (h.closeQuery handle.query)
  | @clone g e handle =>
    refine quiet rfl (h.update hid fun {q} hq hc => ?_)
    change (e.queries.modify handle.query _)[id]? = some q at hq
    rw [Std.TreeMap.getElem?_modify] at hq
    split at hq
    · next heq =>
      obtain ⟨old, hold, rfl⟩ := Option.map_eq_some_iff.1 hq
      rw [Std.LawfulEqCmp.compare_eq_iff_eq] at heq
      exact ⟨old, heq ▸ hold, hc, rfl, rfl⟩
    · exact ⟨q, hq, hc, rfl, rfl⟩
  | @drop g e handle =>
    refine quiet rfl ?_
    unfold Engine.drop at hid ⊢
    split
    · exact h
    · next query hquery =>
      split
      · refine (h.closeQuery handle.query).update (Nat.le_refl _) fun {q} hq hc => ?_
        rw [Std.TreeMap.getElem?_erase] at hq
        split at hq
        · cases hq
        · exact ⟨q, hq, hc, rfl, rfl⟩
      · refine h.update (Nat.le_refl _) fun {q} hq hc => ?_
        rcases getElem?_insert_cases hq with ⟨rfl, rfl⟩ | hq
        · exact ⟨query, hquery, hc, rfl, rfl⟩
        · exact ⟨q, hq, hc, rfl, rfl⟩
  | reset => exact quiet rfl (h.update hid fun {q} hq hc => ⟨q, hq, hc, rfl, rfl⟩)
  | nextMessage => exact quiet rfl (h.update hid fun {q} hq hc => ⟨q, hq, hc, rfl, rfl⟩)
  | @printProfile g e =>
    obtain ⟨j, hj⟩ := e.printProfile_eq
    refine quiet rfl ?_
    rw [hj]
    exact h.update (Nat.le_refl _) fun {q} hq hc => ⟨q, hq, hc, rfl, rfl⟩
  | add => exact quiet rfl ⟨h.id_lt, h.length_le, h.query⟩
  | delete => exact quiet rfl ⟨h.id_lt, h.length_le, h.query⟩

end

end TabledRules
