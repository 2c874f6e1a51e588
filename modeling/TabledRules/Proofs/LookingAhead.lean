-- To look ahead does not disturb a query. What a look finds is kept, so that the
-- next answer that is taken is the one that was seen, and a reader who never looks
-- is given the same answers in the same order.
import TabledRules.Proofs.DeadQueries

namespace TabledRules

namespace Engine

variable {store : Store} {e e' a a' b : Engine} {w : World} {q q' found : Query}
  {s s' : Session} {id fuel fuel' : Nat} {x : Option Triple} {h : Handle}

/-! ## Looking for an answer -/

/-- What a search leaves: an answer is there, or the query has ended. -/
theorem found_of_lookAhead (h : lookAhead w fuel id q s = some (.ok (), q', s')) :
    (q'.lookahead.isSome || q'.finished) = true ∧ s.Maintains s' := by
  unfold lookAhead at h
  split at h
  · next hfound =>
    cases h
    exact ⟨hfound, .refl s⟩
  · split at h
    · cases h
      exact ⟨by simp, .refl s⟩
    · split at h
      · cases h
      · next hadvance =>
        cases h
        exact ⟨rfl, (search_changes.1 hadvance).maintains⟩
      · next hadvance =>
        cases h
        exact ⟨by simp, (search_changes.1 hadvance).maintains⟩
      · cases h

/-- Whatever was found, the query can be read as it could before. -/
theorem obstacle_of_lookAhead (h : lookAhead w fuel id q s = some (.ok (), q', s')) :
    obstacle store s' id q' = obstacle store s id q := by
  obtain ⟨-, hversion, hclosed⟩ := ages_lookAhead h
  obtain ⟨-, hs⟩ := found_of_lookAhead h
  have hopen : s'.queries.contains id = s.queries.contains id := by
    rw [Std.TreeMap.contains_eq_isSome_getElem?, Std.TreeMap.contains_eq_isSome_getElem?, hs.isOpen]
  unfold obstacle
  rw [hversion, hclosed, hs.poisoned, hopen]

/-! ## Reading without failures -/

/-- The query `q` can be read, and a search makes `found` of it and `s'` of the session. -/
structure Finds (store : Store) (fuel : Nat) (e : Engine) (id : Nat) (q found : Query)
    (s' : Session) : Prop where
  query : e.queries[id]? = some q
  free : obstacle store e.session id q = none
  search : lookAhead (e.world store) fuel id q e.session = some (.ok (), found, s')

/-- The engine after a search, with the answer taken or not. -/
def keep (e : Engine) (id : Nat) (take : Bool) (found : Query) (s' : Session) : Engine :=
  { e with
    session := s'
    queries := e.queries.insert id (if take then { found with lookahead := none } else found) }

@[simp] theorem query_keep (e : Engine) (id : Nat) (take : Bool) (found : Query) (s' : Session) :
    (e.keep id take found s').queries[id]? =
      some (if take then { found with lookahead := none } else found) :=
  Std.TreeMap.getElem?_insert_self

theorem Finds.fill (h : e.Finds store fuel id q found s') (take : Bool) :
    e.fill store fuel id take = some (.ok found.lookahead, e.keep id take found s') := by
  simp only [Engine.fill, h.query, h.free, h.search]
  rfl

theorem finds_of_fill {take : Bool} (h : e.fill store fuel id take = some (.ok x, e')) :
    ∃ q found s', e.Finds store fuel id q found s' ∧ x = found.lookahead ∧
      e' = e.keep id take found s' := by
  unfold Engine.fill at h
  split at h
  · cases h
  · next q hq =>
    split at h
    · cases h
    · next hfree =>
      split at h
      · cases h
      · cases h
      · next found s' hsearch =>
        cases h
        exact ⟨q, found, s', ⟨hq, hfree, hsearch⟩, rfl, rfl⟩

/-- What a search has found is found again without a search, however little fuel there is. -/
theorem Finds.of_found (h : e.Finds store fuel id q found s') {a : Engine}
    (hquery : a.queries[id]? = some found) (hsession : a.session = s') (fuel' : Nat) :
    a.Finds store fuel' id found found a.session where
  query := hquery
  free := by rw [hsession, obstacle_of_lookAhead h.search, h.free]
  search := by rw [lookAhead, if_pos (found_of_lookAhead h.search).1]

/-! ## Looking again -/

/-- Calls that only look, through handles on one query, whatever comes of them. -/
def Peeks (store : Store) (id : Nat) : Engine → Engine → Prop :=
  Relation.ReflTransGen fun e e' =>
    ∃ (h : Handle) (fuel : Nat) (y : Except Failure Bool),
      h.query = id ∧ e.hasNext store fuel h = some (y, e')

theorem fill_of_hasNext {y : Except Failure Bool} (h' : e.hasNext store fuel h = some (y, e')) :
    ∃ z, e.fill store fuel h.query false = some (z, e') ∧ y = z.map Option.isSome := by
  obtain ⟨⟨z, e1⟩, hfill, heq⟩ := Option.map_eq_some_iff.1 h'
  cases heq
  exact ⟨z, hfill, rfl⟩

/-- A look leaves what it has found, and so does every further look. -/
theorem Peeks.finds (h : Peeks store id e e')
    (he : ∀ fuel, e.Finds store fuel id found found e.session) :
    ∀ fuel, e'.Finds store fuel id found found e'.session := by
  induction h with
  | refl => exact he
  | tail _ hstep ih =>
    obtain ⟨h, fuel, y, rfl, hlook⟩ := hstep
    obtain ⟨z, hfill, -⟩ := fill_of_hasNext hlook
    rw [(ih fuel).fill false] at hfill
    cases hfill
    exact (ih fuel).of_found (by simp) rfl

/-! ## A reader who looks and one who does not -/

/-- A call through a handle, which takes the next answer or only looks whether there is one. -/
structure Look where
  handle : Handle
  take : Bool
  fuel : Nat

/-- What the calls return that take an answer, in their order. There is nothing if one of the calls
fails or does not come to an end. -/
def taken (store : Store) : Engine → List Look → Option (List (Option Triple) × Engine)
  | e, [] => some ([], e)
  | e, ⟨h, false, fuel⟩ :: looks =>
    match e.hasNext store fuel h with
    | some (.ok _, e) => taken store e looks
    | _ => none
  | e, ⟨h, true, fuel⟩ :: looks =>
    match e.next store fuel h with
    | some (.ok x, e) => (taken store e looks).map fun (xs, e) => (x :: xs, e)
    | _ => none

/-- The engine of a reader who looks, what the last search had for fuel if its answer was not
taken, and the engine of a reader who does not look. -/
inductive Leads (store : Store) (id : Nat) (a : Engine) : List Nat → Engine → Prop
  | level {b : Engine} : b.rules = a.rules → b.settings = a.settings → b.session = a.session →
    b.queries[id]? = a.queries[id]? → Leads store id a [] b
  | ahead {b : Engine} {fuel : Nat} {q found : Query} :
    b.rules = a.rules → b.settings = a.settings → a.queries[id]? = some found →
    b.Finds store fuel id q found a.session → Leads store id a [fuel] b

theorem Leads.refl (store : Store) (id : Nat) (e : Engine) : Leads store id e [] e :=
  .level rfl rfl rfl rfl

theorem Finds.congr (h : a.Finds store fuel id q found s') (hrules : b.rules = a.rules)
    (hsettings : b.settings = a.settings) (hsession : b.session = a.session)
    (hquery : b.queries[id]? = a.queries[id]?) : b.Finds store fuel id q found s' where
  query := hquery.trans h.query
  free := hsession ▸ h.free
  search := by
    rw [Engine.world, hrules, hsettings, hsession]
    exact h.search

/-- One reader looks, the other does nothing. -/
theorem Leads.look {pending : List Nat} (h : Leads store id a pending b)
    (hfill : a.fill store fuel id false = some (.ok x, a')) :
    ∃ pending', Leads store id a' pending' b ∧ pending'.Sublist (pending ++ [fuel]) := by
  cases h with
  | level hrules hsettings hsession hquery =>
    obtain ⟨q, found, s', hfinds, -, rfl⟩ := finds_of_fill hfill
    exact ⟨[fuel], .ahead hrules hsettings (by simp) (hfinds.congr hrules hsettings hsession hquery),
      .refl _⟩
  | @ahead b fuel' q found hrules hsettings hquery hsearch =>
    rw [(hsearch.of_found hquery rfl fuel).fill false] at hfill
    cases hfill
    exact ⟨[fuel'], .ahead hrules hsettings (by simp) hsearch, List.sublist_append_left _ _⟩

/-- Both readers take an answer, and it is the same. -/
theorem Leads.take {pending : List Nat} (h : Leads store id a pending b)
    (hfill : a.fill store fuel id true = some (.ok x, a')) :
    ∃ fuel' b', b.fill store fuel' id true = some (.ok x, b') ∧ Leads store id a' [] b' ∧
      [fuel'].Sublist (pending ++ [fuel]) := by
  cases h with
  | level hrules hsettings hsession hquery =>
    obtain ⟨q, found, s', hfinds, rfl, rfl⟩ := finds_of_fill hfill
    exact ⟨fuel, _, (hfinds.congr hrules hsettings hsession hquery).fill true,
      .level hrules hsettings rfl (by simp), .refl _⟩
  | @ahead b fuel' q found hrules hsettings hquery hsearch =>
    rw [(hsearch.of_found hquery rfl fuel).fill true] at hfill
    cases hfill
    exact ⟨fuel', _, hsearch.fill true, .level hrules hsettings rfl (by simp),
      List.sublist_append_left _ _⟩

/-- A reader who looks now and then is followed by one who only takes answers, with the fuel that
the searches had. -/
theorem Leads.follow {looks : List Look} {xs : List (Option Triple)} {pending : List Nat}
    (h : Leads store id a pending b) (hid : ∀ l ∈ looks, l.handle.query = id)
    (htaken : a.taken store looks = some (xs, a')) :
    ∃ takes b', b.taken store takes = some (xs, b') ∧ (∀ l ∈ takes, l.take = true) ∧
      takes.map Look.handle = (looks.filter Look.take).map Look.handle ∧
      (takes.map Look.fuel).Sublist (pending ++ looks.map Look.fuel) := by
  induction looks generalizing a b pending xs with
  | nil =>
    cases htaken
    exact ⟨[], b, rfl, by simp⟩
  | cons l looks ih =>
    obtain ⟨rfl, hrest⟩ := List.forall_mem_cons.1 hid
    obtain ⟨handle, take, fuel⟩ := l
    cases take with
    | false =>
      rw [taken] at htaken
      split at htaken
      · next found a1 hlook =>
        obtain ⟨z, hfill, hz⟩ := fill_of_hasNext hlook
        cases z with
        | error failure => cases hz
        | ok y =>
          obtain ⟨pending', hleads, hsub⟩ := h.look hfill
          obtain ⟨takes, b', h1, h2, h3, h4⟩ := ih hleads hrest htaken
          refine ⟨takes, b', h1, h2, h3, h4.trans ?_⟩
          simpa using hsub.append_right (looks.map Look.fuel)
      · cases htaken
    | true =>
      rw [taken] at htaken
      split at htaken
      · next y a1 hnext =>
        obtain ⟨⟨ys, a2⟩, hlater, heq⟩ := Option.map_eq_some_iff.1 htaken
        cases heq
        obtain ⟨fuel', b1, htake, hleads, hsub⟩ := h.take hnext
        obtain ⟨takes, b', h1, h2, h3, h4⟩ := ih hleads hrest hlater
        refine ⟨⟨handle, true, fuel'⟩ :: takes, b', ?_, List.forall_mem_cons.2 ⟨rfl, h2⟩,
          by simp [h3], by simpa using hsub.append h4⟩
        change b.next store fuel' handle = _ at htake
        rw [taken, htake]
        simp only [h1, Option.map_some]
      · cases htaken

/-- To look ahead does not disturb a query, in whatever state the engine is. What a look says is
what every further look says, and what the next call gets that takes an answer, through whichever
handle it comes. And where no call fails, those calls that take an answer return what they
return when nobody looks and each search has the fuel that it had. -/
theorem looking_harmless (store : Store) (e : Engine) (id : Nat) :
    (∀ h fuel found e1 e2, h.query = id → e.hasNext store fuel h = some (.ok found, e1) →
      Peeks store id e1 e2 → ∀ h' fuel', h'.query = id →
        (∃ e3, e2.hasNext store fuel' h' = some (.ok found, e3)) ∧
          ∃ x e3, e2.next store fuel' h' = some (.ok x, e3) ∧ x.isSome = found) ∧
    ∀ looks xs e', (∀ l ∈ looks, l.handle.query = id) → e.taken store looks = some (xs, e') →
      ∃ takes e'', e.taken store takes = some (xs, e'') ∧ (∀ l ∈ takes, l.take = true) ∧
        takes.map Look.handle = (looks.filter Look.take).map Look.handle ∧
        (takes.map Look.fuel).Sublist (looks.map Look.fuel) := by
  refine ⟨?_, fun looks xs e' hid htaken => (Leads.refl store id e).follow hid htaken⟩
  rintro h fuel b e1 e2 rfl hlook hpeeks h' fuel' hquery
  obtain ⟨z, hfill, hz⟩ := fill_of_hasNext hlook
  cases z with
  | error failure => cases hz
  | ok x =>
    cases hz
    obtain ⟨q, found, s', hfinds, rfl, rfl⟩ := finds_of_fill hfill
    have hfound := hpeeks.finds (hfinds.of_found (by simp) rfl) fuel'
    rw [← hquery] at hfound
    refine ⟨⟨e2.keep h'.query false found e2.session, ?_⟩, _, _, hfound.fill true, rfl⟩
    rw [hasNext, hfound.fill false]
    rfl

end Engine

namespace Roads

/-- Calls through two handles. The answer that the first one finds is taken by the third. -/
def looks : List Engine.Look :=
  [⟨handle, false, 1000⟩, ⟨⟨1, true⟩, false, 0⟩, ⟨⟨1, true⟩, true, 0⟩, ⟨handle, true, 1000⟩,
    ⟨⟨1, true⟩, false, 1000⟩, ⟨handle, true, 0⟩]

/-- Whether there is an answer, after the query was opened. -/
def looked : Option (Except Failure Bool × Engine) := opened.2.hasNext graph.toStore 1000 handle

end Roads

/-- Where roads lead from `a`: what a look promises is there for the other handle, and what is taken
between looks is taken without them too. -/
theorem looking_harmless_roads :
    (∃ e1 e2 t, Roads.looked = some (.ok true, e1) ∧
      e1.next Roads.graph.toStore 0 ⟨1, true⟩ = some (.ok (some t), e2)) ∧
    ∃ takes e, Roads.opened.2.taken Roads.graph.toStore takes =
        some ([some (Roads.leads (Roads.uri "a") (Roads.uri "b")),
          some (Roads.leads (Roads.uri "a") (Roads.uri "a")), none], e) ∧
      takes.map Engine.Look.handle = [⟨1, true⟩, Roads.handle, Roads.handle] ∧
      ∀ l ∈ takes, l.take = true := by
  obtain ⟨hlooks, htakes⟩ := Engine.looking_harmless Roads.graph.toStore Roads.opened.2 1
  constructor
  · have h : (Roads.looked.bind fun p => p.1.toOption) = some true := by decide +kernel
    obtain ⟨⟨y, e1⟩, he, hy⟩ := Option.bind_eq_some_iff.1 h
    obtain rfl := ok_of_toOption hy
    obtain ⟨-, x, e2, hnext, hx⟩ := hlooks _ _ _ _ _ rfl he .refl ⟨1, true⟩ 0 rfl
    obtain ⟨t, rfl⟩ := Option.isSome_iff_exists.1 hx
    exact ⟨e1, e2, t, he, hnext⟩
  · have h : (Roads.opened.2.taken Roads.graph.toStore Roads.looks).map Prod.fst =
        some [some (Roads.leads (Roads.uri "a") (Roads.uri "b")),
          some (Roads.leads (Roads.uri "a") (Roads.uri "a")), none] := by decide +kernel
    obtain ⟨⟨xs, e⟩, htaken, rfl⟩ := Option.map_eq_some_iff.1 h
    obtain ⟨takes, e', h1, h2, h3, -⟩ := htakes _ _ _ (by decide) htaken
    exact ⟨takes, e', h1, h3, h2⟩

end TabledRules
