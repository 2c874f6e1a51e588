-- What goes wrong in a history comes from outside: an operation that reports an
-- inconsistency of the engine reports what the store or a builtin has returned,
-- as long as no operation has failed before.
import TabledRules.Proofs.KeptSites

namespace TabledRules

section

variable {P : Program} {st : Settings} {q : Nat} {s s' : Session} {m m' : Machine} {e : Failure}

/-! ## Consumers that go on -/

/-- A machine with nothing else to try goes on with any consumer of its own. -/
theorem Machine.Tied.restores (h : m.Tied s) (hnum : m.Numbered) {c : Nat} {k : Consumer}
    (hk : s.consumers[c]? = some k) (howner : k.owner = m.owner) (hstack : m.stack = []) :
    ∃ m' s', m.restore c s = (.ok (), m', s') := by
  have hnone : m.readers = [] := by
    unfold Machine.readers
    rw [hstack]
    rfl
  obtain ⟨x, hx⟩ := (h.known hk howner).resolve_left (by simp [hnone])
  have hcontains : s.consumers.contains c = true := by
    rw [Std.TreeMap.contains_eq_isSome_getElem?, hk]
    rfl
  -- what is pinned for the choice point is kept
  have hkept : x.id < m.discard.choices := by
    rw [(hnum.discard hstack).2.1]
    exact (hnum.suspended hx).1
  have hfind : (m.discard.suspended[c]?).filter (fun x => x.id < m.discard.choices) = some x := by
    change (m.suspended[c]?).filter _ = _
    rw [hx, Option.filter_some, if_pos (decide_eq_true hkept)]
  unfold Machine.restore
  rw [if_neg (by simp [hstack]), if_neg (by simp [hcontains])]
  simp only [hfind]
  exact ⟨_, _, rfl⟩

/-- The machine of a query goes on with every consumer that is taken for it. -/
theorem Session.Idle.restores (h : s.Idle) (hm : m.Asks q s) (hnum : m.Numbered) (hstack : m.stack = []) {c : Nat}
    {s1 : Session} (htake : s.takeReady q = some (c, s1)) :
    ∃ m' s', m.restore c s1 = (.ok (), m', s') := by
  obtain ⟨-, -, k, hk, howner⟩ := h.wired.takeReady htake
  have hsame : s1.consumers = s.consumers := by
    unfold Session.takeReady at htake
    obtain ⟨c', -, e⟩ := Option.map_eq_some_iff.1 htake
    cases e
    rfl
  have htied : m.Tied s1 := hm.tied.congr (fun hk _ => ⟨_, by rw [hsame]; exact hk, rfl, rfl⟩)
    fun hk => ⟨_, by rw [← hsame]; exact hk, rfl⟩
  exact htied.restores hnum (by rw [hsame]; exact hk) (howner.trans hm.owner.symm) hstack

/-- The machine of a generator goes on with the consumer of any task. -/
theorem Session.Idle.resumes (h : s.Idle) (hs : s.Formed P) {task : Task} {agenda : Queue Task} {g : Nat}
    {resume : Option Nat} {s1 : Session} {gen : Generator}
    (hpop : s.agenda.pop? = some (task, agenda))
    (htake : ({ s with agenda } : Session).takeUp task = (some (g, resume), s1))
    (hgen : s1.generators[g]? = some gen) (hinc : gen.complete = false)
    (hm : gen.machine = some m) :
    ∃ m' s', m.resumed resume ((s1.prepared g resume).modifyGenerator g
      fun gen => { gen with machine := none }) = (.ok (), m', s') := by
  cases resume with
  | none => exact ⟨_, _, rfl⟩
  | some c =>
    obtain ⟨-, -, hresume⟩ := h.wired.takeUp (fun _ => id) hpop htake
    obtain ⟨-, k, hk, howner⟩ := hresume c rfl
    have hsame : s.SameTables s1 := by
      have := (s.sameTables_agenda agenda).trans (Session.sameTables_takeUp { s with agenda } task)
      rw [htake] at this
      exact this
    have hspares : s.Spares (fun _ => False) s1 :=
      (s.spares_agenda agenda _).trans (Session.spares_takeUp _ htake _)
    obtain ⟨m0, hm0, hown, htied, hrest⟩ :=
      (h.manned.kept hspares (fun _ e => e) hsame).machine hgen hinc id
    cases hm.symm.trans hm0
    -- the consumer of the task is one of the machine that is taken out
    obtain ⟨k1, hk1, howner1⟩ : ∃ k1 : Consumer, s1.consumers[c]? = some k1 ∧
        k1.owner = .generator g := by
      rcases Session.takeUp_cases htake with ⟨g', -, rfl, -⟩ | ⟨c', -, rfl, -⟩
      · exact ⟨k, hk, howner⟩
      · rw [Session.unscheduled, Session.consumers_modifyConsumer]
        split
        · next e =>
          subst e
          exact ⟨{ k with scheduled := false }, congrArg (Option.map _) hk, howner⟩
        · exact ⟨k, hk, howner⟩
    have hknown := htied.known hk1 (howner1.trans hown.symm)
    have hstack : m.stack = [] := by
      refine hrest.resolve_left ?_
      rintro ⟨-, hreaders, hsusp⟩
      rw [hreaders, hsusp] at hknown
      rcases hknown with hmem | ⟨x, hx⟩
      · cases hmem
      · cases hx.symm.trans Std.TreeMap.getElem?_emptyc
    have htied' : m.Tied ((s1.prepared g (some c)).modifyGenerator g
        fun gen => { gen with machine := none }) :=
      htied.congr (fun hk _ => ⟨_, hk, rfl, rfl⟩) fun hk => ⟨_, hk, rfl⟩
    exact htied'.restores ((hs.sameTables hsame).machine hgen hm).numbered hk1 (howner1.trans hown.symm) hstack

/-! ## What stops a search -/

/-- What is asked in a search at this point. -/
def Phase.Asks (P : Program) (s : Session) (asked : Inquiry) : Phase → Prop
  | .search control m | .pump _ _ _ control m _ => control.Asks P m s asked
  | .wait _ | .agenda _ _ | .returned _ | .found _ _ => False

/-- A search is stopped by what the store or a builtin returns that is asked there, or for lack of
room. -/
theorem Stops.raises (hP : P.Compiled) {x : Phase × Session} (h : Stops P st q x e)
    (hkept : x.1.Kept q x.2) (hformed : x.1.Formed P x.2) :
    P.Raises (x.1.Asks P x.2 ·) e := by
  cases h with
  | turn hturn =>
    obtain ⟨hm, hc, -⟩ := hformed
    exact hturn.raises hP hm hc
  | work hturn =>
    obtain ⟨⟨hm, hc⟩, -⟩ := hformed
    exact hturn.raises hP hm hc
  | restore htake hr =>
    obtain ⟨hidle, hasks, hstack⟩ := hkept
    obtain ⟨m1, s1, hok⟩ := hidle.restores hasks hformed.1.numbered hstack htake
    cases hr.symm.trans hok
  | start hready hpop htake hgen hinc hm hr =>
    obtain ⟨hidle, -⟩ := hkept
    obtain ⟨m1, s1, hok⟩ := hidle.resumes hformed.2 hpop htake hgen hinc hm
    cases hr.symm.trans hok

/-- What the start of a query asks: its pattern is looked up, or that of its table if there is
none yet. -/
def Triple.Asks (pattern : Triple) (s : Session) (asked : Inquiry) : Prop :=
  asked = pattern.inquiry ∨
    s.generatorOf? pattern.standard = none ∧ asked = pattern.standard.variantKey.inquiry

theorem startQuery_raises {pattern : Triple}
    (h : Machine.startQuery (P.world st) pattern q s = (.error e, s')) :
    P.Raises (pattern.Asks s) e := by
  unfold Machine.startQuery at h
  split at h
  · next e' hblank =>
    cases h
    exact blank_raises hblank
  · next m0 hm0 =>
    split at h
    · exact (start_raises (Prod.mk.inj h).1).mono fun _ => .inl
    · split at h
      · next e' m1 s1 hcall =>
        cases h
        unfold Machine.callTable at hcall
        split at hcall
        · next hg =>
          cases hcall
          obtain ⟨hnone, hraises⟩ := generatorFor_raises hg
          rw [(blank_eq hm0).1] at hnone hraises
          exact hraises.mono fun _ hq => .inr ⟨hnone, hq⟩
        · unfold Machine.afterPush at hcall
          simp only at hcall
          split at hcall
          · cases hcall
          · next hpush =>
            cases hcall
            exact Program.raises_push hpush
      · cases h

end

/-! ## Histories -/

/-- The engine comes about from `start` by acts over stores of any kind, none of which has
failed. -/
inductive Engine.Unfailing (start : Engine) : Engine → Prop
  | start : Unfailing start start
  | act {e e' : Engine} {store : Store} {a : Act} {r : Reply} : Unfailing start e → ¬ r.Failed →
    e.Does store a r e' → Unfailing start e'

/-- What the search for an answer to a query asks. -/
def Engine.Searches (R : Registry) (store : Store) (e : Engine) (id : Nat) (asked : Inquiry) :
    Prop :=
  ∃ query m x, e.queries[id]? = some query ∧ query.machine = some m ∧
    MovesTo (e.program R store) e.settings id (.search .backtrack m, e.session) x ∧
    x.1.Asks (e.program R store) x.2 asked

/-- What is asked of the store and of the builtins in an act. -/
inductive Engine.Asks (R : Registry) (store : Store) (e : Engine) : Act → Inquiry → Prop
  | find {pattern : Triple} {asked : Inquiry} :
    pattern.Asks (e.session.refresh store.version) asked → e.Asks R store (.find pattern) asked
  | next {h : Handle} {asked : Inquiry} :
    e.Searches R store h.query asked → e.Asks R store (.next h) asked
  | hasNext {h : Handle} {asked : Inquiry} :
    e.Searches R store h.query asked → e.Asks R store (.hasNext h) asked

/-- The act went wrong with this failure. -/
def Reply.Fails (failure : Failure) (r : Reply) : Prop :=
  r = .opened (.error failure) ∨ r = .answer (.error failure) ∨ r = .more (.error failure)

section

variable {R : Registry} {start e e' : Engine} {store : Store} {a : Act} {r : Reply}
  {failure : Failure}

theorem Engine.Unfailing.kept (h : start.Unfailing e) (hstart : start.Kept R) : e.Kept R := by
  induction h with
  | start => exact hstart
  | act _ hr hdoes ih => exact ih.does hdoes hr

/-- Where an act fails, the engine refuses it, or the failure comes from what was asked in it. -/
theorem Engine.Kept.fails (h : e.Kept R) (hdoes : e.Does store a r e') (hr : r.Fails failure) :
    (∃ cause, failure = .runtime cause) ∨
      (e.program R store).Raises (e.Asks R store a) failure := by
  have fill : ∀ {fuel id : Nat} {take : Bool} {e' : Engine},
      e.fill store fuel id take = some (.error failure, e') →
      (∃ cause, failure = .runtime cause) ∨
        (e.program R store).Raises (e.Searches R store id) failure := by
    intro fuel id take e' hfill
    rcases h.fill_cases hfill with ⟨_, _, _, -, -, -, hx, -⟩ | hx | ⟨query, f, hx, hobstacle⟩ |
      ⟨query, m, f, hx, hq, hm, hobstacle, x, hmoves, hstops⟩
    · cases hx
    · cases hx
      exact .inl ⟨_, rfl⟩
    · cases hx
      exact .inl (obstacle_runtime hobstacle)
    · cases hx
      obtain ⟨-, -, hopen⟩ := of_obstacle hobstacle
      have hraises := hstops.raises (h.compiled store)
        (hmoves.kept ⟨h.idle, h.asks hq hm hopen⟩).1
        (hmoves.formed (h.compiled store) ⟨h.machine store hq hm hopen, trivial, h.formed store⟩)
      exact .inr (hraises.mono fun asked hasked => ⟨query, m, x, hq, hm, hmoves, hasked⟩)
  cases hdoes with
  | @find _ pattern x hfind =>
    rcases hr with hr | hr | hr
    · cases hr
      unfold Engine.find at hfind
      split at hfind
      · cases hfind
        exact .inl ⟨_, rfl⟩
      · simp only [Session.openQuery] at hfind
        split at hfind
        · next hstart =>
          cases hfind
          exact .inr ((startQuery_raises (P := e.program R store) hstart).mono fun _ => .find)
        · cases hfind
    · cases hr
    · cases hr
  | @next _ fuel handle x hnext =>
    rcases hr with hr | hr | hr
    · cases hr
    · cases hr
      exact (fill hnext).imp_right fun hraises => hraises.mono fun _ => .next
    · cases hr
  | @hasNext _ fuel handle x hnext =>
    rcases hr with hr | hr | hr
    · cases hr
    · cases hr
    · cases hr
      obtain ⟨⟨y, e1⟩, hfill, hmap⟩ := Option.map_eq_some_iff.1 hnext
      cases y with
      | error f =>
        cases hmap
        exact (fill hfill).imp_right fun hraises => hraises.mono fun _ => .hasNext
      | ok answer => cases hmap
  | _ => rcases hr with hr | hr | hr <;> cases hr

end

/-- The engine never reports an inconsistency of its own. Over compiled rules, with any builtins
and any stores, where an act of a history without failures fails with a malformed clause or an
invalid state, the store or a builtin has returned just that when it was asked in this act. So
every register that is read was written and exists, all code ends by proceeding, every choice point,
environment and consumer that is looked up is kept, and a machine goes on with a consumer only when
it has nothing else to try. -/
theorem inconsistency_from_outside {R : Registry} {rules : RuleSet} {base : RuleBase}
    {store₀ store : Store} {st : Settings} {e e' : Engine} {a : Act} {r : Reply}
    {cause : OperationalFailure} (hbase : rules.compile R = .ok base)
    (h : (Engine.new store₀ base st).Unfailing e) (hdoes : e.Does store a r e')
    (hr : r.Fails (.operational cause)) :
    (∃ pattern, e.Asks R store a (.lookup pattern) ∧
      store.find pattern = .error (.operational cause)) ∨
    ∃ (name : String) (f : Builtin) (c : CallContext) (args : List Term),
      e.Asks R store a (.call f c args) ∧ R.get? name = some f ∧ c.store = store ∧
        f.call c args = some (.error (.operational cause)) := by
  have hkept := h.kept (Engine.new_kept hbase store₀ st)
  rcases hkept.fails hdoes hr with ⟨cause', e⟩ | hraises
  · cases e
  · cases hraises with
    | store hasked hfind => exact .inl ⟨_, hasked, hfind⟩
    | builtin hasked hget hc hcall => exact .inr ⟨_, _, _, _, hasked, hget, hc, hcall⟩

namespace Broken

def uri (name : String) : Term := .node (.uri name)

def edge (predicate : String) (a b : Term) : Triple := ⟨a, uri predicate, b⟩

/-- A builtin that only says that something is wrong. -/
def registry : Registry :=
  { builtins := [{ name := "break"
                   call := fun _ _ => some (.error (.invalidState "broken")) }] }

def rules : RuleSet :=
  { rules := [⟨"r", edge "p" (.var "x") (.var "y"),
      [.triple (edge "e" (.var "x") (.var "y")), .builtin ⟨"break", []⟩]⟩]
    tabled := [uri "p"] }

def store : Store := (Graph.ofTriples [edge "e" (uri "a") (uri "b")]).toStore

def base : RuleBase :=
  (rules.compile registry).toOption.getD { clauses := {}, layout := rules.layout }

theorem compile_rules : rules.compile registry = .ok base :=
  eq_ok_getD (by decide +kernel) _

def opened : Except Failure Handle × Engine :=
  (Engine.new store base {}).find store (edge "p" (.var "x") (.var "y"))

theorem unfailing_opened : (Engine.new store base {}).Unfailing opened.2 := by
  refine .act .start (a := .find (edge "p" (.var "x") (.var "y"))) (r := .opened opened.1) ?_
    (.find Prod.mk.eta.symm)
  have h : opened.1.isOk = true := by decide +kernel
  cases hc : opened.1 with
  | error e =>
    rw [hc] at h
    cases h
  | ok handle => exact id

/-- The failure that reading the query comes to. -/
def failure? : Option Failure :=
  (opened.2.next store 1000 ⟨1, false⟩).bind fun p =>
    match p.1 with
    | .error failure => some failure
    | .ok _ => none

theorem does_next : ∃ e', opened.2.Does store (.next ⟨1, false⟩)
    (.answer (.error (.invalidState "broken"))) e' := by
  have h : failure? = some (.invalidState "broken") := by decide +kernel
  obtain ⟨⟨x, e'⟩, hnext, hx⟩ := Option.bind_eq_some_iff.1 h
  cases x with
  | ok answer => cases hx
  | error failure =>
    cases hx
    exact ⟨e', .next hnext⟩

end Broken

/-- A builtin that is called in the run of a generator breaks, and this is what the reader of the
query is told. -/
theorem inconsistency_from_outside_broken :
    (Engine.new Broken.store Broken.base {}).Unfailing Broken.opened.2 ∧
    (∃ e', Broken.opened.2.Does Broken.store (.next ⟨1, false⟩)
      (.answer (.error (.invalidState "broken"))) e') ∧
    ((∃ pattern, Broken.opened.2.Asks Broken.registry Broken.store (.next ⟨1, false⟩)
        (.lookup pattern) ∧ Broken.store.find pattern = .error (.invalidState "broken")) ∨
      ∃ (name : String) (f : Builtin) (c : CallContext) (args : List Term),
        Broken.opened.2.Asks Broken.registry Broken.store (.next ⟨1, false⟩) (.call f c args) ∧
          Broken.registry.get? name = some f ∧ c.store = Broken.store ∧
            f.call c args = some (.error (.invalidState "broken"))) := by
  obtain ⟨e', hdoes⟩ := Broken.does_next
  exact ⟨Broken.unfailing_opened, Broken.does_next,
    inconsistency_from_outside Broken.compile_rules Broken.unfailing_opened hdoes (.inr (.inl rfl))⟩

end TabledRules
