-- What consumers read. A consumer moves on in its table by reading a result
-- and by nothing else, whatever becomes of machines, tables and queries.
import TabledRules.Proofs.Bookkeeping

namespace TabledRules

/-! ## Consumers that stay where they are -/

/-- The consumer reads the same table for the same owner. -/
structure Consumer.Kin (k k' : Consumer) : Prop where
  generator : k'.generator = k.generator
  owner : k'.owner = k.owner

theorem Consumer.Kin.refl (k : Consumer) : k.Kin k := ⟨rfl, rfl⟩

theorem Consumer.Kin.trans {k k' k'' : Consumer} (h : k.Kin k') (h' : k'.Kin k'') : k.Kin k'' :=
  ⟨h'.generator.trans h.generator, h'.owner.trans h.owner⟩

/-- No consumer has moved on in its table. Those that are new have read nothing. -/
structure Session.Unread (s s' : Session) : Prop where
  nextId_le : s.nextId ≤ s'.nextId
  consumer : ∀ {c : Nat} {k' : Consumer}, s'.consumers[c]? = some k' →
    (∃ k : Consumer, s.consumers[c]? = some k ∧ k.Kin k' ∧ k'.read = k.read) ∨
      s.nextId ≤ c ∧ k'.read = 0

namespace Session

variable {s s' s'' : Session} {g c q : Nat}

theorem Unread.of_same (hid : s.nextId ≤ s'.nextId) (hc : s'.consumers = s.consumers) :
    s.Unread s' :=
  ⟨hid, fun hk => .inl ⟨_, hc ▸ hk, .refl _, rfl⟩⟩

theorem Unread.refl (s : Session) : s.Unread s := .of_same (Nat.le_refl _) rfl

theorem Unread.trans (h : s.Unread s') (h' : s'.Unread s'') : s.Unread s'' := by
  refine ⟨Nat.le_trans h.nextId_le h'.nextId_le, fun hk => ?_⟩
  rcases h'.consumer hk with ⟨k', hk', e1, e2⟩ | ⟨hle, e⟩
  · rcases h.consumer hk' with ⟨k, hk0, e3, e4⟩ | ⟨hle, e⟩
    · exact .inl ⟨k, hk0, e3.trans e1, e2.trans e4⟩
    · exact .inr ⟨hle, e2.trans e⟩
  · exact .inr ⟨Nat.le_trans h.nextId_le hle, e⟩

theorem Unread.foldl {α : Type} {f : Session → α → Session}
    (h : ∀ (s : Session) (a : α), s.Unread (f s a)) (as : List α) (s : Session) :
    s.Unread (as.foldl f s) := by
  induction as generalizing s with
  | nil => exact .refl s
  | cons a as ih => exact (h s a).trans (ih (f s a))

theorem Noted.unread (h : s.Noted s') : s.Unread s' := by
  obtain ⟨j, p, rfl⟩ := h
  exact .of_same (Nat.le_refl _) rfl

theorem unread_modifyConsumer (s : Session) (c : Nat) {f : Consumer → Consumer}
    (hf : ∀ k, k.Kin (f k) ∧ (f k).read = k.read) :
    s.Unread (s.modifyConsumer c f) := by
  refine ⟨Nat.le_refl _, fun {c' k'} hk => .inl ?_⟩
  rw [consumers_modifyConsumer] at hk
  split at hk
  · next e =>
    subst e
    obtain ⟨k, hk0, rfl⟩ := Option.map_eq_some_iff.1 hk
    exact ⟨k, hk0, hf k⟩
  · exact ⟨k', hk, .refl k', rfl⟩

theorem unread_removeConsumer (s : Session) (c : Nat) : s.Unread (s.removeConsumer c) := by
  refine ⟨Nat.le_of_eq (s.nextId_removeConsumer c).symm, fun {c' k'} hk => .inl ?_⟩
  rw [consumers_removeConsumer] at hk
  split at hk
  · cases hk
  · exact ⟨k', hk, .refl k', rfl⟩

theorem unread_removeAll (owned : List (Nat × Consumer)) (s : Session) :
    s.Unread (s.removeAll owned) :=
  .foldl (fun s (p : Nat × Consumer) => s.unread_removeConsumer p.1) owned s

theorem unread_block (s : Session) (owner : Owner) (c : Nat) : s.Unread (s.block owner c) := by
  have hmarked := s.unread_modifyConsumer c
    (f := fun k => { k with suspended := true }) fun _ => ⟨⟨rfl, rfl⟩, rfl⟩
  cases owner <;> exact hmarked.trans (.of_same (Nat.le_refl _) rfl)

theorem unread_released (s : Session) (resume : Option Nat) : s.Unread (s.released resume) := by
  cases resume with
  | none => exact .refl s
  | some c => exact s.unread_modifyConsumer c fun _ => ⟨⟨rfl, rfl⟩, rfl⟩

theorem unread_takeReady (h : s.takeReady q = some (c, s')) : s.Unread s' := by
  unfold takeReady at h
  obtain ⟨c', -, e⟩ := Option.map_eq_some_iff.1 h
  cases e
  exact .of_same (Nat.le_refl _) rfl

theorem unread_takeUp {task : Task} {agenda : Queue Task} {x : Option (Nat × Option Nat)}
    (h : ({ s with agenda } : Session).takeUp task = (x, s')) : s.Unread s' := by
  have hpopped : s.Unread { s with agenda } := .of_same (Nat.le_refl _) rfl
  rcases takeUp_cases h with ⟨g, -, rfl, -⟩ | ⟨c, -, rfl, -⟩
  · exact hpopped
  · exact hpopped.trans (unread_modifyConsumer _ c fun _ => ⟨⟨rfl, rfl⟩, rfl⟩)

theorem unread_prepared (s : Session) (g : Nat) (resume : Option Nat) :
    s.Unread (s.prepared g resume) := by
  cases resume <;> exact .of_same (Nat.le_refl _) rfl

/-! ## Tables -/

theorem unread_wakeReaders (s : Session) (g : Nat) : s.Unread (s.wakeReaders g) := by
  refine ⟨Nat.le_of_eq (s.sameTables_wakeReaders g).nextId.symm, fun hk => .inl ?_⟩
  obtain ⟨k, hk0, e | e⟩ := s.consumer_wakeReaders g hk
  · exact ⟨k, hk0, e ▸ .refl k, by rw [e]⟩
  · obtain ⟨h1, h2, h3, -⟩ := k.woken_same
    exact ⟨k, hk0, e ▸ ⟨h1, h2⟩, e ▸ h3⟩

theorem unread_complete (event : Triple → Nat → Event) (s : Session) (g : Nat) :
    s.Unread (s.complete event g) := by
  rcases s.complete_cases event g with e | ⟨gen, hgen, hinc⟩
  · rw [e]
    exact .refl s
  · rw [complete_eq event hgen hinc]
    have hfinish : s.Unread ((s.finish g).note (event gen.goal gen.results.size)) :=
      .of_same (Nat.le_refl _) rfl
    exact (hfinish.trans (unread_removeAll _ _)).trans (unread_wakeReaders _ g)

theorem unread_completeAll (event : Triple → Nat → Event) (gs : List Nat) (s : Session) :
    s.Unread (gs.foldl (complete event) s) :=
  .foldl (unread_complete event) gs s

theorem unread_checkCompletion (s : Session) (roots : List Nat) :
    s.Unread (s.checkCompletion roots) :=
  unread_completeAll _ _ s

theorem unread_endBatch (s : Session) (size : Nat) (batch : List Nat) :
    s.Unread (s.endBatch size batch).2 := by
  unfold endBatch
  split
  · exact s.unread_checkCompletion batch
  · exact .refl s

theorem unread_endPump (s : Session) (g n : Nat) (m : Machine) : s.Unread (s.endPump g n m) := by
  refine .of_same ?_ (s.consumers_endPump g n m)
  unfold endPump
  split <;> exact Nat.le_refl _

theorem unread_settle (s : Session) (g : Nat) (finished : Bool) (added : Nat) :
    s.Unread (s.settle g finished added) := by
  unfold settle
  split
  · exact unread_complete _ s g
  · split
    · exact .refl s
    · exact s.unread_wakeReaders g

/-- A reader that is new has read nothing. -/
theorem unread_addConsumer (s : Session) (g : Nat) (owner : Owner) :
    s.Unread (s.addConsumer g owner).2 := by
  refine ⟨Nat.le_succ _, fun {c k'} hk => ?_⟩
  rw [consumers_addConsumer] at hk
  split at hk
  · next e =>
    cases hk
    exact .inr ⟨Nat.le_of_eq e, rfl⟩
  · exact .inl ⟨k', hk, .refl k', rfl⟩

theorem unread_table {w : World} {value : Triple} {x : Except Failure Nat}
    (h : s.generatorFor w value = (x, s')) (g : Nat) (owner : Owner) :
    s.Unread (s'.addConsumer g owner).2 := by
  refine Unread.trans ?_ (s'.unread_addConsumer g owner)
  rcases generatorFor_cases h with ⟨_, _, -, -, rfl⟩ | ⟨-, _, -, rfl⟩ | ⟨m, -, -, -, rfl⟩
  · exact .refl _
  · exact .of_same (Nat.le_succ _) rfl
  · exact .of_same (Nat.le_succ _) rfl

/-! ## Queries -/

theorem unread_closeQuery (s : Session) (q : Nat) : s.Unread (s.closeQuery q) := by
  have hremoved : s.Unread (s.removeAll (s.ownedBy (.query q))) := unread_removeAll _ s
  rcases s.closeQuery_cases q with e | ⟨roots, e⟩
  · rw [e]
    exact hremoved
  · rw [e]
    have hdismissed : s.Unread (s.dismissed q) := hremoved.trans (.of_same (Nat.le_refl _) rfl)
    exact (hdismissed.trans (unread_checkCompletion _ roots)).trans (noted_note _ _).unread

end Session

/-! ## Readings -/

/-- What consumer the machine reads with where it goes back to its last choice point. -/
def Machine.reader? (m : Machine) : Control → Option Nat
  | .backtrack => m.stack.head?.bind Choice.consumer?
  | .run _ _ => none

/-- The consumer has been given its next result, or no consumer has been given any. -/
inductive Session.Hands (reader? : Option Nat) (s s' : Session) : Prop
  | result {c : Nat} {t : Triple} {s1 : Session} : reader? = some c →
    s.read c = (.result t, s1) → s1.Unread s' → Hands reader? s s'
  | none : (∀ c t, reader? = some c → (s.read c).1 ≠ .result t) → s.Unread s' → Hands reader? s s'

section

variable {P : Program} {st : Settings} {control : Control} {p : Progress} {m m' : Machine}
  {s s' s'' : Session} {q g added : Nat}

theorem Session.Hands.unread {reader? : Option Nat} (h : s.Hands reader? s')
    (h' : s'.Unread s'') : s.Hands reader? s'' := by
  cases h with
  | result hc hread h1 => exact .result hc hread (h1.trans h')
  | none hno h1 => exact .none hno (h1.trans h')

theorem Session.Unread.hands (h : s.Unread s') : s.Hands none s' :=
  .none (fun _ _ e => by cases e) h

theorem Machine.reader?_of_stack {c : Choice} {rest : List Choice} (hstack : m.stack = c :: rest) :
    m.reader? .backtrack = c.consumer? := by
  unfold Machine.reader?
  rw [hstack]
  rfl

/-- A consumer is given a result by a turn that reads with it, and by no other. -/
theorem Turn.hands (h : Turn P st control m s p m' s') (hp : ∀ e, p ≠ .done (.error e)) :
    s.Hands (m.reader? control) s' := by
  -- a choice point that is not for the results of a table
  have other : ∀ {c : Choice} {rest : List Choice}, m.stack = c :: rest → c.consumer? = none →
      s.Unread s' → s.Hands (m.reader? .backtrack) s' := fun hstack hc hs => by
    rw [Machine.reader?_of_stack hstack, hc]
    exact hs.hands
  have consumer : ∀ {c : Choice} {rest : List Choice} {i : Nat} {goal : Triple},
      m.stack = c :: rest → c.alternatives = .results i goal → m.reader? .backtrack = some i :=
    fun hstack halt => by rw [Machine.reader?_of_stack hstack, Choice.consumer?, halt]
  cases h with
  | leave hnoted => exact hnoted.unread.hands
  | answer _ hnoted => exact hnoted.unread.hands
  | call _ hcalls =>
    obtain ⟨-, heffect⟩ := hcalls.effect rfl hp
    cases hcalls with
    | search => exact (Session.Unread.refl s).hands
    | full => exact absurd rfl (hp _)
    | table _ _ hg => exact (Session.unread_table hg _ _).hands
    | tableFull => exact absurd rfl (hp _)
    | tableRefused => exact absurd rfl (hp _)
  | builtinFails _ _ hnoted => exact hnoted.unread.hands
  | builtinStops => exact absurd rfl (hp _)
  | builtin => exact (Session.Unread.refl s).hands
  | empty hnil =>
    unfold Machine.reader?
    rw [hnil]
    exact (Session.Unread.refl s).hands
  | @spent c rest _ _ _ hstack hspent hnoted =>
    refine other hstack ?_ hnoted.unread
    unfold Choice.Spent at hspent
    unfold Choice.consumer?
    split at hspent <;> rename_i halt <;> first | exact hspent.elim | rw [halt]
  | full => exact absurd rfl (hp _)
  | refuse hstack halt _ _ _ hnoted =>
    exact other hstack (by rw [Choice.consumer?, halt]) hnoted.unread
  | enter hstack halt _ _ _ _ hnoted =>
    exact other hstack (by rw [Choice.consumer?, halt]) hnoted.unread
  | missFact hstack halt => exact other hstack (by rw [Choice.consumer?, halt]) (.refl s)
  | fact hstack halt _ hnoted =>
    exact other hstack (by rw [Choice.consumer?, halt]) hnoted.unread
  | missAnswer hstack halt => exact other hstack (by rw [Choice.consumer?, halt]) (.refl s)
  | storedAnswer hstack halt _ hnoted =>
    exact other hstack (by rw [Choice.consumer?, halt]) hnoted.unread
  | missResult hstack halt hread => exact .result (consumer hstack halt) hread (.refl s')
  | result hstack halt hread => exact .result (consumer hstack halt) hread (.refl s')
  | @exhausted _ _ i _ _ _ _ hstack halt hread hnoted =>
    refine .none (fun d t e => ?_) ((s.unread_removeConsumer i).trans hnoted.unread)
    cases (consumer hstack halt).symm.trans e
    simp [hread]
  | @park _ _ i _ _ _ _ hstack halt hread hnoted =>
    refine .none (fun d t e => ?_) ((s.unread_block m.owner i).trans hnoted.unread)
    cases (consumer hstack halt).symm.trans e
    simp [hread]

theorem Ends.hands {finished : Bool} {n : Nat} (h : Ends P st g added control m s finished n m' s') :
    s.Hands (m.reader? control) s' := by
  cases h with
  | dry hturn => exact hturn.hands (by simp)
  | single hturn hnoted =>
    exact ((hturn.hands (by simp)).unread hnoted.unread).unread (.of_same (Nat.le_refl _) rfl)
  | gone hturn hnoted => exact (hturn.hands (by simp)).unread hnoted.unread

theorem restore_unread {c : Nat} (h : m.restore c s = (.ok (), m', s')) : s.Unread s' := by
  obtain ⟨x, -, -, hnoted, -⟩ := restore_eq h
  exact (s.unread_released (some c)).trans hnoted.unread

theorem resumed_unread {resume : Option Nat} (h : m.resumed resume s = (.ok (), m', s')) :
    s.Unread s' := by
  cases resume with
  | none =>
    cases h
    exact .refl s
  | some c => exact restore_unread h

/-- The consumer that the machine that runs reads with, if it reads next. -/
def Phase.reader? : Phase → Option Nat
  | .search control m => m.reader? control
  | .pump _ _ _ control m _ => m.reader? control
  | _ => none

/-- A consumer is given a result by a move that reads with it, and by no other. -/
theorem Moves.hands {x y : Phase × Session} (h : Moves P st q x y) :
    x.2.Hands x.1.reader? y.2 := by
  cases h with
  | turn hturn => exact hturn.hands (by simp)
  | answer hturn hnoted => exact (hturn.hands (by simp)).unread hnoted.unread
  | dry hturn => exact hturn.hands (by simp)
  | restore htake hr => exact ((Session.unread_takeReady htake).trans (restore_unread hr)).hands
  | ended => exact (Session.noted_note _ _).unread.hands
  | await => exact (Session.Unread.refl _).hands
  | skip _ _ htake => exact (Session.unread_takeUp htake).hands
  | @rests batch batch' own s s1 s2 s' task agenda g resume hready hpop htake hrests hbatch =>
    have hend := s2.unread_endBatch (max st.completionCycles 1) (batch ++ [g])
    rw [hbatch] at hend
    refine (((Session.unread_takeUp htake).trans ?_).trans hend).hands
    rcases hrests with ⟨rfl, -⟩ | ⟨rfl, -⟩
    · exact .refl _
    · exact s1.unread_prepared g resume
  | @start batch own m m' s s1 s' task agenda g resume gen hready hpop htake hgen hinc hm hr =>
    have hout : (s1.prepared g resume).Unread ((s1.prepared g resume).modifyGenerator g
        fun gen => { gen with machine := none }) := .of_same (Nat.le_refl _) rfl
    exact (((Session.unread_takeUp htake).trans (s1.unread_prepared g resume)).trans
      (hout.trans (resumed_unread hr))).hands
  | work hturn => exact hturn.hands (by simp)
  | known hturn hnoted => exact (hturn.hands (by simp)).unread hnoted.unread
  | result hturn hnoted =>
    exact ((hturn.hands (by simp)).unread hnoted.unread).unread (.of_same (Nat.le_refl _) rfl)
  | @pumped batch batch' g added n control m m' own finished s s1 s' hends hbatch =>
    have hend := ((s1.unread_endPump g n m').trans (Session.unread_settle _ g finished n)).trans
      (Session.unread_endBatch _ (max st.completionCycles 1) (batch ++ [g]))
    rw [hbatch] at hend
    exact hends.hands.unread hend
  | @leave batch own s hstop =>
    refine Session.Unread.hands ?_
    split
    · exact .refl s
    · exact s.unread_checkCompletion batch
  | ready => exact (Session.Unread.refl _).hands
  | check => exact (Session.unread_checkCompletion _ _).hands
  | force =>
    exact ((Session.unread_checkCompletion _ _).trans (Session.unread_completeAll _ _ _)).hands

end

/-! ## Acts -/

/-- Where a query is opened, the reader of its table is new. -/
theorem Session.unread_opened {P : Program} {st : Settings} {s s' : Session} {m : Machine}
    {pattern : Triple} (hstart : Machine.startQuery (P.world st) pattern s.nextId
      (s.openQuery.2.note (.queryOpened s.nextId pattern)) = (.ok m, s')) : s.Unread s' := by
  have hopened : s.Unread (s.openQuery.2.note (.queryOpened s.nextId pattern)) :=
    .of_same (Nat.le_succ _) rfl
  refine hopened.trans ?_
  rcases startQuery_ok hstart with ⟨-, -, rfl⟩ | ⟨-, m0, g, s1, -, hg, -, rfl⟩
  · exact .refl _
  · exact unread_table hg g _

end TabledRules
