-- Sites at which every call comes to an end. A failure that is fatal leaves a mark, under
-- which nothing is looked for until all is cleared, and one that is not leaves the engine as
-- it was. So after every history of queries for simple patterns either the mark is there,
-- or the bookkeeping holds and all is made of what was there from the start.
import TabledRules.Proofs.FlatSites

namespace TabledRules

/-- A query is opened only for a pattern each of whose terms is ground or a variable, and only
ground triples are added to the store. -/
def Act.Plain : Act → Prop
  | .find pattern => ∀ t ∈ pattern.terms, t.isGround = true ∨ t.isVar = true
  | .add triple => triple.isGround = true
  | _ => True

/-- The engine has failed fatally, or its bookkeeping holds and all is made of what was there. -/
def Site.Tame (σ : Site) : Prop :=
  σ.engine.session.poisoned.isSome = true ∨ σ.engine.Kept Builtin.standard ∧ σ.Flat

section

variable {σ σ' : Site} {g : Graph} {e e' : Engine} {store : Store} {K : Nat → Triple → Prop}
  {a : Act} {r : Reply}

theorem Act.Plain.added (h : a.Plain) : ∀ t, a = .add t → t.isGround = true := by
  rintro t rfl
  exact h

/-! ## Acts -/

/-- An act that does not fail leaves all flat. -/
theorem Site.Flat.does (h : σ.Flat) (hkept : σ.engine.Kept Builtin.standard)
    (hσ : σ.Sound Builtin.standard K) (hP : (σ.program Builtin.standard).Simple σ.graph.triples)
    (hplain : a.Plain) (hdoes : σ.Does a r σ') (hr : ¬ r.Failed) : σ'.Flat := by
  have hages := hdoes.ages
  cases hdoes with
  | @find g e e' pattern x hfind =>
    cases x with
    | error failure => exact absurd trivial hr
    | ok handle => exact Site.Flat.find (fun _ => h) hσ hP hplain hfind
  | @next g e e' fuel handle x hnext =>
    cases x with
    | error failure => exact absurd trivial hr
    | ok answer => exact (h.fill_settles hkept hσ hP handle.query true).sound hnext answer rfl
  | @hasNext g e e' fuel handle x hnext =>
    obtain ⟨⟨y, e1⟩, hfill, hmap⟩ := Option.map_eq_some_iff.1 hnext
    cases y with
    | error failure =>
      cases hmap
      exact absurd trivial hr
    | ok answer =>
      cases hmap
      exact (h.fill_settles hkept hσ hP handle.query false).sound hfill answer rfl
  | @close g e handle => exact h.closeQuery hσ handle.query
  | @clone g e handle =>
    refine h.aside hσ rfl hages (.refl _) (.refl (fun _ => True) _) fun {id q m} hq hm hc => ?_
    change (e.queries.modify handle.query _)[id]? = some q at hq
    rw [Std.TreeMap.getElem?_modify] at hq
    split at hq
    · next heq =>
      obtain ⟨old, hold, rfl⟩ := Option.map_eq_some_iff.1 hq
      rw [Std.LawfulEqCmp.compare_eq_iff_eq] at heq
      exact ⟨old, heq ▸ hold, hm, hc⟩
    · exact ⟨q, hq, hm, hc⟩
  | @drop g e handle =>
    unfold Engine.drop at hages ⊢
    split
    · exact h
    · next query hq =>
      simp only [hq] at hages
      split
      · have kept : ∀ {id : Nat} {q : Query},
            ((e.closeQuery handle.query).queries.erase handle.query)[id]? = some q →
            (e.closeQuery handle.query).queries[id]? = some q := by
          intro id q hq'
          rw [Std.TreeMap.getElem?_erase] at hq'
          split at hq'
          · cases hq'
          · exact hq'
        exact (h.closeQuery hσ handle.query).aside (hσ.closeQuery handle.query) rfl
          ⟨.refl _, fun _ hq' => ⟨_, kept hq', rfl, fun hc => hc⟩⟩ (.refl _)
          (.refl (fun _ => True) _) fun {id q m} hq' hm hc => ⟨q, kept hq', hm, hc⟩
      · next hmore =>
        rw [if_neg hmore] at hages
        refine h.aside hσ rfl hages (.refl _) (.refl (fun _ => True) _) fun {id q m} hq' hm hc => ?_
        rcases getElem?_insert_cases hq' with ⟨rfl, rfl⟩ | hq'
        · exact ⟨query, hq, hm, hc⟩
        · exact ⟨q, hq', hm, hc⟩
  | reset => exact .of_cleared rfl rfl rfl
  | @nextMessage g e =>
    have hnoted : e.session.Noted e.nextMessage.2.session := ⟨_, _, rfl⟩
    exact h.aside hσ rfl hages hnoted.sameTables (hnoted.spares fun _ => True)
      fun {id q m} hq hm hc => ⟨q, hq, hm, hc⟩
  | @printProfile g e =>
    obtain ⟨j, hj⟩ := e.printProfile_eq
    rw [hj] at hages ⊢
    have hnoted : e.session.Noted { e.session with journal := j } := ⟨j, e.session.profile, rfl⟩
    exact h.aside hσ rfl hages hnoted.sameTables (hnoted.spares fun _ => True)
      fun {id q m} hq hm hc => ⟨q, hq, hm, hc⟩
  | @add g e t =>
    rcases g.add_cases t with hsame | hv
    · rw [hsame]
      exact h
    · exact .outdated hσ hv
  | @delete g e t =>
    rcases g.delete_cases t with hsame | hv
    · rw [hsame]
      exact h
    · exact .outdated hσ hv

/-- Whatever is done, a tame site stays tame. -/
theorem Site.Tame.does (h : σ.Tame) (hσ : σ.Sound Builtin.standard K)
    (hP : (σ.program Builtin.standard).Simple σ.graph.triples) (hplain : a.Plain)
    (hdoes : σ.Does a r σ') : σ'.Tame := by
  rcases h with hpoisoned | ⟨hkept, hflat⟩
  · obtain ⟨detail, hpoisoned⟩ := Option.isSome_iff_exists.1 hpoisoned
    rcases hdoes.still_poisoned hpoisoned with rfl | hpoisoned
    · cases hdoes
      exact .inr ⟨.of_cleared hσ.compiled hσ.query_lt rfl rfl rfl, .of_cleared rfl rfl rfl⟩
    · exact .inl (Option.isSome_iff_exists.2 ⟨detail, hpoisoned⟩)
  · by_cases hr : r.Failed
    · obtain ⟨failure, hfails⟩ := fails_of_failed hr
      have hengine := hdoes.engine_of_fails hfails
      rcases hkept.harmless Builtin.failsFatally_standard hengine hfails with hfatal | hsame
      · refine .inl ?_
        rw [hengine.poisons hfails hfatal]
        rfl
      · rw [hdoes.eq_of_failed hr hsame]
        exact .inr ⟨hkept, hflat⟩
    · exact .inr ⟨hdoes.kept hr hkept, hflat.does hkept hσ hP hplain hdoes hr⟩

end

end TabledRules
