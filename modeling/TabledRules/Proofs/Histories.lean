-- Histories: what can be done to an engine and to the store that it is about,
-- step by step and in any order, and what comes back.
import Mathlib.Data.List.Basic
import Mathlib.Logic.Relation
import Mathlib.Tactic.Common
import TabledRules.Engine

namespace TabledRules

/-! ## Steps -/

/-- A store and an engine over it. -/
structure Site where
  graph : Graph
  engine : Engine

inductive Act where
  | find (pattern : Triple)
  | next (handle : Handle)
  | hasNext (handle : Handle)
  | close (handle : Handle)
  | clone (handle : Handle)
  | drop (handle : Handle)
  | reset
  | nextMessage
  | printProfile
  | add (triple : Triple)
  | delete (triple : Triple)

inductive Reply where
  | opened (handle : Except Failure Handle)
  | answer (triple : Except Failure (Option Triple))
  | more (there : Except Failure Bool)
  | done

/-- The act went wrong. -/
def Reply.Failed : Reply → Prop
  | .opened (.error _) | .answer (.error _) | .more (.error _) => True
  | _ => False

/-- What an act does, if it comes to an end. -/
inductive Site.Does : Site → Act → Reply → Site → Prop
  | find {g : Graph} {e e' : Engine} {pattern : Triple} {x : Except Failure Handle} :
    e.find g.toStore pattern = (x, e') → Does ⟨g, e⟩ (.find pattern) (.opened x) ⟨g, e'⟩
  | next {g : Graph} {e e' : Engine} {fuel : Nat} {h : Handle}
    {x : Except Failure (Option Triple)} :
    e.next g.toStore fuel h = some (x, e') → Does ⟨g, e⟩ (.next h) (.answer x) ⟨g, e'⟩
  | hasNext {g : Graph} {e e' : Engine} {fuel : Nat} {h : Handle} {x : Except Failure Bool} :
    e.hasNext g.toStore fuel h = some (x, e') → Does ⟨g, e⟩ (.hasNext h) (.more x) ⟨g, e'⟩
  | close {g : Graph} {e : Engine} {h : Handle} : Does ⟨g, e⟩ (.close h) .done ⟨g, e.close h⟩
  | clone {g : Graph} {e : Engine} {h : Handle} : Does ⟨g, e⟩ (.clone h) .done ⟨g, (e.clone h).2⟩
  | drop {g : Graph} {e : Engine} {h : Handle} : Does ⟨g, e⟩ (.drop h) .done ⟨g, e.drop h⟩
  | reset {g : Graph} {e : Engine} : Does ⟨g, e⟩ .reset .done ⟨g, e.reset g.toStore⟩
  | nextMessage {g : Graph} {e : Engine} : Does ⟨g, e⟩ .nextMessage .done ⟨g, e.nextMessage.2⟩
  | printProfile {g : Graph} {e : Engine} : Does ⟨g, e⟩ .printProfile .done ⟨g, e.printProfile⟩
  | add {g : Graph} {e : Engine} {t : Triple} : Does ⟨g, e⟩ (.add t) .done ⟨(g.add t).2, e⟩
  | delete {g : Graph} {e : Engine} {t : Triple} : Does ⟨g, e⟩ (.delete t) .done ⟨(g.delete t).2, e⟩

/-- What an act does to an engine over a store of any kind, if it comes to an end. -/
inductive Engine.Does (store : Store) (e : Engine) : Act → Reply → Engine → Prop
  | find {e' : Engine} {pattern : Triple} {x : Except Failure Handle} :
    e.find store pattern = (x, e') → Does store e (.find pattern) (.opened x) e'
  | next {e' : Engine} {fuel : Nat} {h : Handle} {x : Except Failure (Option Triple)} :
    e.next store fuel h = some (x, e') → Does store e (.next h) (.answer x) e'
  | hasNext {e' : Engine} {fuel : Nat} {h : Handle} {x : Except Failure Bool} :
    e.hasNext store fuel h = some (x, e') → Does store e (.hasNext h) (.more x) e'
  | close {h : Handle} : Does store e (.close h) .done (e.close h)
  | clone {h : Handle} : Does store e (.clone h) .done (e.clone h).2
  | drop {h : Handle} : Does store e (.drop h) .done (e.drop h)
  | reset : Does store e .reset .done (e.reset store)
  | nextMessage : Does store e .nextMessage .done e.nextMessage.2
  | printProfile : Does store e .printProfile .done e.printProfile

/-- An act at a site is an act on its engine, or it changes the store only. -/
theorem Site.Does.engine {σ σ' : Site} {a : Act} {r : Reply} (h : σ.Does a r σ') :
    σ.engine.Does σ.graph.toStore a r σ'.engine ∨ σ'.engine = σ.engine := by
  cases h with
  | find h => exact .inl (.find h)
  | next h => exact .inl (.next h)
  | hasNext h => exact .inl (.hasNext h)
  | close => exact .inl .close
  | clone => exact .inl .clone
  | drop => exact .inl .drop
  | reset => exact .inl .reset
  | nextMessage => exact .inl .nextMessage
  | printProfile => exact .inl .printProfile
  | add => exact .inr rfl
  | delete => exact .inr rfl

/-- A history of acts and replies that `ok` admits. -/
def Site.Runs (ok : Act → Reply → Prop) : Site → Site → Prop :=
  Relation.ReflTransGen fun σ σ' => ∃ a r, ok a r ∧ σ.Does a r σ'

/-- An engine that nothing was asked of yet. -/
def Site.new (graph : Graph) (rules : RuleBase) (settings : Settings) : Site :=
  ⟨graph, Engine.new graph.toStore rules settings⟩

/-! ## The store -/

namespace Graph

variable {g : Graph} {t u : Triple}

theorem mem_place {buckets : List Bucket} (h : u ∈ (place t buckets).flatMap Bucket.triples) :
    u = t ∨ u ∈ buckets.flatMap Bucket.triples := by
  induction buckets with
  | nil => exact .inl (by simpa [place] using h)
  | cons bucket rest ih =>
    rw [place] at h
    split at h
    · simpa using h
    · simp only [List.flatMap_cons, List.mem_append, List.mem_singleton] at h ⊢
      rcases h with (h | h) | h
      · exact .inr (.inl h)
      · exact .inl h
      · exact .inr (.inr h)
    · simp only [List.flatMap_cons, List.mem_append] at h ⊢
      rcases h with h | h
      · exact .inr (.inl h)
      · exact (ih h).imp_right .inr

theorem mem_add (h : u ∈ (g.add t).2.triples) : u = t ∨ u ∈ g.triples := by
  unfold add at h
  split at h
  · exact .inr h
  · exact mem_place h

theorem mem_delete (h : u ∈ (g.delete t).2.triples) : u ∈ g.triples := by
  unfold delete at h
  split at h
  · obtain ⟨bucket, hb, hu⟩ := List.mem_flatMap.1 h
    obtain ⟨bucket', hb', rfl⟩ := List.mem_map.1 hb
    refine List.mem_flatMap.2 ⟨bucket', hb', ?_⟩
    split at hu
    · exact List.mem_of_mem_filter hu
    · exact hu
  · exact h

theorem mem_triples_of_find {pattern : Triple} (h : t ∈ g.find pattern) : t ∈ g.triples := by
  unfold find at h
  simp only at h
  have h := List.mem_of_mem_filter h
  split at h
  · unfold withPredicate at h
    split at h
    · next bucket hb =>
      exact List.mem_flatMap.2 ⟨bucket, List.mem_of_find?_eq_some hb, h⟩
    · cases h
  · exact h

/-- Everything answers to three wildcards. -/
theorem find_any (g : Graph) : g.find ⟨.any, .any, .any⟩ = g.triples := by
  simp [find, Triple.lookupKey, Triple.mapTerms, Term.lookupKey, Term.isGround, Triple.admits,
    Term.admits]

/-- A change shows in the version. -/
theorem add_cases (g : Graph) (t : Triple) :
    (g.add t).2 = g ∨ (g.add t).2.version = g.version + 1 := by
  unfold add
  split
  · exact .inl rfl
  · exact .inr rfl

theorem delete_cases (g : Graph) (t : Triple) :
    (g.delete t).2 = g ∨ (g.delete t).2.version = g.version + 1 := by
  unfold delete
  split
  · exact .inr rfl
  · exact .inl rfl

end Graph

section

variable {σ σ' : Site} {a : Act} {r : Reply} {ok : Act → Reply → Prop}

/-- An act that changes the store gives it a new version, and does nothing else. -/
theorem Site.Does.store_cases (h : σ.Does a r σ') : σ'.graph = σ.graph ∨
    σ'.engine = σ.engine ∧ σ'.graph.version = σ.graph.version + 1 := by
  cases h with
  | add => exact (Graph.add_cases _ _).imp_right fun hv => ⟨rfl, hv⟩
  | delete => exact (Graph.delete_cases _ _).imp_right fun hv => ⟨rfl, hv⟩
  | _ => exact .inl rfl

/-- The version of a store never goes down. -/
theorem Site.Does.version_le (h : σ.Does a r σ') : σ.graph.version ≤ σ'.graph.version := by
  rcases h.store_cases with hsame | ⟨-, hv⟩
  · exact Nat.le_of_eq (congrArg Graph.version hsame.symm)
  · omega

/-- A store that has the version it had has not changed. -/
theorem Site.Does.graph_eq (h : σ.Does a r σ') (hv : σ'.graph.version = σ.graph.version) :
    σ'.graph = σ.graph :=
  h.store_cases.resolve_right fun hnew => by omega

theorem Site.Runs.version_le (h : σ.Runs ok σ') : σ.graph.version ≤ σ'.graph.version := by
  induction h with
  | refl => exact Nat.le_refl _
  | tail _ hstep ih =>
    obtain ⟨a, r, -, hdoes⟩ := hstep
    exact Nat.le_trans ih hdoes.version_le

theorem Site.Runs.graph_eq (h : σ.Runs ok σ') (hv : σ'.graph.version = σ.graph.version) :
    σ'.graph = σ.graph := by
  induction h with
  | refl => rfl
  | tail hbefore hstep ih =>
    obtain ⟨a, r, -, hdoes⟩ := hstep
    have hle := Site.Runs.version_le hbefore
    have hle' := hdoes.version_le
    exact (hdoes.graph_eq (by omega)).trans (ih (by omega))

/-- All stored triples are ground. -/
def Site.Ground (σ : Site) : Prop := ∀ t ∈ σ.graph.triples, t.isGround = true

theorem Site.Ground.congr (h : σ.Ground) (hsame : σ'.graph = σ.graph) : σ'.Ground := by
  unfold Site.Ground
  rw [hsame]
  exact h

/-- A store stays ground if only ground triples are added. -/
theorem Site.Does.ground (h : σ.Does a r σ') (hg : σ.Ground)
    (ha : ∀ t, a = .add t → t.isGround = true) : σ'.Ground := by
  cases h with
  | add =>
    intro u hu
    rcases Graph.mem_add hu with rfl | hu
    · exact ha _ rfl
    · exact hg u hu
  | delete => exact fun u hu => hg u (Graph.mem_delete hu)
  | _ => exact hg

end

end TabledRules
