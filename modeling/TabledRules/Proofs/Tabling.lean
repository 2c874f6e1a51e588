-- Tables keep answers. Over safe rules whose bodies are goals a query that is read to its
-- end has returned just the derivable triples that its pattern asks for, so which
-- predicates keep tables makes no difference. A head with a variable that the body leaves
-- open is another matter: a table forgets that two places of it are the same.
import TabledRules.Proofs.Completeness
import TabledRules.Proofs.Schedules

namespace TabledRules

section

variable {R : Registry} {rules : RuleSet} {base : RuleBase} {stored : List Triple} {g : Graph}
  {st : Settings} {pattern t : Triple} {ts : List Triple}

/-- What a compiled program derives is what its rules derive from the triples of the graph. -/
theorem derivable_of_compile (hbase : rules.compile R = .ok base) :
    (Program.mk R base g).Derivable t ↔ Derivable rules.rules (· ∈ g.triples) t := by
  have hstored : (Program.mk R base g).Stored = (· ∈ g.triples) :=
    funext fun u => propext ((Site.new g base {}).stored_iff R u)
  unfold Program.Derivable
  rw [hstored, rules_of_compile hbase]

/-- A query that is read to its end returns the derivable triples that its pattern asks for. -/
theorem Site.Drains.mem_iff (h : (Site.new (.ofTriples stored) base st).Drains g pattern ts)
    (hbase : rules.compile Builtin.standard = .ok base) (hsafe : ∀ r ∈ rules.rules, r.Safe)
    (hgoals : ∀ r ∈ rules.rules, ∀ e ∈ r.body, ∃ goal, e = .triple goal)
    (hground : ∀ t ∈ g.triples, t.isGround = true) :
    t ∈ ts ↔ pattern.Matches t ∧ Derivable rules.rules (· ∈ g.triples) t := by
  have hnew : (Site.new (.ofTriples stored) base st).Sound Builtin.standard fun _ _ => True :=
    Site.new_sound (compiled_of_compile hbase _)
  obtain ⟨_, σ, σ', handle', hyields, hsame, hend⟩ := h
  have hanswers := hyields.answers hnew
  obtain ⟨σ₁, σ₂, handle, hbefore, rfl, hfind, rfl, hreads⟩ := hyields
  have hP : (Program.mk Builtin.standard base σ₁.graph).Plain :=
    plain_of_compile hbase hsafe hgoals hground
      (hbefore.runs.tidy (Graph.tidy_ofTriples stored))
  rw [← derivable_of_compile hbase]
  refine ⟨fun ht => ?_, fun ⟨hmatch, hd⟩ => ?_⟩
  · have hright := hP.queryAnswer_right (hanswers t ht)
    exact ⟨hright.matched, hright.derivable⟩
  · obtain ⟨hrules, -⟩ := hnew.runs hbefore.runs
    obtain ⟨n, hn⟩ := hd.within
    have hprogram : σ₁.program Builtin.standard = ⟨Builtin.standard, base, σ₁.graph⟩ := by
      unfold Site.program
      rw [hrules]
      rfl
    refine asked_of_drained (n := n) (X := derivableProspect) (Engine.new_kept hbase _ st)
      (.of_cleared rfl rfl) hnew hbefore hground hfind hreads hsame hend ?_
    rw [hprogram]
    exact ⟨hP, hn, hmatch⟩

end

/-- Tabling does not change answers, where every variable of a head stands in the body. Two engines
for the same safe rules whose bodies are goals, with any choice of the predicates that keep tables
and with any settings, return the same triples for a pattern: each query is read to its end after
any history without failures since the tables were last cleared, and with any other acts in
between, and the stores hold the same triples when the queries are opened. -/
theorem tabling_keeps_answers {rules rules' : RuleSet} {base base' : RuleBase}
    {stored stored' : List Triple} {g g' : Graph} {st st' : Settings} {pattern : Triple}
    {ts us : List Triple} (hrules : rules'.rules = rules.rules)
    (hbase : rules.compile Builtin.standard = .ok base)
    (hbase' : rules'.compile Builtin.standard = .ok base')
    (hsafe : ∀ r ∈ rules.rules, r.Safe)
    (hgoals : ∀ r ∈ rules.rules, ∀ e ∈ r.body, ∃ goal, e = .triple goal)
    (hground : ∀ t ∈ g.triples, t.isGround = true)
    (hstore : ∀ t, t ∈ g'.triples ↔ t ∈ g.triples)
    (hdrains : (Site.new (.ofTriples stored) base st).Drains g pattern ts)
    (hdrains' : (Site.new (.ofTriples stored') base' st').Drains g' pattern us) :
    ∀ t, t ∈ us ↔ t ∈ ts := by
  intro t
  have hsafe' : ∀ r ∈ rules'.rules, r.Safe := by rwa [hrules]
  have hgoals' : ∀ r ∈ rules'.rules, ∀ e ∈ r.body, ∃ goal, e = .triple goal := by rwa [hrules]
  have hsame : (fun t => t ∈ g'.triples) = fun t => t ∈ g.triples :=
    funext fun t => propext (hstore t)
  have hground' : ∀ t ∈ g'.triples, t.isGround = true := fun t ht => hground t ((hstore t).1 ht)
  rw [hdrains'.mem_iff hbase' hsafe' hgoals' hground', hdrains.mem_iff hbase hsafe hgoals hground,
    hrules, hsame]

/-! ## Pairs -/

namespace Pairs

def uri (name : String) : Term := .node (.uri name)

def link (s : Term) (predicate : String) (o : Term) : Triple := ⟨s, uri predicate, o⟩

/-- What `r` has, `p` has. -/
def linked : Rule :=
  ⟨"linked", link (.var "x") "p" (.var "y"), [.triple (link (.var "x") "r" (.var "y"))]⟩

/-- Everything has `p` to itself. -/
def same : Rule := ⟨"same", link (.var "x") "p" (.var "x"), []⟩

def pair : Rule :=
  ⟨"pair", link (.var "x") "q" (.var "y"),
    [.triple (link (.var "x") "p" (.var "y")), .triple (link (.var "x") "r" (uri "b"))]⟩

def rules (first : Rule) (tabled : List Term) : RuleSet := { rules := [first, pair], tabled }

def base (first : Rule) (tabled : List Term) : RuleBase :=
  ((rules first tabled).compile Builtin.standard).toOption.getD
    { clauses := {}, layout := (rules first tabled).layout }

def stored : List Triple := [link (uri "a") "r" (uri "b")]

def graph : Graph := .ofTriples stored

def pattern : Triple := link (.var "x") "q" (.var "y")

/-- What a query on a new engine returns. -/
def answers (first : Rule) (tabled : List Term) : Option (List Triple) :=
  ((Engine.new graph.toStore (base first tabled) {}).ask graph.toStore 1000 5 pattern).map Prod.fst

theorem compile_rules {first : Rule} {tabled : List Term}
    (h : ((rules first tabled).compile Builtin.standard).isOk = true) :
    (rules first tabled).compile Builtin.standard = .ok (base first tabled) :=
  eq_ok_getD h _

theorem drains {first : Rule} {tabled : List Term} {ts : List Triple}
    (h : answers first tabled = some ts) :
    (Site.new graph (base first tabled) {}).Drains graph pattern ts :=
  .of_ask h

theorem goals_rules {first : Rule} (hfirst : ∀ e ∈ first.body, ∃ goal, e = .triple goal)
    (tabled : List Term) :
    ∀ r ∈ (rules first tabled).rules, ∀ e ∈ r.body, ∃ goal, e = .triple goal := by
  intro r hr e he
  obtain rfl | rfl : r = first ∨ r = pair := by simpa [rules] using hr
  · exact hfirst e he
  · obtain rfl | rfl : e = .triple (link (.var "x") "p" (.var "y")) ∨
        e = .triple (link (.var "x") "r" (uri "b")) := by simpa [pair] using he
    · exact ⟨_, rfl⟩
    · exact ⟨_, rfl⟩

/-- The first goal has both variables of the head. -/
theorem safe_link {name p q : String} {rest : List Entry} : Rule.Safe ⟨name,
    link (.var "x") p (.var "y"), .triple (link (.var "x") q (.var "y")) :: rest⟩ := by
  intro x hx
  have hx' : x = .var "x" ∨ x = .var "y" := by simpa [Triple.leaves, link, uri] using hx
  rcases hx' with rfl | rfl
  · exact ⟨"x", rfl, _, List.mem_cons_self, by simp [Entry.Binds, Triple.leaves, link]⟩
  · exact ⟨"y", rfl, _, List.mem_cons_self, by simp [Entry.Binds, Triple.leaves, link]⟩

theorem safe_linked (tabled : List Term) : ∀ r ∈ (rules linked tabled).rules, r.Safe := by
  intro r hr
  obtain rfl | rfl : r = linked ∨ r = pair := by simpa [rules] using hr
  · exact safe_link
  · exact safe_link

theorem ground_graph : ∀ t ∈ graph.triples, t.isGround = true := by decide +kernel

end Pairs

/-- Where `p` is what `r` is, the query for `q` returns one pair, with and without a table
for `p`. -/
theorem tabling_keeps_answers_pairs : ∃ ts us : List Triple,
    (Site.new Pairs.graph (Pairs.base Pairs.linked []) {}).Drains Pairs.graph Pairs.pattern ts ∧
      (Site.new Pairs.graph (Pairs.base Pairs.linked [Pairs.uri "p"]) {}).Drains Pairs.graph
        Pairs.pattern us ∧
      Pairs.link (Pairs.uri "a") "q" (Pairs.uri "b") ∈ ts ∧ ∀ t, t ∈ us ↔ t ∈ ts := by
  have hplain : (Site.new Pairs.graph (Pairs.base Pairs.linked []) {}).Drains Pairs.graph
      Pairs.pattern [Pairs.link (Pairs.uri "a") "q" (Pairs.uri "b")] :=
    Pairs.drains (by decide +kernel)
  have htabled : (Site.new Pairs.graph (Pairs.base Pairs.linked [Pairs.uri "p"]) {}).Drains
      Pairs.graph Pairs.pattern [Pairs.link (Pairs.uri "a") "q" (Pairs.uri "b")] :=
    Pairs.drains (by decide +kernel)
  have hrules : (Pairs.rules Pairs.linked [Pairs.uri "p"]).rules =
      (Pairs.rules Pairs.linked []).rules := rfl
  refine ⟨_, _, hplain, htabled, List.mem_cons_self, tabling_keeps_answers hrules
    (Pairs.compile_rules (by decide +kernel)) (Pairs.compile_rules (by decide +kernel))
    (Pairs.safe_linked []) (Pairs.goals_rules ?_ []) Pairs.ground_graph
    (fun _ => .rfl) hplain htabled⟩
  intro e he
  exact ⟨_, List.mem_singleton.1 he⟩

/-- Where everything has `p` to itself, the query for `q` returns that `a` has `q` to `a` if there is
no table for `p`, and that `a` has `q` to anything if there is one: the table keeps two wildcards
for the two places of one variable. -/
theorem table_forgets_repeat :
    (Pairs.rules Pairs.same [Pairs.uri "p"]).rules = (Pairs.rules Pairs.same []).rules ∧
      (Pairs.rules Pairs.same []).compile Builtin.standard = .ok (Pairs.base Pairs.same []) ∧
      (Pairs.rules Pairs.same [Pairs.uri "p"]).compile Builtin.standard =
        .ok (Pairs.base Pairs.same [Pairs.uri "p"]) ∧
      (∀ r ∈ (Pairs.rules Pairs.same []).rules, ∀ e ∈ r.body, ∃ goal, e = .triple goal) ∧
      (∀ t ∈ Pairs.graph.triples, t.isGround = true) ∧
      (Site.new Pairs.graph (Pairs.base Pairs.same []) {}).Drains Pairs.graph Pairs.pattern
        [Pairs.link (Pairs.uri "a") "q" (Pairs.uri "a")] ∧
      (Site.new Pairs.graph (Pairs.base Pairs.same [Pairs.uri "p"]) {}).Drains Pairs.graph
        Pairs.pattern [Pairs.link (Pairs.uri "a") "q" .any] ∧
      ¬ ∀ t, t ∈ [Pairs.link (Pairs.uri "a") "q" .any] ↔
        t ∈ [Pairs.link (Pairs.uri "a") "q" (Pairs.uri "a")] := by
  refine ⟨rfl, Pairs.compile_rules (by decide +kernel), Pairs.compile_rules (by decide +kernel),
    Pairs.goals_rules (by simp [Pairs.same]) [], Pairs.ground_graph,
    Pairs.drains (by decide +kernel), Pairs.drains (by decide +kernel), fun h => ?_⟩
  have hmem := (h (Pairs.link (Pairs.uri "a") "q" .any)).1 List.mem_cons_self
  exact absurd hmem (by decide)

end TabledRules
