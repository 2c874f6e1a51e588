-- What is written as JSON is read back as it was. A number is written with a
-- width, so this is about values whose numbers fit theirs.
import Mathlib.Data.List.Sort
import TabledRules.Proofs.Stores
import TabledRules.Wire.Reports
import TabledRules.Wire.Terms

namespace TabledRules

/-! ## Shapes -/

namespace Json

variable {α : Type}

@[simp] theorem variant?_tagged (tag : String) (payload : Json) :
    (tagged tag payload).variant? = some (tag, some payload) := rfl

@[simp] theorem variant?_str (tag : String) : (str tag).variant? = some (tag, none) := rfl

@[simp] theorem str?_str (s : String) : (str s).str? = some s := rfl

@[simp] theorem bool?_bool (b : Bool) : (Json.bool b).bool? = some b := rfl

theorem nat?_nat {n bits : Nat} (h : n < Nat.pow 2 bits) : (nat n).nat? bits = some n := by
  rw [nat, nat?, if_pos ⟨Int.natCast_nonneg n, Int.ofNat_lt.2 h⟩, Int.toNat_natCast]

theorem nat?_32 {n : Nat} (h : n < UInt32.size) : (nat n).nat? 32 = some n := nat?_nat h

theorem nat?_64 {n : Nat} (h : n < UInt64.size) : (nat n).nat? 64 = some n := nat?_nat h

/-- What is read as a number of so many bits has them. -/
theorem lt_of_nat? {j : Json} {n bits : Nat} (h : j.nat? bits = some n) : n < Nat.pow 2 bits := by
  cases j with
  | int i =>
    rw [nat?] at h
    split at h
    · next hi =>
      cases h
      exact (Int.toNat_lt hi.1).2 hi.2
    · cases h
  | _ => cases h

theorem lt_of_mapM_nat? {js : List Json} {ns : List Nat} {bits : Nat}
    (h : js.mapM (nat? bits) = some ns) : ∀ n ∈ ns, n < Nat.pow 2 bits := by
  induction mapM_eq_some_iff.1 h with
  | nil => simp
  | cons hn _ ih => exact List.forall_mem_cons.2 ⟨lt_of_nat? hn, ih (mapM_eq_some_iff.2 ‹_›)⟩

@[simp] theorem int64?_int (i : Int64) : (Json.int i.toInt).int64? = some i := by
  simp only [int64?]
  rw [if_pos ⟨i.minValue_le_toInt, i.toInt_le⟩, Int64.ofInt_toInt]

theorem mapM_map {encode : α → Json} {item : Json → Option α} {xs : List α}
    (h : ∀ x ∈ xs, item (encode x) = some x) : (xs.map encode).mapM item = some xs := by
  rw [mapM_eq_some_iff, List.forall₂_map_left_iff, List.forall₂_same]
  exact h

theorem list?_arr {encode : α → Json} {item : Json → Option α} {xs : List α}
    (h : ∀ x ∈ xs, item (encode x) = some x) : (arr (xs.map encode)).list? item = some xs :=
  mapM_map h

end Json

/-! ## Literals, nodes and terms -/

@[simp] theorem Literal.decode?_encode (l : Literal) : Literal.decode? l.encode = some l := by
  cases l <;> simp [Literal.encode, Literal.decode?]

@[simp] theorem Node.decode?_encode (n : Node) : Node.decode? n.encode = some n := by
  cases n <;> simp [Node.encode, Node.decode?]

/-- The numbers of variables have 32 bits. -/
def Term.Fits (t : Term) : Prop := t.Has fun x => ∀ v, x = .ref v → v < UInt32.size

theorem Term.decodeAll?_eq_mapM (js : List Json) : Term.decodeAll? js = js.mapM Term.decode? := by
  induction js with
  | nil => rfl
  | cons j js ih =>
    rw [Term.decodeAll?, ih, List.mapM_cons]
    cases Term.decode? j with
    | none => rfl
    | some t => cases js.mapM Term.decode? <;> rfl

theorem Term.encodeAll_eq_map (ts : List Term) : Term.encodeAll ts = ts.map Term.encode := by
  induction ts with
  | nil => rfl
  | cons t ts ih => rw [Term.encodeAll, ih, List.map_cons]

/-- A name applied to terms that are read back is read back. -/
theorem Term.decodeApp?_encode {f : String} {ts : List Term}
    (h : ∀ t ∈ ts, Term.decode? t.encode = some t) :
    Term.decodeApp? (.obj [("name", .str f), ("args", .arr (Term.encodeAll ts))]) = some (f, ts) := by
  have hargs : Term.decodeAll? (Term.encodeAll ts) = some ts := by
    rw [Term.decodeAll?_eq_mapM, Term.encodeAll_eq_map, Json.mapM_map h]
  simp [Term.decodeApp?, Term.decodeArgs?, Term.decodeList?, hargs]

theorem Term.decode?_encode {t : Term} (h : t.Fits) : Term.decode? t.encode = some t := by
  induction t using Term.induct with
  | node n => simp [Term.encode, Json.tagged, Term.decode?]
  | var x => simp [Term.encode, Json.tagged, Term.decode?]
  | ref v =>
    have hv : v < UInt32.size := Term.has_ref.1 h v rfl
    simp [Term.encode, Json.tagged, Term.decode?, Json.nat?_32 hv]
  | app f ts ih =>
    have happ := Term.decodeApp?_encode (f := f) fun t ht => ih t ht (Term.has_app.1 h t ht)
    simp [Term.encode, Json.tagged, Term.decode?, happ]
  | any => simp [Term.encode, Term.decode?]

/-! ## Triples and rules -/

def Compound.Fits (c : Compound) : Prop := ∀ t ∈ c.args, t.Fits

def Triple.Fits (t : Triple) : Prop := ∀ x ∈ t.terms, x.Fits

def Entry.Fits : Entry → Prop
  | .triple t => t.Fits
  | .builtin c => c.Fits

structure Rule.Fits (r : Rule) : Prop where
  head : r.head.Fits
  body : ∀ e ∈ r.body, e.Fits

theorem Compound.decode?_encode {c : Compound} (h : c.Fits) : Compound.decode? c.encode = some c := by
  rw [Compound.decode?, Compound.encode,
    Term.decodeApp?_encode fun t ht => Term.decode?_encode (h t ht)]
  rfl

theorem Triple.decode?_encode {t : Triple} (h : t.Fits) : Triple.decode? t.encode = some t := by
  obtain ⟨s, p, o⟩ := t
  have hs : Term.decode? s.encode = some s := Term.decode?_encode (h s (by simp [Triple.terms]))
  have hp : Term.decode? p.encode = some p := Term.decode?_encode (h p (by simp [Triple.terms]))
  have ho : Term.decode? o.encode = some o := Term.decode?_encode (h o (by simp [Triple.terms]))
  simp [Triple.decode?, Triple.encode, Json.fields?, Json.named?, List.lookup_cons, hs, hp, ho]

theorem Entry.decode?_encode {e : Entry} (h : e.Fits) : Entry.decode? e.encode = some e := by
  cases e with
  | triple t => simp [Entry.encode, Entry.decode?, Triple.decode?_encode h]
  | builtin c => simp [Entry.encode, Entry.decode?, Compound.decode?_encode h]

theorem Rule.decode?_encode {r : Rule} (h : r.Fits) : Rule.decode? r.encode = some r := by
  have hbody := Json.list?_arr fun e he => Entry.decode?_encode (h.body e he)
  simp [Rule.decode?, Rule.encode, Json.fields?, Json.named?, List.lookup_cons, Triple.decode?_encode h.head, hbody]

/-! ## Sets of terms -/

/-- The terms stand in order, each of them once. -/
def Term.InOrder (ts : List Term) : Prop := ts.Pairwise fun a b => a.compare b = .lt

theorem Term.mem_insertInOrder {t x : Term} {ts : List Term} :
    x ∈ t.insertInOrder ts ↔ x = t ∨ x ∈ ts := by
  induction ts with
  | nil => simp [Term.insertInOrder]
  | cons u us ih =>
    rw [Term.insertInOrder]
    split
    · simp
    · next heq => simp [(Term.compare_eq_iff t u).1 heq]
    · simp only [List.mem_cons, ih]
      tauto

theorem Term.InOrder.insert {ts : List Term} (h : Term.InOrder ts) (t : Term) :
    Term.InOrder (t.insertInOrder ts) := by
  induction ts with
  | nil => exact List.pairwise_singleton _ t
  | cons u us ih =>
    obtain ⟨hu, hus⟩ := List.pairwise_cons.1 h
    rw [Term.insertInOrder]
    split
    · next hlt =>
      refine List.pairwise_cons.2 ⟨fun x hx => ?_, h⟩
      rcases List.mem_cons.1 hx with rfl | hx
      · exact hlt
      · exact Term.compare_trans hlt (hu x hx)
    · exact h
    · next hgt =>
      refine List.pairwise_cons.2 ⟨fun x hx => ?_, ih hus⟩
      rcases Term.mem_insertInOrder.1 hx with rfl | hx
      · rw [Term.compare_swap, hgt]
        rfl
      · exact hu x hx

/-- Lists in order that have the same terms are the same. -/
theorem Term.InOrder.eq_of_mem_iff {ts us : List Term} (ht : Term.InOrder ts) (hu : Term.InOrder us)
    (h : ∀ x, x ∈ ts ↔ x ∈ us) : ts = us := by
  have irrefl : Std.Irrefl fun a b : Term => a.compare b = .lt :=
    ⟨fun a ha => by rw [(Term.compare_eq_iff a a).2 rfl] at ha; cases ha⟩
  have antisymm : Std.Antisymm fun a b : Term => a.compare b = .lt :=
    ⟨fun a b hab hba => by rw [Term.compare_swap, hba] at hab; cases hab⟩
  exact List.Pairwise.eq_of_mem_iff ht hu h

/-- A set is made of its terms in whatever order they come, and however often. -/
theorem Term.foldl_insertInOrder {ts us : List Term} (hu : Term.InOrder us)
    (h : ∀ x, x ∈ ts ↔ x ∈ us) : ts.foldl (fun set t => t.insertInOrder set) [] = us := by
  have spec : ∀ (ts set : List Term), Term.InOrder set →
      Term.InOrder (ts.foldl (fun set t => t.insertInOrder set) set) ∧
        ∀ x, x ∈ ts.foldl (fun set t => t.insertInOrder set) set ↔ x ∈ ts ∨ x ∈ set := by
    intro ts
    induction ts with
    | nil => exact fun set hset => ⟨hset, by simp⟩
    | cons t ts ih =>
      intro set hset
      obtain ⟨h1, h2⟩ := ih _ (hset.insert t)
      refine ⟨h1, fun x => ?_⟩
      rw [List.foldl_cons, h2, Term.mem_insertInOrder, List.mem_cons]
      tauto
  obtain ⟨horder, hmem⟩ := spec ts [] List.Pairwise.nil
  exact horder.eq_of_mem_iff hu fun x => by simp [hmem, h]

structure RuleSet.Fits (s : RuleSet) : Prop where
  rules : ∀ r ∈ s.rules, r.Fits
  tabled : ∀ t ∈ s.tabled, t.Fits
  indexed : ∀ t ∈ s.indexed, t.Fits
  tabled_inOrder : Term.InOrder s.tabled
  indexed_inOrder : Term.InOrder s.indexed

/-- A rule set written with its sets in some order. -/
def RuleSet.encodeWith (s : RuleSet) (tabled indexed : List Term) : Json :=
  .obj [("rules", .arr (s.rules.map Rule.encode)), ("tabled", .arr (tabled.map Term.encode)),
    ("all_tabled", .bool s.allTabled), ("indexed", .arr (indexed.map Term.encode))]

theorem RuleSet.decode?_encodeWith {s : RuleSet} (h : s.Fits) {tabled indexed : List Term}
    (htabled : ∀ x, x ∈ tabled ↔ x ∈ s.tabled) (hindexed : ∀ x, x ∈ indexed ↔ x ∈ s.indexed) :
    RuleSet.decode? (s.encodeWith tabled indexed) = some s := by
  have h1 := Json.list?_arr fun r hr => Rule.decode?_encode (h.rules r hr)
  have h2 : (Json.arr (tabled.map Term.encode)).list? Term.decode? = some tabled :=
    Json.list?_arr fun t ht => Term.decode?_encode (h.tabled t ((htabled t).1 ht))
  have h3 : (Json.arr (indexed.map Term.encode)).list? Term.decode? = some indexed :=
    Json.list?_arr fun t ht => Term.decode?_encode (h.indexed t ((hindexed t).1 ht))
  simp [RuleSet.decode?, RuleSet.encodeWith, Json.fields?, Json.named?, List.lookup_cons, h1, h2, h3,
    Term.foldl_insertInOrder h.tabled_inOrder htabled,
    Term.foldl_insertInOrder h.indexed_inOrder hindexed]

/-! ## Settings, messages and reports -/

@[simp] theorem LogLevel.decode?_encode (l : LogLevel) : LogLevel.decode? l.encode = some l := by
  cases l <;> rfl

structure Settings.Fits (s : Settings) : Prop where
  completionCycles : s.completionCycles < UInt64.size
  stackLimit : s.stackLimit < UInt64.size

-- The numbers are given by what is read from them. If they were written out here, to check the
-- proof would be to count up to their bound.
theorem Settings.decode?_fields {level cycles limit : Json} {logLevel : Option LogLevel}
    {completionCycles stackLimit : Nat} {echo profile : Bool}
    (hlevel : Settings.decodeLevel? level = some logLevel)
    (hcycles : cycles.nat? 64 = some completionCycles) (hlimit : limit.nat? 64 = some stackLimit) :
    Settings.decode? (.obj [("log_level", level), ("log_stderr", .bool echo),
      ("completion_check_cycles", cycles), ("stack_limit", limit), ("profile", .bool profile)]) =
        some { logLevel, echo, completionCycles, stackLimit, profile } := by
  simp [Settings.decode?, Settings.fields?, Json.fields?, Json.named?, List.lookup_cons, hlevel,
    hcycles, hlimit]

theorem Settings.decode?_encode {s : Settings} (h : s.Fits) : Settings.decode? s.encode = some s := by
  have hlevel : Settings.decodeLevel? ((s.logLevel.map LogLevel.encode).getD .null) =
      some s.logLevel := by
    cases s.logLevel with
    | none => rfl
    | some l => cases l <;> rfl
  exact Settings.decode?_fields hlevel (Json.nat?_64 h.completionCycles) (Json.nat?_64 h.stackLimit)

@[simp] theorem MessageKind.decode?_encode (k : MessageKind) :
    MessageKind.decode? k.encode = some k := by
  cases k <;> rfl

@[simp] theorem Message.decode?_encode (m : Message) : Message.decode? m.encode = some m := by
  simp [Message.decode?, Message.encode, Json.fields?, Json.named?, List.lookup_cons]

def TableInfo.Fits (t : TableInfo) : Prop := t.results < UInt64.size

theorem TableInfo.decode?_fields {j : Json} {results : Nat} {complete : Bool}
    (h : j.nat? 64 = some results) :
    TableInfo.decode? (.obj [("results", j), ("complete", .bool complete)]) =
      some ⟨results, complete⟩ := by
  simp [TableInfo.decode?, Json.fields?, Json.named?, List.lookup_cons, h]

theorem TableInfo.decode?_encode {t : TableInfo} (h : t.Fits) :
    TableInfo.decode? t.encode = some t :=
  TableInfo.decode?_fields (Json.nat?_64 h)

structure ProfileEntry.Fits (p : ProfileEntry) : Prop where
  clause : p.clause < UInt64.size
  entries : p.entries < UInt64.size

theorem ProfileEntry.decode?_fields {i j : Json} {clause entries : Nat} {rule : String}
    (hi : i.nat? 64 = some clause) (hj : j.nat? 64 = some entries) :
    ProfileEntry.decode? (.obj [("clause", i), ("rule", .str rule), ("entries", j)]) =
      some ⟨clause, rule, entries⟩ := by
  simp [ProfileEntry.decode?, Json.fields?, Json.named?, List.lookup_cons, hi, hj]

theorem ProfileEntry.decode?_encode {p : ProfileEntry} (h : p.Fits) :
    ProfileEntry.decode? p.encode = some p :=
  ProfileEntry.decode?_fields (Json.nat?_64 h.clause) (Json.nat?_64 h.entries)

/-! ## Failures -/

/-- The counts of a failure have 64 bits. -/
def Failure.Fits : Failure → Prop
  | .runtime (.concurrentModification expected found)
  | .compile (.builtinArity _ _ expected found) => expected < UInt64.size ∧ found < UInt64.size
  | _ => True

theorem RuntimeFailure.decode?_concurrentModification {i j : Json} {expected found : Nat}
    (hi : i.nat? 64 = some expected) (hj : j.nat? 64 = some found) :
    RuntimeFailure.decode?
        (.tagged "ConcurrentModification" (.obj [("expected", i), ("found", j)])) =
      some (.concurrentModification expected found) := by
  simp [RuntimeFailure.decode?, Json.named?, List.lookup_cons, hi, hj]

theorem CompileFailure.decode?_builtinArity {i j : Json} {rule name : String} {expected found : Nat}
    (hi : i.nat? 64 = some expected) (hj : j.nat? 64 = some found) :
    CompileFailure.decode? (.tagged "BuiltinArity" (.obj [("rule", .str rule), ("name", .str name),
        ("expected", i), ("found", j)])) =
      some (.builtinArity rule name expected found) := by
  simp [CompileFailure.decode?, Json.named?, List.lookup_cons, hi, hj]

theorem Failure.decodeKind?_encodeKind {e : Failure} (h : e.Fits) :
    Failure.decodeKind? e.encodeKind = some e := by
  cases e with
  | runtime cause =>
    have hcause : RuntimeFailure.decode? cause.encode = some cause := by
      cases cause with
      | concurrentModification expected found =>
        exact RuntimeFailure.decode?_concurrentModification (Json.nat?_64 h.1) (Json.nat?_64 h.2)
      | _ =>
        simp [RuntimeFailure.encode, RuntimeFailure.decode?, Json.texts?, Json.named?,
          List.lookup_cons, Json.carriesNothing]
    simp [Failure.encodeKind, Failure.decodeKind?, hcause]
  | operational cause =>
    cases cause <;> simp [Failure.encodeKind, Failure.decodeKind?, OperationalFailure.encode,
      OperationalFailure.decode?, Json.texts?, Json.named?, List.lookup_cons]
  | compile cause =>
    have hcause : CompileFailure.decode? cause.encode = some cause := by
      cases cause with
      | builtinArity rule name expected found =>
        exact CompileFailure.decode?_builtinArity (Json.nat?_64 h.1) (Json.nat?_64 h.2)
      | _ =>
        simp [CompileFailure.encode, CompileFailure.decode?, Json.texts?, Json.named?,
          List.lookup_cons]
    simp [Failure.encodeKind, Failure.decodeKind?, hcause]

theorem RuntimeFailure.fits_of_decode? {j : Json} {cause : RuntimeFailure}
    (h : RuntimeFailure.decode? j = some cause) : (Failure.runtime cause).Fits := by
  cases cause with
  | concurrentModification expected found =>
    unfold RuntimeFailure.decode? at h
    split at h
    · split at h
      · next hcounts =>
        cases h
        obtain ⟨js, -, hjs⟩ := Option.bind_eq_some_iff.1 hcounts
        have hlt := Json.lt_of_mapM_nat? hjs
        exact ⟨hlt _ (by simp), hlt _ (by simp)⟩
      · cases h
    all_goals first | (split at h <;> cases h) | cases h
  | _ => trivial

theorem CompileFailure.fits_of_decode? {j : Json} {cause : CompileFailure}
    (h : CompileFailure.decode? j = some cause) : (Failure.compile cause).Fits := by
  cases cause with
  | builtinArity rule name expected found =>
    unfold CompileFailure.decode? at h
    split at h
    case h_4 =>
      split at h
      · split at h
        · next hexpected hfound =>
          cases h
          exact ⟨Json.lt_of_nat? hexpected, Json.lt_of_nat? hfound⟩
        · cases h
      · cases h
    all_goals first | (split at h <;> cases h) | cases h
  | _ => trivial

/-- What is read as a failure fits. -/
theorem Failure.fits_of_decodeKind? {j : Json} {e : Failure} (h : Failure.decodeKind? j = some e) :
    e.Fits := by
  unfold Failure.decodeKind? at h
  split at h
  · obtain ⟨cause, hcause, rfl⟩ := Option.map_eq_some_iff.1 h
    exact RuntimeFailure.fits_of_decode? hcause
  · obtain ⟨cause, hcause, rfl⟩ := Option.map_eq_some_iff.1 h
    trivial
  · obtain ⟨cause, hcause, rfl⟩ := Option.map_eq_some_iff.1 h
    exact CompileFailure.fits_of_decode? hcause
  · cases h

/-- The text beside a kind does not matter. -/
theorem Failure.decode?_kind (k : Json) (text : String) :
    Failure.decode? (.obj [("kind", k), ("formatted", .str text)]) = Failure.decodeKind? k := by
  cases h : Failure.decodeKind? k <;>
    simp [Failure.decode?, Json.fields?, Json.named?, List.lookup_cons, h]

theorem Failure.decode?_encode {e : Failure} (h : e.Fits) : Failure.decode? e.encode = some e := by
  rw [Failure.encode, Failure.decode?_kind, Failure.decodeKind?_encodeKind h]

/-- A failure is read from its kind, beside which there is some text. -/
theorem Failure.kind_of_decode? {j : Json} {e : Failure} (h : Failure.decode? j = some e) :
    ∃ k text, j.fields? ["kind", "formatted"] = some [k, .str text] ∧
      Failure.decodeKind? k = some e := by
  unfold Failure.decode? at h
  split at h
  · next k m hfields =>
    split at h
    · next hkind htext =>
      cases h
      cases m <;> cases htext
      exact ⟨k, _, hfields, hkind⟩
    · cases h
  · cases h

/-! ## Everything that is written -/

/-- What is written is read back as it was: terms however deep, triples, rules, settings, messages
and reports. Sets may be written in any order and repeat themselves. A failure is read from its kind
alone, and when it is written again its text is made anew. What is read is a value, not a text: how
deep the values in a text may be nested is a matter of who reads the text, and not said here. -/
theorem written_is_read :
    (∀ l : Literal, Literal.decode? l.encode = some l) ∧
    (∀ n : Node, Node.decode? n.encode = some n) ∧
    (∀ t : Term, t.Fits → Term.decode? t.encode = some t) ∧
    (∀ c : Compound, c.Fits → Compound.decode? c.encode = some c) ∧
    (∀ t : Triple, t.Fits → Triple.decode? t.encode = some t) ∧
    (∀ e : Entry, e.Fits → Entry.decode? e.encode = some e) ∧
    (∀ r : Rule, r.Fits → Rule.decode? r.encode = some r) ∧
    (∀ s : RuleSet, s.Fits → RuleSet.decode? s.encode = some s ∧
      ∀ tabled indexed, (∀ x, x ∈ tabled ↔ x ∈ s.tabled) → (∀ x, x ∈ indexed ↔ x ∈ s.indexed) →
        RuleSet.decode? (s.encodeWith tabled indexed) = some s) ∧
    (∀ l : LogLevel, LogLevel.decode? l.encode = some l) ∧
    (∀ s : Settings, s.Fits → Settings.decode? s.encode = some s) ∧
    (∀ t : TableInfo, t.Fits → TableInfo.decode? t.encode = some t) ∧
    (∀ p : ProfileEntry, p.Fits → ProfileEntry.decode? p.encode = some p) ∧
    (∀ m : Message, Message.decode? m.encode = some m) ∧
    (∀ e : Failure, e.Fits → Failure.decodeKind? e.encodeKind = some e ∧
      Failure.decode? e.encode = some e) ∧
    (∀ k text, Failure.decode? (.obj [("kind", k), ("formatted", .str text)]) =
      Failure.decodeKind? k) ∧
    ∀ j e, Failure.decode? j = some e →
      (∃ k text, j.fields? ["kind", "formatted"] = some [k, .str text] ∧
        Failure.decodeKind? k = some e) ∧
      Failure.decodeKind? e.encodeKind = some e ∧
      e.encode = .obj [("kind", e.encodeKind), ("formatted", .str e.message)] := by
  refine ⟨Literal.decode?_encode, Node.decode?_encode, fun _ => Term.decode?_encode,
    fun _ => Compound.decode?_encode, fun _ => Triple.decode?_encode,
    fun _ => Entry.decode?_encode, fun _ => Rule.decode?_encode, fun s hs => ⟨?_, ?_⟩,
    LogLevel.decode?_encode, fun _ => Settings.decode?_encode, fun _ => TableInfo.decode?_encode,
    fun _ => ProfileEntry.decode?_encode, Message.decode?_encode,
    fun e he => ⟨Failure.decodeKind?_encodeKind he, Failure.decode?_encode he⟩,
    Failure.decode?_kind, fun j e he => ?_⟩
  · exact RuleSet.decode?_encodeWith hs (fun _ => .rfl) (fun _ => .rfl)
  · exact fun tabled indexed ht hi => RuleSet.decode?_encodeWith hs ht hi
  · obtain ⟨k, text, hfields, hkind⟩ := Failure.kind_of_decode? he
    exact ⟨⟨k, text, hfields, hkind⟩,
      Failure.decodeKind?_encodeKind (Failure.fits_of_decodeKind? hkind), rfl⟩

/-- A rule set whose sets are written in another order and repeat themselves, and a failure with the
largest count. -/
theorem written_is_read_sets :
    let p : Term := .node (.uri "p")
    let deep : Term := .app "f" [.app "g" [.ref 4294967295, .any], .node (.literal (.integer (-1)))]
    let s : RuleSet := ⟨[⟨"r", ⟨.var "x", p, deep⟩, [.builtin ⟨"bound", [deep]⟩]⟩], [p, deep], true, []⟩
    let e : Failure := .compile (.builtinArity "r" "equal" 2 18446744073709551615)
    RuleSet.decode? (s.encodeWith [deep, p, deep] []) = some s ∧
      Failure.decode? e.encode = some e := by
  intro p deep s e
  obtain ⟨-, -, -, -, -, -, -, hset, -, -, -, -, -, hfailure, -⟩ := written_is_read
  have hx : (Term.var "x").Fits := by simp [Term.Fits]
  have hp : p.Fits := by simp [p, Term.Fits]
  have hdeep : deep.Fits := by simp [deep, Term.Fits, UInt32.size]
  have hs : s.Fits := by
    refine ⟨?_, ?_, by simp [s], ?_, List.Pairwise.nil⟩
    · simp only [s, List.mem_singleton, forall_eq]
      refine ⟨?_, ?_⟩
      · simp [Triple.Fits, Triple.terms, hx, hp, hdeep]
      · simp [Entry.Fits, Compound.Fits, hdeep]
    · simp [s, hp, hdeep]
    · exact List.pairwise_pair.2 rfl
  exact ⟨(hset s hs).2 [deep, p, deep] [] (by simp [s]) (by simp [s]),
    (hfailure e (by simp [e, Failure.Fits, UInt64.size])).2⟩

end TabledRules
