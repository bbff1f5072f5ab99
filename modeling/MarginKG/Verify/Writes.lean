import MarginKG.System
import MarginKG.Verify.Ontology

/-! The writes that each operation may make.

`Op.Writes` lists them, and `Op.next_graph` turns a fact about single writes into a fact about
operations: what every listed write preserves, the operation preserves, however far it gets
before it raises. -/

namespace MarginKG

/-! ## Programs whose calls are writes -/

/-- A call that makes a write of `P` or reads metrics. -/
inductive Makes (P : Write → Prop) : StoreCall → Prop
  | write : P w → Makes P w.call
  | metrics : Makes P (.nodesByLabel CoreLabel.metric.value)
  | metric : Makes P (.getNode CoreLabel.metric.value (metricKeyProps (.str metricKey)))

theorem Makes.mono {P Q : Write → Prop} (h : Makes P c) (hPQ : ∀ w, P w → Q w) : Makes Q c := by
  cases h with
  | write h => exact .write (hPQ _ h)
  | metrics => exact .metrics
  | metric => exact .metric

theorem Write.program_uses {P : Write → Prop} {w : Write} (h : P w) : w.program.Uses (Makes P) :=
  ⟨.write h, fun _ => trivial⟩

/-- A call of the store that satisfies `Q`, or one that enqueues in `queue`. -/
inductive Reaches (Q : StoreCall → Prop) (queue : Nat) : ResolverCall → Prop
  | store : Q c → Reaches Q queue (.store c)
  | enqueue : Reaches Q queue (.enqueue queue resolution)

theorem liftStore_uses {Q : StoreCall → Prop} {p : StoreProgram α} (hp : p.Uses Q)
    (queue : Nat) : (liftStore p).Uses (Reaches Q queue) :=
  hp.lift fun _ h => .store h

theorem Reaches.mono {Q Q' : StoreCall → Prop} (h : Reaches Q queue c) (hQ : ∀ c, Q c → Q' c) :
    Reaches Q' queue c := by
  cases h with
  | store h => exact .store (hQ _ h)
  | enqueue => exact .enqueue

/-- The calls of an ingestion: those of its resolver that satisfy `Q`, and its own. -/
inductive Ingests (Q : ResolverCall → Prop) : IngestCall → Prop
  | resolver : Q c → Ingests Q (.resolver c)
  | hasSeen : Ingests Q (.hasSeen key)
  | markDone : Ingests Q (.markDone key)
  | fetch : Ingests Q (.fetch item)

/-- The call of the store in a call of a resolver. -/
def ResolverCall.store? : ResolverCall → Option StoreCall
  | .store c => some c
  | .enqueue .. => none

/-- The call of the store in a call of an ingestion. -/
def IngestCall.store? : IngestCall → Option StoreCall
  | .resolver c => c.store?
  | .hasSeen _ | .markDone _ | .fetch _ => none

/-- What the calls of `Makes P` preserve of the graph and of the record of calls that have
returned. -/
structure Keeps (P : Write → Prop) (J : List StoreCall → InMemoryGraphStore → Prop) : Prop where
  ok : P w → (InMemoryGraphStore.handler w.call g).1 = .ok r → J l g →
    J (l ++ [w.call]) (InMemoryGraphStore.handler w.call g).2
  error : P w → (InMemoryGraphStore.handler w.call g).1 = .error e → J l g →
    J l (InMemoryGraphStore.handler w.call g).2
  metrics : J l g → J (l ++ [.nodesByLabel CoreLabel.metric.value]) g
  metric : J l g → J (l ++ [.getNode CoreLabel.metric.value (metricKeyProps (.str metricKey))]) g

namespace Keeps

variable {P : Write → Prop} {J : List StoreCall → InMemoryGraphStore → Prop}

theorem of_graph {I : InMemoryGraphStore → Prop}
    (hI : ∀ w g, P w → I g → I (InMemoryGraphStore.handler w.call g).2) :
    Keeps P fun _ g => I g where
  ok hw _ hg := hI _ _ hw hg
  error hw _ hg := hI _ _ hw hg
  metrics := id
  metric := id

theorem mono {Q : Write → Prop} (H : Keeps P J) (hQ : ∀ w, Q w → P w) : Keeps Q J where
  ok hw := H.ok (hQ _ hw)
  error hw := H.error (hQ _ hw)
  metrics := H.metrics
  metric := H.metric

theorem call_ok (H : Keeps P J) (hc : Makes P c)
    (h : InMemoryGraphStore.handler c g = (.ok r, g')) (hg : J l g) : J (l ++ [c]) g' := by
  cases hc with
  | write hw => simpa only [h] using H.ok (r := r) hw (by rw [h]) hg
  | metrics => cases h; exact H.metrics hg
  | metric => obtain ⟨-, rfl⟩ := Prod.ext_iff.mp h; exact H.metric hg

theorem call_error (H : Keeps P J) (hc : Makes P c)
    (h : InMemoryGraphStore.handler c g = (.error e, g')) (hg : J l g) : J l g' := by
  cases hc with
  | write hw => simpa only [h] using H.error (e := e) hw (by rw [h]) hg
  | metrics => cases h
  | metric => obtain ⟨-, rfl⟩ := Prod.ext_iff.mp h; exact hg

theorem run (H : Keeps P J) {p : StoreProgram α} (hp : p.Uses (Makes P)) (hg : J l g) :
    J (l ++ p.log InMemoryGraphStore.handler g) (p.run InMemoryGraphStore.handler g).2 :=
  hp.run_log H.call_ok H.call_error hg

theorem run_resolver (H : Keeps P J) {p : ResolverProgram α}
    (hp : p.Uses (Reaches (Makes P) queue)) {w : ResolverState InMemoryGraphStore}
    (hg : J l w.store) :
    J (l ++ (p.log (ResolverState.handler InMemoryGraphStore.handler) w).filterMap
        ResolverCall.store?)
      (p.run (ResolverState.handler InMemoryGraphStore.handler) w).2.store := by
  have := hp.run_log (h := ResolverState.handler InMemoryGraphStore.handler) (s := w) (l := [])
    (J := fun l' w => J (l ++ l'.filterMap ResolverCall.store?) w.store) ?_ ?_ (by simpa using hg)
  · simpa using this
  · intro c r w w' l' hc h hg
    rw [List.filterMap_append, ← List.append_assoc]
    cases hc with
    | enqueue => cases h; simpa [ResolverCall.store?, List.filterMap_cons] using hg
    | store hc =>
      obtain ⟨hr, rfl⟩ := Prod.ext_iff.mp h
      exact H.call_ok hc (Prod.ext hr rfl) hg
  · intro c e w w' l' hc h hg
    cases hc with
    | enqueue => cases h
    | store hc =>
      obtain ⟨hr, rfl⟩ := Prod.ext_iff.mp h
      exact H.call_error hc (Prod.ext hr rfl) hg

theorem run_ingest (H : Keeps P J) {p : IngestProgram α}
    (hp : p.Uses (Ingests (Reaches (Makes P) queue))) {w : IngestState InMemoryGraphStore}
    (hg : J l w.world.store) :
    J (l ++ (p.log (IngestState.handler source InMemoryGraphStore.handler) w).filterMap
        IngestCall.store?)
      (p.run (IngestState.handler source InMemoryGraphStore.handler) w).2.world.store := by
  have := hp.run_log (h := IngestState.handler source InMemoryGraphStore.handler) (s := w) (l := [])
    (J := fun l' w => J (l ++ l'.filterMap IngestCall.store?) w.world.store) ?_ ?_
    (by simpa using hg)
  · simpa using this
  · intro c r w w' l' hc h hg
    rw [List.filterMap_append, ← List.append_assoc]
    cases hc with
    | hasSeen | markDone =>
      cases h
      simpa [IngestCall.store?, List.filterMap_cons, IngestState.handler] using hg
    | fetch =>
      obtain ⟨-, rfl⟩ := Prod.ext_iff.mp h
      simpa [IngestCall.store?, List.filterMap_cons, IngestState.handler] using hg
    | resolver hc =>
      cases hc with
      | enqueue =>
        cases h
        simpa [IngestCall.store?, ResolverCall.store?, List.filterMap_cons,
          ResolverState.handler] using hg
      | store hc =>
        obtain ⟨hr, rfl⟩ := Prod.ext_iff.mp h
        exact H.call_ok hc (Prod.ext hr rfl) hg
  · intro c e w w' l' hc h hg
    cases hc with
    | hasSeen | markDone => cases h
    | fetch => obtain ⟨-, rfl⟩ := Prod.ext_iff.mp h; exact hg
    | resolver hc =>
      cases hc with
      | enqueue => cases h
      | store hc =>
        obtain ⟨hr, rfl⟩ := Prod.ext_iff.mp h
        exact H.call_error hc (Prod.ext hr rfl) hg

end Keeps

theorem extendAliases_mem (current : List Value) (aliasName : String) :
    .str aliasName ∈ GraphClient.extendAliases current aliasName := by
  rw [GraphClient.extendAliases]
  split
  · assumption
  · exact List.mem_append_right _ (List.mem_singleton_self _)

variable [Python]

/-! ## Calls of the client -/

/-- The write of `upsert_entity`. -/
def entityWrite (uid : String) (subtypeLabel : Option String) (attributes : Props) : Write :=
  .node (.entity uid) (clean attributes)
    (match subtypeLabel with
      | none => []
      | some label => if label = "" then [] else [label])

/-- The properties that `upsert_metric` passes on, `None`-valued ones included. -/
def metricProps (formula unit numeratorDef denominatorDef provenance : Option String)
    (attributes : Props) : Props :=
  (Dict.ofList [
    ("formula", Value.ofOption formula),
    ("unit", .ofOption unit),
    ("numerator_def", .ofOption numeratorDef),
    ("denominator_def", .ofOption denominatorDef),
    ("provenance", .ofOption provenance)]).update attributes

omit [Python] in
theorem get?_clean (props : Props) (f : String) :
    (clean props).get? f = (props.get? f).filter (· ≠ .null) := Dict.get?_filter ..

omit [Python] in
/-- A field that is no argument of `upsert_metric` comes from the attributes alone. -/
theorem get?_metricProps {f : String}
    (hf : f ∉ ["formula", "unit", "numerator_def", "denominator_def", "provenance"])
    (formula unit numeratorDef denominatorDef provenance : Option String) (attributes : Props) :
    (clean (metricProps formula unit numeratorDef denominatorDef provenance attributes)).get? f =
      (clean attributes).get? f := by
  simp only [List.mem_cons, List.not_mem_nil, or_false, not_or] at hf
  obtain ⟨h₁, h₂, h₃, h₄, h₅⟩ := hf
  rw [get?_clean, get?_clean, metricProps, Dict.get?_update, Dict.get?_ofList (by simp)]
  simp [Entries.get?, Ne.symm h₁, Ne.symm h₂, Ne.symm h₃, Ne.symm h₄, Ne.symm h₅]

/-- The properties that `upsert_column` passes on. -/
def columnProps (dtype : Option String) (sampleValues : List String) (hasDictionary : Bool) :
    Props := .ofList [
  ("dtype", .ofOption dtype),
  ("sample_values", .list (sampleValues.map .str)),
  ("has_dictionary", .bool hasDictionary)]

/-- The properties that `upsert_document` passes on. -/
def documentProps (title : Option String) (text : String) (asOf : Option String) : Props :=
  .ofList [("title", .ofOption title), ("text", .str text), ("as_of", .ofOption asOf)]

namespace ClientCall

/-- The write that a call makes. There is none when the call is refused, and for
`register_allowlists`; `add_metric_alias`, whose write depends on what it reads, is left to
`aliasWrite`. -/
def write (c : GraphClient) : ClientCall → Option Write
  | registerAllowlists _ _ => none
  | upsertEntity uid subtypeLabel attributes =>
    if ∀ label ∈ subtypeLabel, label ∈ c.entitySubtypes then
      some (entityWrite uid subtypeLabel attributes)
    else none
  | upsertMetric metricKey formula unit numeratorDef denominatorDef provenance attributes =>
    some (.node (.metric (.str metricKey))
      (clean (metricProps formula unit numeratorDef denominatorDef provenance attributes)) [])
  | upsertColumn system table name dtype sampleValues hasDictionary =>
    some (.node (.column system table name)
      (clean (columnProps dtype sampleValues hasDictionary)) [])
  | upsertDocument uri title text asOf =>
    some (.node (.document uri) (clean (documentProps title text asOf)) [])
  | upsertBenchmark benchmarkKey attributes =>
    some (.node (.benchmark benchmarkKey) (clean attributes) [])
  | upsertParty uid attributes => some (.node (.party uid) (clean attributes) [])
  | linkColumnToMetric system table name metricKey prov =>
    some (.link (.measures system table name (.str metricKey)) prov)
  | linkMetricToEntity metricKey entityUid prov =>
    some (.link (.appliesTo (.str metricKey) entityUid) prov)
  | linkMetricToDocument metricKey uri prov => some (.link (.definedIn metricKey uri) prov)
  | linkMetricToBenchmark metricKey benchmarkKey prov =>
    some (.link (.benchmarkedAgainst metricKey benchmarkKey) prov)
  | linkMetricComputedFrom metricKey sourceMetricKey prov =>
    some (.link (.computedFrom metricKey sourceMetricKey) prov)
  | linkDocumentToEntity uri entityUid prov => some (.link (.describes uri entityUid) prov)
  | linkPartyToEntity partyUid entityUid role prov =>
    some (.link (.hasRole partyUid entityUid role) prov)
  | relateEntities subjectUid objectUid role prov relType =>
    if relType = RelType.relatedTo.value ∨ relType ∈ c.packEdgeTypes then
      some (.link (.related relType subjectUid objectUid role) prov)
    else none
  | addMetricAlias _ _ => none

end ClientCall

/-- The write of `add_metric_alias`, once it has the new list of aliases. -/
def aliasWrite (metricKey : String) (aliases : List Value) : Write :=
  .node (.metric (.str metricKey)) (.ofList [("aliases", .list aliases)]) []

namespace GraphClient

theorem upsertEntity_eq (c : GraphClient) (uid : String) (subtypeLabel : Option String)
    (attributes : Props) (h : ∀ label ∈ subtypeLabel, label ∈ c.entitySubtypes) :
    c.upsertEntity uid subtypeLabel attributes =
      (entityWrite uid subtypeLabel attributes).program := by
  cases subtypeLabel with
  | none => rfl
  | some label => simp only [upsertEntity, h label rfl, not_true, if_false]; rfl

theorem upsertEntity_refused (c : GraphClient) (uid : String) (subtypeLabel : Option String)
    (attributes : Props) (h : ¬ ∀ label ∈ subtypeLabel, label ∈ c.entitySubtypes) :
    ∃ m, c.upsertEntity uid subtypeLabel attributes = .throw (.writeValidationError m) := by
  cases subtypeLabel with
  | none => exact absurd (by simp) h
  | some label => exact ⟨_, if_pos (by simpa using h)⟩

theorem relateEntities_eq (c : GraphClient) (subjectUid objectUid role : String)
    (prov : EdgeProvenance) (relType : String)
    (h : relType = RelType.relatedTo.value ∨ relType ∈ c.packEdgeTypes) :
    c.relateEntities subjectUid objectUid role prov relType =
      (Write.link (.related relType subjectUid objectUid role) prov).program := by
  rw [relateEntities, if_neg (by tauto)]
  rfl

theorem relateEntities_refused (c : GraphClient) (subjectUid objectUid role : String)
    (prov : EdgeProvenance) (relType : String)
    (h : ¬ (relType = RelType.relatedTo.value ∨ relType ∈ c.packEdgeTypes)) :
    ∃ m, c.relateEntities subjectUid objectUid role prov relType =
      .throw (.writeValidationError m) :=
  ⟨_, if_pos (by tauto)⟩

end GraphClient

namespace ClientCall

/-- An accepted call makes its write and nothing else. -/
theorem program_of_write {c : GraphClient} {call : ClientCall} (h : call.write c = some w) :
    call.program c = w.program := by
  cases call with
  | registerAllowlists | addMetricAlias => cases h
  | upsertEntity uid subtypeLabel attributes =>
    simp only [write, Option.ite_none_right_eq_some, Option.some.injEq] at h
    rw [← h.2]
    exact c.upsertEntity_eq uid subtypeLabel attributes h.1
  | relateEntities subjectUid objectUid role prov relType =>
    simp only [write, Option.ite_none_right_eq_some, Option.some.injEq] at h
    rw [← h.2]
    exact c.relateEntities_eq subjectUid objectUid role prov relType h.1
  | _ => cases h; rfl

/-- A call without a write is refused, unless it is one of two methods. -/
theorem program_of_refused {c : GraphClient} {call : ClientCall} (h : call.write c = none)
    (hreg : ∀ e t, call ≠ .registerAllowlists e t) (halias : ∀ k a, call ≠ .addMetricAlias k a) :
    ∃ m, call.program c = .throw (.writeValidationError m) := by
  cases call with
  | registerAllowlists e t => exact absurd rfl (hreg e t)
  | addMetricAlias k a => exact absurd rfl (halias k a)
  | upsertEntity uid subtypeLabel attributes =>
    simp only [write, ite_eq_right_iff, reduceCtorEq, imp_false] at h
    exact c.upsertEntity_refused uid subtypeLabel attributes h
  | relateEntities subjectUid objectUid role prov relType =>
    simp only [write, ite_eq_right_iff, reduceCtorEq, imp_false] at h
    exact c.relateEntities_refused subjectUid objectUid role prov relType h
  | _ => cases h

/-- The writes that a call may make. -/
inductive Writes (c : GraphClient) : ClientCall → Write → Prop
  | write {call : ClientCall} : call.write c = some w → Writes c call w
  | newAlias : .str aliasName ∈ aliases →
    Writes c (.addMetricAlias metricKey aliasName) (aliasWrite metricKey aliases)

end ClientCall

/-! ## Packs and bundles -/

def MetricDef.write (m : MetricDef) : Write :=
  .node (.metric (.str m.metricKey))
    (clean (metricProps m.formula m.unit m.numeratorDef m.denominatorDef m.provenance m.attrs)) []

omit [Python] in
/-- `load_pack` adds only aliases to the attributes of a metric. -/
theorem MetricDef.get?_attrs {f : String} (hf : f ≠ "aliases") (m : MetricDef) :
    (clean m.attrs).get? f = (clean m.attributes).get? f := by
  rw [get?_clean, get?_clean, attrs]
  split
  · rfl
  · rw [Dict.get?_set_of_ne (Ne.symm hf)]

def BenchmarkDef.write (b : BenchmarkDef) : Write :=
  .node (.benchmark b.benchmarkKey) (clean b.attributes) []

/-- The writes of a pack's catalog. -/
inductive Pack.Writes (pack : Pack) : Write → Prop
  | metric : m ∈ pack.metrics → Writes pack m.write
  | benchmark : b ∈ pack.benchmarks → Writes pack b.write

def ObservedDocument.write (d : ObservedDocument) : Write :=
  .node (.document d.uri) (clean (documentProps d.title d.text d.asOf)) []

def ObservedColumn.ref (col : ObservedColumn) : NodeRef := .column col.system col.table col.name

def ObservedColumn.write (col : ObservedColumn) : Write :=
  .node col.ref (clean (columnProps col.dtype col.sampleValues col.hasDictionary)) []

def ObservedEntity.write (c : GraphClient) (ent : ObservedEntity) : Write :=
  entityWrite ent.uid (pickSubtype c ent.candidateLabels) ent.attributes

def ObservedRelation.link (rel : ObservedRelation) : Link :=
  .related rel.typeName rel.subjectUid rel.objectUid rel.role

/-- The client would accept the relation. -/
def ObservedRelation.Allowed (c : GraphClient) (rel : ObservedRelation) : Prop :=
  rel.typeName = RelType.relatedTo.value ∨ rel.typeName ∈ c.packEdgeTypes

instance (c : GraphClient) (rel : ObservedRelation) : Decidable (rel.Allowed c) :=
  inferInstanceAs (Decidable (_ ∨ _))

omit [Python] in
/-- The owner of a column carries it. -/
theorem carries_of_ownerOf {entities : List ObservedEntity}
    (h : (ownerOf entities).get? key = some uid) :
    ∃ ent ∈ entities, ∃ col ∈ ent.columns, col.key = key ∧ ent.uid = uid := by
  rcases Dict.mem_of_get?_setAll h with h | h
  · cases h
  · obtain ⟨ent, hent, h⟩ := List.mem_flatMap.mp h
    obtain ⟨col, hcol, heq⟩ := List.mem_map.mp h
    exact ⟨ent, hent, col, hcol, Prod.mk.inj heq⟩

omit [Python] in
/-- The owner of a column is an entity of the bundle. -/
theorem mem_ownerOf {entities : List ObservedEntity}
    (h : (ownerOf entities).get? key = some uid) : ∃ ent ∈ entities, ent.uid = uid :=
  let ⟨ent, hent, _, _, _, huid⟩ := carries_of_ownerOf h
  ⟨ent, hent, huid⟩

/-- The writes that loading a bundle may make. Which metrics its columns are linked to depends on
the graph, so any metric key stands here. -/
inductive ParsedBundle.Writes (c : GraphClient) (b : ParsedBundle) : Write → Prop
  | document : d ∈ b.documents → Writes c b d.write
  | describes : d ∈ b.documents → uid ∈ d.describes →
    Writes c b (.link (.describes d.uri uid) b.provenance.toEdge)
  | defines : d ∈ b.documents → metricKey ∈ d.defines →
    Writes c b (.link (.definedIn metricKey d.uri) b.provenance.toEdge)
  | column : col ∈ b.iterColumns → Writes c b col.write
  | entity : ent ∈ b.entities → Writes c b (ent.write c)
  | relation : rel ∈ b.relations → rel.Allowed c →
    Writes c b (.link rel.link b.provenance.toEdge)
  | measures {col : ObservedColumn} {metricKey : Value} : col ∈ b.iterColumns →
    Writes c b (.link (.measures col.system col.table col.name metricKey) b.provenance.toEdge)
  | appliesTo {col : ObservedColumn} {metricKey : Value} : col ∈ b.iterColumns →
    (ownerOf b.entities).get? col.key = some uid →
    Writes c b (.link (.appliesTo metricKey uid) b.provenance.toEdge)

/-- The writes of the records of a bundle, without the links to the metrics that its columns
resolve to. -/
inductive ParsedBundle.Records (c : GraphClient) (b : ParsedBundle) : Write → Prop
  | document : d ∈ b.documents → Records c b d.write
  | describes : d ∈ b.documents → uid ∈ d.describes →
    Records c b (.link (.describes d.uri uid) b.provenance.toEdge)
  | defines : d ∈ b.documents → metricKey ∈ d.defines →
    Records c b (.link (.definedIn metricKey d.uri) b.provenance.toEdge)
  | column : col ∈ b.iterColumns → Records c b col.write
  | entity : ent ∈ b.entities → Records c b (ent.write c)
  | relation : rel ∈ b.relations → Records c b (.link rel.link b.provenance.toEdge)

omit [Python] in
theorem GraphClient.addMetricAlias_eq (metricKey aliasName : String) :
    addMetricAlias metricKey aliasName =
      .call (.getNode CoreLabel.metric.value (metricKeyProps (.str metricKey))) fun node =>
        Program.ofExcept (currentAliases node) >>= fun current =>
          (aliasWrite metricKey (extendAliases current aliasName)).program := rfl

omit [Python] in
/-- Over the in-memory store, a new alias extends the list that the metric has. -/
theorem GraphClient.addMetricAlias_run (metricKey aliasName : String) (g : InMemoryGraphStore) :
    (addMetricAlias metricKey aliasName).run InMemoryGraphStore.handler g =
      (Program.ofExcept (currentAliases (g.nodes.get? (NodeRef.metric (.str metricKey)).id)) >>=
        fun current => (aliasWrite metricKey (extendAliases current aliasName)).program).run
          InMemoryGraphStore.handler g := by
  have hget : InMemoryGraphStore.handler
      (.getNode CoreLabel.metric.value (metricKeyProps (.str metricKey))) g =
        (.ok (g.nodes.get? (NodeRef.metric (.str metricKey)).id), g) :=
    Prod.ext (g.getNode_ref (n := .metric (.str metricKey)) rfl) rfl
  exact Program.run_call_ok hget _

theorem Resolver.confirm_eq (col : ObservedColumn) (metricKey : String) (prov : EdgeProvenance) :
    confirm col metricKey prov =
      (Write.link (.measures col.system col.table col.name (.str metricKey)) prov).program >>=
        fun _ => GraphClient.addMetricAlias metricKey (casefold col.name) := rfl

omit [Python] in
theorem GraphClient.addMetricAlias_uses {P : Write → Prop}
    (h : ∀ aliases, .str aliasName ∈ aliases → P (aliasWrite metricKey aliases)) :
    (addMetricAlias metricKey aliasName).Uses (Makes P) :=
  ⟨.metric, fun _ => (Program.Uses.ofExcept _).bind fun _ =>
    Write.program_uses (h _ (extendAliases_mem ..))⟩

theorem ClientCall.program_uses (c : GraphClient) (call : ClientCall) :
    (call.program c).Uses (Makes (call.Writes c)) := by
  rcases hw : call.write c with _ | w
  · by_cases hreg : ∃ e t, call = .registerAllowlists e t
    · obtain ⟨e, t, rfl⟩ := hreg
      trivial
    by_cases halias : ∃ k a, call = .addMetricAlias k a
    · obtain ⟨k, a, rfl⟩ := halias
      exact GraphClient.addMetricAlias_uses fun _ h => ClientCall.Writes.newAlias h
    simp only [not_exists] at hreg halias
    obtain ⟨m, hm⟩ := program_of_refused hw hreg halias
    rw [hm]
    trivial
  · rw [program_of_write hw]
    exact Write.program_uses (ClientCall.Writes.write hw)

omit [Python] in
theorem Pack.loadCatalog_uses (pack : Pack) : pack.loadCatalog.Uses (Makes pack.Writes) :=
  (Program.Uses.forM fun _ h => Write.program_uses (Pack.Writes.metric h)).bind fun _ =>
    Program.Uses.forM fun _ h => Write.program_uses (Pack.Writes.benchmark h)

theorem loadPack_uses (c : GraphClient) (pack : Pack) :
    (loadPack c pack).2.Uses (Makes pack.Writes) := by
  rw [loadPack]
  split
  · trivial
  · exact pack.loadCatalog_uses

theorem loadEntity_eq (c : GraphClient) (ent : ObservedEntity) :
    loadEntity c ent = ((ent.write c).program >>= fun _ => ent.columns.forM loadColumn) := by
  rw [loadEntity, c.upsertEntity_eq]
  · rfl
  · intro label h
    simpa using List.find?_some h

theorem loadRelation_eq {c : GraphClient} {rel : ObservedRelation} (h : rel.Allowed c)
    (prov : EdgeProvenance) : loadRelation c prov rel = (Write.link rel.link prov).program :=
  c.relateEntities_eq _ _ _ _ _ h

theorem loadRelation_refused {c : GraphClient} {rel : ObservedRelation} (h : ¬ rel.Allowed c)
    (prov : EdgeProvenance) :
    ∃ m, loadRelation c prov rel = .throw (.writeValidationError m) :=
  c.relateEntities_refused _ _ _ _ _ h

/-- The load of the records makes their writes, each of them accepted by the client. -/
theorem loadRecords_makes (c : GraphClient) (b : ParsedBundle) :
    (loadRecords c b).Uses (Makes fun w => b.Records c w ∧ b.Writes c w) := by
  have hmakes {w : Write} (h : b.Records c w) (h' : b.Writes c w) :
      w.program.Uses (Makes fun w => b.Records c w ∧ b.Writes c w) := Write.program_uses ⟨h, h'⟩
  refine .bind (.forM fun d hd => ?_) fun _ => .bind (.forM fun col hcol => ?_) fun _ =>
    .bind (.forM fun ent hent => ?_) fun _ => .forM fun rel hrel => ?_
  · refine (hmakes (.document hd) (.document hd)).bind fun _ => ?_
    refine .bind (.forM fun _ h => hmakes (.describes hd h) (.describes hd h)) ?_
    exact fun _ => .forM fun _ h => hmakes (.defines hd h) (.defines hd h)
  · have hcol : col ∈ b.iterColumns := List.mem_append_left _ hcol
    exact hmakes (.column hcol) (.column hcol)
  · rw [loadEntity_eq]
    refine (hmakes (.entity hent) (.entity hent)).bind fun _ => .forM fun col hcol => ?_
    have hcol : col ∈ b.iterColumns :=
      List.mem_append_right _ (List.mem_flatMap.mpr ⟨ent, hent, hcol⟩)
    exact hmakes (.column hcol) (.column hcol)
  · by_cases h : rel.Allowed c
    · rw [loadRelation_eq h]
      exact hmakes (.relation hrel) (.relation hrel h)
    · obtain ⟨m, hm⟩ := loadRelation_refused h b.provenance.toEdge
      rw [hm]
      trivial

theorem loadRecords_uses (c : GraphClient) (b : ParsedBundle) :
    (loadRecords c b).Uses (Makes (b.Writes c)) :=
  (loadRecords_makes c b).mono fun _ h => h.mono fun _ => And.right

/-! ## Programs of a resolver -/

theorem GraphClient.metricAliases_uses {P : Write → Prop} : metricAliases.Uses (Makes P) :=
  ⟨.metrics, fun _ => Program.Uses.ofExcept _⟩

theorem GraphClient.metricTerms_uses {P : Write → Prop} : metricTerms.Uses (Makes P) :=
  ⟨.metrics, fun _ => Program.Uses.ofExcept _⟩

theorem Resolver.resolve_uses {P : Write → Prop} (r : Resolver) (col : ObservedColumn) :
    (r.resolve col).Uses (Reaches (Makes P) r.queue) := by
  refine .bind (liftStore_uses GraphClient.metricAliases_uses _) fun index => ?_
  split
  · trivial
  · split
    · trivial
    · refine .bind (liftStore_uses GraphClient.metricTerms_uses _) fun terms =>
        .bind (.ofExcept _) fun ranked => ?_
      dsimp only
      split
      · trivial
      · exact ⟨.enqueue, fun _ => trivial⟩

/-- The resolution links its column, and this is its metric. -/
def Resolution.Links (outcome : Resolution) (metricKey : Value) : Prop :=
  outcome.tier = .autoLinked ∧ outcome.metricKey = some metricKey ∧ metricKey.truthy = true

/-- The links that are made for the outcome of a column. -/
def Resolution.linksMade (outcome : Resolution) (col : ObservedColumn) (owner : Option String) :
    List Link :=
  match outcome.tier, outcome.metricKey with
  | .autoLinked, some metricKey =>
    if metricKey.truthy then
      .measures col.system col.table col.name metricKey ::
        (owner.map (Link.appliesTo metricKey)).toList
    else []
  | _, _ => []

omit [Python] in
theorem mem_linksMade {outcome : Resolution} : l ∈ outcome.linksMade col owner ↔
    ∃ k, outcome.Links k ∧ (l = .measures col.system col.table col.name k ∨
      ∃ uid, owner = some uid ∧ l = .appliesTo k uid) := by
  rw [Resolution.linksMade]
  split
  · rename_i k htier hkey
    have hlinks (k' : Value) : outcome.Links k' ↔ k.truthy = true ∧ k' = k := by
      rw [Resolution.Links, htier, hkey, Option.some.injEq, eq_comm]
      constructor
      · rintro ⟨-, rfl, htruthy⟩
        exact ⟨htruthy, rfl⟩
      · rintro ⟨htruthy, rfl⟩
        exact ⟨rfl, rfl, htruthy⟩
    simp only [hlinks, and_assoc, exists_and_left, exists_eq_left]
    split
    · rename_i htruthy
      rw [and_iff_right htruthy, List.mem_cons, Option.mem_toList, Option.map_eq_some_iff]
      simp only [eq_comm]
    · rename_i htruthy
      exact iff_of_false List.not_mem_nil fun h => htruthy h.1
  · rename_i hno
    refine iff_of_false List.not_mem_nil ?_
    rintro ⟨k, ⟨htier, hkey, -⟩, -⟩
    exact hno k htier hkey

omit [Python] in
/-- The links of an outcome are made in turn. -/
theorem linkOutcome_eq (prov : EdgeProvenance) (col : ObservedColumn) (owner : Option String)
    (outcome : Resolution) : linkOutcome prov col owner outcome =
      (outcome.linksMade col owner).forM fun l => (Write.link l prov).program := by
  rw [linkOutcome]
  split
  · rename_i k htier hkey
    rw [Resolution.linksMade, htier, hkey]
    dsimp only
    split
    · rcases owner with _ | uid
      · rfl
      · exact congrArg _ (funext fun _ => (Program.bind_ret _).symm)
    · rfl
  · rename_i hno
    rw [Resolution.linksMade]
    split
    · exact absurd ‹_› (hno _ ‹_›)
    · rfl

omit [Python] in
theorem linkOutcome_uses {c : GraphClient} {b : ParsedBundle} (hcol : col ∈ b.iterColumns)
    (outcome : Resolution) :
    (linkOutcome b.provenance.toEdge col ((ownerOf b.entities).get? col.key) outcome).Uses
      (Makes (b.Writes c)) := by
  rw [linkOutcome_eq]
  refine .forM fun l hl => Write.program_uses ?_
  obtain ⟨k, -, rfl | ⟨uid, hown, rfl⟩⟩ := mem_linksMade.mp hl
  · exact .measures hcol
  · exact .appliesTo hcol hown

theorem Resolver.confirm_uses {P : Write → Prop} {col : ObservedColumn}
    (hlink : P (.link (.measures col.system col.table col.name (.str metricKey)) prov))
    (halias : ∀ aliases, .str (casefold col.name) ∈ aliases → P (aliasWrite metricKey aliases)) :
    (Resolver.confirm col metricKey prov).Uses (Makes P) :=
  (Write.program_uses hlink).bind fun _ => GraphClient.addMetricAlias_uses halias

theorem resolveAndLink_uses {c : GraphClient} {b : ParsedBundle} (r : Resolver)
    (hcol : col ∈ b.iterColumns) :
    (resolveAndLink r b.provenance.toEdge (ownerOf b.entities) col).Uses
      (Reaches (Makes (b.Writes c)) r.queue) :=
  (r.resolve_uses col).bind fun outcome =>
    (liftStore_uses (linkOutcome_uses hcol outcome) _).bind fun _ => trivial

theorem loadBundle_uses (c : GraphClient) (r : Resolver) (b : ParsedBundle) :
    (loadBundle c r b).Uses (Reaches (Makes (b.Writes c)) r.queue) :=
  (liftStore_uses (loadRecords_uses c b) _).bind fun _ =>
    .mapM fun _ hcol => resolveAndLink_uses r hcol

/-! ## Operations -/

/-- The writes that an operation may make. -/
inductive Op.Writes (s : System) : Op → Write → Prop
  | client {call : ClientCall} : call.Writes s.client w → Writes s (.client call) w
  | loadPack : pack.validate = .ok () → pack.Writes w → Writes s (.loadPack pack) w
  | loadBundle : b.Writes s.client w → Writes s (.loadBundle resolver b) w
  | link : Writes s (.confirm col metricKey prov)
      (.link (.measures col.system col.table col.name (.str metricKey)) prov)
  | newAlias : .str (casefold col.name) ∈ aliases →
    Writes s (.confirm col metricKey prov) (aliasWrite metricKey aliases)
  | runIngest : source.parse artifact = .ok b → b.Writes s.client w →
    Writes s (.runIngest source resolver fresh) w

theorem ingestItem_uses {Q : ResolverCall → Prop} (source : Source) (c : GraphClient)
    (r : Resolver) (report : IngestReport) (item : WorkItem)
    (h : ∀ artifact b, source.parse artifact = .ok b → (loadBundle c r b).Uses Q) :
    (ingestItem source c r report item).Uses (Ingests Q) := by
  refine ⟨.hasSeen, fun seen => ?_⟩
  dsimp only
  split
  · trivial
  · refine ⟨.fetch, fun artifact => ?_⟩
    dsimp only
    rcases hb : source.parse artifact with e | b
    · trivial
    · have hload : (liftResolver (loadBundle c r b)).Uses (Ingests Q) :=
        (h _ b hb).lift fun _ h => .resolver h
      exact hload.bind fun _ => ⟨.markDone, fun _ => trivial⟩

theorem runIngest_uses {Q : ResolverCall → Prop} (source : Source) (c : GraphClient) (r : Resolver)
    (h : ∀ artifact b, source.parse artifact = .ok b → (loadBundle c r b).Uses Q) :
    (runIngest source c r).Uses (Ingests Q) :=
  .foldlM (fun item _ report => ingestItem_uses source c r report item h) _

/-- The calls of the store that return in an operation, in their order. -/
def Op.log (s : System) : Op → List StoreCall
  | .client call => (call.program s.client).log InMemoryGraphStore.handler s.graph
  | .loadPack pack =>
    (MarginKG.loadPack s.client pack).2.log InMemoryGraphStore.handler s.graph
  | .loadBundle resolver bundle => ((MarginKG.loadBundle s.client resolver bundle).log
      (ResolverState.handler InMemoryGraphStore.handler) s.state.world).filterMap
      ResolverCall.store?
  | .resolve resolver column => ((resolver.resolve column).log
      (ResolverState.handler InMemoryGraphStore.handler) s.state.world).filterMap
      ResolverCall.store?
  | .confirm column metricKey prov =>
    (Resolver.confirm column metricKey prov).log InMemoryGraphStore.handler s.graph
  | .runIngest source resolver fresh =>
    ((MarginKG.runIngest source s.client resolver).log
      (IngestState.handler source InMemoryGraphStore.handler)
      { s.state with ledger := if fresh then ∅ else s.state.ledger }).filterMap IngestCall.store?

/-- The calls of the store that return in a sequence of operations. -/
def System.log (s : System) : List Op → List StoreCall
  | [] => []
  | op :: ops => op.log s ++ (op.next s).log ops

/-- What each write of an operation preserves, the operation preserves, whether or not it
raises. -/
theorem Op.next_log {J : List StoreCall → InMemoryGraphStore → Prop} {s : System} {op : Op}
    (H : Keeps (op.Writes s) J) (hs : J l s.graph) :
    J (l ++ op.log s) (op.next s).graph := by
  cases op with
  | client call =>
    exact H.run ((call.program_uses s.client).mono fun _ h => h.mono fun _ => .client) hs
  | loadPack pack =>
    rcases hv : pack.validate with e | _
    · simp only [Op.next, Op.exec, Op.log, MarginKG.loadPack, hv, Program.log, List.append_nil]
      exact hs
    · exact H.run ((loadPack_uses s.client pack).mono fun _ h => h.mono fun _ => .loadPack hv) hs
  | loadBundle r b =>
    have hload : (MarginKG.loadBundle s.client r b).Uses
        (Reaches (Makes (Op.Writes s (.loadBundle r b))) r.queue) :=
      (loadBundle_uses s.client r b).mono fun _ h => h.mono fun _ h => h.mono fun _ => .loadBundle
    exact H.run_resolver hload hs
  | resolve r col => exact H.run_resolver (r.resolve_uses col) hs
  | confirm col metricKey prov =>
    exact H.run (Resolver.confirm_uses .link fun _ h => .newAlias h) hs
  | runIngest source r fresh =>
    have hload (artifact : RawArtifact) (b : ParsedBundle) (hb : source.parse artifact = .ok b) :
        (MarginKG.loadBundle s.client r b).Uses
          (Reaches (Makes (Op.Writes s (.runIngest source r fresh))) r.queue) :=
      (loadBundle_uses s.client r b).mono fun _ h => h.mono fun _ h => h.mono fun _ =>
        .runIngest hb
    exact H.run_ingest (runIngest_uses source s.client r hload) hs

theorem Op.next_graph {I : InMemoryGraphStore → Prop} {s : System} {op : Op}
    (hI : ∀ w g, op.Writes s w → I g → I (InMemoryGraphStore.handler w.call g).2)
    (hs : I s.graph) : I (op.next s).graph :=
  Op.next_log (l := []) (.of_graph hI) hs

/-- What each write of the operations preserves, a sequence of operations preserves. -/
theorem System.after_graph {I : InMemoryGraphStore → Prop}
    (hI : ∀ {s : System} {op : Op} w g, op.Writes s w → I g →
      I (InMemoryGraphStore.handler w.call g).2) {s : System} (hs : I s.graph) (ops : List Op) :
    I (s.after ops).graph := by
  induction ops generalizing s with
  | nil => exact hs
  | cons op ops ih => exact ih (Op.next_graph hI hs)

/-- The allow-lists after an operation. -/
theorem Op.next_client (s : System) (op : Op) :
    (op.next s).client = match op with
      | .client call => call.client s.client
      | .loadPack pack => (MarginKG.loadPack s.client pack).1
      | _ => s.client := by
  cases op <;> rfl

end MarginKG
