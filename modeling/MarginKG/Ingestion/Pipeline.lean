import MarginKG.Resolver.Funnel

/-! The ingestion pipeline (`ingestion/pipeline.py`), the `Source` contract it drives
(`ingestion/source.py`) and the ledger of finished items (`ingestion/checkpoint.py`).

`loadBundle` is where the IR meets the graph. `runIngest` takes a source through it item by item
and skips the items that the ledger has marked done. -/

namespace MarginKG

variable [Python]

/-! ## Loading a bundle -/

/-- The provenance of a bundle as its edges carry it. -/
def Provenance.toEdge (p : Provenance) : EdgeProvenance where
  sourceRef := p.sourceRef
  asOf := p.fetchedAt
  createdBy := p.connectorVersion

/-- `_column_key`. -/
def ObservedColumn.key (c : ObservedColumn) : String × String × String :=
  (c.system, c.table, c.name)

/-- `_pick_subtype`: the first candidate that the loaded packs allow-list. -/
def pickSubtype (client : GraphClient) (candidateLabels : List String) : Option String :=
  candidateLabels.find? (· ∈ client.entitySubtypes)

def loadDocument (prov : EdgeProvenance) (doc : ObservedDocument) : StoreProgram Unit := do
  GraphClient.upsertDocument doc.uri doc.title doc.text doc.asOf
  doc.describes.forM fun uid => GraphClient.linkDocumentToEntity doc.uri uid prov
  doc.defines.forM fun metricKey => GraphClient.linkMetricToDocument metricKey doc.uri prov

def loadColumn (col : ObservedColumn) : StoreProgram Unit :=
  GraphClient.upsertColumn col.system col.table col.name col.dtype col.sampleValues
    col.hasDictionary

def loadEntity (client : GraphClient) (ent : ObservedEntity) : StoreProgram Unit := do
  client.upsertEntity ent.uid (pickSubtype client ent.candidateLabels) ent.attributes
  ent.columns.forM loadColumn

/-- `rel.rel_type or RelType.RELATED_TO.value`. -/
def ObservedRelation.typeName (rel : ObservedRelation) : String :=
  match rel.relType with
  | some t => if t = "" then RelType.relatedTo.value else t
  | none => RelType.relatedTo.value

def loadRelation (client : GraphClient) (prov : EdgeProvenance) (rel : ObservedRelation) :
    StoreProgram Unit :=
  client.relateEntities rel.subjectUid rel.objectUid rel.role prov rel.typeName

/-- The records of a bundle in the order `load_bundle` writes them. -/
def loadRecords (client : GraphClient) (bundle : ParsedBundle) : StoreProgram Unit := do
  let prov := bundle.provenance.toEdge
  bundle.documents.forM (loadDocument prov)
  bundle.columns.forM loadColumn
  bundle.entities.forM (loadEntity client)
  bundle.relations.forM (loadRelation client prov)

/-- `owner_of`: the entity that carries a column, the last one when several do. -/
def ownerOf (entities : List ObservedEntity) : Dict (String × String × String) String :=
  .ofList (entities.flatMap fun ent => ent.columns.map fun col => (col.key, ent.uid))

/-- The links made for a resolved column: to its metric when it auto-linked, and from the metric
to the entity that owns the column. -/
def linkOutcome (prov : EdgeProvenance) (col : ObservedColumn) (owner : Option String)
    (outcome : Resolution) : StoreProgram Unit :=
  match outcome.tier, outcome.metricKey with
  | .autoLinked, some metricKey =>
    if metricKey.truthy then do
      GraphClient.linkColumnToMetric col.system col.table col.name metricKey prov
      match owner with
      | some uid => GraphClient.linkMetricToEntity metricKey uid prov
      | none => return
    else return
  | _, _ => return

/-- One turn of the loop over the columns of a bundle. -/
def resolveAndLink (resolver : Resolver) (prov : EdgeProvenance)
    (owners : Dict (String × String × String) String) (col : ObservedColumn) :
    ResolverProgram Resolution := do
  let outcome ← resolver.resolve col
  liftStore (linkOutcome prov col (owners.get? col.key) outcome)
  return outcome

/-- Write one bundle into the graph and resolve its columns. -/
def loadBundle (client : GraphClient) (resolver : Resolver) (bundle : ParsedBundle) :
    ResolverProgram (List Resolution) := do
  liftStore (loadRecords client bundle)
  bundle.iterColumns.mapM
    (resolveAndLink resolver bundle.provenance.toEdge (ownerOf bundle.entities))

/-! ## Sources and the ledger -/

/-- One unit of ingestible work surfaced by discovery. -/
structure WorkItem where
  itemId : String
  sourceRef : String
  artifactType : String := "default"
  «metadata» : Props := ∅
  deriving DecidableEq

/-- The payload of an artifact, as its source produced it: row dicts, one document dict, or some
other object. -/
inductive Payload where
  | rows (rows : List Props)
  | document (doc : Props)
  | other (v : Value)
  deriving DecidableEq, Inhabited

/-- The unparsed result of fetching one item. -/
structure RawArtifact where
  itemId : String
  sourceRef : String
  artifactType : String
  payload : Payload
  fetchedAt : String
  deriving DecidableEq, Inhabited

/-- A connector whose three methods give the same answer each time they are asked. -/
structure Source where
  discover : List WorkItem
  fetch : WorkItem → Except PyErr RawArtifact
  parse : RawArtifact → Except PyErr ParsedBundle

/-- The key of an item in the ledger. -/
def WorkItem.key (item : WorkItem) : String × String := (item.sourceRef, item.itemId)

/-- The calls of `run_ingest`: those of its resolver, `Checkpointer.has_seen` and `mark_done`,
and the `fetch` of its source. -/
inductive IngestCall where
  | resolver (c : ResolverCall)
  | hasSeen (key : String × String)
  | markDone (key : String × String)
  | fetch (item : WorkItem)

@[reducible] def IngestCall.Reply : IngestCall → Type
  | .resolver c => c.Reply
  | .hasSeen _ => Bool
  | .markDone _ => Unit
  | .fetch _ => RawArtifact

abbrev IngestProgram := Program IngestCall IngestCall.Reply PyErr

/-- A program of a resolver, among those that also reach the ledger and the source. -/
def liftResolver (p : ResolverProgram α) : IngestProgram α := p.lift .resolver fun _ => id

/-- The state of a resolver, and the ledger of `InMemoryCheckpointer`. -/
structure IngestState (σ : Type) where
  world : ResolverState σ
  ledger : Finset (String × String) := ∅
  deriving DecidableEq

def IngestState.handler {σ : Type} (source : Source)
    (h : Handler StoreCall StoreCall.Reply PyErr σ) :
    Handler IngestCall IngestCall.Reply PyErr (IngestState σ)
  | .resolver c, w =>
    ((ResolverState.handler h c w.world).1,
      { w with world := (ResolverState.handler h c w.world).2 })
  | .hasSeen key, w => (.ok (decide (key ∈ w.ledger)), w)
  | .markDone key, w => (.ok (), { w with ledger := insert key w.ledger })
  | .fetch item, w => (source.fetch item, w)

namespace IngestState

variable {σ : Type}

omit [Python] in
theorem lifting (source : Source) (h : Handler StoreCall StoreCall.Reply PyErr σ) :
    Program.Lifting (ResolverState.handler h) (handler source h) .resolver (fun _ => id)
      world fun s w => { w with world := s } where
  get_put := rfl
  put_put := rfl
  put_get := rfl
  ok hc := ⟨_, by simp only [handler, hc], rfl⟩
  error hc := by simp only [handler, hc]

omit [Python] in
/-- A program of a resolver runs as it does there, and the ledger stays as it is. -/
theorem run_liftResolver (source : Source) (h : Handler StoreCall StoreCall.Reply PyErr σ)
    (p : ResolverProgram α) (w : IngestState σ) :
    (liftResolver p).run (handler source h) w =
      ((p.run (ResolverState.handler h) w.world).1,
        { w with world := (p.run (ResolverState.handler h) w.world).2 }) :=
  Program.run_lift (lifting source h) p w

end IngestState

/-! ## The driver -/

structure IngestReport where
  itemsIngested : Nat := 0
  itemsSkipped : Nat := 0
  resolutions : List Resolution := []
  /-- The parsed bundles, retained for post-load enrichment. -/
  bundles : List ParsedBundle := []
  deriving DecidableEq

def IngestReport.byTier (report : IngestReport) (tier : Tier) : List Resolution :=
  report.resolutions.filter (·.tier = tier)

/-- One turn of the loop of `run_ingest`. -/
def ingestItem (source : Source) (client : GraphClient) (resolver : Resolver)
    (report : IngestReport) (item : WorkItem) : IngestProgram IngestReport :=
  .call (.hasSeen item.key) fun seen : Bool =>
    if seen then .ret { report with itemsSkipped := report.itemsSkipped + 1 }
    else .call (.fetch item) fun artifact => do
      let bundle ← Program.ofExcept (source.parse artifact)
      let resolutions ← liftResolver (loadBundle client resolver bundle)
      .call (.markDone item.key) fun _ => .ret {
        itemsIngested := report.itemsIngested + 1
        itemsSkipped := report.itemsSkipped
        resolutions := report.resolutions ++ resolutions
        bundles := report.bundles ++ [bundle] }

/-- Drive one source end to end. -/
def runIngest (source : Source) (client : GraphClient) (resolver : Resolver) :
    IngestProgram IngestReport :=
  source.discover.foldlM (ingestItem source client resolver) {}

end MarginKG
