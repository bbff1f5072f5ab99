import MarginKG.Packs.Loader
import MarginKG.Ingestion.Pipeline

/-! The platform over the in-memory store: one client, the graph and the queues it works on, the
ledger of finished items, and the operations a caller may perform on them in any order.

An operation may raise; what it has done by then stays done (`Op.exec`). -/

namespace MarginKG

variable [Python]

/-- A call of a method of `GraphClient` that writes. -/
inductive ClientCall where
  | registerAllowlists (entitySubtypes edgeTypes : List String)
  | upsertEntity (uid : String) (subtypeLabel : Option String) (attributes : Props)
  | upsertMetric (metricKey : String) (formula unit numeratorDef denominatorDef provenance :
      Option String) (attributes : Props)
  | upsertColumn (system table name : String) (dtype : Option String)
      (sampleValues : List String) (hasDictionary : Bool)
  | upsertDocument (uri : String) (title : Option String) (text : String) (asOf : Option String)
  | upsertBenchmark (benchmarkKey : String) (attributes : Props)
  | upsertParty (uid : String) (attributes : Props)
  | linkColumnToMetric (system table name metricKey : String) (prov : EdgeProvenance)
  | linkMetricToEntity (metricKey entityUid : String) (prov : EdgeProvenance)
  | linkMetricToDocument (metricKey uri : String) (prov : EdgeProvenance)
  | linkMetricToBenchmark (metricKey benchmarkKey : String) (prov : EdgeProvenance)
  | linkMetricComputedFrom (metricKey sourceMetricKey : String) (prov : EdgeProvenance)
  | linkDocumentToEntity (uri entityUid : String) (prov : EdgeProvenance)
  | linkPartyToEntity (partyUid entityUid role : String) (prov : EdgeProvenance)
  | relateEntities (subjectUid objectUid role : String) (prov : EdgeProvenance)
      (relType : String)
  | addMetricAlias (metricKey aliasName : String)
  deriving DecidableEq

namespace ClientCall

/-- The client after the call; only one method changes its allow-lists. -/
def client (c : GraphClient) : ClientCall → GraphClient
  | registerAllowlists entitySubtypes edgeTypes => c.registerAllowlists entitySubtypes edgeTypes
  | _ => c

/-- What the call does to the store. -/
def program (c : GraphClient) : ClientCall → StoreProgram Unit
  | registerAllowlists _ _ => .ret ()
  | upsertEntity uid subtypeLabel attributes => c.upsertEntity uid subtypeLabel attributes
  | upsertMetric metricKey formula unit numeratorDef denominatorDef provenance attributes =>
    GraphClient.upsertMetric metricKey formula unit numeratorDef denominatorDef provenance
      attributes
  | upsertColumn system table name dtype sampleValues hasDictionary =>
    GraphClient.upsertColumn system table name dtype sampleValues hasDictionary
  | upsertDocument uri title text asOf => GraphClient.upsertDocument uri title text asOf
  | upsertBenchmark benchmarkKey attributes => GraphClient.upsertBenchmark benchmarkKey attributes
  | upsertParty uid attributes => GraphClient.upsertParty uid attributes
  | linkColumnToMetric system table name metricKey prov =>
    GraphClient.linkColumnToMetric system table name (.str metricKey) prov
  | linkMetricToEntity metricKey entityUid prov =>
    GraphClient.linkMetricToEntity (.str metricKey) entityUid prov
  | linkMetricToDocument metricKey uri prov => GraphClient.linkMetricToDocument metricKey uri prov
  | linkMetricToBenchmark metricKey benchmarkKey prov =>
    GraphClient.linkMetricToBenchmark metricKey benchmarkKey prov
  | linkMetricComputedFrom metricKey sourceMetricKey prov =>
    GraphClient.linkMetricComputedFrom metricKey sourceMetricKey prov
  | linkDocumentToEntity uri entityUid prov => GraphClient.linkDocumentToEntity uri entityUid prov
  | linkPartyToEntity partyUid entityUid role prov =>
    GraphClient.linkPartyToEntity partyUid entityUid role prov
  | relateEntities subjectUid objectUid role prov relType =>
    c.relateEntities subjectUid objectUid role prov relType
  | addMetricAlias metricKey aliasName => GraphClient.addMetricAlias metricKey aliasName

end ClientCall

/-- An operation on the platform. -/
inductive Op where
  | client (call : ClientCall)
  | loadPack (pack : Pack)
  | loadBundle (resolver : Resolver) (bundle : ParsedBundle)
  | resolve (resolver : Resolver) (column : ObservedColumn)
  | confirm (column : ObservedColumn) (metricKey : String) (prov : EdgeProvenance)
  /-- A run of `run_ingest`, over the kept ledger or over a fresh one. -/
  | runIngest (source : Source) (resolver : Resolver) (fresh : Bool)

/-- The client, and the state it works on. -/
structure System where
  client : GraphClient
  state : IngestState InMemoryGraphStore

namespace System

/-- A new client over an empty store. -/
def initial : System := ⟨∅, ⟨⟨∅, []⟩, ∅⟩⟩

abbrev graph (s : System) : InMemoryGraphStore := s.state.world.store

/-- The state with another graph. -/
def setGraph (s : System) (g : InMemoryGraphStore) : System :=
  { s with state := { s.state with world := { s.state.world with store := g } } }

/-- Run a program over the store. -/
def runStore (s : System) (p : StoreProgram α) : Except PyErr α × System :=
  let (result, g) := p.run InMemoryGraphStore.handler s.graph
  (result, s.setGraph g)

/-- Run a program of a resolver. -/
def runResolver (s : System) (p : ResolverProgram α) : Except PyErr α × System :=
  let (result, w) := p.run (ResolverState.handler InMemoryGraphStore.handler) s.state.world
  (result, { s with state := { s.state with world := w } })

end System

/-- The effect of an operation, and the exception it ends with when it raises. -/
def Op.exec (s : System) : Op → Except PyErr Unit × System
  | .client call => { s with client := call.client s.client }.runStore (call.program s.client)
  | .loadPack pack =>
    let loaded := MarginKG.loadPack s.client pack
    { s with client := loaded.1 }.runStore loaded.2
  | .loadBundle resolver bundle =>
    let (result, s) := s.runResolver (MarginKG.loadBundle s.client resolver bundle)
    (result.map fun _ => (), s)
  | .resolve resolver column =>
    let (result, s) := s.runResolver (resolver.resolve column)
    (result.map fun _ => (), s)
  | .confirm column metricKey prov => s.runStore (Resolver.confirm column metricKey prov)
  | .runIngest source resolver fresh =>
    let state := { s.state with ledger := if fresh then ∅ else s.state.ledger }
    let (result, state) := (MarginKG.runIngest source s.client resolver).run
      (IngestState.handler source InMemoryGraphStore.handler) state
    (result.map fun _ => (), { s with state })

/-- The state after an operation, whether or not it raised. -/
def Op.next (s : System) (op : Op) : System := (op.exec s).2

/-- The state after a sequence of operations. -/
def System.after (s : System) (ops : List Op) : System := ops.foldl Op.next s

namespace System

@[simp] theorem after_nil (s : System) : s.after [] = s := rfl

@[simp] theorem after_cons (s : System) (op : Op) (ops : List Op) :
    s.after (op :: ops) = (op.next s).after ops := rfl

theorem after_append (s : System) (ops ops' : List Op) :
    s.after (ops ++ ops') = (s.after ops).after ops' := List.foldl_append ..

/-- Every operation of the sequence meets `P` in the state it is performed in. -/
def Meets (P : System → Op → Prop) : System → List Op → Prop
  | _, [] => True
  | s, op :: ops => P s op ∧ Meets P (op.next s) ops

theorem meets_append {P : System → Op → Prop} {s : System} {ops ops' : List Op} :
    s.Meets P (ops ++ ops') ↔ s.Meets P ops ∧ (s.after ops).Meets P ops' := by
  induction ops generalizing s with
  | nil => simp [Meets]
  | cons op ops ih => simp [Meets, ih, and_assoc]

/-- An operation of the sequence meets `P` in the state it is performed in. -/
theorem Meets.at {P : System → Op → Prop} {s : System} (h : s.Meets P (pre ++ op :: post)) :
    P (s.after pre) op := (meets_append.mp h).2.1

theorem meets_of_at {P : System → Op → Prop} {s : System} {ops : List Op}
    (h : ∀ pre op post, ops = pre ++ op :: post → P (s.after pre) op) : s.Meets P ops := by
  induction ops generalizing s with
  | nil => trivial
  | cons op ops ih =>
    refine ⟨h [] op ops rfl, ih fun pre op' post hops => ?_⟩
    exact h (op :: pre) op' post (congrArg (op :: ·) hops)

/-- What every operation preserves, a sequence preserves. -/
theorem after_induction {P : System → Op → Prop} {I : System → Prop} {s : System} {ops : List Op}
    (hmeets : Meets P s ops) (hs : I s) (hstep : ∀ s op, P s op → I s → I (op.next s)) :
    I (s.after ops) := by
  induction ops generalizing s with
  | nil => exact hs
  | cons op ops ih => exact ih hmeets.2 (hstep s op hmeets.1 hs)

end System

end MarginKG
