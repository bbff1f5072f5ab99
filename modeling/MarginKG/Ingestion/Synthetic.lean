import MarginKG.Ingestion.Pipeline
import MarginKG.Ingestion.RateLimit

/-! The parser router (`ingestion/router.py`) and the reference connector
(`ingestion/connectors/synthetic.py`) over tables and documents that are held in memory. -/

namespace MarginKG

variable [Python]

/-! ## Routing artifacts to parsers -/

abbrev Parser := RawArtifact → Except PyErr ParsedBundle

structure ParserRouter where
  parsers : Dict String Parser := ∅

namespace ParserRouter

def register (r : ParserRouter) (artifactType : String) (parser : Parser) :
    Except PyErr ParserRouter :=
  if artifactType ∈ r.parsers.keys then
    .error <| .valueError <|
      "parser already registered for " ++ Python.repr (.str artifactType)
  else .ok { parsers := r.parsers.set artifactType parser }

/-- `_assert_versioned`: each record carries the schema version that the consumer understands. -/
def assertVersioned (bundle : ParsedBundle) : Except PyErr Unit :=
  let records :=
    bundle.columns.map (fun c => ("ObservedColumn", c.schemaVersion)) ++
    bundle.documents.map (fun d => ("ObservedDocument", d.schemaVersion)) ++
    bundle.entities.map (fun e => ("ObservedEntity", e.schemaVersion)) ++
    bundle.relations.map (fun r => ("ObservedRelation", r.schemaVersion)) ++
    bundle.entities.flatMap fun e => e.columns.map fun c => ("ObservedColumn", c.schemaVersion)
  records.forM fun (type, version) =>
    if version ≠ irSchemaVersion then
      .error <| .valueError <|
        "record " ++ type ++ " has schema_version " ++ Python.repr (.str version) ++
        ", expected " ++ Python.repr (.str irSchemaVersion)
    else .ok ()

def parse (r : ParserRouter) (artifact : RawArtifact) : Except PyErr ParsedBundle :=
  match r.parsers.get? artifact.artifactType with
  | none =>
    .error <| .keyError <|
      "no parser registered for artifact_type " ++ Python.repr (.str artifact.artifactType) ++
      "; registered: " ++
        Python.repr (.list ((r.parsers.keys.toFinset.sort (· ≤ ·)).map .str))
  | some parser => do
    let bundle ← parser artifact
    assertVersioned bundle
    return bundle

end ParserRouter

/-! ## The fixtures -/

/-- `s.split(sep, 1)`, unpacked into two parts. -/
def splitOnce (sep : Char) (s : String) : Except PyErr (String × String) :=
  match s.toList.dropWhile (· ≠ sep) with
  | [] => .error (.valueError "not enough values to unpack (expected 2, got 1)")
  | _ :: rest => .ok (String.ofList (s.toList.takeWhile (· ≠ sep)), String.ofList rest)

/-- `type(v).__name__` of the objects that `Value.obj` stands for. -/
class ObjectTypes where
  typeName : Nat → String

/-- Types to evaluate the model with. -/
instance (priority := low) plainObjects : ObjectTypes := ⟨fun _ => "object"⟩

/-- `type(v).__name__`. -/
def Value.typeName [ObjectTypes] : Value → String
  | .null => "NoneType"
  | .bool _ => "bool"
  | .int _ => "int"
  | .str _ => "str"
  | .list _ => "list"
  | .set _ => "set"
  | .obj id => ObjectTypes.typeName id

/-- The title and the date of a document are strings where it has them. -/
def IsDocument (doc : Props) : Prop :=
  ∀ field ∈ ["title", "as_of"], ∀ v, doc.get? field = some v → v = .null ∨ ∃ s, v = .str s

/-- Canned tables, under their system and name, and documents, under their uri. -/
structure InMemoryRestStub where
  tables : Dict (String × String) (List Props)
  documents : Dict String Props
  isDocument : ∀ doc ∈ documents.values, IsDocument doc

namespace InMemoryRestStub

def listTables (api : InMemoryRestStub) : List (String × String) := api.tables.keys

def listDocuments (api : InMemoryRestStub) : List String := api.documents.keys

def getRows (api : InMemoryRestStub) (system table : String) : Except PyErr (List Props) :=
  match api.tables.get? (system, table) with
  | some rows => .ok rows
  | none => .error <| .keyError <|
      "(" ++ Python.repr (.str system) ++ ", " ++ Python.repr (.str table) ++ ")"

def getDocument (api : InMemoryRestStub) (uri : String) : Except PyErr Props :=
  match api.documents.get? uri with
  | some doc => .ok doc
  | none => .error (.keyError uri)

end InMemoryRestStub

/-- The reference connector. The clock gives the time at which it is read for an item, and the
rate limiter is apart (`SyntheticSource.fetch`). -/
structure SyntheticSource where
  api : InMemoryRestStub
  sourceRef : String := "synthetic://fixtures"
  clock : WorkItem → String

namespace SyntheticSource

def connectorVersion : String := "synthetic@0.1.0"

/-- The item of a table. -/
def tableItem (src : SyntheticSource) (system table : String) : WorkItem where
  itemId := "rows:" ++ system ++ "." ++ table
  sourceRef := src.sourceRef
  artifactType := "rows"
  «metadata» := .ofList [("system", .str system), ("table", .str table)]

/-- The item of a document. -/
def documentItem (src : SyntheticSource) (uri : String) : WorkItem where
  itemId := "prose:" ++ uri
  sourceRef := src.sourceRef
  artifactType := "prose"
  «metadata» := .ofList [("uri", .str uri)]

def discover (src : SyntheticSource) : List WorkItem :=
  (src.api.listTables.map fun (system, table) => src.tableItem system table) ++
    src.api.listDocuments.map src.documentItem

/-- `str(item.metadata[name])`. -/
def metadataText (item : WorkItem) (name : String) : Except PyErr String :=
  match item.metadata.get? name with
  | some v => .ok v.pyStr
  | none => .error (.keyError name)

/-- What `fetch` does once the rate limiter has let it through. -/
def pull (src : SyntheticSource) (item : WorkItem) : Except PyErr RawArtifact := do
  let payload ←
    if item.artifactType = "rows" then do
      let rows ← src.api.getRows (← metadataText item "system") (← metadataText item "table")
      pure (.rows rows)
    else do
      let doc ← src.api.getDocument (← metadataText item "uri")
      pure (.document doc)
  return {
    itemId := item.itemId
    sourceRef := src.sourceRef
    artifactType := item.artifactType
    payload
    fetchedAt := src.clock item }

def provenance (src : SyntheticSource) (fetchedAt : String) : Provenance where
  sourceRef := src.sourceRef
  fetchedAt := fetchedAt
  connectorVersion := connectorVersion

/-- `r.get(name)`, with `None` for absent. -/
def cell (name : String) (row : Props) : Option Value := (row.get? name).filter (· ≠ .null)

/-- `_infer_dtype`: the type of the first value that is not `None`. -/
def inferDtype [ObjectTypes] (rows : List Props) (name : String) : Option String :=
  (rows.findSome? (cell name)).map Value.typeName

/-- `list(artifact.payload)`, when it is a list of rows or empty. What else can be iterated gives
a first element without `keys`. -/
def rowsOf : Payload → Except PyErr (Except PyErr (List Props))
  | .rows rows => .ok (.ok rows)
  | .document doc => .ok (if doc.keys = [] then .ok [] else .error .attributeError)
  | .other v =>
    match v.iter with
    | some [] => .ok (.ok [])
    | some (_ :: _) => .ok (.error .attributeError)
    | none => .error .typeError

/-- `_parse_rows`. -/
def parseRows [ObjectTypes] (src : SyntheticSource) (artifact : RawArtifact) :
    Except PyErr ParsedBundle := do
  let rows ← rowsOf artifact.payload
  let (_, ref) ← splitOnce ':' artifact.itemId
  let (system, table) ← splitOnce '.' ref
  let rows ← rows
  let colNames := (rows.head?.map Dict.keys).getD []
  let columns := colNames.map fun name => {
    system, table, name
    dtype := inferDtype rows name
    sampleValues := ((rows.take 3).filterMap (cell name)).map Value.pyStr : ObservedColumn }
  -- the dataset is itself a measured entity that owns its columns
  let entity : ObservedEntity := {
    uid := system ++ "." ++ table
    candidateLabels := ["Widget"]
    attributes := .ofList [("system", .str system), ("table", .str table)]
    columns }
  return { provenance := src.provenance artifact.fetchedAt, entities := [entity] }

/-- `_parse_prose`. -/
def parseProse (src : SyntheticSource) (artifact : RawArtifact) : Except PyErr ParsedBundle := do
  let (_, uri) ← splitOnce ':' artifact.itemId
  match artifact.payload with
  | .document doc =>
    let observed : ObservedDocument := {
      uri
      title := (doc.get? "title").bind Value.str?
      text := ((doc.get? "text").getD (.str "")).pyStr
      asOf := (doc.get? "as_of").bind Value.str? }
    return { provenance := src.provenance artifact.fetchedAt, documents := [observed] }
  | .rows _ | .other _ => throw .attributeError

/-- The router that `__init__` sets up. -/
def router [ObjectTypes] (src : SyntheticSource) : Except PyErr ParserRouter := do
  let r ← ParserRouter.register {} "rows" src.parseRows
  r.register "prose" src.parseProse

def parse [ObjectTypes] (src : SyntheticSource) (artifact : RawArtifact) :
    Except PyErr ParsedBundle := do
  (← src.router).parse artifact

/-- The connector as a source, apart from its rate limiter. -/
def toSource [ObjectTypes] (src : SyntheticSource) : Source where
  discover := src.discover
  fetch := src.pull
  parse := src.parse

/-- `fetch`: the single rate-limited choke point, with what it slept. -/
def fetch [PyFloat] {σ : Type} {C : Clock σ} (src : SyntheticSource) (item : WorkItem)
    (L : Limiter C) : Except PyErr RawArtifact × List ℚ × Limiter C :=
  match L.acquire 1 with
  | (.error e, L) => (.error e, [], L)
  | (.ok pauses, L) => (src.pull item, pauses, L)

end SyntheticSource

/-- The state of an ingestion from the connector: the graph and the ledger, the rate limiter, and
how long it was asked to sleep in all. -/
structure LimitedState (σ : Type) {τ : Type} (C : Clock τ) where
  ingest : IngestState σ
  limiter : Limiter C
  slept : ℚ := 0

/-- How the calls of `run_ingest` over the connector are answered. -/
def LimitedState.handler [PyFloat] [ObjectTypes] {σ τ : Type} {C : Clock τ}
    (src : SyntheticSource) (h : Handler StoreCall StoreCall.Reply PyErr σ) :
    Handler IngestCall IngestCall.Reply PyErr (LimitedState σ C)
  | .fetch item, w =>
    let (result, pauses, L) := src.fetch item w.limiter
    (result, { w with limiter := L, slept := w.slept + pauses.sum })
  | .resolver c, w =>
    let (result, ingest) := IngestState.handler src.toSource h (.resolver c) w.ingest
    (result, { w with ingest })
  | .hasSeen key, w =>
    let (result, ingest) := IngestState.handler src.toSource h (.hasSeen key) w.ingest
    (result, { w with ingest })
  | .markDone key, w =>
    let (result, ingest) := IngestState.handler src.toSource h (.markDone key) w.ingest
    (result, { w with ingest })

end MarginKG
