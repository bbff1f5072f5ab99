import MarginKG.Graph.Store

/-! `GraphClient` (`graph/client.py`): the write and read API over a store.

A client is the value of its two allow-lists; `registerAllowlists` returns the widened client.
Each other method is a program over the store. A metric key that was read back from a node comes
as the property value it is, so the two links that the pipeline makes with such a key take a
`Value`. -/

namespace MarginKG

open GraphStore

variable [Python]

/-- `_clean`: drop `None`-valued properties. -/
def clean (props : Props) : Props := props.filter fun _ v => v ≠ .null

/-- The local (post-namespace) part of a metric key: `key.split(".", 1)[-1]`. -/
def localPart (metricKey : String) : String :=
  match metricKey.toList.dropWhile (· ≠ '.') with
  | [] => metricKey
  | _ :: rest => String.ofList rest

/-- `m.get("aliases", ()) or ()`, as the list that the loops over it run through. -/
def aliasesOf (m : Props) : Except PyErr (List Value) :=
  match m.get? "aliases" with
  | none => .ok []
  | some v => if v.truthy then (v.iter.map .ok).getD (.error .typeError) else .ok []

/-- `m["metric_key"]`. -/
def metricKeyOf (m : Props) : Except PyErr Value :=
  ((m.get? "metric_key").map .ok).getD (.error (.keyError "metric_key"))

/-- One metric's turn in `metric_aliases`: each alias, case-folded, points to the metric. -/
def indexMetric (index : Dict String Value) (m : Props) : Except PyErr (Dict String Value) := do
  (← aliasesOf m).foldlM (fun index a => do
    let k ← metricKeyOf m
    return index.set (casefold a.pyStr) k) index

/-- The loop of `metric_aliases` over all metrics: a later alias overwrites an earlier one. -/
def aliasIndex (metrics : List Props) : Except PyErr (Dict String Value) :=
  metrics.foldlM indexMetric ∅

/-- The matchable terms of one metric: its aliases and the local part of its key. -/
def termsOf (m : Props) : Except PyErr (String × List String) := do
  let aliases ← aliasesOf m
  match ← metricKeyOf m with
  | .str k =>
    let terms := insert (casefold (localPart k))
      (aliases.map fun a => casefold a.pyStr).toFinset
    return (k, terms.sort (· ≤ ·))
  | _ => throw .attributeError

/-- The loop of `metric_terms` over all metrics. -/
def termIndex (metrics : List Props) : Except PyErr (Dict String (List String)) :=
  metrics.foldlM (fun out m => do
    let (k, terms) ← termsOf m
    return out.set k terms) ∅

/-- `sorted(labels) or '(none)'`, as the message shows it. -/
def showLabels (labels : Finset String) : String :=
  if labels = ∅ then "(none)" else Python.repr (.list ((labels.sort (· ≤ ·)).map .str))

/-! The key properties that identify a node of each label. -/

def entityKey (uid : String) : Props := .ofList [("uid", .str uid)]

def metricKeyProps (metricKey : Value) : Props := .ofList [("metric_key", metricKey)]

def columnKey (system table name : String) : Props :=
  .ofList [("system", .str system), ("table", .str table), ("name", .str name)]

def documentKey (uri : String) : Props := .ofList [("uri", .str uri)]

def benchmarkKeyProps (benchmarkKey : String) : Props :=
  .ofList [("benchmark_key", .str benchmarkKey)]

def partyKey (uid : String) : Props := .ofList [("uid", .str uid)]

/-- The properties that carry the provenance of an edge. -/
def EdgeProvenance.setProps (prov : EdgeProvenance) : Props := .ofList [
  ("source_ref", .str prov.sourceRef),
  ("as_of", .str prov.asOf),
  ("created_by", .str prov.createdBy)]

/-- The identifying property of the edges that carry a role. -/
def roleKey (role : String) : Props := .ofList [("role", .str role)]

structure GraphClient where
  entitySubtypes : Finset String
  packEdgeTypes : Finset String
  deriving DecidableEq

namespace GraphClient

instance : EmptyCollection GraphClient := ⟨⟨∅, ∅⟩⟩

/-- Widens what writes may assert. Additive, so that packs compose. -/
def registerAllowlists (c : GraphClient) (entitySubtypes edgeTypes : List String) :
    GraphClient where
  entitySubtypes := c.entitySubtypes ∪ entitySubtypes.toFinset
  packEdgeTypes := c.packEdgeTypes ∪ edgeTypes.toFinset

/-! ## Node upserts -/

def upsertEntity (c : GraphClient) (uid : String) (subtypeLabel : Option String)
    (attributes : Props) : StoreProgram Unit :=
  match subtypeLabel with
  | none => upsertNode CoreLabel.entity.value (entityKey uid) (clean attributes) []
  | some label =>
    if label ∉ c.entitySubtypes then
      .throw <| .writeValidationError <|
        "entity subtype label " ++ Python.repr (.str label) ++ " is not allow-listed by any " ++
        "loaded pack; allowed: " ++ showLabels c.entitySubtypes
    else
      -- an empty label is false in `(subtype_label,) if subtype_label else ()`
      let extra := if label = "" then [] else [label]
      upsertNode CoreLabel.entity.value (entityKey uid) (clean attributes) extra

def upsertMetric (metricKey : String) (formula unit numeratorDef denominatorDef provenance :
    Option String) (attributes : Props) : StoreProgram Unit :=
  let props := (Dict.ofList [
    ("formula", Value.ofOption formula),
    ("unit", .ofOption unit),
    ("numerator_def", .ofOption numeratorDef),
    ("denominator_def", .ofOption denominatorDef),
    ("provenance", .ofOption provenance)]).update attributes
  upsertNode CoreLabel.metric.value (metricKeyProps (.str metricKey)) (clean props) []

def upsertColumn (system table name : String) (dtype : Option String)
    (sampleValues : List String) (hasDictionary : Bool) : StoreProgram Unit :=
  upsertNode CoreLabel.column.value (columnKey system table name)
    (clean (.ofList [
      ("dtype", .ofOption dtype),
      ("sample_values", .list (sampleValues.map .str)),
      ("has_dictionary", .bool hasDictionary)])) []

def upsertDocument (uri : String) (title : Option String) (text : String)
    (asOf : Option String) : StoreProgram Unit :=
  upsertNode CoreLabel.document.value (documentKey uri)
    (clean (.ofList [("title", .ofOption title), ("text", .str text), ("as_of", .ofOption asOf)]))
    []

def upsertBenchmark (benchmarkKey : String) (attributes : Props) : StoreProgram Unit :=
  upsertNode CoreLabel.benchmark.value (benchmarkKeyProps benchmarkKey) (clean attributes) []

def upsertParty (uid : String) (attributes : Props) : StoreProgram Unit :=
  upsertNode CoreLabel.party.value (partyKey uid) (clean attributes) []

/-! ## Spine edges -/

/-- `_edge`: fold the provenance onto the edge. -/
def edge (relName : String) (srcLabel : CoreLabel) (srcKey : Props) (dstLabel : CoreLabel)
    (dstKey : Props) (prov : EdgeProvenance) (keyProps : Props) : StoreProgram Unit :=
  upsertEdge relName srcLabel.value srcKey dstLabel.value dstKey keyProps prov.setProps

def linkColumnToMetric (system table name : String) (metricKey : Value) (prov : EdgeProvenance) :
    StoreProgram Unit :=
  edge RelType.measures.value .column (columnKey system table name)
    .metric (metricKeyProps metricKey) prov ∅

def linkMetricToEntity (metricKey : Value) (entityUid : String) (prov : EdgeProvenance) :
    StoreProgram Unit :=
  edge RelType.appliesTo.value .metric (metricKeyProps metricKey)
    .entity (entityKey entityUid) prov ∅

def linkMetricToDocument (metricKey uri : String) (prov : EdgeProvenance) : StoreProgram Unit :=
  edge RelType.definedIn.value .metric (metricKeyProps (.str metricKey))
    .document (documentKey uri) prov ∅

def linkMetricToBenchmark (metricKey benchmarkKey : String) (prov : EdgeProvenance) :
    StoreProgram Unit :=
  edge RelType.benchmarkedAgainst.value .metric (metricKeyProps (.str metricKey))
    .benchmark (benchmarkKeyProps benchmarkKey) prov ∅

def linkMetricComputedFrom (metricKey sourceMetricKey : String) (prov : EdgeProvenance) :
    StoreProgram Unit :=
  edge RelType.computedFrom.value .metric (metricKeyProps (.str metricKey))
    .metric (metricKeyProps (.str sourceMetricKey)) prov ∅

def linkDocumentToEntity (uri entityUid : String) (prov : EdgeProvenance) : StoreProgram Unit :=
  edge RelType.describes.value .document (documentKey uri)
    .entity (entityKey entityUid) prov ∅

def linkPartyToEntity (partyUid entityUid role : String) (prov : EdgeProvenance) :
    StoreProgram Unit :=
  edge RelType.hasRole.value .party (partyKey partyUid)
    .entity (entityKey entityUid) prov (roleKey role)

/-- Generic structural edge. `RELATED_TO` is always allowed; any other type must be
allow-listed. -/
def relateEntities (c : GraphClient) (subjectUid objectUid role : String) (prov : EdgeProvenance)
    (relType : String) : StoreProgram Unit :=
  if relType ≠ RelType.relatedTo.value ∧ relType ∉ c.packEdgeTypes then
    .throw <| .writeValidationError <|
      "edge type " ++ Python.repr (.str relType) ++ " is not allow-listed by any loaded pack"
  else
    edge relType .entity (entityKey subjectUid)
      .entity (entityKey objectUid) prov (roleKey role)

/-! ## Metric aliases -/

def metricAliases : StoreProgram (Dict String Value) := do
  let metrics ← nodesByLabel CoreLabel.metric.value
  Program.ofExcept (aliasIndex metrics)

def metricTerms : StoreProgram (Dict String (List String)) := do
  let metrics ← nodesByLabel CoreLabel.metric.value
  Program.ofExcept (termIndex metrics)

/-- `list(node.get("aliases", []) if node else [])`. -/
def currentAliases (node : Option Props) : Except PyErr (List Value) :=
  match node.bind (·.get? "aliases") with
  | none => .ok []
  | some v => (v.iter.map .ok).getD (.error .typeError)

/-- `if alias not in current: current.append(alias)`. -/
def extendAliases (current : List Value) (aliasName : String) : List Value :=
  if .str aliasName ∈ current then current else current ++ [.str aliasName]

def addMetricAlias (metricKey aliasName : String) : StoreProgram Unit := do
  let node ← getNode CoreLabel.metric.value (metricKeyProps (.str metricKey))
  let current ← Program.ofExcept (currentAliases node)
  upsertNode CoreLabel.metric.value (metricKeyProps (.str metricKey))
    (.ofList [("aliases", .list (extendAliases current aliasName))]) []

/-! ## Read path -/

/-- A metric that a column measures, with the entities it applies to. -/
structure ResolvedMetric where
  metric : Props
  appliesTo : List Props
  deriving DecidableEq

structure ResolvedColumn where
  column : Props
  metrics : List ResolvedMetric
  deriving DecidableEq

def resolveColumn (system table name : String) : StoreProgram (Option ResolvedColumn) := do
  match ← getNode CoreLabel.column.value (columnKey system table name) with
  | none => return none
  | some column =>
    let neighbors ← outNeighbors CoreLabel.column.value (columnKey system table name)
      RelType.measures.value
    let metrics ← neighbors.mapM fun (metric, _) => do
      let key ← Program.ofExcept (metricKeyOf metric)
      let entities ← outNeighbors CoreLabel.metric.value (metricKeyProps key)
        RelType.appliesTo.value
      return { metric, appliesTo := entities.map Prod.fst : ResolvedMetric }
    return some { column, metrics }

end GraphClient

end MarginKG
