import MarginKG.Graph.Client

/-! Domain packs (`packs/loader.py`): the declarations of a pack and `load_pack`. -/

namespace MarginKG

variable [Python]

/-- The reserved cross-pack namespace. -/
def sharedNamespace : String := "shared"

structure MetricDef where
  metricKey : String
  formula : Option String := none
  unit : Option String := none
  numeratorDef : Option String := none
  denominatorDef : Option String := none
  provenance : Option String := none
  /-- Column-name aliases that tier-1 exact match uses to auto-link. -/
  aliases : List String := []
  /-- Free-form metric attributes, written onto the Metric node as they are. -/
  attributes : Props := ∅
  deriving DecidableEq

structure BenchmarkDef where
  benchmarkKey : String
  attributes : Props := ∅
  deriving DecidableEq

structure Pack where
  name : String
  entitySubtypes : List String := []
  edgeTypes : List String := []
  metrics : List MetricDef := []
  benchmarks : List BenchmarkDef := []
  /-- The metric-key namespace this pack owns, its name when unset. -/
  «namespace» : Option String := none
  deriving DecidableEq

/-- `metric_key.split(".", 1)[0]`. -/
def namespacePart (metricKey : String) : String :=
  String.ofList (metricKey.toList.takeWhile (· ≠ '.'))

namespace Pack

/-- `self.namespace or self.name`. -/
def metricNamespace (pack : Pack) : String :=
  match pack.namespace with
  | some ns => if ns = "" then pack.name else ns
  | none => pack.name

/-- Each metric key must live in the pack's namespace or the shared one. -/
def validate (pack : Pack) : Except PyErr Unit :=
  pack.metrics.forM fun m =>
    if namespacePart m.metricKey ∈ [pack.metricNamespace, sharedNamespace] then .ok ()
    else .error <| .valueError <|
      "metric_key " ++ Python.repr (.str m.metricKey) ++ " is not in namespace " ++
      Python.repr (.str pack.metricNamespace) ++ " or " ++ Python.repr (.str sharedNamespace)

end Pack

/-- The attribute map that `load_pack` passes on for a metric: its aliases, when it has any,
over its free-form attributes. -/
def MetricDef.attrs (m : MetricDef) : Props :=
  if m.aliases = [] then m.attributes
  else m.attributes.set "aliases" (.list (m.aliases.map .str))

def MetricDef.load (m : MetricDef) : StoreProgram Unit :=
  GraphClient.upsertMetric m.metricKey m.formula m.unit m.numeratorDef m.denominatorDef
    m.provenance m.attrs

def BenchmarkDef.load (b : BenchmarkDef) : StoreProgram Unit :=
  GraphClient.upsertBenchmark b.benchmarkKey b.attributes

/-- The store writes of `load_pack`. -/
def Pack.loadCatalog (pack : Pack) : StoreProgram Unit := do
  pack.metrics.forM MetricDef.load
  pack.benchmarks.forM BenchmarkDef.load

/-- Register the pack's allow-lists and merge its catalog. Gives the client as it is afterwards,
whether or not the store writes raise, and these writes. -/
def loadPack (client : GraphClient) (pack : Pack) : GraphClient × StoreProgram Unit :=
  match pack.validate with
  | .error e => (client, .throw e)
  | .ok () => (client.registerAllowlists pack.entitySubtypes pack.edgeTypes, pack.loadCatalog)

end MarginKG
