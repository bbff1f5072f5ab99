import MarginKG.Packs.Loader

/-! Pack files (`packs/loader.py`): the document that `yaml.safe_load` reads from the file, the
pack that it declares (`pack_from_dict`), and `load_pack_file`. -/

namespace MarginKG

variable [Python]

/-- What a document has under a key: nothing, a null, which is how YAML reads a key that is left
blank, or a value. -/
inductive Entry (α : Type) where
  | absent
  | blank
  | given (a : α)
  deriving DecidableEq

namespace Entry

/-- `get(key, default)`, for a caller that goes on to iterate over it. -/
def getD (default : α) : Entry α → Except PyErr α
  | absent => .ok default
  | blank => .error .typeError
  | given a => .ok a

/-- The items under a key, none when there is no list. -/
def items : Entry (List α) → List α
  | given l => l
  | absent | blank => []

end Entry

/-- `d[key]`. -/
def required (key : String) : Option String → Except PyErr String
  | some s => .ok s
  | none => .error (.keyError key)

/-- Metric fields that the loader maps to dedicated arguments. Any other key of an entry is carried
through as a free-form attribute. -/
def reservedMetricKeys : List String := ["metric_key", "formula", "unit", "numerator_def",
  "denominator_def", "provenance", "aliases"]

/-- The fields hold what the declarations ask for: text, which may be null but in the key, and
something that runs over text in the aliases, or a value that cannot be iterated. -/
def IsMetricEntry (m : Props) : Prop :=
  (∀ v ∈ m.get? "metric_key", v.str?.isSome) ∧
  (∀ f ∈ ["formula", "unit", "numerator_def", "denominator_def", "provenance"], ∀ v ∈ m.get? f,
    v = .null ∨ v.str?.isSome) ∧
  ∀ v ∈ m.get? "aliases", ∀ items ∈ v.iter, ∀ x ∈ items, x.str?.isSome

instance (m : Props) : Decidable (IsMetricEntry m) := inferInstanceAs (Decidable (_ ∧ _ ∧ _))

/-- An entry under `metrics`. -/
structure MetricEntry where
  fields : Props
  isEntry : IsMetricEntry fields

namespace MetricEntry

/-- `m.get(key)`, for a field that holds text. -/
def text (m : MetricEntry) (key : String) : Option String := (m.fields.get? key).bind Value.str?

/-- `tuple(m.get("aliases", ()))`. -/
def aliases (m : MetricEntry) : Except PyErr (List String) :=
  match m.fields.get? "aliases" with
  | none => .ok []
  | some v =>
    match v.iter with
    | some items => .ok (items.filterMap Value.str?)
    | none => .error .typeError

def metricDef (m : MetricEntry) : Except PyErr MetricDef := do
  let metricKey ← required "metric_key" (m.text "metric_key")
  let aliases ← m.aliases
  return {
    metricKey
    formula := m.text "formula"
    unit := m.text "unit"
    numeratorDef := m.text "numerator_def"
    denominatorDef := m.text "denominator_def"
    provenance := m.text "provenance"
    aliases
    attributes := m.fields.filter fun k _ => k ∉ reservedMetricKeys }

end MetricEntry

/-- An entry under `benchmarks`. -/
structure BenchmarkEntry where
  benchmarkKey : Option String
  attributes : Entry Props := .absent

def BenchmarkEntry.benchmarkDef (b : BenchmarkEntry) : Except PyErr BenchmarkDef := do
  let benchmarkKey ← required "benchmark_key" b.benchmarkKey
  let attributes ← b.attributes.getD ∅
  return { benchmarkKey, attributes }

/-- A pack file, as YAML reads it. -/
structure PackDocument where
  name : Option String
  «namespace» : Option String := none
  entitySubtypes : Entry (List String) := .absent
  edgeTypes : Entry (List String) := .absent
  metrics : Entry (List MetricEntry) := .absent
  benchmarks : Entry (List BenchmarkEntry) := .absent

def packFromDict (data : PackDocument) : Except PyErr Pack := do
  let name ← required "name" data.name
  let entitySubtypes ← data.entitySubtypes.getD []
  let edgeTypes ← data.edgeTypes.getD []
  let metrics ← (← data.metrics.getD []).mapM MetricEntry.metricDef
  let benchmarks ← (← data.benchmarks.getD []).mapM BenchmarkEntry.benchmarkDef
  return { name, «namespace» := data.namespace, entitySubtypes, edgeTypes, metrics, benchmarks }

/-- Load the pack that a file declares. Gives the client as it is afterwards, and the writes. -/
def loadPackFile (client : GraphClient) (data : PackDocument) :
    GraphClient × StoreProgram Pack :=
  match packFromDict data with
  | .error e => (client, .throw e)
  | .ok pack =>
    let (client, writes) := loadPack client pack
    (client, writes >>= fun _ => .ret pack)

/-- The neutral pack that comes with the code (`packs/widgets.yaml`). -/
def PackDocument.widgets : PackDocument where
  name := some "widgets"
  entitySubtypes := .given ["Widget", "Gadget"]
  edgeTypes := .given ["CONTAINS"]
  metrics := .given [
    { fields := .ofList [
        ("metric_key", .str "shared.record_count"), ("unit", .str "count"),
        ("aliases", .list [.str "count", .str "qty", .str "quantity", .str "n"])]
      isEntry := by decide },
    { fields := .ofList [
        ("metric_key", .str "widgets.weight"), ("unit", .str "gram"),
        ("numerator_def", .str "mass of one widget"),
        ("aliases", .list [.str "weight", .str "wgt", .str "mass"])]
      isEntry := by decide },
    { fields := .ofList [
        ("metric_key", .str "widgets.length"), ("unit", .str "millimetre"),
        ("aliases", .list [.str "length", .str "len", .str "size"])]
      isEntry := by decide }]
  benchmarks := .given [{
    benchmarkKey := some "widgets.reference_weight"
    attributes := .given (.ofList [("note", .str "neutral placeholder reference point")]) }]

end MarginKG
