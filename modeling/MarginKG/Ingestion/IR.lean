import MarginKG.Graph.Model

/-! The intermediate representation that every connector normalizes into (`ingestion/ir.py`). -/

namespace MarginKG

def irSchemaVersion : String := "1.0"

/-- Where a bundle came from and when. -/
structure Provenance where
  sourceRef : String
  fetchedAt : String
  connectorVersion : String
  deriving DecidableEq

/-- A physical column seen in some source system. -/
structure ObservedColumn where
  system : String
  table : String
  name : String
  dtype : Option String := none
  sampleValues : List String := []
  hasDictionary : Bool := false
  schemaVersion : String := irSchemaVersion
  deriving DecidableEq

/-- A qualitative prose artifact. -/
structure ObservedDocument where
  uri : String
  title : Option String := none
  text : String := ""
  asOf : Option String := none
  /-- Entity uids this document describes. -/
  describes : List String := []
  /-- Metric keys whose canonical definition lives in this document. -/
  defines : List String := []
  schemaVersion : String := irSchemaVersion
  deriving DecidableEq

/-- A thing being described; it may carry its own observed columns. -/
structure ObservedEntity where
  uid : String
  candidateLabels : List String := []
  attributes : Props := ∅
  columns : List ObservedColumn := []
  schemaVersion : String := irSchemaVersion
  deriving DecidableEq

/-- A structural triple between two entities. -/
structure ObservedRelation where
  subjectUid : String
  role : String
  objectUid : String
  /-- Specialized relationship type; `none` means the generic RELATED_TO. -/
  relType : Option String := none
  attributes : Props := ∅
  schemaVersion : String := irSchemaVersion
  deriving DecidableEq

/-- The normalized output of `Source.parse`. -/
structure ParsedBundle where
  provenance : Provenance
  columns : List ObservedColumn := []
  documents : List ObservedDocument := []
  entities : List ObservedEntity := []
  relations : List ObservedRelation := []
  deriving DecidableEq

/-- All columns in the bundle: the free-standing ones, then those that entities carry. -/
def ParsedBundle.iterColumns (bundle : ParsedBundle) : List ObservedColumn :=
  bundle.columns ++ bundle.entities.flatMap ObservedEntity.columns

end MarginKG
