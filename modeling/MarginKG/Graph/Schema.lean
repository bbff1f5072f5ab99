import MarginKG.Graph.Cypher
import MarginKG.Ingestion.Pipeline

/-! The identity constraints of the ontology (`graph/model.py`), and a database that enforces them.

`GraphClient.init_schema` hands them to `ensure_constraints` of its store. The in-memory store has
nothing to do there. The Neo4j store sends one `CREATE CONSTRAINT` statement for each of them
(`Cypher.createConstraint`), and a database with constraints refuses a statement that would break
one (`Database.handler`). -/

namespace MarginKG

/-- The properties together are unique, or they are a key that every node of the label has. -/
inductive ConstraintKind where
  | unique
  | nodeKey
  deriving DecidableEq

structure Constraint where
  label : CoreLabel
  properties : List String
  kind : ConstraintKind
  deriving DecidableEq

def coreConstraints : List Constraint := [
  ⟨.entity, ["uid"], .unique⟩,
  ⟨.metric, ["metric_key"], .unique⟩,
  ⟨.document, ["uri"], .unique⟩,
  ⟨.benchmark, ["benchmark_key"], .unique⟩,
  ⟨.party, ["uid"], .unique⟩,
  ⟨.column, ["system", "table", "name"], .nodeKey⟩]

namespace Constraint

/-- `f"{label.lower()}_{'_'.join(c.properties)}"`. -/
def name (c : Constraint) : String :=
  String.ofList (c.label.value.toList.map Char.toLower) ++ "_" ++ "_".intercalate c.properties

/-- The values of the properties, when the node has all of them. -/
def values (c : Constraint) (a : PropertyGraph.Node String String Value) : Option (List Value) :=
  c.properties.mapM a.props.get?

/-- The nodes that the constraint is about. -/
def nodes (c : Constraint) (g : Neo4jGraph) : List (PropertyGraph.Node String String Value) :=
  g.nodes.filter fun a => c.label.value ∈ a.labels

/-- The graph meets the constraint. -/
def Holds (c : Constraint) (g : Neo4jGraph) : Prop :=
  ((c.nodes g).filterMap c.values).Nodup ∧
    (c.kind = .nodeKey → ∀ a ∈ c.nodes g, (c.values a).isSome)

instance (c : Constraint) (g : Neo4jGraph) : Decidable (c.Holds g) :=
  inferInstanceAs (Decidable (_ ∧ (_ → _)))

variable [Python]

/-- The constraint that the statement for `c` creates, with its name. -/
def compile (c : Constraint) : Except PyErr (String × Constraint) := do
  let _ ← checkIdent c.label.value
  let properties ← c.properties.mapM checkIdent
  return (c.name, { c with properties })

end Constraint

/-! ## Statements -/

namespace Cypher

variable [Python]

/-- The statement that creates a constraint. -/
def createConstraint (c : Constraint) : Except PyErr Statement := do
  let label ← checkIdent c.label.value
  let props ← c.properties.mapM fun p => do return [.text "n.", .name (← checkIdent p)]
  let clause := match c.kind with
    | .nodeKey => ") IS NODE KEY"
    | .unique => ") IS UNIQUE"
  return [.text "CREATE CONSTRAINT ", .name c.name, .text " IF NOT EXISTS FOR (n:", .name label,
    .text ") REQUIRE ("] ++ [Piece.text ", "].intercalate props ++ [.text clause]

/-- The statements of `ensure_constraints`, in the order in which they are run. All of them are put
together before the first one is run. -/
def ensureConstraints (constraints : List Constraint) : Except PyErr (List Statement) :=
  constraints.mapM createConstraint

end Cypher

/-! ## A database with constraints -/

/-- The constraints that are in force, by name, and the graph. -/
structure Database where
  constraints : Dict String Constraint
  graph : Neo4jGraph

namespace Database

/-- `CREATE CONSTRAINT name IF NOT EXISTS`: nothing happens when there is a constraint of this name
or the same constraint. It is refused when these properties have another kind of constraint, and
when the graph does not meet it. -/
def create (refused : PyErr) (name : String) (c : Constraint) (db : Database) :
    Except PyErr Unit × Database :=
  if name ∈ db.constraints.keys ∨ c ∈ db.constraints.values then (.ok (), db)
  else if (∃ d ∈ db.constraints.values, d.label = c.label ∧ d.properties = c.properties) ∨
      ¬ c.Holds db.graph then (.error refused, db)
  else (.ok (), { db with constraints := db.constraints.set name c })

/-- A statement that would break a constraint is refused, and changes nothing. -/
def handler [Python] [RowOrder] (refused : PyErr) : Handler StoreCall StoreCall.Reply PyErr Database
  | c, db =>
    let (result, graph) := Neo4jGraphStore.handler c db.graph
    if ∀ d ∈ db.constraints.values, d.Holds graph then (result, { db with graph })
    else (.error refused, db)

end Database

/-- The calls of the platform over a database: those of an ingestion, and the statements that
create constraints. -/
inductive DatabaseCall where
  | ingest (c : IngestCall)
  | create (name : String) (c : Constraint)

@[reducible] def DatabaseCall.Reply : DatabaseCall → Type
  | .ingest c => c.Reply
  | .create .. => Unit

abbrev DatabaseProgram := Program DatabaseCall DatabaseCall.Reply PyErr

/-- A program of an ingestion, among those that also create constraints. -/
def liftIngest (p : IngestProgram α) : DatabaseProgram α := p.lift .ingest fun _ => id

variable [Python]

/-- What a call does, when a statement that would break a constraint raises `refused`. -/
def DatabaseCall.handler [RowOrder] (source : Source) (refused : PyErr) :
    Handler DatabaseCall DatabaseCall.Reply PyErr (IngestState Database)
  | .ingest c, w => IngestState.handler source (Database.handler refused) c w
  | .create name c, w =>
    let (result, store) := Database.create refused name c w.world.store
    (result, { w with world := { w.world with store } })

/-- `ensure_constraints` of the Neo4j store. -/
def ensureConstraints (constraints : List Constraint) : DatabaseProgram Unit := do
  let stmts ← Program.ofExcept (constraints.mapM Constraint.compile)
  stmts.forM fun (name, c) => .call (.create name c) .ret

/-- Create the core identity constraints. -/
def initSchema : DatabaseProgram Unit := ensureConstraints coreConstraints

end MarginKG
