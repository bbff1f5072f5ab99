import MarginKG.Graph.Store
import MarginKG.Theory.PropertyGraph

/-! The store that compiles the calls of the protocol to Cypher (`Neo4jGraphStore` in
`graph/store.py`). A call becomes one statement, which runs whole or not at all, and the
statements are read over a property graph: `MATCH` returns every match, in any order
(`RowOrder`), `MERGE` reuses the matches or creates one, `SET x += map` overwrites the listed
properties and `SET n:L` adds a label.

A property holds any value that it is given. Key properties are never `None` here, and their
names are identifiers, so that each stands for itself in a pattern, and none has the name of an
argument of the driver's `run` (`NodeRef.key_free`, `Makes.keywords_free`). -/

namespace MarginKG

abbrev Neo4jGraph := PropertyGraph String String Value

/-- The order in which a call gets its rows, which are listed here in the order of creation. The
statements have no `ORDER BY`, and Cypher then promises no order. A call that finds the same rows
again gets them in the same order. -/
class RowOrder where
  rows {α : Type} (c : StoreCall) (l : List α) : List α
  perm {α : Type} (c : StoreCall) (l : List α) : (rows c l).Perm l

/-- The order of creation, to evaluate the model with. -/
instance (priority := low) creationOrder : RowOrder where
  rows _ l := l
  perm _ l := .refl l

namespace RowOrder

variable [RowOrder]

theorem mem_rows {l : List α} : a ∈ rows c l ↔ a ∈ l := (perm c l).mem_iff

/-- One row or none has one order. -/
theorem rows_toList (c : StoreCall) (a : Option α) : rows c a.toList = a.toList := by
  cases a with
  | none => exact List.perm_nil.mp (perm c [])
  | some a => exact List.perm_singleton.mp (perm c [a])

end RowOrder

/-- A letter or an underscore, then letters, digits and underscores. -/
def isIdent : List Char → Bool
  | [] => false
  | c :: cs => (c.isAlpha || c = '_') && cs.all fun c => c.isAlphanum || c = '_'

variable [Python]

/-- `_check_ident`, as the name that the checked text stands for in a statement. In the regular
expression `$` also matches before a final newline, which a statement then reads as space. -/
def checkIdent (value : String) : Except PyErr String :=
  let cs := value.toList
  let name := if cs.getLast? = some '\n' then cs.dropLast else cs
  if isIdent name then .ok (String.ofList name)
  else .error (.valueError ("unsafe graph identifier: " ++ Python.repr (.str value)))

/-- The checks of the names in a key pattern. -/
def checkNames (keyProps : Props) : Except PyErr Unit :=
  keyProps.keys.forM fun k => (checkIdent k).map fun _ => ()

namespace Neo4jGraphStore

open PropertyGraph RowOrder

variable [RowOrder]

/-- `dict(n)`, with the labels under `_labels`. -/
def record (n : Node String String Value) : Props := n.props.set "_labels" (.set n.labels)

def upsertNode (g : Neo4jGraph) (baseLabel : String) (keyProps setProps : Props)
    (extraLabels : List String) : Except PyErr Neo4jGraph := do
  let label ← checkIdent baseLabel
  checkNames keyProps
  let extra ← extraLabels.mapM checkIdent
  return g.mergeNode label keyProps fun n =>
    ⟨n.labels ∪ extra.toFinset, n.props.update setProps⟩

def upsertEdge (g : Neo4jGraph) (relType srcLabel : String) (srcKey : Props) (dstLabel : String)
    (dstKey keyProps setProps : Props) : Except PyErr Neo4jGraph := do
  let rel ← checkIdent relType
  let sl ← checkIdent srcLabel
  let dl ← checkIdent dstLabel
  checkNames srcKey
  checkNames dstKey
  checkNames keyProps
  return g.mergeEdges sl srcKey dl dstKey rel keyProps (·.update setProps)

/-- `single()` returns the first of several rows, and `None` when there is none. -/
def getNode (g : Neo4jGraph) (baseLabel : String) (keyProps : Props) :
    Except PyErr (Option Props) := do
  let label ← checkIdent baseLabel
  checkNames keyProps
  let found := (g.nodes.filter (Node.fits label keyProps)).map record
  return (rows (.getNode baseLabel keyProps) found).head?

def outNeighbors (g : Neo4jGraph) (srcLabel : String) (srcKey : Props) (relType : String) :
    Except PyErr (List (Props × Props)) := do
  let sl ← checkIdent srcLabel
  let rel ← checkIdent relType
  checkNames srcKey
  let found := ((g.matchNodes sl srcKey).flatMap (g.outgoing rel)).map fun (d, r) => (record d, r)
  return rows (.outNeighbors srcLabel srcKey relType) found

def nodesByLabel (g : Neo4jGraph) (baseLabel : String) : Except PyErr (List Props) := do
  let label ← checkIdent baseLabel
  return rows (.nodesByLabel baseLabel) ((g.nodes.filter (Node.fits label ∅)).map record)

/-- A statement that writes. -/
def write (g : Neo4jGraph) : Except PyErr Neo4jGraph → Except PyErr Unit × Neo4jGraph
  | .ok g' => (.ok (), g')
  | .error e => (.error e, g)

/-- The Neo4j store as a handler of the protocol. -/
def handler : Handler StoreCall StoreCall.Reply PyErr Neo4jGraph
  | .upsertNode baseLabel keyProps setProps extraLabels, g =>
    write g (upsertNode g baseLabel keyProps setProps extraLabels)
  | .upsertEdge relType srcLabel srcKey dstLabel dstKey keyProps setProps, g =>
    write g (upsertEdge g relType srcLabel srcKey dstLabel dstKey keyProps setProps)
  | .getNode baseLabel keyProps, g => (getNode g baseLabel keyProps, g)
  | .outNeighbors srcLabel srcKey relType, g => (outNeighbors g srcLabel srcKey relType, g)
  | .nodesByLabel baseLabel, g => (nodesByLabel g baseLabel, g)

end Neo4jGraphStore

end MarginKG
