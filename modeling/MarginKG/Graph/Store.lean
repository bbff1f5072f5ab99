import MarginKG.Graph.Model
import MarginKG.Theory.Program

/-! The persistence seam (`graph/store.py`): the calls of the `GraphStore` protocol, and the
dict-backed store that answers them in memory.

Everything above this module is a program over `StoreCall`; the in-memory store and the Neo4j
store are two handlers of the same calls. Values have value semantics: a set that an attribute
map brings in is copied, not shared. -/

namespace MarginKG

/-- The calls of the `GraphStore` protocol. -/
inductive StoreCall where
  | upsertNode (baseLabel : String) (keyProps setProps : Props) (extraLabels : List String)
  | upsertEdge (relType : String) (srcLabel : String) (srcKey : Props) (dstLabel : String)
      (dstKey : Props) (keyProps setProps : Props)
  | getNode (baseLabel : String) (keyProps : Props)
  | outNeighbors (srcLabel : String) (srcKey : Props) (relType : String)
  | nodesByLabel (baseLabel : String)

/-- What a call of the protocol returns. -/
@[reducible] def StoreCall.Reply : StoreCall → Type
  | .upsertNode .. => Unit
  | .upsertEdge .. => Unit
  | .getNode .. => Option Props
  | .outNeighbors .. => List (Props × Props)
  | .nodesByLabel .. => List Props

/-- A program over a graph store. -/
abbrev StoreProgram := Program StoreCall StoreCall.Reply PyErr

/-! The methods of the protocol, each one call. -/

namespace GraphStore

@[reducible] def upsertNode (baseLabel : String) (keyProps setProps : Props)
    (extraLabels : List String) : StoreProgram Unit :=
  .call (.upsertNode baseLabel keyProps setProps extraLabels) .ret

@[reducible] def upsertEdge (relType srcLabel : String) (srcKey : Props) (dstLabel : String)
    (dstKey keyProps setProps : Props) : StoreProgram Unit :=
  .call (.upsertEdge relType srcLabel srcKey dstLabel dstKey keyProps setProps) .ret

@[reducible] def getNode (baseLabel : String) (keyProps : Props) : StoreProgram (Option Props) :=
  .call (.getNode baseLabel keyProps) .ret

@[reducible] def outNeighbors (srcLabel : String) (srcKey : Props) (relType : String) :
    StoreProgram (List (Props × Props)) :=
  .call (.outNeighbors srcLabel srcKey relType) .ret

@[reducible] def nodesByLabel (baseLabel : String) : StoreProgram (List Props) :=
  .call (.nodesByLabel baseLabel) .ret

end GraphStore

/-- Identity of a node: its base label and the frozenset of its key properties. -/
structure NodeKey where
  label : String
  key : Finset (String × Value)
  deriving DecidableEq

/-- Identity of an edge. -/
structure EdgeIdent where
  relType : String
  src : NodeKey
  dst : NodeKey
  key : Finset (String × Value)
  deriving DecidableEq

/-- `frozenset(props.items())`, which hashes the values. -/
def frozenset (props : Props) : Except PyErr (Finset (String × Value)) :=
  if props.values.all Value.hashable then .ok props.items.toFinset else .error .typeError

/-- `_key`: the canonical, order-independent identity of a node. -/
def nodeKey (baseLabel : String) (keyProps : Props) : Except PyErr NodeKey :=
  (frozenset keyProps).map (NodeKey.mk baseLabel)

structure InMemoryGraphStore where
  nodes : Dict NodeKey Props
  edges : Dict EdgeIdent Props
  deriving DecidableEq

namespace InMemoryGraphStore

instance : EmptyCollection InMemoryGraphStore := ⟨⟨∅, ∅⟩⟩

/-- The last two statements of `upsert_node`: `node.update(set_props)`, then
`node["_labels"].update(extra_labels)`, which raises when `_labels` is not a set; the first
statement has had its effect by then. -/
def updateNode (node setProps : Props) (extraLabels : List String) : Except PyErr Unit × Props :=
  let node := node.update setProps
  match node.get? "_labels" with
  | some (.set labels) => (.ok (), node.set "_labels" (.set (labels ∪ extraLabels.toFinset)))
  | some _ => (.error .attributeError, node)
  | none => (.error (.keyError "_labels"), node)

/-- A node before its first upsert. -/
def freshNode (baseLabel : String) (keyProps : Props) : Props :=
  keyProps.set "_labels" (.set {baseLabel})

def upsertNode (g : InMemoryGraphStore) (baseLabel : String) (keyProps setProps : Props)
    (extraLabels : List String) : Except PyErr Unit × InMemoryGraphStore :=
  match nodeKey baseLabel keyProps with
  | .error e => (.error e, g)
  | .ok k =>
    let node := (g.nodes.get? k).getD (freshNode baseLabel keyProps)
    let (result, node) := updateNode node setProps extraLabels
    (result, { g with nodes := g.nodes.set k node })

def upsertEdge (g : InMemoryGraphStore) (relType srcLabel : String) (srcKey : Props)
    (dstLabel : String) (dstKey keyProps setProps : Props) :
    Except PyErr Unit × InMemoryGraphStore :=
  match nodeKey srcLabel srcKey, nodeKey dstLabel dstKey, frozenset keyProps with
  | .ok src, .ok dst, .ok key =>
    let ident : EdgeIdent := ⟨relType, src, dst, key⟩
    let edge := (g.edges.get? ident).getD keyProps
    (.ok (), { g with edges := g.edges.set ident (edge.update setProps) })
  | .error e, _, _ | _, .error e, _ | _, _, .error e => (.error e, g)

def getNode (g : InMemoryGraphStore) (baseLabel : String) (keyProps : Props) :
    Except PyErr (Option Props) :=
  (nodeKey baseLabel keyProps).map g.nodes.get?

def outNeighbors (g : InMemoryGraphStore) (srcLabel : String) (srcKey : Props)
    (relType : String) : Except PyErr (List (Props × Props)) :=
  (nodeKey srcLabel srcKey).map fun src =>
    g.edges.items.filterMap fun (ident, eprops) =>
      if ident.relType = relType ∧ ident.src = src then
        (g.nodes.get? ident.dst).map fun node => (node, eprops)
      else none

def nodesByLabel (g : InMemoryGraphStore) (baseLabel : String) : List Props :=
  (g.nodes.items.filter (·.1.label = baseLabel)).map Prod.snd

/-- The in-memory store as a handler of the protocol. -/
def handler : Handler StoreCall StoreCall.Reply PyErr InMemoryGraphStore
  | .upsertNode baseLabel keyProps setProps extraLabels, g =>
    g.upsertNode baseLabel keyProps setProps extraLabels
  | .upsertEdge relType srcLabel srcKey dstLabel dstKey keyProps setProps, g =>
    g.upsertEdge relType srcLabel srcKey dstLabel dstKey keyProps setProps
  | .getNode baseLabel keyProps, g => (g.getNode baseLabel keyProps, g)
  | .outNeighbors srcLabel srcKey relType, g => (g.outNeighbors srcLabel srcKey relType, g)
  | .nodesByLabel baseLabel, g => (.ok (g.nodesByLabel baseLabel), g)

end InMemoryGraphStore

end MarginKG
