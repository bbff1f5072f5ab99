import MarginKG.Graph.Client

/-! The graph in the terms of the ontology: a node is named by its identity, a link by its type,
its endpoints and its role. `GraphClient` writes nothing else. Each of its writes is a `Write`,
and this module says what a write does to the in-memory store. -/

namespace MarginKG

/-- A node of the ontology, by the identity its label fixes. -/
inductive NodeRef where
  | entity (uid : String)
  | metric (metricKey : Value)
  | column (system table name : String)
  | document (uri : String)
  | benchmark (benchmarkKey : String)
  | party (uid : String)
  deriving DecidableEq

namespace NodeRef

def label : NodeRef → CoreLabel
  | entity _ => .entity
  | metric _ => .metric
  | column .. => .column
  | document _ => .document
  | benchmark _ => .benchmark
  | party _ => .party

/-- The properties that identify the node. -/
def key : NodeRef → Props
  | entity uid => entityKey uid
  | metric metricKey => metricKeyProps metricKey
  | column system table name => columnKey system table name
  | document uri => documentKey uri
  | benchmark benchmarkKey => benchmarkKeyProps benchmarkKey
  | party uid => partyKey uid

/-- The identity of the node in the store. -/
def id (n : NodeRef) : NodeKey := ⟨n.label.value, n.key.items.toFinset⟩

theorem label_of_id {n : NodeRef} {L : CoreLabel} (h : n.id.label = L.value) : n.label = L :=
  CoreLabel.value_inj.mp h

/-- Only a metric key that was read back from a property can fail to be hashable. -/
def hashable : NodeRef → Bool
  | metric metricKey => metricKey.hashable
  | _ => true

theorem hashable_values (n : NodeRef) : n.key.values.all Value.hashable = n.hashable := by
  cases n <;> simp [key, hashable, entityKey, metricKeyProps, columnKey, documentKey,
    benchmarkKeyProps, partyKey, Dict.ofList, Dict.set, Dict.values, Entries.set, Dict.empty,
    Value.hashable]

theorem frozenset_key (n : NodeRef) :
    frozenset n.key = if n.hashable then .ok n.key.items.toFinset else .error .typeError := by
  rw [frozenset, hashable_values]

theorem nodeKey_eq (n : NodeRef) :
    nodeKey n.label.value n.key = if n.hashable then .ok n.id else .error .typeError := by
  rw [nodeKey, frozenset_key]
  split <;> rfl

theorem nodeKey_of_hashable {n : NodeRef} (hn : n.hashable) :
    nodeKey n.label.value n.key = .ok n.id := by
  rw [nodeKey_eq, if_pos hn]

/-- The fields of the identity are those `CORE_CONSTRAINTS` declares for the label. -/
theorem keys_key (n : NodeRef) : n.key.keys = n.label.identity := by
  cases n <;> rfl

theorem id_injective : Function.Injective id := by
  intro m n h
  obtain ⟨hlabel, hkey⟩ := NodeKey.mk.inj h
  have hget (f : String) : m.key.get? f = n.key.get? f := congrFun (Dict.toFinset_inj.mp hkey) f
  cases m <;> cases n <;> simp only [label, CoreLabel.value_inj, reduceCtorEq] at hlabel
  case entity u v =>
    have h : some (Value.str u) = some (.str v) := hget "uid"
    cases h; rfl
  case metric u v =>
    have h : some u = some v := hget "metric_key"
    cases h; rfl
  case column s t n s' t' n' =>
    have hs : some (Value.str s) = some (.str s') := hget "system"
    have ht : some (Value.str t) = some (.str t') := hget "table"
    have hn : some (Value.str n) = some (.str n') := hget "name"
    cases hs; cases ht; cases hn; rfl
  case document u v =>
    have h : some (Value.str u) = some (.str v) := hget "uri"
    cases h; rfl
  case benchmark u v =>
    have h : some (Value.str u) = some (.str v) := hget "benchmark_key"
    cases h; rfl
  case party u v =>
    have h : some (Value.str u) = some (.str v) := hget "uid"
    cases h; rfl

/-- Two nodes of one label are told apart by a field of their identity. -/
theorem eq_of_identity {n n' : NodeRef} (hlabel : n.label = n'.label)
    (hkey : ∀ f ∈ n.label.identity, n.key.get? f = n'.key.get? f) : n = n' := by
  apply id_injective
  rw [id, id, hlabel]
  refine congrArg _ (Dict.toFinset_inj.mpr (funext fun f => ?_))
  by_cases hf : f ∈ n.label.identity
  · exact hkey f hf
  · rw [Dict.get?_eq_none.mpr (n.keys_key ▸ hf), Dict.get?_eq_none.mpr (n'.keys_key ▸ hlabel ▸ hf)]

end NodeRef

/-- A link between two nodes, by its identity. -/
inductive Link where
  | measures (system table name : String) (metricKey : Value)
  | appliesTo (metricKey : Value) (entityUid : String)
  | definedIn (metricKey uri : String)
  | benchmarkedAgainst (metricKey benchmarkKey : String)
  | computedFrom (metricKey sourceMetricKey : String)
  | describes (uri entityUid : String)
  | hasRole (partyUid entityUid role : String)
  | related (relType subjectUid objectUid role : String)
  deriving DecidableEq

namespace Link

def relType : Link → String
  | measures .. => RelType.measures.value
  | appliesTo .. => RelType.appliesTo.value
  | definedIn .. => RelType.definedIn.value
  | benchmarkedAgainst .. => RelType.benchmarkedAgainst.value
  | computedFrom .. => RelType.computedFrom.value
  | describes .. => RelType.describes.value
  | hasRole .. => RelType.hasRole.value
  | related relType .. => relType

def source : Link → NodeRef
  | measures system table name _ => .column system table name
  | appliesTo metricKey _ => .metric metricKey
  | definedIn metricKey _ => .metric (.str metricKey)
  | benchmarkedAgainst metricKey _ => .metric (.str metricKey)
  | computedFrom metricKey _ => .metric (.str metricKey)
  | describes uri _ => .document uri
  | hasRole partyUid .. => .party partyUid
  | related _ subjectUid .. => .entity subjectUid

def target : Link → NodeRef
  | measures _ _ _ metricKey => .metric metricKey
  | appliesTo _ entityUid => .entity entityUid
  | definedIn _ uri => .document uri
  | benchmarkedAgainst _ benchmarkKey => .benchmark benchmarkKey
  | computedFrom _ sourceMetricKey => .metric (.str sourceMetricKey)
  | describes _ entityUid => .entity entityUid
  | hasRole _ entityUid _ => .entity entityUid
  | related _ _ objectUid _ => .entity objectUid

/-- The properties that tell the link from others of its type between the same nodes. -/
def key : Link → Props
  | hasRole _ _ role => roleKey role
  | related _ _ _ role => roleKey role
  | _ => ∅

/-- The identity of the link in the store. -/
def ident (l : Link) : EdgeIdent :=
  ⟨l.relType, l.source.id, l.target.id, l.key.items.toFinset⟩

def hashable (l : Link) : Bool := l.source.hashable && l.target.hashable

theorem frozenset_key (l : Link) : frozenset l.key = .ok l.key.items.toFinset := by
  cases l <;> rfl

/-- No two links share their identity: a link that `relate_entities` makes may carry the type
of the spine, but no other link joins two entities. -/
theorem ident_injective : Function.Injective ident := by
  intro l m h
  have htype : l.relType = m.relType := congrArg EdgeIdent.relType h
  have hsrc : l.source = m.source := NodeRef.id_injective (congrArg EdgeIdent.src h)
  have hdst : l.target = m.target := NodeRef.id_injective (congrArg EdgeIdent.dst h)
  have hrole : l.key.get? "role" = m.key.get? "role" :=
    congrFun (Dict.toFinset_inj.mp (congrArg EdgeIdent.key h)) "role"
  clear h
  cases l <;> cases m <;> simp only [source, target, reduceCtorEq] at hsrc hdst
  case measures.measures => cases hsrc; cases hdst; rfl
  case appliesTo.appliesTo => cases hsrc; cases hdst; rfl
  case definedIn.definedIn => cases hsrc; cases hdst; rfl
  case benchmarkedAgainst.benchmarkedAgainst => cases hsrc; cases hdst; rfl
  case computedFrom.computedFrom => cases hsrc; cases hdst; rfl
  case describes.describes => cases hsrc; cases hdst; rfl
  case hasRole.hasRole r _ _ r' =>
    have hr : some (Value.str r) = some (.str r') := hrole
    cases hsrc; cases hdst; cases hr; rfl
  case related.related t _ _ r t' _ _ r' =>
    have hr : some (Value.str r) = some (.str r') := hrole
    have ht : t = t' := htype
    cases hsrc; cases hdst; cases hr; cases ht; rfl

/-- The call of the store that makes the link. -/
def call (l : Link) (prov : EdgeProvenance) : StoreCall :=
  .upsertEdge l.relType l.source.label.value l.source.key l.target.label.value l.target.key
    l.key prov.setProps

theorem eq_of_call {l m : Link} (h : l.call prov = m.call prov') : l = m := by
  apply ident_injective
  simp only [call, StoreCall.upsertEdge.injEq, CoreLabel.value_inj] at h
  obtain ⟨htype, hsl, hsk, htl, htk, hkey, -⟩ := h
  simp only [ident, NodeRef.id, htype, hsl, hsk, htl, htk, hkey]

end Link

theorem EdgeProvenance.setProps_injective : Function.Injective EdgeProvenance.setProps := by
  intro p q h
  have hget (f : String) : p.setProps.get? f = q.setProps.get? f := by rw [h]
  have hs : some (Value.str p.sourceRef) = some (.str q.sourceRef) := hget "source_ref"
  have ha : some (Value.str p.asOf) = some (.str q.asOf) := hget "as_of"
  have hc : some (Value.str p.createdBy) = some (.str q.createdBy) := hget "created_by"
  cases p; cases q; cases hs; cases ha; cases hc; rfl

/-- A write of `GraphClient`. -/
inductive Write where
  | node (n : NodeRef) (setProps : Props) (extraLabels : List String)
  | link (l : Link) (prov : EdgeProvenance)
  deriving DecidableEq

namespace Write

def call : Write → StoreCall
  | node n setProps extraLabels => .upsertNode n.label.value n.key setProps extraLabels
  | link l prov => l.call prov

theorem call_injective : Function.Injective call := by
  intro v w h
  cases v <;> cases w <;> simp only [call] at h
  case node.node m _ _ n _ _ =>
    simp only [StoreCall.upsertNode.injEq, CoreLabel.value_inj] at h
    obtain ⟨hlabel, hkey, rfl, rfl⟩ := h
    have : m = n := NodeRef.id_injective (by rw [NodeRef.id, NodeRef.id, hlabel, hkey])
    rw [this]
  case link.link =>
    cases Link.eq_of_call h
    simp only [Link.call, StoreCall.upsertEdge.injEq, true_and] at h
    rw [EdgeProvenance.setProps_injective h]
  all_goals cases h

/-- The program that makes the write. -/
def program (w : Write) : StoreProgram Unit := .call w.call fun _ => .ret ()

/-- A program that makes one write ends as the write does. -/
theorem run_program (h : Handler StoreCall StoreCall.Reply PyErr σ) (w : Write) (s : σ) :
    w.program.run h s = ((h w.call s).1.map fun _ => (), (h w.call s).2) := by
  rcases hw : h w.call s with ⟨e | r, s'⟩
  · rw [program, Program.run_call_error hw]; rfl
  · rw [program, Program.run_call_ok hw]; rfl

end Write

/-! ## Writes to the in-memory store -/

namespace InMemoryGraphStore

theorem getNode_ref (g : InMemoryGraphStore) {n : NodeRef} (hn : n.hashable) :
    g.getNode n.label.value n.key = .ok (g.nodes.get? n.id) := by
  rw [getNode, NodeRef.nodeKey_of_hashable hn]
  rfl

/-- The pair that `out_neighbors` returns for an edge, when it is one of those asked for and its
target is stored. -/
def shown (g : InMemoryGraphStore) (src : NodeKey) (relType : String) (item : EdgeIdent × Props) :
    Option (Props × Props) :=
  if item.1.relType = relType ∧ item.1.src = src then
    (g.nodes.get? item.1.dst).map fun node => (node, item.2)
  else none

theorem shown_eq_some {g : InMemoryGraphStore} : g.shown src relType (ident, e) = some pair ↔
    (ident.relType = relType ∧ ident.src = src) ∧
      ∃ node, g.nodes.get? ident.dst = some node ∧ (node, e) = pair := by
  rw [shown, Option.ite_none_right_eq_some, Option.map_eq_some_iff]

theorem outNeighbors_of_nodeKey (g : InMemoryGraphStore) {label : String} {key : Props}
    (hk : nodeKey label key = .ok src) (relType : String) :
    g.outNeighbors label key relType = .ok (g.edges.items.filterMap (g.shown src relType)) := by
  rw [outNeighbors, hk]
  rfl

/-- The stored properties of a node, or those of a new one. -/
def node (g : InMemoryGraphStore) (n : NodeRef) : Props :=
  (g.nodes.get? n.id).getD (freshNode n.label.value n.key)

theorem handler_node (g : InMemoryGraphStore) (n : NodeRef) (setProps : Props)
    (extraLabels : List String) :
    handler (Write.node n setProps extraLabels).call g =
      if n.hashable then
        ((updateNode (g.node n) setProps extraLabels).1,
          { g with nodes := g.nodes.set n.id (updateNode (g.node n) setProps extraLabels).2 })
      else (.error .typeError, g) := by
  simp only [Write.call, handler, upsertNode, NodeRef.nodeKey_eq]
  by_cases h : n.hashable <;> simp only [h, if_true] <;> rfl

theorem handler_node_of_hashable (g : InMemoryGraphStore) {n : NodeRef} (hn : n.hashable)
    (setProps : Props) (extraLabels : List String) :
    handler (Write.node n setProps extraLabels).call g =
      ((updateNode (g.node n) setProps extraLabels).1,
        { g with nodes := g.nodes.set n.id (updateNode (g.node n) setProps extraLabels).2 }) := by
  rw [handler_node, if_pos hn]

theorem get?_nodes_node (g : InMemoryGraphStore) (n : NodeRef) (setProps : Props)
    (extraLabels : List String) (k : NodeKey) :
    (handler (Write.node n setProps extraLabels).call g).2.nodes.get? k =
      if n.hashable ∧ n.id = k then some (updateNode (g.node n) setProps extraLabels).2
      else g.nodes.get? k := by
  rw [handler_node]
  by_cases hn : n.hashable <;> simp [hn, Dict.get?_set]

/-- What holds of every stored node and of the node a write leaves behind, holds of every node
after the write. -/
theorem forall_nodes_node {g : InMemoryGraphStore} {P : NodeKey → Props → Prop}
    (h : ∀ k x, g.nodes.get? k = some x → P k x) {n : NodeRef} {setProps : Props}
    {extraLabels : List String}
    (hnew : n.hashable → P n.id (updateNode (g.node n) setProps extraLabels).2) :
    ∀ k x, (handler (Write.node n setProps extraLabels).call g).2.nodes.get? k = some x →
      P k x := by
  intro k x hk
  rw [get?_nodes_node] at hk
  split at hk
  · rename_i hn
    cases hk
    exact hn.2 ▸ hnew hn.1
  · exact h k x hk

/-- The stored properties of a link, or those of a new one. -/
def link (g : InMemoryGraphStore) (l : Link) : Props := (g.edges.get? l.ident).getD l.key

theorem handler_link (g : InMemoryGraphStore) (l : Link) (prov : EdgeProvenance) :
    handler (Write.link l prov).call g =
      if l.hashable then
        (.ok (), { g with edges := g.edges.set l.ident ((g.link l).update prov.setProps) })
      else (.error .typeError, g) := by
  simp only [Write.call, Link.call, handler, upsertEdge, NodeRef.nodeKey_eq, Link.frozenset_key,
    Link.hashable]
  by_cases hs : l.source.hashable <;> by_cases ht : l.target.hashable <;>
    simp only [hs, ht, if_true, Bool.and_true, Bool.and_false] <;> rfl

theorem handler_link_of_hashable (g : InMemoryGraphStore) {l : Link} (hl : l.hashable)
    (prov : EdgeProvenance) :
    handler (Write.link l prov).call g =
      (.ok (), { g with edges := g.edges.set l.ident ((g.link l).update prov.setProps) }) := by
  rw [handler_link, if_pos hl]

theorem nodes_link (g : InMemoryGraphStore) (l : Link) (prov : EdgeProvenance) :
    (handler (Write.link l prov).call g).2.nodes = g.nodes := by
  rw [handler_link]
  split <;> rfl

end InMemoryGraphStore

end MarginKG
