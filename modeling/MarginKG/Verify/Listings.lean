import MarginKG.Verify.History
import MarginKG.Verify.Visibility

/-! What `resolve_column` lists (`resolveColumn_lists_iff`).

The reading returns when every metric that the column measures shows a key under which its entities
can be looked up, and it lists one entry for each of them. -/

namespace MarginKG

open GraphStore InMemoryGraphStore PropertyGraph

section spec
variable {σ : Type} {h : Handler StoreCall StoreCall.Reply PyErr σ} {s : σ}

/-- How a store that is only read answers the calls of `resolve_column`. -/
structure AnswersColumn (h : Handler StoreCall StoreCall.Reply PyErr σ) (s : σ)
    (system table name : String) (column : Option Props) (neighbors : List (Props × Props))
    (entities : Value → Except PyErr (List (Props × Props))) : Prop where
  column : h (.getNode CoreLabel.column.value (columnKey system table name)) s = (.ok column, s)
  neighbors : h (.outNeighbors CoreLabel.column.value (columnKey system table name)
    RelType.measures.value) s = (.ok neighbors, s)
  entities : ∀ key, h (.outNeighbors CoreLabel.metric.value (metricKeyProps key)
    RelType.appliesTo.value) s = (entities key, s)

variable {neighbors : List (Props × Props)}
  {entities : Value → Except PyErr (List (Props × Props))}

/-- What a metric shows as its key leads to its entities. -/
def LeadsTo (entities : Value → Except PyErr (List (Props × Props))) (x : Props) (key : Value)
    (es : List (Props × Props)) : Prop :=
  x.get? "metric_key" = some key ∧ entities key = .ok es

theorem resolveMetric_run (hent : ∀ key, h (.outNeighbors CoreLabel.metric.value
      (metricKeyProps key) RelType.appliesTo.value) s = (entities key, s)) (pair : Props × Props) :
    ((GraphClient.resolveMetric pair).run h s).2 = s ∧
      ∀ entry, ((GraphClient.resolveMetric pair).run h s).1 = .ok entry ↔
        ∃ key es, LeadsTo entities pair.1 key es ∧ ⟨pair.1, es.map Prod.fst⟩ = entry := by
  rw [GraphClient.resolveMetric, metricKeyOf]
  rcases hkey : pair.1.get? "metric_key" with _ | key
  · simp [LeadsTo, hkey]
  · have hrun := hent key
    rcases hes : entities key with e | es <;> rw [hes] at hrun
    · simp [LeadsTo, hkey, hes, Program.run_call_error hrun]
    · simp [LeadsTo, hkey, hes, Program.run_call_ok hrun, Program.run]

/-- **What `resolve_column` lists**: it returns an entry of `P` exactly when the column is there,
every metric that it measures leads to entities, and one of them makes an entry of `P`. -/
theorem resolveColumn_lists_iff {system table name : String} {column : Option Props}
    (hans : AnswersColumn h s system table name column neighbors entities)
    {P : GraphClient.ResolvedMetric → Prop} :
    (∃ rc, ((GraphClient.resolveColumn system table name).run h s).1 = .ok (some rc) ∧
        ∃ entry ∈ rc.metrics, P entry) ↔
      column.isSome ∧ (∀ pair ∈ neighbors, ∃ key es, LeadsTo entities pair.1 key es) ∧
        ∃ pair ∈ neighbors, ∃ key es, LeadsTo entities pair.1 key es ∧
          P ⟨pair.1, es.map Prod.fst⟩ := by
  rw [GraphClient.resolveColumn_eq, Program.run_call_ok hans.column]
  rcases column with _ | column
  · simp [Program.run]
  dsimp only
  rw [Program.run_call_ok hans.neighbors, Program.run_bind,
    Program.run_mapM_read fun pair _ => (resolveMetric_run hans.entities pair).1]
  let step (pair : Props × Props) := ((GraphClient.resolveMetric pair).run h s).1
  have hstep (pair : Props × Props) (entry : GraphClient.ResolvedMetric) : step pair = .ok entry ↔
      ∃ key es, LeadsTo entities pair.1 key es ∧ ⟨pair.1, es.map Prod.fst⟩ = entry :=
    (resolveMetric_run hans.entities pair).2 entry
  have hall : (∀ pair ∈ neighbors, ∃ entry, step pair = .ok entry) ↔
      ∀ pair ∈ neighbors, ∃ key es, LeadsTo entities pair.1 key es := by
    simp only [hstep]
    refine forall₂_congr fun pair _ => ⟨?_, ?_⟩
    · rintro ⟨_, key, es, hleads, -⟩
      exact ⟨key, es, hleads⟩
    · rintro ⟨key, es, hleads⟩
      exact ⟨_, key, es, hleads, rfl⟩
  rw [← hall, ← Program.mapM_ok_iff, show neighbors.mapM _ = neighbors.mapM step from rfl]
  rcases hmetrics : neighbors.mapM step with e | metrics
  · simp
  · have hmem : (∃ entry ∈ metrics, P entry) ↔ ∃ pair ∈ neighbors, ∃ key es,
        LeadsTo entities pair.1 key es ∧ P ⟨pair.1, es.map Prod.fst⟩ := by
      rw [Program.exists_mem_mapM hmetrics]
      refine exists_congr fun pair => and_congr_right fun _ => ?_
      simp only [hstep]
      constructor
      · rintro ⟨_, ⟨key, es, hleads, rfl⟩, hP⟩
        exact ⟨key, es, hleads, hP⟩
      · rintro ⟨key, es, hleads, hP⟩
        exact ⟨_, ⟨key, es, hleads, rfl⟩, hP⟩
    rw [← hmem]
    simp [Program.run]

end spec

/-! ## In memory -/

namespace InMemoryGraphStore

variable {g : InMemoryGraphStore}

/-- An edge of the type leads from the node to the stored properties `x`. -/
def Reaches (g : InMemoryGraphStore) (n : NodeRef) (relType : String) (x : Props) : Prop :=
  ∃ ident e, g.edges.get? ident = some e ∧ ident.relType = relType ∧ ident.src = n.id ∧
    g.nodes.get? ident.dst = some x

/-- The pairs that `out_neighbors` returns for a node. -/
def neighbors (g : InMemoryGraphStore) (n : NodeRef) (relType : String) : List (Props × Props) :=
  g.edges.items.filterMap (g.shown n.id relType)

theorem mem_neighbors {n : NodeRef} : x ∈ (g.neighbors n relType).map Prod.fst ↔
    g.Reaches n relType x := by
  simp only [neighbors, List.mem_map, List.mem_filterMap]
  constructor
  · rintro ⟨⟨y, e⟩, ⟨⟨ident, e'⟩, hmem, hshown⟩, rfl⟩
    obtain ⟨⟨htype, hsrc⟩, node, hnode, heq⟩ := shown_eq_some.mp hshown
    cases heq
    exact ⟨ident, e, Dict.get?_of_mem hmem, htype, hsrc, hnode⟩
  · rintro ⟨ident, e, he, htype, hsrc, hnode⟩
    exact ⟨(x, e), ⟨(ident, e), Dict.mem_items.mpr he,
      shown_eq_some.mpr ⟨⟨htype, hsrc⟩, x, hnode, rfl⟩⟩, rfl⟩

/-- The properties show a key that a metric can be looked up by. -/
def ShowsKey (x : Props) : Prop := ∃ key, x.get? "metric_key" = some key ∧ key.hashable

theorem answersColumn (g : InMemoryGraphStore) (system table name : String) :
    AnswersColumn handler g system table name (g.nodes.get? (NodeRef.column system table name).id)
      (g.neighbors (.column system table name) RelType.measures.value)
      fun key => g.outNeighbors CoreLabel.metric.value (metricKeyProps key)
        RelType.appliesTo.value where
  column := Prod.ext (g.getNode_ref (n := .column system table name) rfl) rfl
  neighbors := Prod.ext (g.outNeighbors_of_nodeKey
    (NodeRef.nodeKey_of_hashable (n := .column system table name) rfl) _) rfl
  entities _ := rfl

theorem leadsTo_iff : LeadsTo (fun key => g.outNeighbors CoreLabel.metric.value
      (metricKeyProps key) RelType.appliesTo.value) x key es ↔
    x.get? "metric_key" = some key ∧ key.hashable ∧
      g.neighbors (.metric key) RelType.appliesTo.value = es := by
  refine and_congr_right fun _ => ?_
  change g.outNeighbors (NodeRef.metric key).label.value (NodeRef.metric key).key _ = _ ↔ _
  have hkey := NodeRef.nodeKey_eq (.metric key)
  by_cases hhash : key.hashable
  · rw [g.outNeighbors_of_nodeKey (hkey.trans (if_pos hhash)), Except.ok.injEq]
    exact (and_iff_right hhash).symm
  · have herr : nodeKey (NodeRef.metric key).label.value (NodeRef.metric key).key = _ :=
      hkey.trans (if_neg hhash)
    rw [outNeighbors, herr]
    exact iff_of_false (fun he => by cases he) fun h => hhash h.1

theorem lists_iff (g : InMemoryGraphStore) (system table name : String)
    {P : GraphClient.ResolvedMetric → Prop} :
    (∃ rc, ((GraphClient.resolveColumn system table name).run handler g).1 = .ok (some rc) ∧
        ∃ entry ∈ rc.metrics, P entry) ↔
      (g.nodes.get? (NodeRef.column system table name).id).isSome ∧
        (∀ x, g.Reaches (.column system table name) RelType.measures.value x → ShowsKey x) ∧
        ∃ x key, g.Reaches (.column system table name) RelType.measures.value x ∧
          x.get? "metric_key" = some key ∧ key.hashable ∧
          P ⟨x, (g.neighbors (.metric key) RelType.appliesTo.value).map Prod.fst⟩ := by
  rw [resolveColumn_lists_iff (g.answersColumn system table name)]
  simp only [leadsTo_iff]
  refine and_congr_right fun _ => and_congr ?_ ?_
  · simp only [← mem_neighbors, List.forall_mem_map]
    refine forall₂_congr fun pair _ => exists_congr fun key => ?_
    simp
  · simp only [← mem_neighbors, List.mem_map]
    constructor
    · rintro ⟨pair, hpair, key, es, ⟨hkey, hhash, rfl⟩, hP⟩
      exact ⟨pair.1, key, ⟨pair, hpair, rfl⟩, hkey, hhash, hP⟩
    · rintro ⟨_, key, ⟨pair, hpair, rfl⟩, hkey, hhash, hP⟩
      exact ⟨pair, hpair, key, _, ⟨hkey, hhash, rfl⟩, hP⟩

end InMemoryGraphStore

/-! ## Over Neo4j -/

namespace Neo4jGraphStore

variable [Python] [RowOrder] {pg : Neo4jGraph}

/-- An edge of the type leads from a node that the key finds to the node `d`. -/
def Reaches (pg : Neo4jGraph) (n : NodeRef) (relType : String) (d : Node String String Value) :
    Prop :=
  ∃ i ∈ pg.matchNodes n.label.value n.key, ∃ e ∈ pg.edges, e.relType = relType ∧ e.src = i ∧
    pg.nodes[e.dst]? = some d

/-- The pairs that `out_neighbors` returns for a node. -/
def neighbors (pg : Neo4jGraph) (n : NodeRef) (relType : String) : List (Props × Props) :=
  RowOrder.rows (.outNeighbors n.label.value n.key relType) (links pg n relType)

omit [Python] in
theorem mem_neighbors {n : NodeRef} : x ∈ (neighbors pg n relType).map Prod.fst ↔
    ∃ d, Reaches pg n relType d ∧ record d = x := by
  simp only [neighbors, links, List.mem_map, RowOrder.mem_rows, List.mem_flatMap, Prod.exists,
    mem_outgoing]
  constructor
  · rintro ⟨_, r, ⟨d, r', ⟨i, hi, e, he, htype, hsrc, hd, -⟩, heq⟩, rfl⟩
    cases heq
    exact ⟨d, ⟨i, hi, e, he, htype, hsrc, hd⟩, rfl⟩
  · rintro ⟨d, ⟨i, hi, e, he, htype, hsrc, hd⟩, rfl⟩
    exact ⟨_, e.props, ⟨d, e.props, ⟨i, hi, e, he, htype, hsrc, hd, rfl⟩, rfl⟩, rfl⟩

omit [Python] [RowOrder] in
theorem record_metric_key (d : Node String String Value) :
    (record d).get? "metric_key" = d.props.get? "metric_key" := Dict.get?_set_of_ne (by decide)

theorem answersColumn (pg : Neo4jGraph) (system table name : String) :
    AnswersColumn handler pg system table name
      (found pg (.column system table name))
      (neighbors pg (.column system table name) RelType.measures.value)
      fun key => .ok (neighbors pg (.metric key) RelType.appliesTo.value) where
  column := Prod.ext (getNode_ref pg (.column system table name)) rfl
  neighbors := Prod.ext (outNeighbors_ref pg (.column system table name)
    (checkIdent_of_isIdent RelType.measures.isIdent)) rfl
  entities key := Prod.ext (outNeighbors_ref pg (.metric key)
    (checkIdent_of_isIdent RelType.appliesTo.isIdent)) rfl

theorem lists_iff (pg : Neo4jGraph) (system table name : String)
    {P : GraphClient.ResolvedMetric → Prop} :
    (∃ rc, ((GraphClient.resolveColumn system table name).run handler pg).1 = .ok (some rc) ∧
        ∃ entry ∈ rc.metrics, P entry) ↔
      (∃ a ∈ pg.nodes, (NodeRef.column system table name).fits a = true) ∧
        (∀ d, Reaches pg (.column system table name) RelType.measures.value d →
          (d.props.get? "metric_key").isSome) ∧
        ∃ d key, Reaches pg (.column system table name) RelType.measures.value d ∧
          d.props.get? "metric_key" = some key ∧
          P ⟨record d, (neighbors pg (.metric key) RelType.appliesTo.value).map Prod.fst⟩ := by
  rw [resolveColumn_lists_iff (answersColumn pg system table name), isSome_found]
  simp only [LeadsTo, Except.ok.injEq]
  refine and_congr_right fun _ => and_congr ?_ ?_
  · constructor
    · intro hall d hd
      obtain ⟨pair, hpair, hrecord⟩ := List.mem_map.mp (mem_neighbors.mpr ⟨d, hd, rfl⟩)
      obtain ⟨key, es, hkey, -⟩ := hall pair hpair
      rw [hrecord, record_metric_key] at hkey
      exact Option.isSome_of_eq_some hkey
    · intro hall pair hpair
      obtain ⟨d, hd, hrecord⟩ := mem_neighbors.mp (List.mem_map_of_mem hpair)
      obtain ⟨key, hkey⟩ := Option.isSome_iff_exists.mp (hall d hd)
      exact ⟨key, _, by rw [← hrecord, record_metric_key, hkey], rfl⟩
  · constructor
    · rintro ⟨pair, hpair, key, es, ⟨hkey, rfl⟩, hP⟩
      obtain ⟨d, hd, hrecord⟩ := mem_neighbors.mp (List.mem_map_of_mem hpair)
      rw [← hrecord] at hkey hP
      exact ⟨d, key, hd, (record_metric_key d).symm.trans hkey, hP⟩
    · rintro ⟨d, key, hd, hkey, hP⟩
      obtain ⟨pair, hpair, hrecord⟩ := List.mem_map.mp (mem_neighbors.mpr ⟨d, hd, rfl⟩)
      refine ⟨pair, hpair, key, _, ⟨?_, rfl⟩, ?_⟩
      · rw [hrecord, record_metric_key, hkey]
      · rwa [hrecord]

end Neo4jGraphStore

end MarginKG
