import MarginKG.Verify.Writes

/-! The multi-label invariant: a stored node carries its base label, and further labels only on an
entity and only from the registered allow-list.

Labels are the property `_labels` of a node, and attribute maps are merged into the same
properties. The invariant therefore holds along the runs whose attribute maps leave `_labels`
alone and whose entities take no other base label as their subtype (`Op.LabelsKept`), and an
operation outside of them can break it (`labels_overwritten`, `labels_confused`). -/

namespace MarginKG

/-- The attribute map supplies no labels. -/
def KeepsLabels (attributes : Props) : Prop := (clean attributes).get? "_labels" = none

instance (attributes : Props) : Decidable (KeepsLabels attributes) :=
  inferInstanceAs (Decidable (_ = _))

/-- The label is one of the six base labels, and not that of an entity. -/
def OtherBaseLabel (label : String) : Prop :=
  label ∈ [CoreLabel.metric, .column, .document, .benchmark, .party].map CoreLabel.value

instance (label : String) : Decidable (OtherBaseLabel label) :=
  inferInstanceAs (Decidable (_ ∈ _))

theorem otherBaseLabel_iff :
    OtherBaseLabel label ↔ ∃ L : CoreLabel, L ≠ .entity ∧ label = L.value := by
  constructor
  · intro h
    obtain ⟨L, hL, rfl⟩ := List.mem_map.mp h
    exact ⟨L, by rintro rfl; simp at hL, rfl⟩
  · rintro ⟨L, hL, rfl⟩
    cases L <;> simp [OtherBaseLabel] at hL ⊢

/-- The entity brings no labels among its attributes, and its subtype is no other base label. -/
def ObservedEntity.LabelsKept (c : GraphClient) (ent : ObservedEntity) : Prop :=
  KeepsLabels ent.attributes ∧ ∀ label ∈ pickSubtype c ent.candidateLabels, ¬ OtherBaseLabel label

/-- The write leaves `_labels` alone and adds labels to an entity only, from the allow-list. -/
def Write.LabelsKept (c : GraphClient) : Write → Prop
  | .node n setProps extraLabels => setProps.get? "_labels" = none ∧
    ∀ label ∈ extraLabels, n.label = .entity ∧ label ∈ c.entitySubtypes ∧ ¬ OtherBaseLabel label
  | .link .. => True

theorem entityWrite_labelsKept {c : GraphClient} {subtypeLabel : Option String}
    {attributes : Props} (hsub : ∀ label ∈ subtypeLabel, label ∈ c.entitySubtypes)
    (hattrs : KeepsLabels attributes) (hother : ∀ label ∈ subtypeLabel, ¬ OtherBaseLabel label) :
    (entityWrite uid subtypeLabel attributes).LabelsKept c := by
  refine ⟨hattrs, fun label hlabel => ⟨rfl, ?_⟩⟩
  cases subtypeLabel with
  | none => simp at hlabel
  | some sub =>
    by_cases hsub' : sub = "" <;> simp [hsub'] at hlabel
    exact hlabel ▸ ⟨hsub sub rfl, hother sub rfl⟩

theorem ObservedEntity.LabelsKept.write {c : GraphClient} {ent : ObservedEntity}
    (h : ent.LabelsKept c) : (ent.write c).LabelsKept c :=
  entityWrite_labelsKept (fun label hl => by simpa using List.find?_some hl) h.1 h.2

theorem ParsedBundle.Writes.labelsKept {c : GraphClient} {b : ParsedBundle}
    (h : ∀ ent ∈ b.entities, ent.LabelsKept c) (hw : b.Writes c w) : w.LabelsKept c := by
  cases hw with
  | document => exact ⟨(get?_clean ..).trans rfl, by simp⟩
  | column => exact ⟨(get?_clean ..).trans rfl, by simp⟩
  | entity hent => exact (h _ hent).write
  | _ => trivial

theorem aliasWrite_labelsKept (c : GraphClient) (metricKey : String) (aliases : List Value) :
    (aliasWrite metricKey aliases).LabelsKept c := ⟨rfl, by simp⟩

/-! ## The invariant -/

/-- What is stored under a base label: that label, and only on an entity further ones, all of
them allow-listed and none of them another base label. -/
def InMemoryGraphStore.Labelled (g : InMemoryGraphStore) (allowed : Finset String) : Prop :=
  ∀ k node, g.nodes.get? k = some node → ∃ (L : CoreLabel) (labels : Finset String),
    k.label = L.value ∧ node.get? "_labels" = some (.set labels) ∧ L.value ∈ labels ∧
    ∀ label ∈ labels, label ≠ L.value → L = .entity ∧ label ∈ allowed ∧ ¬ OtherBaseLabel label

namespace InMemoryGraphStore

theorem Labelled.mono {g : InMemoryGraphStore} (h : g.Labelled allowed)
    (hsub : allowed ⊆ allowed') :
    g.Labelled allowed' := by
  intro k node hk
  obtain ⟨L, labels, hL, hlabels, hbase, hother⟩ := h k node hk
  refine ⟨L, labels, hL, hlabels, hbase, fun label hl hne => ?_⟩
  obtain ⟨hentity, hallowed, hcore⟩ := hother label hl hne
  exact ⟨hentity, hsub hallowed, hcore⟩

/-- The labels of a node before a write, or of a new node. -/
theorem Labelled.node {g : InMemoryGraphStore} (h : g.Labelled allowed) (n : NodeRef) :
    ∃ labels, (g.node n).get? "_labels" = some (.set labels) ∧ n.label.value ∈ labels ∧
      ∀ label ∈ labels, label ≠ n.label.value →
        n.label = .entity ∧ label ∈ allowed ∧ ¬ OtherBaseLabel label := by
  rcases hk : g.nodes.get? n.id with _ | node
  · refine ⟨{n.label.value}, by simp [InMemoryGraphStore.node, hk, freshNode], by simp, ?_⟩
    intro label hl hne
    exact absurd (Finset.mem_singleton.mp hl) hne
  · obtain ⟨L, labels, hL, hlabels, hbase, hother⟩ := h _ node hk
    have hL : n.label = L := CoreLabel.value_inj.mp hL
    subst hL
    exact ⟨labels, by simpa [InMemoryGraphStore.node, hk] using hlabels, hbase, hother⟩

/-- A write that leaves `_labels` alone adds its labels to those the node has. -/
theorem updateNode_labels {node setProps : Props} (h : node.get? "_labels" = some (.set labels))
    (hset : setProps.get? "_labels" = none) (extraLabels : List String) :
    updateNode node setProps extraLabels = (.ok (),
      (node.update setProps).set "_labels" (.set (labels ∪ extraLabels.toFinset))) := by
  have hlabels : (node.update setProps).get? "_labels" = some (.set labels) := by
    rw [Dict.get?_update, hset, h]; rfl
  simp only [updateNode, hlabels]

theorem Labelled.write {g : InMemoryGraphStore} {c : GraphClient} {w : Write}
    (h : g.Labelled c.entitySubtypes) (hw : w.LabelsKept c) :
    (handler w.call g).2.Labelled c.entitySubtypes := by
  cases w with
  | link l prov => rw [Labelled, nodes_link]; exact h
  | node n setProps extraLabels =>
    refine forall_nodes_node h fun _ => ?_
    obtain ⟨labels, hlabels, hbase, hother⟩ := h.node n
    rw [updateNode_labels hlabels hw.1]
    refine ⟨n.label, labels ∪ extraLabels.toFinset, rfl, by simp, by simp [hbase], ?_⟩
    intro label hl hne
    rcases Finset.mem_union.mp hl with hl | hl
    · exact hother label hl hne
    · exact hw.2 label (List.mem_toFinset.mp hl)

end InMemoryGraphStore

/-! ## Runs -/

section runs
variable [Python]

/-- The operation writes no labels but through subtypes, and no subtype that is another base
label. A call that the client refuses writes nothing. -/
def Op.LabelsKept (s : System) : Op → Prop
  | .client (.upsertEntity _ subtypeLabel attributes) =>
    (∀ label ∈ subtypeLabel, label ∈ s.client.entitySubtypes) →
      KeepsLabels attributes ∧ ∀ label ∈ subtypeLabel, ¬ OtherBaseLabel label
  | .client (.upsertMetric _ _ _ _ _ _ attributes) => KeepsLabels attributes
  | .client (.upsertBenchmark _ attributes) => KeepsLabels attributes
  | .client (.upsertParty _ attributes) => KeepsLabels attributes
  | .client _ => True
  | .loadPack pack => pack.validate = .ok () →
    (∀ m ∈ pack.metrics, KeepsLabels m.attributes) ∧
      ∀ b ∈ pack.benchmarks, KeepsLabels b.attributes
  | .loadBundle _ b => ∀ ent ∈ b.entities, ent.LabelsKept s.client
  | .resolve .. => True
  | .confirm .. => True
  | .runIngest source _ _ => ∀ artifact b, source.parse artifact = .ok b →
    ∀ ent ∈ b.entities, ent.LabelsKept s.client

theorem Op.LabelsKept.write {s : System} {op : Op} (hop : op.LabelsKept s)
    (hw : op.Writes s w) : w.LabelsKept s.client := by
  cases hw with
  | @client _ call hw =>
    cases hw with
    | newAlias => exact aliasWrite_labelsKept ..
    | write hw =>
      cases call with
      | upsertEntity uid subtypeLabel attributes =>
        simp only [ClientCall.write, Option.ite_none_right_eq_some, Option.some.injEq] at hw
        obtain ⟨hsub, rfl⟩ := hw
        obtain ⟨hattrs, hother⟩ := hop hsub
        exact entityWrite_labelsKept hsub hattrs hother
      | upsertMetric metricKey formula unit numeratorDef denominatorDef provenance attributes =>
        cases hw
        exact ⟨(get?_metricProps (by decide) ..).trans hop, by simp⟩
      | upsertBenchmark | upsertParty => cases hw; exact ⟨hop, by simp⟩
      | upsertColumn | upsertDocument => cases hw; exact ⟨(get?_clean ..).trans rfl, by simp⟩
      | relateEntities =>
        simp only [ClientCall.write, Option.ite_none_right_eq_some, Option.some.injEq] at hw
        obtain ⟨-, rfl⟩ := hw
        trivial
      | registerAllowlists | addMetricAlias => cases hw
      | _ => cases hw; trivial
  | loadPack hv hw =>
    obtain ⟨hmetrics, hbenchmarks⟩ := hop hv
    cases hw with
    | @metric m hm =>
      refine ⟨(get?_metricProps (by decide) ..).trans ?_, by simp⟩
      rw [m.get?_attrs (by decide)]
      exact hmetrics m hm
    | benchmark hb => exact ⟨hbenchmarks _ hb, by simp⟩
  | loadBundle hw => exact hw.labelsKept hop
  | link => trivial
  | newAlias => exact aliasWrite_labelsKept ..
  | runIngest hb hw => exact hw.labelsKept (hop _ _ hb)

/-- The subtypes that an operation registers. -/
def Op.registersSubtypes : Op → List String
  | .client (.registerAllowlists entitySubtypes _) => entitySubtypes
  | .loadPack pack => if pack.validate = .ok () then pack.entitySubtypes else []
  | _ => []

theorem Op.mem_entitySubtypes_next {s : System} {op : Op} :
    label ∈ (op.next s).client.entitySubtypes ↔
      label ∈ s.client.entitySubtypes ∨ label ∈ op.registersSubtypes := by
  rw [Op.next_client]
  cases op with
  | client call => cases call <;> simp [ClientCall.client, GraphClient.registerAllowlists,
      registersSubtypes]
  | loadPack pack =>
    rcases hv : pack.validate with e | _ <;>
      simp [MarginKG.loadPack, hv, GraphClient.registerAllowlists, registersSubtypes]
  | _ => simp [registersSubtypes]

/-- The multi-label invariant of a graph that a sequence of operations has led to. -/
def MultiLabel (ops : List Op) (g : InMemoryGraphStore) : Prop :=
  ∀ k node, g.nodes.get? k = some node → ∃ (L : CoreLabel) (labels : Finset String),
    k.label = L.value ∧ node.get? "_labels" = some (.set labels) ∧ L.value ∈ labels ∧
    (∀ M : CoreLabel, M.value ∈ labels → M = L) ∧
    ∀ label ∈ labels, label ≠ L.value → L = .entity ∧ ∃ op ∈ ops, label ∈ op.registersSubtypes

namespace System

theorem mem_entitySubtypes_after {s : System} {ops : List Op} :
    label ∈ (s.after ops).client.entitySubtypes ↔
      label ∈ s.client.entitySubtypes ∨ ∃ op ∈ ops, label ∈ op.registersSubtypes := by
  induction ops generalizing s with
  | nil => simp
  | cons op ops ih => simp [ih, Op.mem_entitySubtypes_next, or_assoc]

/-- An operation that keeps labels keeps the invariant. -/
theorem labelled_next {s : System} {op : Op} (hop : op.LabelsKept s)
    (h : s.graph.Labelled s.client.entitySubtypes) :
    (op.next s).graph.Labelled (op.next s).client.entitySubtypes := by
  refine InMemoryGraphStore.Labelled.mono ?_ fun label hl =>
    Op.mem_entitySubtypes_next.mpr (.inl hl)
  exact Op.next_graph (I := fun g => g.Labelled s.client.entitySubtypes)
    (fun w g hw hg => hg.write (hop.write hw)) h

theorem labelled_after {s : System} {ops : List Op}
    (hops : s.Meets (fun s op => op.LabelsKept s) ops)
    (h : s.graph.Labelled s.client.entitySubtypes) :
    (s.after ops).graph.Labelled (s.after ops).client.entitySubtypes :=
  after_induction (I := fun s => s.graph.Labelled s.client.entitySubtypes) hops h
    fun _ _ => labelled_next

/-- **Multi-label invariant**: along a run whose operations keep labels, every stored node
carries its base label and no other, and further labels only on an entity and from the subtypes
that the run has registered. -/
theorem multiLabel_after {ops : List Op}
    (hops : initial.Meets (fun s op => op.LabelsKept s) ops) :
    MultiLabel ops (initial.after ops).graph := by
  have hinit : initial.graph.Labelled initial.client.entitySubtypes := fun k node hk => by
    cases hk
  intro k node hk
  obtain ⟨L, labels, hL, hlabels, hbase, hother⟩ := labelled_after hops hinit k node hk
  refine ⟨L, labels, hL, hlabels, hbase, fun M hM => ?_, fun label hl hne => ?_⟩
  · by_contra hne
    obtain ⟨hentity, -, hcore⟩ := hother _ hM (by simpa using hne)
    subst hentity
    exact hcore (otherBaseLabel_iff.mpr ⟨M, hne, rfl⟩)
  · obtain ⟨hentity, hallowed, -⟩ := hother label hl hne
    exact ⟨hentity, (mem_entitySubtypes_after.mp hallowed).resolve_left (Finset.notMem_empty label)⟩

end System

end runs

namespace System

theorem multiLabel_after_widget :
    let ops : List Op := [
      .loadPack { name := "p", entitySubtypes := ["Widget"] },
      .client (.upsertEntity "u1" (some "Widget") (.ofList [("name", .str "first")]))]
    MultiLabel ops (initial.after ops).graph :=
  multiLabel_after ⟨fun _ => by decide, fun _ => by decide, trivial⟩

/-- Attributes that supply `_labels` replace the labels of their node, its base label included. -/
theorem labels_overwritten :
    let ops : List Op := [
      .client (.upsertEntity "u1" none (.ofList [("_labels", .set {"Metric"})]))]
    ¬ MultiLabel ops (initial.after ops).graph := by
  intro ops h
  obtain ⟨L, labels, hL, hlabels, hbase, -⟩ :=
    h (NodeRef.entity "u1").id _ (by decide : _ = some (Dict.ofList [
      ("uid", .str "u1"), ("_labels", .set {"Metric"})]))
  have hL : CoreLabel.entity = L := CoreLabel.value_inj.mp hL
  have hlabels : some (Value.set {"Metric"}) = some (.set labels) := hlabels
  subst hL
  cases hlabels
  exact absurd hbase (by decide)

end System

end MarginKG
