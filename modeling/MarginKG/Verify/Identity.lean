import MarginKG.Theory.PropertyGraph
import MarginKG.Verify.AliasIndex
import MarginKG.Verify.History
import MarginKG.Verify.Spine

/-! Identity integrity: a stored node shows in its properties the identity that it is stored under.

The identity is kept twice, as the key of the node and among its properties, and the properties take
in the attribute maps of packs and connectors. The two copies agree along the runs whose attribute
maps give the identity fields no other value (`Op.KeepsIdentity`); `identity_overwritten` is a run
outside of them. -/

namespace MarginKG

open InMemoryGraphStore

/-- The attribute map gives the fields that identify the node no other value than they have. -/
def KeepsIdentity (n : NodeRef) (attributes : Props) : Prop :=
  ∀ f ∈ n.label.identity, ∀ v ∈ (clean attributes).get? f, n.key.get? f = some v

instance (n : NodeRef) (attributes : Props) : Decidable (KeepsIdentity n attributes) :=
  inferInstanceAs (Decidable (∀ f ∈ n.label.identity, _))

/-- The write gives the fields that identify its node no other value than they have. -/
def Write.KeepsIdentity : Write → Prop
  | .node n setProps _ =>
    ∀ f ∈ n.label.identity, ∀ v ∈ setProps.get? f, n.key.get? f = some v
  | .link .. => True

/-- The properties have the identity of the node. -/
def Shows (n : NodeRef) (x : Props) : Prop := ∀ f ∈ n.label.identity, x.get? f = n.key.get? f

/-- Every node has the identity that it is stored under, which is one of the ontology. -/
def InMemoryGraphStore.Identified (g : InMemoryGraphStore) : Prop :=
  ∀ k x, g.nodes.get? k = some x → ∃ n : NodeRef, n.id = k ∧ Shows n x

/-- Every edge is a link of the ontology. -/
def InMemoryGraphStore.AllLinks (g : InMemoryGraphStore) : Prop :=
  ∀ ident e, g.edges.get? ident = some e → ∃ l : Link, l.ident = ident

namespace InMemoryGraphStore

/-- A node before a write shows its identity. -/
theorem Identified.node {g : InMemoryGraphStore} (h : g.Identified) (n : NodeRef) :
    Shows n (g.node n) := by
  intro f hf
  rcases hx : g.nodes.get? n.id with _ | x
  · have hne : "_labels" ≠ f := fun heq => labels_not_mem_identity n.label (heq ▸ hf)
    rw [InMemoryGraphStore.node, hx, Option.getD_none, freshNode, Dict.get?_set_of_ne hne]
  · obtain ⟨m, hid, hshows⟩ := h _ x hx
    cases NodeRef.id_injective hid
    rw [InMemoryGraphStore.node, hx]
    exact hshows f hf

theorem Identified.write {g : InMemoryGraphStore} {w : Write} (h : g.Identified)
    (hw : w.KeepsIdentity) : (handler w.call g).2.Identified := by
  cases w with
  | link l prov => rw [Identified, nodes_link]; exact h
  | node n setProps extraLabels =>
    refine forall_nodes_node h fun _ => ⟨n, rfl, fun f hf => ?_⟩
    have hne : f ≠ "_labels" := fun heq => labels_not_mem_identity n.label (heq ▸ hf)
    rw [updateNode_get? hne, h.node n f hf]
    rcases hv : setProps.get? f with _ | v
    · rfl
    · exact (hw f hf v hv).symm

theorem AllLinks.write {g : InMemoryGraphStore} {w : Write} (h : g.AllLinks) :
    (handler w.call g).2.AllLinks := by
  cases w with
  | node => rw [AllLinks, handler_node_edges]; exact h
  | link l prov =>
    rw [handler_link]
    split
    · intro ident e he
      by_cases hident : l.ident = ident
      · exact ⟨l, hident⟩
      · exact h ident e ((Dict.get?_set_of_ne hident).symm.trans he)
    · exact h

end InMemoryGraphStore

/-! ## What is read back -/

section reads
variable [Python]

/-- Every node shows the identity that it is stored under, and no other node of its label does.
Metric keys that are read back from properties name the nodes that they are read from. -/
structure InMemoryGraphStore.IdentityKept (g : InMemoryGraphStore) : Prop where
  shows : ∀ k x, g.nodes.get? k = some x → ∃ L : CoreLabel, k.label = L.value ∧
    k.key.image Prod.fst = L.identity.toFinset ∧ ∀ f v, (f, v) ∈ k.key → x.get? f = some v
  apart : ∀ k k' x x' (L : CoreLabel), g.nodes.get? k = some x → g.nodes.get? k' = some x' →
    k.label = L.value → k'.label = L.value → (∀ f ∈ L.identity, x.get? f = x'.get? f) → k = k'
  aliases : ∀ index g', GraphClient.metricAliases.run handler g = (.ok index, g') →
    ∀ name v, index.get? name = some v →
      ∃ x, g.nodes.get? (NodeRef.metric v).id = some x ∧ answer name x = some v
  terms : ∀ index g', GraphClient.metricTerms.run handler g = (.ok index, g') →
    ∀ metricKey ts, index.get? metricKey = some ts →
      ∃ x, g.nodes.get? (NodeRef.metric (.str metricKey)).id = some x ∧
        termsOf x = .ok (metricKey, ts)
  columns : ∀ system table name column g',
    (GraphClient.resolveColumn system table name).run handler g = (.ok (some column), g') →
      ∀ m ∈ column.metrics, ∃ v, metricKeyOf m.metric = .ok v ∧
        g.nodes.get? (NodeRef.metric v).id = some m.metric ∧
        ∃ e, g.edges.get? (Link.measures system table name v).ident = some e

variable {g : InMemoryGraphStore}

namespace InMemoryGraphStore.Identified

omit [Python] in
/-- The key that a metric shows is its own. -/
theorem of_metric_key (h : g.Identified) (hk : g.nodes.get? k = some x)
    (hlabel : k.label = CoreLabel.metric.value) (hv : x.get? "metric_key" = some v) :
    k = (NodeRef.metric v).id := by
  obtain ⟨n, rfl, hshows⟩ := h k x hk
  have hn := NodeRef.label_of_id hlabel
  cases n <;> cases hn
  rename_i key
  have hkey : x.get? "metric_key" = some key := hshows "metric_key" List.mem_cons_self
  cases hv.symm.trans hkey
  rfl

omit [Python] in
theorem of_mem_metrics (h : g.Identified) (hm : m ∈ g.metrics)
    (hv : m.get? "metric_key" = some v) : g.nodes.get? (NodeRef.metric v).id = some m := by
  obtain ⟨k, hlabel, hk⟩ := mem_metrics.mp hm
  exact h.of_metric_key hk hlabel hv ▸ hk

theorem aliases (h : g.Identified)
    (hrun : GraphClient.metricAliases.run handler g = (.ok index, g'))
    (hv : index.get? name = some v) :
    ∃ x, g.nodes.get? (NodeRef.metric v).id = some x ∧ answer name x = some v := by
  rw [metricAliases_run, Prod.mk.injEq] at hrun
  rw [(aliasIndex_ok hrun.1).2] at hv
  obtain ⟨m, hm, hans⟩ := lookup_mem hv
  exact ⟨m, h.of_mem_metrics hm (answer_key hans), hans⟩

theorem terms (h : g.Identified)
    (hrun : GraphClient.metricTerms.run handler g = (.ok index, g'))
    (hts : index.get? metricKey = some ts) :
    ∃ x, g.nodes.get? (NodeRef.metric (.str metricKey)).id = some x ∧
      termsOf x = .ok (metricKey, ts) := by
  rw [metricTerms_run, Prod.mk.injEq] at hrun
  obtain ⟨m, hm, hterms⟩ := termIndex_mem hrun.1 hts
  exact ⟨m, h.of_mem_metrics hm (termsOf_key hterms), hterms⟩

/-- The resolved metric was read from the neighbor, and its key from its properties. -/
def ReadFrom (pair : Props × Props) (m : GraphClient.ResolvedMetric) : Prop :=
  m.metric = pair.1 ∧ ∃ v, metricKeyOf m.metric = .ok v

omit [Python] in
theorem resolveMetric_readFrom (pair : Props × Props) :
    (GraphClient.resolveMetric pair).Returns (ReadFrom pair) := by
  rw [GraphClient.resolveMetric]
  rcases hk : metricKeyOf pair.1 with e | v
  · trivial
  · exact fun _ => ⟨rfl, v, hk⟩

omit [Python] in
/-- A metric that a column resolves to is the target of a link from it. -/
theorem columns (h : g.Identified) (hlinks : g.AllLinks)
    (hrun : (GraphClient.resolveColumn system table name).run handler g = (.ok (some column), g'))
    (hm : m ∈ column.metrics) : ∃ v, metricKeyOf m.metric = .ok v ∧
      g.nodes.get? (NodeRef.metric v).id = some m.metric ∧
      ∃ e, g.edges.get? (Link.measures system table name v).ident = some e := by
  have hcol : (NodeRef.column system table name).hashable := rfl
  have hkey := NodeRef.nodeKey_of_hashable hcol
  have hcall : handler (.getNode CoreLabel.column.value (columnKey system table name)) g =
      (.ok (g.nodes.get? (NodeRef.column system table name).id), g) :=
    Prod.ext (g.getNode_ref hcol) rfl
  rw [GraphClient.resolveColumn_eq, Program.run_call_ok hcall] at hrun
  rcases hx : g.nodes.get? (NodeRef.column system table name).id with _ | x <;> rw [hx] at hrun
  · cases hrun
  let neighbors := g.edges.items.filterMap
    (g.shown (NodeRef.column system table name).id RelType.measures.value)
  have hcall : handler (.outNeighbors CoreLabel.column.value (columnKey system table name)
      RelType.measures.value) g = (.ok neighbors, g) :=
    Prod.ext (g.outNeighbors_of_nodeKey hkey _) rfl
  dsimp only at hrun
  rw [Program.run_call_ok hcall] at hrun
  have hreads : Program.Returns
      (fun r : Option GraphClient.ResolvedColumn => ∀ column ∈ r,
        List.Forall₂ ReadFrom neighbors column.metrics)
      (neighbors.mapM GraphClient.resolveMetric >>= fun metrics => .ret (some ⟨x, metrics⟩)) :=
    (Program.Returns.mapM resolveMetric_readFrom).bind fun metrics hmetrics => by
      rintro column ⟨⟩
      exact hmetrics
  obtain ⟨pair, hpair, hmetric, v, hv⟩ := exists_mem_of_forall₂ (hreads.run hrun column rfl) hm
  -- the neighbor is the target of a link from the column
  obtain ⟨⟨ident, e⟩, hitem, hshown⟩ := List.mem_filterMap.mp hpair
  obtain ⟨⟨htype, hsrc⟩, node, hnode, rfl⟩ := shown_eq_some.mp hshown
  have he : g.edges.get? ident = some e := Dict.mem_items.mp hitem
  clear hitem
  obtain ⟨l, rfl⟩ := hlinks ident e he
  have hsrc : l.source = .column system table name := NodeRef.id_injective hsrc
  cases l <;> cases hsrc
  rename_i key
  have hnode : g.nodes.get? (NodeRef.metric key).id = some m.metric := hmetric ▸ hnode
  have hkey : m.metric.get? "metric_key" = some v := by
    rw [metricKeyOf] at hv
    rcases hget : m.metric.get? "metric_key" with _ | v' <;> rw [hget] at hv <;> cases hv
    rfl
  have hid : (NodeRef.metric key).id = (NodeRef.metric v).id := h.of_metric_key hnode rfl hkey
  cases NodeRef.id_injective hid
  exact ⟨v, hv, hnode, e, he⟩

theorem identityKept (h : g.Identified) (hlinks : g.AllLinks) : g.IdentityKept where
  shows k x hk := by
    obtain ⟨n, rfl, hshows⟩ := h k x hk
    have hfields : n.id.key.image Prod.fst = n.label.identity.toFinset := by
      rw [← NodeRef.keys_key]
      ext f
      simp [NodeRef.id, Dict.keys]
    refine ⟨n.label, rfl, hfields, fun f v hf => ?_⟩
    have hmem : f ∈ n.label.identity :=
      List.mem_toFinset.mp (hfields ▸ Finset.mem_image_of_mem Prod.fst hf)
    rw [hshows f hmem]
    exact Dict.mem_items.mp (List.mem_toFinset.mp hf)
  apart k k' x x' L hk hk' hL hL' hsame := by
    obtain ⟨n, rfl, hshows⟩ := h k x hk
    obtain ⟨n', rfl, hshows'⟩ := h k' x' hk'
    have hn := NodeRef.label_of_id hL
    have hn' := NodeRef.label_of_id hL'
    refine congrArg NodeRef.id (NodeRef.eq_of_identity (hn.trans hn'.symm) fun f hf => ?_)
    rw [← hshows f hf, ← hshows' f (hn'.trans hn.symm ▸ hf)]
    exact hsame f (hn ▸ hf)
  aliases _ _ hrun _ _ := h.aliases hrun
  terms _ _ hrun _ _ := h.terms hrun
  columns _ _ _ _ _ hrun _ := h.columns hlinks hrun

end InMemoryGraphStore.Identified

/-! ## Runs -/

/-- The attribute maps of the operation keep the identities of their nodes. A call that the client
refuses writes nothing. -/
def Op.KeepsIdentity (s : System) : Op → Prop
  | .client (.upsertEntity uid subtypeLabel attributes) =>
    (∀ label ∈ subtypeLabel, label ∈ s.client.entitySubtypes) →
      MarginKG.KeepsIdentity (.entity uid) attributes
  | .client (.upsertMetric metricKey _ _ _ _ _ attributes) =>
    MarginKG.KeepsIdentity (.metric (.str metricKey)) attributes
  | .client (.upsertBenchmark benchmarkKey attributes) =>
    MarginKG.KeepsIdentity (.benchmark benchmarkKey) attributes
  | .client (.upsertParty uid attributes) => MarginKG.KeepsIdentity (.party uid) attributes
  | .client _ => True
  | .loadPack pack => pack.validate = .ok () →
    (∀ m ∈ pack.metrics, MarginKG.KeepsIdentity (.metric (.str m.metricKey)) m.attributes) ∧
      ∀ b ∈ pack.benchmarks, MarginKG.KeepsIdentity (.benchmark b.benchmarkKey) b.attributes
  | .loadBundle _ b => ∀ ent ∈ b.entities, MarginKG.KeepsIdentity (.entity ent.uid) ent.attributes
  | .resolve .. => True
  | .confirm .. => True
  | .runIngest source _ _ => ∀ artifact b, source.parse artifact = .ok b →
    ∀ ent ∈ b.entities, MarginKG.KeepsIdentity (.entity ent.uid) ent.attributes

section writes
omit [Python]

theorem aliasWrite_keepsIdentity (metricKey : String) (aliases : List Value) :
    (aliasWrite metricKey aliases).KeepsIdentity := by
  rintro f hf v hv
  cases List.mem_singleton.mp hf
  cases hv

theorem columnWrite_keepsIdentity (system table name : String) (dtype : Option String)
    (sampleValues : List String) (hasDictionary : Bool) :
    (Write.node (.column system table name) (clean (columnProps dtype sampleValues hasDictionary))
      []).KeepsIdentity := by
  have hnone : ∀ f ∈ CoreLabel.column.identity,
      (clean (columnProps dtype sampleValues hasDictionary)).get? f = none := by
    simp only [get?_clean, CoreLabel.identity, List.forall_mem_cons]
    exact ⟨rfl, rfl, rfl, fun f hf => absurd hf List.not_mem_nil⟩
  intro f hf v hv
  cases (hnone f hf).symm.trans hv

theorem documentWrite_keepsIdentity (uri : String) (title : Option String) (text : String)
    (asOf : Option String) :
    (Write.node (.document uri) (clean (documentProps title text asOf)) []).KeepsIdentity := by
  intro f hf v hv
  cases List.mem_singleton.mp hf
  have hnone : (clean (documentProps title text asOf)).get? "uri" = none :=
    (get?_clean ..).trans rfl
  cases hnone.symm.trans hv

/-- The write of a metric has the identity fields of its attribute map. -/
theorem metricWrite_keepsIdentity (h : KeepsIdentity (.metric (.str metricKey)) attributes)
    (formula unit numeratorDef denominatorDef provenance : Option String) :
    (Write.node (.metric (.str metricKey)) (clean (metricProps formula unit numeratorDef
      denominatorDef provenance attributes)) []).KeepsIdentity := by
  intro f hf v hv
  have hf' : f = "metric_key" := List.mem_singleton.mp hf
  rw [get?_metricProps (by subst hf'; decide)] at hv
  exact h f hf v hv

theorem KeepsIdentity.attrs {m : MetricDef}
    (h : KeepsIdentity (.metric (.str m.metricKey)) m.attributes) :
    KeepsIdentity (.metric (.str m.metricKey)) m.attrs := by
  intro f hf v hv
  have hf' : f = "metric_key" := List.mem_singleton.mp hf
  rw [m.get?_attrs (by subst hf'; decide)] at hv
  exact h f hf v hv

end writes

omit [Python] in
theorem ParsedBundle.Writes.keepsIdentity {c : GraphClient} {b : ParsedBundle}
    (h : ∀ ent ∈ b.entities, KeepsIdentity (.entity ent.uid) ent.attributes) (hw : b.Writes c w) :
    w.KeepsIdentity := by
  cases hw with
  | document => exact documentWrite_keepsIdentity _ _ _ _
  | column => exact columnWrite_keepsIdentity _ _ _ _ _ _
  | entity hent => exact h _ hent
  | _ => trivial

theorem Op.KeepsIdentity.write {s : System} {op : Op} (hop : op.KeepsIdentity s)
    (hw : op.Writes s w) : w.KeepsIdentity := by
  cases hw with
  | @client _ call hw =>
    cases hw with
    | newAlias => exact aliasWrite_keepsIdentity _ _
    | write hw =>
      cases call with
      | upsertEntity uid subtypeLabel attributes =>
        simp only [ClientCall.write, Option.ite_none_right_eq_some, Option.some.injEq] at hw
        obtain ⟨hsub, rfl⟩ := hw
        exact hop hsub
      | upsertMetric =>
        cases hw
        exact metricWrite_keepsIdentity hop _ _ _ _ _
      | upsertColumn =>
        cases hw
        exact columnWrite_keepsIdentity _ _ _ _ _ _
      | upsertDocument =>
        cases hw
        exact documentWrite_keepsIdentity _ _ _ _
      | upsertBenchmark | upsertParty =>
        cases hw
        exact hop
      | relateEntities =>
        simp only [ClientCall.write, Option.ite_none_right_eq_some, Option.some.injEq] at hw
        obtain ⟨-, rfl⟩ := hw
        trivial
      | registerAllowlists | addMetricAlias => cases hw
      | _ =>
        cases hw
        trivial
  | loadPack hv hw =>
    obtain ⟨hmetrics, hbenchmarks⟩ := hop hv
    cases hw with
    | metric hm => exact metricWrite_keepsIdentity (hmetrics _ hm).attrs _ _ _ _ _
    | benchmark hb => exact hbenchmarks _ hb
  | loadBundle hw => exact hw.keepsIdentity hop
  | link => trivial
  | newAlias => exact aliasWrite_keepsIdentity _ _
  | runIngest hb hw => exact hw.keepsIdentity (hop _ _ hb)

namespace System

theorem identified_after {s : System} {ops : List Op}
    (hops : s.Meets (fun s op => op.KeepsIdentity s) ops)
    (h : s.graph.Identified ∧ s.graph.AllLinks) :
    (s.after ops).graph.Identified ∧ (s.after ops).graph.AllLinks :=
  after_induction (I := fun s => s.graph.Identified ∧ s.graph.AllLinks) hops h fun _ _ hop h =>
    Op.next_graph (I := fun g => g.Identified ∧ g.AllLinks)
      (fun _ _ hw hg => ⟨hg.1.write (hop.write hw), hg.2.write⟩) h

/-- The platform makes no edge that is no link. -/
theorem allLinks_after (ops : List Op) : (initial.after ops).graph.AllLinks :=
  after_graph (I := InMemoryGraphStore.AllLinks) (fun _ _ _ hg => hg.write)
    (fun _ _ he => by cases he) ops

/-- **Identity integrity**: along a run whose attribute maps keep the identities of their nodes,
every stored node shows the identity that it is stored under, and every metric key that is read
back names the metric that it was read from. -/
theorem identity_after {ops : List Op}
    (hops : initial.Meets (fun s op => op.KeepsIdentity s) ops) :
    (initial.after ops).graph.IdentityKept :=
  let ⟨hidentified, hlinks⟩ := identified_after hops ⟨nofun, nofun⟩
  hidentified.identityKept hlinks

end System

end reads

namespace System

theorem identity_after_pack :
    let ops : List Op := [
      .loadPack { name := "p", metrics := [{ metricKey := "p.x", aliases := ["weight"] }] },
      .client (.upsertEntity "u1" none (.ofList [("uid", .str "u1"), ("name", .str "first")]))]
    (initial.after ops).graph.IdentityKept :=
  identity_after ⟨fun _ => by decide, fun _ => by decide, trivial⟩

/-- An attribute map that supplies the uid of another entity makes the node show that one. -/
theorem identity_overwritten :
    let ops : List Op := [
      .client (.upsertEntity "a" none ∅),
      .client (.upsertEntity "b" none (.ofList [("uid", .str "a")]))]
    ¬ (initial.after ops).graph.IdentityKept := by
  intro ops h
  have ha : (initial.after ops).graph.nodes.get? (NodeRef.entity "a").id =
    some (.ofList [("uid", .str "a"), ("_labels", .set {"Entity"})]) := by decide
  have hb : (initial.after ops).graph.nodes.get? (NodeRef.entity "b").id =
    some (.ofList [("uid", .str "a"), ("_labels", .set {"Entity"})]) := by decide
  have hsame := h.apart _ _ _ _ .entity ha hb rfl rfl fun _ _ => rfl
  exact absurd (NodeRef.id_injective hsame) (by decide)

end System

end MarginKG
