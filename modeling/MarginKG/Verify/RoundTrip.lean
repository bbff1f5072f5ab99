import MarginKG.Verify.Delivery
import MarginKG.Verify.Visibility

/-! What of a bundle can be read back from the graph it was loaded into
(`ParsedBundle.readBack_iff`).

No two records write the same place, and every write to a place of a load is the same one
(`ParsedBundle.Writes.eq_of_place`), so what is stored there after the load is what that write
makes of what was there before (`load_contents`). Documents and columns come back whole. An entity
can lose its subtype or an attribute `_labels`, and a relation its attributes, which the load does
not pass on. -/

namespace MarginKG

open InMemoryGraphStore PropertyGraph

/-! ## Reading back -/

namespace InMemoryGraphStore

/-- Neither the node nor the edge is stored. -/
def Lacks (g : InMemoryGraphStore) : NodeRef ⊕ Link → Prop
  | .inl n => g.nodes.get? n.id = none
  | .inr l => g.edges.get? l.ident = none

/-- `get_node` returns a node of which `Q` holds. -/
def Reads (g : InMemoryGraphStore) (n : NodeRef) (Q : Props → Prop) : Prop :=
  ∃ node, g.getNode n.label.value n.key = .ok (some node) ∧ Q node

theorem reads_iff {g : InMemoryGraphStore} {n : NodeRef} {node : Props} (hn : n.hashable)
    (hnode : g.nodes.get? n.id = some node) (Q : Props → Prop) : g.Reads n Q ↔ Q node := by
  have hnode : g.getNode _ _ = .ok (some node) := (getNode_ref g hn).trans (congrArg _ hnode)
  refine ⟨fun ⟨node', hnode', h⟩ => ?_, fun h => ⟨node, hnode, h⟩⟩
  cases hnode.symm.trans hnode'
  exact h

/-- The link is stored, and `Q` holds of its properties. -/
def Stores (g : InMemoryGraphStore) (l : Link) (Q : Props → Prop) : Prop :=
  ∃ edge, g.edges.get? l.ident = some edge ∧ Q edge

end InMemoryGraphStore

/-- The fields of the document, and its links. -/
structure ObservedDocument.ReadBack (d : ObservedDocument) (g : InMemoryGraphStore) : Prop where
  fields : g.Reads (.document d.uri) fun node =>
    (∀ title ∈ d.title, node.get? "title" = some (.str title)) ∧
    node.get? "text" = some (.str d.text) ∧
    ∀ asOf ∈ d.asOf, node.get? "as_of" = some (.str asOf)
  describes : ∀ uid ∈ d.describes, g.Stores (.describes d.uri uid) fun _ => True
  defines : ∀ metricKey ∈ d.defines, g.Stores (.definedIn metricKey d.uri) fun _ => True

def ObservedColumn.ReadBack (col : ObservedColumn) (g : InMemoryGraphStore) : Prop :=
  g.Reads (.column col.system col.table col.name) fun node =>
    (∀ dtype ∈ col.dtype, node.get? "dtype" = some (.str dtype)) ∧
    node.get? "sample_values" = some (.list (col.sampleValues.map .str)) ∧
    node.get? "has_dictionary" = some (.bool col.hasDictionary)

/-- The attributes of the entity, and its first allow-listed candidate label. -/
def ObservedEntity.ReadBack (c : GraphClient) (ent : ObservedEntity) (g : InMemoryGraphStore) :
    Prop :=
  g.Reads (.entity ent.uid) fun node =>
    fits (clean ent.attributes) node = true ∧
    ∀ label ∈ pickSubtype c ent.candidateLabels,
      ∃ labels, node.get? "_labels" = some (.set labels) ∧ label ∈ labels

/-- The edge of the relation has its type, its role and its attributes. -/
def ObservedRelation.ReadBack (rel : ObservedRelation) (g : InMemoryGraphStore) : Prop :=
  (∀ t ∈ rel.relType, rel.link.relType = t) ∧ g.Stores rel.link fun edge =>
    edge.get? "role" = some (.str rel.role) ∧ fits (clean rel.attributes) edge = true

/-- Every field of every record can be read from the graph, `None` aside. -/
structure ParsedBundle.ReadBack (c : GraphClient) (b : ParsedBundle) (g : InMemoryGraphStore) :
    Prop where
  documents : ∀ d ∈ b.documents, d.ReadBack g
  columns : ∀ col ∈ b.iterColumns, col.ReadBack g
  entities : ∀ ent ∈ b.entities, ent.ReadBack c g
  relations : ∀ rel ∈ b.relations, rel.ReadBack g

/-- The subtype of the entity is not the empty string, and when the attributes bring their own set
of labels the subtype is one of these. -/
def ObservedEntity.KeepsSubtype (c : GraphClient) (ent : ObservedEntity) : Prop :=
  ∀ label ∈ pickSubtype c ent.candidateLabels,
    match (clean ent.attributes).get? "_labels" with
    | none => label ≠ ""
    | some v => ∃ labels, v = .set labels ∧ label ∈ labels

/-- The records lose nothing in the load: entities keep their subtypes, no relation has the empty
string as its type, and the attributes of a relation repeat its role and the provenance of the
bundle. -/
structure ParsedBundle.Lossless (c : GraphClient) (b : ParsedBundle) : Prop where
  subtypes : ∀ ent ∈ b.entities, ent.KeepsSubtype c
  types : ∀ rel ∈ b.relations, rel.relType ≠ some ""
  attributes : ∀ rel ∈ b.relations, fits (clean rel.attributes)
    ((roleKey rel.role).update b.provenance.toEdge.setProps) = true

/-- What adding a label leaves of the labels that the attributes bring, if they bring any, and
whether the label is there afterwards. -/
theorem addLabels_kept_iff (label : String) (x : Option Value) :
    (∀ v, x = some v → addLabels (if label = "" then [] else [label])
        (x.or (some (.set {CoreLabel.entity.value}))) = some v) ∧
      (∃ labels, addLabels (if label = "" then [] else [label])
        (x.or (some (.set {CoreLabel.entity.value}))) = some (.set labels) ∧ label ∈ labels) ↔
    match x with
    | none => label ≠ ""
    | some v => ∃ labels, v = .set labels ∧ label ∈ labels := by
  rcases x with _ | v
  · by_cases hlabel : label = "" <;> simp [addLabels, hlabel, CoreLabel.value]
  · cases v with
    | set labels =>
      by_cases hlabel : label = "" <;> simp [addLabels, hlabel]
    | _ => simp [addLabels]

/-! ## What a load makes -/

theorem Write.passes (w : Write) : w.program.Passes w.call := .perform _ _

section writes
variable [Python] {c : GraphClient} {b : ParsedBundle}

/-- The writes of all records are made, unless one of them is refused. -/
theorem loadRecords_passes (hw : b.Records c w) : (loadRecords c b).Passes w.call := by
  have hentity {ent : ObservedEntity} (hent : ent ∈ b.entities)
      (h : (loadEntity c ent).Passes w.call) : (loadRecords c b).Passes w.call :=
    .bind_right _ fun _ => .bind_right _ fun _ => .bind_left (.forM hent h) _
  cases hw with
  | document hd => exact .bind_left (.forM hd (.bind_left (Write.passes _) _)) _
  | describes hd huid =>
    exact .bind_left (.forM hd (.bind_right _ fun _ =>
      .bind_left (.forM huid (Write.passes _)) _)) _
  | defines hd hk =>
    exact .bind_left (.forM hd (.bind_right _ fun _ => .bind_right _ fun _ =>
      .forM hk (Write.passes _))) _
  | column hcol =>
    rcases List.mem_append.mp hcol with hcol | hcol
    · exact .bind_right _ fun _ => .bind_left (.forM hcol (Write.passes _)) _
    · obtain ⟨ent, hent, hcol⟩ := List.mem_flatMap.mp hcol
      exact hentity hent (.bind_right _ fun _ => .forM hcol (Write.passes _))
  | entity hent =>
    apply hentity hent
    rw [loadEntity_eq]
    exact .bind_left (Write.passes _) _
  | @relation rel hrel =>
    refine .bind_right _ fun _ => .bind_right _ fun _ => .bind_right _ fun _ => .forM hrel ?_
    by_cases h : rel.Allowed c
    · rw [loadRelation_eq h]
      exact Write.passes _
    · obtain ⟨m, hm⟩ := loadRelation_refused h b.provenance.toEdge
      rw [hm]
      trivial

theorem mem_loadWrites {r : Resolver} {g : InMemoryGraphStore}
    (hout : loadOutcome c r g b = .ok out) (hw : b.Records c w) : w ∈ loadWrites c r g b := by
  have hpasses : (loadBundle c r b).Passes (.store w.call) :=
    .bind_left (loadRecords_passes hw).lift _
  exact List.mem_filterMap.mpr ⟨_, hpasses.plan g.reply hout, ResolverCall.write?_call w⟩

/-- In a bundle without repeated identities, a place is written with one write alone. -/
theorem ParsedBundle.Writes.eq_of_place (hdistinct : b.identities.Nodup) (hv : b.Writes c v)
    (hw : b.Writes c w) (h : v.place = w.place) : v = w := by
  simp only [ParsedBundle.identities, List.nodup_append] at hdistinct
  obtain ⟨⟨⟨hdocuments, hcolumns, -⟩, hentities, -⟩, -⟩ := hdistinct
  cases v with
  | link l prov =>
    cases w with
    | node => cases h
    | link m prov' => rw [hv.prov_eq, hw.prov_eq, Link.ident_injective (Sum.inr.inj h)]
  | node n setProps extraLabels =>
    cases w with
    | link => cases h
    | node m setProps' extraLabels' =>
      have hn : n = m := NodeRef.id_injective (Sum.inl.inj h)
      clear h
      generalize hv' : Write.node n setProps extraLabels = v at hv
      generalize hw' : Write.node m setProps' extraLabels' = w at hw
      cases hv <;> cases hw <;> cases hv' <;> cases hw' <;> try cases hn
      case node.node.document.document.refl.refl d hd d' hd' =>
        rw [List.inj_on_of_nodup_map hdocuments hd hd' (congrArg Sum.inl hn)]
      case node.node.column.column.refl.refl col hcol col' hcol' =>
        rw [List.inj_on_of_nodup_map hcolumns hcol hcol' (congrArg Sum.inl hn)]
      case node.node.entity.entity.refl.refl ent hent ent' hent' =>
        rw [List.inj_on_of_nodup_map hentities hent hent' (congrArg Sum.inl hn)]

section load
variable {r : Resolver} {g : InMemoryGraphStore} {s : ResolverState InMemoryGraphStore}
  (hdistinct : b.identities.Nodup)
  (hrun : (loadBundle c r b).run (ResolverState.handler handler) ⟨g, queues⟩ = (.ok out, s))

include hdistinct hrun

/-- What a load that returns leaves at the place of a record. -/
theorem load_contents (hw : b.Records c w) :
    s.store.contents w.place = w.update (g.contents w.place) := by
  have hstart : g.SameMetrics (⟨g, queues⟩ : ResolverState InMemoryGraphStore).store := .refl g
  obtain ⟨hout, hwrote⟩ := load_run hstart hrun
  have hmem := mem_loadWrites hout hw
  rw [hwrote.contents]
  exact writes.writeAll_of_unique writes_absorbing hmem (fun v hv h =>
    (loadWrites_writes hv).eq_of_place hdistinct (loadWrites_writes hmem) h) _

/-- A new node after the load. -/
theorem load_node (hw : b.Records c (.node n setProps extraLabels))
    (hnew : g.nodes.get? n.id = none) : ∃ node, s.store.nodes.get? n.id = some node ∧
      node.get? "_labels" = addLabels extraLabels
        ((setProps.get? "_labels").or (some (.set {n.label.value}))) ∧
      ∀ f ≠ "_labels", ∀ v, setProps.get? f = some v → node.get? f = some v := by
  have h : (s.store.nodes.get? n.id).map Dict.get? = _ := load_contents hdistinct hrun hw
  obtain ⟨node, hnode, hget⟩ := Option.map_eq_some_iff.mp h
  have hold : (Write.node n setProps extraLabels).old (g.contents (.inl n.id)) =
      (freshNode n.label.value n.key).get? := by
    rw [g.old_node, InMemoryGraphStore.node, hnew]
    rfl
  have hget (f : String) : node.get? f = (Write.node n setProps extraLabels).finish f
      ((setProps.get? f).or ((freshNode n.label.value n.key).get? f)) := by
    rw [hget, ← hold]
    rfl
  refine ⟨node, hnode, ?_, fun f hf v hv => ?_⟩
  · rw [hget, freshNode, Dict.get?_set_self]
    rfl
  · rw [hget, hv]
    exact if_neg hf

/-- A link after the load. -/
theorem load_link (hw : b.Records c (.link l prov)) : ∃ edge,
    s.store.edges.get? l.ident = some edge ∧ (g.edges.get? l.ident = none →
      edge.get? = (l.key.update prov.setProps).get?) := by
  have h : (s.store.edges.get? l.ident).map Dict.get? = _ := load_contents hdistinct hrun hw
  obtain ⟨edge, hedge, hget⟩ := Option.map_eq_some_iff.mp h
  refine ⟨edge, hedge, fun hnew => ?_⟩
  have hold : (Write.link l prov).old (g.contents (.inr l.ident)) = l.key.get? := by
    rw [g.old_link, InMemoryGraphStore.link, hnew]
    rfl
  funext f
  rw [hget, Dict.get?_update, ← hold]
  rfl

/-! ## The records -/

theorem document_readBack (hd : d ∈ b.documents)
    (hnew : g.nodes.get? (NodeRef.document d.uri).id = none) : d.ReadBack s.store := by
  constructor
  · obtain ⟨node, hnode, -, hget⟩ := load_node hdistinct hrun (.document hd) hnew
    rw [reads_iff (n := .document d.uri) rfl hnode]
    refine ⟨fun title h => hget _ (by decide) _ ?_, hget _ (by decide) _ ?_,
      fun asOf h => hget _ (by decide) _ ?_⟩
    · rw [get?_clean, documentProps, show d.title = some title from h]
      rfl
    · rw [get?_clean]
      rfl
    · rw [get?_clean, documentProps, show d.asOf = some asOf from h]
      rfl
  · intro uid huid
    obtain ⟨edge, hedge, -⟩ := load_link hdistinct hrun (.describes hd huid)
    exact ⟨edge, hedge, trivial⟩
  · intro metricKey hk
    obtain ⟨edge, hedge, -⟩ := load_link hdistinct hrun (.defines hd hk)
    exact ⟨edge, hedge, trivial⟩

theorem column_readBack (hcol : col ∈ b.iterColumns) (hnew : g.nodes.get? col.ref.id = none) :
    col.ReadBack s.store := by
  obtain ⟨node, hnode, -, hget⟩ := load_node hdistinct hrun (.column hcol) hnew
  apply (reads_iff (n := col.ref) rfl hnode _).mpr
  refine ⟨fun dtype h => hget _ (by decide) _ ?_, hget _ (by decide) _ ?_,
    hget _ (by decide) _ ?_⟩
  · rw [get?_clean, columnProps, show col.dtype = some dtype from h]
    rfl
  · rw [get?_clean]
    rfl
  · rw [get?_clean]
    rfl

theorem entity_readBack_iff (hent : ent ∈ b.entities)
    (hnew : g.nodes.get? (NodeRef.entity ent.uid).id = none) :
    ent.ReadBack c s.store ↔ ent.KeepsSubtype c := by
  obtain ⟨node, hnode, hlabels, hget⟩ := load_node hdistinct hrun (.entity hent) hnew
  have hfits : fits (clean ent.attributes) node = true ↔
      ∀ v, (clean ent.attributes).get? "_labels" = some v → node.get? "_labels" = some v := by
    rw [fits_iff]
    refine ⟨fun h => h _, fun h f v hv => ?_⟩
    by_cases hf : f = "_labels"
    · subst hf
      exact h v hv
    · exact hget f hf v hv
  rw [ObservedEntity.ReadBack, reads_iff (n := .entity ent.uid) rfl hnode, hfits,
    hlabels, ObservedEntity.KeepsSubtype]
  rcases pickSubtype c ent.candidateLabels with _ | label
  · simp only [Option.not_mem_none, false_imp_iff, implies_true, and_true, iff_true]
    intro v hv
    rw [hv]
    cases v <;> simp [addLabels]
  · simp only [Option.mem_some_iff, forall_eq']
    exact addLabels_kept_iff label _

theorem relation_readBack_iff (hrel : rel ∈ b.relations)
    (hnew : g.edges.get? rel.link.ident = none) : rel.ReadBack s.store ↔ rel.relType ≠ some "" ∧
      fits (clean rel.attributes) ((roleKey rel.role).update b.provenance.toEdge.setProps) := by
  obtain ⟨edge, hedge, hget⟩ := load_link hdistinct hrun (.relation hrel)
  have hget : edge.get? = ((roleKey rel.role).update b.provenance.toEdge.setProps).get? :=
    hget hnew
  have htype : (∀ t ∈ rel.relType, rel.link.relType = t) ↔ rel.relType ≠ some "" := by
    change (∀ t ∈ rel.relType, rel.typeName = t) ↔ _
    rw [ObservedRelation.typeName]
    rcases rel.relType with _ | t
    · simp
    · by_cases ht : t = "" <;> simp [ht, RelType.value]
  have hfits : fits (clean rel.attributes) edge = true ↔ fits (clean rel.attributes)
      ((roleKey rel.role).update b.provenance.toEdge.setProps) = true := by
    rw [fits_iff, fits_iff, hget]
  rw [ObservedRelation.ReadBack, htype, ← hfits]
  refine and_congr_right fun _ => ⟨fun ⟨edge', hedge', _, h⟩ => ?_, fun h => ?_⟩
  · cases hedge.symm.trans hedge'
    exact h
  · exact ⟨edge, hedge, by rw [hget]; rfl, h⟩

end load

/-- **The round trip of a bundle**: a bundle whose records have distinct identities, loaded into a
graph that has none of them, can be read back in full exactly when it has nothing that the load
drops. -/
theorem ParsedBundle.readBack_iff {r : Resolver} {g : InMemoryGraphStore}
    {s : ResolverState InMemoryGraphStore} (hdistinct : b.identities.Nodup)
    (hnew : ∀ x ∈ b.identities, g.Lacks x)
    (hrun : (loadBundle c r b).run (ResolverState.handler handler) ⟨g, queues⟩ = (.ok out, s)) :
    b.ReadBack c s.store ↔ b.Lossless c := by
  simp only [ParsedBundle.identities, List.mem_append, List.mem_map] at hnew
  have hentity (ent : ObservedEntity) (hent : ent ∈ b.entities) :=
    entity_readBack_iff hdistinct hrun hent (hnew _ (.inl (.inr ⟨ent, hent, rfl⟩)))
  have hrelation (rel : ObservedRelation) (hrel : rel ∈ b.relations) :=
    relation_readBack_iff hdistinct hrun hrel (hnew _ (.inr ⟨rel, hrel, rfl⟩))
  constructor
  · intro h
    exact {
      subtypes := fun ent hent => (hentity ent hent).mp (h.entities ent hent)
      types := fun rel hrel => ((hrelation rel hrel).mp (h.relations rel hrel)).1
      attributes := fun rel hrel => ((hrelation rel hrel).mp (h.relations rel hrel)).2 }
  · intro h
    exact {
      documents := fun d hd =>
        document_readBack hdistinct hrun hd (hnew _ (.inl (.inl (.inl ⟨d, hd, rfl⟩))))
      columns := fun col hcol =>
        column_readBack hdistinct hrun hcol (hnew _ (.inl (.inl (.inr ⟨col, hcol, rfl⟩))))
      entities := fun ent hent => (hentity ent hent).mpr (h.subtypes ent hent)
      relations := fun rel hrel =>
        (hrelation rel hrel).mpr ⟨h.types rel hrel, h.attributes rel hrel⟩ }

end writes

/-- A bundle with a record of each kind, loaded into an empty graph. -/
theorem ParsedBundle.readBack_widget :
    let c : GraphClient := ⟨{"Widget"}, {"PART_OF"}⟩
    let b : ParsedBundle := {
      provenance := ⟨"src", "2024", "c@1"⟩
      documents := [{ uri := "d1", title := some "Widgets", describes := ["w1"],
                      defines := ["widgets.weight"] }]
      columns := [{ system := "erp", table := "t", name := "wgt", dtype := some "float" }]
      entities := [{ uid := "w1", candidateLabels := ["Gadget", "Widget"],
                     attributes := .ofList [("name", .str "first")] }, { uid := "w2" }]
      relations := [{ subjectUid := "w1", role := "part", objectUid := "w2",
                      relType := some "PART_OF" }] }
    let r : Resolver := { suggester := fun _ _ => .ok [], queue := 0 }
    ∃ out s, (loadBundle c r b).run (ResolverState.handler handler) ⟨∅, [[]]⟩ = (.ok out, s) ∧
      b.ReadBack c s.store := by
  intro c b r
  have hok : ((loadBundle c r b).run (ResolverState.handler handler) ⟨∅, [[]]⟩).1 =
      .ok (b.iterColumns.map fun column => { column, tier := .escalated }) := by
    decide +kernel
  rcases hrun : (loadBundle c r b).run (ResolverState.handler handler) ⟨∅, [[]]⟩ with ⟨result, s⟩
  rw [hrun] at hok
  cases hok
  refine ⟨_, s, rfl, (ParsedBundle.readBack_iff (by decide) ?_ hrun).mpr ⟨?_, ?_, ?_⟩⟩
  · intro x _
    cases x <;> rfl
  · intro ent hent label hlabel
    rcases List.mem_pair.mp hent with rfl | rfl
    · have hpick : pickSubtype c ["Gadget", "Widget"] = some "Widget" := by decide
      cases hpick.symm.trans hlabel
      exact (by decide : "Widget" ≠ "")
    · cases hlabel
  · decide
  · decide

/-- The attributes of a relation are lost. -/
theorem ParsedBundle.relation_attributes_lost :
    let b : ParsedBundle := {
      provenance := ⟨"src", "2024", "c@1"⟩
      relations := [{ subjectUid := "w1", role := "part", objectUid := "w2",
                      attributes := .ofList [("since", .str "2019")] }] }
    let r : Resolver := { suggester := fun _ _ => .ok [], queue := 0 }
    b.identities.Nodup ∧ (∀ x ∈ b.identities, (∅ : InMemoryGraphStore).Lacks x) ∧
      ∃ s, (loadBundle ∅ r b).run (ResolverState.handler handler) ⟨∅, []⟩ = (.ok [], s) ∧
        ¬ b.ReadBack ∅ s.store := by
  intro b r
  refine ⟨by decide, fun x _ => by cases x <;> rfl, _, rfl, fun h => ?_⟩
  obtain ⟨-, edge, hedge, -, hfits⟩ := h.relations _ List.mem_cons_self
  cases hedge
  exact absurd hfits (by decide)

end MarginKG
