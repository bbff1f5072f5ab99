import MarginKG.Graph.Neo4j
import MarginKG.Verify.History

/-! The in-memory store simulates the Neo4j store (`ClientCall.stores_agree`).

One store finds a node by the key it was recorded under, the other by the labels and properties
it has at the moment. What keeps the two in step (`Simulates`) is positional: the nodes and the
edges of both were created in the same order, with the same content. That a pattern admits
exactly the node or the edge recorded under a key (`Recorded.picks_node`, `Recorded.picks_edge`)
follows from what the history says of the graph. -/

namespace MarginKG

open PropertyGraph InMemoryGraphStore

/-! ## Identifiers -/

theorem isIdent_mem (h : isIdent cs) (hc : c ∈ cs) : c.isAlphanum ∨ c = '_' := by
  cases cs with
  | nil => cases hc
  | cons c' cs =>
    simp only [isIdent, Bool.and_eq_true, Bool.or_eq_true, decide_eq_true_eq, List.all_eq_true] at h
    rcases List.mem_cons.mp hc with rfl | hc
    · exact h.1.imp_left fun ha => by simp [Char.isAlphanum, ha]
    · exact h.2 c hc

theorem RelType.isIdent (t : RelType) : isIdent t.value.toList := by cases t <;> decide

section identifiers
variable [Python]

theorem checkIdent_of_isIdent (h : isIdent value.toList) : checkIdent value = .ok value := by
  have hlast : value.toList.getLast? ≠ some '\n' := fun hl =>
    absurd (isIdent_mem h (List.mem_of_getLast? hl)) (by decide)
  simp only [checkIdent, if_neg hlast, if_pos h, String.ofList_toList]

theorem mapM_checkIdent {labels : List String} (h : ∀ label ∈ labels, isIdent label.toList) :
    labels.mapM checkIdent = .ok labels :=
  Program.mapM_eq_ok.mpr (List.forall₂_same.mpr fun label hl => checkIdent_of_isIdent (h label hl))

theorem checkNames_of_isIdent {keyProps : Props} (h : ∀ f ∈ keyProps.keys, isIdent f.toList) :
    checkNames keyProps = .ok () := by
  rw [checkNames]
  generalize keyProps.keys = names at h
  induction names with
  | nil => rfl
  | cons f names ih =>
    rw [List.forM, checkIdent_of_isIdent (h f List.mem_cons_self)]
    exact ih fun f hf => h f (List.mem_cons_of_mem _ hf)

theorem CoreLabel.checkIdent (L : CoreLabel) : checkIdent L.value = .ok L.value :=
  checkIdent_of_isIdent (by cases L <;> decide)

theorem NodeRef.checkNames (n : NodeRef) : checkNames n.key = .ok () := by
  apply checkNames_of_isIdent
  rw [n.keys_key]
  cases n.label <;> decide

omit [Python] in
theorem Link.keys_key (l : Link) : l.key.keys = [] ∨ l.key.keys = ["role"] := by
  cases l <;> first | exact .inl rfl | exact .inr rfl

theorem Link.checkNames (l : Link) : checkNames l.key = .ok () := by
  apply checkNames_of_isIdent
  rcases l.keys_key with h | h <;> rw [h] <;> decide

end identifiers

/-! ## Statements -/

namespace Neo4jGraphStore

open RowOrder

variable [Python] [RowOrder]

theorem handler_node (pg : Neo4jGraph) (n : NodeRef) (setProps : Props)
    (extraLabels : List String) :
    handler (Write.node n setProps extraLabels).call pg =
      match extraLabels.mapM checkIdent with
      | .ok names => (.ok (), pg.mergeNode n.label.value n.key fun a =>
        ⟨a.labels ∪ names.toFinset, a.props.update setProps⟩)
      | .error e => (.error e, pg) := by
  simp only [Write.call, handler, upsertNode, n.label.checkIdent, n.checkNames]
  rcases extraLabels.mapM checkIdent with e | names <;> rfl

theorem handler_link (pg : Neo4jGraph) (l : Link) (prov : EdgeProvenance) :
    handler (Write.link l prov).call pg =
      match checkIdent l.relType with
      | .ok rel => (.ok (), pg.mergeEdges l.source.label.value l.source.key l.target.label.value
        l.target.key rel l.key (·.update prov.setProps))
      | .error e => (.error e, pg) := by
  simp only [Write.call, Link.call, handler, upsertEdge, CoreLabel.checkIdent,
    NodeRef.checkNames, Link.checkNames]
  rcases checkIdent l.relType with e | rel <;> rfl

/-- What `get_node` finds. -/
def found (pg : Neo4jGraph) (n : NodeRef) : Option Props :=
  (rows (.getNode n.label.value n.key)
    ((pg.nodes.filter (Node.fits n.label.value n.key)).map record)).head?

theorem getNode_ref (pg : Neo4jGraph) (n : NodeRef) :
    getNode pg n.label.value n.key = .ok (found pg n) := by
  simp only [getNode, n.label.checkIdent, n.checkNames]
  rfl

omit [Python] in
/-- It is one of the nodes that the pattern admits. -/
theorem exists_of_found {pg : Neo4jGraph} {n : NodeRef} {node : Props}
    (h : found pg n = some node) :
    ∃ a ∈ pg.nodes, a.fits n.label.value n.key = true ∧ record a = node := by
  obtain ⟨a, ha, rfl⟩ := List.mem_map.mp (mem_rows.mp (List.mem_of_head? h))
  obtain ⟨hmem, hfits⟩ := List.mem_filter.mp ha
  exact ⟨a, hmem, hfits, rfl⟩

omit [Python] in
theorem isSome_found {pg : Neo4jGraph} {n : NodeRef} :
    (found pg n).isSome ↔ ∃ a ∈ pg.nodes, a.fits n.label.value n.key = true := by
  constructor
  · intro h
    obtain ⟨node, hnode⟩ := Option.isSome_iff_exists.mp h
    obtain ⟨a, ha, hfits, -⟩ := exists_of_found hnode
    exact ⟨a, ha, hfits⟩
  · rintro ⟨a, ha, hfits⟩
    have hrow : record a ∈ rows (.getNode n.label.value n.key)
        ((pg.nodes.filter (Node.fits n.label.value n.key)).map record) :=
      mem_rows.mpr (List.mem_map_of_mem (List.mem_filter.mpr ⟨ha, hfits⟩))
    rw [found, List.isSome_head?]
    exact List.ne_nil_of_mem hrow

omit [Python] in
/-- The only match is found. -/
theorem found_eq {pg : Neo4jGraph} {n : NodeRef} {a : Option (Node String String Value)}
    (h : pg.nodes.filter (Node.fits n.label.value n.key) = a.toList) :
    found pg n = a.map record := by
  rw [found, h]
  have hmap : a.toList.map record = (a.map record).toList := by cases a <;> rfl
  rw [hmap, rows_toList]
  cases a <;> rfl

/-- The rows of `out_neighbors`, in the order of creation. -/
def links (pg : Neo4jGraph) (n : NodeRef) (rel : String) : List (Props × Props) :=
  ((pg.matchNodes n.label.value n.key).flatMap (pg.outgoing rel)).map fun (d, r) => (record d, r)

theorem outNeighbors_ref (pg : Neo4jGraph) (n : NodeRef) (h : checkIdent relType = .ok rel) :
    outNeighbors pg n.label.value n.key relType =
      .ok (rows (.outNeighbors n.label.value n.key relType) (links pg n rel)) := by
  simp only [outNeighbors, n.label.checkIdent, n.checkNames, h]
  rfl

theorem nodesByLabel_ref (pg : Neo4jGraph) (L : CoreLabel) :
    nodesByLabel pg L.value = .ok (rows (.nodesByLabel L.value)
      ((pg.nodes.filter (Node.fits L.value ∅)).map record)) := by
  rw [nodesByLabel, L.checkIdent]
  rfl

end Neo4jGraphStore

/-! ## Patterns of links -/

namespace Link

theorem get?_key_update (l : Link) (prov : EdgeProvenance) (h : l.key.get? f = some v) :
    (l.key.update prov.setProps).get? f = some v := by
  have hf : prov.setProps.get? f = none := by
    have hkey := Dict.mem_keys.mpr ⟨v, h⟩
    rcases l.keys_key with hl | hl <;> rw [hl] at hkey
    · cases hkey
    · rw [List.mem_singleton.mp hkey]
      rfl
  rw [Dict.get?_update, hf, h]
  rfl

/-- Links between the same nodes and of the same type differ in their role at most. -/
theorem eq_of_fits {l m : Link} {prov : EdgeProvenance} (hsrc : l.source = m.source)
    (hdst : l.target = m.target)
    (htype : m.relType = l.relType)
    (hfits : ∀ f v, l.key.get? f = some v → (m.key.update prov.setProps).get? f = some v) :
    l = m := by
  cases l <;> cases m <;> cases hsrc <;> cases hdst
  case hasRole.hasRole r r' =>
    have hr : some (Value.str r') = some (.str r) := hfits "role" _ rfl
    cases hr
    rfl
  case related.related t r t' r' =>
    have hr : some (Value.str r') = some (.str r) := hfits "role" _ rfl
    cases hr
    cases htype
    rfl
  all_goals rfl

end Link

/-! ## The simulation -/

/-- A dictionary of properties stands for another when every lookup agrees. -/
def SameProps (x y : Props) : Prop := x.get? = y.get?

/-- The stored node has the content of the node in the database. -/
structure SameNode (item : NodeKey × Props) (a : Node String String Value) : Prop where
  labels : item.2.get? "_labels" = some (.set a.labels)
  props : ∀ f ≠ "_labels", item.2.get? f = a.props.get? f

/-- The stored edge has the content of the edge in the database; `keys` are the keys of the
nodes in their order. -/
structure SameEdge (keys : List NodeKey) (item : EdgeIdent × Props)
    (e : Edge String String Value) : Prop where
  relType : e.relType = item.1.relType
  src : keys[e.src]? = some item.1.src
  dst : keys[e.dst]? = some item.1.dst
  props : SameProps item.2 e.props

/-- The graph of the in-memory store and that of the database, node by node and edge by edge. -/
structure Simulates (g : InMemoryGraphStore) (pg : Neo4jGraph) : Prop where
  nodes : List.Forall₂ SameNode g.nodes.items pg.nodes
  edges : List.Forall₂ (SameEdge g.nodes.keys) g.edges.items pg.edges

/-- No accepted subtype is a base label. -/
def CoreFree (hist : List ClientCall) : Prop :=
  ∀ n label, SubtypeOf hist n label → ∀ L : CoreLabel, label ≠ L.value

theorem SameNode.record {a : Node String String Value} (h : SameNode item a) :
    SameProps item.2 (Neo4jGraphStore.record a) := by
  funext f
  rw [Neo4jGraphStore.record, Dict.get?_set]
  split
  · rename_i hf
    rw [← hf, h.labels]
  · rename_i hf
    exact h.props f (Ne.symm hf)

/-- An edge stays where it is while nodes are added. -/
theorem SameEdge.append (h : SameEdge keys item e) (keys' : List NodeKey) :
    SameEdge (keys ++ keys') item e where
  relType := h.relType
  src := (List.getElem?_append_left (List.getElem?_eq_some_iff.mp h.src).1).trans h.src
  dst := (List.getElem?_append_left (List.getElem?_eq_some_iff.mp h.dst).1).trans h.dst
  props := h.props

namespace Recorded

/-- A base label on a stored node is the label it is stored under. -/
theorem mem_labels_iff (h : Recorded hist g) (hfree : CoreFree hist) (hitem : item ∈ g.nodes.items)
    {a : Node String String Value} (ha : SameNode item a) (L : CoreLabel) :
    L.value ∈ a.labels ↔ item.1.label = L.value := by
  obtain ⟨m, hid, -, hdesc⟩ := h.nodes _ _ (Dict.mem_items.mp hitem)
  obtain ⟨labels, hlabels, hmem⟩ := hdesc.labels
  rw [ha.labels] at hlabels
  cases hlabels
  rw [hmem, or_iff_left fun hsub => hfree _ _ hsub.2 L rfl, ← hid]
  exact eq_comm

/-- A pattern of the client finds the node that is stored under its key. -/
theorem picks_node (h : Recorded hist g) (hfree : CoreFree hist) (n : NodeRef) :
    Picks SameNode g.nodes.items (Node.fits n.label.value n.key) n.id := by
  intro item hitem a ha
  have hlabel := h.mem_labels_iff hfree hitem ha n.label
  obtain ⟨m, hid, -, hdesc⟩ := h.nodes _ _ (Dict.mem_items.mp hitem)
  have hget (f : String) (hf : f ∈ m.label.identity) : a.props.get? f = m.key.get? f := by
    rw [← hdesc.key f hf, ha.props f fun hf' => labels_not_mem_identity _ (hf' ▸ hf)]
  rw [Node.fits, Bool.and_eq_true, decide_eq_true_eq, hlabel, fits_iff]
  constructor
  · rintro ⟨hl, hfits⟩
    have hl : m.label = n.label := NodeRef.label_of_id (hid ▸ hl)
    refine hid.symm.trans ?_
    rw [NodeRef.id, NodeRef.id, hl, Dict.toFinset_inj.mpr]
    funext f
    by_cases hf : f ∈ n.label.identity
    · obtain ⟨v, hv⟩ := Dict.mem_keys.mp (n.keys_key ▸ hf)
      rw [hv, ← hget f (hl ▸ hf), hfits f v hv]
    · rw [Dict.get?_eq_none.mpr (by rwa [m.keys_key, hl]),
        Dict.get?_eq_none.mpr (by rwa [n.keys_key])]
  · intro hk
    cases NodeRef.id_injective (hid.trans hk)
    refine ⟨congrArg NodeKey.label hk, fun f v hv => ?_⟩
    rw [hget f (n.keys_key ▸ Dict.mem_keys.mpr ⟨v, hv⟩), hv]

/-- Between the nodes of a link, its pattern finds the edge that is stored under its identity. -/
theorem picks_edge (h : Recorded hist g) {l : Link} (hi : g.nodes.keys[i]? = some l.source.id)
    (hj : g.nodes.keys[j]? = some l.target.id) :
    Picks (SameEdge g.nodes.keys) g.edges.items (Edge.fits l.relType l.key i j) l.ident := by
  intro item hitem e he
  obtain ⟨m, prov, hident, -, hget⟩ := h.edges _ _ (Dict.mem_items.mp hitem)
  have hsrc := he.src
  have hdst := he.dst
  rw [← hident] at hsrc hdst
  rw [Edge.fits, Bool.and_eq_true, Bool.and_eq_true, Bool.and_eq_true, decide_eq_true_eq,
    decide_eq_true_eq, decide_eq_true_eq, fits_iff, ← he.props, hget, he.relType, ← hident]
  constructor
  · rintro ⟨⟨⟨htype, rfl⟩, rfl⟩, hfits⟩
    rw [hi] at hsrc
    rw [hj] at hdst
    exact congrArg _ (Link.eq_of_fits (NodeRef.id_injective (Option.some.inj hsrc))
      (NodeRef.id_injective (Option.some.inj hdst)) htype hfits).symm
  · intro hl
    cases Link.ident_injective hl
    refine ⟨⟨⟨rfl, ?_⟩, ?_⟩, fun f v hv => l.get?_key_update prov hv⟩
    · exact (List.getElem?_inj (List.getElem?_eq_some_iff.mp hsrc).1 g.nodes.nodup).mp
        (hsrc.trans hi.symm)
    · exact (List.getElem?_inj (List.getElem?_eq_some_iff.mp hdst).1 g.nodes.nodup).mp
        (hdst.trans hj.symm)

end Recorded

namespace Simulates

variable [Python] [RowOrder]

omit [Python] [RowOrder] in
theorem matchNodes (h : Simulates g pg) (hrec : Recorded hist g) (hfree : CoreFree hist)
    {n : NodeRef} (hi : g.nodes.keys[i]? = some n.id) :
    pg.matchNodes n.label.value n.key = [i] :=
  findIdxs_eq_singleton h.nodes g.nodes.nodup (hrec.picks_node hfree n) hi 0

/-- A link between two nodes that exist keeps the stores in step. -/
theorem link (h : Simulates g pg) (hrec : Recorded hist g) (hfree : CoreFree hist) {l : Link}
    (hhash : l.hashable) (hident : isIdent l.relType.toList) (hsrc : l.source.id ∈ g.nodes.keys)
    (hdst : l.target.id ∈ g.nodes.keys) (prov : EdgeProvenance) :
    (Neo4jGraphStore.handler (Write.link l prov).call pg).1 = .ok () ∧
      Simulates (handler (Write.link l prov).call g).2
        (Neo4jGraphStore.handler (Write.link l prov).call pg).2 := by
  obtain ⟨i, hi⟩ := List.getElem?_of_mem hsrc
  obtain ⟨j, hj⟩ := List.getElem?_of_mem hdst
  have hrows : pg.matchPairs l.source.label.value l.source.key l.target.label.value
      l.target.key = [(i, j)] := by
    rw [matchPairs, h.matchNodes hrec hfree hi, h.matchNodes hrec hfree hj]
    rfl
  rw [Neo4jGraphStore.handler_link, checkIdent_of_isIdent hident, handler_link_of_hashable g hhash]
  have hupdate {x : Props} {e : Edge String String Value}
      (he : SameEdge g.nodes.keys (l.ident, x) e) :
      SameEdge g.nodes.keys (l.ident, x.update prov.setProps)
        { e with props := e.props.update prov.setProps } := by
    refine ⟨he.relType, he.src, he.dst, funext fun f => ?_⟩
    rw [Dict.get?_update, Dict.get?_update]
    exact congrArg _ (congrFun he.props f)
  have hnew : SameEdge g.nodes.keys (l.ident, l.key) ⟨l.relType, i, j, l.key⟩ :=
    ⟨rfl, hi, hj, rfl⟩
  refine ⟨rfl, h.nodes, ?_⟩
  dsimp only
  rw [edges_mergeEdges, hrows]
  exact forall₂_mergeWhere h.edges g.edges.nodup (hrec.picks_edge hi hj)
    (fun e : Props => e.update prov.setProps) (fun _ _ _ he => hupdate he)
    (hupdate hnew)

/-- An upsert keeps the stores in step. -/
theorem node (h : Simulates g pg) (hrec : Recorded hist g) (hfree : CoreFree hist) {n : NodeRef}
    (hn : n.hashable) (hset : setProps.get? "_labels" = none)
    (hextra : ∀ label ∈ extraLabels, isIdent label.toList) :
    (Neo4jGraphStore.handler (Write.node n setProps extraLabels).call pg).1 = .ok () ∧
      Simulates (handler (Write.node n setProps extraLabels).call g).2
        (Neo4jGraphStore.handler (Write.node n setProps extraLabels).call pg).2 := by
  have hupdate {x : Props} {a : Node String String Value} (ha : SameNode (n.id, x) a) :
      SameNode (n.id, (updateNode x setProps extraLabels).2)
        ⟨a.labels ∪ extraLabels.toFinset, a.props.update setProps⟩ := by
    rw [updateNode_labels ha.labels hset]
    refine ⟨Dict.get?_set_self .., fun f hf => ?_⟩
    rw [Dict.get?_set_of_ne (Ne.symm hf), Dict.get?_update, Dict.get?_update, ha.props f hf]
  have hfresh : SameNode (n.id, freshNode n.label.value n.key) ⟨{n.label.value}, n.key⟩ :=
    ⟨Dict.get?_set_self .., fun f hf => Dict.get?_set_of_ne (Ne.symm hf)⟩
  rw [Neo4jGraphStore.handler_node, mapM_checkIdent hextra, handler_node_of_hashable g hn]
  refine ⟨rfl, ?_, ?_⟩
  · exact forall₂_mergeWhere h.nodes g.nodes.nodup (hrec.picks_node hfree n)
      (fun x => (updateNode x setProps extraLabels).2) (fun _ _ _ ha => hupdate ha)
      (hupdate hfresh)
  · refine h.edges.imp fun item e he => ?_
    dsimp only
    rw [Dict.keys_set]
    split
    · exact he
    · exact he.append _

omit [Python] [RowOrder] in
/-- A pattern with a base label finds the nodes that are stored under it. -/
theorem nodesByLabel (h : Simulates g pg) (hrec : Recorded hist g) (hfree : CoreFree hist)
    (L : CoreLabel) :
    List.Forall₂ SameProps (g.nodesByLabel L.value)
      ((pg.nodes.filter (Node.fits L.value ∅)).map Neo4jGraphStore.record) := by
  have hmem := (List.forall₂_and_left _ _).mpr ⟨fun item hitem => hitem, h.nodes⟩
  rw [InMemoryGraphStore.nodesByLabel, List.forall₂_map_left_iff, List.forall₂_map_right_iff]
  refine (List.rel_filter (fun {item a} ha => ?_) hmem).imp fun _ _ ha => ha.2.record
  have hfits : fits ∅ a.props = true := fits_iff.mpr nofun
  change decide (item.1.label = L.value) = true ↔ (decide _ && fits ∅ a.props) = true
  rw [hfits, Bool.and_true, decide_eq_true_eq, decide_eq_true_eq,
    hrec.mem_labels_iff hfree ha.1 ha.2]

omit [Python] in
theorem getNode (h : Simulates g pg) (hrec : Recorded hist g) (hfree : CoreFree hist)
    (n : NodeRef) :
    Option.Rel SameProps (g.nodes.get? n.id) (Neo4jGraphStore.found pg n) := by
  obtain ⟨a, hfilter, hrel⟩ :=
    exists_filter_eq h.nodes g.nodes.nodup (hrec.picks_node hfree n)
  rw [Neo4jGraphStore.found_eq hfilter]
  change Option.Rel SameProps (Entries.get? n.id g.nodes.items) _
  generalize Entries.get? n.id g.nodes.items = x at hrel ⊢
  cases hrel with
  | none => exact .none
  | some ha => exact .some ha.record

omit [Python] [RowOrder] in
theorem outNeighbors (h : Simulates g pg) (hrec : Recorded hist g) (hfree : CoreFree hist)
    (n : NodeRef) (relType : String) :
    List.Forall₂ (fun p q => SameProps p.1 q.1 ∧ SameProps p.2 q.2)
      (g.edges.items.filterMap (g.shown n.id relType)) (Neo4jGraphStore.links pg n relType) := by
  rw [Neo4jGraphStore.links, List.forall₂_map_right_iff]
  by_cases hn : n.id ∈ g.nodes.keys
  · obtain ⟨i, hi⟩ := List.getElem?_of_mem hn
    rw [h.matchNodes hrec hfree hi, List.flatMap_singleton]
    refine List.rel_filterMap (fun {item e} he => ?_) h.edges
    have hsrc : e.src = i ↔ item.1.src = n.id := by
      rw [← List.getElem?_inj (List.getElem?_eq_some_iff.mp he.src).1 g.nodes.nodup, he.src, hi,
        Option.some_inj]
    obtain ⟨x, a, hx, ha, hnode⟩ := exists_getElem?_of_forall₂ h.nodes he.dst
    rw [shown, Dict.mem_items.mp hx, ha, he.relType]
    simp only [hsrc]
    split
    · exact .some ⟨hnode.record, he.props⟩
    · exact .none
  · rw [PropertyGraph.matchNodes, findIdxs_eq_nil h.nodes (hrec.picks_node hfree n) hn,
      List.flatMap_nil]
    refine List.forall₂_nil_right_iff.mpr (List.filterMap_eq_nil_iff.mpr fun item hitem => ?_)
    obtain ⟨e, -, he⟩ := exists_mem_of_forall₂ h.edges.flip hitem
    refine if_neg fun hsrc => hn ?_
    exact hsrc.2 ▸ List.mem_of_getElem? he.src

end Simulates

/-! ## Calls -/

theorem GraphClient.currentAliases_congr {x y : Option Props} (h : Option.Rel SameProps x y) :
    currentAliases x = currentAliases y := by
  cases h with
  | none => rfl
  | some hxy => rw [currentAliases, currentAliases, Option.bind_some, Option.bind_some, hxy]

namespace ClientCall

/-- Labels and edge types are plain identifiers, and the subtype is no base label. -/
def Portable : ClientCall → Prop
  | upsertEntity _ subtypeLabel _ => ∀ label ∈ subtypeLabel, isIdent label.toList ∧
    label ≠ CoreLabel.entity.value ∧ ¬ OtherBaseLabel label
  | relateEntities _ _ _ _ relType => isIdent relType.toList
  | _ => True

instance : (call : ClientCall) → Decidable call.Portable
  | upsertEntity .. => inferInstanceAs (Decidable (∀ label ∈ _, _))
  | relateEntities .. => inferInstanceAs (Decidable (_ = true))
  | registerAllowlists .. | upsertMetric .. | upsertColumn .. | upsertDocument ..
  | upsertBenchmark .. | upsertParty .. | linkColumnToMetric .. | linkMetricToEntity ..
  | linkMetricToDocument .. | linkMetricToBenchmark .. | linkMetricComputedFrom ..
  | linkDocumentToEntity .. | linkPartyToEntity .. | addMetricAlias .. => isTrue trivial

theorem Portable.relType {call : ClientCall} (h : call.Portable)
    (hl : call.links = some (l, prov)) : isIdent l.relType.toList := by
  cases call <;> cases hl
  case relateEntities => exact h
  all_goals exact RelType.isIdent _

theorem Portable.coreFree {call : ClientCall} (h : call.Portable) (hfree : CoreFree hist) :
    CoreFree (call :: hist) := by
  intro n label hsub L hL
  rcases subtypeOf_cons.mp hsub with ⟨uid, attributes, -, rfl⟩ | hsub
  · obtain ⟨-, hentity, hother⟩ := h label rfl
    by_cases hLe : L = .entity
    · exact hentity (hLe ▸ hL)
    · exact hother (otherBaseLabel_iff.mpr ⟨L, hLe, hL⟩)
  · exact hfree n label hsub L hL

end ClientCall

/-- The endpoints of a link exist. -/
def Write.Joins (g : InMemoryGraphStore) : Write → Prop
  | .node .. => True
  | .link l _ => l.source.id ∈ g.nodes.keys ∧ l.target.id ∈ g.nodes.keys

instance (g : InMemoryGraphStore) : (w : Write) → Decidable (w.Joins g)
  | .node .. => isTrue trivial
  | .link .. => inferInstanceAs (Decidable (_ ∧ _))

namespace Simulates

variable [Python] [RowOrder]

/-- The write of an accepted call keeps the stores in step. -/
theorem write (h : Simulates g pg) (hrec : Recorded hist g) (hfree : CoreFree hist)
    {c : GraphClient} {call : ClientCall} (hplain : call.Plain) (hport : call.Portable)
    (hw : call.write c = some w) (hjoin : w.Joins g) :
    (∃ r, (Neo4jGraphStore.handler w.call pg).1 = .ok r) ∧
      Simulates (handler w.call g).2 (Neo4jGraphStore.handler w.call pg).2 := by
  cases w with
  | node n setProps extraLabels =>
    obtain ⟨⟨-, -, hn⟩, -, hextra⟩ := ClientCall.write_node hw
    obtain ⟨hok, hsim⟩ := h.node hrec hfree hn (hplain.setProps hw _ List.mem_cons_self)
      fun label hlabel => by
        obtain ⟨-, uid, attributes, -, rfl⟩ := (hextra label).mp hlabel
        exact (hport label rfl).1
    exact ⟨⟨(), hok⟩, hsim⟩
  | link l prov =>
    obtain ⟨-, hl, hhash⟩ := ClientCall.write_link hw
    obtain ⟨hok, hsim⟩ := h.link hrec hfree hhash (hport.relType hl) hjoin.1 hjoin.2 prov
    exact ⟨⟨(), hok⟩, hsim⟩

/-- `add_metric_alias` reads the same aliases from both stores. -/
theorem newAlias (h : Simulates g pg) (hrec : Recorded hist g) (hfree : CoreFree hist)
    (k a : String) :
    ((GraphClient.addMetricAlias k a).run Neo4jGraphStore.handler pg).1 =
        ((GraphClient.addMetricAlias k a).run handler g).1 ∧
      Simulates ((GraphClient.addMetricAlias k a).run handler g).2
        ((GraphClient.addMetricAlias k a).run Neo4jGraphStore.handler pg).2 := by
  have hget : Neo4jGraphStore.handler
      (.getNode CoreLabel.metric.value (metricKeyProps (.str k))) pg = (.ok _, pg) :=
    Prod.ext (Neo4jGraphStore.getNode_ref pg (.metric (.str k))) rfl
  have hsame := GraphClient.currentAliases_congr (h.getNode hrec hfree (.metric (.str k)))
  rw [GraphClient.addMetricAlias_run, GraphClient.addMetricAlias_eq, Program.run_call_ok hget]
  rw [← hsame]
  rcases hc : GraphClient.currentAliases _ with e | current
  · exact ⟨rfl, h⟩
  obtain ⟨hok, hsim⟩ : (Neo4jGraphStore.handler
      (aliasWrite k (GraphClient.extendAliases current a)).call pg).1 = .ok () ∧
        Simulates (handler (aliasWrite k (GraphClient.extendAliases current a)).call g).2
          (Neo4jGraphStore.handler
            (aliasWrite k (GraphClient.extendAliases current a)).call pg).2 :=
    h.node hrec hfree rfl rfl nofun
  rw [Program.ofExcept_ok, Program.ret_bind, Write.run_program, Write.run_program,
    (hrec.newAlias a hc).1, hok]
  exact ⟨rfl, hsim⟩

/-- A call ends the same way in both stores and keeps them in step. -/
theorem call (h : Simulates g pg) (hrec : Recorded hist g) (hfree : CoreFree hist)
    {c : GraphClient} {call : ClientCall} (hplain : call.Plain) (hport : call.Portable)
    (hjoin : ∀ w ∈ call.write c, w.Joins g) :
    ((call.program c).run Neo4jGraphStore.handler pg).1 = ((call.program c).run handler g).1 ∧
      Simulates ((call.program c).run handler g).2
        ((call.program c).run Neo4jGraphStore.handler pg).2 := by
  rcases hw : call.write c with _ | w
  · by_cases halias : ∃ k a, call = .addMetricAlias k a
    · obtain ⟨k, a, rfl⟩ := halias
      exact h.newAlias hrec hfree k a
    by_cases hreg : ∃ e t, call = .registerAllowlists e t
    · obtain ⟨e, t, rfl⟩ := hreg
      exact ⟨rfl, h⟩
    simp only [not_exists] at hreg halias
    obtain ⟨m, hm⟩ := ClientCall.program_of_refused hw hreg halias
    rw [hm]
    exact ⟨rfl, h⟩
  · obtain ⟨⟨r, hok⟩, -⟩ := hrec.write hplain hw
    obtain ⟨⟨r', hok'⟩, hsim⟩ := h.write hrec hfree hplain hport hw (hjoin w hw)
    rw [ClientCall.program_of_write hw, Write.run_program, Write.run_program, hok, hok']
    exact ⟨rfl, hsim⟩

end Simulates

/-! ## Runs -/

/-- The reads of the two stores return the same, up to the order of rows: a node by its key, all
nodes with a base label, and the neighbors of a node along an edge type. -/
structure SameReads [Python] [RowOrder] (g : InMemoryGraphStore) (pg : Neo4jGraph) : Prop where
  getNode : ∀ n : NodeRef, n.hashable →
    ∃ x y, g.getNode n.label.value n.key = .ok x ∧
      Neo4jGraphStore.getNode pg n.label.value n.key = .ok y ∧ Option.Rel SameProps x y
  nodesByLabel : ∀ L : CoreLabel, ∃ l,
    Neo4jGraphStore.nodesByLabel pg L.value = .ok (RowOrder.rows (.nodesByLabel L.value) l) ∧
    List.Forall₂ SameProps (g.nodesByLabel L.value) l
  outNeighbors : ∀ n : NodeRef, n.hashable → ∀ relType : String, isIdent relType.toList →
    ∃ l l', g.outNeighbors n.label.value n.key relType = .ok l ∧
      Neo4jGraphStore.outNeighbors pg n.label.value n.key relType =
        .ok (RowOrder.rows (.outNeighbors n.label.value n.key relType) l') ∧
      List.Forall₂ (fun p q => SameProps p.1 q.1 ∧ SameProps p.2 q.2) l l'

namespace GraphClient

variable [Python]

/-- How the calls of a sequence end over a store, and the store that they leave. -/
def session (h : Handler StoreCall StoreCall.Reply PyErr σ) (c : GraphClient) (s : σ) :
    List ClientCall → List (Except PyErr Unit) × σ
  | [] => ([], s)
  | call :: calls =>
    let (result, s) := (call.program c).run h s
    let (results, s) := session h (call.client c) s calls
    (result :: results, s)

/-- Every link of a sequence is made when both its endpoints exist. -/
def Joined (c : GraphClient) (g : InMemoryGraphStore) : List ClientCall → Prop
  | [] => True
  | call :: calls => (∀ w ∈ call.write c, w.Joins g) ∧
    Joined (call.client c) ((call.program c).run handler g).2 calls

end GraphClient

theorem Simulates.reads [Python] [RowOrder] (h : Simulates g pg) (hrec : Recorded hist g)
    (hfree : CoreFree hist) : SameReads g pg where
  getNode n hn :=
    ⟨_, _, g.getNode_ref hn, Neo4jGraphStore.getNode_ref pg n, h.getNode hrec hfree n⟩
  nodesByLabel L := ⟨_, Neo4jGraphStore.nodesByLabel_ref pg L, h.nodesByLabel hrec hfree L⟩
  outNeighbors n hn relType hrel :=
    ⟨_, _, g.outNeighbors_of_nodeKey (NodeRef.nodeKey_of_hashable hn) relType,
      Neo4jGraphStore.outNeighbors_ref pg n (checkIdent_of_isIdent hrel),
      h.outNeighbors hrec hfree n relType⟩

/-- The run of a sequence of calls from stores that are in step. -/
theorem Simulates.session [Python] [RowOrder] (h : Simulates g pg) (hrec : Recorded hist g)
    (hfree : CoreFree hist) {c : GraphClient} {calls : List ClientCall}
    (hcalls : ∀ call ∈ calls, call.Plain ∧ call.Portable) (hjoined : c.Joined g calls) :
    (c.session Neo4jGraphStore.handler pg calls).1 = (c.session handler g calls).1 ∧
      SameReads (c.session handler g calls).2 (c.session Neo4jGraphStore.handler pg calls).2 := by
  induction calls generalizing c g pg hist with
  | nil => exact ⟨rfl, h.reads hrec hfree⟩
  | cons call calls ih =>
    obtain ⟨hplain, hport⟩ := hcalls call List.mem_cons_self
    have hcalls : ∀ call ∈ calls, call.Plain ∧ call.Portable :=
      fun call hcall => hcalls call (List.mem_cons_of_mem _ hcall)
    obtain ⟨hresult, hnext⟩ := h.call hrec hfree hplain hport hjoined.1
    obtain ⟨hist', hrec', hfree'⟩ : ∃ hist', Recorded hist' ((call.program c).run handler g).2 ∧
        CoreFree hist' := by
      have hcall := hrec.call c hplain
      split at hcall
      · rename_i hrun
        rw [hrun]
        exact ⟨_, hcall, hport.coreFree hfree⟩
      · rename_i hrun
        rw [hrun]
        exact ⟨_, hcall, hfree⟩
    obtain ⟨hresults, hreads⟩ := ih hnext hrec' hfree' hcalls hjoined.2
    exact ⟨congrArg₂ List.cons hresult hresults, hreads⟩

namespace ClientCall

/-- **The in-memory store simulates the Neo4j store**, whatever the order in which rows come: the
calls of a client end the same way over both and their reads return the same, when each link is made
between nodes that exist, names are plain identifiers, no subtype is a base label, and attribute
maps leave identity fields and `_labels` alone. -/
theorem stores_agree [Python] [RowOrder] {calls : List ClientCall}
    (hcalls : ∀ call ∈ calls, call.Plain ∧ call.Portable)
    (hjoined : GraphClient.Joined ∅ ∅ calls) :
    let mem := GraphClient.session handler ∅ ∅ calls
    let neo4j := GraphClient.session Neo4jGraphStore.handler ∅ ∅ calls
    neo4j.1 = mem.1 ∧ SameReads mem.2 neo4j.2 :=
  Simulates.session ⟨.nil, .nil⟩ .empty (fun _ _ ⟨_, _, _, hmem⟩ => nomatch hmem) hcalls hjoined

theorem stores_agree_widget :
    let calls : List ClientCall := [
      .registerAllowlists ["Widget"] ["PART_OF"],
      .upsertEntity "u1" (some "Widget") (.ofList [("name", .str "first")]),
      .upsertEntity "u2" none ∅,
      .relateEntities "u1" "u2" "part" ⟨"s", "t", "c"⟩ "PART_OF",
      .relateEntities "u1" "u2" "part" ⟨"s", "t", "c"⟩ "OWNS",
      .addMetricAlias "widgets.weight" "wgt"]
    let mem := GraphClient.session handler ∅ ∅ calls
    let neo4j := GraphClient.session Neo4jGraphStore.handler ∅ ∅ calls
    neo4j.1 = mem.1 ∧ SameReads mem.2 neo4j.2 :=
  stores_agree (by decide)
    ⟨by decide, by decide, by decide, by decide, by decide, by decide, trivial⟩

end ClientCall

end MarginKG
