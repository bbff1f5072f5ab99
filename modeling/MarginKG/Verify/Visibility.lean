import MarginKG.Verify.Asserts
import MarginKG.Verify.Stores

/-! Which of the links that a bundle asserts can be read back after its load
(`ParsedBundle.links_visible_iff`).

The in-memory store records a link whether or not its endpoints are there yet, so all of them are
visible once the bundle is loaded. The Neo4j store makes a link between nodes that it finds at that
moment, and a load links its documents before it writes its entities: a document's link to an
entity that is new to the graph is lost. -/

namespace MarginKG

open PropertyGraph

/-! ## What a reader sees -/

section spec
variable (h : Handler StoreCall StoreCall.Reply PyErr σ)

/-- `get_node` finds the node. -/
def Known (n : NodeRef) (s : σ) : Prop :=
  ∃ node, (h (.getNode n.label.value n.key) s).1 = .ok (some node)

/-- `out_neighbors` returns the link: it leads to the node that `get_node` finds for its target,
and it has its role and its provenance. -/
def Visible (prov : EdgeProvenance) (l : Link) (s : σ) : Prop :=
  ∃ pairs node edge,
    (h (.outNeighbors l.source.label.value l.source.key l.relType) s).1 = .ok pairs ∧
    (node, edge) ∈ pairs ∧
    (h (.getNode l.target.label.value l.target.key) s).1 = .ok (some node) ∧
    fits (l.key.update prov.setProps) edge = true

/-- Each link that the bundle asserts between nodes of the graph before the load or of the bundle
is visible in the graph after it. -/
def ParsedBundle.LinksVisible (b : ParsedBundle) (out : List Resolution) (s₀ s : σ) : Prop :=
  ∀ l, b.Asserts out l → Known h l.source s₀ ∨ b.Carries l.source →
    Known h l.target s₀ ∨ b.Carries l.target → Visible h b.provenance.toEdge l s

end spec

theorem Link.fits_key (l : Link) (prov : EdgeProvenance) :
    fits l.key (l.key.update prov.setProps) = true :=
  fits_iff.mpr fun _ _ => l.get?_key_update prov

theorem ParsedBundle.Writes.prov_eq [Python] {b : ParsedBundle} (h : b.Writes c (.link l prov)) :
    prov = b.provenance.toEdge := by
  cases h <;> rfl

/-! ## In memory -/

namespace InMemoryGraphStore

/-- The edge that is recorded for a link has its role. -/
def HasRoles (g : InMemoryGraphStore) : Prop :=
  ∀ (l : Link) (e : Props), g.edges.get? l.ident = some e → fits l.key e = true

/-- The link is recorded, with its provenance. -/
def Linked (prov : EdgeProvenance) (l : Link) (g : InMemoryGraphStore) : Prop :=
  ∃ e, g.edges.get? l.ident = some e ∧ fits (l.key.update prov.setProps) e = true

/-- What a load does to the graph. -/
structure Grows (prov : EdgeProvenance) (g g' : InMemoryGraphStore) : Prop where
  hasRoles : HasRoles g → HasRoles g'
  known : ∀ n, Known handler n g → Known handler n g'
  linked : ∀ l, Linked prov l g → Linked prov l g'

theorem known_iff {g : InMemoryGraphStore} :
    Known handler n g ↔ n.hashable ∧ ∃ x, g.nodes.get? n.id = some x := by
  change (∃ node, g.getNode n.label.value n.key = .ok (some node)) ↔ _
  by_cases hn : n.hashable
  · simp only [g.getNode_ref hn, Except.ok.injEq, hn, true_and]
  · simp only [getNode, NodeRef.nodeKey_eq, hn]
    simp [Except.map]

theorem HasRoles.link {g : InMemoryGraphStore} (hg : g.HasRoles) (l : Link) :
    fits l.key (g.link l) = true := by
  rw [InMemoryGraphStore.link]
  rcases he : g.edges.get? l.ident with _ | e
  · exact fits_self _
  · exact hg l e he

/-- A write keeps the roles of the edges. -/
theorem HasRoles.write {g : InMemoryGraphStore} (hg : g.HasRoles) (w : Write) :
    (handler w.call g).2.HasRoles := by
  cases w with
  | node n setProps extraLabels =>
    rw [handler_node]
    split <;> exact hg
  | link l prov =>
    rw [handler_link]
    split
    · intro m e he
      dsimp only at he
      rw [Dict.get?_set] at he
      split at he
      · rename_i hident
        cases Link.ident_injective hident
        cases he
        exact fits_trans (l.fits_key prov) (fits_update (hg.link l) _)
      · exact hg m e he
    · exact hg

theorem grows_node {g : InMemoryGraphStore} (n : NodeRef) (setProps : Props)
    (extraLabels : List String) (prov : EdgeProvenance) :
    Grows prov g (handler (Write.node n setProps extraLabels).call g).2 where
  hasRoles hg := hg.write _
  known m hm := by
    rw [known_iff] at hm ⊢
    refine hm.imp_right fun ⟨x, hx⟩ => ?_
    rw [get?_nodes_node]
    split
    · exact ⟨_, rfl⟩
    · exact ⟨x, hx⟩
  linked l hl := by
    rw [handler_node]
    split <;> exact hl

/-- A node that was written is there. -/
theorem known_of_node {g : InMemoryGraphStore}
    (hw : handler (Write.node n setProps extraLabels).call g = (.ok r, g')) :
    Known handler n g' := by
  rw [known_iff]
  by_cases hn : n.hashable
  · have hget := get?_nodes_node g n setProps extraLabels n.id
    rw [hw, if_pos ⟨hn, rfl⟩] at hget
    exact ⟨hn, _, hget⟩
  · rw [handler_node, if_neg hn] at hw
    cases hw

theorem grows_link {g : InMemoryGraphStore} (l : Link) (prov : EdgeProvenance) :
    Grows prov g (handler (Write.link l prov).call g).2 where
  hasRoles hg := hg.write _
  known m hm := by
    rw [known_iff] at hm ⊢
    rwa [nodes_link]
  linked m hm := by
    obtain ⟨e, he, hfits⟩ := hm
    rw [handler_link]
    split
    · rw [Linked]
      dsimp only
      rw [Dict.get?_set]
      split
      · rename_i hident
        cases Link.ident_injective hident
        refine ⟨_, rfl, ?_⟩
        rw [InMemoryGraphStore.link, he]
        exact fits_update_again hfits
      · exact ⟨e, he, hfits⟩
    · exact ⟨e, he, hfits⟩

variable [Python]

/-- The in-memory store makes every link that it is asked to make. -/
theorem serves (c : GraphClient) (b : ParsedBundle) :
    Serves handler (b.Writes c) (Grows b.provenance.toEdge) HasRoles (Known handler)
      (fun _ _ => True) (Linked b.provenance.toEdge) where
  preorder :=
    { refl := fun _ => ⟨id, fun _ => id, fun _ => id⟩
      trans := fun _ _ _ h h' => ⟨h'.hasRoles ∘ h.hasRoles, fun n => h'.known n ∘ h.known n,
        fun l => h'.linked l ∘ h.linked l⟩ }
  inv _ _ h := h.hasRoles
  known n _ _ h := h.known n
  linked l _ _ h := h.linked l
  ready_of_known _ _ := trivial
  node {n setProps extraLabels g r g'} _ _ hw := by
    have hgrows := grows_node (g := g) n setProps extraLabels b.provenance.toEdge
    rw [hw] at hgrows
    exact ⟨hgrows, known_of_node hw⟩
  link {l prov g r g'} hP hg hw := by
    cases hP.prov_eq
    have hgrows := grows_link (g := g) l b.provenance.toEdge
    rw [hw] at hgrows
    refine ⟨hgrows, fun _ => ?_⟩
    by_cases hl : l.hashable
    · rw [handler_link_of_hashable g hl] at hw
      cases hw
      exact ⟨_, Dict.get?_set_self .., fits_update (hg.link l) _⟩
    · rw [handler_link, if_neg hl] at hw
      cases hw
  reads hc := by
    cases hc with
    | write h => exact h.elim
    | metrics | metric => rfl

omit [Python] in
/-- No write takes a node away. -/
theorem known_write (w : Write) {g : InMemoryGraphStore} (h : Known handler n g) :
    Known handler n (handler w.call g).2 := by
  cases w with
  | node m setProps extraLabels =>
    exact (grows_node m setProps extraLabels ⟨"", "", ""⟩).known n h
  | link l prov => exact (grows_link l prov).known n h

omit [Python] in
/-- A load brings the nodes of its bundle. -/
theorem serves_nodes (P : Write → Prop) : Serves handler P
    (fun g g' => ∀ n, Known handler n g → Known handler n g') (fun _ => True) (Known handler)
    (fun _ _ => True) (fun _ _ => True) where
  preorder := { refl := fun _ _ => id, trans := fun _ _ _ h h' n => h' n ∘ h n }
  inv _ _ _ := id
  known n _ _ h := h n
  linked _ _ _ _ := id
  ready_of_known _ _ := trivial
  node {n setProps extraLabels g r g'} _ _ hw := by
    have hgrows := fun m (hm : Known handler m g) =>
      known_write (.node n setProps extraLabels) hm
    rw [hw] at hgrows
    exact ⟨hgrows, known_of_node hw⟩
  link {l prov g r g'} _ _ hw := by
    have hgrows := fun m (hm : Known handler m g) => known_write (.link l prov) hm
    rw [hw] at hgrows
    exact ⟨hgrows, fun _ => trivial⟩
  reads hc := by
    cases hc with
    | write h => exact h.elim
    | metrics | metric => rfl

/-- After a load the nodes of its bundle are there. -/
theorem stored_of_load {b : ParsedBundle} {w w' : ResolverState InMemoryGraphStore}
    (hrun : (loadBundle c r b).run (ResolverState.handler handler) w = (.ok out, w'))
    (hn : b.Carries n) : ∃ x, w'.store.nodes.get? n.id = some x :=
  (known_iff.mp (((serves_nodes _).load r trivial (fun _ _ _ _ _ _ _ _ => trivial) hrun).2.1 n
    (.inr hn))).2

omit [Python] in
/-- A link that is recorded is visible when its endpoints are there. -/
theorem visible_of_linked {g : InMemoryGraphStore} (hl : Linked prov l g)
    (hsrc : Known handler l.source g) (hdst : Known handler l.target g) :
    Visible handler prov l g := by
  obtain ⟨e, he, hfits⟩ := hl
  obtain ⟨hn, -⟩ := known_iff.mp hsrc
  obtain ⟨hm, x, hx⟩ := known_iff.mp hdst
  refine ⟨_, x, e, g.outNeighbors_of_nodeKey (NodeRef.nodeKey_of_hashable hn) l.relType, ?_, ?_,
    hfits⟩
  · exact List.mem_filterMap.mpr ⟨(l.ident, e), Dict.mem_items.mpr he,
      shown_eq_some.mpr ⟨⟨rfl, rfl⟩, x, hx, rfl⟩⟩
  · exact (g.getNode_ref hm).trans (congrArg _ hx)

end InMemoryGraphStore

/-- In a graph that the platform made, an edge that is recorded for a link has its role. -/
theorem System.hasRoles_after [Python] (ops : List Op) : (initial.after ops).graph.HasRoles :=
  after_graph (I := InMemoryGraphStore.HasRoles) (fun w _ _ hg => hg.write w)
    (fun _ _ he => by cases he) ops

/-- Every link that a bundle asserts between known nodes is visible in memory. -/
theorem ParsedBundle.linksVisible_inMemory [Python] (c : GraphClient) (r : Resolver)
    (b : ParsedBundle) {w w' : ResolverState InMemoryGraphStore} (hw : w.store.HasRoles)
    (hrun : (loadBundle c r b).run (ResolverState.handler InMemoryGraphStore.handler) w =
      (.ok out, w')) :
    b.LinksVisible InMemoryGraphStore.handler out w.store w'.store := by
  intro l hl hsrc hdst
  obtain ⟨-, hknown, hlinked⟩ := (InMemoryGraphStore.serves c b).load r hw
    (fun _ _ _ _ _ _ _ _ => trivial) hrun
  exact InMemoryGraphStore.visible_of_linked (hlinked l hl hsrc hdst) (hknown _ hsrc)
    (hknown _ hdst)

/-! ## Over Neo4j -/

@[reducible] def NodeRef.fits (n : NodeRef) : Node String String Value → Bool :=
  Node.fits n.label.value n.key

namespace Neo4jGraphStore

/-- The node carries one base label at most. -/
def OneBaseLabel (a : Node String String Value) : Prop :=
  ∀ L L' : CoreLabel, L.value ∈ a.labels → L'.value ∈ a.labels → L = L'

/-- Storing the properties under the key of `n` changes no identity. -/
structure KeepsIdentity (n : NodeRef) (setProps : Props) (names : List String) : Prop where
  key : ∀ f ∈ n.label.identity, ∀ v, setProps.get? f = some v → n.key.get? f = some v
  label : ∀ L : CoreLabel, L.value ∈ names → L = n.label

/-- What a load does to the graph: nodes keep their numbers and what finds them, a pattern that
finds a node finds no new one, and links stay. -/
structure Grows (prov : EdgeProvenance) (pg pg' : Neo4jGraph) : Prop where
  oneBaseLabel : (∀ a ∈ pg.nodes, OneBaseLabel a) → ∀ a ∈ pg'.nodes, OneBaseLabel a
  nodes : ∀ n : NodeRef, pg.nodes.map n.fits <+: pg'.nodes.map n.fits
  finds : ∀ n : NodeRef, (∃ a ∈ pg.nodes, n.fits a = true) →
    ∀ i ∈ pg'.matchNodes n.label.value n.key, i < pg.nodes.length
  edges : ∀ (rel : String) (l : Link) (i j : Nat),
    (∃ e ∈ pg.edges, e.fits rel (l.key.update prov.setProps) i j = true) →
      ∃ e ∈ pg'.edges, e.fits rel (l.key.update prov.setProps) i j = true

section nodes
variable {n : NodeRef} {setProps : Props} {names : List String} {a : Node String String Value}

theorem KeepsIdentity.of_unset (h : ∀ f ∈ n.label.identity, setProps.get? f = none) :
    KeepsIdentity n setProps [] where
  key f hf v hv := by
    rw [h f hf] at hv
    cases hv
  label _ hL := by cases hL

theorem KeepsIdentity.mem_labels_iff (h : KeepsIdentity n setProps names) (ha : OneBaseLabel a)
    (hfits : n.fits a = true) (L : CoreLabel) :
    L.value ∈ a.labels ∪ names.toFinset ↔ L = n.label := by
  have hlabel := (Node.fits_iff.mp hfits).1
  rw [Finset.mem_union, List.mem_toFinset]
  constructor
  · rintro (hL | hL)
    · exact ha _ _ hL hlabel
    · exact h.label L hL
  · rintro rfl
    exact .inl hlabel

/-- What finds a node before a write finds it afterwards, and nothing else does. -/
theorem KeepsIdentity.fits (h : KeepsIdentity n setProps names) (ha : OneBaseLabel a)
    (hfits : n.fits a = true) (m : NodeRef) :
    m.fits ⟨a.labels ∪ names.toFinset, a.props.update setProps⟩ = m.fits a := by
  obtain ⟨hlabel, hkey⟩ := Node.fits_iff.mp hfits
  have hbase : m.label.value ∈ a.labels ↔ m.label = n.label :=
    ⟨fun hm => ha _ _ hm hlabel, fun hm => hm ▸ hlabel⟩
  rw [Bool.eq_iff_iff, Node.fits_iff, Node.fits_iff, h.mem_labels_iff ha hfits, hbase, fits_iff,
    fits_iff]
  refine and_congr_right fun hm => forall_congr' fun f => forall_congr' fun v =>
    imp_congr_right fun hv => ?_
  have hf : f ∈ n.label.identity := hm ▸ m.keys_key ▸ Dict.mem_keys.mpr ⟨v, hv⟩
  rw [Dict.get?_update]
  rcases hset : setProps.get? f with _ | v'
  · rfl
  · rw [fits_iff.mp hkey f v' (h.key f hf v' hset)]
    rfl

theorem oneBaseLabel_new (n : NodeRef) : OneBaseLabel ⟨{n.label.value}, n.key⟩ := by
  intro L L' hL hL'
  rw [Finset.mem_singleton, CoreLabel.value_inj] at hL hL'
  exact hL.trans hL'.symm

theorem fits_new (n : NodeRef) : n.fits ⟨{n.label.value}, n.key⟩ = true :=
  Node.fits_iff.mpr ⟨Finset.mem_singleton_self _, fits_self _⟩

/-- A node shows the identity of what it fits. -/
theorem get?_of_fits (hfits : n.fits a = true) (hf : f ∈ n.label.identity) :
    ∃ v, n.key.get? f = some v ∧ a.props.get? f = some v := by
  rw [← n.keys_key] at hf
  obtain ⟨v, hv⟩ := Dict.mem_keys.mp hf
  exact ⟨v, hv, fits_iff.mp (Node.fits_iff.mp hfits).2 f v hv⟩

/-- Only its own name fits a new node. -/
theorem eq_of_fits_new {m n : NodeRef} (h : m.fits ⟨{n.label.value}, n.key⟩ = true) : m = n := by
  obtain ⟨hlabel, hkey⟩ := Node.fits_iff.mp h
  have hlabel : m.label = n.label := CoreLabel.value_inj.mp (Finset.mem_singleton.mp hlabel)
  refine NodeRef.eq_of_identity hlabel fun f hf => ?_
  obtain ⟨v, hm, hn⟩ := get?_of_fits h hf
  exact hm.trans hn.symm

theorem grows_mergeNode {pg : Neo4jGraph} (hpg : ∀ a ∈ pg.nodes, OneBaseLabel a)
    (h : KeepsIdentity n setProps names) (prov : EdgeProvenance) :
    Grows prov pg (pg.mergeNode n.label.value n.key fun a =>
      ⟨a.labels ∪ names.toFinset, a.props.update setProps⟩) where
  oneBaseLabel _ := by
    have hset {a : Node String String Value} (ha : OneBaseLabel a) (hfits : n.fits a = true) :
        OneBaseLabel ⟨a.labels ∪ names.toFinset, a.props.update setProps⟩ := fun L L' hL hL' =>
      ((h.mem_labels_iff ha hfits L).mp hL).trans ((h.mem_labels_iff ha hfits L').mp hL').symm
    exact forall_mergeWhere hpg (fun a _ hfits ha => hset ha hfits)
      (hset (oneBaseLabel_new n) (fits_new n))
  nodes m := map_prefix_mergeWhere fun a ha hfits => h.fits (hpg a ha) hfits m
  finds m hm i hi := by
    by_contra hlt
    obtain ⟨a, ha, hfits⟩ := mem_matchNodes.mp hi
    obtain ⟨hno, rfl⟩ := eq_new_of_mergeNode hlt ha
    have hnew := (h.fits (oneBaseLabel_new n) (fits_new n) m).symm.trans hfits
    cases eq_of_fits_new hnew
    obtain ⟨b, hb, hfits⟩ := hm
    exact hno b hb hfits
  edges _ _ _ _ := id

end nodes

theorem grows_mergeEdges (pg : Neo4jGraph) (sl : String) (sk : Props) (dl : String) (dk : Props)
    (rel : String) (pattern : Props) (prov : EdgeProvenance) :
    Grows prov pg (pg.mergeEdges sl sk dl dk rel pattern (·.update prov.setProps)) where
  oneBaseLabel := id
  nodes _ := List.prefix_rfl
  finds _ _ _ := lt_of_mem_matchNodes
  edges rel' l i j := by
    refine exists_mergeRows fun e he => ?_
    obtain ⟨hrel, hi, hj, hfits⟩ := Edge.fits_iff.mp he
    exact Edge.fits_iff.mpr ⟨hrel, hi, hj, fits_update_again hfits⟩

variable [Python] [RowOrder]

theorem known_iff {pg : Neo4jGraph} : Known handler n pg ↔ ∃ a ∈ pg.nodes, n.fits a = true := by
  change (∃ node, getNode pg n.label.value n.key = .ok (some node)) ↔ _
  rw [getNode_ref, ← isSome_found, Option.isSome_iff_exists]
  simp only [Except.ok.injEq]

omit [Python] [RowOrder] in
theorem Grows.exists_fits (h : Grows prov pg pg') {n : NodeRef}
    (hn : ∃ a ∈ pg.nodes, n.fits a = true) : ∃ a ∈ pg'.nodes, n.fits a = true := by
  obtain ⟨a, ha, hfits⟩ := hn
  obtain ⟨i, hi⟩ := List.getElem?_of_mem ha
  obtain ⟨a', ha', hfits'⟩ := getElem?_of_map_prefix (h.nodes n) hi
  exact ⟨a', List.mem_of_getElem? ha', hfits'.trans hfits⟩

theorem Grows.known (h : Grows prov pg pg') (hn : Known handler n pg) : Known handler n pg' :=
  known_iff.mpr (h.exists_fits (known_iff.mp hn))

omit [Python] [RowOrder] in
theorem Grows.mem_matchNodes (h : Grows prov pg pg') {n : NodeRef}
    (hi : i ∈ pg.matchNodes n.label.value n.key) : i ∈ pg'.matchNodes n.label.value n.key := by
  obtain ⟨a, ha, hfits⟩ := PropertyGraph.mem_matchNodes.mp hi
  obtain ⟨a', ha', hfits'⟩ := getElem?_of_map_prefix (h.nodes n) ha
  exact PropertyGraph.mem_matchNodes.mpr ⟨a', ha', hfits'.trans hfits⟩

omit [Python] [RowOrder] in
/-- A node that was there before is found by what found it. -/
theorem Grows.mem_matchNodes_iff (h : Grows prov pg pg') {n : NodeRef} (hi : i < pg.nodes.length) :
    i ∈ pg'.matchNodes n.label.value n.key ↔ i ∈ pg.matchNodes n.label.value n.key := by
  refine ⟨fun hmem => ?_, h.mem_matchNodes⟩
  obtain ⟨a', ha', hfits'⟩ := PropertyGraph.mem_matchNodes.mp hmem
  have ha := List.getElem?_eq_getElem hi
  obtain ⟨a'', ha'', hfits⟩ := getElem?_of_map_prefix (h.nodes n) ha
  cases ha'.symm.trans ha''
  exact PropertyGraph.mem_matchNodes.mpr ⟨_, ha, hfits.symm.trans hfits'⟩

/-- There is an edge for the link, with its role and provenance, to each node that its target
names. -/
def Linked (prov : EdgeProvenance) (l : Link) (pg : Neo4jGraph) : Prop :=
  Known handler l.target pg ∧ ∃ rel, checkIdent l.relType = .ok rel ∧
    ∃ i ∈ pg.matchNodes l.source.label.value l.source.key,
      ∀ j ∈ pg.matchNodes l.target.label.value l.target.key, ∃ e ∈ pg.edges,
        e.fits rel (l.key.update prov.setProps) i j = true

theorem Grows.linked (h : Grows prov pg pg') (hl : Linked prov l pg) : Linked prov l pg' := by
  obtain ⟨hdst, rel, hrel, i, hi, hall⟩ := hl
  refine ⟨h.known hdst, rel, hrel, i, h.mem_matchNodes hi, fun j hj => h.edges rel l i j ?_⟩
  have hlt := h.finds l.target (known_iff.mp hdst) j hj
  exact hall j ((h.mem_matchNodes_iff hlt).mp hj)

/-- A link that is there is visible. -/
theorem visible_of_linked {pg : Neo4jGraph} (hl : Linked prov l pg) :
    Visible handler prov l pg := by
  obtain ⟨⟨node, hnode⟩, rel, hrel, i, hi, hall⟩ := hl
  have hfound := Except.ok.inj ((getNode_ref pg l.target).symm.trans hnode)
  obtain ⟨d, hmem, hdfits, rfl⟩ := exists_of_found hfound
  obtain ⟨j, hj⟩ := List.getElem?_of_mem hmem
  obtain ⟨e, he, hfits⟩ := hall j (PropertyGraph.mem_matchNodes.mpr ⟨d, hj, hdfits⟩)
  obtain ⟨htype, hsrc, rfl, hprops⟩ := Edge.fits_iff.mp hfits
  refine ⟨_, record d, e.props, outNeighbors_ref pg l.source hrel, RowOrder.mem_rows.mpr ?_, hnode,
    hprops⟩
  refine List.mem_map.mpr ⟨(d, e.props), List.mem_flatMap.mpr ⟨i, hi, ?_⟩, rfl⟩
  exact mem_outgoing.mpr ⟨e, he, htype, hsrc, hj, rfl⟩

end Neo4jGraphStore

/-! The entities of a bundle -/

/-- No entity overwrites the `uid` it is found by, and none gets another base label as its
subtype. -/
structure ParsedBundle.KeepsIdentities [Python] (c : GraphClient) (b : ParsedBundle) : Prop where
  uid : ∀ ent ∈ b.entities, ∀ v, (clean ent.attributes).get? "uid" = some v → v = .str ent.uid
  subtype : ∀ ent ∈ b.entities, ∀ label ∈ pickSubtype c ent.candidateLabels,
    ∀ L : CoreLabel, checkIdent label = .ok L.value → L = .entity

namespace Neo4jGraphStore

variable [Python] [RowOrder]

omit [RowOrder] in
/-- The nodes that a load writes. -/
theorem keepsIdentity_of_writes {b : ParsedBundle} (hb : b.KeepsIdentities c)
    (hw : b.Writes c (.node n setProps extraLabels))
    (hnames : extraLabels.mapM checkIdent = .ok names) :
    KeepsIdentity n setProps names := by
  generalize hnode : Write.node n setProps extraLabels = w at hw
  cases hw with
  | document hd =>
    cases hnode
    cases hnames
    refine KeepsIdentity.of_unset fun f hf => ?_
    rw [List.mem_singleton.mp hf, get?_clean]
    rfl
  | column hcol =>
    cases hnode
    cases hnames
    refine KeepsIdentity.of_unset fun f hf => ?_
    rw [get?_clean]
    simp only [ObservedColumn.ref, NodeRef.label, CoreLabel.identity, List.mem_cons,
      List.not_mem_nil, or_false] at hf
    rcases hf with rfl | rfl | rfl <;> rfl
  | entity hent =>
    cases hnode
    constructor
    · intro f hf v hv
      rw [List.mem_singleton.mp hf] at hv ⊢
      rw [hb.uid _ hent v hv]
      rfl
    · intro L hL
      obtain ⟨label, hlabel, hcheck⟩ := exists_mem_of_forall₂ (Program.mapM_eq_ok.mp hnames) hL
      refine hb.subtype _ hent label ?_ L hcheck
      split at hlabel
      · cases hlabel
      · rename_i sub hsub
        split at hlabel
        · cases hlabel
        · rw [List.mem_singleton.mp hlabel]
          exact hsub
  | describes | defines | relation | measures | appliesTo => cases hnode

omit [Python] [RowOrder] in
theorem preorder_grows (prov : EdgeProvenance) : IsPreorder Neo4jGraph (Grows prov) where
  refl _ := ⟨id, fun _ => List.prefix_rfl, fun _ _ _ => lt_of_mem_matchNodes, fun _ _ _ _ => id⟩
  trans _ _ _ h h' := {
    oneBaseLabel := h'.oneBaseLabel ∘ h.oneBaseLabel
    nodes := fun n => (h.nodes n).trans (h'.nodes n)
    finds := fun n hn i hi => h.finds n hn i <|
      (h'.mem_matchNodes_iff (h'.finds n (h.exists_fits hn) i hi)).mp hi
    edges := fun rel l i j => h'.edges rel l i j ∘ h.edges rel l i j }

/-- The Neo4j store makes the links whose endpoints it finds. -/
theorem serves {b : ParsedBundle} (hb : b.KeepsIdentities c) :
    Serves handler (b.Writes c) (Grows b.provenance.toEdge)
      (fun pg => ∀ a ∈ pg.nodes, OneBaseLabel a) (Known handler)
      (fun l pg => Known handler l.source pg ∧ Known handler l.target pg)
      (Linked b.provenance.toEdge) where
  preorder := preorder_grows _
  inv _ _ h := h.oneBaseLabel
  known _ _ _ h := h.known
  linked _ _ _ h := h.linked
  ready_of_known := .intro
  node {n setProps extraLabels pg r pg'} hP hpg hw := by
    rw [handler_node] at hw
    split at hw <;> cases hw
    rename_i names hnames
    have h := keepsIdentity_of_writes hb hP hnames
    refine ⟨grows_mergeNode hpg h _, known_iff.mpr ?_⟩
    rw [nodes_mergeNode]
    refine exists_mergeWhere_update ?_ ?_
    · exact fun a ha hfits => (h.fits (hpg a ha) hfits n).trans hfits
    · exact (h.fits (oneBaseLabel_new n) (fits_new n) n).trans (fits_new n)
  link {l prov pg r pg'} hP hpg hw := by
    cases hP.prov_eq
    rw [handler_link] at hw
    split at hw <;> cases hw
    rename_i rel hrel
    refine ⟨grows_mergeEdges .., fun ⟨hsrc, hdst⟩ => ⟨hdst, rel, hrel, ?_⟩⟩
    obtain ⟨i, hi⟩ := exists_mem_matchNodes (known_iff.mp hsrc)
    refine ⟨i, hi, fun j hj => ?_⟩
    have hrow : (i, j) ∈ pg.matchPairs l.source.label.value l.source.key l.target.label.value
        l.target.key := mem_matchPairs.mpr ⟨hi, hj⟩
    refine exists_mergeRows_row (fun e he => ?_) hrow (fun e he => ?_) ?_
    · obtain ⟨htype, hs, ht, hfits⟩ := Edge.fits_iff.mp he
      exact Edge.fits_iff.mpr ⟨htype, hs, ht, fits_update_again hfits⟩
    · obtain ⟨htype, hs, ht, hfits⟩ := Edge.fits_iff.mp he
      exact Edge.fits_iff.mpr ⟨htype, hs, ht, fits_update hfits _⟩
    · exact Edge.fits_iff.mpr ⟨rfl, rfl, rfl, fits_self _⟩
  reads hc := by
    cases hc with
    | write h => exact h.elim
    | metrics | metric => rfl

/-! Links that stay lost -/

/-- No edge of the link's type joins nodes that its source and its target find. -/
def Unlinked (l : Link) (pg : Neo4jGraph) : Prop :=
  ∀ e ∈ pg.edges, e.relType = l.relType →
    e.src ∈ pg.matchNodes l.source.label.value l.source.key →
      e.dst ∉ pg.matchNodes l.target.label.value l.target.key

omit [Python] [RowOrder] in
theorem record_fits {a d : Node String String Value} (h : record d = record a) {n : NodeRef}
    (hfits : n.fits a = true) : n.fits d = true := by
  obtain ⟨hlabel, hkey⟩ := Node.fits_iff.mp hfits
  have hget (f : String) : (record d).get? f = (record a).get? f := by rw [h]
  have hlabels : d.labels = a.labels := by
    have hl := hget "_labels"
    rw [record, record, Dict.get?_set_self, Dict.get?_set_self] at hl
    exact Value.set.inj (Option.some.inj hl)
  refine Node.fits_iff.mpr ⟨hlabels ▸ hlabel, fits_iff.mpr fun f v hv => ?_⟩
  have hf : "_labels" ≠ f := fun hf => labels_not_mem_identity n.label <|
    n.keys_key ▸ Dict.mem_keys.mpr ⟨v, hf ▸ hv⟩
  have hp := hget f
  rw [record, record, Dict.get?_set_of_ne hf, Dict.get?_set_of_ne hf] at hp
  rw [hp]
  exact fits_iff.mp hkey f v hv

theorem not_visible_of_unlinked {pg : Neo4jGraph} (h : Unlinked l pg)
    (hrel : checkIdent l.relType = .ok l.relType) : ¬ Visible handler prov l pg := by
  rintro ⟨pairs, node, edge, hpairs, hmem, hnode, -⟩
  cases (outNeighbors_ref pg l.source hrel).symm.trans hpairs
  obtain ⟨⟨d, r⟩, hd, heq⟩ := List.mem_map.mp (RowOrder.mem_rows.mp hmem)
  cases heq
  obtain ⟨i, hi, hd⟩ := List.mem_flatMap.mp hd
  obtain ⟨e, he, htype, rfl, hdst, -⟩ := mem_outgoing.mp hd
  have hfound := Except.ok.inj ((getNode_ref pg l.target).symm.trans hnode)
  obtain ⟨a, -, hfits, hrecord⟩ := exists_of_found hfound
  refine h e he htype hi (PropertyGraph.mem_matchNodes.mpr ⟨d, hdst, ?_⟩)
  exact record_fits hrecord.symm hfits

omit [Python] [RowOrder] in
/-- A write of a node makes no link. -/
theorem Unlinked.of_grows (h : Unlinked l pg) (hgrows : Grows prov pg pg')
    (hedges : pg'.edges = pg.edges) : Unlinked l pg' := by
  intro e he htype hsrc
  rw [hedges] at he
  obtain ⟨hi, hj⟩ := pg.joined e he
  rw [hgrows.mem_matchNodes_iff hi] at hsrc
  rw [hgrows.mem_matchNodes_iff hj]
  exact h e he htype hsrc

omit [Python] [RowOrder] in
/-- A link from another kind of node is not this link. -/
theorem Unlinked.link {pg : Neo4jGraph} (hpg : ∀ a ∈ pg.nodes, OneBaseLabel a) (h : Unlinked l pg)
    {m : Link} (hm : m.source.label ≠ l.source.label) (rel : String) (prov : EdgeProvenance) :
    Unlinked l (pg.mergeEdges m.source.label.value m.source.key m.target.label.value m.target.key
      rel m.key (·.update prov.setProps)) := by
  refine forall_mergeRows h (fun e he => he) fun row hrow _ hsrc => ?_
  obtain ⟨a, ha, hfits⟩ := PropertyGraph.mem_matchNodes.mp (mem_matchPairs.mp hrow).1
  obtain ⟨a', ha', hfits'⟩ := PropertyGraph.mem_matchNodes.mp hsrc
  cases ha.symm.trans ha'
  exact (hm (hpg a (List.mem_of_getElem? ha) _ _ (Node.fits_iff.mp hfits).1
    (Node.fits_iff.mp hfits').1)).elim

omit [Python] [RowOrder] in
/-- A node with another base label does not come into being. -/
theorem forall_fits_mergeNode {pg : Neo4jGraph} (hpg : ∀ a ∈ pg.nodes, OneBaseLabel a)
    (h : KeepsIdentity n setProps names) {m : NodeRef} (hm : m.label ≠ n.label)
    (hno : ∀ a ∈ pg.nodes, m.fits a = false) :
    ∀ a ∈ (pg.mergeNode n.label.value n.key fun a =>
      ⟨a.labels ∪ names.toFinset, a.props.update setProps⟩).nodes, m.fits a = false := by
  have hnew : m.fits ⟨{n.label.value}, n.key⟩ = false := by
    refine Bool.eq_false_iff.mpr fun hfits => hm ?_
    exact CoreLabel.value_inj.mp (Finset.mem_singleton.mp (Node.fits_iff.mp hfits).1)
  rw [nodes_mergeNode]
  exact forall_mergeWhere hno (fun a ha hfits hma => (h.fits (hpg a ha) hfits m).trans hma)
    ((h.fits (oneBaseLabel_new n) (fits_new n) m).trans hnew)

/-- What the writes of a program keep, its run keeps. -/
theorem run_store {I : Neo4jGraph → Prop} {P : Write → Prop} {p : ResolverProgram α}
    (hp : p.Uses (Reaches (Makes P) queue)) (hI : ∀ w pg, P w → I pg → I (handler w.call pg).2)
    {w : ResolverState Neo4jGraph} (hw : I w.store) :
    I (p.run (ResolverState.handler handler) w).2.store := by
  refine hp.run (I := fun w : ResolverState Neo4jGraph => I w.store) (fun call w hcall hw => ?_) hw
  cases hcall with
  | enqueue => exact hw
  | store hcall =>
    cases hcall with
    | write hP => exact hI _ _ hP hw
    | metrics | metric => exact hw

end Neo4jGraphStore

/-! ## A load in two parts -/

def ParsedBundle.documentsOnly (b : ParsedBundle) : ParsedBundle :=
  { b with columns := [], entities := [], relations := [] }

def ParsedBundle.withoutDocuments (b : ParsedBundle) : ParsedBundle := { b with documents := [] }

/-- A load writes the documents and their links first. -/
theorem loadBundle_eq_documents [Python] (c : GraphClient) (r : Resolver) (b : ParsedBundle) :
    loadBundle c r b = (liftStore (loadRecords c b.documentsOnly) >>= fun _ =>
      loadBundle c r b.withoutDocuments) := by
  have hdocuments : loadRecords c b.documentsOnly =
      (b.documents.forM (loadDocument b.provenance.toEdge) >>= fun _ => .ret ()) := rfl
  have hrecords : loadRecords c b =
      (loadRecords c b.documentsOnly >>= fun _ => loadRecords c b.withoutDocuments) := by
    rw [hdocuments, Program.bind_assoc]
    rfl
  rw [loadBundle, hrecords, liftStore, Program.lift_bind, Program.bind_assoc]
  rfl

namespace Neo4jGraphStore

variable [Python] [RowOrder]

/-- While the documents are loaded, no entity is written. -/
theorem documents_step {b : ParsedBundle} (hw : b.documentsOnly.Writes c w)
    (h : ∀ a ∈ pg.nodes, OneBaseLabel a ∧ (NodeRef.entity uid).fits a = false) :
    ∀ a ∈ (handler w.call pg).2.nodes, OneBaseLabel a ∧ (NodeRef.entity uid).fits a = false := by
  have hb : b.documentsOnly.KeepsIdentities c := ⟨nofun, nofun⟩
  cases w with
  | node n setProps extraLabels =>
    have hn : NodeRef.label (.entity uid) ≠ n.label := by
      cases hw with
      | document => nofun
      | column hcol => cases hcol
      | entity hent => cases hent
    rw [handler_node]
    split
    · rename_i names hnames
      have hkeeps := keepsIdentity_of_writes hb hw hnames
      have hpg := fun a ha => (h a ha).1
      exact fun a ha => ⟨(grows_mergeNode hpg hkeeps b.provenance.toEdge).oneBaseLabel hpg a ha,
        forall_fits_mergeNode hpg hkeeps hn (fun a ha => (h a ha).2) a ha⟩
    · exact h
  | link l prov =>
    rw [handler_link]
    split <;> exact h

/-- After the documents, no link of a document is made. -/
theorem rest_step {b : ParsedBundle} (hb : b.KeepsIdentities c) (hw : b.withoutDocuments.Writes c w)
    (h : (∀ a ∈ pg.nodes, OneBaseLabel a) ∧ Unlinked (.describes uri uid) pg) :
    (∀ a ∈ (handler w.call pg).2.nodes, OneBaseLabel a) ∧
      Unlinked (.describes uri uid) (handler w.call pg).2 := by
  have hb : b.withoutDocuments.KeepsIdentities c := ⟨hb.uid, hb.subtype⟩
  cases w with
  | node n setProps extraLabels =>
    rw [handler_node]
    split
    · rename_i names hnames
      have hgrows := grows_mergeNode h.1 (keepsIdentity_of_writes hb hw hnames) b.provenance.toEdge
      exact ⟨hgrows.oneBaseLabel h.1, h.2.of_grows hgrows rfl⟩
    · exact h
  | link m prov =>
    have hm : m.source.label ≠ (Link.describes uri uid).source.label := by
      cases hw with
      | describes hd | defines hd => cases hd
      | relation | measures | appliesTo => nofun
    rw [handler_link]
    split
    · exact ⟨h.1, h.2.link h.1 hm _ prov⟩
    · exact h

/-- A document's link to an entity that was not there before the load is not there after it. -/
theorem describes_lost (r : Resolver) {b : ParsedBundle} (hb : b.KeepsIdentities c)
    {w w' : ResolverState Neo4jGraph} (hw : ∀ a ∈ w.store.nodes, OneBaseLabel a)
    (hrun : (loadBundle c r b).run (ResolverState.handler handler) w = (.ok out, w'))
    (hno : ¬ Known handler (.entity uid) w.store) (prov : EdgeProvenance) :
    ¬ Visible handler prov (.describes uri uid) w'.store := by
  have hno : ∀ a ∈ w.store.nodes, (NodeRef.entity uid).fits a = false := fun a ha =>
    Bool.eq_false_iff.mpr fun hfits => hno (known_iff.mpr ⟨a, ha, hfits⟩)
  rw [loadBundle_eq_documents, Program.run_bind] at hrun
  have hdocs := run_store (I := fun pg => ∀ a ∈ pg.nodes,
      OneBaseLabel a ∧ (NodeRef.entity uid).fits a = false)
    (liftStore_uses (loadRecords_uses c b.documentsOnly) r.queue)
    (fun _ _ => documents_step) fun a ha => ⟨hw a ha, hno a ha⟩
  rcases hmid : (liftStore (loadRecords c b.documentsOnly)).run (ResolverState.handler handler) w
    with ⟨e | u, w₁⟩ <;> rw [hmid] at hrun hdocs
  · cases hrun
  have hunlinked : Unlinked (.describes uri uid) w₁.store := by
    intro e he htype hsrc hdst
    obtain ⟨a, ha, hfits⟩ := PropertyGraph.mem_matchNodes.mp hdst
    exact absurd hfits (Bool.eq_false_iff.mp (hdocs a (List.mem_of_getElem? ha)).2)
  have hrest := run_store (I := fun pg =>
      (∀ a ∈ pg.nodes, OneBaseLabel a) ∧ Unlinked (.describes uri uid) pg)
    (loadBundle_uses c r b.withoutDocuments) (fun _ _ => rest_step hb)
    ⟨fun a ha => (hdocs a ha).1, hunlinked⟩
  dsimp only at hrun
  rw [hrun] at hrest
  exact not_visible_of_unlinked hrest.2 (checkIdent_of_isIdent (RelType.isIdent .describes))

end Neo4jGraphStore

/-- Over Neo4j, every link that a bundle asserts between known nodes is visible exactly when each
entity that it brings and that its documents describe was there before the load. -/
theorem ParsedBundle.linksVisible_neo4j [Python] [RowOrder] (r : Resolver) {b : ParsedBundle}
    (hb : b.KeepsIdentities c) {w w' : ResolverState Neo4jGraph}
    (hw : ∀ a ∈ w.store.nodes, Neo4jGraphStore.OneBaseLabel a)
    (hrun : (loadBundle c r b).run (ResolverState.handler Neo4jGraphStore.handler) w =
      (.ok out, w')) :
    b.LinksVisible Neo4jGraphStore.handler out w.store w'.store ↔
      ∀ d ∈ b.documents, ∀ uid ∈ d.describes, b.Carries (.entity uid) →
        Known Neo4jGraphStore.handler (.entity uid) w.store := by
  constructor
  · intro h d hd uid huid hcarried
    by_contra hno
    exact Neo4jGraphStore.describes_lost r hb hw hrun hno _
      (h _ (.describes hd huid) (.inr (.document hd)) (.inr hcarried))
  · intro h l hl hsrc hdst
    have S := Neo4jGraphStore.serves hb
    obtain ⟨-, -, hlinked⟩ := S.load r hw (fun d hd uid huid hk s hs hdoc =>
      ⟨hdoc, S.known _ hs.2 (hk.elim id (h d hd uid huid))⟩) hrun
    exact Neo4jGraphStore.visible_of_linked (hlinked l hl hsrc hdst)

/-- **The links of a bundle**: over both stores, every link that it asserts between known nodes is
visible after the load exactly when each entity that it brings and that its documents describe was
in the Neo4j graph before. In memory all of them always are. -/
theorem ParsedBundle.links_visible_iff [Python] [RowOrder] (c : GraphClient) (r : Resolver)
    (b : ParsedBundle) (ops : List Op) {w₁ : ResolverState InMemoryGraphStore}
    {w w' : ResolverState Neo4jGraph}
    (hb : b.KeepsIdentities c) (hw : ∀ a ∈ w.store.nodes, Neo4jGraphStore.OneBaseLabel a)
    (hmem : (loadBundle c r b).run (ResolverState.handler InMemoryGraphStore.handler)
      (System.initial.after ops).state.world = (.ok out₁, w₁))
    (hneo4j : (loadBundle c r b).run (ResolverState.handler Neo4jGraphStore.handler) w =
      (.ok out, w')) :
    b.LinksVisible InMemoryGraphStore.handler out₁ (System.initial.after ops).graph w₁.store ∧
        b.LinksVisible Neo4jGraphStore.handler out w.store w'.store ↔
      ∀ d ∈ b.documents, ∀ uid ∈ d.describes, b.Carries (.entity uid) →
        Known Neo4jGraphStore.handler (.entity uid) w.store := by
  rw [ParsedBundle.linksVisible_neo4j r hb hw hneo4j]
  exact and_iff_right (b.linksVisible_inMemory c r (System.hasRoles_after ops) hmem)

theorem ParsedBundle.links_visible_described :
    let b : ParsedBundle := {
      provenance := ⟨"s", "t", "v"⟩
      documents := [{ uri := "d1", describes := ["e1"] }]
      entities := [{ uid := "e1" }] }
    let g : Neo4jGraph := (∅ : Neo4jGraph).mergeNode "Entity" (entityKey "e1") id
    let r : Resolver := { suggester := fun _ _ => .ok [], queue := 0 }
    ∃ w₁ w', (loadBundle ∅ r b).run (ResolverState.handler InMemoryGraphStore.handler)
        System.initial.state.world = (.ok [], w₁) ∧
      (loadBundle ∅ r b).run (ResolverState.handler Neo4jGraphStore.handler) ⟨g, []⟩ =
        (.ok [], w') ∧
      b.LinksVisible InMemoryGraphStore.handler [] ∅ w₁.store ∧
      b.LinksVisible Neo4jGraphStore.handler [] g w'.store := by
  intro b g r
  obtain ⟨w₁, hmem⟩ : ∃ w₁, (loadBundle ∅ r b).run
      (ResolverState.handler InMemoryGraphStore.handler) (System.initial.after []).state.world =
        (.ok [], w₁) := ⟨_, rfl⟩
  obtain ⟨w', hneo4j⟩ : ∃ w', (loadBundle ∅ r b).run
      (ResolverState.handler Neo4jGraphStore.handler) ⟨g, []⟩ = (.ok [], w') := ⟨_, rfl⟩
  refine ⟨w₁, w', hmem, hneo4j,
    (ParsedBundle.links_visible_iff ∅ r b [] ⟨?_, ?_⟩ ?_ hmem hneo4j).mpr ?_⟩
  · intro ent hent v hv
    cases List.mem_singleton.mp hent
    cases hv
  · intro ent hent label hlabel
    cases List.mem_singleton.mp hent
    cases hlabel
  · intro a ha
    cases List.mem_singleton.mp ha
    exact Neo4jGraphStore.oneBaseLabel_new (.entity "e1")
  · intro d hd uid huid _
    cases List.mem_singleton.mp hd
    cases List.mem_singleton.mp huid
    exact Neo4jGraphStore.known_iff.mpr ⟨_, List.mem_singleton_self _,
      Neo4jGraphStore.fits_new (.entity "e1")⟩

/-- A document's link to an entity of the same bundle is lost in an empty Neo4j graph. -/
theorem ParsedBundle.links_visible_lost :
    let b : ParsedBundle := {
      provenance := ⟨"s", "t", "v"⟩
      documents := [{ uri := "d1", describes := ["e1"] }]
      entities := [{ uid := "e1" }] }
    let r : Resolver := { suggester := fun _ _ => .ok [], queue := 0 }
    ∃ w', (loadBundle ∅ r b).run (ResolverState.handler Neo4jGraphStore.handler) ⟨∅, []⟩ =
        (.ok [], w') ∧ ¬ b.LinksVisible Neo4jGraphStore.handler [] ∅ w'.store := by
  intro b r
  refine ⟨_, rfl, fun h => ?_⟩
  have hd := List.mem_singleton_self ({ uri := "d1", describes := ["e1"] } : ObservedDocument)
  have hdoc := ParsedBundle.Carries.document (b := b) hd
  have hent := ParsedBundle.Carries.entity (b := b)
    (List.mem_singleton_self ({ uid := "e1" } : ObservedEntity))
  obtain ⟨pairs, node, edge, hpairs, hmem, -⟩ :=
    h _ (.describes hd List.mem_cons_self) (.inr hdoc) (.inr hent)
  cases hpairs
  cases hmem

end MarginKG
