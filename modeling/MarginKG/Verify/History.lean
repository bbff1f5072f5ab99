import Mathlib.Data.Set.List
import MarginKG.Verify.Labels

/-! Reads equal the history of writes: what `get_node`, `out_neighbors` and `resolve_column` show
after any calls of the client is said by the calls that it accepted (`System.reads_history`).

The history is a list of calls, the newest first. What it says about a property or about a link
is found by going back to the last call that says something (`supplied`, `lastLink`). An accepted
subtype becomes a label unless it is the empty string (`empty_subtype_dropped`). -/

namespace MarginKG

open InMemoryGraphStore

namespace ClientCall

/-! ## What a call says -/

/-- The node that a call upserts. -/
def upserts : ClientCall → Option NodeRef
  | upsertEntity uid .. => some (.entity uid)
  | upsertMetric metricKey .. | addMetricAlias metricKey _ => some (.metric (.str metricKey))
  | upsertColumn system table name .. => some (.column system table name)
  | upsertDocument uri .. => some (.document uri)
  | upsertBenchmark benchmarkKey _ => some (.benchmark benchmarkKey)
  | upsertParty uid _ => some (.party uid)
  | _ => none

/-- The attribute map of a call. -/
def attributes : ClientCall → Props
  | upsertEntity _ _ attributes | upsertMetric _ _ _ _ _ _ attributes
  | upsertBenchmark _ attributes | upsertParty _ attributes => attributes
  | _ => ∅

/-- The attribute map names no identity field of the node, and not `_labels`. -/
def Plain (call : ClientCall) : Prop :=
  ∀ n ∈ call.upserts, ∀ f ∈ "_labels" :: n.label.identity, call.attributes.get? f = none

instance (call : ClientCall) : Decidable call.Plain := inferInstanceAs (Decidable (∀ n ∈ _, _))

/-- The named arguments of a call that become properties, `None` where one is not given. -/
def arguments : ClientCall → List (String × Value)
  | upsertMetric _ formula unit numeratorDef denominatorDef provenance _ => [
    ("formula", .ofOption formula), ("unit", .ofOption unit),
    ("numerator_def", .ofOption numeratorDef), ("denominator_def", .ofOption denominatorDef),
    ("provenance", .ofOption provenance)]
  | upsertColumn _ _ _ dtype sampleValues hasDictionary => [
    ("dtype", .ofOption dtype), ("sample_values", .list (sampleValues.map .str)),
    ("has_dictionary", .bool hasDictionary)]
  | upsertDocument _ title text asOf => [
    ("title", .ofOption title), ("text", .str text), ("as_of", .ofOption asOf)]
  | _ => []

/-- The value that a call supplies for the property `f` of its node, unless it is `None`. An
attribute goes before a named argument. A new alias goes to the end of the list `old` that was
supplied last, unless it is there. -/
def supplies (old : Option Value) (f : String) : ClientCall → Option Value
  | addMetricAlias _ aliasName =>
    if f = "aliases" then
      some (.list (GraphClient.extendAliases ((old.bind Value.iter).getD []) aliasName))
    else none
  | call => ((call.attributes.get? f).or (Entries.get? f call.arguments)).filter (· ≠ .null)

/-- The link that a call makes, with its provenance. -/
def links : ClientCall → Option (Link × EdgeProvenance)
  | linkColumnToMetric system table name metricKey prov =>
    some (.measures system table name (.str metricKey), prov)
  | linkMetricToEntity metricKey entityUid prov =>
    some (.appliesTo (.str metricKey) entityUid, prov)
  | linkMetricToDocument metricKey uri prov => some (.definedIn metricKey uri, prov)
  | linkMetricToBenchmark metricKey benchmarkKey prov =>
    some (.benchmarkedAgainst metricKey benchmarkKey, prov)
  | linkMetricComputedFrom metricKey sourceMetricKey prov =>
    some (.computedFrom metricKey sourceMetricKey, prov)
  | linkDocumentToEntity uri entityUid prov => some (.describes uri entityUid, prov)
  | linkPartyToEntity partyUid entityUid role prov =>
    some (.hasRole partyUid entityUid role, prov)
  | relateEntities subjectUid objectUid role prov relType =>
    some (.related relType subjectUid objectUid role, prov)
  | _ => none

end ClientCall

/-! ## What the history says -/

/-- Some call upserted the node. -/
def Upserted (h : List ClientCall) (n : NodeRef) : Prop := ∃ call ∈ h, call.upserts = some n

/-- The value supplied last for a property of a node. -/
def supplied (n : NodeRef) (f : String) : List ClientCall → Option Value
  | [] => none
  | call :: older =>
    if call.upserts = some n then (call.supplies (supplied n f older) f).or (supplied n f older)
    else supplied n f older

/-- The subtype was accepted for the node. -/
def SubtypeOf (h : List ClientCall) (n : NodeRef) (label : String) : Prop :=
  ∃ uid attributes, n = .entity uid ∧ .upsertEntity uid (some label) attributes ∈ h

/-- The provenance that a link was made with last. -/
def lastLink (l : Link) : List ClientCall → Option EdgeProvenance
  | [] => none
  | call :: older =>
    match call.links with
    | some (l', prov) => if l' = l then some prov else lastLink l older
    | none => lastLink l older

/-- The properties are those that the history gives the node: its key, its base label with the
accepted subtypes, and else the values supplied last. -/
structure Describes (h : List ClientCall) (n : NodeRef) (node : Props) : Prop where
  key : ∀ f ∈ n.label.identity, node.get? f = n.key.get? f
  labels : ∃ labels, node.get? "_labels" = some (.set labels) ∧
    ∀ label, label ∈ labels ↔ label = n.label.value ∨ label ≠ "" ∧ SubtypeOf h n label
  props : ∀ f ∉ "_labels" :: n.label.identity, node.get? f = supplied n f h

/-- The links from a node that are shown: one for each identity, to the nodes that have been
upserted. -/
structure Neighbors (h : List ClientCall) (k : NodeKey) (relType : String) (ls : List Link) :
    Prop where
  nodup : ls.Nodup
  mem : ∀ l, l ∈ ls ↔ l.source.id = k ∧ l.relType = relType ∧ (lastLink l h).isSome ∧
    Upserted h l.target

/-- What `get_node` shows of the node with the identity `k`. -/
def ShowsNode (h : List ClientCall) (k : NodeKey) : Option Props → Prop
  | none => ∀ n, n.id = k → ¬ Upserted h n
  | some node => ∃ n, n.id = k ∧ Upserted h n ∧ Describes h n node

/-- What `out_neighbors` shows of the links of a type from the node with the identity `k`: one
pair for each, the target and the edge with its provenance. -/
def ShowsNeighbors (h : List ClientCall) (k : NodeKey) (relType : String)
    (pairs : List (Props × Props)) : Prop :=
  ∃ ls, Neighbors h k relType ls ∧ List.Forall₂ (fun l pair => Describes h l.target pair.1 ∧
    ∃ prov, lastLink l h = some prov ∧ pair.2.get? = (l.key.update prov.setProps).get?) ls pairs

/-- What `resolve_column` shows of a metric: the entities it is linked to. -/
def ShowsMetric (h : List ClientCall) (n : NodeRef) (m : GraphClient.ResolvedMetric) : Prop :=
  Describes h n m.metric ∧ ∃ ls, Neighbors h n.id RelType.appliesTo.value ls ∧
    List.Forall₂ (fun l entity => Describes h l.target entity) ls m.appliesTo

/-- What `resolve_column` shows of a column: the metrics it is linked to. -/
def ShowsColumn (h : List ClientCall) (n : NodeRef) : Option GraphClient.ResolvedColumn → Prop
  | none => ¬ Upserted h n
  | some r => Upserted h n ∧ Describes h n r.column ∧
    ∃ ls, Neighbors h n.id RelType.measures.value ls ∧
      List.Forall₂ (fun l m => ShowsMetric h l.target m) ls r.metrics

/-- Every read of the graph shows what the history says. -/
structure Reads (h : List ClientCall) (g : InMemoryGraphStore) : Prop where
  getNode : nodeKey label key = .ok k → ∃ r, g.getNode label key = .ok r ∧ ShowsNode h k r
  outNeighbors : nodeKey label key = .ok k → ∀ relType,
    ∃ pairs, g.outNeighbors label key relType = .ok pairs ∧ ShowsNeighbors h k relType pairs
  resolveColumn : ∀ system table name,
    ∃ r, (GraphClient.resolveColumn system table name).run handler g = (.ok r, g) ∧
      ShowsColumn h (.column system table name) r

theorem Upserted.cons (h : Upserted hist n) (call : ClientCall) : Upserted (call :: hist) n :=
  let ⟨c, hc, hn⟩ := h
  ⟨c, List.mem_cons_of_mem _ hc, hn⟩

theorem upserted_cons : Upserted (call :: hist) n ↔ call.upserts = some n ∨ Upserted hist n := by
  simp [Upserted]

theorem supplied_cons_of_ne {call : ClientCall} (h : call.upserts ≠ some n) (f : String) :
    supplied n f (call :: hist) = supplied n f hist := if_neg h

theorem supplied_cons {call : ClientCall} (h : call.upserts = some n) (f : String) :
    supplied n f (call :: hist) =
      (call.supplies (supplied n f hist) f).or (supplied n f hist) := if_pos h

theorem subtypeOf_cons : SubtypeOf (call :: hist) n label ↔
    (∃ uid attributes, n = .entity uid ∧ call = .upsertEntity uid (some label) attributes) ∨
      SubtypeOf hist n label := by
  simp only [SubtypeOf, List.mem_cons]
  constructor
  · rintro ⟨uid, attributes, hn, rfl | hmem⟩
    · exact .inl ⟨uid, attributes, hn, rfl⟩
    · exact .inr ⟨uid, attributes, hn, hmem⟩
  · rintro (⟨uid, attributes, hn, rfl⟩ | ⟨uid, attributes, hn, hmem⟩)
    · exact ⟨uid, attributes, hn, .inl rfl⟩
    · exact ⟨uid, attributes, hn, .inr hmem⟩

theorem subtypeOf_cons_of_ne {call : ClientCall} (h : call.upserts ≠ some n) :
    SubtypeOf (call :: hist) n label ↔ SubtypeOf hist n label := by
  rw [subtypeOf_cons, or_iff_right]
  rintro ⟨uid, attributes, rfl, rfl⟩
  exact h rfl

theorem lastLink_cons_of_none {call : ClientCall} (h : call.links = none) (l : Link) :
    lastLink l (call :: hist) = lastLink l hist := by
  rw [lastLink, h]

theorem lastLink_cons {call : ClientCall} (h : call.links = some (l', prov)) (l : Link) :
    lastLink l (call :: hist) = if l' = l then some prov else lastLink l hist := by
  rw [lastLink, h]

theorem supplied_of_not_upserted (h : ¬ Upserted hist n) (f : String) :
    supplied n f hist = none := by
  induction hist with
  | nil => rfl
  | cons call hist ih =>
    rw [upserted_cons, not_or] at h
    rw [supplied_cons_of_ne h.1, ih h.2]

theorem SubtypeOf.upserted (h : SubtypeOf hist n label) : Upserted hist n := by
  obtain ⟨uid, attributes, rfl, hmem⟩ := h
  exact ⟨_, hmem, rfl⟩

/-- A metric that was upserted has a text for its key. -/
theorem Upserted.metric_key (h : Upserted hist (.metric v)) : ∃ k, v = .str k := by
  obtain ⟨call, -, hup⟩ := h
  cases call <;> cases hup <;> exact ⟨_, rfl⟩

theorem labels_not_mem_identity (L : CoreLabel) : "_labels" ∉ L.identity := by
  cases L <;> decide

/-- A new node has its key, its base label and nothing else. -/
theorem describes_freshNode (h : ¬ Upserted hist n) :
    Describes hist n (freshNode n.label.value n.key) where
  key f hf := by
    refine Dict.get?_set_of_ne ?_
    rintro rfl
    exact labels_not_mem_identity _ hf
  labels := by
    refine ⟨{n.label.value}, Dict.get?_set_self .., fun label => ?_⟩
    rw [Finset.mem_singleton, or_iff_left]
    exact fun hsub => h hsub.2.upserted
  props f hf := by
    rw [List.mem_cons, not_or] at hf
    rw [supplied_of_not_upserted h, freshNode, Dict.get?_set_of_ne (Ne.symm hf.1),
      Dict.get?_eq_none, n.keys_key]
    exact hf.2

/-- A call says nothing about the nodes that it does not upsert. -/
theorem Describes.cons_of_ne {call : ClientCall} (h : Describes hist n x)
    (hne : call.upserts ≠ some n) : Describes (call :: hist) n x where
  key := h.key
  labels := by
    simp only [subtypeOf_cons_of_ne hne]
    exact h.labels
  props f hf := (h.props f hf).trans (supplied_cons_of_ne hne f).symm

/-- What a call leaves of the node that it upserts. -/
theorem Describes.upsert {call : ClientCall} {setProps : Props} {extraLabels : List String}
    (h : Describes hist n x) (hup : call.upserts = some n)
    (hown : ∀ f ∈ "_labels" :: n.label.identity, setProps.get? f = none)
    (hset : ∀ f ∉ "_labels" :: n.label.identity,
      setProps.get? f = call.supplies (supplied n f hist) f)
    (hextra : ∀ label, label ∈ extraLabels ↔ label ≠ "" ∧
      ∃ uid attributes, n = .entity uid ∧ call = .upsertEntity uid (some label) attributes) :
    (updateNode x setProps extraLabels).1 = .ok () ∧
      Describes (call :: hist) n (updateNode x setProps extraLabels).2 := by
  obtain ⟨labels, hlabels, hmem⟩ := h.labels
  rw [updateNode_labels hlabels (hown _ List.mem_cons_self)]
  refine ⟨rfl, fun f hf => ?_, ?_, fun f hf => ?_⟩
  · have hne : "_labels" ≠ f := fun hl => labels_not_mem_identity _ (hl ▸ hf)
    rw [Dict.get?_set_of_ne hne, Dict.get?_update, hown f (List.mem_cons_of_mem _ hf)]
    exact h.key f hf
  · refine ⟨_, Dict.get?_set_self .., fun label => ?_⟩
    rw [Finset.mem_union, List.mem_toFinset, hmem, hextra, subtypeOf_cons, and_or_left, or_assoc]
    exact or_congr_right or_comm
  · have hne : "_labels" ≠ f := fun hl => hf (hl ▸ List.mem_cons_self)
    rw [Dict.get?_set_of_ne hne, Dict.get?_update, hset f hf, h.props f hf, supplied_cons hup]

/-- The turn of one metric in the loop of `resolve_column`. -/
def GraphClient.resolveMetric (neighbor : Props × Props) : StoreProgram ResolvedMetric := do
  let key ← Program.ofExcept (metricKeyOf neighbor.1)
  let entities ← GraphStore.outNeighbors CoreLabel.metric.value (metricKeyProps key)
    RelType.appliesTo.value
  return { metric := neighbor.1, appliesTo := entities.map Prod.fst }

theorem GraphClient.resolveColumn_eq (system table name : String) :
    resolveColumn system table name =
      .call (.getNode CoreLabel.column.value (columnKey system table name)) fun
        | none => .ret none
        | some column =>
          .call (.outNeighbors CoreLabel.column.value (columnKey system table name)
            RelType.measures.value) fun neighbors =>
              neighbors.mapM resolveMetric >>= fun metrics => .ret (some ⟨column, metrics⟩) := by
  refine congrArg (Program.call _) (funext fun column => ?_)
  cases column <;> rfl

theorem GraphClient.currentAliases_eq_ok {node : Option Props}
    (h : currentAliases node = .ok current) :
    current = ((node.bind (·.get? "aliases")).bind Value.iter).getD [] := by
  rw [currentAliases] at h
  split at h
  · rename_i hnone
    cases h
    rw [hnone]
    rfl
  · rename_i v hv
    rw [hv, Option.bind_some]
    rcases hiter : v.iter with _ | items <;> rw [hiter] at h <;> cases h
    rfl

/-! ## The graph and its history -/

/-- The graph stores what the history says, and nothing else. -/
structure Recorded (hist : List ClientCall) (g : InMemoryGraphStore) : Prop where
  nodes : ∀ k node, g.nodes.get? k = some node →
    ∃ n, n.id = k ∧ Upserted hist n ∧ Describes hist n node
  upserted : ∀ n, Upserted hist n → ∃ node, g.nodes.get? n.id = some node
  edges : ∀ ident e, g.edges.get? ident = some e → ∃ l prov, l.ident = ident ∧
    lastLink l hist = some prov ∧ e.get? = (l.key.update prov.setProps).get?
  linked : ∀ l, (lastLink l hist).isSome → ∃ e, g.edges.get? l.ident = some e

namespace Recorded

theorem empty : Recorded [] ∅ where
  nodes := nofun
  upserted := fun _ ⟨_, h, _⟩ => by cases h
  edges := nofun
  linked := nofun

/-- A call that makes no write changes nothing that the history says. -/
theorem cons_of_none {call : ClientCall} (h : Recorded hist g) (hn : call.upserts = none)
    (hl : call.links = none) : Recorded (call :: hist) g where
  nodes k node hk := by
    obtain ⟨n, hid, hup, hdesc⟩ := h.nodes k node hk
    exact ⟨n, hid, hup.cons call, hdesc.cons_of_ne (hn ▸ nofun)⟩
  upserted n hup := h.upserted n ((upserted_cons.mp hup).resolve_left (hn ▸ nofun))
  edges ident e he := by
    obtain ⟨l, prov, hident, hlast, hget⟩ := h.edges ident e he
    exact ⟨l, prov, hident, (lastLink_cons_of_none hl l).trans hlast, hget⟩
  linked l hlast := h.linked l (lastLink_cons_of_none hl l ▸ hlast)

/-- The node before a call that upserts it: as described, or new. -/
theorem node (h : Recorded hist g) (n : NodeRef) : Describes hist n (g.node n) := by
  rcases hk : g.nodes.get? n.id with _ | x
  · have hnot : ¬ Upserted hist n := fun hup => by
      obtain ⟨x, hx⟩ := h.upserted n hup
      rw [hk] at hx
      cases hx
    rw [InMemoryGraphStore.node, hk]
    exact describes_freshNode hnot
  · obtain ⟨m, hid, -, hdesc⟩ := h.nodes _ x hk
    cases NodeRef.id_injective hid
    rw [InMemoryGraphStore.node, hk]
    exact hdesc

/-- The aliases that a metric has. -/
theorem aliases (h : Recorded hist g) (k : Value) :
    (g.nodes.get? (NodeRef.metric k).id).bind (·.get? "aliases") =
      supplied (.metric k) "aliases" hist := by
  rcases hk : g.nodes.get? (NodeRef.metric k).id with _ | x
  · refine (supplied_of_not_upserted (fun hup => ?_) _).symm
    obtain ⟨x, hx⟩ := h.upserted _ hup
    rw [hk] at hx
    cases hx
  · have := (h.node (.metric k)).props "aliases" (by simp [NodeRef.label, CoreLabel.identity])
    rwa [InMemoryGraphStore.node, hk] at this

/-- The graph after an upsert that was accepted. -/
theorem upsert (h : Recorded hist g) {call : ClientCall} (hn : n.hashable)
    (hup : call.upserts = some n) (hl : call.links = none)
    (hdesc : Describes (call :: hist) n (updateNode (g.node n) setProps extraLabels).2) :
    Recorded (call :: hist) (handler (Write.node n setProps extraLabels).call g).2 := by
  rw [handler_node_of_hashable g hn]
  refine ⟨fun k x hk => ?_, fun m hm => ?_, fun ident e he => ?_, fun l hlast => ?_⟩
  · rw [Dict.get?_set] at hk
    split at hk
    · rename_i hid
      cases hk
      exact ⟨n, hid, upserted_cons.mpr (.inl hup), hdesc⟩
    · rename_i hid
      obtain ⟨m, rfl, hm, hx⟩ := h.nodes k x hk
      refine ⟨m, rfl, hm.cons call, hx.cons_of_ne fun hupm => ?_⟩
      cases hup.symm.trans hupm
      exact hid rfl
  · by_cases hid : n.id = m.id
    · exact ⟨_, by rw [hid]; exact Dict.get?_set_self ..⟩
    · rcases upserted_cons.mp hm with hm | hm
      · cases hup.symm.trans hm
        exact absurd rfl hid
      · obtain ⟨x, hx⟩ := h.upserted m hm
        exact ⟨x, (Dict.get?_set_of_ne hid).trans hx⟩
  · obtain ⟨l, prov, hident, hlast, hget⟩ := h.edges ident e he
    exact ⟨l, prov, hident, (lastLink_cons_of_none hl l).trans hlast, hget⟩
  · exact h.linked l (lastLink_cons_of_none hl l ▸ hlast)

/-- A link replaces all that an earlier one left on the edge. -/
theorem link_update (h : Recorded hist g) (l : Link) (prov : EdgeProvenance) :
    ((g.link l).update prov.setProps).get? = (l.key.update prov.setProps).get? := by
  funext f
  rw [Dict.get?_update, Dict.get?_update, InMemoryGraphStore.link]
  rcases he : g.edges.get? l.ident with _ | e
  · rfl
  · obtain ⟨m, prov', hident, -, hget⟩ := h.edges _ e he
    cases Link.ident_injective hident
    rw [Option.getD_some, hget, Dict.get?_update]
    rcases hf : prov.setProps.get? f with _ | v
    · have hkeys : prov.setProps.keys = prov'.setProps.keys := rfl
      rw [Dict.get?_eq_none, hkeys, ← Dict.get?_eq_none] at hf
      rw [hf, Option.none_or, Option.none_or]
    · rfl

/-- The graph after a link that was accepted. -/
theorem link (h : Recorded hist g) {call : ClientCall} {l : Link} (hn : call.upserts = none)
    (hl : call.links = some (l, prov)) (hhash : l.hashable) :
    Recorded (call :: hist) (handler (Write.link l prov).call g).2 := by
  rw [handler_link_of_hashable g hhash]
  refine ⟨fun k x hk => ?_, fun m hm => ?_, fun ident e he => ?_, fun m hlast => ?_⟩
  · obtain ⟨n, hid, hup, hx⟩ := h.nodes k x hk
    exact ⟨n, hid, hup.cons call, hx.cons_of_ne (hn ▸ nofun)⟩
  · exact h.upserted m ((upserted_cons.mp hm).resolve_left (hn ▸ nofun))
  · rw [Dict.get?_set] at he
    split at he
    · rename_i hident
      cases he
      exact ⟨l, prov, hident, (lastLink_cons hl l).trans (if_pos rfl), h.link_update l prov⟩
    · rename_i hident
      obtain ⟨m, prov', rfl, hlast, hget⟩ := h.edges ident e he
      exact ⟨m, prov', rfl,
        (lastLink_cons hl m).trans ((if_neg fun hlm : l = m => hident (hlm ▸ rfl)).trans hlast),
        hget⟩
  · by_cases hlm : l = m
    · subst hlm
      exact ⟨_, Dict.get?_set_self ..⟩
    · rw [lastLink_cons hl m, if_neg hlm] at hlast
      obtain ⟨e, he⟩ := h.linked m hlast
      exact ⟨e, (Dict.get?_set_of_ne fun hid => hlm (Link.ident_injective hid)).trans he⟩

end Recorded

/-! ## Calls -/

namespace ClientCall

/-- No named argument is an identity field or `_labels`. -/
theorem arguments_plain {call : ClientCall} (hup : call.upserts = some n)
    (hf : f ∈ "_labels" :: n.label.identity) : Entries.get? f call.arguments = none := by
  cases call <;> cases hup <;>
    simp only [NodeRef.label, CoreLabel.identity, List.mem_cons, List.not_mem_nil,
      or_false] at hf <;>
    first | rfl | (rcases hf with rfl | rfl | rfl | rfl <;> rfl)

theorem supplies_eq {call : ClientCall} (h : ∀ k a, call ≠ .addMetricAlias k a)
    (old : Option Value) (f : String) : call.supplies old f =
      ((call.attributes.get? f).or (Entries.get? f call.arguments)).filter (· ≠ .null) := by
  cases call <;> first | rfl | exact absurd rfl (h _ _)

/-- A plain call supplies no identity field and not `_labels`. -/
theorem Plain.supplies {call : ClientCall} (h : call.Plain) (hup : call.upserts = some n)
    (hf : f ∈ "_labels" :: n.label.identity) (old : Option Value) :
    call.supplies old f = none := by
  have hargs := arguments_plain hup hf
  have hattrs := h n hup f hf
  by_cases halias : ∃ k a, call = .addMetricAlias k a
  · obtain ⟨k, a, rfl⟩ := halias
    cases hup
    refine if_neg ?_
    rintro rfl
    simp [NodeRef.label, CoreLabel.identity] at hf
  · simp only [not_exists] at halias
    rw [supplies_eq halias, hattrs, hargs]
    rfl

/-- The properties of an accepted upsert are those that the call supplies. -/
theorem write_node {call : ClientCall} (hw : call.write c = some (.node n setProps extraLabels)) :
    (call.upserts = some n ∧ call.links = none ∧ n.hashable) ∧
    (∀ old f, setProps.get? f = call.supplies old f) ∧
    ∀ label, label ∈ extraLabels ↔ label ≠ "" ∧
      ∃ uid attributes, n = .entity uid ∧ call = .upsertEntity uid (some label) attributes := by
  have hnone (hne : ∀ uid subtype attributes, call ≠ .upsertEntity uid subtype attributes)
      (label : String) : label ∈ ([] : List String) ↔ label ≠ "" ∧
        ∃ uid attributes, n = .entity uid ∧ call = .upsertEntity uid (some label) attributes := by
    constructor
    · intro h
      cases h
    · rintro ⟨_, _, _, _, h⟩
      exact (hne _ _ _ h).elim
  cases call with
  | upsertEntity uid subtypeLabel attributes =>
    simp only [write, entityWrite, Option.ite_none_right_eq_some, Option.some.injEq,
      Write.node.injEq] at hw
    obtain ⟨-, rfl, rfl, rfl⟩ := hw
    refine ⟨⟨rfl, rfl, rfl⟩, fun old f => ?_, fun label => ?_⟩
    · rw [get?_clean]
      exact congrArg _ (Option.or_none).symm
    · rcases subtypeLabel with _ | subtype
      · simp
      · by_cases hs : subtype = "" <;> by_cases hl : label = subtype <;> simp_all [eq_comm]
  | upsertMetric =>
    cases hw
    refine ⟨⟨rfl, rfl, rfl⟩, fun old f => ?_, hnone (by simp)⟩
    rw [get?_clean, metricProps, Dict.get?_update, Dict.get?_ofList (by simp)]
    rfl
  | upsertColumn =>
    cases hw
    refine ⟨⟨rfl, rfl, rfl⟩, fun old f => ?_, hnone (by simp)⟩
    rw [get?_clean, columnProps, Dict.get?_ofList (by simp)]
    rfl
  | upsertDocument =>
    cases hw
    refine ⟨⟨rfl, rfl, rfl⟩, fun old f => ?_, hnone (by simp)⟩
    rw [get?_clean, documentProps, Dict.get?_ofList (by simp)]
    rfl
  | upsertBenchmark | upsertParty =>
    cases hw
    refine ⟨⟨rfl, rfl, rfl⟩, fun old f => ?_, hnone (by simp)⟩
    rw [get?_clean]
    exact congrArg _ (Option.or_none).symm
  | relateEntities =>
    simp only [write, Option.ite_none_right_eq_some, Option.some.injEq, reduceCtorEq,
      and_false] at hw
  | _ => cases hw

/-- The write of a plain call sets no identity field and not `_labels`. -/
theorem Plain.setProps {call : ClientCall} {setProps : Props} (h : call.Plain)
    (hw : call.write c = some (.node n setProps extraLabels)) :
    ∀ f ∈ "_labels" :: n.label.identity, setProps.get? f = none := fun f hf =>
  let ⟨⟨hup, _, _⟩, hset, _⟩ := write_node hw
  (hset none f).trans (h.supplies hup hf none)

theorem write_link {call : ClientCall} (hw : call.write c = some (.link l prov)) :
    call.upserts = none ∧ call.links = some (l, prov) ∧ l.hashable := by
  cases call <;> simp only [write, entityWrite, Option.ite_none_right_eq_some, Option.some.injEq,
    Write.link.injEq, reduceCtorEq, and_false] at hw
  case relateEntities => obtain ⟨-, rfl, rfl⟩ := hw; exact ⟨rfl, rfl, rfl⟩
  all_goals obtain ⟨rfl, rfl⟩ := hw; exact ⟨rfl, rfl, rfl⟩

end ClientCall

/-- The graph after a new alias: the list that was supplied last, extended. -/
theorem Recorded.newAlias (h : Recorded hist g) (a : String)
    (hc : GraphClient.currentAliases (g.nodes.get? (NodeRef.metric (.str k)).id) = .ok current) :
    let w := aliasWrite k (GraphClient.extendAliases current a)
    (handler w.call g).1 = .ok () ∧
      Recorded (.addMetricAlias k a :: hist) (handler w.call g).2 := by
  have hcurrent := GraphClient.currentAliases_eq_ok hc
  rw [h.aliases] at hcurrent
  subst hcurrent
  obtain ⟨hok, hdesc⟩ := @Describes.upsert hist _ _ (.addMetricAlias k a)
    (.ofList [("aliases", .list (GraphClient.extendAliases
      (((supplied (.metric (.str k)) "aliases" hist).bind Value.iter).getD []) a))])
    [] (h.node (.metric (.str k))) rfl
    (fun f hf => by
      simp only [NodeRef.label, CoreLabel.identity, List.mem_cons, List.not_mem_nil,
        or_false] at hf
      rcases hf with rfl | rfl <;> rfl)
    (fun f _ => by
      rw [Dict.get?_ofList (by simp), ClientCall.supplies]
      by_cases hf : f = "aliases"
      · subst hf; rfl
      · simp [Entries.get?, hf, Ne.symm hf])
    (by simp)
  have hrec := h.upsert (n := .metric (.str k)) rfl rfl rfl hdesc
  dsimp only [aliasWrite]
  refine ⟨?_, hrec⟩
  rw [handler_node_of_hashable g (n := .metric (.str k)) rfl]
  exact hok

/-- The write of an accepted call succeeds, and the call enters the history. -/
theorem Recorded.write (h : Recorded hist g) {c : GraphClient} {call : ClientCall}
    (hplain : call.Plain) (hw : call.write c = some w) :
    (∃ r, (handler w.call g).1 = .ok r) ∧ Recorded (call :: hist) (handler w.call g).2 := by
  cases w with
  | node n setProps extraLabels =>
    obtain ⟨⟨hup, hl, hn⟩, hset, hextra⟩ := ClientCall.write_node hw
    obtain ⟨hok, hdesc⟩ := (h.node n).upsert hup (hplain.setProps hw) (fun f _ => hset _ f) hextra
    refine ⟨⟨(), ?_⟩, h.upsert hn hup hl hdesc⟩
    rw [handler_node_of_hashable g hn]
    exact hok
  | link l prov =>
    obtain ⟨hup, hl, hhash⟩ := ClientCall.write_link hw
    refine ⟨⟨(), ?_⟩, h.link hup hl hhash⟩
    rw [handler_link_of_hashable g hhash]

section runs
variable [Python]

/-- The calls that a client in state `s` accepts of a sequence, on top of a history. -/
def System.history (s : System) (h : List ClientCall) : List ClientCall → List ClientCall
  | [] => h
  | call :: calls =>
    match (Op.exec s (.client call)).1 with
    | .ok _ => (Op.next s (.client call)).history (call :: h) calls
    | .error _ => (Op.next s (.client call)).history h calls

/-- One call: accepted it enters the history, refused it leaves the graph as it was. -/
theorem Recorded.call (h : Recorded hist g) (c : GraphClient) {call : ClientCall}
    (hplain : call.Plain) :
    match (call.program c).run handler g with
    | (.ok _, g') => Recorded (call :: hist) g'
    | (.error _, g') => Recorded hist g' := by
  rcases hw : call.write c with _ | w
  · by_cases halias : ∃ k a, call = .addMetricAlias k a
    · obtain ⟨k, a, rfl⟩ := halias
      rw [ClientCall.program, GraphClient.addMetricAlias_run]
      rcases hc : GraphClient.currentAliases _ with e | current
      · exact h
      rw [Program.ofExcept_ok, Program.ret_bind, Write.run_program]
      obtain ⟨hok, hrec⟩ := h.newAlias a hc
      rw [hok]
      exact hrec
    by_cases hreg : ∃ e t, call = .registerAllowlists e t
    · obtain ⟨e, t, rfl⟩ := hreg
      exact h.cons_of_none rfl rfl
    simp only [not_exists] at hreg halias
    obtain ⟨m, hm⟩ := ClientCall.program_of_refused hw hreg halias
    rw [hm]
    exact h
  · obtain ⟨⟨r, hok⟩, hrec⟩ := h.write hplain hw
    rw [ClientCall.program_of_write hw, Write.run_program, hok]
    exact hrec

theorem Recorded.history {s : System} (h : Recorded hist s.graph) {calls : List ClientCall}
    (hplain : ∀ call ∈ calls, call.Plain) :
    Recorded (s.history hist calls) (s.after (calls.map .client)).graph := by
  induction calls generalizing s hist with
  | nil => exact h
  | cons call calls ih =>
    have hcall := h.call s.client (hplain call List.mem_cons_self)
    have hcalls : ∀ call ∈ calls, call.Plain := fun c hc => hplain c (List.mem_cons_of_mem _ hc)
    rw [List.map_cons, System.after_cons, System.history]
    have hexec : (Op.exec s (.client call)).1 =
        ((call.program s.client).run handler s.graph).1 := rfl
    have hnext : (Op.next s (.client call)).graph =
        ((call.program s.client).run handler s.graph).2 := rfl
    rw [hexec]
    rcases hrun : (call.program s.client).run handler s.graph with ⟨e | r, g'⟩ <;>
      rw [hrun] at hcall hnext
    · exact ih (hnext ▸ hcall) hcalls
    · exact ih (hnext ▸ hcall) hcalls

end runs

/-! ## Reads -/

namespace Recorded

theorem showsNode (h : Recorded hist g) (k : NodeKey) : ShowsNode hist k (g.nodes.get? k) := by
  rcases hk : g.nodes.get? k with _ | x
  · rintro n rfl hup
    obtain ⟨x, hx⟩ := h.upserted n hup
    rw [hk] at hx
    cases hx
  · exact h.nodes k x hk

/-- A stored node is the one that its identity names. -/
theorem of_get? (h : Recorded hist g) {n : NodeRef} (hn : g.nodes.get? n.id = some x) :
    Upserted hist n ∧ Describes hist n x := by
  obtain ⟨m, hid, hup, hx⟩ := h.nodes _ x hn
  cases NodeRef.id_injective hid
  exact ⟨hup, hx⟩

theorem showsNeighbors (h : Recorded hist g) {label : String} {key : Props}
    (hk : nodeKey label key = .ok k) (relType : String) :
    ∃ pairs, g.outNeighbors label key relType = .ok pairs ∧
      ShowsNeighbors hist k relType pairs := by
  refine ⟨_, g.outNeighbors_of_nodeKey hk relType, ?_⟩
  generalize hf : g.shown k relType = f
  have hf (ident : EdgeIdent) (e : Props) (pair : Props × Props) : f (ident, e) = some pair ↔
      (ident.relType = relType ∧ ident.src = k) ∧
        ∃ node, g.nodes.get? ident.dst = some node ∧ (node, e) = pair := hf ▸ shown_eq_some
  have hpairs := Entries.forall₂_filterMap f g.edges.items
  -- the links are read off the identities of the edges that are shown
  obtain ⟨ls, hls⟩ : ∃ ls : List Link, ls.map Link.ident =
      (g.edges.items.filter fun item => (f item).isSome).map Prod.fst := by
    rw [← Set.mem_range, Set.range_list_map]
    intro ident hident
    obtain ⟨⟨ident, e⟩, hmem, rfl⟩ := List.mem_map.mp hident
    obtain ⟨l, -, hl, -⟩ := h.edges ident e (Dict.mem_items.mp (List.mem_filter.mp hmem).1)
    exact ⟨l, hl⟩
  refine ⟨ls, ⟨?_, fun l => ?_⟩, ?_⟩
  · have hnodup := g.edges.nodup.sublist (List.filter_sublist (p := fun item =>
      (f item).isSome).map Prod.fst)
    rw [← hls] at hnodup
    exact hnodup.of_map
  · rw [← List.mem_map_of_injective Link.ident_injective, hls, List.mem_map]
    constructor
    · rintro ⟨⟨ident, e⟩, hmem, rfl⟩
      obtain ⟨hmem, hsome⟩ := List.mem_filter.mp hmem
      obtain ⟨pair, hpair⟩ := Option.isSome_iff_exists.mp hsome
      obtain ⟨⟨htype, hsrc⟩, node, hnode, -⟩ := (hf _ e pair).mp hpair
      obtain ⟨m, prov, hm, hlast, -⟩ := h.edges _ e (Dict.mem_items.mp hmem)
      cases Link.ident_injective hm
      exact ⟨hsrc, htype, by rw [hlast]; rfl, (h.of_get? hnode).1⟩
    · rintro ⟨hsrc, htype, hlast, hup⟩
      obtain ⟨e, he⟩ := h.linked l hlast
      obtain ⟨node, hnode⟩ := h.upserted _ hup
      refine ⟨(l.ident, e), List.mem_filter.mpr ⟨Dict.mem_items.mpr he, ?_⟩, rfl⟩
      apply Option.isSome_iff_exists.mpr
      exact ⟨(node, e), (hf _ e _).mpr ⟨⟨htype, hsrc⟩, node, hnode, rfl⟩⟩
  · have hpairs : List.Forall₂ (fun ident pair => ∃ e, (ident, e) ∈ g.edges.items ∧
        f (ident, e) = some pair) (ls.map Link.ident) (g.edges.items.filterMap f) := by
      rw [hls, List.forall₂_map_left_iff]
      exact hpairs.imp fun item _ hitem => ⟨item.2, hitem⟩
    refine (List.forall₂_map_left_iff.mp hpairs).imp fun l pair ⟨e, hmem, hpair⟩ => ?_
    obtain ⟨-, node, hnode, rfl⟩ := (hf _ e pair).mp hpair
    obtain ⟨m, prov, hm, hlast, hget⟩ := h.edges _ e (Dict.mem_items.mp hmem)
    cases Link.ident_injective hm
    exact ⟨(h.of_get? hnode).2, prov, hlast, hget⟩

/-- A metric's turn in `resolve_column`, when the metric was upserted. -/
theorem showsMetric (h : Recorded hist g) {pair : Props × Props} (hup : Upserted hist (.metric v))
    (hdesc : Describes hist (.metric v) pair.1) :
    ∃ m, (GraphClient.resolveMetric pair).run handler g = (.ok m, g) ∧
      ShowsMetric hist (.metric v) m := by
  obtain ⟨key, rfl⟩ := hup.metric_key
  have hkey : metricKeyOf pair.1 = .ok (.str key) := by
    rw [metricKeyOf, hdesc.key "metric_key" (by simp [NodeRef.label, CoreLabel.identity])]
    rfl
  obtain ⟨pairs, hpairs, ls, hls, hshown⟩ := h.showsNeighbors
    (NodeRef.nodeKey_of_hashable (n := .metric (.str key)) rfl) RelType.appliesTo.value
  refine ⟨⟨pair.1, pairs.map Prod.fst⟩, ?_, hdesc, ls, hls,
    List.forall₂_map_right_iff.mpr (hshown.imp fun _ _ h => h.1)⟩
  rw [GraphClient.resolveMetric, hkey, Program.ofExcept_ok, Program.ret_bind, Program.call_bind,
    Program.run_call_ok (Prod.ext hpairs rfl)]
  rfl

theorem showsColumn (h : Recorded hist g) (system table name : String) :
    ∃ r, (GraphClient.resolveColumn system table name).run handler g = (.ok r, g) ∧
      ShowsColumn hist (.column system table name) r := by
  have hcol : (NodeRef.column system table name).hashable := rfl
  rw [GraphClient.resolveColumn_eq, Program.run_call_ok (Prod.ext (g.getNode_ref hcol) rfl)]
  have hnode := h.showsNode (NodeRef.column system table name).id
  rcases hx : g.nodes.get? (NodeRef.column system table name).id with _ | column
  · rw [hx] at hnode
    exact ⟨none, rfl, hnode _ rfl⟩
  obtain ⟨hup, hdesc⟩ := h.of_get? hx
  obtain ⟨pairs, hpairs, ls, hls, hshown⟩ :=
    h.showsNeighbors (NodeRef.nodeKey_of_hashable hcol) RelType.measures.value
  have hshown := (List.forall₂_and_left _ _).mpr ⟨fun l hl => hl, hshown⟩
  obtain ⟨metrics, hrun, hmetrics⟩ := Program.run_mapM_forall₂
    (f := GraphClient.resolveMetric) (Q := fun l m => ShowsMetric hist l.target m) hshown
    fun {l pair} ⟨hl, hdesc, _⟩ => by
      obtain ⟨hsrc, -, -, hup⟩ := (hls.mem l).mp hl
      have hsrc := NodeRef.id_injective hsrc
      cases l <;> cases hsrc
      exact h.showsMetric hup hdesc
  refine ⟨some ⟨column, metrics⟩, ?_, hup, hdesc, ls, hls, hmetrics⟩
  exact (Program.run_call_ok (Prod.ext hpairs rfl) _).trans (Program.run_bind_ok hrun _)

theorem reads (h : Recorded hist g) : Reads hist g where
  getNode {label key k} hk := ⟨g.nodes.get? k, by rw [getNode, hk]; rfl, h.showsNode k⟩
  outNeighbors hk relType := h.showsNeighbors hk relType
  resolveColumn := h.showsColumn

end Recorded

namespace System

/-- **Reads equal the history of writes**, after any calls of a client whose attribute maps leave
identity fields and `_labels` alone, those that it refused included. -/
theorem reads_history [Python] {calls : List ClientCall} (hplain : ∀ call ∈ calls, call.Plain) :
    Reads (initial.history [] calls) (initial.after (calls.map .client)).graph :=
  (Recorded.history .empty hplain).reads

theorem reads_history_refused :
    let calls : List ClientCall := [
      .linkMetricToEntity "edu.ratio" "u1" ⟨"s", "t", "c"⟩,
      .upsertEntity "u1" (some "School") (.ofList [("name", .str "first")]),
      .registerAllowlists ["School"] [],
      .upsertEntity "u1" (some "School") (.ofList [("name", .str "second"), ("size", .null)]),
      .addMetricAlias "edu.ratio" "ratio"]
    Reads (initial.history [] calls) (initial.after (calls.map .client)).graph :=
  reads_history (by decide)

/-- The empty string is accepted as a subtype once it is registered, and becomes no label. -/
theorem empty_subtype_dropped :
    let calls : List ClientCall := [.registerAllowlists [""] [], .upsertEntity "u1" (some "") ∅]
    (∀ call ∈ calls, call.Plain) ∧ ∃ node labels,
      (initial.after (calls.map .client)).graph.getNode CoreLabel.entity.value (entityKey "u1") =
        .ok (some node) ∧ node.get? "_labels" = some (.set labels) ∧
      ¬ ∀ label, label ∈ labels ↔ label = CoreLabel.entity.value ∨
        SubtypeOf (initial.history [] calls) (.entity "u1") label := by
  refine ⟨by decide, .ofList [("uid", .str "u1"), ("_labels", .set {CoreLabel.entity.value})],
    {CoreLabel.entity.value}, by rfl, by rfl, fun h => ?_⟩
  have haccepted : SubtypeOf (initial.history [] [.registerAllowlists [""] [],
      .upsertEntity "u1" (some "") ∅]) (.entity "u1") "" := ⟨"u1", ∅, rfl, by decide⟩
  exact absurd ((h "").mpr (.inr haccepted)) (by decide)

end System

end MarginKG
