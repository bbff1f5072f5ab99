import MarginKG.Verify.Confirmation
import MarginKG.Verify.Listings

/-! The link that a confirmation makes, as `resolve_column` lists it.

In memory the link may be made before its metric is there. Over Neo4j it is made between nodes that
are matched at that moment, and the metric is created by the write of the alias, which comes after
(`confirm_listed_iff`). On no store does a confirmation link the metric to the entity that owns the
column (`confirm_lists_owner_iff`). -/

namespace MarginKG

open InMemoryGraphStore PropertyGraph

section runs
variable [Python]

/-! ## What is listed after a confirmation -/

/-- The confirmation returns, and `resolve_column` of its column then lists an entry of `P`. -/
def ListsConfirmed {σ : Type} (h : Handler StoreCall StoreCall.Reply PyErr σ) (s : σ)
    (col : ObservedColumn) (metricKey : String) (prov : EdgeProvenance)
    (P : GraphClient.ResolvedMetric → Prop) : Prop :=
  ∃ s', (Resolver.confirm col metricKey prov).run h s = (.ok (), s') ∧
    ∃ rc, ((GraphClient.resolveColumn col.system col.table col.name).run h s').1 = .ok (some rc) ∧
      ∃ entry ∈ rc.metrics, P entry

/-- The entry is that of the metric. -/
def GraphClient.ResolvedMetric.IsMetric (entry : GraphClient.ResolvedMetric)
    (metricKey : String) : Prop :=
  entry.metric.get? "metric_key" = some (.str metricKey)

/-! ## In memory -/

variable {g g' : InMemoryGraphStore} {col : ObservedColumn} {metricKey : String} {new : Props}

/-- What the column measures after the confirmation: the metric, and what it measured. -/
theorem Confirmed.reaches_measures (h : Confirmed g col metricKey g' new) :
    g'.Reaches col.ref RelType.measures.value x ↔ x = new ∨
      ∃ ident e, g.edges.get? ident = some e ∧ ident.relType = RelType.measures.value ∧
        ident.src = col.ref.id ∧ ident.dst ≠ (NodeRef.metric (.str metricKey)).id ∧
        g.nodes.get? ident.dst = some x := by
  obtain ⟨e₀, hedges⟩ := h.edges
  rw [InMemoryGraphStore.Reaches]
  simp only [hedges, h.nodes, Dict.get?_set]
  constructor
  · rintro ⟨ident, e, he, htype, hsrc, hx⟩
    by_cases hdst : (NodeRef.metric (.str metricKey)).id = ident.dst
    · rw [if_pos hdst] at hx
      exact .inl (Option.some.inj hx).symm
    · rw [if_neg hdst] at hx
      rw [if_neg fun hident => hdst (congrArg EdgeIdent.dst hident)] at he
      exact .inr ⟨ident, e, he, htype, hsrc, Ne.symm hdst, hx⟩
  · rintro (rfl | ⟨ident, e, he, htype, hsrc, hdst, hx⟩)
    · exact ⟨_, e₀, if_pos rfl, rfl, rfl, if_pos rfl⟩
    · refine ⟨ident, e, ?_, htype, hsrc, ?_⟩
      · rwa [if_neg fun hident => hdst (congrArg EdgeIdent.dst hident).symm]
      · rwa [if_neg (Ne.symm hdst)]

/-- What all of these show as their key, the metric itself and all that the column measured
showed. -/
theorem Confirmed.forall_measures (h : Confirmed g col metricKey g' new)
    (q : Option Value → Prop) :
    (∀ x, g'.Reaches col.ref RelType.measures.value x → q (x.get? "metric_key")) ↔
      q ((g.node (.metric (.str metricKey))).get? "metric_key") ∧
        ∀ x, g.Reaches col.ref RelType.measures.value x → q (x.get? "metric_key") := by
  simp only [h.reaches_measures]
  constructor
  · refine fun hall => ⟨h.key ▸ hall new (.inl rfl), ?_⟩
    rintro x ⟨ident, e, he, htype, hsrc, hx⟩
    by_cases hdst : ident.dst = (NodeRef.metric (.str metricKey)).id
    · have hnode : g.node (.metric (.str metricKey)) = x := by
        rw [node, ← hdst, hx]
        rfl
      rw [← hnode, ← h.key]
      exact hall new (.inl rfl)
    · exact hall x (.inr ⟨ident, e, he, htype, hsrc, hdst, hx⟩)
  · rintro ⟨hnew, hall⟩ x (rfl | ⟨ident, e, he, htype, hsrc, -, hx⟩)
    · rwa [h.key]
    · exact hall x ⟨ident, e, he, htype, hsrc, hx⟩

theorem Confirmed.exists_measures (h : Confirmed g col metricKey g' new)
    (q : Option Value → Prop) :
    (∃ x, g'.Reaches col.ref RelType.measures.value x ∧ q (x.get? "metric_key")) ↔
      q ((g.node (.metric (.str metricKey))).get? "metric_key") ∨
        ∃ x, g.Reaches col.ref RelType.measures.value x ∧ q (x.get? "metric_key") := by
  have hnot := not_congr (h.forall_measures fun v => ¬ q v)
  push Not at hnot
  rw [hnot]
  exact ⟨fun hor => or_iff_not_imp_left.mpr hor, fun hor => or_iff_not_imp_left.mp hor⟩

/-- A node of another label stays as it is. -/
theorem Confirmed.get?_nodes (h : Confirmed g col metricKey g' new) {n : NodeRef}
    (hn : n.label ≠ .metric) : g'.nodes.get? n.id = g.nodes.get? n.id := by
  rw [h.nodes, Dict.get?_set_of_ne]
  intro hid
  rw [← NodeRef.id_injective hid] at hn
  exact hn rfl

/-- The metric takes the alias, and it and all that the column measures show keys that can be
looked up, one of them the key of the metric. -/
structure InMemoryGraphStore.Listable (g : InMemoryGraphStore) (col : ObservedColumn)
    (metricKey : String) : Prop where
  takesAlias : TakesAlias (g.node (.metric (.str metricKey)))
  key : ShowsKey (g.node (.metric (.str metricKey)))
  keys : ∀ x, g.Reaches col.ref RelType.measures.value x → ShowsKey x
  shown : (g.node (.metric (.str metricKey))).get? "metric_key" = some (.str metricKey) ∨
    ∃ x, g.Reaches col.ref RelType.measures.value x ∧
      x.get? "metric_key" = some (.str metricKey)

theorem Confirmed.lists_iff (h : Confirmed g col metricKey g' new)
    (htakes : TakesAlias (g.node (.metric (.str metricKey))))
    (hcol : (g.nodes.get? col.ref.id).isSome) {R : List Props → Prop} :
    (∃ rc, ((GraphClient.resolveColumn col.system col.table col.name).run handler g').1 =
        .ok (some rc) ∧ ∃ entry ∈ rc.metrics, entry.IsMetric metricKey ∧ R entry.appliesTo) ↔
      g.Listable col metricKey ∧
        R ((g'.neighbors (.metric (.str metricKey)) RelType.appliesTo.value).map Prod.fst) := by
  have hkeys := h.forall_measures fun v => ∃ key, v = some key ∧ key.hashable
  have hshown := h.exists_measures (· = some (.str metricKey))
  rw [g'.lists_iff (P := fun entry => entry.IsMetric metricKey ∧ R entry.appliesTo)]
  constructor
  · rintro ⟨-, hread, x, key, hx, hkey, -, hmetric, hR⟩
    have hkey' := hkey.symm.trans hmetric
    cases hkey'
    exact ⟨⟨htakes, (hkeys.mp hread).1, (hkeys.mp hread).2, hshown.mp ⟨x, hx, hmetric⟩⟩, hR⟩
  · rintro ⟨⟨-, hkey, hall, hmetric⟩, hR⟩
    obtain ⟨x, hx, hmetric⟩ := hshown.mpr hmetric
    refine ⟨?_, hkeys.mpr ⟨hkey, hall⟩, x, _, hx, hmetric, rfl, hmetric, hR⟩
    exact (h.get?_nodes (n := col.ref) nofun).symm ▸ hcol

/-- A confirmation links the metric to no entity. -/
theorem Confirmed.exists_applies (h : Confirmed g col metricKey g' new) (uid : String) :
    (∃ y, g'.Reaches (.metric (.str metricKey)) RelType.appliesTo.value y ∧
        y.get? "uid" = some (.str uid)) ↔
      ∃ y, g.Reaches (.metric (.str metricKey)) RelType.appliesTo.value y ∧
        y.get? "uid" = some (.str uid) := by
  let m : NodeRef := .metric (.str metricKey)
  have huid : new.get? "uid" = (g.node m).get? "uid" := h.fields "uid" (by decide) (by decide)
  have hedges {ident : EdgeIdent} (htype : ident.relType = RelType.appliesTo.value) :
      g'.edges.get? ident = g.edges.get? ident := by
    obtain ⟨e₀, hset⟩ := h.edges
    rw [hset, Dict.get?_set_of_ne]
    intro hident
    rw [← hident] at htype
    exact absurd htype (show RelType.measures.value ≠ RelType.appliesTo.value by decide)
  constructor
  · rintro ⟨y, ⟨ident, e, he, htype, hsrc, hy⟩, hshown⟩
    rw [hedges htype] at he
    rw [h.nodes, Dict.get?_set] at hy
    split at hy
    · rename_i hdst
      cases hy
      rw [huid, node, hdst] at hshown
      rcases hold : g.nodes.get? ident.dst with _ | x <;> rw [hold] at hshown
      · cases hshown
      · exact ⟨x, ⟨ident, e, he, htype, hsrc, hold⟩, hshown⟩
    · exact ⟨y, ⟨ident, e, he, htype, hsrc, hy⟩, hshown⟩
  · rintro ⟨y, ⟨ident, e, he, htype, hsrc, hy⟩, hshown⟩
    rw [← hedges htype] at he
    by_cases hdst : m.id = ident.dst
    · refine ⟨new, ⟨ident, e, he, htype, hsrc, ?_⟩, ?_⟩
      · rw [h.nodes, ← hdst]
        exact Dict.get?_set_self ..
      · rw [huid, node, hdst, hy]
        exact hshown
    · refine ⟨y, ⟨ident, e, he, htype, hsrc, ?_⟩, hshown⟩
      rw [h.nodes, Dict.get?_set_of_ne hdst, hy]

/-- A confirmation lists its metric with what the metric applies to in the graph that it leaves. -/
theorem listsConfirmed_iff (hcol : (g.nodes.get? col.ref.id).isSome) (metricKey : String)
    {R : List Props → Prop} {Q : Prop} (hR : ∀ g' new, Confirmed g col metricKey g' new →
      (R ((g'.neighbors (.metric (.str metricKey)) RelType.appliesTo.value).map Prod.fst) ↔ Q))
    (prov : EdgeProvenance) :
    ListsConfirmed handler g col metricKey prov
        (fun entry => entry.IsMetric metricKey ∧ R entry.appliesTo) ↔
      g.Listable col metricKey ∧ Q := by
  rcases confirm_spec g col metricKey prov with
    ⟨htakes, g', new, hrun, hconf⟩ | ⟨htakes, hraises⟩
  · rw [← hR g' new hconf, ← hconf.lists_iff htakes hcol]
    constructor
    · rintro ⟨g'', hrun', hlisted⟩
      cases hrun.symm.trans hrun'
      exact hlisted
    · exact fun hlisted => ⟨g', hrun, hlisted⟩
  · refine iff_of_false ?_ fun h => htakes h.1.takesAlias
    rintro ⟨g', hrun, _⟩
    exact hraises g' hrun

/-- In memory, the confirmed metric is listed. -/
theorem confirm_listed_inMemory (hcol : (g.nodes.get? col.ref.id).isSome) (metricKey : String)
    (prov : EdgeProvenance) :
    ListsConfirmed handler g col metricKey prov (·.IsMetric metricKey) ↔
      g.Listable col metricKey := by
  have hlists := listsConfirmed_iff hcol metricKey (R := fun _ => True) (fun _ _ _ => Iff.rfl) prov
  simpa only [and_true] using hlists

/-! ## Over Neo4j -/

namespace Neo4jGraphStore

variable [RowOrder] {pg : Neo4jGraph} {a : Node String String Value} {aliases : List Value}

/-- What the write of aliases makes of a node. -/
def withAliases (aliases : List Value) (a : Node String String Value) : Node String String Value :=
  ⟨a.labels ∪ ([] : List String).toFinset, a.props.update (.ofList [("aliases", .list aliases)])⟩

omit [Python] [RowOrder] in
theorem get?_withAliases (hf : f ≠ "aliases") :
    (withAliases aliases a).props.get? f = a.props.get? f := by
  have hset : (Dict.ofList [("aliases", Value.list aliases)]).get? f = none :=
    Dict.get?_set_of_ne (Ne.symm hf)
  rw [withAliases, Dict.get?_update, hset]
  rfl

omit [Python] [RowOrder] in
/-- No node is found by its aliases. -/
theorem fits_withAliases (n : NodeRef) : n.fits (withAliases aliases a) = n.fits a := by
  rw [Bool.eq_iff_iff, Node.fits_iff, Node.fits_iff, fits_iff, fits_iff]
  refine and_congr (by simp [withAliases]) (forall₂_congr fun f v => imp_congr_right fun hv => ?_)
  rw [get?_withAliases]
  rintro rfl
  have hmem : "aliases" ∈ n.label.identity := n.keys_key ▸ Dict.mem_keys.mpr ⟨v, hv⟩
  revert hmem
  cases n.label <;> decide

omit [Python] [RowOrder] in
theorem reaches_iff {n : NodeRef} : Reaches pg n relType d ↔
    ∃ i ∈ pg.matchNodes n.label.value n.key, ∃ j, pg.Joins relType i j ∧ pg.nodes[j]? = some d := by
  constructor
  · rintro ⟨i, hi, e, he, htype, hsrc, hd⟩
    exact ⟨i, hi, e.dst, ⟨e, he, htype, hsrc, rfl⟩, hd⟩
  · rintro ⟨i, hi, _, ⟨e, he, htype, hsrc, rfl⟩, hd⟩
    exact ⟨i, hi, e, he, htype, hsrc, hd⟩

/-- What a confirmation leaves in the graph: the link between the nodes that were there, and then
the aliases, on a new node where there was none. -/
def confirmed (pg : Neo4jGraph) (col : ObservedColumn) (metricKey : String)
    (prov : EdgeProvenance) (aliases : List Value) : Neo4jGraph :=
  let m : NodeRef := .metric (.str metricKey)
  (pg.mergeEdges col.ref.label.value col.ref.key m.label.value m.key RelType.measures.value ∅
    (·.update prov.setProps)).mergeNode m.label.value m.key (withAliases aliases)

/-- The aliases of the metric, if it is there, can be extended. -/
def TakesAlias (pg : Neo4jGraph) (metricKey : String) : Prop :=
  ∀ m, found pg (.metric (.str metricKey)) = some m → ∀ v, m.get? "aliases" = some v → v.iter.isSome

omit [Python] in
theorem takesAlias_iff : TakesAlias pg metricKey ↔ ∃ aliases,
    GraphClient.currentAliases (found pg (.metric (.str metricKey))) = .ok aliases := by
  rw [TakesAlias]
  rcases found pg (.metric (.str metricKey)) with _ | m
  · simp [GraphClient.currentAliases]
  · rw [currentAliases_ok]
    simp

/-- A confirmation returns exactly when the metric takes another alias. -/
theorem confirm_spec (pg : Neo4jGraph) (col : ObservedColumn) (metricKey : String)
    (prov : EdgeProvenance) :
    TakesAlias pg metricKey ∧ (∃ aliases, (Resolver.confirm col metricKey prov).run handler pg =
        (.ok (), confirmed pg col metricKey prov aliases)) ∨
      ¬ TakesAlias pg metricKey ∧
        ∀ pg', (Resolver.confirm col metricKey prov).run handler pg ≠ (.ok (), pg') := by
  let m : NodeRef := .metric (.str metricKey)
  let pg₁ : Neo4jGraph := pg.mergeEdges col.ref.label.value col.ref.key m.label.value m.key
    RelType.measures.value ∅ (·.update prov.setProps)
  have hlink : handler (Write.link (.measures col.system col.table col.name (.str metricKey))
      prov).call pg = (.ok (), pg₁) := by
    rw [handler_link, Link.relType, checkIdent_of_isIdent RelType.measures.isIdent]
    rfl
  have hget : handler (.getNode CoreLabel.metric.value (metricKeyProps (.str metricKey))) pg₁ =
      (.ok (found pg m), pg₁) := Prod.ext (getNode_ref pg₁ m) rfl
  rw [takesAlias_iff, Resolver.confirm_eq, Program.run_bind, Write.run_program, hlink]
  dsimp only [Except.map]
  rw [GraphClient.addMetricAlias_eq, Program.run_call_ok hget]
  rcases hcur : GraphClient.currentAliases (found pg m) with e | aliases
  · exact .inr ⟨nofun, nofun⟩
  · refine .inl ⟨⟨aliases, rfl⟩, GraphClient.extendAliases aliases (casefold col.name), ?_⟩
    rw [Program.ofExcept_ok, Program.ret_bind, Write.run_program, aliasWrite, handler_node]
    rfl

omit [Python] [RowOrder] in
/-- The write of aliases changes no key that a node leads to. -/
theorem exists_reaches_withAliases {n m : NodeRef} (hlabel : n.label ≠ m.label)
    (q : Option Value → Prop) :
    (∃ d, Reaches (pg.mergeNode m.label.value m.key (withAliases aliases)) n relType d ∧
        q (d.props.get? "metric_key")) ↔
      ∃ d, Reaches pg n relType d ∧ q (d.props.get? "metric_key") := by
  have hnew : n.fits ⟨{m.label.value}, m.key⟩ = false := by
    refine Bool.eq_false_iff.mpr fun hfits => hlabel ?_
    exact CoreLabel.value_inj.mp (Finset.mem_singleton.mp (Node.fits_iff.mp hfits).1)
  have hkey (d : Node String String Value) :
      (if Node.fits m.label.value m.key d then withAliases aliases d else d).props.get?
        "metric_key" = d.props.get? "metric_key" := by
    split
    · exact get?_withAliases (by decide)
    · rfl
  simp only [reaches_iff, mem_matchNodes_mergeNode (fun a => fits_withAliases n) hnew]
  constructor
  · rintro ⟨_, ⟨i, hi, j, hjoins, hd⟩, hq⟩
    have hj : j < pg.nodes.length := by
      obtain ⟨e, he, -, -, rfl⟩ := hjoins
      exact (pg.joined e he).2
    rw [getElem?_mergeNode hj, Option.map_eq_some_iff] at hd
    obtain ⟨d, hd, rfl⟩ := hd
    rw [hkey] at hq
    exact ⟨d, ⟨i, hi, j, hjoins, hd⟩, hq⟩
  · rintro ⟨d, ⟨i, hi, j, hjoins, hd⟩, hq⟩
    refine ⟨_, ⟨i, hi, j, hjoins, ?_⟩, (hkey d).symm ▸ hq⟩
    rw [getElem?_mergeNode (List.getElem?_eq_some_iff.mp hd).1, hd]
    rfl

omit [Python] [RowOrder] in
/-- What the nodes that the column leads to show as their keys after a confirmation. -/
theorem exists_measures_confirmed (hcol : ∃ a ∈ pg.nodes, col.ref.fits a = true)
    (metricKey : String) (prov : EdgeProvenance) (aliases : List Value)
    (q : Option Value → Prop) :
    (∃ d, Reaches (confirmed pg col metricKey prov aliases) col.ref RelType.measures.value d ∧
        q (d.props.get? "metric_key")) ↔
      ((∃ a ∈ pg.nodes, (NodeRef.metric (.str metricKey)).fits a = true) ∧
          q (some (.str metricKey))) ∨
        ∃ d, Reaches pg col.ref RelType.measures.value d ∧ q (d.props.get? "metric_key") := by
  have hkey {a : Node String String Value} (ha : (NodeRef.metric (.str metricKey)).fits a = true) :
      a.props.get? "metric_key" = some (.str metricKey) :=
    fits_iff.mp (Node.fits_iff.mp ha).2 "metric_key" _ rfl
  have hlabel : col.ref.label ≠ (NodeRef.metric (.str metricKey)).label := nofun
  rw [confirmed, exists_reaches_withAliases hlabel q]
  simp only [reaches_iff, joins_mergeEdges]
  constructor
  · rintro ⟨d, ⟨i, hi, j, hold | ⟨-, -, hj⟩, hd⟩, hq⟩
    · exact .inr ⟨d, ⟨i, hi, j, hold, hd⟩, hq⟩
    · obtain ⟨a, ha, hfits⟩ := mem_matchNodes.mp hj
      cases ha.symm.trans hd
      rw [hkey hfits] at hq
      exact .inl ⟨⟨d, List.mem_of_getElem? hd, hfits⟩, hq⟩
  · rintro (⟨⟨a, ha, hfits⟩, hq⟩ | ⟨d, ⟨i, hi, j, hold, hd⟩, hq⟩)
    · obtain ⟨j, hj⟩ := List.getElem?_of_mem ha
      obtain ⟨c, hc, hcfits⟩ := hcol
      obtain ⟨i, hi⟩ := List.getElem?_of_mem hc
      have hi' : i ∈ pg.matchNodes col.ref.label.value col.ref.key :=
        mem_matchNodes.mpr ⟨c, hi, hcfits⟩
      have hj' := mem_matchNodes.mpr ⟨a, hj, hfits⟩
      exact ⟨a, ⟨i, hi', j, (.inr ⟨trivial, hi', hj'⟩), hj⟩, (hkey hfits).symm ▸ hq⟩
    · exact ⟨d, ⟨i, hi, j, .inl hold, hd⟩, hq⟩

/-- The metric is there, or the column measures what shows its key, the aliases of the metric can
be extended, and all that the column measures shows a key. -/
structure Listable (pg : Neo4jGraph) (col : ObservedColumn) (metricKey : String) : Prop where
  takesAlias : TakesAlias pg metricKey
  keys : ∀ d, Reaches pg col.ref RelType.measures.value d → (d.props.get? "metric_key").isSome
  shown : (∃ a ∈ pg.nodes, (NodeRef.metric (.str metricKey)).fits a = true) ∨
    ∃ d, Reaches pg col.ref RelType.measures.value d ∧
      d.props.get? "metric_key" = some (.str metricKey)

end Neo4jGraphStore

/-- Over Neo4j, the confirmed metric is listed when it was there before. -/
theorem confirm_listed_neo4j [RowOrder] {pg : Neo4jGraph}
    (hcol : ∃ a ∈ pg.nodes, col.ref.fits a = true) (metricKey : String) (prov : EdgeProvenance) :
    ListsConfirmed Neo4jGraphStore.handler pg col metricKey prov (·.IsMetric metricKey) ↔
      Neo4jGraphStore.Listable pg col metricKey := by
  rcases Neo4jGraphStore.confirm_spec pg col metricKey prov with
    ⟨htakes, aliases, hrun⟩ | ⟨htakes, hraises⟩
  · have hexists := Neo4jGraphStore.exists_measures_confirmed hcol metricKey prov aliases
    have hkeys := not_congr (hexists (· = none))
    simp only [reduceCtorEq, and_false, false_or, not_exists, not_and, ← ne_eq,
      ← Option.isSome_iff_ne_none] at hkeys
    have hshown := hexists (· = some (.str metricKey))
    have hknown : ∃ a ∈ (Neo4jGraphStore.confirmed pg col metricKey prov aliases).nodes,
        col.ref.fits a = true :=
      exists_mergeWhere (fun a ha => (Neo4jGraphStore.fits_withAliases col.ref).trans ha) hcol
    have hlists := Neo4jGraphStore.lists_iff (P := (·.IsMetric metricKey))
      (Neo4jGraphStore.confirmed pg col metricKey prov aliases) col.system col.table col.name
    simp only [GraphClient.ResolvedMetric.IsMetric, Neo4jGraphStore.record_metric_key] at hlists
    rw [ListsConfirmed, hrun]
    constructor
    · rintro ⟨_, hok, hlisted⟩
      cases hok
      obtain ⟨-, hall, d, key, hd, -, hmetric⟩ := hlists.mp hlisted
      exact ⟨htakes, hkeys.mp hall, (hshown.mp ⟨d, hd, hmetric⟩).imp_left And.left⟩
    · intro h
      obtain ⟨d, hd, hmetric⟩ := hshown.mpr (h.shown.imp_left fun hm => ⟨hm, rfl⟩)
      exact ⟨_, rfl, hlists.mpr ⟨hknown, hkeys.mpr h.keys, d, _, hd, hmetric, hmetric⟩⟩
  · refine iff_of_false ?_ fun h => htakes h.takesAlias
    rintro ⟨pg', hok, _⟩
    exact hraises pg' hok

/-- **When a confirmed metric is listed**, over either store. -/
theorem confirm_listed_iff [RowOrder] {g : InMemoryGraphStore} {pg : Neo4jGraph}
    (hg : (g.nodes.get? col.ref.id).isSome) (hpg : ∃ a ∈ pg.nodes, col.ref.fits a = true)
    (metricKey : String) (prov : EdgeProvenance) :
    (ListsConfirmed handler g col metricKey prov (·.IsMetric metricKey) ↔
      g.Listable col metricKey) ∧
    (ListsConfirmed Neo4jGraphStore.handler pg col metricKey prov (·.IsMetric metricKey) ↔
      Neo4jGraphStore.Listable pg col metricKey) :=
  ⟨confirm_listed_inMemory hg metricKey prov, confirm_listed_neo4j hpg metricKey prov⟩

end runs

/-- Both stores list a metric that is there. -/
theorem confirm_listed_known :
    let col : ObservedColumn := { system := "erp", table := "widgets", name := "Weight" }
    let known := ((GraphClient.upsertColumn "erp" "widgets" "Weight" none [] false) >>= fun _ =>
      GraphClient.upsertMetric "p.x" none none none none none ∅)
    ListsConfirmed handler (known.run handler ∅).2 col "p.x" ⟨"src", "2026", "c@1"⟩
        (·.IsMetric "p.x") ∧
      ListsConfirmed Neo4jGraphStore.handler (known.run Neo4jGraphStore.handler ∅).2 col "p.x"
        ⟨"src", "2026", "c@1"⟩ (·.IsMetric "p.x") := by
  intro col known
  have hg : ((known.run handler ∅).2.nodes.get? col.ref.id).isSome := by decide +kernel
  have hpg : ∃ a ∈ (known.run Neo4jGraphStore.handler ∅).2.nodes, col.ref.fits a = true := by
    decide +kernel
  have hlisted := confirm_listed_iff hg hpg "p.x" ⟨"src", "2026", "c@1"⟩
  refine ⟨hlisted.1.mpr ⟨?_, ?_, ?_, .inl ?_⟩, hlisted.2.mpr ⟨?_, ?_, .inl ?_⟩⟩
  · exact ⟨⟨{"Metric"}, by decide +kernel⟩, nofun⟩
  · exact ⟨.str "p.x", by decide +kernel, rfl⟩
  · rintro x ⟨ident, e, he, -⟩
    cases he
  · decide +kernel
  · exact Neo4jGraphStore.takesAlias_iff.mpr ⟨[], by decide +kernel⟩
  · rintro d ⟨i, hi, e, he, -⟩
    cases he
  · decide +kernel

/-- A metric that is not there is listed in memory, and over Neo4j it is not. -/
theorem confirm_listed_not_new :
    let col : ObservedColumn := { system := "erp", table := "widgets", name := "Weight" }
    let known := GraphClient.upsertColumn "erp" "widgets" "Weight" none [] false
    ListsConfirmed handler (known.run handler ∅).2 col "p.x" ⟨"src", "2026", "c@1"⟩
        (·.IsMetric "p.x") ∧
      ¬ ListsConfirmed Neo4jGraphStore.handler (known.run Neo4jGraphStore.handler ∅).2 col "p.x"
        ⟨"src", "2026", "c@1"⟩ (·.IsMetric "p.x") := by
  intro col known
  have hg : ((known.run handler ∅).2.nodes.get? col.ref.id).isSome := by decide +kernel
  have hpg : ∃ a ∈ (known.run Neo4jGraphStore.handler ∅).2.nodes, col.ref.fits a = true := by
    decide +kernel
  refine ⟨(confirm_listed_inMemory hg "p.x" _).mpr ⟨?_, ?_, ?_, .inl ?_⟩, fun hlisted => ?_⟩
  · exact ⟨⟨{"Metric"}, by decide +kernel⟩, nofun⟩
  · exact ⟨.str "p.x", by decide +kernel, rfl⟩
  · rintro x ⟨ident, e, he, -⟩
    cases he
  · decide +kernel
  · rcases ((confirm_listed_neo4j hpg "p.x" _).mp hlisted).shown with hm | ⟨d, ⟨i, hi, e, he, -⟩, -⟩
    · exact absurd hm (by decide +kernel)
    · cases he

section owner
variable [Python] {b : ParsedBundle} {w w' : ResolverState InMemoryGraphStore}

/-- The entity is among those that the metric is listed with. -/
def GraphClient.ResolvedMetric.AppliesTo (entry : GraphClient.ResolvedMetric) (uid : String) :
    Prop :=
  ∃ y ∈ entry.appliesTo, y.get? "uid" = some (.str uid)

/-- In memory, the confirmed metric is listed with an entity that it applied to before. -/
theorem confirm_lists_entity {g : InMemoryGraphStore} {col : ObservedColumn}
    (hcol : (g.nodes.get? col.ref.id).isSome) (metricKey uid : String) (prov : EdgeProvenance) :
    ListsConfirmed handler g col metricKey prov
        (fun entry => entry.IsMetric metricKey ∧ entry.AppliesTo uid) ↔
      g.Listable col metricKey ∧
        ∃ y, g.Reaches (.metric (.str metricKey)) RelType.appliesTo.value y ∧
          y.get? "uid" = some (.str uid) := by
  refine listsConfirmed_iff hcol metricKey (R := fun appliesTo =>
    ∃ y ∈ appliesTo, y.get? "uid" = some (.str uid)) (fun g' new hconf => ?_) prov
  simp only [mem_neighbors]
  exact hconf.exists_applies uid

/-- **When a confirmed metric is listed with the owner** of a column that a load brought: when it
applied to the owner before, for another reason. -/
theorem confirm_lists_owner_iff
    (hrun : (loadBundle c r b).run (ResolverState.handler handler) w = (.ok out, w'))
    (hent : ent ∈ b.entities) (hcol : col ∈ ent.columns) (metricKey : String)
    (prov : EdgeProvenance) :
    ListsConfirmed handler w'.store col metricKey prov
        (fun entry => entry.IsMetric metricKey ∧ entry.AppliesTo ent.uid) ↔
      w'.store.Listable col metricKey ∧
        ∃ y, w'.store.Reaches (.metric (.str metricKey)) RelType.appliesTo.value y ∧
          y.get? "uid" = some (.str ent.uid) := by
  refine confirm_lists_entity (Option.isSome_iff_exists.mpr (stored_of_load hrun ?_)) ..
  exact .column (List.mem_append_right _ (List.mem_flatMap.mpr ⟨ent, hent, hcol⟩))

end owner

/-- The metric applies to the owner already because of another column of the entity. -/
theorem confirm_lists_owner_known :
    let pack : Pack := {
      name := "p"
      metrics := [{ metricKey := "p.weight", aliases := ["weight"] }] }
    let weight : ObservedColumn := { system := "erp", table := "widgets", name := "Weight" }
    let wgt : ObservedColumn := { system := "erp", table := "widgets", name := "wgt" }
    let b : ParsedBundle := {
      provenance := ⟨"src", "2026", "c@1"⟩
      entities := [{ uid := "e1", columns := [weight, wgt] }] }
    let loaded := (loadBundle ∅ ⟨fun _ _ => .ok [], 6 / 10, 3, 0⟩ b).run
      (ResolverState.handler handler) ⟨(System.initial.after [.loadPack pack]).graph, [[]]⟩
    ListsConfirmed handler loaded.2.store wgt "p.weight" ⟨"human", "2026", "h@1"⟩
      fun entry => entry.IsMetric "p.weight" ∧ entry.AppliesTo "e1" := by
  intro pack weight wgt b loaded
  have hrun : loaded = (.ok [
      { column := weight, tier := .autoLinked, metricKey := some (.str "p.weight"), score := 1 },
      { column := wgt, tier := .escalated }], loaded.2) := Prod.fst_eq_iff.mp (by decide +kernel)
  have hmetric : loaded.2.store.nodes.get? (NodeRef.metric (.str "p.weight")).id = some (.ofList [
      ("metric_key", .str "p.weight"), ("_labels", .set {"Metric"}),
      ("aliases", .list [.str "weight"])]) := by decide +kernel
  have hmeasures : loaded.2.store.neighbors wgt.ref RelType.measures.value = [] := by
    decide +kernel
  have happlies : Dict.ofList [("uid", .str "e1"), ("_labels", .set {"Entity"})] ∈
      (loaded.2.store.neighbors (.metric (.str "p.weight"))
        RelType.appliesTo.value).map Prod.fst := by decide +kernel
  have hent : ({ uid := "e1", columns := [weight, wgt] } : ObservedEntity) ∈ b.entities :=
    List.mem_cons_self
  have hcol : wgt ∈ [weight, wgt] := List.mem_cons_of_mem _ List.mem_cons_self
  have hlists := confirm_lists_owner_iff hrun hent hcol "p.weight" ⟨"human", "2026", "h@1"⟩
  refine hlists.mpr ⟨⟨?_, ?_, ?_, .inl ?_⟩, _, mem_neighbors.mp happlies, rfl⟩
  · rw [node, hmetric]
    refine ⟨⟨_, rfl⟩, fun v hv => ?_⟩
    cases hv
    rfl
  · exact ⟨.str "p.weight", by rw [node, hmetric]; rfl, rfl⟩
  · intro x hx
    have hmem := mem_neighbors.mpr hx
    rw [hmeasures] at hmem
    cases hmem
  · rw [node, hmetric]
    rfl

/-- A load that knows the alias lists the metric with the owner, and a confirmation after the load
does not. -/
theorem confirm_lists_owner_not_new :
    let pack : Pack := {
      name := "p"
      metrics := [{ metricKey := "p.weight", aliases := ["weight"] }] }
    let wgt : ObservedColumn := { system := "erp", table := "widgets", name := "wgt" }
    let b : ParsedBundle := {
      provenance := ⟨"src", "2026", "c@1"⟩
      entities := [{ uid := "e1", columns := [wgt] }] }
    let load (g : InMemoryGraphStore) := (loadBundle ∅ ⟨fun _ _ => .ok [], 6 / 10, 3, 0⟩ b).run
      (ResolverState.handler handler) ⟨g, [[]]⟩
    let g := (System.initial.after [.loadPack pack]).graph
    let known := ((GraphClient.addMetricAlias "p.weight" "wgt").run handler g).2
    (∃ rc, ((GraphClient.resolveColumn "erp" "widgets" "wgt").run handler
        (load known).2.store).1 = .ok (some rc) ∧
      ∃ entry ∈ rc.metrics, entry.IsMetric "p.weight" ∧ entry.AppliesTo "e1") ∧
    (load g).1 = .ok [{ column := wgt, tier := .escalated }] ∧
    ((load g).2.store.nodes.get? (NodeRef.metric (.str "p.weight")).id).isSome ∧
    ¬ ListsConfirmed handler (load g).2.store wgt "p.weight" ⟨"human", "2026", "h@1"⟩
      fun entry => entry.IsMetric "p.weight" ∧ entry.AppliesTo "e1" := by
  intro pack wgt b load g known
  refine ⟨?_, by decide +kernel, by decide +kernel, fun hlisted => ?_⟩
  · let m : Props := .ofList [("metric_key", .str "p.weight"), ("_labels", .set {"Metric"}),
      ("aliases", .list [.str "weight", .str "wgt"])]
    have hmeasures : ((load known).2.store.neighbors wgt.ref RelType.measures.value).map Prod.fst =
        [m] := by decide +kernel
    have happlies : Dict.ofList [("uid", .str "e1"), ("_labels", .set {"Entity"})] ∈
        ((load known).2.store.neighbors (.metric (.str "p.weight"))
          RelType.appliesTo.value).map Prod.fst := by decide +kernel
    have hstored : ((load known).2.store.nodes.get?
        (NodeRef.column "erp" "widgets" "wgt").id).isSome := by decide +kernel
    generalize (load known).2.store = s at hmeasures happlies hstored ⊢
    have hm : m ∈ (s.neighbors wgt.ref RelType.measures.value).map Prod.fst := by
      rw [hmeasures]
      exact List.mem_singleton_self m
    refine (s.lists_iff "erp" "widgets" "wgt").mpr ⟨hstored, fun x hx => ?_, m, .str "p.weight",
      mem_neighbors.mp hm, rfl, rfl, rfl, _, happlies, rfl⟩
    have hmem : x ∈ (s.neighbors wgt.ref RelType.measures.value).map Prod.fst :=
      mem_neighbors.mpr hx
    rw [hmeasures] at hmem
    cases List.mem_singleton.mp hmem
    exact ⟨_, rfl, rfl⟩
  · have hstored : ((load g).2.store.nodes.get? wgt.ref.id).isSome := by decide +kernel
    have happlies : (load g).2.store.neighbors (.metric (.str "p.weight"))
        RelType.appliesTo.value = [] := by decide +kernel
    obtain ⟨-, y, hy, -⟩ := (confirm_lists_entity hstored "p.weight" "e1" _).mp hlisted
    have hmem := mem_neighbors.mpr hy
    rw [happlies] at hmem
    cases hmem

end MarginKG
