import MarginKG.Verify.Learning

/-! What a confirmation decides (`confirm_decides_iff`).

A confirmation puts the folded name among the aliases of its metric. The index is folded over the
metrics in the order in which they were created, so the name then leads to that metric unless a
newer one claims it too. -/

namespace MarginKG

open InMemoryGraphStore

/-! ## The metrics around one -/

namespace InMemoryGraphStore

/-- The metrics that were created before the metric `k`. -/
def olderMetrics (g : InMemoryGraphStore) (k : Value) : List Props :=
  ((g.nodes.before (NodeRef.metric k).id).filter (·.1.label = CoreLabel.metric.value)).map Prod.snd

/-- The metrics that were created after the metric `k`. -/
def newerMetrics (g : InMemoryGraphStore) (k : Value) : List Props :=
  ((g.nodes.after (NodeRef.metric k).id).filter (·.1.label = CoreLabel.metric.value)).map Prod.snd

/-- A write to a metric leaves the others around it as they are. -/
theorem metrics_around (g : InMemoryGraphStore) {k : Value} (hk : k.hashable) (setProps : Props)
    (extraLabels : List String) :
    (handler (Write.node (.metric k) setProps extraLabels).call g).2.metrics =
      g.olderMetrics k ++ (updateNode (g.node (.metric k)) setProps extraLabels).2 ::
        g.newerMetrics k := by
  have hlabel : (NodeRef.metric k).id.label = CoreLabel.metric.value := rfl
  rw [handler_node_of_hashable g (n := .metric k) hk]
  simp [metrics, nodesByLabel, Dict.items_set, olderMetrics, newerMetrics, hlabel]

end InMemoryGraphStore

/-! ## Confirmations that return -/

/-- The stored properties take another alias: the labels are a set, and the aliases, if there are
any, can be iterated. -/
structure TakesAlias (x : Props) : Prop where
  labels : ∃ labels, x.get? "_labels" = some (.set labels)
  aliases : ∀ v, x.get? "aliases" = some v → v.iter.isSome

/-- Whether or not the node is stored, its aliases are those of its properties. -/
theorem currentAliases_node (g : InMemoryGraphStore) (metricKey : String) :
    GraphClient.currentAliases (g.nodes.get? (NodeRef.metric (.str metricKey)).id) =
      GraphClient.currentAliases (some (g.node (.metric (.str metricKey)))) := by
  rw [node]
  rcases g.nodes.get? (NodeRef.metric (.str metricKey)).id with _ | x <;> rfl

theorem currentAliases_ok {x : Props} :
    (∃ aliases, GraphClient.currentAliases (some x) = .ok aliases) ↔
      ∀ v, x.get? "aliases" = some v → v.iter.isSome := by
  rw [GraphClient.currentAliases, Option.bind_some]
  rcases x.get? "aliases" with _ | v
  · simp
  · rcases hv : v.iter with _ | l <;> simp [hv]

/-- A write of aliases returns when the labels are a set. -/
theorem updateNode_aliases_ok {x : Props} (aliases : List Value) :
    (updateNode x (.ofList [("aliases", .list aliases)]) []).1 = .ok () ↔
      ∃ labels, x.get? "_labels" = some (.set labels) := by
  have hlabels : (x.update (.ofList [("aliases", .list aliases)])).get? "_labels" =
      x.get? "_labels" := by
    rw [Dict.get?_update]
    rfl
  rw [updateNode, hlabels]
  split <;> simp_all

section runs
variable [Python]

/-- What a confirmation that returns leaves in the graph, with the properties `new` of its
metric. -/
structure Confirmed (g : InMemoryGraphStore) (col : ObservedColumn) (metricKey : String)
    (g' : InMemoryGraphStore) (new : Props) : Prop where
  nodes : g'.nodes = g.nodes.set (NodeRef.metric (.str metricKey)).id new
  edges : ∃ e, g'.edges = g.edges.set
    (Link.measures col.system col.table col.name (.str metricKey)).ident e
  metrics : g'.metrics = g.olderMetrics (.str metricKey) ++ new :: g.newerMetrics (.str metricKey)
  fields : ∀ f, f ≠ "_labels" → f ≠ "aliases" →
    new.get? f = (g.node (.metric (.str metricKey))).get? f
  aliases : ∃ aliases, aliasesOf new = .ok aliases ∧ .str (casefold col.name) ∈ aliases

theorem Confirmed.key (h : Confirmed g col metricKey g' new) : new.get? "metric_key" =
    (g.node (.metric (.str metricKey))).get? "metric_key" :=
  h.fields "metric_key" (by decide) (by decide)

/-- A confirmation returns exactly when the metric takes another alias. -/
theorem confirm_spec (g : InMemoryGraphStore) (col : ObservedColumn) (metricKey : String)
    (prov : EdgeProvenance) :
    TakesAlias (g.node (.metric (.str metricKey))) ∧
        (∃ g' new, (Resolver.confirm col metricKey prov).run handler g = (.ok (), g') ∧
          Confirmed g col metricKey g' new) ∨
      ¬ TakesAlias (g.node (.metric (.str metricKey))) ∧
        ∀ g', (Resolver.confirm col metricKey prov).run handler g ≠ (.ok (), g') := by
  let l : Link := .measures col.system col.table col.name (.str metricKey)
  let g₁ := (handler (Write.link l prov).call g).2
  have hnodes : g₁.nodes = g.nodes := nodes_link g l prov
  have hedges : g₁.edges = g.edges.set l.ident ((g.link l).update prov.setProps) :=
    congrArg (fun r => r.2.edges) (handler_link_of_hashable g (l := l) rfl prov)
  have hnode : g₁.node (.metric (.str metricKey)) = g.node (.metric (.str metricKey)) := by
    rw [node, hnodes, node]
  have hrun := confirm_run g col metricKey prov
  rw [currentAliases_node] at hrun
  by_cases haliases : ∃ aliases,
      GraphClient.currentAliases (some (g.node (.metric (.str metricKey)))) = .ok aliases
  · obtain ⟨aliases, hcur⟩ := haliases
    let setProps : Props :=
      .ofList [("aliases", .list (GraphClient.extendAliases aliases (casefold col.name)))]
    let new := (updateNode (g.node (.metric (.str metricKey))) setProps []).2
    have hwrite : handler (Write.node (.metric (.str metricKey)) setProps []).call g₁ =
        ((updateNode (g.node (.metric (.str metricKey))) setProps []).1,
          { g₁ with nodes := g.nodes.set (NodeRef.metric (.str metricKey)).id new }) := by
      rw [handler_node_of_hashable g₁ (n := .metric (.str metricKey)) rfl, hnode, hnodes]
    rw [hcur] at hrun
    replace hrun := hrun.trans hwrite
    by_cases hlabels : ∃ labels,
        (g.node (.metric (.str metricKey))).get? "_labels" = some (.set labels)
    · refine .inl ⟨⟨hlabels, currentAliases_ok.mp ⟨_, hcur⟩⟩, _, new,
        hrun.trans (Prod.ext ((updateNode_aliases_ok _).mpr hlabels) rfl), ?_⟩
      have hmetrics := metrics_around g₁ (k := .str metricKey) rfl setProps []
      rw [hwrite, hnode, olderMetrics, newerMetrics, hnodes] at hmetrics
      have haliases : new.get? "aliases" =
          some (.list (GraphClient.extendAliases aliases (casefold col.name))) := by
        rw [updateNode_get? (by decide)]
        rfl
      refine ⟨rfl, ⟨_, hedges⟩, hmetrics, fun f hlabels haliases => ?_, _,
        aliasesOf_of_iter haliases rfl, extendAliases_mem ..⟩
      have hset : setProps.get? f = none := Dict.get?_set_of_ne (Ne.symm haliases)
      rw [updateNode_get? hlabels, hset]
      rfl
    · refine .inr ⟨fun h => hlabels h.labels, fun g' h => hlabels ?_⟩
      exact (updateNode_aliases_ok _).mp (congrArg Prod.fst (hrun.symm.trans h))
  · refine .inr ⟨fun h => haliases (currentAliases_ok.mpr h.aliases), fun g' h => ?_⟩
    rcases hcur : GraphClient.currentAliases (some (g.node (.metric (.str metricKey))))
      with e | aliases
    · rw [hcur] at hrun
      cases hrun.symm.trans h
    · exact haliases ⟨aliases, hcur⟩

/-! ## What is decided -/

/-- The confirmation returns, and every column of the confirmed name then auto-links to the
metric. -/
def InMemoryGraphStore.Decides (g : InMemoryGraphStore) (col : ObservedColumn)
    (metricKey : String) (prov : EdgeProvenance) : Prop :=
  ∃ g', (Resolver.confirm col metricKey prov).run handler g = (.ok (), g') ∧
    ∀ (r : Resolver) (col' : ObservedColumn) (queues : List (List Resolution)),
      casefold col'.name = casefold col.name →
      ∃ out, ((r.resolve col').run (ResolverState.handler handler) ⟨g', queues⟩).1 = .ok out ∧
        out.tier = .autoLinked ∧ out.metricKey = some (.str metricKey)

/-- The metric takes another alias, the other metrics can be indexed, and the newest of the newer
metrics that claim the name shows the key, or the metric itself when none of them does. -/
structure InMemoryGraphStore.Unrivalled (g : InMemoryGraphStore) (name metricKey : String) :
    Prop where
  takesAlias : TakesAlias (g.node (.metric (.str metricKey)))
  key : ((g.node (.metric (.str metricKey))).get? "metric_key").isSome
  indexable : ∀ m, m ∈ g.olderMetrics (.str metricKey) ∨ m ∈ g.newerMetrics (.str metricKey) →
    Indexable m
  newest : (lookup name (g.newerMetrics (.str metricKey))).or
    ((g.node (.metric (.str metricKey))).get? "metric_key") = some (.str metricKey)

section confirmed
variable {g g' : InMemoryGraphStore} {col : ObservedColumn} {metricKey : String} {new : Props}

/-- The metric answers for the name that was confirmed. -/
theorem Confirmed.answer_name (h : Confirmed g col metricKey g' new)
    (hfold : ∀ t, casefold (casefold t) = casefold t) : answer (casefold col.name) new =
      (g.node (.metric (.str metricKey))).get? "metric_key" := by
  obtain ⟨aliases, haliases, hmem⟩ := h.aliases
  rw [answer_of_aliases haliases, h.key, if_pos]
  exact List.mem_map.mpr ⟨_, hmem, hfold col.name⟩

theorem Confirmed.indexable_iff (h : Confirmed g col metricKey g' new) :
    (∀ m ∈ g'.metrics, Indexable m) ↔
      ((g.node (.metric (.str metricKey))).get? "metric_key").isSome ∧
        ∀ m, m ∈ g.olderMetrics (.str metricKey) ∨ m ∈ g.newerMetrics (.str metricKey) →
          Indexable m := by
  have hnew : Indexable new ↔
      ((g.node (.metric (.str metricKey))).get? "metric_key").isSome := by
    obtain ⟨aliases, haliases, hmem⟩ := h.aliases
    rw [← h.key]
    constructor
    · rintro ⟨aliases', ha, hkey⟩
      cases haliases.symm.trans ha
      exact hkey (List.ne_nil_of_mem hmem)
    · exact fun hkey => ⟨aliases, haliases, fun _ => hkey⟩
  rw [h.metrics, ← hnew]
  simp only [List.mem_append, List.mem_cons]
  constructor
  · exact fun h => ⟨h new (.inr (.inl rfl)), fun m hm => h m (hm.imp_right .inr)⟩
  · rintro ⟨hnew, hall⟩ m (hm | rfl | hm)
    · exact hall m (.inl hm)
    · exact hnew
    · exact hall m (.inr hm)

/-- The name auto-links to what the index has for it after the confirmation. -/
theorem decides_iff_hit {prov : EdgeProvenance}
    (hrun : (Resolver.confirm col metricKey prov).run handler g = (.ok (), g')) :
    g.Decides col metricKey prov ↔ g'.hit col.name = some (.str metricKey) := by
  constructor
  · rintro ⟨g'', hrun', hall⟩
    cases hrun.symm.trans hrun'
    exact (resolve_autoLinked ⟨fun _ _ => .ok [], 0, 0, 0⟩ col ⟨g', []⟩).mp (hall _ col [] rfl)
  · refine fun hhit => ⟨g', hrun, fun r col' queues hname => ?_⟩
    refine (resolve_autoLinked r col' ⟨g', queues⟩).mpr ?_
    rw [hit, hname]
    exact hhit

end confirmed

/-- **When a decision is decisive**, for every graph, column and metric. -/
theorem confirm_decides_iff (hfold : ∀ t, casefold (casefold t) = casefold t)
    (g : InMemoryGraphStore) (col : ObservedColumn) (metricKey : String) (prov : EdgeProvenance) :
    g.Decides col metricKey prov ↔ g.Unrivalled (casefold col.name) metricKey := by
  rcases confirm_spec g col metricKey prov with
    ⟨htakes, g', new, hrun, hconf⟩ | ⟨htakes, hraises⟩
  · rw [decides_iff_hit hrun, hit_eq_some, hconf.indexable_iff, hconf.metrics, lookup_append,
      lookup_cons, hconf.answer_name hfold]
    constructor
    · rintro ⟨⟨hkey, hindex⟩, hlookup, -⟩
      refine ⟨htakes, hkey, hindex, ?_⟩
      obtain ⟨v, hv⟩ := Option.isSome_iff_exists.mp hkey
      rw [hv] at hlookup ⊢
      rcases hnewer : lookup (casefold col.name) (g.newerMetrics (.str metricKey)) with _ | u <;>
        rw [hnewer] at hlookup <;> exact hlookup
    · rintro ⟨-, hkey, hindex, hnewest⟩
      refine ⟨⟨hkey, hindex⟩, ?_, by simp⟩
      rw [hnewest]
      rfl
  · refine iff_of_false ?_ fun h => htakes h.takesAlias
    rintro ⟨g', hrun, _⟩
    exact hraises g' hrun

end runs

/-- An older metric that has the name among its aliases, and another metric that is created after
both. -/
theorem confirm_decides_older :
    let pack : Pack := {
      name := "p"
      metrics := [{ metricKey := "p.y", aliases := ["weight"] }, { metricKey := "p.x" },
        { metricKey := "p.z", aliases := ["size"] }] }
    let col : ObservedColumn := { system := "erp", table := "widgets", name := "Weight" }
    let g := (System.initial.after [.loadPack pack]).graph
    g.hit col.name = some (.str "p.y") ∧ g.Decides col "p.x" ⟨"src", "2026", "c@1"⟩ := by
  intro pack col g
  refine ⟨by decide +kernel, (confirm_decides_iff casefold_casefold g _ "p.x" _).mpr ?_⟩
  have hmetrics : ∀ m ∈ g.olderMetrics (.str "p.x") ++ g.newerMetrics (.str "p.x"),
      (aliasesOf m).isOk ∧ (m.get? "metric_key").isSome := by decide +kernel
  have hnone : (g.node (.metric (.str "p.x"))).get? "aliases" = none := by decide +kernel
  refine ⟨⟨⟨{"Metric"}, by decide +kernel⟩, fun v hv => ?_⟩, by decide +kernel, fun m hm => ?_,
    by decide +kernel⟩
  · cases hnone.symm.trans hv
  · obtain ⟨haliases, hkey⟩ := hmetrics m (List.mem_append.mpr hm)
    rcases ha : aliasesOf m with e | aliases
    · rw [ha] at haliases
      cases haliases
    · exact ⟨aliases, ha, fun _ => hkey⟩

/-- A newer metric that has the name among its aliases keeps it. -/
theorem confirm_decides_not_rivalled :
    let pack : Pack := {
      name := "p"
      metrics := [{ metricKey := "p.x" }, { metricKey := "p.y", aliases := ["weight"] }] }
    let col : ObservedColumn := { system := "erp", table := "widgets", name := "Weight" }
    let g := (System.initial.after [.loadPack pack]).graph
    g.hit col.name = some (.str "p.y") ∧ ¬ g.Decides col "p.x" ⟨"src", "2026", "c@1"⟩ := by
  intro pack col g
  refine ⟨by decide +kernel, ?_⟩
  rintro ⟨g', hrun, h⟩
  have hg' : g' = ((Resolver.confirm col "p.x" ⟨"src", "2026", "c@1"⟩).run handler g).2 :=
    (congrArg Prod.snd hrun).symm
  subst hg'
  have hhit := (resolve_autoLinked ⟨fun _ _ => .ok [], 0, 0, 0⟩ col ⟨_, []⟩).mp (h _ col [] rfl)
  exact absurd hhit (by decide +kernel)

end MarginKG
