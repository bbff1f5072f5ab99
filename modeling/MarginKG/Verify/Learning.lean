import Mathlib
import MarginKG.Verify.AliasIndex

/-! What the index learns and keeps.

A confirmation writes the mapping back as an alias. Between pack loads the index only grows
(`System.index_grows`): loading bundles never touches a metric, and a confirmation adds one entry.
A pack load sets whole alias lists (`System.learned_kept`): it forgets what it does not list.

Both results rest on the properties of a metric naming it by its own key. Attribute maps can
overwrite that property, which is where `index_misdirected` starts; `learned_forgotten` needs no
more than loading the same pack twice. -/

namespace MarginKG

open InMemoryGraphStore

/-! ## Keys of metrics -/

/-- Every metric has a key among its properties. -/
def InMemoryGraphStore.Keyed (g : InMemoryGraphStore) : Prop :=
  ∀ k x, g.nodes.get? k = some x → k.label = CoreLabel.metric.value →
    ∃ v, x.get? "metric_key" = some v ∧ v ≠ .null

/-- The write leaves no metric without a key. -/
def Write.KeepsKeyed : Write → Prop
  | .node n setProps _ => setProps.get? "metric_key" ≠ some .null ∧ n ≠ .metric .null
  | .link .. => True

theorem fresh_metric_key (g : InMemoryGraphStore) {k : Value}
    (hx : g.nodes.get? (NodeRef.metric k).id = none) :
    (g.node (.metric k)).get? "metric_key" = some k := by
  rw [node, hx]
  rfl

theorem InMemoryGraphStore.Keyed.write {g : InMemoryGraphStore} {w : Write} (h : g.Keyed)
    (hw : w.KeepsKeyed) :
    (handler w.call g).2.Keyed := by
  cases w with
  | link l prov => rw [Keyed, nodes_link]; exact h
  | node n setProps extraLabels =>
    refine forall_nodes_node h fun _ hlabel => ?_
    cases n with
    | metric k =>
      rw [updateNode_get? (by decide)]
      rcases hset : setProps.get? "metric_key" with _ | v
      · rcases hx : g.nodes.get? (NodeRef.metric k).id with _ | x
        · exact ⟨k, by rw [fresh_metric_key g hx]; rfl, fun hnull => hw.2 (hnull ▸ rfl)⟩
        · obtain ⟨v, hv⟩ := h _ x hx rfl
          exact ⟨v, by simpa [node, hx] using hv⟩
      · exact ⟨v, rfl, fun hnull => hw.1 (hnull ▸ hset)⟩
    | _ => cases NodeRef.label_of_id hlabel

theorem clean_ne_null (props : Props) (f : String) : (clean props).get? f ≠ some .null := by
  rw [get?_clean]
  intro h
  simpa using Option.filter_eq_some_iff.mp h

section runs
variable [Python]

omit [Python] in
theorem keepsKeyed_alias (k : String) (aliases : List Value) :
    (aliasWrite k aliases).KeepsKeyed := by
  constructor
  · intro h
    cases h
  · intro h
    cases h

omit [Python] in
theorem keepsKeyed_clean {n : NodeRef} (hn : n ≠ .metric .null) (d : Props)
    (extraLabels : List String) : (Write.node n (clean d) extraLabels).KeepsKeyed :=
  ⟨clean_ne_null _ _, hn⟩

theorem Op.Writes.keepsKeyed {s : System} {op : Op} (h : op.Writes s w) : w.KeepsKeyed := by
  have hbundle {c : GraphClient} {b : ParsedBundle} (hw : b.Writes c w) : w.KeepsKeyed := by
    cases hw <;> first | trivial | exact keepsKeyed_clean (by simp [ObservedColumn.ref]) _ _
  cases h with
  | @client _ call hw =>
    cases hw with
    | newAlias => exact keepsKeyed_alias ..
    | write hw =>
      cases call with
      | registerAllowlists | addMetricAlias => cases hw
      | upsertEntity | relateEntities =>
        simp only [ClientCall.write, Option.ite_none_right_eq_some, Option.some.injEq] at hw
        obtain ⟨-, rfl⟩ := hw
        first | trivial | exact keepsKeyed_clean (by simp) _ _
      | _ => cases hw; first | trivial | exact keepsKeyed_clean (by simp) _ _
  | loadPack _ hw => cases hw <;> exact keepsKeyed_clean (by simp) _ _
  | loadBundle hw => exact hbundle hw
  | link => trivial
  | newAlias => exact keepsKeyed_alias ..
  | runIngest _ hw => exact hbundle hw

theorem System.keyed_after (ops : List Op) : (initial.after ops).graph.Keyed :=
  after_graph (I := Keyed) (fun _ _ hw hg => hg.write hw.keepsKeyed) (fun k x hk => by cases hk) ops

/-! ## Confirmations -/

/-- The operation resolves or loads, but confirms nothing and loads no pack. -/
def Op.Ingests : Op → Prop
  | .resolve .. | .loadBundle .. | .runIngest .. => True
  | _ => False

theorem Op.Ingests.metrics_eq {s : System} {op : Op} (h : op.Ingests) :
    (op.next s).graph.metrics = s.graph.metrics := by
  refine Op.next_graph (I := fun g => g.metrics = s.graph.metrics) (fun w g hw hg => ?_) rfl
  rw [← hg]
  cases hw with
  | loadBundle hw => exact hw.metrics_eq g
  | runIngest _ hw => exact hw.metrics_eq g
  | _ => exact h.elim

omit [Python] in
theorem aliasesOf_of_currentAliases {x : Props}
    (h : GraphClient.currentAliases (some x) = .ok aliases) : aliasesOf x = .ok aliases := by
  rw [GraphClient.currentAliases, Option.bind_some] at h
  rcases hv : x.get? "aliases" with _ | v <;> rw [hv] at h <;> dsimp only at h
  · cases h
    rw [aliasesOf, hv]
  · rcases hi : v.iter with _ | l <;> rw [hi] at h <;> cases h
    exact aliasesOf_of_iter hv hi

/-- A confirmation makes the link, and then the alias, when the aliases can be extended. -/
theorem confirm_run (g : InMemoryGraphStore) (col : ObservedColumn) (metricKey : String)
    (prov : EdgeProvenance) :
    let g₁ := (handler (Write.link (.measures col.system col.table col.name (.str metricKey))
      prov).call g).2
    (Resolver.confirm col metricKey prov).run handler g =
      match GraphClient.currentAliases (g.nodes.get? (NodeRef.metric (.str metricKey)).id) with
      | .error e => (.error e, g₁)
      | .ok aliases => handler (aliasWrite metricKey
          (GraphClient.extendAliases aliases (casefold col.name))).call g₁ := by
  intro g₁
  have hlink : handler (Write.link (.measures col.system col.table col.name (.str metricKey))
      prov).call g = (.ok (), g₁) := Prod.ext (by rw [handler_link_of_hashable g rfl]) rfl
  have hnodes : g₁.nodes = g.nodes := nodes_link g _ prov
  rw [Resolver.confirm_eq, Program.run_bind, Write.run_program, hlink]
  refine (GraphClient.addMetricAlias_run ..).trans ?_
  rw [hnodes]
  rcases GraphClient.currentAliases (g.nodes.get? (NodeRef.metric (.str metricKey)).id)
    with e | aliases
  · rfl
  · rw [Program.ofExcept_ok, Program.ret_bind, Write.run_program]
    dsimp only
    generalize handler (aliasWrite metricKey
      (GraphClient.extendAliases aliases (casefold col.name))).call g₁ = reply
    rcases reply with ⟨e | u, g₂⟩ <;> rfl

/-- The effect of a confirmation on the metrics: none when the aliases cannot be extended, else
the metric's aliases are extended by the folded name. -/
theorem confirm_metrics (g : InMemoryGraphStore) (col : ObservedColumn) (metricKey : String)
    (prov : EdgeProvenance) :
    let old := g.nodes.get? (NodeRef.metric (.str metricKey)).id
    let g' := ((Resolver.confirm col metricKey prov).run handler g).2
    (∃ e, GraphClient.currentAliases old = .error e) ∧ g'.metrics = g.metrics ∨
    ∃ aliases new, GraphClient.currentAliases old = .ok aliases ∧
      new.get? "aliases" = some (.list (GraphClient.extendAliases aliases (casefold col.name))) ∧
      new.get? "metric_key" = old.elim (some (.str metricKey)) (·.get? "metric_key") ∧
      Replaces g.metrics g'.metrics old new := by
  intro old g'
  let g₁ := (handler (Write.link (.measures col.system col.table col.name (.str metricKey))
    prov).call g).2
  have hnodes : g₁.nodes = g.nodes := nodes_link g _ prov
  have hmetrics : g₁.metrics = g.metrics := metrics_link g _ prov
  have hrun := congrArg Prod.snd (confirm_run g col metricKey prov)
  rcases hcur : GraphClient.currentAliases old with e | aliases
  · have hg' : g' = g₁ := hrun.trans (by rw [show GraphClient.currentAliases _ = _ from hcur])
    exact .inl ⟨⟨e, rfl⟩, by rw [hg', hmetrics]⟩
  · right
    have hg' : g' = (handler (aliasWrite metricKey
        (GraphClient.extendAliases aliases (casefold col.name))).call g₁).2 :=
      hrun.trans (by rw [show GraphClient.currentAliases _ = _ from hcur])
    have hreplaces := metrics_write g₁ (k := .str metricKey) rfl
      (.ofList [("aliases", .list (GraphClient.extendAliases aliases (casefold col.name)))]) []
    rw [hmetrics, hnodes] at hreplaces
    refine ⟨aliases, _, rfl, ?_, ?_, hg' ▸ hreplaces⟩
    · rw [updateNode_get? (by decide)]
      rfl
    · rw [updateNode_get? (by decide)]
      change (g₁.node (.metric (.str metricKey))).get? "metric_key" = _
      rcases hold : old with _ | x
      · exact fresh_metric_key g₁ (hnodes ▸ hold)
      · rw [node, hnodes, show g.nodes.get? _ = some x from hold]
        rfl

/-- A name that does not auto-link is in nobody's aliases. -/
theorem lookup_of_unlinked {g : InMemoryGraphStore} (hkeyed : g.Keyed)
    (hindex : aliasIndex g.metrics = .ok index)
    (h : (index.get? name).filter (· ≠ .null) = none) : lookup name g.metrics = none := by
  by_contra hne
  obtain ⟨v, hv⟩ := Option.ne_none_iff_exists'.mp hne
  obtain ⟨m, hm, hans⟩ := lookup_mem hv
  obtain ⟨k, hlabel, hk⟩ := mem_metrics.mp hm
  obtain ⟨v', hv', hnull⟩ := hkeyed k m hk hlabel
  have : v = v' := Option.some.inj ((answer_key hans).symm.trans hv')
  subst this
  rw [(aliasIndex_ok hindex).2, hv] at h
  simp [hnull] at h

/-- The metric names itself by its own key, and its aliases can be extended. -/
def InMemoryGraphStore.Confirmable (g : InMemoryGraphStore) (metricKey : String) : Prop :=
  ∀ x, g.nodes.get? (NodeRef.metric (.str metricKey)).id = some x →
    x.get? "metric_key" = some (.str metricKey) ∧ ∀ v, x.get? "aliases" = some v → v.iter.isSome

omit [Python] in
theorem InMemoryGraphStore.Confirmable.currentAliases {g : InMemoryGraphStore}
    (h : g.Confirmable metricKey) : ∃ aliases, GraphClient.currentAliases
      (g.nodes.get? (NodeRef.metric (.str metricKey)).id) = .ok aliases := by
  rcases hx : g.nodes.get? (NodeRef.metric (.str metricKey)).id with _ | x
  · exact ⟨[], rfl⟩
  rw [GraphClient.currentAliases, Option.bind_some]
  rcases hv : x.get? "aliases" with _ | v
  · exact ⟨[], rfl⟩
  · obtain ⟨l, hl⟩ := Option.isSome_iff_exists.mp ((h x hx).2 v hv)
    exact ⟨l, by simp only [hl]; rfl⟩

/-- A metric that is stored answers with its own key for each of its aliases, and one that is not
has none. -/
theorem answer_stored {g : InMemoryGraphStore} (hconf : g.Confirmable metricKey)
    (hcur : GraphClient.currentAliases (g.nodes.get? (NodeRef.metric (.str metricKey)).id) =
      .ok aliases) (name : String) :
    (g.nodes.get? (NodeRef.metric (.str metricKey)).id).bind (answer name) =
      if name ∈ aliases.map fun a => casefold a.pyStr then some (.str metricKey) else none := by
  rcases hx : g.nodes.get? (NodeRef.metric (.str metricKey)).id with _ | x
  · rw [hx] at hcur
    cases hcur
    rfl
  · rw [hx] at hcur
    rw [Option.bind_some, answer_of_aliases (aliasesOf_of_currentAliases hcur), (hconf x hx).1]

/-- A confirmation of an unlinked column adds its name to the index, and nothing else. -/
theorem confirm_index (hfold : ∀ t, casefold (casefold t) = casefold t) {g : InMemoryGraphStore}
    (hkeyed : g.Keyed) (hconf : g.Confirmable metricKey) {col : ObservedColumn}
    (hindex : aliasIndex g.metrics = .ok index)
    (hunlinked : (index.get? (casefold col.name)).filter (· ≠ .null) = none)
    (prov : EdgeProvenance) :
    ∃ index', aliasIndex ((Resolver.confirm col metricKey prov).run handler g).2.metrics =
        .ok index' ∧ index.get? (casefold col.name) = none ∧
      ∀ name, index'.get? name =
        if name = casefold col.name then some (.str metricKey) else index.get? name := by
  have hnone := lookup_of_unlinked hkeyed hindex hunlinked
  obtain ⟨hindexable, hget⟩ := aliasIndex_ok hindex
  rcases confirm_metrics g col metricKey prov with ⟨⟨e, he⟩, -⟩ |
    ⟨aliases, new, hcur, haliases, hkey, hreplaces⟩
  · obtain ⟨aliases, hcur⟩ := hconf.currentAliases
    rw [he] at hcur
    cases hcur
  have hnew := aliasesOf_of_iter haliases rfl
  have hkey : new.get? "metric_key" = some (.str metricKey) := by
    rw [hkey]
    rcases hx : g.nodes.get? (NodeRef.metric (.str metricKey)).id with _ | x
    · rfl
    · exact (hconf x hx).1
  have hold (name : String) := answer_stored hconf hcur name
  have hfresh : casefold col.name ∉ aliases.map fun a => casefold a.pyStr := by
    intro hmem
    have hsome := hold (casefold col.name)
    rw [if_pos hmem, Option.bind_eq_some_iff] at hsome
    obtain ⟨x, hx, hans⟩ := hsome
    rw [lookup_eq_none.mp hnone x (mem_metrics.mpr ⟨_, rfl, hx⟩)] at hans
    cases hans
  have hextend : GraphClient.extendAliases aliases (casefold col.name) =
      aliases ++ [Value.str (casefold col.name)] := by
    rw [GraphClient.extendAliases, if_neg]
    intro hmem
    exact hfresh (List.mem_map.mpr ⟨_, hmem, hfold col.name⟩)
  have hans (name : String) : answer name new = if name = casefold col.name then
      some (.str metricKey) else
        (g.nodes.get? (NodeRef.metric (.str metricKey)).id).bind (answer name) := by
    rw [answer_of_aliases hnew, hextend, hkey, hold, List.map_append, List.map_singleton]
    simp only [List.mem_append, List.mem_singleton]
    by_cases hname : name = casefold col.name
    · rw [if_pos (.inr (hname.trans (hfold col.name).symm)), if_pos hname]
    · rw [if_neg hname]
      congr 1
      exact propext (or_iff_left fun h => hname (h.trans (hfold col.name)))
  obtain ⟨index', hrun, hget'⟩ := aliasIndex_of_indexable (hreplaces.indexable hindexable
    ⟨_, hnew, fun _ => by rw [hkey]; rfl⟩)
  refine ⟨index', hrun, (hget _).trans hnone, fun name => ?_⟩
  rw [hget', hget]
  by_cases hname : name = casefold col.name
  · rw [if_pos hname]
    subst hname
    exact hreplaces.lookup_new hnone ((hans _).trans (if_pos rfl))
  · rw [if_neg hname]
    exact hreplaces.lookup_same ((hans _).trans (if_neg hname))

/-! ## The index grows -/

namespace System

/-- `metric_aliases` in a state. -/
def metricAliases (s : System) : Except PyErr (Dict String Value) :=
  (GraphClient.metricAliases.run handler s.graph).1

theorem metricAliases_eq (s : System) : s.metricAliases = aliasIndex s.graph.metrics := by
  rw [metricAliases, metricAliases_run]

/-- Resolving the column auto-links it to `v`. -/
def AutoLinks (s : System) (r : Resolver) (col : ObservedColumn) (v : Value) : Prop :=
  ∃ out, ((r.resolve col).run (ResolverState.handler handler) s.state.world).1 = .ok out ∧
    out.tier = .autoLinked ∧ out.metricKey = some v

theorem autoLinks_iff {s : System} {r : Resolver} {col : ObservedColumn} :
    s.AutoLinks r col v ↔ s.graph.hit col.name = some v :=
  resolve_autoLinked r col s.state.world

end System

/-- The operation ingests, or confirms a column whose name does not auto-link. -/
def Op.Reviews (s : System) : Op → Prop
  | .confirm col _ _ => ∃ index, s.metricAliases = .ok index ∧
    (index.get? (casefold col.name)).filter (· ≠ .null) = none
  | op => op.Ingests

/-- A confirmation is made for a metric that names itself and whose aliases can be extended. -/
def Op.ConfirmsByKey (s : System) : Op → Prop
  | .confirm _ metricKey _ => s.graph.Confirmable metricKey
  | _ => True

theorem Op.Reviews.hit_next (hfold : ∀ t, casefold (casefold t) = casefold t) {s : System}
    {op : Op} (hkeyed : s.graph.Keyed) (hop : op.Reviews s) (hconf : op.ConfirmsByKey s)
    (h : s.graph.hit name = some v) : (op.next s).graph.hit name = some v := by
  have hingest (hop : op.Ingests) : (op.next s).graph.hit name = some v := by
    rw [hit, hop.metrics_eq]
    exact h
  cases op with
  | confirm col metricKey prov =>
    obtain ⟨index, hindex, hunlinked⟩ := hop
    rw [System.metricAliases_eq] at hindex
    obtain ⟨index', hindex', hnone, hget⟩ :=
      confirm_index hfold hkeyed hconf hindex hunlinked prov
    rw [hit_of_index hindex] at h
    change ((Resolver.confirm col metricKey prov).run handler s.graph).2.hit name = some v
    rw [hit_of_index hindex', hget, if_neg]
    · exact h
    · intro hname
      rw [hname, hnone] at h
      cases h
  | resolve | loadBundle | runIngest => exact hingest trivial
  | client | loadPack => exact hop.elim

namespace System

/-- **The index only grows** under ingestion and review: what auto-links keeps auto-linking to the
same metric, and a confirmation adds exactly its own entry. -/
theorem index_grows (hfold : ∀ t, casefold (casefold t) = casefold t) (pre ops : List Op)
    (hops : (initial.after pre).Meets (fun s op => op.Reviews s) ops)
    (hconf : (initial.after pre).Meets (fun s op => op.ConfirmsByKey s) ops) :
    (∀ l₁ l₂ l₃, ops = l₁ ++ l₂ ++ l₃ → ∀ (r r' : Resolver) col v,
      (initial.after (pre ++ l₁)).AutoLinks r col v →
      (initial.after (pre ++ l₁ ++ l₂)).AutoLinks r' col v) ∧
    ∀ l₁ col metricKey prov l₂, ops = l₁ ++ .confirm col metricKey prov :: l₂ →
      ∀ index, (initial.after (pre ++ l₁)).metricAliases = .ok index →
      ∃ index', (initial.after (pre ++ l₁ ++ [.confirm col metricKey prov])).metricAliases =
          .ok index' ∧ index.get? (casefold col.name) = none ∧
        ∀ name, index'.get? name =
          if name = casefold col.name then some (.str metricKey) else index.get? name := by
  constructor
  · rintro l₁ l₂ l₃ rfl r r' col v h
    rw [autoLinks_iff] at h ⊢
    rw [after_append initial (pre ++ l₁)]
    replace hops := (meets_append.mp (meets_append.mp hops).1).2
    replace hconf := (meets_append.mp (meets_append.mp hconf).1).2
    rw [← after_append] at hops hconf
    generalize pre ++ l₁ = done at h hops hconf
    induction l₂ generalizing done with
    | nil => exact h
    | cons op l₂ ih =>
      have hnext : op.next (initial.after done) = initial.after (done ++ [op]) := by
        rw [after_append]; rfl
      have := hops.1.hit_next hfold (keyed_after done) hconf.1 h
      rw [after_cons, hnext]
      rw [hnext] at this
      exact ih _ this (hnext ▸ hops.2) (hnext ▸ hconf.2)
  · rintro l₁ col metricKey prov l₂ rfl index hindex
    have hop : Op.Reviews _ (.confirm col metricKey prov) := Meets.at hops
    have hc : Op.ConfirmsByKey _ (.confirm col metricKey prov) := Meets.at hconf
    rw [← after_append] at hop hc
    obtain ⟨index₁, hindex₁, hunlinked⟩ := hop
    rw [hindex] at hindex₁
    cases hindex₁
    rw [metricAliases_eq] at hindex ⊢
    rw [after_append initial (pre ++ l₁)]
    exact confirm_index hfold (keyed_after _) hc hindex hunlinked prov

end System

/-! ## Pack loads -/

omit [Python] in
/-- Every metric is stored under the key that its properties show. -/
def InMemoryGraphStore.KeyedByName (g : InMemoryGraphStore) : Prop :=
  ∀ k x, g.nodes.get? k = some x → k.label = CoreLabel.metric.value →
    ∃ metricKey, k = (NodeRef.metric (.str metricKey)).id ∧
      x.get? "metric_key" = some (.str metricKey)

/-- The write shows a metric under its own key. -/
def Write.KeepsName : Write → Prop
  | .node n setProps _ => ∀ k, n = .metric k → ∃ metricKey, k = .str metricKey ∧
    ∀ v, setProps.get? "metric_key" = some v → v = .str metricKey
  | .link .. => True

omit [Python] in
theorem InMemoryGraphStore.KeyedByName.node {g : InMemoryGraphStore} (h : g.KeyedByName)
    (metricKey : String) :
    (g.node (.metric (.str metricKey))).get? "metric_key" = some (.str metricKey) := by
  rcases hx : g.nodes.get? (NodeRef.metric (.str metricKey)).id with _ | x
  · exact fresh_metric_key g hx
  · obtain ⟨metricKey', hk, hv⟩ := h _ x hx rfl
    cases NodeRef.id_injective hk
    rw [InMemoryGraphStore.node, hx]
    exact hv

omit [Python] in
theorem InMemoryGraphStore.KeyedByName.write {g : InMemoryGraphStore} {w : Write}
    (h : g.KeyedByName) (hw : w.KeepsName) : (handler w.call g).2.KeyedByName := by
  cases w with
  | link l prov => rw [KeyedByName, nodes_link]; exact h
  | node n setProps extraLabels =>
    refine forall_nodes_node h fun _ hlabel => ?_
    cases n with
    | metric k =>
      obtain ⟨metricKey, rfl, hset⟩ := hw k rfl
      refine ⟨metricKey, rfl, ?_⟩
      rw [updateNode_get? (by decide), h.node]
      rcases hv : setProps.get? "metric_key" with _ | v
      · rfl
      · rw [hset v hv]; rfl
    | _ => cases NodeRef.label_of_id hlabel

/-- The metric `metricKey` has the alias `a`. -/
def InMemoryGraphStore.HasAlias (g : InMemoryGraphStore) (metricKey : String) (a : Value) : Prop :=
  ∃ x v aliases, g.nodes.get? (NodeRef.metric (.str metricKey)).id = some x ∧
    x.get? "aliases" = some v ∧ v.iter = some aliases ∧ a ∈ aliases

/-- Somebody confirmed the name for the metric, and it auto-links there. -/
def Learned (history : List Op) (g : InMemoryGraphStore) (name metricKey : String) : Prop :=
  ∃ col prov, .confirm col metricKey prov ∈ history ∧ casefold col.name = name ∧
    g.hit col.name = some (.str metricKey)

/-- The entry of a pack keeps what its metric has learned: it leaves the key alone, and the list
of aliases that it sets, if it sets one, has all that the metric has, and none that folds to a name
learned for another metric. -/
structure MetricDef.KeepsLearned (history : List Op) (g : InMemoryGraphStore) (m : MetricDef) :
    Prop where
  key : ∀ v, (clean m.attributes).get? "metric_key" = some v → v = .str m.metricKey
  aliases : ∀ v, (clean m.attrs).get? "aliases" = some v → ∃ aliases, v.iter = some aliases ∧
    (∀ a, g.HasAlias m.metricKey a → a ∈ aliases) ∧
    ∀ a ∈ aliases, ∀ metricKey, Learned history g (casefold a.pyStr) metricKey →
      metricKey = m.metricKey

omit [Python] in
/-- What a pack's entry sets, beside the arguments of `upsert_metric`. -/
theorem MetricDef.write_eq (m : MetricDef) : ∃ setProps,
    m.write = .node (.metric (.str m.metricKey)) setProps [] ∧
    setProps.get? "aliases" = (clean m.attrs).get? "aliases" ∧
    setProps.get? "metric_key" = (clean m.attributes).get? "metric_key" := by
  refine ⟨_, rfl, get?_metricProps (by decide) .., ?_⟩
  rw [get?_metricProps (by decide), m.get?_attrs (by decide)]

omit [Python] in
/-- The aliases of a metric after the write of a pack's entry. -/
theorem MetricDef.get?_aliases (g : InMemoryGraphStore) (m : MetricDef) {setProps : Props}
    (hset : setProps.get? "aliases" = (clean m.attrs).get? "aliases") :
    (updateNode (g.node (.metric (.str m.metricKey))) setProps []).2.get? "aliases" =
      ((clean m.attrs).get? "aliases").or
        ((g.nodes.get? (NodeRef.metric (.str m.metricKey)).id).bind (·.get? "aliases")) := by
  rw [updateNode_get? (by decide), hset]
  congr 1
  rw [InMemoryGraphStore.node]
  rcases g.nodes.get? (NodeRef.metric (.str m.metricKey)).id with _ | x <;> rfl

omit [Python] in
/-- No alias that the metrics of `g₀` have gets lost in the write of an entry that lists them. -/
theorem MetricDef.hasAlias_write {g₀ g : InMemoryGraphStore} {m : MetricDef}
    (hm : ∀ v, (clean m.attrs).get? "aliases" = some v → ∃ aliases, v.iter = some aliases ∧
      ∀ a, g₀.HasAlias m.metricKey a → a ∈ aliases)
    (h : ∀ k a, g₀.HasAlias k a → g.HasAlias k a) :
    ∀ k a, g₀.HasAlias k a → (handler m.write.call g).2.HasAlias k a := by
  intro k a ha
  obtain ⟨x, v, aliases, hx, hv, hiter, hmem⟩ := h k a ha
  obtain ⟨setProps, hw, haliases, -⟩ := m.write_eq
  rw [hw]
  by_cases hk : k = m.metricKey
  · subst hk
    have hget := m.get?_aliases g haliases
    rw [hx, Option.bind_some] at hget
    rcases hs : (clean m.attrs).get? "aliases" with _ | v' <;> rw [hs] at hget
    · exact ⟨_, v, aliases, (get?_nodes_node ..).trans (if_pos ⟨rfl, rfl⟩), hget.trans hv,
        hiter, hmem⟩
    · obtain ⟨aliases', hiter', hall⟩ := hm v' hs
      exact ⟨_, v', aliases', (get?_nodes_node ..).trans (if_pos ⟨rfl, rfl⟩), hget, hiter',
        hall a ha⟩
  · refine ⟨x, v, aliases, ?_, hv, hiter, hmem⟩
    rw [get?_nodes_node, if_neg, hx]
    rintro ⟨-, hid⟩
    cases NodeRef.id_injective hid
    exact hk rfl

/-- The graph `g` has what the metrics of `g₀` had learned, and finds `name` at `metricKey`. -/
structure Remembers (g₀ g : InMemoryGraphStore) (name metricKey : String) : Prop where
  named : g.KeyedByName
  aliases : ∀ k a, g₀.HasAlias k a → g.HasAlias k a
  indexable : ∀ x ∈ g.metrics, Indexable x
  found : lookup name g.metrics = some (.str metricKey)

theorem MetricDef.KeepsLearned.write {g₀ g : InMemoryGraphStore} {m : MetricDef}
    {owner : String}
    (hm : m.KeepsLearned history g₀) (hlearned : Learned history g₀ name owner)
    (halias : ∃ a, g₀.HasAlias owner a ∧ casefold a.pyStr = name)
    (h : Remembers g₀ g name owner) :
    Remembers g₀ (handler m.write.call g).2 name owner := by
  have haliases := m.hasAlias_write (fun v hv => by
    obtain ⟨aliases, hiter, hall, -⟩ := hm.aliases v hv
    exact ⟨aliases, hiter, hall⟩) h.aliases
  obtain ⟨setProps, hw, hset, hkey⟩ := m.write_eq
  have hnamed : (handler m.write.call g).2.KeyedByName :=
    h.named.write (hw ▸ fun k hk => ⟨m.metricKey, by cases hk; rfl, fun v hv =>
      hm.key v (hkey ▸ hv)⟩)
  have hreplaces := metrics_write g (k := .str m.metricKey) rfl setProps []
  have hnewkey : (updateNode (g.node (.metric (.str m.metricKey))) setProps []).2.get?
      "metric_key" = some (.str m.metricKey) := by
    rw [updateNode_get? (by decide), h.named.node]
    rcases hv : setProps.get? "metric_key" with _ | v
    · rfl
    · rw [hm.key v (hkey ▸ hv)]; rfl
  have hget := m.get?_aliases g hset
  rw [← hw] at hreplaces
  generalize (updateNode (g.node (.metric (.str m.metricKey))) setProps []).2 = new at *
  -- the old entry has the same key
  have holdkey {x : Props} (hx : g.nodes.get? (NodeRef.metric (.str m.metricKey)).id = some x) :
      x.get? "metric_key" = some (.str m.metricKey) := by
    have := h.named.node m.metricKey
    rwa [InMemoryGraphStore.node, hx] at this
  rcases hs : (clean m.attrs).get? "aliases" with _ | v <;> rw [hs] at hget
  · -- the entry sets no aliases: the answers stay as they are
    rw [Option.none_or] at hget
    obtain ⟨hindexable, hlookup⟩ := hreplaces.lookup_eq h.indexable hget hnewkey fun _ => holdkey
    exact ⟨hnamed, haliases, hindexable, (hlookup name).trans h.found⟩
  · obtain ⟨aliases, hiter, hall, hothers⟩ := hm.aliases v hs
    have hnew := aliasesOf_of_iter (hget.trans Option.some_or) hiter
    refine ⟨hnamed, haliases, hreplaces.indexable h.indexable
      ⟨aliases, hnew, fun _ => by rw [hnewkey]; rfl⟩, hreplaces.lookup_keep h.found ?_⟩
    by_cases hk : owner = m.metricKey
    · obtain ⟨a, ha, rfl⟩ := halias
      left
      rw [answer_of_aliases hnew, if_pos, hnewkey, hk]
      exact List.mem_map.mpr ⟨a, hall a (hk ▸ ha), rfl⟩
    · right
      constructor
      · rw [answer_of_aliases hnew, if_neg]
        intro hmem
        obtain ⟨a, ha, rfl⟩ := List.mem_map.mp hmem
        exact hk (hothers a ha owner hlearned)
      · intro hbind
        obtain ⟨x, hx, hans⟩ := Option.bind_eq_some_iff.mp hbind
        have := (answer_key hans).symm.trans (holdkey hx)
        cases this
        exact hk rfl

omit [Python] in
/-- A write to a node of another label leaves the aliases of metrics as they are. -/
theorem hasAlias_node_of_ne {g : InMemoryGraphStore} {n : NodeRef} (hn : n.label ≠ .metric)
    (setProps : Props) (extraLabels : List String) (h : g.HasAlias k a) :
    (handler (Write.node n setProps extraLabels).call g).2.HasAlias k a := by
  obtain ⟨x, v, aliases, hx, hv, hiter, hmem⟩ := h
  refine ⟨x, v, aliases, ?_, hv, hiter, hmem⟩
  rw [get?_nodes_node, if_neg, hx]
  rintro ⟨-, hid⟩
  rw [NodeRef.id_injective hid] at hn
  exact hn rfl

theorem Remembers.benchmark {g₀ g : InMemoryGraphStore} (h : Remembers g₀ g name owner)
    (b : BenchmarkDef) : Remembers g₀ (handler b.write.call g).2 name owner := by
  have hn : (NodeRef.benchmark b.benchmarkKey).label ≠ .metric := fun h => by cases h
  have hmetrics := metrics_node_of_ne g hn (clean b.attributes) []
  refine ⟨h.named.write (w := b.write) fun k hk => (by cases hk), fun k a ha =>
    hasAlias_node_of_ne hn _ _ (h.aliases k a ha), ?_, ?_⟩
  · rw [BenchmarkDef.write, hmetrics]
    exact h.indexable
  · rw [BenchmarkDef.write, hmetrics]
    exact h.found

omit [Python] in
theorem iter_of_aliasesOf {x : Props} (h : aliasesOf x = .ok aliases) (ha : a ∈ aliases) :
    ∃ v, x.get? "aliases" = some v ∧ v.iter = some aliases := by
  rw [aliasesOf] at h
  rcases hv : x.get? "aliases" with _ | v <;> rw [hv] at h <;> dsimp only at h
  · cases h; cases ha
  · split at h
    · rcases hi : v.iter with _ | l <;> rw [hi] at h <;> cases h
      exact ⟨v, rfl, hi⟩
    · cases h; cases ha

/-- What auto-links to a metric does so by one of its aliases. -/
theorem hasAlias_of_lookup {g : InMemoryGraphStore} (hnamed : g.KeyedByName)
    (h : lookup name g.metrics = some (.str owner)) :
    ∃ a, g.HasAlias owner a ∧ casefold a.pyStr = name := by
  obtain ⟨x, hx, hans⟩ := lookup_mem h
  obtain ⟨k, hlabel, hk⟩ := mem_metrics.mp hx
  obtain ⟨owner', rfl, hkey⟩ := hnamed k x hk hlabel
  have : Value.str owner = .str owner' := Option.some.inj ((answer_key hans).symm.trans hkey)
  cases this
  rw [answer] at hans
  split at hans
  · rename_i aliases haliases
    split at hans
    · rename_i hmem
      obtain ⟨a, ha, rfl⟩ := List.mem_map.mp hmem
      obtain ⟨v, hv, hiter⟩ := iter_of_aliasesOf haliases ha
      exact ⟨a, ⟨x, v, aliases, hk, hv, hiter, ha⟩, rfl⟩
    · cases hans
  · cases hans

/-- Every pack that the sequence loads keeps what has been learned by then. -/
def LoadsKeepLearned (ops : List Op) : Prop :=
  ∀ pre pack post, ops = pre ++ .loadPack pack :: post → pack.validate = .ok () →
    ∀ m ∈ pack.metrics, m.KeepsLearned pre (System.initial.after pre).graph

/-- Any operation but a direct call of the client. -/
def Op.Indirect : Op → Prop
  | .client _ => False
  | _ => True

theorem LoadsKeepLearned.keyedByName {ops : List Op} (hops : ∀ op ∈ ops, op.Indirect)
    (h : LoadsKeepLearned ops) : (System.initial.after ops).graph.KeyedByName := by
  induction ops using List.reverseRecOn with
  | nil => exact fun k x hk => by cases hk
  | append_singleton ops op ih =>
    have ih := ih (fun op hop => hops op (List.mem_append_left _ hop)) fun pre pack post heq =>
      h pre pack (post ++ [op]) (by rw [heq]; simp)
    rw [System.after_append]
    refine Op.next_graph (I := KeyedByName) (fun w g hw hg => KeyedByName.write hg ?_) ih
    have hbundle {c : GraphClient} {b : ParsedBundle} (hw : b.Writes c w) : w.KeepsName := by
      cases hw <;> first | trivial | exact fun k hk => (by cases hk)
    cases hw with
    | client => exact (hops _ (List.mem_append_right _ (List.mem_singleton_self _))).elim
    | loadPack hv hw =>
      cases hw with
      | @metric m hm =>
        obtain ⟨setProps, hw, -, hkey⟩ := m.write_eq
        rw [hw]
        rintro k hk
        cases hk
        exact ⟨m.metricKey, rfl, fun v hv' => (h ops _ [] rfl hv m hm).key v (hkey ▸ hv')⟩
      | benchmark => exact fun k hk => (by cases hk)
    | loadBundle hw => exact hbundle hw
    | runIngest _ hw => exact hbundle hw
    | link => trivial
    | newAlias =>
      rintro k hk
      cases hk
      exact ⟨_, rfl, nofun⟩

namespace System

/-- **Learned names are kept**: along a run whose pack loads set no list of aliases without those
that have been learned, a load removes no alias from a metric, and every name that auto-links to a
metric for which it was confirmed still does so after the load. -/
theorem learned_kept {ops : List Op} (hops : ∀ op ∈ ops, op.Indirect)
    (hloads : LoadsKeepLearned ops) :
    ∀ pre pack post, ops = pre ++ .loadPack pack :: post →
      (∀ col₀ metricKey prov, .confirm col₀ metricKey prov ∈ pre →
        ∀ (col : ObservedColumn) (r r' : Resolver), casefold col.name = casefold col₀.name →
        (initial.after pre).AutoLinks r col (.str metricKey) →
        (initial.after (pre ++ [.loadPack pack])).AutoLinks r' col (.str metricKey)) ∧
      ∀ metricKey a, (initial.after pre).graph.HasAlias metricKey a →
        (initial.after (pre ++ [.loadPack pack])).graph.HasAlias metricKey a := by
  rintro pre pack post rfl
  have hkeep := hloads pre pack post rfl
  have hnamed : (initial.after pre).graph.KeyedByName :=
    LoadsKeepLearned.keyedByName (fun op hop => hops op (List.mem_append_left _ hop))
      fun pre' pack' post' heq =>
        hloads pre' pack' (post' ++ .loadPack pack :: post) (by rw [heq]; simp)
  rw [after_append]
  constructor
  · intro col₀ metricKey prov hmem col r r' hname hlinks
    rw [autoLinks_iff] at hlinks ⊢
    obtain ⟨hindexable, hfound, hnull⟩ := hit_eq_some.mp hlinks
    have hlearned : Learned pre (initial.after pre).graph (casefold col.name) metricKey := by
      refine ⟨col₀, prov, hmem, hname.symm, ?_⟩
      rw [hit, ← hname]
      exact hlinks
    have hremembers : Remembers (initial.after pre).graph
        (Op.next (initial.after pre) (.loadPack pack)).graph (casefold col.name) metricKey := by
      refine Op.next_graph (I := fun g => Remembers (initial.after pre).graph g
        (casefold col.name) metricKey) (fun w g hw hg => ?_)
        ⟨hnamed, fun _ _ => id, hindexable, hfound⟩
      cases hw with
      | loadPack hv hw =>
        cases hw with
        | metric hm => exact (hkeep hv _ hm).write hlearned (hasAlias_of_lookup hnamed hfound) hg
        | benchmark => exact hg.benchmark _
    exact hit_eq_some.mpr ⟨hremembers.indexable, hremembers.found, hnull⟩
  · intro metricKey a ha
    refine Op.next_graph (I := fun g => ∀ k a, (initial.after pre).graph.HasAlias k a →
      g.HasAlias k a) (fun w g hw hg => ?_) (fun _ _ => id) metricKey a ha
    cases hw with
    | loadPack hv hw =>
      cases hw with
      | metric hm =>
        refine MetricDef.hasAlias_write (fun v hv' => ?_) hg
        obtain ⟨aliases, hiter, hall, -⟩ := (hkeep hv _ hm).aliases v hv'
        exact ⟨aliases, hiter, hall⟩
      | benchmark => exact fun k a ha =>
          hasAlias_node_of_ne (fun h => by cases h) _ _ (hg k a ha)

end System

end runs

theorem casefold_casefold (t : String) :
    asciiPython.casefold (asciiPython.casefold t) = asciiPython.casefold t := by
  simp only [Python.casefold, String.toList_ofList, List.map_map]
  congr 2
  funext c
  exact Char.toLower_toLower_eq_toLower c

namespace System

theorem index_grows_wgt :
    let pack : Pack := { name := "p", metrics := [{ metricKey := "p.x", aliases := ["weight"] }] }
    let col : ObservedColumn := { system := "s", table := "t", name := "Wgt" }
    let ops : List Op := [.loadPack pack, .confirm col "p.x" ⟨"src", "2024", "c@1"⟩]
    ∃ index, (initial.after ops).metricAliases = .ok index ∧
      index.get? "wgt" = some (.str "p.x") := by
  intro pack col ops
  obtain ⟨index, hindex, -, hget⟩ := (index_grows casefold_casefold [.loadPack pack]
    [.confirm col "p.x" ⟨"src", "2024", "c@1"⟩]
    ⟨⟨.ofList [("weight", .str "p.x")], by decide, by decide⟩, trivial⟩
    ⟨fun x hx => by
      have : some x = some (Dict.ofList [("metric_key", .str "p.x"), ("_labels", .set {"Metric"}),
        ("aliases", .list [.str "weight"])]) := hx.symm.trans (by decide)
      cases this
      exact ⟨rfl, fun v hv => by cases hv; rfl⟩, trivial⟩).2 [] col "p.x" _ [] rfl
    (.ofList [("weight", .str "p.x")]) (by decide)
  exact ⟨index, hindex, (hget "wgt").trans (if_pos (by decide))⟩

/-- A metric whose attributes carry another key sends what it is taught to that key. -/
theorem index_misdirected :
    let col : ObservedColumn := { system := "s", table := "t", name := "wgt" }
    let s := initial.after [.client (.upsertMetric "p.x" none none none none none
      (.ofList [("metric_key", .str "p.y")]))]
    let confirm : Op := .confirm col "p.x" ⟨"src", "2024", "c@1"⟩
    confirm.Reviews s ∧ ¬ ∃ index, (confirm.next s).metricAliases = .ok index ∧
      index.get? (casefold "wgt") = some (.str "p.x") := by
  refine ⟨⟨∅, by decide, by decide⟩, ?_⟩
  rintro ⟨index, hindex, hget⟩
  have : Except.ok index = Except.ok (.ofList [("wgt", .str "p.y")]) :=
    hindex.symm.trans (by decide)
  cases this
  exact absurd hget (by decide)

theorem learned_kept_wgt :
    let pack (aliases : List String) : Pack :=
      { name := "p", metrics := [{ metricKey := "p.x", aliases }] }
    let col : ObservedColumn := { system := "s", table := "t", name := "wgt" }
    let ops : List Op := [.loadPack (pack ["weight"]), .confirm col "p.x" ⟨"src", "2024", "c@1"⟩]
    let r : Resolver := { suggester := fun _ _ => .ok [], queue := 0 }
    (initial.after (ops ++ [.loadPack (pack ["weight", "wgt"])])).AutoLinks r col (.str "p.x") := by
  intro pack col ops r
  have hops : ∀ op ∈ ops ++ [.loadPack (pack ["weight", "wgt"])], op.Indirect := by
    simp [ops, Op.Indirect]
  have hloads : LoadsKeepLearned (ops ++ [.loadPack (pack ["weight", "wgt"])]) := by
    intro pre pack₁ post heq _ m hm
    have hlisted (pre : List Op) {aliases : List String} (hne : aliases ≠ [])
        (h : ∀ a, (initial.after pre).graph.HasAlias "p.x" a → a ∈ aliases.map Value.str)
        (hlearned : ∀ name k, Learned pre (initial.after pre).graph name k → k = "p.x") :
        ∀ m ∈ (pack aliases).metrics, m.KeepsLearned pre (initial.after pre).graph := by
      intro m hm
      cases List.mem_singleton.mp hm
      refine ⟨nofun, fun v hv => ⟨aliases.map .str, ?_, h, fun a _ k => hlearned _ k⟩⟩
      rw [get?_clean, MetricDef.attrs, if_neg hne, Dict.get?_set_self] at hv
      cases hv
      rfl
    rcases pre with _ | ⟨_, _ | ⟨_, _ | ⟨_, pre⟩⟩⟩
    · cases heq
      refine hlisted [] (by decide) ?_ ?_ m hm
      · rintro a ⟨x, v, aliases, hx, -⟩
        cases hx
      · rintro name k ⟨_, _, hmem, -⟩
        cases hmem
    · cases heq
    · cases heq
      refine hlisted ops (by decide) ?_ ?_ m hm
      · rintro a ⟨x, v, aliases, hx, hv, hiter, ha⟩
        have hx' := hx.symm.trans (by decide : _ = some (Dict.ofList [("metric_key", .str "p.x"),
          ("_labels", .set {"Metric"}), ("aliases", .list [.str "weight", .str "wgt"])]))
        cases hx'
        cases hv
        cases hiter
        exact ha
      · rintro name k ⟨_, _, hmem, -⟩
        simp only [ops, List.mem_cons, reduceCtorEq, Op.confirm.injEq, List.not_mem_nil, or_false,
          false_or] at hmem
        exact hmem.2.1
    · simp [ops] at heq
  exact (learned_kept hops hloads ops _ [] rfl).1 col "p.x" ⟨"src", "2024", "c@1"⟩ (by simp [ops])
    col r r rfl (autoLinks_iff.mpr (by decide))

/-- Loading the same pack twice, with a confirmation in between, forgets what was confirmed. -/
theorem learned_forgotten :
    let pack : Pack := { name := "p", metrics := [{ metricKey := "p.x", aliases := ["weight"] }] }
    let col : ObservedColumn := { system := "s", table := "t", name := "wgt" }
    let ops : List Op := [.loadPack pack, .confirm col "p.x" ⟨"src", "2024", "c@1"⟩]
    let r : Resolver := { suggester := fun _ _ => .ok [], queue := 0 }
    (initial.after ops).AutoLinks r col (.str "p.x") ∧ pack.validate = .ok () ∧
      ¬ (initial.after (ops ++ [.loadPack pack])).AutoLinks r col (.str "p.x") := by
  intro pack col ops r
  rw [autoLinks_iff, autoLinks_iff]
  decide

end System

end MarginKG
