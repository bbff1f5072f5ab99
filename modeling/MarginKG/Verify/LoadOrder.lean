import MarginKG.Resolver.Suggest
import MarginKG.Verify.Contents
import MarginKG.Verify.Stores

/-! Loading two packs in either order.

The packs define different metrics, so they leave the same metrics in either order
(`writeAll_append_comm`); those that are new to the graph come in the order in which the packs were
loaded. The tier-1 index keeps what the last metric says about a name, so the order matters for a
name that new metrics of both packs claim (`alias_last_wins`) and for no other (`resolve_comm`):
the terms of the metrics are the same in both orders, and the suggester sorts what it finds. -/

namespace MarginKG

open InMemoryGraphStore

/-! ## The suggester -/

/-- The order in which the metrics come does not show in the suggestions. -/
theorem suggest_perm [Python] [Similarity] {terms terms' : Dict String (List String)}
    (h : terms.items.Perm terms'.items) (column : ObservedColumn) :
    stringSimilaritySuggester column terms = stringSimilaritySuggester column terms' := by
  refine congrArg Except.ok (List.Perm.eq_of_pairwise' (List.pairwise_insertionSort _ _)
    (List.pairwise_insertionSort _ _) ?_)
  exact (List.perm_insertionSort _ _).trans
    ((h.filterMap _).trans (List.perm_insertionSort _ _).symm)

/-! ## What a resolver reads of the metrics -/

section reads
variable [Python]

/-- Metrics without a common key may come in either order. -/
theorem termIndex_comm {old a b : List Props} (hab : ∀ x ∈ a, ∀ y ∈ b, ∀ v,
      x.get? "metric_key" = some v → y.get? "metric_key" ≠ some v) :
    Option.Rel (fun terms terms' => terms.items.Perm terms'.items)
      (termIndex (old ++ a ++ b)).toOption (termIndex (old ++ b ++ a)).toOption := by
  simp only [termIndex_eq, List.mapM_append]
  rcases old.mapM termsOf with e | es
  · exact .none
  rcases ha : a.mapM termsOf with e | es₁ <;> rcases hb : b.mapM termsOf with e' | es₂
  · exact .none
  · exact .none
  · exact .none
  · refine .some (Dict.items_perm ?_)
    rw [Dict.ofList, Dict.ofList, Dict.setAll_append, Dict.setAll_append, Dict.setAll_append,
      Dict.setAll_append]
    refine Dict.get?_setAll_comm (fun k hk hk' => ?_) _
    obtain ⟨e, he, rfl⟩ := List.mem_map.mp hk
    obtain ⟨e', he', hkey⟩ := List.mem_map.mp hk'
    obtain ⟨x, hx, hxe⟩ := exists_mem_of_forall₂ (Program.mapM_eq_ok.mp ha) he
    obtain ⟨y, hy, hye⟩ := exists_mem_of_forall₂ (Program.mapM_eq_ok.mp hb) he'
    exact hab x hx y hy _ (termsOf_key hxe) (hkey ▸ termsOf_key hye)

omit [Python] in
theorem SameProps.aliasesOf (h : SameProps x y) : aliasesOf x = aliasesOf y := by
  rw [MarginKG.aliasesOf, MarginKG.aliasesOf, h]

omit [Python] in
theorem SameProps.metricKeyOf (h : SameProps x y) : metricKeyOf x = metricKeyOf y := by
  rw [MarginKG.metricKeyOf, MarginKG.metricKeyOf, h]

theorem SameProps.termsOf (h : SameProps x y) : termsOf x = termsOf y := by
  rw [MarginKG.termsOf, MarginKG.termsOf, h.aliasesOf, h.metricKeyOf]

theorem SameProps.answer (h : SameProps x y) (name : String) : answer name x = answer name y := by
  rw [MarginKG.answer, MarginKG.answer, h.aliasesOf, h]

omit [Python] in
theorem SameProps.indexable (h : SameProps x y) : Indexable x ↔ Indexable y := by
  rw [Indexable, Indexable, h.aliasesOf, h]

theorem lookup_congr {ms ms' : List Props} (h : List.Forall₂ SameProps ms ms') (name : String) :
    lookup name ms = lookup name ms' := by
  induction h with
  | nil => rfl
  | cons hxy _ ih => rw [lookup_cons, lookup_cons, ih, hxy.answer]

theorem mapM_termsOf_congr {ms ms' : List Props} (h : List.Forall₂ SameProps ms ms') :
    ms.mapM termsOf = ms'.mapM termsOf := by
  induction h with
  | nil => rfl
  | cons hxy _ ih => rw [List.mapM_cons, List.mapM_cons, ih, hxy.termsOf]

omit [Python] in
theorem indexable_congr {ms ms' : List Props} (h : List.Forall₂ SameProps ms ms') :
    (∀ m ∈ ms, Indexable m) ↔ ∀ m ∈ ms', Indexable m := by
  induction h with
  | nil => exact Iff.rfl
  | cons hxy _ ih => rw [List.forall_mem_cons, List.forall_mem_cons, ih, hxy.indexable]

/-- Of the metrics, a resolution depends on what the last of them says about the name of the
column, and on their terms, when the suggester does not tell orders apart. -/
theorem resolve_congr {r : Resolver} (hr : ∀ column {terms terms' : Dict String (List String)},
      terms.items.Perm terms'.items → r.suggester column terms = r.suggester column terms')
    {w w' : ResolverState InMemoryGraphStore} {col : ObservedColumn}
    (hindexable : (∀ m ∈ w.store.metrics, Indexable m) ↔ ∀ m ∈ w'.store.metrics, Indexable m)
    (hlookup : lookup (casefold col.name) w.store.metrics =
      lookup (casefold col.name) w'.store.metrics)
    (hterms : Option.Rel (fun terms terms' => terms.items.Perm terms'.items)
      (termIndex w.store.metrics).toOption (termIndex w'.store.metrics).toOption) :
    ((r.resolve col).run (ResolverState.handler handler) w).1.toOption =
      ((r.resolve col).run (ResolverState.handler handler) w').1.toOption := by
  rw [Resolver.resolve, Program.run_bind, Program.run_bind, ResolverState.run_liftStore,
    ResolverState.run_liftStore, metricAliases_run, metricAliases_run]
  rcases aliasIndex_spec w.store.metrics with ⟨hm, index, hrun, hget⟩ | ⟨hm, e, he⟩
  · obtain ⟨index', hrun', hget'⟩ := aliasIndex_of_indexable (hindexable.mp hm)
    rw [hrun, hrun']
    dsimp only
    rw [hget, hget', hlookup]
    generalize Option.filter _ (lookup (casefold col.name) w'.store.metrics) = hit
    rcases hit with _ | hit
    · dsimp only
      split
      · rfl
      rw [Program.run_bind, Program.run_bind, ResolverState.run_liftStore,
        ResolverState.run_liftStore, metricTerms_run, metricTerms_run]
      dsimp only
      generalize termIndex w.store.metrics = x, termIndex w'.store.metrics = x' at hterms
      rcases x with e | terms <;> rcases x' with e' | terms' <;> cases hterms
      · rfl
      · rename_i hperm
        dsimp only
        rw [hr col hperm]
        rcases r.suggester col terms' with e | ranked
        · rfl
        · rw [Program.ofExcept_ok, Program.ret_bind]
          split <;> rfl
    · rfl
  · rcases aliasIndex_spec w'.store.metrics with ⟨hm', -⟩ | ⟨-, e', he'⟩
    · exact (hm (hindexable.mpr hm')).elim
    · rw [he, he']
      rfl

end reads

/-! ## Packs as sequences of writes -/

/-- The node that a write is made to. -/
def Write.nodeKey? : Write → Option NodeKey
  | node n _ _ => some n.id
  | link .. => none

theorem Write.place_eq_inl {w : Write} (h : w.nodeKey? = some k) : w.place = .inl k := by
  cases w <;> cases h
  rfl

/-- What a pack writes, in its order. -/
def Pack.catalog (pack : Pack) : List Write :=
  pack.metrics.map MetricDef.write ++ pack.benchmarks.map BenchmarkDef.write

theorem Pack.loadCatalog_eq (pack : Pack) : pack.loadCatalog = pack.catalog.forM Write.program := by
  rw [catalog, List.forM_eq_forM, List.forM_append, List.forM_map, List.forM_map]
  rfl

namespace InMemoryGraphStore

theorem keys_write {g : InMemoryGraphStore} {w : Write} (hw : w.hashable) :
    (handler w.call g).2.nodes.keys =
      g.nodes.keys ++ Entries.newKeys g.nodes.keys w.nodeKey?.toList := by
  cases w with
  | node n setProps extraLabels =>
    rw [handler_node_of_hashable g hw]
    change (g.nodes.set n.id _).keys = g.nodes.keys ++ Entries.newKeys g.nodes.keys [n.id]
    rw [Dict.keys_set, Entries.newKeys, Entries.newKeys, Entries.newKeys]
    split <;> simp
  | link l prov =>
    rw [nodes_link]
    exact (List.append_nil _).symm

/-- A sequence of writes is carried out when each of them is admitted. -/
theorem run_writes {ws : List Write} {g : InMemoryGraphStore} :
    (∃ g', (ws.forM Write.program).run handler g = (.ok (), g')) ↔
      writes.Admits Write.Admitted ws g.contents := by
  induction ws generalizing g with
  | nil => exact ⟨fun _ => trivial, fun _ => ⟨g, rfl⟩⟩
  | cons w ws ih =>
    have hadmitted : w.Admitted (g.contents (writes.loc w)) ↔ _ := g.admitted_iff w
    change (∃ g', (w.program >>= fun _ => ws.forM Write.program).run handler g = _) ↔ _
    rw [Located.Admits, hadmitted]
    rcases hw : handler w.call g with ⟨e | r, g₁⟩
    · rw [Program.run_bind, Write.run_program, hw]
      simp [Except.map]
    · have hrun : w.program.run handler g = (.ok (), g₁) := by
        rw [Write.run_program, hw]
        rfl
      have hcontents : g₁.contents = writes.act w g.contents := by
        rw [← g.contents_write (hadmitted.mpr ⟨r, by rw [hw]⟩).1, hw]
      simp only [Program.run_bind_ok hrun, Except.ok.injEq, exists_eq', true_and, ih, hcontents]

/-- The graph after a sequence of writes. -/
theorem run_writes_ok {ws : List Write} {g g' : InMemoryGraphStore}
    (h : (ws.forM Write.program).run handler g = (.ok (), g')) :
    g'.contents = writeAll writes.act ws g.contents ∧
      g'.nodes.keys = g.nodes.keys ++
        Entries.newKeys g.nodes.keys (ws.filterMap Write.nodeKey?) := by
  induction ws generalizing g with
  | nil =>
    cases h
    exact ⟨rfl, (List.append_nil _).symm⟩
  | cons w ws ih =>
    have hadmits := run_writes.mp ⟨g', h⟩
    have hw : w.hashable := hadmits.1.1
    obtain ⟨r, hr⟩ := (g.admitted_iff w).mp hadmits.1
    have hrun : w.program.run handler g = (.ok (), (handler w.call g).2) := by
      rw [Write.run_program, hr]
      rfl
    change (w.program >>= fun _ => ws.forM Write.program).run handler g = _ at h
    rw [Program.run_bind_ok hrun] at h
    obtain ⟨hcontents, hkeys⟩ := ih h
    rw [g.contents_write hw] at hcontents
    refine ⟨hcontents, ?_⟩
    have hsplit : (w :: ws).filterMap Write.nodeKey? =
        w.nodeKey?.toList ++ ws.filterMap Write.nodeKey? := by
      rcases hk : w.nodeKey? with _ | k
      · exact List.filterMap_cons_none hk
      · exact List.filterMap_cons_some hk
    rw [hkeys, keys_write hw, hsplit, Entries.newKeys_append, List.append_assoc]

end InMemoryGraphStore

/-! ## The metrics that a pack brings -/

/-- The keys that a metric definition stores: its own, and an attribute of that name. -/
def MetricDef.keys (m : MetricDef) : List Value :=
  .str m.metricKey :: ((clean m.attrs).get? "metric_key").toList

/-- An alias of the metric folds to the name. -/
def MetricDef.Claims [Python] (m : MetricDef) (name : String) : Prop :=
  ∃ aliases, aliasesOf m.attrs = .ok aliases ∧ name ∈ aliases.map fun a => casefold a.pyStr

/-- A metric of the pack that is new to the graph has an alias that folds to the name. -/
def Pack.Claims [Python] (pack : Pack) (g : InMemoryGraphStore) (name : String) : Prop :=
  ∃ m ∈ pack.metrics, g.nodes.get? (NodeRef.metric (.str m.metricKey)).id = none ∧ m.Claims name

/-- The packs define no metric key and no benchmark key in common. -/
structure Pack.Separate (p q : Pack) : Prop where
  metrics : ∀ m ∈ p.metrics, ∀ m' ∈ q.metrics, ∀ k ∈ m.keys, k ∉ m'.keys
  benchmarks : ∀ b ∈ p.benchmarks, ∀ b' ∈ q.benchmarks, b.benchmarkKey ≠ b'.benchmarkKey

theorem Pack.mem_catalog {pack : Pack} {w : Write} : w ∈ pack.catalog ↔
    (∃ m ∈ pack.metrics, m.write = w) ∨ ∃ b ∈ pack.benchmarks, b.write = w := by
  rw [catalog, List.mem_append, List.mem_map, List.mem_map]

theorem Pack.Separate.place_ne {p q : Pack} (h : p.Separate q) (hv : v ∈ p.catalog)
    (hw : w ∈ q.catalog) : v.place ≠ w.place := by
  intro hplace
  rcases Pack.mem_catalog.mp hv with ⟨m, hm, rfl⟩ | ⟨b, hb, rfl⟩ <;>
    rcases Pack.mem_catalog.mp hw with ⟨m', hm', rfl⟩ | ⟨b', hb', rfl⟩
  · have hkey : NodeRef.metric (.str m.metricKey) = .metric (.str m'.metricKey) :=
      NodeRef.id_injective (Sum.inl.inj hplace)
    refine h.metrics m hm m' hm' _ List.mem_cons_self ?_
    rw [NodeRef.metric.inj hkey]
    exact List.mem_cons_self
  · cases NodeRef.id_injective (Sum.inl.inj hplace)
  · cases NodeRef.id_injective (Sum.inl.inj hplace)
  · have hkey : NodeRef.benchmark b.benchmarkKey = .benchmark b'.benchmarkKey :=
      NodeRef.id_injective (Sum.inl.inj hplace)
    exact h.benchmarks b hb b' hb' (NodeRef.benchmark.inj hkey)

theorem Pack.Separate.keys_disjoint {p q : Pack} (h : p.Separate q) :
    (p.catalog.filterMap Write.nodeKey?).Disjoint (q.catalog.filterMap Write.nodeKey?) := by
  intro k hk hk'
  obtain ⟨v, hv, hvk⟩ := List.mem_filterMap.mp hk
  obtain ⟨w, hw, hwk⟩ := List.mem_filterMap.mp hk'
  exact h.place_ne hv hw ((Write.place_eq_inl hvk).trans (Write.place_eq_inl hwk).symm)

/-- The packs leave the same contents in either order. -/
theorem Pack.Separate.contents_comm {p q : Pack} (h : p.Separate q) (A : Place → Stored) :
    writeAll writes.act (p.catalog ++ q.catalog) A =
      writeAll writes.act (q.catalog ++ p.catalog) A := by
  funext ℓ
  apply writes.writeAll_append_comm
  by_cases hp : ∃ v ∈ p.catalog, v.place = ℓ
  · obtain ⟨v, hv, rfl⟩ := hp
    exact .inr fun w hw hplace => h.place_ne hv hw hplace.symm
  · exact .inl fun v hv hplace => hp ⟨v, hv, hplace⟩

/-- Where a property comes from that is found at a place after a sequence of writes: from a write
to the place, from the new node or edge, or from what was there. -/
theorem writeAll_get {ws : List Write} {A : Place → Stored} {p : Place} {f : String}
    (hf : f ≠ "_labels") (h : writeAll writes.act ws A p = some φ) (hv : φ f = some v) :
    (∃ w ∈ ws, w.place = p ∧ (w.setProps.get? f = some v ∨ w.old none f = some v)) ∨
      ∃ ψ, A p = some ψ ∧ ψ f = some v := by
  induction ws generalizing A with
  | nil => exact .inr ⟨φ, h, hv⟩
  | cons w ws ih =>
    rcases ih h with ⟨w', hw', hplace⟩ | ⟨ψ, hψ, hv⟩
    · exact .inl ⟨w', List.mem_cons_of_mem _ hw', hplace⟩
    by_cases hp : p = w.place
    · subst hp
      have hact : some ψ = w.update (A w.place) := hψ.symm.trans (writes.act_self w A)
      cases hact
      have hfinish (x : Option Value) : w.finish f x = x := by
        cases w with
        | node => exact if_neg hf
        | link => rfl
      have hv : (w.setProps.get? f).or (w.old (A w.place) f) = some v := (hfinish _).symm.trans hv
      rcases hset : w.setProps.get? f with _ | v'
      · rw [hset, Option.none_or] at hv
        rcases hA : A w.place with _ | ψ
        · rw [hA] at hv
          exact .inl ⟨w, List.mem_cons_self, rfl, .inr hv⟩
        · rw [hA] at hv
          exact .inr ⟨ψ, rfl, hv⟩
      · rw [hset, Option.some_or] at hv
        exact .inl ⟨w, List.mem_cons_self, rfl, .inl (hset.trans hv)⟩
    · exact .inr ⟨ψ, (writes.act_of_ne A hp).symm.trans hψ, hv⟩

/-- The stored metric with the given identity. -/
def InMemoryGraphStore.metricAt (g : InMemoryGraphStore) (k : NodeKey) : Option Props :=
  if k.label = CoreLabel.metric.value then g.nodes.get? k else none

theorem InMemoryGraphStore.metricAt_eq_some {g : InMemoryGraphStore} :
    g.metricAt k = some x ↔ k.label = CoreLabel.metric.value ∧ g.nodes.get? k = some x :=
  Option.ite_none_right_eq_some

/-- The metrics come in the order of their keys. -/
theorem InMemoryGraphStore.metrics_eq (g : InMemoryGraphStore) :
    g.metrics = g.nodes.keys.filterMap g.metricAt := by
  rw [Dict.keys, List.filterMap_map]
  change (g.nodes.items.filter _).map Prod.snd = _
  rw [← List.filterMap_eq_map, List.filterMap_filter]
  refine List.filterMap_congr fun item hitem => ?_
  have hget : g.nodes.get? item.1 = some item.2 := Dict.get?_of_mem hitem
  simp [metricAt, hget]

/-- Two graphs with the same contents have the same metric at an identity. -/
theorem InMemoryGraphStore.filterMap_metricAt {g g' : InMemoryGraphStore}
    (h : g.contents = g'.contents) (ks : List NodeKey) :
    List.Forall₂ SameProps (ks.filterMap g.metricAt) (ks.filterMap g'.metricAt) := by
  refine List.rel_filterMap (R := Eq) (fun {k k'} hk => ?_) (List.forall₂_refl ks)
  subst hk
  have hk : (g.nodes.get? k).map Dict.get? = (g'.nodes.get? k).map Dict.get? :=
    congrFun h (.inl k)
  rw [metricAt, metricAt]
  split
  · generalize g.nodes.get? k = x, g'.nodes.get? k = y at hk
    cases x <;> cases y <;> first | exact .none | exact .some (Option.some.inj hk) | cases hk
  · exact .none

/-- Where a property of a metric comes from that is new to the graph, and that only the pack
wrote. -/
theorem Pack.origin {pack : Pack} {g g' : InMemoryGraphStore} {ws : List Write}
    (hcontents : g'.contents = writeAll writes.act ws g.contents) (hnew : g.nodes.get? k = none)
    (honly : ∀ w ∈ ws, w.place = .inl k → w ∈ pack.catalog) (hx : g'.metricAt k = some x)
    {f : String} (hf : f ≠ "_labels") (hv : x.get? f = some v) :
    ∃ m ∈ pack.metrics, (NodeRef.metric (.str m.metricKey)).id = k ∧
      (m.write.setProps.get? f = some v ∨ m.write.old none f = some v) := by
  obtain ⟨hlabel, hx⟩ := metricAt_eq_some.mp hx
  have hafter : writeAll writes.act ws g.contents (.inl k) = some x.get? := by
    rw [← hcontents]
    exact congrArg (Option.map Dict.get?) hx
  rcases writeAll_get hf hafter hv with ⟨w, hw, hplace, hget⟩ | ⟨ψ, hψ, -⟩
  · rcases Pack.mem_catalog.mp (honly w hw hplace) with ⟨m, hm, rfl⟩ | ⟨b, hb, rfl⟩
    · exact ⟨m, hm, Sum.inl.inj hplace, hget⟩
    · cases Sum.inl.inj hplace
      cases NodeRef.label_of_id hlabel
  · have hbefore : g.contents (.inl k) = none := congrArg (Option.map Dict.get?) hnew
    cases hbefore.symm.trans hψ

section brings
variable [Python]

/-- What a metric that the pack brought into the graph says is said in the pack. -/
structure Pack.Brings (pack : Pack) (g : InMemoryGraphStore) (x : Props) : Prop where
  claims : ∀ name, answer name x ≠ none → pack.Claims g name
  key : ∀ v, x.get? "metric_key" = some v → ∃ m ∈ pack.metrics, v ∈ m.keys

/-- A metric that is new to the graph, and that only the pack wrote. -/
theorem Pack.brings_of_new {pack : Pack} {g g' : InMemoryGraphStore} {ws : List Write}
    (hcontents : g'.contents = writeAll writes.act ws g.contents) (hnew : g.nodes.get? k = none)
    (honly : ∀ w ∈ ws, w.place = .inl k → w ∈ pack.catalog) (hx : g'.metricAt k = some x) :
    pack.Brings g x := by
  constructor
  · intro name hname
    rw [answer] at hname
    rcases haliases : aliasesOf x with e | aliases <;> rw [haliases] at hname
    · exact (hname rfl).elim
    dsimp only at hname
    split at hname
    case isFalse => exact (hname rfl).elim
    rename_i hmem
    rcases hv : x.get? "aliases" with _ | v
    · rw [aliasesOf, hv] at haliases
      cases haliases
      cases hmem
    obtain ⟨m, hm, rfl, hget⟩ := Pack.origin hcontents hnew honly hx (by decide) hv
    refine ⟨m, hm, hnew, aliases, ?_, hmem⟩
    rcases hget with hget | hget
    · have hattrs : (clean m.attrs).get? "aliases" = some v :=
        (get?_metricProps (by decide) ..).symm.trans hget
      rw [get?_clean, Option.filter_eq_some_iff] at hattrs
      rw [← haliases, aliasesOf, aliasesOf, hattrs.1, hv]
    · cases hget
  · intro v hv
    obtain ⟨m, hm, -, hget⟩ := Pack.origin hcontents hnew honly hx (by decide) hv
    refine ⟨m, hm, ?_⟩
    rcases hget with hget | hget
    · have hattrs : (clean m.attrs).get? "metric_key" = some v :=
        (get?_metricProps (by decide) ..).symm.trans hget
      rw [MetricDef.keys, hattrs]
      exact List.mem_cons_of_mem _ List.mem_cons_self
    · have hkey : some (Value.str m.metricKey) = some v := hget
      cases hkey
      exact List.mem_cons_self

/-- The metrics after loading two packs in either order: those of the graph, and those that each
of the packs brought. -/
theorem metrics_comm {p q : Pack} {g g₁ g₂ : InMemoryGraphStore} (hsep : p.Separate q)
    (h₁ : ((p.catalog ++ q.catalog).forM Write.program).run handler g = (.ok (), g₁))
    (h₂ : ((q.catalog ++ p.catalog).forM Write.program).run handler g = (.ok (), g₂)) :
    ∃ old a b old' a' b', g₁.metrics = old ++ a ++ b ∧ g₂.metrics = old' ++ b' ++ a' ∧
      List.Forall₂ SameProps old old' ∧ List.Forall₂ SameProps a a' ∧
      List.Forall₂ SameProps b b' ∧ (∀ x ∈ a, p.Brings g x) ∧ ∀ x ∈ b, q.Brings g x := by
  obtain ⟨hcontents₁, hkeys₁⟩ := run_writes_ok h₁
  obtain ⟨hcontents₂, hkeys₂⟩ := run_writes_ok h₂
  have hsame := filterMap_metricAt
    (hcontents₁.trans ((hsep.contents_comm g.contents).trans hcontents₂.symm))
  rw [List.filterMap_append, Entries.newKeys_append_of_disjoint hsep.keys_disjoint,
    ← List.append_assoc] at hkeys₁
  rw [List.filterMap_append, Entries.newKeys_append_of_disjoint hsep.keys_disjoint.symm,
    ← List.append_assoc] at hkeys₂
  have hbrings {r : Pack} (hr : ∀ w ∈ p.catalog ++ q.catalog, ∀ v ∈ r.catalog,
        w.place = v.place → w ∈ r.catalog) : ∀ x ∈ (Entries.newKeys g.nodes.keys
      (r.catalog.filterMap Write.nodeKey?)).filterMap g₁.metricAt, r.Brings g x := by
    intro x hx
    obtain ⟨k, hk, hxk⟩ := List.mem_filterMap.mp hx
    obtain ⟨hk, hnew⟩ := Entries.mem_newKeys.mp hk
    obtain ⟨v, hv, hvk⟩ := List.mem_filterMap.mp hk
    refine Pack.brings_of_new hcontents₁ (Dict.get?_eq_none.mpr hnew) (fun w hw hplace => ?_) hxk
    exact hr w hw v hv (hplace.trans (Write.place_eq_inl hvk).symm)
  refine ⟨_, _, _, _, _, _, ?_, ?_, hsame g.nodes.keys, hsame (Entries.newKeys g.nodes.keys
    (p.catalog.filterMap Write.nodeKey?)), hsame (Entries.newKeys g.nodes.keys
    (q.catalog.filterMap Write.nodeKey?)), hbrings fun w hw v hv hplace => ?_,
    hbrings fun w hw v hv hplace => ?_⟩
  · rw [metrics_eq, hkeys₁, List.filterMap_append, List.filterMap_append]
  · rw [metrics_eq, hkeys₂, List.filterMap_append, List.filterMap_append]
  · exact (List.mem_append.mp hw).resolve_right fun hw => hsep.place_ne hv hw hplace.symm
  · exact (List.mem_append.mp hw).resolve_left fun hw => hsep.place_ne hw hv hplace

end brings

/-! ## Either order -/

section either
variable [Python]

/-- Load one pack, then another. -/
def loadPacks (c : GraphClient) (p q : Pack) : StoreProgram Unit := do
  (loadPack c p).2
  (loadPack (loadPack c p).1 q).2

/-- A pack that is accepted is valid, and its writes are admitted. -/
theorem loadPack_ok {c : GraphClient} {p : Pack}
    (h : (loadPack c p).2.run handler g = (.ok (), g')) :
    p.validate = .ok () ∧ writes.Admits Write.Admitted p.catalog g.contents := by
  rw [loadPack] at h
  rcases hv : p.validate with e | _ <;> rw [hv] at h
  · cases h
  · dsimp only at h
    rw [p.loadCatalog_eq] at h
    exact ⟨rfl, run_writes.mp ⟨g', h⟩⟩

theorem loadPacks_eq {c : GraphClient} {p q : Pack} (hp : p.validate = .ok ())
    (hq : q.validate = .ok ()) :
    loadPacks c p q = (p.catalog ++ q.catalog).forM Write.program := by
  simp only [loadPacks, loadPack, hp, hq]
  rw [p.loadCatalog_eq, q.loadCatalog_eq, List.forM_eq_forM, List.forM_append]

omit [Python] in
/-- Writes that are admitted by the same contents are admitted one after the other. -/
theorem admits_append {ws ws' : List Write} {A : Place → Stored}
    (h : writes.Admits Write.Admitted ws A) (h' : writes.Admits Write.Admitted ws' A) :
    writes.Admits Write.Admitted (ws ++ ws') A := by
  rw [admits_writes_iff] at h h' ⊢
  refine ⟨fun w hw => (List.mem_append.mp hw).elim (h.1 w) (h'.1 w), fun p w hw => ?_⟩
  rw [List.find?_append, Option.or_eq_some_iff] at hw
  rcases hw with hw | ⟨-, hw⟩
  · exact h.2 p w hw
  · exact h'.2 p w hw

/-- **Packs compose in either order**: two packs that define no metric key and no benchmark key in
common, and that are each accepted, are accepted in either order, and a column is resolved alike
afterwards, unless new metrics of both packs claim its name. -/
theorem resolve_loadPacks_comm [Similarity] {c : GraphClient} {p q : Pack}
    {g gp gq : InMemoryGraphStore} (hsep : p.Separate q)
    (hp : (loadPack c p).2.run handler g = (.ok (), gp))
    (hq : (loadPack c q).2.run handler g = (.ok (), gq)) :
    ∃ g₁ g₂, (loadPacks c p q).run handler g = (.ok (), g₁) ∧
      (loadPacks c q p).run handler g = (.ok (), g₂) ∧
      ∀ (threshold : ℚ) (topK queue : Nat) (queues : List (List Resolution))
        (column : ObservedColumn),
        ¬ (p.Claims g (casefold column.name) ∧ q.Claims g (casefold column.name)) →
        let r : Resolver := ⟨stringSimilaritySuggester, threshold, topK, queue⟩
        ((r.resolve column).run (ResolverState.handler handler) ⟨g₁, queues⟩).1.toOption =
          ((r.resolve column).run (ResolverState.handler handler) ⟨g₂, queues⟩).1.toOption := by
  obtain ⟨hvp, hap⟩ := loadPack_ok hp
  obtain ⟨hvq, haq⟩ := loadPack_ok hq
  obtain ⟨g₁, h₁⟩ := run_writes.mpr (admits_append hap haq)
  obtain ⟨g₂, h₂⟩ := run_writes.mpr (admits_append haq hap)
  refine ⟨g₁, g₂, by rw [loadPacks_eq hvp hvq, h₁], by rw [loadPacks_eq hvq hvp, h₂], ?_⟩
  intro threshold topK queue queues column hname r
  obtain ⟨old, a, b, old', a', b', hms₁, hms₂, hold, ha, hb, hpa, hqb⟩ := metrics_comm hsep h₁ h₂
  have hsame : List.Forall₂ SameProps (old ++ b ++ a) (old' ++ b' ++ a') :=
    List.rel_append (List.rel_append hold hb) ha
  apply resolve_congr (r := r) fun column {_ _} hperm => suggest_perm hperm column
  · rw [hms₁, hms₂, ← indexable_congr hsame]
    simp only [List.forall_mem_append]
    tauto
  · rw [hms₁, hms₂, ← lookup_congr hsame]
    simp only [lookup_append]
    by_cases hclaims : p.Claims g (casefold column.name)
    · have hnone : lookup (casefold column.name) b = none := lookup_eq_none.mpr fun m hm =>
        by_contra fun h => hname ⟨hclaims, (hqb m hm).claims _ h⟩
      rw [hnone, Option.none_or, Option.none_or]
    · have hnone : lookup (casefold column.name) a = none := lookup_eq_none.mpr fun m hm =>
        by_contra fun h => hclaims ((hpa m hm).claims _ h)
      rw [hnone, Option.none_or, Option.none_or]
  · have hterms : termIndex (old' ++ b' ++ a') = termIndex (old ++ b ++ a) := by
      rw [termIndex_eq, termIndex_eq, mapM_termsOf_congr hsame]
    rw [hms₁, hms₂, hterms]
    refine termIndex_comm fun x hx y hy v hxv hyv => ?_
    obtain ⟨m, hm, hv⟩ := (hpa x hx).key v hxv
    obtain ⟨m', hm', hv'⟩ := (hqb y hy).key v hyv
    exact hsep.metrics m hm m' hm' v hv hv'

end either

/-- Two packs in either order, and a column with an alias of the first one. -/
theorem resolve_loadPacks_comm_widgets :
    let _ : Similarity := ⟨fun a b => if a = b then 1 else 0, id⟩
    let p : Pack := {
      name := "widgets"
      metrics := [{ metricKey := "widgets.weight", aliases := ["wgt"] }] }
    let q : Pack := {
      name := "gadgets"
      metrics := [{ metricKey := "gadgets.size", aliases := ["sz"] }] }
    let r : Resolver := ⟨stringSimilaritySuggester, 6 / 10, 3, 0⟩
    let column : ObservedColumn := { system := "erp", table := "t", name := "WGT" }
    ∃ g₁ g₂, (loadPacks ∅ p q).run handler ∅ = (.ok (), g₁) ∧
      (loadPacks ∅ q p).run handler ∅ = (.ok (), g₂) ∧
      ((r.resolve column).run (ResolverState.handler handler) ⟨g₁, [[]]⟩).1.toOption =
        ((r.resolve column).run (ResolverState.handler handler) ⟨g₂, [[]]⟩).1.toOption := by
  intro _ p q r column
  have hsep : p.Separate q := ⟨by decide, nofun⟩
  obtain ⟨g₁, g₂, h₁, h₂, hresolve⟩ := resolve_loadPacks_comm (c := ∅) (g := ∅) hsep rfl rfl
  refine ⟨g₁, g₂, h₁, h₂, hresolve _ _ _ _ _ fun ⟨_, hq⟩ => ?_⟩
  obtain ⟨m, hm, -, aliases, haliases, hname⟩ := hq
  cases List.mem_singleton.mp hm
  cases haliases
  exact absurd hname (by decide)

/-- The pack that is loaded last gets an alias that both packs claim. -/
theorem alias_last_wins :
    let _ : Similarity := ⟨fun a b => if a = b then 1 else 0, id⟩
    let p : Pack := {
      name := "widgets"
      metrics := [{ metricKey := "widgets.weight", aliases := ["wgt"] }] }
    let q : Pack := {
      name := "gadgets"
      metrics := [{ metricKey := "gadgets.weight", aliases := ["WGT"] }] }
    let r : Resolver := ⟨stringSimilaritySuggester, 6 / 10, 3, 0⟩
    let column : ObservedColumn := { system := "erp", table := "t", name := "wgt" }
    p.Separate q ∧ ∃ g₁ g₂, (loadPacks ∅ p q).run handler ∅ = (.ok (), g₁) ∧
      (loadPacks ∅ q p).run handler ∅ = (.ok (), g₂) ∧
      ((r.resolve column).run (ResolverState.handler handler) ⟨g₁, [[]]⟩).1 = .ok {
        column, tier := .autoLinked, metricKey := some (.str "gadgets.weight"), score := 1 } ∧
      ((r.resolve column).run (ResolverState.handler handler) ⟨g₂, [[]]⟩).1 = .ok {
        column, tier := .autoLinked, metricKey := some (.str "widgets.weight"), score := 1 } := by
  intro _ p q r column
  exact ⟨⟨by decide, nofun⟩, _, _, rfl, rfl, by decide +kernel, by decide +kernel⟩

end MarginKG
