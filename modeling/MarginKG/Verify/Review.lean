import MarginKG.Verify.Confirmation
import MarginKG.Verify.Verdict
import MarginKG.Verify.WriteBack

/-! The review loop comes to rest. A name that auto-links goes on to do so, and so does a name once
it has been confirmed, whatever metric it then links to, as long as nobody takes an alias off a
metric. Once this holds of every name that a source has without a dictionary, an ingestion suggests
nothing, escalates nothing and leaves the queues alone (`review_comes_to_rest`).

The invariant is about the aliases that the metrics have, one by one; that the index has a name
follows from it (`Offered.hit`). -/

namespace MarginKG

open InMemoryGraphStore

/-! ## What the metrics offer -/

namespace InMemoryGraphStore

/-- The node at `k` has the alias. -/
def OffersAt (g : InMemoryGraphStore) (k : NodeKey) (a : Value) : Prop :=
  ∃ x v aliases, g.nodes.get? k = some x ∧ x.get? "aliases" = some v ∧ v.iter = some aliases ∧
    a ∈ aliases

/-- The graph `g` has every alias of `g₀`, and its metrics can be indexed. -/
structure Extends (g₀ g : InMemoryGraphStore) : Prop where
  offers : ∀ k a, k.label = CoreLabel.metric.value → g₀.OffersAt k a → g.OffersAt k a
  indexable : ∀ m ∈ g.metrics, Indexable m
  keyed : g.Keyed

theorem Extends.refl {g : InMemoryGraphStore} (hindexable : ∀ m ∈ g.metrics, Indexable m)
    (hkeyed : g.Keyed) : g.Extends g := ⟨fun _ _ _ => id, hindexable, hkeyed⟩

theorem Extends.trans {g₀ g₁ g₂ : InMemoryGraphStore} (h : g₀.Extends g₁) (h' : g₁.Extends g₂) :
    g₀.Extends g₂ :=
  ⟨fun k a hk ha => h'.offers k a hk (h.offers k a hk ha), h'.indexable, h'.keyed⟩

end InMemoryGraphStore

/-- The aliases that the value lists, if it is one, include those of the metric. -/
def Includes (g : InMemoryGraphStore) (metricKey : String) (aliases : Option Value) : Prop :=
  ∀ v, aliases = some v → ∃ l, v.iter = some l ∧ ∀ a, g.HasAlias metricKey a → a ∈ l

/-- The write takes no alias of `g₀` off a metric. -/
def Write.Spares (g₀ : InMemoryGraphStore) : Write → Prop
  | .node (.metric (.str k)) setProps _ => Includes g₀ k (setProps.get? "aliases")
  | .node n _ _ => n.label ≠ .metric
  | .link .. => True

/-- What a metric lists after a write: what the write sets, or what it listed. -/
theorem aliases_write (g : InMemoryGraphStore) (k : String) (setProps : Props)
    (extraLabels : List String) :
    (updateNode (g.node (.metric (.str k))) setProps extraLabels).2.get? "aliases" =
      (setProps.get? "aliases").or
        ((g.nodes.get? (NodeRef.metric (.str k)).id).bind (·.get? "aliases")) := by
  rw [updateNode_get? (by decide), node]
  rcases g.nodes.get? (NodeRef.metric (.str k)).id with _ | x <;> rfl

/-- A write that spares the aliases leaves them, and the metrics as they can be indexed. -/
theorem InMemoryGraphStore.Extends.write {g₀ g : InMemoryGraphStore} {w : Write}
    (h : g₀.Extends g) (hw : w.Spares g₀) (hkeyed : w.KeepsKeyed) :
    g₀.Extends (handler w.call g).2 := by
  have hkeyed := h.keyed.write hkeyed
  cases w with
  | link l prov =>
    have hnodes := nodes_link g l prov
    refine ⟨fun k a hlabel ha => ?_, ?_, hkeyed⟩
    · rw [OffersAt, hnodes]
      exact h.offers k a hlabel ha
    · rw [metrics_link]
      exact h.indexable
  | node n setProps extraLabels =>
    by_cases hn : n.label ≠ .metric
    · refine ⟨fun k a hlabel ha => ?_, ?_, hkeyed⟩
      · obtain ⟨x, v, aliases, hx, halias⟩ := h.offers k a hlabel ha
        refine ⟨x, v, aliases, ?_, halias⟩
        rw [get?_nodes_node, if_neg]
        · exact hx
        · rintro ⟨-, rfl⟩
          exact hn (NodeRef.label_of_id hlabel)
      · rw [metrics_node_of_ne g hn]
        exact h.indexable
    obtain ⟨k, rfl⟩ : ∃ k, n = .metric (.str k) := by
      cases n with
      | metric v =>
        cases v with
        | str k => exact ⟨k, rfl⟩
        | _ => exact (hw rfl).elim
      | _ => exact (hn fun h => by cases h).elim
    have hnew := aliases_write g k setProps extraLabels
    refine ⟨fun k' a hlabel ha => ?_, fun m hm => ?_, hkeyed⟩
    · obtain ⟨x, v, aliases, hx, hv, hiter, hmem⟩ := h.offers k' a hlabel ha
      by_cases hk : (NodeRef.metric (.str k)).id = k'
      · subst hk
        rw [hx, Option.bind_some, hv] at hnew
        have hget := (get?_nodes_node g (.metric (.str k)) setProps extraLabels _).trans
          (if_pos ⟨rfl, rfl⟩)
        rcases hset : setProps.get? "aliases" with _ | v' <;> rw [hset] at hnew
        · exact ⟨_, v, aliases, hget, hnew, hiter, hmem⟩
        · obtain ⟨l, hl, hall⟩ := hw v' hset
          exact ⟨_, v', l, hget, hnew, hl, hall a ha⟩
      · refine ⟨x, v, aliases, ?_, hv, hiter, hmem⟩
        rw [get?_nodes_node, if_neg fun hid => hk hid.2]
        exact hx
    · obtain ⟨k', hlabel, hk'⟩ := mem_metrics.mp hm
      obtain ⟨key, hkey, -⟩ := hkeyed k' m hk' hlabel
      suffices ∃ l, aliasesOf m = .ok l by
        obtain ⟨l, hl⟩ := this
        exact ⟨l, hl, fun _ => hkey ▸ rfl⟩
      rw [get?_nodes_node] at hk'
      split at hk'
      · cases hk'
        rcases hset : setProps.get? "aliases" with _ | v <;> rw [hset] at hnew
        · rcases hx : g.nodes.get? (NodeRef.metric (.str k)).id with _ | x
          · rw [hx] at hnew
            exact ⟨[], by rw [aliasesOf, hnew]; rfl⟩
          · rw [hx] at hnew
            obtain ⟨l, hl, -⟩ := h.indexable x (mem_metrics.mpr ⟨_, rfl, hx⟩)
            refine ⟨l, ?_⟩
            rw [← hl, aliasesOf, aliasesOf, hnew]
            rfl
        · obtain ⟨l, hl, -⟩ := hw v hset
          exact ⟨l, aliasesOf_of_iter hnew hl⟩
      · obtain ⟨l, hl, -⟩ := h.indexable m (mem_metrics.mpr ⟨k', hlabel, hk'⟩)
        exact ⟨l, hl⟩

/-- A new alias goes to those that the metric has. -/
theorem spares_alias {g : InMemoryGraphStore} {aliases : List Value}
    (h : GraphClient.currentAliases (g.nodes.get? (NodeRef.metric (.str k)).id) = .ok aliases)
    (aliasName : String) :
    (aliasWrite k (GraphClient.extendAliases aliases aliasName)).Spares g := by
  intro v hv
  cases hv
  refine ⟨_, rfl, fun a ha => extendAliases_subset _ _ ?_⟩
  obtain ⟨x, v, aliases', hx, hv, hiter, hmem⟩ := ha
  rw [hx, GraphClient.currentAliases, Option.bind_some, hv] at h
  dsimp only at h
  rw [hiter] at h
  cases h
  exact hmem

/-! ## What the operations spare -/

/-- The operation takes no alias off a metric: the entries that set a list of aliases list those
that their metric has. -/
def Op.Spares (s : System) : Op → Prop
  | .client (.upsertMetric metricKey _ _ _ _ _ attributes) =>
    Includes s.graph metricKey ((clean attributes).get? "aliases")
  | .loadPack pack => ∀ m ∈ pack.metrics,
    Includes s.graph m.metricKey ((clean m.attrs).get? "aliases")
  | _ => True

section runs
variable [Python]

theorem Op.Spares.write {s : System} {op : Op} (h : op.Spares s) (hw : op.Writes s w)
    (hconfirm : ∀ col metricKey prov, op ≠ .confirm col metricKey prov)
    (halias : ∀ metricKey aliasName, op ≠ .client (.addMetricAlias metricKey aliasName)) :
    w.Spares s.graph := by
  have hbundle {c : GraphClient} {b : ParsedBundle} (hw : b.Writes c w) : w.Spares s.graph := by
    cases hw <;> first | trivial | exact fun h => by cases h
  cases hw with
  | @client _ call hw =>
    cases hw with
    | newAlias => exact (halias _ _ rfl).elim
    | write hw =>
      cases call with
      | registerAllowlists | addMetricAlias => cases hw
      | upsertEntity | relateEntities =>
        simp only [ClientCall.write, Option.ite_none_right_eq_some, Option.some.injEq] at hw
        obtain ⟨-, rfl⟩ := hw
        first | trivial | exact fun h => by cases h
      | upsertMetric =>
        cases hw
        change Includes _ _ _
        rw [get?_metricProps (by decide)]
        exact h
      | _ => cases hw; first | trivial | exact fun h => by cases h
  | loadPack _ hw =>
    cases hw with
    | metric hm =>
      change Includes _ _ _
      rw [get?_metricProps (by decide)]
      exact h _ hm
    | benchmark => exact fun h => by cases h
  | loadBundle hw => exact hbundle hw
  | link => trivial
  | newAlias => exact (hconfirm _ _ _ rfl).elim
  | runIngest _ hw => exact hbundle hw

/-- An operation that takes no alias off a metric leaves all that the metrics offer. -/
theorem Op.Spares.next {s : System} {op : Op} (h : op.Spares s)
    (hs : s.graph.Extends s.graph) : s.graph.Extends (op.next s).graph := by
  have hnewAlias {g : InMemoryGraphStore} (hg : s.graph.Extends g) {k : String}
      {aliases : List Value} (hcur : GraphClient.currentAliases
        (s.graph.nodes.get? (NodeRef.metric (.str k)).id) = .ok aliases) (aliasName : String) :
      s.graph.Extends
        (handler (aliasWrite k (GraphClient.extendAliases aliases aliasName)).call g).2 :=
    hg.write (spares_alias hcur aliasName) (keepsKeyed_alias ..)
  by_cases hconfirm : ∃ col k prov, op = .confirm col k prov
  · obtain ⟨col, k, prov, rfl⟩ := hconfirm
    have hlink := hs.write (w := .link (.measures col.system col.table col.name (.str k)) prov)
      trivial trivial
    have hrun := confirm_run s.graph col k prov
    change s.graph.Extends ((Resolver.confirm col k prov).run handler s.graph).2
    rw [hrun]
    rcases hcur : GraphClient.currentAliases (s.graph.nodes.get? (NodeRef.metric (.str k)).id)
      with e | aliases
    · exact hlink
    · exact hnewAlias hlink hcur _
  by_cases halias : ∃ k a, op = .client (.addMetricAlias k a)
  · obtain ⟨k, a, rfl⟩ := halias
    change s.graph.Extends ((GraphClient.addMetricAlias k a).run handler s.graph).2
    rw [GraphClient.addMetricAlias_run]
    rcases hcur : GraphClient.currentAliases (s.graph.nodes.get? (NodeRef.metric (.str k)).id)
      with e | aliases
    · exact hs
    · rw [Program.ofExcept_ok, Program.ret_bind, Write.run_program]
      exact hnewAlias hs hcur a
  simp only [not_exists] at hconfirm halias
  exact Op.next_graph (fun w g hw hg => hg.write (h.write hw hconfirm halias) hw.keepsKeyed) hs

/-- Over a whole run the metrics lose nothing that they offer. -/
theorem System.extends_after {s : System} {ops : List Op}
    (hops : s.Meets (fun s op => op.Spares s) ops) (hs : s.graph.Extends s.graph) :
    s.graph.Extends (s.after ops).graph := by
  induction ops generalizing s with
  | nil => exact hs
  | cons op ops ih =>
    have hnext := hops.1.next hs
    exact hnext.trans (ih hops.2 (.refl hnext.indexable hnext.keyed))

/-! ## Names that are settled -/

/-- Some metric has an alias that folds to the name. -/
def InMemoryGraphStore.Offers (g : InMemoryGraphStore) (name : String) : Prop :=
  ∃ k a, k.label = CoreLabel.metric.value ∧ g.OffersAt k a ∧ casefold a.pyStr = name

/-- The index has what some metric offers. -/
theorem InMemoryGraphStore.Extends.hit_isSome {g₀ g : InMemoryGraphStore} (h : g₀.Extends g)
    (name : String) : (g.hit name).isSome ↔ g.Offers (casefold name) := by
  rw [Option.isSome_iff_exists]
  constructor
  · rintro ⟨v, hv⟩
    obtain ⟨m, hm, hans⟩ := lookup_mem (hit_eq_some.mp hv).2.1
    obtain ⟨k, hlabel, hk⟩ := mem_metrics.mp hm
    rw [answer] at hans
    rcases haliases : aliasesOf m with e | aliases <;> rw [haliases] at hans
    · cases hans
    dsimp only at hans
    split at hans
    · rename_i hname
      obtain ⟨a, ha, hfold⟩ := List.mem_map.mp hname
      obtain ⟨v, hv, hiter⟩ := iter_of_aliasesOf haliases ha
      exact ⟨k, a, hlabel, ⟨m, v, aliases, hk, hv, hiter, ha⟩, hfold⟩
    · cases hans
  · rintro ⟨k, a, hlabel, ⟨x, v, aliases, hk, hv, hiter, hmem⟩, hfold⟩
    have hm : x ∈ g.metrics := mem_metrics.mpr ⟨k, hlabel, hk⟩
    obtain ⟨key, hkey, -⟩ := h.keyed k x hk hlabel
    have hans : answer (casefold name) x ≠ none := by
      rw [answer_of_aliases (aliasesOf_of_iter hv hiter),
        if_pos (List.mem_map.mpr ⟨a, hmem, hfold⟩), hkey]
      exact Option.some_ne_none _
    rcases hlookup : lookup (casefold name) g.metrics with _ | found
    · exact (hans (lookup_eq_none.mp hlookup x hm)).elim
    obtain ⟨m, hm, hans⟩ := lookup_mem hlookup
    obtain ⟨k', hlabel', hk'⟩ := mem_metrics.mp hm
    obtain ⟨key', hkey', hnull⟩ := h.keyed k' m hk' hlabel'
    refine ⟨found, hit_eq_some.mpr ⟨h.indexable, hlookup, ?_⟩⟩
    rw [answer_key hans] at hkey'
    exact Option.some.inj hkey' ▸ hnull

theorem InMemoryGraphStore.Extends.offered {g₀ g : InMemoryGraphStore} (h : g₀.Extends g)
    (hname : g₀.Offers name) : g.Offers name := by
  obtain ⟨k, a, hlabel, ha, hfold⟩ := hname
  exact ⟨k, a, hlabel, h.offers k a hlabel ha, hfold⟩

/-- A confirmation that returns makes the metric offer the name. -/
theorem confirm_offers (hfold : ∀ t, casefold (casefold t) = casefold t)
    {g g' : InMemoryGraphStore}
    (hrun : (Resolver.confirm col metricKey prov).run handler g = (.ok (), g')) :
    g'.Offers (casefold col.name) := by
  rcases confirm_spec g col metricKey prov with ⟨-, g₁, new, hrun', hconf⟩ | ⟨-, hraises⟩
  · cases hrun.symm.trans hrun'
    obtain ⟨aliases, haliases, hmem⟩ := hconf.aliases
    obtain ⟨v, hv, hiter⟩ := iter_of_aliasesOf haliases hmem
    refine ⟨(NodeRef.metric (.str metricKey)).id, _, rfl, ⟨new, v, aliases, ?_, hv, hiter, hmem⟩,
      hfold col.name⟩
    rw [hconf.nodes, Dict.get?_set_self]
  · exact (hraises g' hrun).elim

/-- At some point of the run the name auto-linked, or a column of that name was confirmed. -/
def Settled (s : System) (ops : List Op) (name : String) : Prop :=
  ∃ pre post, ops = pre ++ post ∧ (((s.after pre).graph.hit name).isSome ∨
    ∃ col metricKey prov rest, post = .confirm col metricKey prov :: rest ∧
      casefold col.name = casefold name ∧
      ((Op.confirm col metricKey prov).exec (s.after pre)).1 = .ok ())

/-- A name that is settled auto-links at the end of the run. -/
theorem Settled.hit (hfold : ∀ t, casefold (casefold t) = casefold t) {s : System} {ops : List Op}
    (hops : s.Meets (fun s op => op.Spares s) ops) (hs : s.graph.Extends s.graph)
    (h : Settled s ops name) : ((s.after ops).graph.hit name).isSome := by
  obtain ⟨pre, post, rfl, h⟩ := h
  obtain ⟨hpre, hpost⟩ := System.meets_append.mp hops
  have hmid := System.extends_after hpre hs
  have hmid : (s.after pre).graph.Extends (s.after pre).graph := .refl hmid.indexable hmid.keyed
  have hend := System.extends_after hpost hmid
  rw [System.after_append, hend.hit_isSome]
  rcases h with hhit | ⟨col, metricKey, prov, rest, rfl, hname, hok⟩
  · exact hend.offered ((hmid.hit_isSome name).mp hhit)
  · have hnext := hpost.1.next hmid
    have hnext := System.extends_after hpost.2 (.refl hnext.indexable hnext.keyed)
    rw [← hname]
    exact hnext.offered (confirm_offers hfold (Prod.ext hok rfl))

/-! ## What lasts through an ingestion -/

section upholds
variable {I : ResolverState InMemoryGraphStore → Prop} {P : Resolution → Prop}
  (hI : ∀ w (g : InMemoryGraphStore), g.metrics = w.store.metrics → I w → I { w with store := g })

include hI

omit [Python] in
/-- A condition that asks only for the metrics of the store outlives the writes of a load. -/
theorem store_upholds {c : GraphClient} {b : ParsedBundle} {p : StoreProgram α}
    (hp : p.Uses (Makes (b.Writes c))) :
    (liftStore p).Upholds (ResolverState.handler handler) I fun _ => True := by
  intro w hw
  rw [ResolverState.run_liftStore]
  refine ⟨hI w _ ?_ hw, fun _ _ => trivial⟩
  refine hp.run (I := fun g : InMemoryGraphStore => g.metrics = w.store.metrics)
    (fun x g hx hg => ?_) rfl
  cases hx with
  | write hw => exact (hw.metrics_eq g).trans hg
  | metrics | metric => exact hg

theorem loadBundle_upholds (c : GraphClient) (r : Resolver) {b : ParsedBundle}
    (hb : ∀ col ∈ b.iterColumns, (r.resolve col).Upholds (ResolverState.handler handler) I P) :
    (loadBundle c r b).Upholds (ResolverState.handler handler) I
      fun outcomes => ∀ outcome ∈ outcomes, P outcome := by
  refine (store_upholds hI (loadRecords_uses c b)).bind fun _ _ => .mapM fun col hcol => ?_
  refine (hb col hcol).bind fun outcome houtcome => ?_
  exact (store_upholds hI (c := c) (linkOutcome_uses hcol outcome)).bind fun _ _ => .ret houtcome

/-- What every resolution of an ingestion keeps, the ingestion keeps, also when it raises. -/
theorem runIngest_upholds (source : Source) (c : GraphClient) (r : Resolver)
    (hsource : ∀ item ∈ source.discover, ∀ artifact, source.fetch item = .ok artifact →
      ∀ b, source.parse artifact = .ok b → ∀ col ∈ b.iterColumns,
        (r.resolve col).Upholds (ResolverState.handler handler) I P) :
    (runIngest source c r).Upholds (IngestState.handler source handler) (fun w => I w.world)
      fun report => ∀ outcome ∈ report.resolutions, P outcome := by
  refine .foldlM (fun item hitem report hreport => ?_) nofun
  refine .call (fun w hw => hw) fun w seen w' _ => ?_
  split
  · exact .ret hreport
  refine .call (fun w hw => hw) fun w artifact w' hfetch => ?_
  have hfetch : source.fetch item = .ok artifact := congrArg Prod.fst hfetch
  refine (Program.Upholds.ofExcept (P := fun b => source.parse artifact = .ok b)
    fun _ h => h).bind fun b hb => ?_
  have hload := loadBundle_upholds hI c r (hsource item hitem artifact hfetch b hb)
  refine (hload.lift (IngestState.lifting source handler) fun _ _ _ => Iff.rfl).bind
    fun outcomes houtcomes => .call (fun w hw => hw) fun _ _ _ _ => .ret fun outcome hmem => ?_
  rcases List.mem_append.mp hmem with hmem | hmem
  · exact hreport outcome hmem
  · exact houtcomes outcome hmem

end upholds

/-! ## Ingestions that ask nobody -/

/-- The column needs no review: its source documents it, or its name auto-links. -/
def InMemoryGraphStore.Knows (g : InMemoryGraphStore) (col : ObservedColumn) : Prop :=
  col.hasDictionary = true ∨ (g.hit col.name).isSome

omit [Python] in
/-- The outcome asks nobody. -/
def Resolution.Quiet (outcome : Resolution) : Prop :=
  outcome.tier = .autoLinked ∨ outcome.tier = .documented

omit [Python] in
/-- The queues and the metrics are those of `w₀`. -/
structure AtRest (w₀ w : ResolverState InMemoryGraphStore) : Prop where
  queues : w.queues = w₀.queues
  metrics : w.store.metrics = w₀.store.metrics

section quiet
variable {w₀ : ResolverState InMemoryGraphStore}

theorem resolve_atRest (r : Resolver) {col : ObservedColumn} (hcol : w₀.store.Knows col) :
    (r.resolve col).Upholds (ResolverState.handler handler) (AtRest w₀) Resolution.Quiet := by
  intro w hw
  rw [r.resolve_run, hw.metrics]
  have hasks {index : Dict String Value} (hindex : aliasIndex w₀.store.metrics = .ok index)
      (hmiss : (index.get? (casefold col.name)).filter (· ≠ .null) = none)
      (hdict : col.hasDictionary = false) : False := by
    rcases hcol with hcol | hcol
    · cases hdict.symm.trans hcol
    · rw [hit_of_index hindex, hmiss] at hcol
      cases hcol
  have hquiet {answer : Except PyErr Resolution} (h : escalations answer.toOption.toList = [])
      (hout : ∀ out, answer = .ok out → out.Quiet) :
      AtRest w₀ (w.receive r.queue answer) ∧ ∀ out, answer = .ok out → out.Quiet :=
    ⟨(ResolverState.receive_of_nil h r.queue).symm ▸ hw, hout⟩
  have hdecides := r.decides_verdict w₀.store.metrics col
  generalize r.verdict w₀.store.metrics col = answer at hdecides ⊢
  cases hdecides with
  | unindexed => exact hquiet rfl nofun
  | autoLinked =>
    refine hquiet rfl fun out hout => ?_
    cases hout
    exact .inl rfl
  | documented =>
    refine hquiet rfl fun out hout => ?_
    cases hout
    exact .inr rfl
  | termless hindex hmiss hdict | unranked hindex hmiss hdict | suggested hindex hmiss hdict
  | escalated hindex hmiss hdict => exact (hasks hindex hmiss hdict).elim

/-- An ingestion of columns that need no review leaves the queues alone, also when it raises. -/
theorem runIngest_atRest (source : Source) (c : GraphClient) (r : Resolver)
    (hsource : ∀ item ∈ source.discover, ∀ artifact, source.fetch item = .ok artifact →
      ∀ b, source.parse artifact = .ok b → ∀ col ∈ b.iterColumns, w₀.store.Knows col) :
    (runIngest source c r).Upholds (IngestState.handler source handler)
      (fun w => AtRest w₀ w.world)
      fun report => ∀ outcome ∈ report.resolutions, outcome.Quiet := by
  refine runIngest_upholds (fun w g hg hw => ⟨hw.queues, hg.trans hw.metrics⟩) source c r ?_
  intro item hitem artifact hfetch b hb col hcol
  exact resolve_atRest r (hsource item hitem artifact hfetch b hb col hcol)

end quiet

/-- What `run_ingest` comes to in the state, over the ledger. -/
def System.ingest (s : System) (source : Source) (r : Resolver)
    (ledger : Finset (String × String)) :
    Except PyErr IngestReport × IngestState InMemoryGraphStore :=
  (runIngest source s.client r).run (IngestState.handler source handler) { s.state with ledger }

/-- **The review loop comes to rest**: in any run in which nobody takes an alias off a metric, once
every name that a source has without a dictionary has auto-linked or been confirmed, an ingestion
of the source by any resolver suggests nothing, escalates nothing and leaves the queues alone, also
when it raises. -/
theorem review_comes_to_rest (hfold : ∀ t, casefold (casefold t) = casefold t) {pre ops : List Op}
    {index : Dict String Value}
    (hindex : aliasIndex (System.initial.after pre).graph.metrics = .ok index)
    (hops : (System.initial.after pre).Meets (fun s op => op.Spares s) ops) {source : Source}
    (hsource : ∀ item ∈ source.discover, ∀ artifact, source.fetch item = .ok artifact →
      ∀ b, source.parse artifact = .ok b → ∀ col ∈ b.iterColumns,
        col.hasDictionary = true ∨ Settled (System.initial.after pre) ops col.name)
    {s : System} (hs : s = (System.initial.after pre).after ops) (r : Resolver)
    (ledger : Finset (String × String)) :
    (s.ingest source r ledger).2.world.queues = s.state.world.queues ∧
      ∀ report, (s.ingest source r ledger).1 = .ok report →
        report.byTier .suggested = [] ∧ report.byTier .escalated = [] := by
  subst hs
  have hs : (System.initial.after pre).graph.Extends (System.initial.after pre).graph :=
    .refl (aliasIndex_ok hindex).1 (System.keyed_after pre)
  have hrest := runIngest_atRest source ((System.initial.after pre).after ops).client r
    (fun item hitem artifact hfetch b hb col hcol =>
      (hsource item hitem artifact hfetch b hb col hcol).imp_right (Settled.hit hfold hops hs))
    { ((System.initial.after pre).after ops).state with ledger } ⟨rfl, rfl⟩
  refine ⟨hrest.1.queues, fun report hreport => ?_⟩
  have hquiet := hrest.2 report hreport
  constructor <;> refine List.filter_eq_nil_iff.mpr fun outcome hmem => ?_ <;>
    rcases hquiet outcome hmem with h | h <;> simp [h]

end runs

/-- A column that nobody knew is confirmed after the first ingestion, and the pack is loaded again
with the new alias in its list; the second ingestion asks nobody. -/
theorem review_comes_to_rest_confirmed :
    let column (name : String) : ObservedColumn := { system := "s", table := "t", name }
    let source : Source := {
      discover := [{ itemId := "1", sourceRef := "src" }]
      fetch := fun item => .ok ⟨item.itemId, "src", "rows", .other (.str "x"), "2026"⟩
      parse := fun _ => .ok {
        provenance := ⟨"src", "2026", "c@1"⟩
        columns := [column "Xyzzy", column "Weight",
          { column "plugh" with hasDictionary := true }] } }
    let r : Resolver := { suggester := fun _ _ => .ok [], queue := 0 }
    let pack (aliases : List String) : Pack :=
      { name := "p", metrics := [{ metricKey := "p.x", aliases }] }
    let pre : List Op := [.loadPack (pack ["weight"])]
    let ops : List Op := [.runIngest source r true,
      .confirm (column "Xyzzy") "p.x" ⟨"src", "2026", "c@1"⟩,
      .loadPack (pack ["mass", "xyzzy", "weight"])]
    ∀ s, s = (System.initial.after pre).after ops →
      (s.ingest source r ∅).2.world.queues = s.state.world.queues ∧
        ∀ report, (s.ingest source r ∅).1 = .ok report →
          report.byTier .suggested = [] ∧ report.byTier .escalated = [] := by
  intro column source r pack pre ops s hs
  have hindex : aliasIndex (System.initial.after pre).graph.metrics =
      .ok (.ofList [("weight", .str "p.x")]) := by decide +kernel
  have hspares (g : InMemoryGraphStore) (hg : (g.nodes.get? (NodeRef.metric (.str "p.x")).id).bind
      (fun x => x.get? "aliases") = some (.list [.str "weight", .str "xyzzy"])) :
      Includes g "p.x" (some (.list [.str "mass", .str "xyzzy", .str "weight"])) := by
    intro v hv
    cases hv
    refine ⟨_, rfl, fun a ha => ?_⟩
    obtain ⟨x, v, aliases, hx, hv, hiter, hmem⟩ := ha
    rw [hx, Option.bind_some, hv] at hg
    cases hg
    cases hiter
    revert a
    decide
  have hops : (System.initial.after pre).Meets (fun s op => op.Spares s) ops := by
    refine ⟨trivial, trivial, fun m hm => ?_, trivial⟩
    cases List.mem_singleton.mp hm
    exact hspares _ (by decide +kernel)
  have hsettled : Settled (System.initial.after pre) ops "Xyzzy" := by
    have hok : ((Op.confirm (column "Xyzzy") "p.x" ⟨"src", "2026", "c@1"⟩).exec
        ((System.initial.after pre).after [.runIngest source r true])).1 = .ok () := by
      decide +kernel
    exact ⟨[.runIngest source r true], _, rfl, .inr ⟨_, _, _, _, rfl, rfl, hok⟩⟩
  have hlinked : Settled (System.initial.after pre) ops "Weight" :=
    ⟨[], ops, rfl, .inl (by decide +kernel)⟩
  have hsource : ∀ item ∈ source.discover, ∀ artifact, source.fetch item = .ok artifact →
      ∀ b, source.parse artifact = .ok b → ∀ col ∈ b.iterColumns,
        col.hasDictionary = true ∨ Settled (System.initial.after pre) ops col.name := by
    intro item _ artifact _ b hb
    cases hb
    exact List.forall_mem_cons.mpr ⟨.inr hsettled, List.forall_mem_cons.mpr ⟨.inr hlinked,
      List.forall_mem_singleton.mpr (.inl rfl)⟩⟩
  exact review_comes_to_rest casefold_casefold hindex hops hsource hs r ∅

end MarginKG
