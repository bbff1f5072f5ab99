import MarginKG.Verify.Identity
import MarginKG.Verify.Listings
import MarginKG.Verify.RoundTrip

/-! Which owners get their metric (`ParsedBundle.owners_served_iff`).

The links that a load makes are those that its bundle asserts, once its columns are resolved
(`mem_loadCalls_link`). A column asserts the link of its metric to one entity alone, the last one
that carries it: the others are served only by another column that resolves to the same metric. -/

namespace MarginKG

open InMemoryGraphStore PropertyGraph

section calls
variable [Python] {h : Handler StoreCall StoreCall.Reply PyErr σ}

/-! ## The links that a load makes -/

omit [Python] in
theorem Write.steps_program {w : Write} (H : Program.Steps h w.program s L (.ret ()) s') :
    L = [w.call] := by
  rw [program] at H
  cases H with
  | call _ H =>
    cases H
    rfl

omit [Python] in
theorem Write.steps_links {ls : List Link}
    (H : Program.Steps h (ls.forM fun l => (Write.link l prov).program) s L (.ret ()) s') :
    L = ls.map fun l => (Write.link l prov).call := by
  induction ls generalizing s L with
  | nil =>
    cases H
    rfl
  | cons l ls ih =>
    obtain ⟨_, s₁, L₁, L₂, rfl, H₁, H₂⟩ := H.bind_ret_inv
    rw [steps_program H₁, ih H₂]
    rfl

omit [Python] in
/-- The links made for an outcome. -/
theorem mem_linkOutcome {prov : EdgeProvenance} {owner : Option String}
    (H : Program.Steps h (linkOutcome prov col owner outcome) s L (.ret ()) s') :
    (Write.link l prov').call ∈ L ↔ prov' = prov ∧ ∃ k, outcome.Links k ∧
      (l = .measures col.system col.table col.name k ∨
        ∃ uid, owner = some uid ∧ l = .appliesTo k uid) := by
  rw [linkOutcome_eq] at H
  rw [Write.steps_links H, List.mem_map, ← mem_linksMade]
  constructor
  · rintro ⟨m, hm, hcall⟩
    cases Write.call_injective hcall
    exact ⟨rfl, hm⟩
  · rintro ⟨rfl, hl⟩
    exact ⟨l, hl, rfl⟩

section turn
variable {r : Resolver} {prov : EdgeProvenance} {owners : Dict (String × String × String) String}

/-- The links made in a turn of the loop over the columns. -/
theorem mem_resolveAndLink
    (H : Program.Steps (ResolverState.handler h) (resolveAndLink r prov owners col) w L
      (.ret outcome) w') :
    .store (Write.link l prov').call ∈ L ↔ prov' = prov ∧ ∃ k, outcome.Links k ∧
      (l = .measures col.system col.table col.name k ∨
        ∃ uid, owners.get? col.key = some uid ∧ l = .appliesTo k uid) := by
  obtain ⟨outcome', w₁, L₁, L', rfl, H₁, H⟩ := H.bind_ret_inv
  obtain ⟨_, w₂, L₂, L₃, rfl, H₂, H⟩ := H.bind_ret_inv
  cases H
  obtain ⟨L, q, rfl, hq, H₂, -⟩ := H₂.of_lift (ResolverState.lifting h)
  have hreads : .store (Write.link l prov').call ∉ L₁ := by
    intro hmem
    have hreach := H₁.uses (r.resolve_uses (P := fun _ => False) col) _ hmem
    generalize hc : ResolverCall.store (Write.link l prov').call = c at hreach
    cases hreach with
    | enqueue => cases hc
    | store hmakes =>
      cases hc
      generalize hc : (Write.link l prov').call = c at hmakes
      cases hmakes with
      | write hw => exact hw
      | metrics | metric => cases hc
  cases q with
  | ret u =>
    rw [← mem_linkOutcome H₂]
    simp [hreads]
  | throw | call => cases hq

theorem resolve_of_resolveAndLink
    (H : Program.Steps (ResolverState.handler h) (resolveAndLink r prov owners col) w L
      (.ret outcome) w') : ((r.resolve col).run (ResolverState.handler h) w).1 = .ok outcome := by
  obtain ⟨outcome', w₁, L₁, L', rfl, H₁, H⟩ := H.bind_ret_inv
  obtain ⟨_, w₂, L₂, L₃, rfl, -, H⟩ := H.bind_ret_inv
  cases H
  exact congrArg Prod.fst H₁.run_ret

end turn

variable {c : GraphClient} {r : Resolver} {b : ParsedBundle}

omit [Python] in
theorem ParsedBundle.Records.prov_eq (h : b.Records c (.link l prov)) :
    prov = b.provenance.toEdge := by
  cases h <;> rfl

omit [Python] in
/-- The asserted links: those of the records, and those of the resolved columns. -/
theorem ParsedBundle.asserts_iff (c : GraphClient) {out : List Resolution} : b.Asserts out l ↔
    b.Records c (.link l b.provenance.toEdge) ∨ ∃ e ∈ b.iterColumns.zip out, ∃ k, e.2.Links k ∧
      (l = .measures e.1.system e.1.table e.1.name k ∨
        ∃ uid, (ownerOf b.entities).get? e.1.key = some uid ∧ l = .appliesTo k uid) := by
  constructor
  · intro h
    cases h with
    | describes hd huid => exact .inl (.describes hd huid)
    | defines hd hk => exact .inl (.defines hd hk)
    | relation hrel => exact .inl (.relation hrel)
    | measures he hlinks => exact .inr ⟨_, he, _, hlinks, .inl rfl⟩
    | appliesTo he hlinks hown => exact .inr ⟨_, he, _, hlinks, .inr ⟨_, hown, rfl⟩⟩
  · rintro (h | ⟨⟨col, outcome⟩, he, k, hlinks, rfl | ⟨uid, hown, rfl⟩⟩)
    · generalize hw : Write.link l b.provenance.toEdge = w at h
      cases h with
      | describes hd huid => cases hw; exact .describes hd huid
      | defines hd hk => cases hw; exact .defines hd hk
      | relation hrel => cases hw; exact .relation hrel
      | document | column | entity => cases hw
    · exact .measures he hlinks
    · exact .appliesTo he hlinks hown

/-- The links that an accepted load makes are those that the bundle asserts. -/
theorem mem_loadBundle_link
    (H : Program.Steps (ResolverState.handler handler) (loadBundle c r b) w L (.ret out) w') :
    .store (Write.link l prov).call ∈ L ↔ prov = b.provenance.toEdge ∧ b.Asserts out l := by
  obtain ⟨u, w₁, L₁, L₂, rfl, H₁, H₂⟩ := H.bind_ret_inv
  obtain ⟨-, hturns, hcalls⟩ := H₂.mapM_inv (I := fun _ => True)
    (fun _ _ {_ _ _ _} _ _ => trivial) trivial
  obtain ⟨L, q, rfl, hq, H₁, -⟩ := H₁.of_lift (ResolverState.lifting handler)
  have hrecords : ResolverCall.store (Write.link l prov).call ∈ L.map .store ↔
      b.Records c (.link l prov) := by
    constructor
    · intro hmem
      obtain ⟨call, hcall, heq⟩ := List.mem_map.mp hmem
      have hmakes := H₁.uses (loadRecords_makes c b) _ hcall
      rw [ResolverCall.store.inj heq] at hmakes
      generalize hc : (Write.link l prov).call = call at hmakes
      cases hmakes with
      | write hw => exact Write.call_injective hc ▸ hw.1
      | metrics | metric => cases hc
    · intro hw
      cases q with
      | ret u => exact List.mem_map_of_mem (H₁.passes (loadRecords_passes hw))
      | throw | call => cases hq
  rw [List.mem_append, hrecords, ParsedBundle.asserts_iff c]
  constructor
  · rintro (hw | hmem)
    · cases hw.prov_eq
      exact ⟨rfl, .inl hw⟩
    · obtain ⟨e, he, w₂, L₂, w₃, H₂, hmem⟩ := hcalls _ hmem
      obtain ⟨hprov, hlink⟩ := (mem_resolveAndLink H₂).mp hmem
      exact ⟨hprov, .inr ⟨e, he, hlink⟩⟩
  · rintro ⟨rfl, hw | ⟨e, he, hlink⟩⟩
    · exact .inl hw
    · obtain ⟨w₂, L₂, w₃, -, H₂, hsub⟩ := hturns e he
      exact .inr (hsub ((mem_resolveAndLink H₂).mpr ⟨rfl, hlink⟩))

end calls

/-! ## What an accepted load leaves behind -/

section load
variable [Python] {c : GraphClient} {r : Resolver} {b : ParsedBundle}
  {w w' : ResolverState InMemoryGraphStore} {out : List Resolution}

/-- While a bundle is loaded, an edge without a role stays as it is until its link is made. -/
theorem keeps_edge {l : Link} (hkey : l.key = ∅) (e : Option Props) :
    Keeps (b.Writes c) fun log g =>
      (l.call b.provenance.toEdge ∉ log → g.edges.get? l.ident = e) ∧
        (l.call b.provenance.toEdge ∈ log → g.Linked b.provenance.toEdge l) where
  ok {w g r log} hw hr hg := by
    have hother (hne : (Write.link l b.provenance.toEdge).call ≠ w.call)
        (hedge : (handler w.call g).2.edges.get? l.ident = g.edges.get? l.ident) :
        (l.call b.provenance.toEdge ∉ log ++ [w.call] →
          (handler w.call g).2.edges.get? l.ident = e) ∧
        (l.call b.provenance.toEdge ∈ log ++ [w.call] →
          (handler w.call g).2.Linked b.provenance.toEdge l) := by
      have hmem : l.call b.provenance.toEdge ∈ log ++ [w.call] ↔
          l.call b.provenance.toEdge ∈ log := by
        rw [List.mem_append, List.mem_singleton]
        exact or_iff_left hne
      rw [hmem, Linked, hedge]
      exact hg
    cases w with
    | node n setProps extraLabels =>
      exact hother (fun h => by cases h) (by rw [handler_node_edges])
    | link m prov =>
      cases hw.prov_eq
      by_cases hm : m = l
      · subst hm
        have hhash : m.hashable := by
          by_contra hhash
          rw [handler_link, if_neg hhash] at hr
          cases hr
        rw [handler_link_of_hashable g hhash]
        refine ⟨fun hno => (hno (List.mem_append_right _ List.mem_cons_self)).elim, fun _ => ?_⟩
        refine ⟨_, Dict.get?_set_self .., fits_update ?_ _⟩
        rw [hkey]
        exact fits_iff.mpr fun _ _ h => by cases h
      · refine hother (fun h => hm (Write.link.inj (Write.call_injective h)).1.symm) ?_
        rw [handler_link]
        split
        · exact Dict.get?_set_of_ne fun h => hm (Link.ident_injective h)
        · rfl
  error {w g e log} hw hr hg := by
    cases w with
    | node => rwa [Linked, handler_node_edges]
    | link m prov =>
      rw [handler_link] at hr ⊢
      split at hr
      · cases hr
      · rename_i hhash
        rwa [if_neg hhash]
  metrics hg := by simpa [Link.call] using hg
  metric hg := by simpa [Link.call] using hg

/-- The calls of the store in a load. -/
def loadCalls (c : GraphClient) (r : Resolver) (b : ParsedBundle)
    (w : ResolverState InMemoryGraphStore) : List StoreCall :=
  ((loadBundle c r b).log (ResolverState.handler handler) w).filterMap ResolverCall.store?

omit [Python] in
/-- Nothing that a load does changes the metrics. -/
theorem metrics_of_steps {p : ResolverProgram α}
    (hp : p.Uses (Reaches (Makes (b.Writes c)) queue))
    (H : Program.Steps (ResolverState.handler handler) p w L (.ret a) w') :
    w'.store.metrics = w.store.metrics := by
  have hkeeps := (Keeps.of_graph (P := b.Writes c) (I := fun g => g.metrics = w.store.metrics)
    fun _ g hw hg => (hw.metrics_eq g).trans hg).run_resolver (l := []) hp rfl
  rwa [H.run_ret] at hkeeps

section accepted
variable (hrun : (loadBundle c r b).run (ResolverState.handler handler) w = (.ok out, w'))

include hrun

theorem mem_loadCalls_link : l.call prov ∈ loadCalls c r b w ↔
    prov = b.provenance.toEdge ∧ b.Asserts out l := by
  obtain ⟨L, H⟩ := Program.Steps.of_run hrun
  rw [loadCalls, H.log_eq, ← mem_loadBundle_link H, List.mem_filterMap]
  constructor
  · rintro ⟨call, hmem, hcall⟩
    cases call with
    | store call =>
      cases hcall
      exact hmem
    | enqueue => cases hcall
  · exact fun hmem => ⟨_, hmem, rfl⟩

theorem makes_of_mem_loadCalls (hcall : call ∈ loadCalls c r b w) : Makes (b.Writes c) call := by
  obtain ⟨L, H⟩ := Program.Steps.of_run hrun
  rw [loadCalls, H.log_eq] at hcall
  obtain ⟨call', hmem, hcall⟩ := List.mem_filterMap.mp hcall
  cases H.uses (loadBundle_uses c r b) _ hmem with
  | store hmakes =>
    cases hcall
    exact hmakes
  | enqueue => cases hcall

/-- An edge without a role after an accepted load. -/
theorem edge_of_load {l : Link} (hkey : l.key = ∅) :
    (¬ b.Asserts out l → w'.store.edges.get? l.ident = w.store.edges.get? l.ident) ∧
      (b.Asserts out l → w'.store.Linked b.provenance.toEdge l) := by
  have hkeeps := (keeps_edge (c := c) (b := b) hkey (w.store.edges.get? l.ident)).run_resolver
    (loadBundle_uses c r b) (l := []) (w := w) ⟨fun _ => rfl, nofun⟩
  have hasserts : l.call b.provenance.toEdge ∈ loadCalls c r b w ↔
      b.provenance.toEdge = b.provenance.toEdge ∧ b.Asserts out l := mem_loadCalls_link hrun
  rw [eq_self, true_and, loadCalls] at hasserts
  rwa [hrun, List.nil_append, hasserts] at hkeeps

/-- A link without a role is there after a load when the bundle asserts it, or when it was there
before with the provenance of the bundle. -/
theorem linked_of_load {l : Link} (hkey : l.key = ∅) :
    w'.store.Linked b.provenance.toEdge l ↔
      b.Asserts out l ∨ w.store.Linked b.provenance.toEdge l := by
  obtain ⟨hkept, hmade⟩ := edge_of_load hrun hkey
  by_cases h : b.Asserts out l
  · exact iff_of_true (hmade h) (.inl h)
  · rw [Linked, hkept h]
    exact (or_iff_right h).symm

theorem edge_isSome_of_load {l : Link} (hkey : l.key = ∅) :
    (w'.store.edges.get? l.ident).isSome ↔
      b.Asserts out l ∨ (w.store.edges.get? l.ident).isSome := by
  obtain ⟨hkept, hmade⟩ := edge_of_load hrun hkey
  by_cases h : b.Asserts out l
  · obtain ⟨e, he, -⟩ := hmade h
    exact iff_of_true (Option.isSome_of_eq_some he) (.inl h)
  · rw [hkept h]
    exact (or_iff_right h).symm

/-- The columns that auto-link in a load are those that the index had before it. -/
theorem outcomes_of_load : b.iterColumns.length = out.length ∧
    ∀ e ∈ b.iterColumns.zip out, ∀ k,
      (e.2.tier = .autoLinked ∧ e.2.metricKey = some k) ↔ w.store.hit e.1.name = some k := by
  obtain ⟨L, H⟩ := Program.Steps.of_run hrun
  obtain ⟨u, w₁, L₁, L₂, rfl, H₁, H₂⟩ := H.bind_ret_inv
  have hmetrics := metrics_of_steps (liftStore_uses (loadRecords_uses c b) r.queue) H₁
  obtain ⟨hlength, hturns, -⟩ := H₂.mapM_inv (I := fun w₁ => w₁.store.metrics = w.store.metrics)
    (fun col hcol {_ _ _ _} H₂ hs =>
      (metrics_of_steps (resolveAndLink_uses (c := c) r hcol) H₂).trans hs) hmetrics
  refine ⟨hlength, fun e he k => ?_⟩
  obtain ⟨w₂, L₂, w₃, hmetrics, H₂, -⟩ := hturns e he
  have hresolve := resolve_of_resolveAndLink H₂
  have hhit : w.store.hit e.1.name = w₂.store.hit e.1.name := by rw [hit, hit, hmetrics]
  rw [hhit, ← resolve_autoLinked r e.1 w₂, hresolve]
  simp

/-- An outcome that auto-links to a metric with a key that is not false. -/
theorem links_of_load (he : e ∈ b.iterColumns.zip out) :
    e.2.Links k ↔ w.store.hit e.1.name = some k ∧ k.truthy = true := by
  rw [Resolution.Links, ← and_assoc, (outcomes_of_load hrun).2 e he k]

theorem exists_outcome (hcol : col ∈ b.iterColumns) :
    ∃ outcome, (col, outcome) ∈ b.iterColumns.zip out := by
  rw [← List.map_fst_zip (outcomes_of_load hrun).1.le] at hcol
  obtain ⟨⟨_, outcome⟩, hmem, rfl⟩ := List.mem_map.mp hcol
  exact ⟨outcome, hmem⟩

/-- The link of a column that the bundle asserts. -/
theorem asserts_measures_iff (hcol : col ∈ b.iterColumns) :
    b.Asserts out (.measures col.system col.table col.name k) ↔
      w.store.hit col.name = some k ∧ k.truthy = true := by
  constructor
  · intro h
    generalize hl : Link.measures col.system col.table col.name k = l at h
    cases h with
    | measures he hlinks =>
      obtain ⟨-, -, hname, rfl⟩ := Link.measures.inj hl
      rw [hname]
      exact (links_of_load hrun he).mp hlinks
    | describes | defines | relation | appliesTo => cases hl
  · intro h
    obtain ⟨outcome, he⟩ := exists_outcome hrun hcol
    exact .measures he ((links_of_load hrun he).mpr h)

/-- The links of a metric that the bundle asserts. -/
theorem asserts_appliesTo_iff : b.Asserts out (.appliesTo k uid) ↔
    k.truthy = true ∧ ∃ col ∈ b.iterColumns, w.store.hit col.name = some k ∧
      (ownerOf b.entities).get? col.key = some uid := by
  constructor
  · intro h
    generalize hl : Link.appliesTo k uid = l at h
    cases h with
    | appliesTo he hlinks hown =>
      obtain ⟨rfl, rfl⟩ := Link.appliesTo.inj hl
      obtain ⟨hhit, htruthy⟩ := (links_of_load hrun he).mp hlinks
      exact ⟨htruthy, _, (List.of_mem_zip he).1, hhit, hown⟩
    | describes | defines | relation | measures => cases hl
  · rintro ⟨htruthy, col, hcol, hhit, hown⟩
    obtain ⟨outcome, he⟩ := exists_outcome hrun hcol
    exact .appliesTo he ((links_of_load hrun he).mpr ⟨hhit, htruthy⟩) hown

end accepted

end load

/-! ## What a column measures -/

namespace InMemoryGraphStore

variable {g : InMemoryGraphStore}

/-- In a graph of links, a column measures metrics. -/
theorem AllLinks.reaches_measures (hg : g.AllLinks) :
    g.Reaches (.column system table name) RelType.measures.value x ↔
      ∃ k, (g.edges.get? (Link.measures system table name k).ident).isSome ∧
        g.nodes.get? (NodeRef.metric k).id = some x := by
  constructor
  · rintro ⟨ident, e, he, htype, hsrc, hx⟩
    obtain ⟨l, rfl⟩ := hg ident e he
    have hsrc : l.source = .column system table name := NodeRef.id_injective hsrc
    cases l with
    | measures =>
      cases hsrc
      exact ⟨_, Option.isSome_of_eq_some he, hx⟩
    | _ => cases hsrc
  · rintro ⟨k, hk, hx⟩
    obtain ⟨e, he⟩ := Option.isSome_iff_exists.mp hk
    exact ⟨_, e, he, rfl, rfl, hx⟩

/-- `resolve_column` lists a metric that shows the key, with the entity among those that it applies
to. -/
def ListsWith [Python] (g : InMemoryGraphStore) (col : ObservedColumn) (k : Value)
    (uid : String) : Prop :=
  ∃ rc, ((GraphClient.resolveColumn col.system col.table col.name).run handler g).1 =
      .ok (some rc) ∧ ∃ entry ∈ rc.metrics, entry.metric.get? "metric_key" = some k ∧
    ∃ y ∈ entry.appliesTo, g.nodes.get? (NodeRef.entity uid).id = some y

/-- With its links, a metric is listed when all that the column measures can be read and something
shows the key. -/
theorem listsWith_iff [Python] {prov : EdgeProvenance}
    (happlies : g.Linked prov (.appliesTo k uid)) (hcol : ∃ x, g.nodes.get? col.ref.id = some x)
    (hent : ∃ y, g.nodes.get? (NodeRef.entity uid).id = some y) : g.ListsWith col k uid ↔
      (∀ x, g.Reaches col.ref RelType.measures.value x → ShowsKey x) ∧
        ∃ x, g.Reaches col.ref RelType.measures.value x ∧ x.get? "metric_key" = some k := by
  obtain ⟨y, hy⟩ := hent
  obtain ⟨e, he, -⟩ := happlies
  have hreaches : g.Reaches (.metric k) RelType.appliesTo.value y :=
    ⟨_, e, he, rfl, rfl, hy⟩
  refine (g.lists_iff col.system col.table col.name (P := fun entry =>
    entry.metric.get? "metric_key" = some k ∧
      ∃ y ∈ entry.appliesTo, g.nodes.get? (NodeRef.entity uid).id = some y)).trans ?_
  constructor
  · rintro ⟨-, hkeys, x, key, hx, -, -, hshown, -⟩
    exact ⟨hkeys, x, hx, hshown⟩
  · rintro ⟨hkeys, x, hx, hshown⟩
    obtain ⟨key, hkey, hhash⟩ := hkeys x hx
    cases hkey.symm.trans hshown
    refine ⟨Option.isSome_iff_exists.mpr hcol, hkeys, x, k, hx, hshown, hhash, hshown, y, ?_, hy⟩
    exact mem_neighbors.mpr hreaches

end InMemoryGraphStore

/-! ## Owners -/

/-- The links that a column with an auto-linked outcome should get: to its metric, and from there to
every entity that carries it. -/
inductive ParsedBundle.Owes (b : ParsedBundle) (out : List Resolution) : Link → Prop
  | measures {col : ObservedColumn} : (col, outcome) ∈ b.iterColumns.zip out →
    outcome.tier = .autoLinked → outcome.metricKey = some k →
    Owes b out (.measures col.system col.table col.name k)
  | appliesTo {col : ObservedColumn} : (col, outcome) ∈ b.iterColumns.zip out →
    outcome.tier = .autoLinked → outcome.metricKey = some k → ent ∈ b.entities →
    col ∈ ent.columns → Owes b out (.appliesTo k ent.uid)

/-- The call makes an edge of a type that joins metrics with columns or entities. -/
def StoreCall.LinksMetric : StoreCall → Prop
  | .upsertEdge relType .. =>
    relType = RelType.measures.value ∨ relType = RelType.appliesTo.value
  | _ => False

section owners
variable [Python] {c : GraphClient} {r : Resolver} {b : ParsedBundle}
  {w w' : ResolverState InMemoryGraphStore} {out : List Resolution}

/-- A load serves the owners of its columns: the links are there, with the provenance of the
bundle, every owner is listed, and no other links of these types were made. -/
structure ParsedBundle.OwnersServed (b : ParsedBundle) (out : List Resolution)
    (calls : List StoreCall) (g : InMemoryGraphStore) : Prop where
  linked : ∀ l, b.Owes out l → g.Linked b.provenance.toEdge l
  listed : ∀ ent ∈ b.entities, ∀ col ∈ ent.columns, ∀ outcome k,
    (col, outcome) ∈ b.iterColumns.zip out → outcome.tier = .autoLinked →
      outcome.metricKey = some k → g.ListsWith col k ent.uid
  only : ∀ call ∈ calls, call.LinksMetric → ∃ l prov, b.Owes out l ∧ l.call prov = call

/-- All that the column measures, and the metric `k`, show keys that a metric can be looked up by,
and one of them shows `k`. -/
structure InMemoryGraphStore.KeysShown (g : InMemoryGraphStore) (col : ObservedColumn)
    (k : Value) : Prop where
  keys : ∀ x, g.Reaches col.ref RelType.measures.value x ∨
    g.nodes.get? (NodeRef.metric k).id = some x → ShowsKey x
  shown : ∃ x, (g.Reaches col.ref RelType.measures.value x ∨
    g.nodes.get? (NodeRef.metric k).id = some x) ∧ x.get? "metric_key" = some k

/-- When the index of the graph has a column for a metric, the key of the metric is not false, and
for each entity that carries the column, the entity is the owner of one that resolves to this
metric; else the link is there. -/
structure ParsedBundle.OwnersReached (b : ParsedBundle) (g : InMemoryGraphStore) : Prop where
  measures : ∀ col ∈ b.iterColumns, ∀ k, g.hit col.name = some k → k.truthy = true ∨
    g.Linked b.provenance.toEdge (.measures col.system col.table col.name k)
  appliesTo : ∀ ent ∈ b.entities, ∀ col ∈ ent.columns, ∀ k, g.hit col.name = some k →
    (k.truthy = true ∧ ∃ col' ∈ b.iterColumns, g.hit col'.name = some k ∧
      (ownerOf b.entities).get? col'.key = some ent.uid) ∨
    g.Linked b.provenance.toEdge (.appliesTo k ent.uid)
  readable : ∀ ent ∈ b.entities, ∀ col ∈ ent.columns, ∀ k, g.hit col.name = some k →
    g.KeysShown col k
  relations : ∀ rel ∈ b.relations, rel.typeName ≠ RelType.measures.value ∧
    rel.typeName ≠ RelType.appliesTo.value

omit [Python] in
theorem ParsedBundle.mem_iterColumns_of_entity (hent : ent ∈ b.entities)
    (hcol : col ∈ ent.columns) : col ∈ b.iterColumns :=
  List.mem_append_right _ (List.mem_flatMap.mpr ⟨ent, hent, hcol⟩)

section accepted
variable (hrun : (loadBundle c r b).run (ResolverState.handler handler) w = (.ok out, w'))

include hrun

/-- The links owed are those of the columns that the index had before the load. -/
theorem owes_measures_iff (hcol : col ∈ b.iterColumns) :
    b.Owes out (.measures col.system col.table col.name k) ↔ w.store.hit col.name = some k := by
  constructor
  · intro h
    generalize hl : Link.measures col.system col.table col.name k = l at h
    cases h with
    | measures he htier hkey =>
      obtain ⟨-, -, hname, rfl⟩ := Link.measures.inj hl
      rw [hname]
      exact ((outcomes_of_load hrun).2 _ he _).mp ⟨htier, hkey⟩
    | appliesTo => cases hl
  · intro hhit
    obtain ⟨outcome, he⟩ := exists_outcome hrun hcol
    obtain ⟨htier, hkey⟩ := ((outcomes_of_load hrun).2 _ he _).mpr hhit
    exact .measures he htier hkey

theorem owes_appliesTo_iff : b.Owes out (.appliesTo k uid) ↔
    ∃ ent ∈ b.entities, ∃ col ∈ ent.columns, w.store.hit col.name = some k ∧ ent.uid = uid := by
  constructor
  · intro h
    generalize hl : Link.appliesTo k uid = l at h
    cases h with
    | appliesTo he htier hkey hent hcol =>
      obtain ⟨rfl, rfl⟩ := Link.appliesTo.inj hl
      exact ⟨_, hent, _, hcol, ((outcomes_of_load hrun).2 _ he _).mp ⟨htier, hkey⟩, rfl⟩
    | measures => cases hl
  · rintro ⟨ent, hent, col, hcol, hhit, rfl⟩
    obtain ⟨outcome, he⟩ := exists_outcome hrun (b.mem_iterColumns_of_entity hent hcol)
    obtain ⟨htier, hkey⟩ := ((outcomes_of_load hrun).2 _ he _).mpr hhit
    exact .appliesTo he htier hkey hent hcol

/-- What a column measures after a load, when its metric is linked. -/
theorem reaches_measures_of_load (hg : w.store.AllLinks) (hcol : col ∈ b.iterColumns)
    (hhit : w.store.hit col.name = some k)
    (hlinked : w'.store.Linked b.provenance.toEdge
      (.measures col.system col.table col.name k)) :
    w'.store.Reaches col.ref RelType.measures.value x ↔
      w.store.Reaches col.ref RelType.measures.value x ∨
        w.store.nodes.get? (NodeRef.metric k).id = some x := by
  have hg' : w'.store.AllLinks := by
    have hkeeps := (Keeps.of_graph (P := b.Writes c) (I := AllLinks) fun _ _ _ hg =>
      hg.write).run_resolver (l := []) (loadBundle_uses c r b) hg
    rwa [hrun] at hkeeps
  have hmetric (k : Value) : w'.store.nodes.get? (NodeRef.metric k).id =
      w.store.nodes.get? (NodeRef.metric k).id :=
    (load_run (.refl w.store) hrun).2.metrics.metric k
  rw [ObservedColumn.ref, hg'.reaches_measures, hg.reaches_measures]
  simp only [hmetric]
  constructor
  · rintro ⟨k', hk', hx⟩
    rcases (edge_isSome_of_load hrun rfl).mp hk' with hasserts | hold
    · cases hhit.symm.trans ((asserts_measures_iff hrun hcol).mp hasserts).1
      exact .inr hx
    · exact .inl ⟨k', hold, hx⟩
  · rintro (⟨k', hk', hx⟩ | hx)
    · exact ⟨k', (edge_isSome_of_load hrun rfl).mpr (.inr hk'), hx⟩
    · obtain ⟨e, he, -⟩ := hlinked
      exact ⟨k, Option.isSome_of_eq_some he, hx⟩

/-- An owner is listed when all that its column measures can be read. -/
theorem listsWith_of_load (hg : w.store.AllLinks) (hent : ent ∈ b.entities)
    (hcol : col ∈ ent.columns) (hhit : w.store.hit col.name = some k)
    (hmeasures : w'.store.Linked b.provenance.toEdge
      (.measures col.system col.table col.name k))
    (happlies : w'.store.Linked b.provenance.toEdge (.appliesTo k ent.uid)) :
    w'.store.ListsWith col k ent.uid ↔ w.store.KeysShown col k := by
  have hmem := b.mem_iterColumns_of_entity hent hcol
  rw [listsWith_iff happlies (stored_of_load hrun (.column hmem))
    (stored_of_load hrun (.entity hent))]
  simp only [reaches_measures_of_load hrun hg hmem hhit hmeasures]
  exact ⟨fun h => ⟨h.1, h.2⟩, fun h => ⟨h.keys, h.shown⟩⟩

/-- Only relations of these types make other links of them. -/
theorem only_owed_iff :
    (∀ call ∈ loadCalls c r b w, call.LinksMetric → ∃ l prov, b.Owes out l ∧ l.call prov = call) ↔
      ∀ rel ∈ b.relations, rel.typeName ≠ RelType.measures.value ∧
        rel.typeName ≠ RelType.appliesTo.value := by
  constructor
  · intro h rel hrel
    rw [← not_or]
    intro htype
    obtain ⟨l, prov, howes, hcall⟩ := h (rel.link.call b.provenance.toEdge)
      ((mem_loadCalls_link hrun).mpr ⟨rfl, .relation hrel⟩) htype
    rw [Link.eq_of_call hcall] at howes
    generalize hl : rel.link = l at howes
    cases howes <;> cases hl
  · intro h call hmem htype
    obtain ⟨l, prov, rfl⟩ : ∃ l prov, Link.call l prov = call := by
      cases makes_of_mem_loadCalls hrun hmem with
      | @write v hv =>
        cases v with
        | node => exact htype.elim
        | link l prov => exact ⟨l, prov, rfl⟩
      | metrics | metric => exact htype.elim
    obtain ⟨-, hasserts⟩ := (mem_loadCalls_link hrun).mp hmem
    refine ⟨l, prov, ?_, rfl⟩
    cases hasserts with
    | describes | defines =>
      simp [StoreCall.LinksMetric, Link.call, Link.relType, RelType.value] at htype
    | relation hrel => exact absurd htype (not_or.mpr (h _ hrel))
    | measures he hlinks => exact .measures he hlinks.1 hlinks.2.1
    | appliesTo he hlinks hown =>
      obtain ⟨ent, hent, col', hcol', hkey, rfl⟩ := carries_of_ownerOf hown
      obtain ⟨-, -, hname⟩ : col'.system = _ ∧ col'.table = _ ∧ col'.name = _ := by
        simpa [ObservedColumn.key] using hkey
      refine (owes_appliesTo_iff hrun).mpr ⟨ent, hent, col', hcol', ?_, rfl⟩
      rw [hname]
      exact ((links_of_load hrun he).mp hlinks).1

/-- **When every owner gets its metric**, for every graph of links and every accepted bundle. -/
theorem ParsedBundle.owners_served_iff (hg : w.store.AllLinks) :
    b.OwnersServed out (loadCalls c r b w) w'.store ↔ b.OwnersReached w.store := by
  constructor
  · intro h
    refine ⟨fun col hcol k hhit => ?_, fun ent hent col hcol k hhit => ?_,
      fun ent hent col hcol k hhit => ?_, (only_owed_iff hrun).mp h.only⟩
    · have hlinked := h.linked _ ((owes_measures_iff hrun hcol).mpr hhit)
      rw [linked_of_load hrun rfl, asserts_measures_iff hrun hcol] at hlinked
      exact hlinked.imp_left And.right
    · have hlinked := h.linked _ ((owes_appliesTo_iff hrun).mpr ⟨ent, hent, col, hcol, hhit, rfl⟩)
      rwa [linked_of_load hrun rfl, asserts_appliesTo_iff hrun] at hlinked
    · have hmem := b.mem_iterColumns_of_entity hent hcol
      obtain ⟨outcome, he⟩ := exists_outcome hrun hmem
      obtain ⟨htier, hkey⟩ := ((outcomes_of_load hrun).2 _ he _).mpr hhit
      refine (listsWith_of_load hrun hg hent hcol hhit ?_ ?_).mp
        (h.listed ent hent col hcol outcome k he htier hkey)
      · exact h.linked _ (.measures he htier hkey)
      · exact h.linked _ (.appliesTo he htier hkey hent hcol)
  · intro h
    have hlinked : ∀ l, b.Owes out l → w'.store.Linked b.provenance.toEdge l := by
      intro l howes
      cases howes with
      | @measures outcome k col he htier hkey =>
        have hcol := (List.of_mem_zip he).1
        have hhit := ((outcomes_of_load hrun).2 _ he _).mp ⟨htier, hkey⟩
        rw [linked_of_load hrun rfl, asserts_measures_iff hrun hcol]
        exact (h.measures col hcol k hhit).imp_left fun htruthy => ⟨hhit, htruthy⟩
      | @appliesTo outcome k ent col he htier hkey hent hcol =>
        have hhit := ((outcomes_of_load hrun).2 _ he _).mp ⟨htier, hkey⟩
        rw [linked_of_load hrun rfl, asserts_appliesTo_iff hrun]
        exact h.appliesTo ent hent col hcol k hhit
    refine ⟨hlinked, fun ent hent col hcol outcome k he htier hkey => ?_,
      (only_owed_iff hrun).mpr h.relations⟩
    have hhit := ((outcomes_of_load hrun).2 _ he _).mp ⟨htier, hkey⟩
    refine (listsWith_of_load hrun hg hent hcol hhit ?_ ?_).mpr
      (h.readable ent hent col hcol k hhit)
    · exact hlinked _ (.measures he htier hkey)
    · exact hlinked _ (.appliesTo he htier hkey hent hcol)

end accepted

end owners

/-- One entity carries a column, which the bundle has as a free-standing column too. -/
theorem ParsedBundle.owners_served_single :
    let pack : Pack := {
      name := "p"
      metrics := [{ metricKey := "p.weight", aliases := ["weight"] }] }
    let col : ObservedColumn := { system := "erp", table := "widgets", name := "Weight" }
    let outcome : Resolution :=
      { column := col, tier := .autoLinked, metricKey := some (.str "p.weight"), score := 1 }
    let b : ParsedBundle := {
      provenance := ⟨"src", "2026", "c@1"⟩
      columns := [col]
      entities := [{ uid := "e1", columns := [col] }] }
    let r : Resolver := ⟨fun _ _ => .ok [], 6 / 10, 3, 0⟩
    let w : ResolverState InMemoryGraphStore :=
      ⟨(System.initial.after [.loadPack pack]).graph, [[]]⟩
    b.OwnersServed [outcome, outcome] (loadCalls ∅ r b w)
      ((loadBundle ∅ r b).run (ResolverState.handler handler) w).2.store := by
  intro pack col outcome b r w
  have hrun : (loadBundle ∅ r b).run (ResolverState.handler handler) w =
      (.ok [outcome, outcome], ((loadBundle ∅ r b).run (ResolverState.handler handler) w).2) :=
    Prod.fst_eq_iff.mp (by decide +kernel)
  have hhit : w.store.hit "Weight" = some (.str "p.weight") := by decide +kernel
  have hcols : ∀ col' ∈ b.iterColumns, col' = col := by decide +kernel
  have hents : ∀ ent ∈ b.entities, ent.uid = "e1" ∧ ∀ col' ∈ ent.columns, col' = col := by
    decide +kernel
  have hmetric : w.store.nodes.get? (NodeRef.metric (.str "p.weight")).id = some (.ofList [
      ("metric_key", .str "p.weight"), ("_labels", .set {"Metric"}),
      ("aliases", .list [.str "weight"])]) := by decide +kernel
  have hnone (x : Props) : ¬ w.store.Reaches col.ref RelType.measures.value x := by
    rintro ⟨ident, e, he, -⟩
    cases he
  refine (b.owners_served_iff hrun (System.allLinks_after _)).mpr ⟨?_, ?_, ?_, nofun⟩
  · intro col' hcol k hk
    cases hcols col' hcol
    cases hhit.symm.trans hk
    exact .inl rfl
  · intro ent hent col' hcol k hk
    rw [(hents ent hent).1]
    cases (hents ent hent).2 col' hcol
    cases hhit.symm.trans hk
    exact .inl ⟨rfl, col, List.mem_cons_self, hhit, by decide +kernel⟩
  · intro ent hent col' hcol k hk
    cases (hents ent hent).2 col' hcol
    cases hhit.symm.trans hk
    refine ⟨fun x hx => ?_, _, .inr hmetric, rfl⟩
    rcases hx with hx | hx
    · exact (hnone x hx).elim
    · cases hmetric.symm.trans hx
      exact ⟨_, rfl, rfl⟩

/-- Two entities carry a column: its metric is applied to the second one alone. -/
theorem ParsedBundle.owners_not_served :
    let pack : Pack := {
      name := "p"
      metrics := [{ metricKey := "p.weight", aliases := ["weight"] }] }
    let col : ObservedColumn := { system := "erp", table := "widgets", name := "Weight" }
    let outcome : Resolution :=
      { column := col, tier := .autoLinked, metricKey := some (.str "p.weight"), score := 1 }
    let b : ParsedBundle := {
      provenance := ⟨"src", "2026", "c@1"⟩
      entities := [{ uid := "e1", columns := [col] }, { uid := "e2", columns := [col] }] }
    let r : Resolver := ⟨fun _ _ => .ok [], 6 / 10, 3, 0⟩
    let w : ResolverState InMemoryGraphStore :=
      ⟨(System.initial.after [.loadPack pack]).graph, [[]]⟩
    let load := (loadBundle ∅ r b).run (ResolverState.handler handler) w
    load.1 = .ok [outcome, outcome] ∧
      ¬ b.OwnersServed [outcome, outcome] (loadCalls ∅ r b w) load.2.store := by
  intro pack col outcome b r w load
  refine ⟨by decide +kernel, fun h => ?_⟩
  have he : (col, outcome) ∈ b.iterColumns.zip [outcome, outcome] := by decide +kernel
  have hent : ({ uid := "e1", columns := [col] } : ObservedEntity) ∈ b.entities :=
    List.mem_cons_self
  have howes : b.Owes [outcome, outcome] (.appliesTo (.str "p.weight") "e1") :=
    .appliesTo he rfl rfl hent List.mem_cons_self
  obtain ⟨e, he, -⟩ := h.linked _ howes
  have hnone : load.2.store.edges.get? (Link.appliesTo (.str "p.weight") "e1").ident = none := by
    decide +kernel
  rw [hnone] at he
  cases he

end MarginKG
