import MarginKG.Verify.Backends
import MarginKG.Verify.LoadOrder
import MarginKG.Verify.Resume

/-! A set-up script may be run again (`script_repeats`): packs and other writes of a client first,
then loads of bundles and whole ingestions. When the script has gone through once, it goes through
however often it is repeated, and leaves the same nodes, edges and allow-lists.

The first part of a script makes the same writes each time (`Op.setupWrites`). What the second part
writes depends on the metrics, of which it changes none (`Op.feedWrites`), so all that is to be
shown is that the first part, made again, leaves the metrics as they were, in their order
(`metricsAlike_again`). The rest is that writes which are all repeated leave no trace. -/

namespace MarginKG

open InMemoryGraphStore

/-! ## Graphs with the same metrics -/

/-- The same metrics in the same order, the order of their properties aside. -/
structure InMemoryGraphStore.MetricsAlike (g g' : InMemoryGraphStore) : Prop where
  metrics : List.Forall₂ SameProps g.metrics g'.metrics
  metric : ∀ k, Option.Rel SameProps (g.nodes.get? (NodeRef.metric k).id)
    (g'.nodes.get? (NodeRef.metric k).id)

/-- Over such graphs a resolver is told the same. -/
theorem InMemoryGraphStore.MetricsAlike.reply {g g' : InMemoryGraphStore} (h : g.MetricsAlike g')
    (hx : Reaches (Makes P) queue x) : x.SameReply (g.reply x) (g'.reply x) := by
  cases hx with
  | enqueue => trivial
  | store hx =>
    cases hx with
    | @write w _ => cases w <;> trivial
    | metrics => exact h.metrics
    | @metric k =>
      have hreply (g : InMemoryGraphStore) :
          g.reply (.store (.getNode CoreLabel.metric.value (metricKeyProps (.str k)))) =
            g.nodes.get? (NodeRef.metric (.str k)).id := by
        rw [InMemoryGraphStore.reply]
        have hget : g.getNode CoreLabel.metric.value (metricKeyProps (.str k)) =
            .ok (g.nodes.get? (NodeRef.metric (.str k)).id) := g.getNode_ref (n := .metric _) rfl
        rw [hget]
      change Option.Rel SameProps _ _
      rw [hreply g, hreply g']
      exact h.metric (.str k)

section feeds
variable [Python] {c : GraphClient} {r : Resolver} {g g' : InMemoryGraphStore}

/-- Over such graphs a bundle is loaded alike. -/
theorem load_congr (h : g.MetricsAlike g') (b : ParsedBundle) :
    loadWrites c r g b = loadWrites c r g' b ∧ loadOutcome c r g b = loadOutcome c r g' b := by
  have hplan : (loadBundle c r b).plan g.reply = (loadBundle c r b).plan g'.reply :=
    (loadBundle_blind c r b).plan (loadBundle_uses c r b) fun _ hx => h.reply hx
  rw [loadWrites, loadWrites, loadOutcome, loadOutcome, hplan]
  exact ⟨rfl, rfl⟩

theorem itemWrites_congr (h : g.MetricsAlike g') (source : Source) (item : WorkItem) :
    itemWrites source c r g item = itemWrites source c r g' item := by
  rw [itemWrites, itemWrites]
  rcases source.fetch item with e | artifact
  · rfl
  · dsimp only
    rcases source.parse artifact with e | b
    · rfl
    · exact (load_congr h b).1

theorem Loads.congr (h : g.MetricsAlike g') (hload : Loads source c r g item) :
    Loads source c r g' item := by
  obtain ⟨artifact, b, out, hfetch, hparse, hout⟩ := hload
  exact ⟨artifact, b, out, hfetch, hparse, (load_congr h b).2 ▸ hout⟩

end feeds

/-! ## The two parts of a script -/

namespace Op

/-- The operation makes writes that do not depend on what is stored. -/
def SetsUp : Op → Prop
  | .loadPack _ => True
  | .client (.addMetricAlias ..) => False
  | .client _ => True
  | .loadBundle .. | .resolve .. | .confirm .. | .runIngest .. => False

/-- The operation loads bundles, all that it is given. -/
def Feeds : Op → Prop
  | .loadBundle .. => True
  | .runIngest _ _ fresh => fresh = true
  | .client _ | .loadPack _ | .resolve .. | .confirm .. => False

variable [Python]

def Succeeds (s : System) (op : Op) : Prop := (op.exec s).1 = .ok ()

/-- The client accepts the operation. -/
def Accepted (c : GraphClient) : Op → Prop
  | .client (.registerAllowlists ..) => True
  | .client call => ∃ w, call.write c = some w
  | .loadPack pack => pack.validate = .ok ()
  | .loadBundle .. | .resolve .. | .confirm .. | .runIngest .. => False

/-- The writes of an operation that sets up. -/
def setupWrites (c : GraphClient) : Op → List Write
  | .client call => (call.write c).toList
  | .loadPack pack => pack.catalog
  | .loadBundle .. | .resolve .. | .confirm .. | .runIngest .. => []

/-- The loads of the operation raise nothing of their own over graphs with these metrics. -/
def Served (c : GraphClient) (g₀ : InMemoryGraphStore) : Op → Prop
  | .loadBundle r b => ∃ out, loadOutcome c r g₀ b = .ok out
  | .runIngest source r _ => ∀ item ∈ pending ∅ source.discover, Loads source c r g₀ item
  | .client _ | .loadPack _ | .resolve .. | .confirm .. => True

/-- The writes of an operation that loads bundles, over graphs with these metrics. -/
noncomputable def feedWrites (c : GraphClient) (g₀ : InMemoryGraphStore) : Op → List Write
  | .loadBundle r b => loadWrites c r g₀ b
  | .runIngest source r _ => left source c r g₀ ∅ source.discover
  | .client _ | .loadPack _ | .resolve .. | .confirm .. => []

end Op

/-! ## Allow-lists -/

/-- `c'` allows whatever `c` allows. -/
structure GraphClient.Within (c c' : GraphClient) : Prop where
  entitySubtypes : c.entitySubtypes ⊆ c'.entitySubtypes
  packEdgeTypes : c.packEdgeTypes ⊆ c'.packEdgeTypes

namespace GraphClient.Within

variable {c c' c'' : GraphClient}

theorem refl (c : GraphClient) : c.Within c := ⟨subset_rfl, subset_rfl⟩

theorem trans (h : c.Within c') (h' : c'.Within c'') : c.Within c'' :=
  ⟨h.entitySubtypes.trans h'.entitySubtypes, h.packEdgeTypes.trans h'.packEdgeTypes⟩

/-- What a client accepts, one that allows more accepts too, and writes the same. -/
theorem write (h : c.Within c') {call : ClientCall} (hw : call.write c = some w) :
    call.write c' = some w := by
  cases call with
  | upsertEntity uid subtypeLabel attributes =>
    simp only [ClientCall.write, Option.ite_none_right_eq_some] at hw ⊢
    exact ⟨fun label hlabel => h.entitySubtypes (hw.1 label hlabel), hw.2⟩
  | relateEntities subjectUid objectUid role prov relType =>
    simp only [ClientCall.write, Option.ite_none_right_eq_some] at hw ⊢
    exact ⟨hw.1.imp_right fun ht => h.packEdgeTypes ht, hw.2⟩
  | _ => exact hw

end GraphClient.Within

section setup
variable [Python] {c c' : GraphClient} {op : Op}

/-- An operation may add to the allow-lists, whatever they are. -/
theorem Op.clientAfter_eq (op : Op) :
    ∃ e t, ∀ c, op.clientAfter c = c.registerAllowlists e t := by
  have hsame (c : GraphClient) : c = c.registerAllowlists [] [] := by
    simp [GraphClient.registerAllowlists]
  cases op with
  | client call =>
    cases call with
    | registerAllowlists e t => exact ⟨e, t, fun _ => rfl⟩
    | _ => exact ⟨[], [], hsame⟩
  | loadPack pack =>
    simp only [Op.clientAfter, MarginKG.loadPack]
    rcases pack.validate with e | _
    · exact ⟨[], [], hsame⟩
    · exact ⟨pack.entitySubtypes, pack.edgeTypes, fun _ => rfl⟩
  | _ => exact ⟨[], [], hsame⟩

theorem Op.within_clientAfter (op : Op) (c : GraphClient) : c.Within (op.clientAfter c) := by
  obtain ⟨e, t, heq⟩ := op.clientAfter_eq
  rw [heq]
  exact ⟨Finset.subset_union_left, Finset.subset_union_left⟩

/-- An operation adds nothing to allow-lists that have it all. -/
theorem Op.clientAfter_of_within (h : (op.clientAfter c).Within c') : op.clientAfter c' = c' := by
  obtain ⟨e, t, heq⟩ := op.clientAfter_eq
  rw [heq] at h ⊢
  rw [GraphClient.registerAllowlists, Finset.union_eq_left.mpr, Finset.union_eq_left.mpr]
  · exact Finset.subset_union_right.trans h.packEdgeTypes
  · exact Finset.subset_union_right.trans h.entitySubtypes

theorem Op.next_clientAfter (s : System) (op : Op) :
    (op.next s).client = op.clientAfter s.client := by
  rw [Op.next_client]
  cases op <;> rfl

/-! ## The first part -/

theorem Op.Accepted.within (h : op.Accepted c) (hc : c.Within c') :
    op.Accepted c' ∧ op.setupWrites c' = op.setupWrites c := by
  cases op with
  | loadPack => exact ⟨h, rfl⟩
  | loadBundle | resolve | confirm | runIngest => exact h.elim
  | client call =>
    cases call with
    | registerAllowlists => exact ⟨h, rfl⟩
    | _ =>
      obtain ⟨w, hw⟩ := h
      have hw' := hc.write hw
      refine ⟨⟨w, hw'⟩, ?_⟩
      rw [Op.setupWrites, Op.setupWrites, hw, hw']

/-- An accepted operation makes its writes, and one that succeeds is accepted. -/
theorem setup_exec (hop : op.SetsUp) (s : System) :
    (op.Accepted s.client → ((op.setupWrites s.client).forM Write.program).run handler s.graph =
      ((op.exec s).1, (op.next s).graph)) ∧ (op.Succeeds s → op.Accepted s.client) := by
  cases op with
  | loadBundle | resolve | confirm | runIngest => exact hop.elim
  | loadPack pack =>
    rcases hv : pack.validate with e | _
    · refine ⟨fun h => ?_, fun h => ?_⟩
      · cases hv.symm.trans h
      simp only [Op.Succeeds, Op.exec, MarginKG.loadPack, hv] at h
      cases h
    · refine ⟨fun _ => ?_, fun _ => hv⟩
      simp only [Op.next, Op.exec, MarginKG.loadPack, hv]
      rw [pack.loadCatalog_eq]
      rfl
  | client call =>
    rcases hw : call.write s.client with _ | w
    · by_cases hreg : ∃ e t, call = .registerAllowlists e t
      · obtain ⟨e, t, rfl⟩ := hreg
        exact ⟨fun _ => rfl, fun _ => trivial⟩
      have halias : ∀ k a, call ≠ .addMetricAlias k a := fun k a h => by
        subst h
        exact hop
      simp only [not_exists] at hreg
      obtain ⟨m, hm⟩ := ClientCall.program_of_refused hw hreg halias
      refine ⟨fun h => ?_, fun h => ?_⟩
      · cases call with
        | registerAllowlists e t => exact absurd rfl (hreg e t)
        | _ =>
          obtain ⟨w, hw'⟩ := h
          cases hw.symm.trans hw'
      · simp only [Op.Succeeds, Op.exec, hm] at h
        cases h
    · have hwrites : (Op.client call).setupWrites s.client = [w] := by
        rw [Op.setupWrites, hw]
        rfl
      refine ⟨fun _ => ?_, fun _ => ?_⟩
      · simp only [Op.next, Op.exec, hwrites, ClientCall.program_of_write hw]
        exact congrArg (Program.run handler · s.graph) (Program.bind_ret w.program)
      · cases call with
        | registerAllowlists => trivial
        | _ => exact ⟨w, hw⟩

/-- An operation that sets up succeeds when it is accepted and its writes are admitted; it makes
these writes. -/
theorem setup_step (hop : op.SetsUp) (s : System) :
    (op.Succeeds s ↔ op.Accepted s.client ∧
      writes.Admits Write.Admitted (op.setupWrites s.client) s.graph.contents) ∧
    (op.Succeeds s → ((op.setupWrites s.client).forM Write.program).run handler s.graph =
      (.ok (), (op.next s).graph)) := by
  obtain ⟨hrun, haccepted⟩ := setup_exec hop s
  refine ⟨⟨fun h => ⟨haccepted h, ?_⟩, fun ⟨ha, hadmits⟩ => ?_⟩, fun h => ?_⟩
  · rw [← run_writes]
    exact ⟨_, (hrun (haccepted h)).trans (Prod.ext h rfl)⟩
  · obtain ⟨g', hg'⟩ := run_writes.mpr hadmits
    exact congrArg Prod.fst ((hrun ha).symm.trans hg')
  · exact (hrun (haccepted h)).trans (Prod.ext h rfl)

/-- The client knows the operation: it accepts it, and learns nothing from it. -/
def Op.Known (c : GraphClient) (op : Op) : Prop := op.Accepted c ∧ op.clientAfter c = c

/-- The first part of a script makes its writes, as any client that knows its operations would. -/
theorem setup_run {ops : List Op} (hops : ∀ op ∈ ops, op.SetsUp) {s : System}
    (hok : s.Meets Op.Succeeds ops) (hc : (s.after ops).client.Within c) :
    s.client.Within c ∧ (∀ op ∈ ops, op.Known c) ∧
      ((ops.flatMap (Op.setupWrites c)).forM Write.program).run handler s.graph =
        (.ok (), (s.after ops).graph) := by
  induction ops generalizing s with
  | nil => exact ⟨hc, nofun, rfl⟩
  | cons op ops ih =>
    rw [List.forall_mem_cons] at hops
    obtain ⟨hsucceeds, hok⟩ := hok
    obtain ⟨hnext, hknown, hrun⟩ := ih hops.2 hok hc
    have haccepted := ((setup_step hops.1 s).1.mp hsucceeds).1
    rw [Op.next_clientAfter] at hnext
    have hwithin := (op.within_clientAfter s.client).trans hnext
    obtain ⟨hacceptedc, hwrites⟩ := haccepted.within hwithin
    refine ⟨hwithin, ?_, ?_⟩
    · exact List.forall_mem_cons.mpr ⟨⟨hacceptedc, Op.clientAfter_of_within hnext⟩, hknown⟩
    · rw [List.flatMap_cons, List.forM_eq_forM, List.forM_append, hwrites]
      exact (Program.run_bind_ok ((setup_step hops.1 s).2 hsucceeds) _).trans hrun

/-- The first part of a script, when the client knows its operations. -/
theorem setup_again {ops : List Op} (hops : ∀ op ∈ ops, op.SetsUp) {s : System}
    (hknown : ∀ op ∈ ops, op.Known s.client)
    (hadmits : writes.Admits Write.Admitted (ops.flatMap (Op.setupWrites s.client))
      s.graph.contents) :
    s.Meets Op.Succeeds ops ∧ (s.after ops).client = s.client := by
  induction ops generalizing s with
  | nil => exact ⟨trivial, rfl⟩
  | cons op ops ih =>
    rw [List.forall_mem_cons] at hops hknown
    obtain ⟨⟨haccepted, hclient⟩, hknown⟩ := hknown
    rw [List.flatMap_cons, writes.admits_append] at hadmits
    have hsucceeds := (setup_step hops.1 s).1.mpr ⟨haccepted, hadmits.1⟩
    have hnext : (op.next s).client = s.client := (op.next_clientAfter s).trans hclient
    obtain ⟨hcontents, -⟩ := run_writes_ok ((setup_step hops.1 s).2 hsucceeds)
    obtain ⟨hok, hafter⟩ := ih (s := op.next s) hops.2 (by rwa [hnext])
      (by rw [hnext, hcontents]; exact hadmits.2)
    exact ⟨⟨hsucceeds, hok⟩, hafter.trans hnext⟩

/-! ## The second part -/

/-- A run of `run_ingest` that returns has made the writes that were left, and its loads raised
nothing. -/
theorem ingest_wrote {source : Source} {r : Resolver} {g₀ : InMemoryGraphStore}
    {w w' : IngestState InMemoryGraphStore} (hw : g₀.SameMetrics w.world.store)
    (hrun : (runIngest source c r).run (IngestState.handler source handler) w =
      (.ok report, w')) :
    (∀ item ∈ pending w.ledger source.discover, Loads source c r g₀ item) ∧
      g₀.Wrote (left source c r g₀ w.ledger source.discover) w.world.store w'.world.store := by
  obtain ⟨l, H⟩ := Program.Steps.of_run hrun
  obtain ⟨Q₁, Q₂, R, h⟩ := loop_steps hw H
  have hdone := pending_eq_nil (loop_done hw H)
  have hafter := h.after
  rw [left, hdone, List.flatMap_nil] at hafter
  obtain ⟨rfl, rfl⟩ := List.append_eq_nil_iff.mp hafter.symm
  rw [h.before, List.append_nil]
  refine ⟨fun item hitem => (h.loads item hitem).resolve_left ?_, h.wrote⟩
  rw [hdone]
  exact List.not_mem_nil

/-- An operation that loads bundles succeeds when its loads raise nothing of their own and its
writes are admitted; it makes these writes. -/
theorem feed_step (hop : op.Feeds) {g₀ : InMemoryGraphStore} {s : System}
    (hs : g₀.SameMetrics s.graph) :
    (op.Succeeds s ↔ op.Served s.client g₀ ∧
      writes.Admits Write.Admitted (op.feedWrites s.client g₀) s.graph.contents) ∧
    (op.Succeeds s → g₀.Wrote (op.feedWrites s.client g₀) s.graph (op.next s).graph) := by
  cases op with
  | client | loadPack | resolve | confirm => exact hop.elim
  | loadBundle r b =>
    have hexec : (Op.loadBundle r b).Succeeds s ↔ ∃ out w, (loadBundle s.client r b).run
        (ResolverState.handler handler) s.state.world = (.ok out, w) := by
      simp only [Op.Succeeds, Op.exec, System.runResolver]
      rcases (loadBundle s.client r b).run (ResolverState.handler handler) s.state.world
        with ⟨e | out, w⟩
      · refine ⟨fun h => ?_, fun h => ?_⟩
        · cases h
        · obtain ⟨_, _, h⟩ := h
          cases h
      · exact ⟨fun _ => ⟨out, w, rfl⟩, fun _ => rfl⟩
    have hwrote : (Op.loadBundle r b).Succeeds s → (∃ out, loadOutcome s.client r g₀ b = .ok out) ∧
        g₀.Wrote (loadWrites s.client r g₀ b) s.graph ((Op.loadBundle r b).next s).graph := by
      intro h
      obtain ⟨out, w, hrun⟩ := hexec.mp h
      obtain ⟨hout, hwrote⟩ := load_run hs hrun
      refine ⟨⟨out, hout⟩, ?_⟩
      simp only [Op.next, Op.exec, System.runResolver, hrun]
      exact hwrote
    refine ⟨⟨fun h => ⟨(hwrote h).1, (hwrote h).2.admits⟩, fun h => ?_⟩, fun h => (hwrote h).2⟩
    obtain ⟨⟨out, hout⟩, hadmits⟩ := h
    obtain ⟨w, hrun⟩ := load_completes (s := s.state.world) hs hout hadmits
    exact hexec.mpr ⟨out, w, hrun⟩
  | runIngest source r fresh =>
    cases hop
    have hexec : (Op.runIngest source r true).Succeeds s ↔ ∃ report w,
        (runIngest source s.client r).run (IngestState.handler source handler)
          { s.state with ledger := ∅ } = (.ok report, w) := by
      simp only [Op.Succeeds, Op.exec, if_true]
      rcases (runIngest source s.client r).run (IngestState.handler source handler)
        { s.state with ledger := ∅ } with ⟨e | report, w⟩
      · refine ⟨fun h => ?_, fun h => ?_⟩
        · cases h
        · obtain ⟨_, _, h⟩ := h
          cases h
      · exact ⟨fun _ => ⟨report, w, rfl⟩, fun _ => rfl⟩
    have hwrote : (Op.runIngest source r true).Succeeds s →
        (∀ item ∈ pending ∅ source.discover, Loads source s.client r g₀ item) ∧
        g₀.Wrote (left source s.client r g₀ ∅ source.discover) s.graph
          ((Op.runIngest source r true).next s).graph := by
      intro h
      obtain ⟨report, w, hrun⟩ := hexec.mp h
      obtain ⟨hloads, hwrote⟩ := ingest_wrote (w := { s.state with ledger := ∅ }) hs hrun
      refine ⟨hloads, ?_⟩
      simp only [Op.next, Op.exec, if_true, hrun]
      exact hwrote
    refine ⟨⟨fun h => ⟨(hwrote h).1, (hwrote h).2.admits⟩, fun h => ?_⟩, fun h => (hwrote h).2⟩
    exact hexec.mpr (loop_completes (w := { s.state with ledger := ∅ }) hs h.1 h.2 {})

/-- The second part of a script makes its writes. -/
theorem feed_run {ops : List Op} (hops : ∀ op ∈ ops, op.Feeds) {g₀ : InMemoryGraphStore}
    {s : System} (hs : g₀.SameMetrics s.graph) (hok : s.Meets Op.Succeeds ops) :
    (s.after ops).client = s.client ∧ (∀ op ∈ ops, op.Served s.client g₀) ∧
      g₀.Wrote (ops.flatMap (Op.feedWrites s.client g₀)) s.graph (s.after ops).graph := by
  induction ops generalizing s with
  | nil => exact ⟨rfl, nofun, .nil hs⟩
  | cons op ops ih =>
    rw [List.forall_mem_cons] at hops
    obtain ⟨hsucceeds, hok⟩ := hok
    have hwrote := (feed_step hops.1 hs).2 hsucceeds
    have hclient : (op.next s).client = s.client := by
      cases op <;> first | exact hops.1.elim | rfl
    obtain ⟨hafter, hserved, hrest⟩ := ih hops.2 hwrote.metrics hok
    rw [hclient] at hafter hserved hrest
    refine ⟨hafter, List.forall_mem_cons.mpr ⟨?_, hserved⟩, ?_⟩
    · exact ((feed_step hops.1 hs).1.mp hsucceeds).1
    · rw [List.flatMap_cons]
      exact hwrote.append hrest

/-- The second part of a script goes through when its writes are admitted. -/
theorem feed_again {ops : List Op} (hops : ∀ op ∈ ops, op.Feeds) {g₀ : InMemoryGraphStore}
    {s : System} (hs : g₀.SameMetrics s.graph) (hserved : ∀ op ∈ ops, op.Served s.client g₀)
    (hadmits : writes.Admits Write.Admitted (ops.flatMap (Op.feedWrites s.client g₀))
      s.graph.contents) : s.Meets Op.Succeeds ops := by
  induction ops generalizing s with
  | nil => trivial
  | cons op ops ih =>
    rw [List.forall_mem_cons] at hops hserved
    rw [List.flatMap_cons, writes.admits_append] at hadmits
    have hsucceeds := (feed_step hops.1 hs).1.mpr ⟨hserved.1, hadmits.1⟩
    have hwrote := (feed_step hops.1 hs).2 hsucceeds
    have hclient : (op.next s).client = s.client := by
      cases op <;> first | exact hops.1.elim | rfl
    refine ⟨hsucceeds, ih hops.2 hwrote.metrics ?_ ?_⟩
    · rw [hclient]
      exact hserved.2
    · rw [hclient, hwrote.contents]
      exact hadmits.2

/-- What the second part writes depends on the metrics alone. -/
theorem feed_congr {g g' : InMemoryGraphStore} (h : g.MetricsAlike g') (op : Op) :
    op.feedWrites c g = op.feedWrites c g' ∧ (op.Served c g → op.Served c g') := by
  cases op with
  | client | loadPack | resolve | confirm => exact ⟨rfl, id⟩
  | loadBundle r b =>
    obtain ⟨hwrites, hout⟩ := load_congr (c := c) (r := r) h b
    exact ⟨hwrites, fun ⟨out, hserved⟩ => ⟨out, hout ▸ hserved⟩⟩
  | runIngest source r fresh =>
    refine ⟨?_, fun hserved item hitem => (hserved item hitem).congr h⟩
    have hitems : itemWrites source c r g = itemWrites source c r g' :=
      funext (itemWrites_congr h source)
    rw [Op.feedWrites, Op.feedWrites, left, left, hitems]

/-- The second part writes to no metric. -/
theorem feedWrites_place {ops : List Op} {g₀ : InMemoryGraphStore} {k : NodeKey}
    (hk : k.label = CoreLabel.metric.value) (hw : w ∈ ops.flatMap (Op.feedWrites c g₀)) :
    writes.loc w ≠ .inl k := by
  have hload {r : Resolver} {b : ParsedBundle} (hw : w ∈ loadWrites c r g₀ b) :
      w.place ≠ .inl k := by
    intro hplace
    cases loadWrites_writes hw with
    | document | column | entity =>
      cases Sum.inl.inj hplace
      cases NodeRef.label_of_id hk
    | _ => cases hplace
  obtain ⟨op, -, hw⟩ := List.mem_flatMap.mp hw
  cases op with
  | client | loadPack | resolve | confirm => cases hw
  | loadBundle r b => exact hload hw
  | runIngest source r fresh =>
    obtain ⟨item, -, hw⟩ := List.mem_flatMap.mp hw
    rw [itemWrites] at hw
    split at hw
    · cases hw
    · split at hw
      · cases hw
      · exact hload hw

end setup

/-! ## Repetition -/

/-- The metrics of two graphs in the order of some keys. -/
theorem InMemoryGraphStore.forall₂_metricAt {g g' : InMemoryGraphStore}
    (h : ∀ k : NodeKey, k.label = CoreLabel.metric.value →
      g.contents (.inl k) = g'.contents (.inl k)) (ks : List NodeKey) :
    List.Forall₂ SameProps (ks.filterMap g.metricAt) (ks.filterMap g'.metricAt) := by
  refine List.rel_filterMap (R := Eq) (fun {k k'} hk => ?_) (List.forall₂_refl ks)
  subst hk
  rw [metricAt, metricAt]
  split
  · have hk : (g.nodes.get? k).map Dict.get? = (g'.nodes.get? k).map Dict.get? := h k ‹_›
    generalize g.nodes.get? k = x, g'.nodes.get? k = y at hk
    cases x <;> cases y <;> first | exact .none | exact .some (Option.some.inj hk) | cases hk
  · exact .none

/-- Writes that are made again, after others that touch no metric, leave the metrics as they
were. -/
theorem metricsAlike_again {g g₁ g₂ g₃ : InMemoryGraphStore} {ws ls : List Write}
    (hws : (ws.forM Write.program).run handler g = (.ok (), g₁))
    (hls : g₁.Wrote ls g₁ g₂)
    (hplace : ∀ k : NodeKey, k.label = CoreLabel.metric.value → ∀ w ∈ ls, writes.loc w ≠ .inl k)
    (hagain : (ws.forM Write.program).run handler g₂ = (.ok (), g₃)) : g₁.MetricsAlike g₃ := by
  obtain ⟨hcontents₁, hkeys₁⟩ := run_writes_ok hws
  obtain ⟨hcontents₃, hkeys₃⟩ := run_writes_ok hagain
  have h₂ (k : NodeKey) (hk : k.label = CoreLabel.metric.value) :
      g₂.contents (.inl k) = g₁.contents (.inl k) := by
    rw [hls.contents]
    exact writes.writeAll_of_not_mem (hplace k hk) _
  have h₃ (k : NodeKey) (hk : k.label = CoreLabel.metric.value) :
      g₃.contents (.inl k) = g₁.contents (.inl k) := by
    rw [hcontents₃, hls.contents, ← writeAll_append,
      writes.writeAll_append_comm (.inl (hplace k hk)), writeAll_append,
      writes.writeAll_of_not_mem (hplace k hk), hcontents₁,
      writes_absorbing.of_prefix fun _ h => h]
  refine ⟨?_, fun k => ?_⟩
  · -- the second time no metric is new
    have hnew : (Entries.newKeys g₂.nodes.keys (ws.filterMap Write.nodeKey?)).filterMap
        g₃.metricAt = [] := by
      refine List.filterMap_eq_nil_iff.mpr fun k hk => if_neg fun hlabel => ?_
      obtain ⟨hk, hold⟩ := Entries.mem_newKeys.mp hk
      have hmem : k ∈ g₁.nodes.keys := by
        rw [hkeys₁, List.mem_append, Entries.mem_newKeys]
        by_cases h : k ∈ g.nodes.keys
        · exact .inl h
        · exact .inr ⟨hk, h⟩
      obtain ⟨x, hx⟩ := Dict.mem_keys.mp hmem
      have hsome : (g₂.nodes.get? k).map Dict.get? = some x.get? :=
        (h₂ k hlabel).trans (congrArg (Option.map Dict.get?) hx)
      obtain ⟨y, hy, -⟩ := Option.map_eq_some_iff.mp hsome
      exact hold (Dict.mem_keys.mpr ⟨y, hy⟩)
    rw [← hls.metrics.metrics, metrics_eq, metrics_eq, hkeys₃, List.filterMap_append, hnew,
      List.append_nil]
    exact forall₂_metricAt (fun k hk => (h₂ k hk).trans (h₃ k hk).symm) _
  · have hk : (g₁.nodes.get? (NodeRef.metric k).id).map Dict.get? =
        (g₃.nodes.get? (NodeRef.metric k).id).map Dict.get? := (h₃ _ rfl).symm
    generalize g₁.nodes.get? _ = x, g₃.nodes.get? _ = y at hk
    cases x <;> cases y <;> first | exact .none | exact .some (Option.some.inj hk) | cases hk

section repeats
variable [Python]

omit [Python] in
/-- Writes that were admitted are admitted again. -/
theorem admits_again {ws : List Write} {A : Place → Stored}
    (h : writes.Admits Write.Admitted ws A) :
    writes.Admits Write.Admitted ws (writeAll writes.act ws A) := by
  obtain ⟨hsound, hfirst⟩ := admits_writes_iff.mp h
  refine (writes.admits_append.mp (admits_writes_iff.mpr ⟨fun w hw => ?_, fun p w hw => ?_⟩)).2
  · exact hsound w ((List.mem_append.mp hw).elim id id)
  · rw [List.find?_append, Option.or_self] at hw
    exact hfirst p w hw

/-- A script that went through goes through again, and changes nothing. -/
theorem script_again {setup feeds : List Op} (hsetup : ∀ op ∈ setup, op.SetsUp)
    (hfeeds : ∀ op ∈ feeds, op.Feeds) {s : System} (hok : s.Meets Op.Succeeds (setup ++ feeds)) :
    let s₁ := s.after (setup ++ feeds)
    s₁.Meets Op.Succeeds (setup ++ feeds) ∧
      (s₁.after (setup ++ feeds)).client = s₁.client ∧
      (s₁.after (setup ++ feeds)).graph.contents = s₁.graph.contents := by
  intro s₁
  obtain ⟨hok₁, hok₂⟩ := System.meets_append.mp hok
  obtain ⟨-, hknown, hws⟩ := setup_run hsetup hok₁ (.refl _)
  obtain ⟨hclient, hserved, hls⟩ := feed_run hfeeds (.refl _) hok₂
  rw [← System.after_append] at hclient hls
  change s₁.client = _ at hclient
  rw [← hclient] at hknown hws hls hserved
  -- what the script wrote, and writes again
  let ws := setup.flatMap (Op.setupWrites s₁.client)
  let ls := feeds.flatMap (Op.feedWrites s₁.client (s.after setup).graph)
  have hcontents : s₁.graph.contents = writeAll writes.act (ws ++ ls) s.graph.contents := by
    rw [writeAll_append, ← (run_writes_ok hws).1]
    exact hls.contents
  have hadmits : writes.Admits Write.Admitted (ws ++ ls) s₁.graph.contents := by
    rw [hcontents]
    refine admits_again (writes.admits_append.mpr ⟨run_writes.mp ⟨_, hws⟩, ?_⟩)
    rw [← (run_writes_ok hws).1]
    exact hls.admits
  obtain ⟨hadmits₁, hadmits₂⟩ := writes.admits_append.mp hadmits
  obtain ⟨hok₁', hclient'⟩ := setup_again hsetup hknown hadmits₁
  have hwithin : (s₁.after setup).client.Within s₁.client := hclient' ▸ .refl _
  obtain ⟨-, -, hws'⟩ := setup_run hsetup hok₁' hwithin
  have halike := metricsAlike_again hws hls (fun k hk w hw => feedWrites_place hk hw) hws'
  have hlsame : feeds.flatMap (Op.feedWrites s₁.client (s₁.after setup).graph) = ls :=
    congrArg feeds.flatMap (funext fun op => (feed_congr halike op).1.symm)
  have hok₂' : (s₁.after setup).Meets Op.Succeeds feeds := by
    refine feed_again hfeeds (.refl _) (fun op hop => ?_) ?_
    · rw [hclient']
      exact (feed_congr halike op).2 (hserved op hop)
    · rw [hclient', hlsame, (run_writes_ok hws').1]
      exact hadmits₂
  obtain ⟨hclient'', -, hls'⟩ := feed_run hfeeds (.refl _) hok₂'
  rw [← System.after_append s₁] at hclient'' hls'
  refine ⟨System.meets_append.mpr ⟨hok₁', hok₂'⟩, hclient''.trans hclient', ?_⟩
  rw [hls'.contents, hclient', hlsame, (run_writes_ok hws').1, ← writeAll_append, hcontents]
  exact writes_absorbing.of_prefix (fun _ h => h) _

/-- **Set-up scripts are idempotent**: a script that has gone through once goes through however
often it is repeated, and leaves the allow-lists and, as maps, the nodes and edges that one run
leaves. -/
theorem script_repeats {setup feeds : List Op} (hsetup : ∀ op ∈ setup, op.SetsUp)
    (hfeeds : ∀ op ∈ feeds, op.Feeds) {s : System} (hok : s.Meets Op.Succeeds (setup ++ feeds))
    (n : Nat) :
    let ops := (List.replicate (n + 1) (setup ++ feeds)).flatten
    s.Meets Op.Succeeds ops ∧ (s.after ops).client = (s.after (setup ++ feeds)).client ∧
      (s.after ops).graph.contents = (s.after (setup ++ feeds)).graph.contents := by
  induction n generalizing s with
  | zero =>
    have hone : (List.replicate (0 + 1) (setup ++ feeds)).flatten = setup ++ feeds :=
      List.append_nil _
    rw [hone]
    exact ⟨hok, rfl, rfl⟩
  | succ n ih =>
    obtain ⟨hok', hclient, hcontents⟩ := script_again hsetup hfeeds hok
    obtain ⟨hmeets, hafter, hgraph⟩ := ih hok'
    rw [List.replicate_succ, List.flatten_cons]
    intro ops
    rw [System.after_append s (setup ++ feeds)]
    exact ⟨System.meets_append.mpr ⟨hok, hmeets⟩, hafter.trans hclient, hgraph.trans hcontents⟩

end repeats

/-- Two packs that disagree about a metric, and two bundles that disagree about a column. -/
theorem script_repeats_disagree :
    let pack (unit : String) : Pack := {
      name := "p"
      metrics := [{ metricKey := "p.weight", unit := some unit, aliases := ["wgt"] }] }
    let bundle (dtype : String) : ParsedBundle := {
      provenance := ⟨"src", "2026", "c@1"⟩
      columns := [{ system := "s", table := "t", name := "wgt", dtype := some dtype }] }
    let r : Resolver := { suggester := fun _ _ => .ok [], queue := 0 }
    let setup : List Op := [.loadPack (pack "gram"), .loadPack (pack "kilogram")]
    let feeds : List Op := [.loadBundle r (bundle "int"), .loadBundle r (bundle "str")]
    System.initial.Meets Op.Succeeds (setup ++ feeds) ∧
      (System.initial.after (List.replicate (1 + 1) (setup ++ feeds)).flatten).graph.contents =
        (System.initial.after (setup ++ feeds)).graph.contents := by
  intro pack bundle r setup feeds
  have hsetup : ∀ op ∈ setup, op.SetsUp := by simp [setup, Op.SetsUp]
  have hfeeds : ∀ op ∈ feeds, op.Feeds := by simp [feeds, Op.Feeds]
  have hok : System.initial.Meets Op.Succeeds (setup ++ feeds) := by
    refine ⟨?_, ?_, ?_, ?_, trivial⟩ <;> (unfold Op.Succeeds; decide +kernel)
  obtain ⟨-, -, hcontents⟩ := script_repeats hsetup hfeeds hok 1
  exact ⟨hok, hcontents⟩

end MarginKG
