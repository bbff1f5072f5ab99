import MarginKG.Verify.Confirmation
import MarginKG.Verify.Ledger
import MarginKG.Verify.Verdict

/-! What waits in the escalation queue (`System.waiting_iff`).

Nothing ever leaves a queue: a resolution appends its column whether or not it already waits, and a
confirmation does not look at the queue. So a queue holds each column once, and no column whose
name was confirmed meanwhile, exactly in the runs in which no column reaches tier 3 again and no
name is confirmed that waits. The columns that reach tier 3 in a load are read off the metrics,
which a load leaves as they are (`pending_load`). -/

namespace MarginKG

open InMemoryGraphStore

section columns
variable [Python]

namespace Resolver

/-- The column reaches tier 3: the index has no metric for its name, it has no dictionary, and no
suggestion reaches the threshold. -/
def escalates (r : Resolver) (metrics : List Props) (column : ObservedColumn) : Bool :=
  match aliasIndex metrics with
  | .error _ => false
  | .ok index =>
    ((index.get? (casefold column.name)).filter (· ≠ .null)).isNone && !column.hasDictionary &&
      match termIndex metrics with
      | .error _ => false
      | .ok terms =>
        match r.suggester column terms with
        | .error _ => false
        | .ok ranked =>
          ((ranked.take r.topK).head?.filter fun top => r.threshold ≤ top.score).isNone

/-- The turn of the column raises: the index or the terms cannot be built, the suggester raises, or
the metric of its name has a key that cannot be hashed. -/
def raises (r : Resolver) (metrics : List Props) (column : ObservedColumn) : Bool :=
  match aliasIndex metrics with
  | .error _ => true
  | .ok index =>
    match (index.get? (casefold column.name)).filter (· ≠ .null) with
    | some hit => hit.truthy && !hit.hashable
    | none => !column.hasDictionary &&
      match termIndex metrics with
      | .error _ => true
      | .ok terms =>
        match r.suggester column terms with
        | .error _ => true
        | .ok _ => false

/-- The columns of a bundle that a load puts into the queue, in their order. -/
def queued (r : Resolver) (client : GraphClient) (g : InMemoryGraphStore) (bundle : ParsedBundle) :
    List ObservedColumn :=
  match ((loadRecords client bundle).run handler g).1 with
  | .error _ => []
  | .ok _ => (bundle.iterColumns.takeWhile fun col => !r.raises g.metrics col).filter
      (r.escalates g.metrics)

end Resolver

/-- The links of the outcome cannot be made. -/
def Resolution.unlinkable (outcome : Resolution) : Bool :=
  match outcome.tier, outcome.metricKey with
  | .autoLinked, some metricKey => metricKey.truthy && !metricKey.hashable
  | _, _ => false

namespace Resolver

theorem columns_verdict (r : Resolver) (metrics : List Props) (column : ObservedColumn) :
    (escalations (r.verdict metrics column).toOption.toList).map Resolution.column =
      if r.escalates metrics column then [column] else [] := by
  rw [escalates]
  have hdecides := r.decides_verdict metrics column
  generalize r.verdict metrics column = answer at hdecides
  cases hdecides with
  | unindexed hindex =>
    simp only [hindex]
    rfl
  | autoLinked hindex hfound =>
    simp only [hindex, hfound]
    rfl
  | documented hindex hfound hdocumented =>
    simp only [hindex, hfound, hdocumented]
    rfl
  | termless hindex hfound hdocumented hterms =>
    simp only [hindex, hfound, hdocumented, hterms]
    rfl
  | unranked hindex hfound hdocumented hterms hranked =>
    simp only [hindex, hfound, hdocumented, hterms, hranked]
    rfl
  | suggested hindex hfound hdocumented hterms hranked htop
  | escalated hindex hfound hdocumented hterms hranked htop =>
    simp only [hindex, hfound, hdocumented, hterms, hranked, htop]
    rfl

theorem raises_eq (r : Resolver) (metrics : List Props) (column : ObservedColumn) :
    r.raises metrics column = match r.verdict metrics column with
      | .error _ => true
      | .ok outcome => outcome.unlinkable := by
  rw [raises]
  have hdecides := r.decides_verdict metrics column
  generalize r.verdict metrics column = answer at hdecides
  cases hdecides with
  | unindexed hindex => simp only [hindex]
  | autoLinked hindex hfound => simp only [hindex, hfound, Resolution.unlinkable]
  | documented hindex hfound hdocumented =>
    simp only [hindex, hfound, hdocumented, Resolution.unlinkable]
    rfl
  | termless hindex hfound hdocumented hterms =>
    simp only [hindex, hfound, hdocumented, hterms]
    rfl
  | unranked hindex hfound hdocumented hterms hranked
  | suggested hindex hfound hdocumented hterms hranked
  | escalated hindex hfound hdocumented hterms hranked =>
    simp only [hindex, hfound, hdocumented, hterms, hranked, Resolution.unlinkable]
    rfl

end Resolver

/-! ## One load -/

omit [Python] in
/-- Links are made as long as their ends can be hashed, and leave the metrics as they are. -/
theorem links_run (prov : EdgeProvenance) (ls : List Link) (g : InMemoryGraphStore) :
    ∃ g', g'.metrics = g.metrics ∧ (ls.forM fun l => (Write.link l prov).program).run handler g =
      (if ls.all Link.hashable then .ok () else .error .typeError, g') := by
  induction ls generalizing g with
  | nil => exact ⟨g, rfl, rfl⟩
  | cons l ls ih =>
    rw [List.forM, Program.run_bind, Write.run_program, handler_link, List.all_cons]
    rcases hhash : l.hashable with _ | _
    · exact ⟨g, rfl, rfl⟩
    · obtain ⟨g', hmetrics, hrun⟩ := ih (handler (Write.link l prov).call g).2
      rw [handler_link_of_hashable g hhash] at hmetrics hrun
      refine ⟨g', hmetrics.trans ?_, hrun⟩
      rw [← metrics_link g l prov, handler_link_of_hashable g hhash]

omit [Python] in
theorem unlinkable_eq (outcome : Resolution) (col : ObservedColumn) (owner : Option String) :
    outcome.unlinkable = !(outcome.linksMade col owner).all Link.hashable := by
  rw [Resolution.unlinkable, Resolution.linksMade]
  rcases outcome.metricKey with _ | k <;> rcases outcome.tier <;> try rfl
  have hmeasures : (Link.measures col.system col.table col.name k).hashable = k.hashable :=
    Bool.true_and _
  have happlies (uid : String) : (Link.appliesTo k uid).hashable = k.hashable := Bool.and_true _
  dsimp only
  rcases k.truthy with _ | _
  · rfl
  · rcases owner with _ | uid <;> simp [hmeasures, happlies]

omit [Python] in
/-- The links of an outcome are made when they can be, and leave the metrics as they are. -/
theorem linkOutcome_run (prov : EdgeProvenance) (col : ObservedColumn) (owner : Option String)
    (outcome : Resolution) (g : InMemoryGraphStore) :
    ∃ g', g'.metrics = g.metrics ∧ (linkOutcome prov col owner outcome).run handler g =
      (if outcome.unlinkable then .error .typeError else .ok (), g') := by
  obtain ⟨g', hmetrics, hrun⟩ := links_run prov (outcome.linksMade col owner) g
  refine ⟨g', hmetrics, ?_⟩
  rw [linkOutcome_eq, hrun, unlinkable_eq outcome col owner]
  rcases (outcome.linksMade col owner).all Link.hashable with _ | _ <;> rfl

/-- The columns that the loop of a load puts into the queue. -/
theorem columns_returned (r : Resolver) (prov : EdgeProvenance)
    (owners : Dict (String × String × String) String) (cols : List ObservedColumn)
    (w : ResolverState InMemoryGraphStore) :
    (escalations (resolutionsReturned handler r prov owners cols w)).map Resolution.column =
      (cols.takeWhile fun col => !r.raises w.store.metrics col).filter
        (r.escalates w.store.metrics) := by
  induction cols generalizing w with
  | nil => rfl
  | cons col cols ih =>
    have hcolumns := r.columns_verdict w.store.metrics col
    have hraises := r.raises_eq w.store.metrics col
    rw [resolutionsReturned, r.resolve_run]
    rcases hverdict : r.verdict w.store.metrics col with e | outcome <;>
      rw [hverdict] at hcolumns hraises <;> dsimp only at hraises ⊢
    · rw [List.takeWhile_cons_of_neg (by simpa using hraises)]
      rfl
    obtain ⟨g, hmetrics, hlink⟩ := linkOutcome_run prov col (owners.get? col.key) outcome
      (w.receive r.queue (.ok outcome)).store
    rw [hlink, escalations_cons, List.map_append]
    replace hcolumns : (escalations [outcome]).map Resolution.column =
      if r.escalates w.store.metrics col then [col] else [] := hcolumns
    rw [hcolumns]
    rcases hout : outcome.unlinkable with _ | _
    · rw [List.takeWhile_cons_of_pos (by rw [hraises, hout]; rfl), List.filter_cons]
      simp only [Bool.false_eq_true, if_false]
      rw [ih, hmetrics]
      split <;> rfl
    · rw [List.takeWhile_cons_of_neg (by simp [hraises, hout])]
      -- links that cannot be made are those of a column that auto-linked
      have hescalates : r.escalates w.store.metrics col = false := by
        by_contra h
        rw [if_pos (Bool.not_eq_false _ ▸ h)] at hcolumns
        rcases htier : outcome.tier with _ | _ | _ | _ <;>
          simp [escalations, Resolution.unlinkable, htier] at hcolumns hout
      rw [hescalates]
      rfl

/-- A load appends to the queue the columns that reach tier 3. -/
theorem pending_load (client : GraphClient) (r : Resolver) (bundle : ParsedBundle)
    {w : ResolverState InMemoryGraphStore} (hq : r.queue < w.queues.length) :
    ∃ new, ((loadBundle client r bundle).run (ResolverState.handler handler) w).2.pending r.queue =
        w.pending r.queue ++ new ∧
      new.map Resolution.column = r.queued client w.store bundle := by
  have hmetrics := (Keeps.of_graph (P := bundle.Writes client)
    (I := fun g => g.metrics = w.store.metrics) fun _ g hw hg => (hw.metrics_eq g).trans hg).run
      (l := []) (loadRecords_uses client bundle) rfl
  rw [loadBundle, Program.run_bind, ResolverState.run_liftStore, Resolver.queued]
  rcases hrecords : (loadRecords client bundle).run handler w.store with ⟨e | _, g⟩ <;>
    rw [hrecords] at hmetrics
  · exact ⟨[], (List.append_nil _).symm, rfl⟩
  · refine ⟨_, pending_loop handler r _ _ _ { w with store := g } hq, ?_⟩
    rw [columns_returned, show g.metrics = w.store.metrics from hmetrics]

/-! ## One ingest -/

namespace IngestRun

variable (run : IngestRun InMemoryGraphStore)

/-- The bundle that is loaded in an item's turn. -/
def opened (item : WorkItem) (ledger : Finset (String × String)) : Option ParsedBundle :=
  if item.key ∈ ledger then none
  else (run.source.fetch item).toOption.bind fun artifact => (run.source.parse artifact).toOption

/-- The columns that the loop over some items puts into the queue, in their order. -/
def queued : List WorkItem → IngestState InMemoryGraphStore → List ObservedColumn
  | [], _ => []
  | item :: items, w =>
    (run.opened item w.ledger).toList.flatMap (run.resolver.queued run.client w.world.store) ++
      match run.takeUp handler item w with
      | (.error _, _) => []
      | (.ok _, w') => queued items w'

theorem pending_takeUp (item : WorkItem) {w : IngestState InMemoryGraphStore}
    (hq : run.resolver.queue < w.world.queues.length) :
    ∃ new, (run.takeUp handler item w).2.world.pending run.resolver.queue =
        w.world.pending run.resolver.queue ++ new ∧
      new.map Resolution.column = (run.opened item w.ledger).toList.flatMap
        (run.resolver.queued run.client w.world.store) := by
  rw [takeUp, opened]
  by_cases hkey : item.key ∈ w.ledger
  · rw [if_pos hkey, if_pos hkey]
    exact ⟨[], (List.append_nil _).symm, rfl⟩
  rw [if_neg hkey, if_neg hkey]
  rcases run.source.fetch item with e | artifact
  · exact ⟨[], (List.append_nil _).symm, rfl⟩
  simp only [Except.toOption, Option.bind_some]
  rcases run.source.parse artifact with e | bundle
  · exact ⟨[], (List.append_nil _).symm, rfl⟩
  obtain ⟨new, hpending, hnew⟩ := pending_load run.client run.resolver bundle hq
  refine ⟨new, ?_, by simpa using hnew⟩
  rw [← hpending]
  dsimp only
  rcases (loadBundle run.client run.resolver bundle).run (ResolverState.handler handler) w.world
    with ⟨e | resolutions, world⟩ <;> rfl

theorem queues_takeUp (item : WorkItem) (w : IngestState InMemoryGraphStore) :
    (run.takeUp handler item w).2.world.queues.length = w.world.queues.length := by
  rw [takeUp]
  split
  · rfl
  split
  · rfl
  split
  · rfl
  rename_i bundle _
  have hlength := queues_length_run handler (loadBundle run.client run.resolver bundle) w.world
  rcases hrun : (loadBundle run.client run.resolver bundle).run (ResolverState.handler handler)
    w.world with ⟨e | resolutions, world⟩ <;> rwa [hrun] at hlength

/-- An ingest appends to the queue the columns that reach tier 3 in its loads. -/
theorem waiting_loop (report : IngestReport) (items : List WorkItem)
    {w : IngestState InMemoryGraphStore} (hq : run.resolver.queue < w.world.queues.length) :
    let w' := ((run.loop report items).run (run.answers handler) w).2
    run.resolver.queue < w'.world.queues.length ∧
    ∃ new, w'.world.pending run.resolver.queue = w.world.pending run.resolver.queue ++ new ∧
      new.map Resolution.column = run.queued items w := by
  induction items generalizing report w with
  | nil => exact ⟨hq, [], (List.append_nil _).symm, rfl⟩
  | cons item items ih =>
    obtain ⟨new, hpending, hnew⟩ := run.pending_takeUp item hq
    have hlength := run.queues_takeUp item w
    rw [queued, ← hnew]
    rcases hturn : run.takeUp handler item w with ⟨e | outcome, w'⟩ <;>
      rw [hturn] at hpending hlength
    · rw [run_loop_error hturn]
      exact ⟨hlength ▸ hq, new, hpending, (List.append_nil _).symm⟩
    · rw [run_loop_ok hturn]
      obtain ⟨hq', rest, hpending', hrest⟩ := ih (report.add outcome) (hlength ▸ hq)
      refine ⟨hq', new ++ rest, ?_, by rw [List.map_append, hrest]⟩
      rw [hpending', hpending, List.append_assoc]

end IngestRun

/-! ## Runs -/

/-- What waits in the queue of a resolver. -/
abbrev System.waiting (s : System) (r : Resolver) : List Resolution :=
  s.state.world.pending r.queue

namespace Op

/-- The operation is a load, an ingest or a confirmation, by this resolver. -/
def On (r : Resolver) : Op → Prop
  | .loadBundle r' _ | .runIngest _ r' _ => r' = r
  | .confirm .. => True
  | _ => False

/-- The columns that reach tier 3 in an operation, in their order. -/
def queued (s : System) : Op → List ObservedColumn
  | .loadBundle r bundle => r.queued s.client s.graph bundle
  | .runIngest source r fresh =>
    (IngestRun.mk source s.client r s.state.world).queued source.discover
      { s.state with ledger := if fresh then ∅ else s.state.ledger }
  | _ => []

/-- No column reaches tier 3 in the operation that waits already, and none does so twice; nothing
is confirmed that waits. -/
structure Enters (r : Resolver) (s : System) (op : Op) : Prop where
  new : ∀ col ∈ op.queued s, ∀ x ∈ s.waiting r, x.column.key ≠ col.key
  apart : ((op.queued s).map ObservedColumn.key).Nodup
  confirms : ∀ col metricKey prov, op = .confirm col metricKey prov →
    TakesAlias (s.graph.node (.metric (.str metricKey))) →
    ∀ x ∈ s.waiting r, x.column.name ≠ col.name

variable {r : Resolver} {s : System} {op : Op}

/-- An operation appends to the queue the columns that reach tier 3 in it. -/
theorem On.waiting_next (hop : op.On r) (hq : r.queue < s.state.world.queues.length) :
    r.queue < (op.next s).state.world.queues.length ∧
    ∃ new, (op.next s).waiting r = s.waiting r ++ new ∧
      new.map Resolution.column = op.queued s := by
  cases op with
  | loadBundle r' bundle =>
    cases hop
    exact ⟨(queues_length_run handler _ s.state.world).symm ▸ hq, pending_load s.client r bundle hq⟩
  | confirm col metricKey prov => exact ⟨hq, [], (List.append_nil _).symm, rfl⟩
  | runIngest source r' fresh =>
    cases hop
    exact IngestRun.waiting_loop ⟨source, s.client, r, s.state.world⟩ {} source.discover
      (w := { s.state with ledger := if fresh then ∅ else s.state.ledger }) hq
  | _ => exact hop.elim

/-- The operation keeps the queue free of repetitions exactly when what it adds is new. -/
theorem On.nodup_next (hop : op.On r) (hq : r.queue < s.state.world.queues.length)
    (hs : ((s.waiting r).map (·.column.key)).Nodup) :
    (((op.next s).waiting r).map (·.column.key)).Nodup ↔
      (∀ col ∈ op.queued s, ∀ x ∈ s.waiting r, x.column.key ≠ col.key) ∧
        ((op.queued s).map ObservedColumn.key).Nodup := by
  obtain ⟨-, new, hwaiting, hnew⟩ := hop.waiting_next hq
  have hkeys : new.map (·.column.key) = (op.queued s).map ObservedColumn.key := by
    rw [← hnew, List.map_map]
    rfl
  rw [hwaiting, List.map_append, hkeys, List.nodup_append, and_iff_right hs, and_comm]
  refine and_congr_left fun _ => ⟨fun h col hcol x hx => ?_, fun h a ha b hb => ?_⟩
  · exact h _ (List.mem_map_of_mem hx) _ (List.mem_map_of_mem hcol)
  · obtain ⟨x, hx, rfl⟩ := List.mem_map.mp ha
    obtain ⟨col, hcol, rfl⟩ := List.mem_map.mp hb
    exact h col hcol x hx

end Op

namespace System

/-- The queue of the resolver after a sequence of operations: it lists each column once, and none
whose name was confirmed while it waited; a bundle that was loaded twice left it as it was after
the first time. -/
structure WaitsOnce (s : System) (r : Resolver) (ops : List Op) : Prop where
  once : (((s.after ops).waiting r).map (·.column.key)).Nodup
  unconfirmed : ∀ pre col metricKey prov post, ops = pre ++ .confirm col metricKey prov :: post →
    ((Op.confirm col metricKey prov).exec (s.after pre)).1 = .ok () →
    ∀ x, (∀ mid, mid <+: Op.confirm col metricKey prov :: post →
      x ∈ (s.after (pre ++ mid)).waiting r) → x.column.name ≠ col.name
  again : ∀ pre bundle, ops = pre ++ [.loadBundle r bundle, .loadBundle r bundle] →
    ((Op.loadBundle r bundle).exec (s.after pre)).1 = .ok () →
    (s.after ops).waiting r = (s.after (pre ++ [.loadBundle r bundle])).waiting r

variable {r : Resolver} {s : System}

/-- A confirmation returns when the metric takes another alias. -/
theorem confirm_exec_ok : ((Op.confirm col metricKey prov).exec s).1 = .ok () ↔
    TakesAlias (s.graph.node (.metric (.str metricKey))) := by
  change ((Resolver.confirm col metricKey prov).run handler s.graph).1 = .ok () ↔ _
  rcases confirm_spec s.graph col metricKey prov with ⟨htakes, g', new, hrun, -⟩ | ⟨htakes, hrun⟩
  · rw [hrun]
    exact iff_of_true rfl htakes
  · exact iff_of_false (fun h => hrun _ (Prod.ext h rfl)) htakes

/-- A confirmation leaves the queue as it is, so under the law it is for no name that waits. -/
theorem WaitsOnce.confirmed (h : s.WaitsOnce r (pre ++ [.confirm col metricKey prov]))
    (hok : ((Op.confirm col metricKey prov).exec (s.after pre)).1 = .ok ()) :
    ∀ x ∈ (s.after pre).waiting r, x.column.name ≠ col.name := by
  intro x hx
  refine h.unconfirmed pre col metricKey prov [] rfl hok x fun mid hmid => ?_
  rcases List.prefix_cons_iff.mp hmid with rfl | ⟨rest, rfl, hrest⟩
  · rwa [List.append_nil]
  · rw [List.prefix_nil.mp hrest, after_append]
    exact hx

/-- After a load that returned, the columns that reach tier 3 when it is repeated wait already. -/
theorem queued_again (hq : r.queue < s.state.world.queues.length) {bundle : ParsedBundle}
    (hload : ((Op.loadBundle r bundle).exec s).1 = .ok ()) :
    ∀ col ∈ (Op.loadBundle r bundle).queued ((Op.loadBundle r bundle).next s),
      ∃ x ∈ ((Op.loadBundle r bundle).next s).waiting r, x.column = col := by
  intro col hcol
  let s' := (Op.loadBundle r bundle).next s
  have hmetrics : s'.graph.metrics = s.graph.metrics := Op.Ingests.metrics_eq trivial
  have hop : (Op.loadBundle r bundle).On r := rfl
  obtain ⟨-, new, hwaiting, hnew⟩ := hop.waiting_next hq
  have hcol : col ∈ r.queued s.client s.graph bundle := by
    have hcol : col ∈ r.queued s.client s'.graph bundle := hcol
    rw [Resolver.queued] at hcol ⊢
    rcases hrecords : ((loadRecords s.client bundle).run handler s.graph) with ⟨e | _, g⟩
    · change Except.map _ ((loadBundle s.client r bundle).run _ s.state.world).1 = _ at hload
      rw [loadBundle, Program.run_bind, ResolverState.run_liftStore, hrecords] at hload
      cases hload
    · rw [hmetrics] at hcol
      split at hcol
      · cases hcol
      · exact hcol
  have hcol : col ∈ new.map Resolution.column := hnew ▸ hcol
  obtain ⟨x, hx, rfl⟩ := List.mem_map.mp hcol
  exact ⟨x, hwaiting ▸ List.mem_append_right _ hx, rfl⟩

theorem queues_after (hq : r.queue < s.state.world.queues.length) {ops : List Op}
    (hops : ∀ op ∈ ops, op.On r) : r.queue < (s.after ops).state.world.queues.length := by
  induction ops generalizing s with
  | nil => exact hq
  | cons op ops ih =>
    have hop := hops op List.mem_cons_self
    exact ih (hop.waiting_next hq).1 fun op' hop' => hops op' (List.mem_cons_of_mem _ hop')

/-- Along a run whose operations meet the condition the queue lists each column once. -/
theorem nodup_after (hq : r.queue < s.state.world.queues.length)
    (hs : ((s.waiting r).map (·.column.key)).Nodup) {ops : List Op} (hops : ∀ op ∈ ops, op.On r)
    (hmeets : s.Meets (Op.Enters r) ops) :
    (((s.after ops).waiting r).map (·.column.key)).Nodup := by
  induction ops generalizing s with
  | nil => exact hs
  | cons op ops ih =>
    have hop := hops op List.mem_cons_self
    refine ih (hop.waiting_next hq).1 ?_ (fun op' hop' => hops op' (List.mem_cons_of_mem _ hop'))
      hmeets.2
    exact (hop.nodup_next hq hs).mpr ⟨hmeets.1.new, hmeets.1.apart⟩

/-- **What waits, waits once**, in every state that a run reaches, exactly when no operation
repeats an escalation that waits or confirms a name that waits. -/
theorem waiting_iff (hq : r.queue < s.state.world.queues.length)
    (hs : ((s.waiting r).map (·.column.key)).Nodup) {ops : List Op} (hops : ∀ op ∈ ops, op.On r) :
    (∀ pre, pre <+: ops → s.WaitsOnce r pre) ↔ s.Meets (Op.Enters r) ops := by
  constructor
  · intro h
    refine meets_of_at fun pre op post heq => ?_
    subst heq
    have hop : op.On r := hops op (List.mem_append_right _ List.mem_cons_self)
    have hpre : ∀ op ∈ pre, op.On r := fun op' hop' => hops op' (List.mem_append_left _ hop')
    have hqpre := queues_after hq hpre
    have hnext := h (pre ++ [op]) ⟨post, List.append_assoc ..⟩
    have hafter : s.after (pre ++ [op]) = op.next (s.after pre) := by rw [after_append]; rfl
    have honce := hnext.once
    rw [hafter, hop.nodup_next hqpre (h pre (List.prefix_append ..)).once] at honce
    refine ⟨honce.1, honce.2, fun col metricKey prov hconfirm htakes x hx => ?_⟩
    subst hconfirm
    exact hnext.confirmed (confirm_exec_ok.mpr htakes) x hx
  · rintro h pre ⟨post, rfl⟩
    have hpre : ∀ op ∈ pre, op.On r := fun op hop => hops op (List.mem_append_left _ hop)
    have hmeets := (meets_append.mp h).1
    refine ⟨nodup_after hq hs hpre hmeets, ?_, ?_⟩
    · rintro t col metricKey prov post rfl hok x hx
      refine hmeets.at.confirms col metricKey prov rfl (confirm_exec_ok.mp hok) x ?_
      simpa using hx [] List.nil_prefix
    · rintro t bundle rfl hok
      let load : Op := .loadBundle r bundle
      have hqt : r.queue < (s.after t).state.world.queues.length :=
        queues_after hq fun op hop => hpre op (List.mem_append_left _ hop)
      have hsecond : Op.Enters r (load.next (s.after t)) load := (meets_append.mp hmeets).2.2.1
      have hop : load.On r := rfl
      obtain ⟨hq', -⟩ := hop.waiting_next hqt
      obtain ⟨-, new, hwaiting, hnew⟩ := hop.waiting_next hq'
      have hempty : load.queued (load.next (s.after t)) = [] := by
        refine List.eq_nil_iff_forall_not_mem.mpr fun col hcol => ?_
        obtain ⟨x, hx, rfl⟩ := queued_again hqt hok col hcol
        exact hsecond.new _ hcol x hx rfl
      rw [hempty, List.map_eq_nil_iff] at hnew
      rw [hnew, List.append_nil] at hwaiting
      rw [after_append, after_append]
      exact hwaiting

end System

end columns

namespace System

/-- A column that waits, and a confirmation of another name. -/
theorem waiting_once :
    let r : Resolver := ⟨fun _ _ => .ok [], 6 / 10, 3, 0⟩
    let b : ParsedBundle := {
      provenance := ⟨"src", "2026", "c@1"⟩
      columns := [{ system := "erp", table := "orders", name := "xyz" }] }
    let ops : List Op := [.loadBundle r b,
      .confirm { system := "erp", table := "orders", name := "weight" } "p.weight" ⟨"r", "t", "u"⟩]
    ∀ pre, pre <+: ops → WaitsOnce ⟨∅, ⟨⟨∅, [[]]⟩, ∅⟩⟩ r pre := by
  intro r b ops
  let s : System := ⟨∅, ⟨⟨∅, [[]]⟩, ∅⟩⟩
  have hqueued : (Op.loadBundle r b).queued s =
      [{ system := "erp", table := "orders", name := "xyz" }] := by decide +kernel
  have hwaiting : ∀ x ∈ ((Op.loadBundle r b).next s).waiting r, x.column.name = "xyz" := by
    decide +kernel
  refine (waiting_iff (s := s) (r := r) (by decide) List.nodup_nil (by simp [ops, Op.On])).mpr
    ⟨⟨fun _ _ => nofun, ?_, nofun⟩, ⟨nofun, List.nodup_nil, ?_⟩, trivial⟩
  · rw [hqueued]
    exact List.nodup_singleton _
  · rintro col metricKey prov heq - x hx
    obtain ⟨rfl, -, -⟩ := Op.confirm.inj heq
    rw [hwaiting x hx]
    decide

/-- A column waits twice once its bundle was loaded twice, and still waits when its name was
confirmed. -/
theorem waiting_twice :
    let r : Resolver := ⟨fun _ _ => .ok [], 6 / 10, 3, 0⟩
    let col : ObservedColumn := { system := "erp", table := "orders", name := "xyz" }
    let load : Op := .loadBundle r { provenance := ⟨"src", "2026", "c@1"⟩, columns := [col] }
    let s : System := ⟨∅, ⟨⟨∅, [[]]⟩, ∅⟩⟩
    ¬ s.WaitsOnce r [load, load] ∧
      ¬ s.WaitsOnce r ([load] ++ [.confirm col "p.weight" ⟨"r", "t", "u"⟩]) := by
  intro r col load s
  constructor
  · intro h
    have htwice : ¬ (((s.after [load, load]).waiting r).map (·.column.key)).Nodup := by
      decide +kernel
    exact htwice h.once
  · intro h
    have hload : { column := col, tier := .escalated } ∈ (s.after [load]).waiting r := by
      decide +kernel
    have hok : ((Op.confirm col "p.weight" ⟨"r", "t", "u"⟩).exec (s.after [load])).1 = .ok () := by
      decide +kernel
    exact absurd rfl (WaitsOnce.confirmed h hok _ hload)

end System

end MarginKG
