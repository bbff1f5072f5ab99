import MarginKG.Verify.RateLimit
import MarginKG.Verify.Resume
import MarginKG.Verify.Synthetic

/-! Which rates let `run_ingest` over the reference connector finish (`throttled_completes_iff`).

A bucket of capacity one or more gives a token to every fetch, after a sleep no longer than the
token takes to refill (`Limiter.acquire_one`). The default capacity is the rate, and a bucket that
holds less than one token refuses every fetch. Either way the run is one over a source without a
limiter (`throttled`), on which the results about the ledger apply. -/

namespace MarginKG

namespace Limiter

variable [PyFloat] {τ : Type} {C : Clock τ} {L : Limiter C}

/-- A bucket that can hold a token gives one, after a sleep that is no longer than the token
takes. -/
theorem acquire_one (hC : C.Exact) (hL : L.Reachable) (hcap : 1 ≤ L.bucket.capacity) :
    ∃ pauses, (L.acquire 1).1 = .ok pauses ∧ pauses.sum ≤ 1 / L.bucket.rate := by
  refine ⟨_, congrArg Prod.fst (acquire_of_le hcap), ?_⟩
  rw [(acquireLoop_time hC hcap).1]
  have hrate := L.bucket.rate_pos
  have hthere : 0 ≤ (L.bucket.refill (C.time L.world)).tokens :=
    ((hL.within (by linarith)).refill L.last_le).nonneg
  apply div_le_div_of_nonneg_right _ hrate.le
  exact max_le zero_le_one (by linarith)

theorem acquire_capacity (L : Limiter C) (n : ℚ) :
    (L.acquire n).2.bucket.capacity = L.bucket.capacity := by
  rcases lt_or_ge L.bucket.capacity n with hlt | hle
  · rw [acquire_of_lt hlt]
  · rw [acquire_of_le hle, (acquireLoop_bucket hle).1, TokenBucket.calls_capacity]

theorem acquire_rate (L : Limiter C) (n : ℚ) : (L.acquire n).2.bucket.rate = L.bucket.rate := by
  rcases lt_or_ge L.bucket.capacity n with hlt | hle
  · rw [acquire_of_lt hlt]
  · rw [acquire_of_le hle, (acquireLoop_bucket hle).1, TokenBucket.calls_rate]

omit [PyFloat] in
theorem init_ok (C : Clock τ) (w : τ) (hrate : 0 < rate) :
    ∃ L, Limiter.init C rate none w = .ok L := by
  rw [Limiter.init]
  split
  · rename_i hbucket
    rw [TokenBucket.init, dif_neg hrate.not_ge] at hbucket
    cases hbucket
  · exact ⟨_, rfl⟩

/-- A limiter of this rate, with the default capacity. -/
structure HasRate (rate : ℚ) (L : Limiter C) : Prop where
  reachable : L.Reachable
  rate_eq : L.bucket.rate = rate
  capacity_eq : L.bucket.capacity = rate

theorem HasRate.init {w : τ} (hL : Limiter.init C rate none w = .ok L) : HasRate rate L := by
  have hreachable : L.Reachable := .init hL
  rw [Limiter.init] at hL
  split at hL <;> cases hL
  rename_i bucket hbucket
  rw [TokenBucket.init] at hbucket
  split at hbucket <;> cases hbucket
  exact ⟨hreachable, rfl, rfl⟩

theorem HasRate.acquire (hL : HasRate rate L) : HasRate rate (L.acquire 1).2 where
  reachable := hL.reachable.acquire zero_le_one
  rate_eq := (L.acquire_rate 1).trans hL.rate_eq
  capacity_eq := (L.acquire_capacity 1).trans hL.capacity_eq

theorem HasRate.pos (hL : HasRate rate L) : 0 < rate := hL.rate_eq ▸ L.bucket.rate_pos

end Limiter

open Limiter

/-! ## The connector without its limiter -/

section runs
variable [Python] [PyFloat] [ObjectTypes] {σ τ : Type} {C : Clock τ} {src : SyntheticSource}
  {h : Handler StoreCall StoreCall.Reply PyErr σ} {rate : ℚ}

/-- The connector as a source that stands for it together with a limiter of this rate. -/
def SyntheticSource.throttled (src : SyntheticSource) (rate : ℚ) : Source where
  discover := src.discover
  fetch item :=
    if rate < 1 then .error <| .valueError <| "cannot acquire " ++ str 1 ++
      " tokens; bucket capacity is " ++ str rate
    else src.pull item
  parse := src.parse

/-- What the limiter does to a fetch. -/
theorem SyntheticSource.fetch_eq (hC : C.Exact) {L : Limiter C} (hL : HasRate rate L)
    (item : WorkItem) : ∃ pauses,
      src.fetch item L = ((src.throttled rate).fetch item, pauses, (L.acquire 1).2) ∧
        pauses.sum ≤ 1 / rate := by
  by_cases hrate : rate < 1
  · have hacquire := acquire_of_lt (L := L) (hL.capacity_eq ▸ hrate)
    refine ⟨[], ?_, (div_pos zero_lt_one hL.pos).le⟩
    simp only [fetch, throttled, if_pos hrate, hacquire, hL.capacity_eq]
  · have hcap : 1 ≤ L.bucket.capacity := hL.capacity_eq ▸ not_lt.mp hrate
    obtain ⟨pauses, hpauses, hsum⟩ := acquire_one hC hL.reachable hcap
    refine ⟨pauses, ?_, hL.rate_eq ▸ hsum⟩
    have hacquire : L.acquire 1 = (.ok pauses, (L.acquire 1).2) := Prod.ext hpauses rfl
    have hpull : (src.throttled rate).fetch item = src.pull item := if_neg hrate
    rw [hpull, fetch, hacquire]

/-- The states of the connector with its limiter, and of the source that stands for both. -/
structure LimitedState.Stands (rate : ℚ) (w : LimitedState σ C) (v : IngestState σ) : Prop where
  ingest : w.ingest = v
  limiter : HasRate rate w.limiter

namespace LimitedState

theorem stands_handler (hC : C.Exact) (c : IngestCall) (w : LimitedState σ C) (v : IngestState σ)
    (hw : Stands rate w v) :
    (handler src h c w).1 = (IngestState.handler (src.throttled rate) h c v).1 ∧
      Stands rate (handler src h c w).2 (IngestState.handler (src.throttled rate) h c v).2 := by
  obtain ⟨rfl, hlimiter⟩ := hw
  cases c with
  | resolver c | hasSeen key | markDone key => exact ⟨rfl, rfl, hlimiter⟩
  | fetch item =>
    obtain ⟨pauses, hfetch, -⟩ := src.fetch_eq hC hlimiter item
    rw [handler, hfetch]
    exact ⟨rfl, rfl, hlimiter.acquire⟩

/-- What was slept when some calls have been made from the state `w₀`. -/
structure Slept (rate : ℚ) (w₀ : LimitedState σ C) (l : List IngestCall) (w : LimitedState σ C) :
    Prop where
  limiter : HasRate rate w.limiter
  slept : w.slept ≤ w₀.slept + (l.filterMap IngestCall.fetched?).length / rate

theorem slept_handler (hC : C.Exact) {w₀ w : LimitedState σ C} {l : List IngestCall}
    (c : IngestCall) (hw : Slept rate w₀ l w) :
    Slept rate w₀ (l ++ [c]) (handler src h c w).2 := by
  obtain ⟨hlimiter, hslept⟩ := hw
  cases c with
  | resolver c | hasSeen key | markDone key =>
    refine ⟨hlimiter, ?_⟩
    rw [List.filterMap_append]
    exact (List.append_nil (l.filterMap IngestCall.fetched?)).symm ▸ hslept
  | fetch item =>
    obtain ⟨pauses, hfetch, hsum⟩ := src.fetch_eq hC hlimiter item
    rw [handler, hfetch]
    refine ⟨hlimiter.acquire, ?_⟩
    rw [List.filterMap_append, List.length_append]
    change w.slept + pauses.sum ≤ _ + ((_ + 1 : Nat) : ℚ) / rate
    rw [Nat.cast_add, Nat.cast_one, add_div]
    linarith

end LimitedState

/-! ## Runs -/

namespace IngestRun

variable {run : IngestRun σ} {w w' : IngestState σ}

omit [PyFloat] [ObjectTypes] in
/-- A loop over items that the ledger has completes, and does nothing. -/
theorem loop_of_seen {items : List WorkItem} (hseen : ∀ item ∈ items, item.key ∈ w.ledger)
    (report : IngestReport) :
    ∃ report', (run.loop report items).run (run.answers h) w = (.ok report', w) := by
  induction items generalizing report with
  | nil => exact ⟨report, rfl⟩
  | cons item items ih =>
    rw [List.forall_mem_cons] at hseen
    have hturn : run.takeUp h item w = (.ok .skipped, w) := if_pos hseen.1
    rw [run_loop_ok hturn]
    exact ih hseen.2 _

omit [PyFloat] [ObjectTypes] in
/-- A loop over a source that gives nothing completes only when the ledger has all items. -/
theorem seen_of_loop {report report' : IngestReport} {items : List WorkItem}
    (hfetch : ∀ item, ∃ e, run.source.fetch item = .error e)
    (hrun : (run.loop report items).run (run.answers h) w = (.ok report', w')) :
    ∀ item ∈ items, item.key ∈ w.ledger := by
  have hnone : Turn.ingestedKeys (run.loopTurns h items w) = [] := by
    rw [Turn.ingestedKeys, List.map_eq_nil_iff, List.filter_eq_nil_iff]
    intro t ht hingested
    obtain ⟨⟨bundle, resolutions⟩, hb⟩ := Option.isSome_iff_exists.mp hingested
    obtain ⟨artifact, hok, -⟩ := bundle_of_loopTurns ht hb
    obtain ⟨e, herror⟩ := hfetch t.item
    cases hok.symm.trans herror
  have hledger : ((run.loop report items).run (run.answers h) w).2.ledger = _ :=
    loop_ledger report items w
  rw [hrun, hnone, List.toFinset_nil, Finset.union_empty] at hledger
  exact hledger ▸ loop_done hrun

/-- The call returns. -/
def Completes (h : Handler StoreCall StoreCall.Reply PyErr σ) (run : IngestRun σ)
    (ledger : Finset (String × String)) : Prop :=
  ∃ report, (run.result h ledger).1 = .ok report

/-- The call of `run_ingest` over the connector with no limiter. -/
abbrev unlimited (src : SyntheticSource) (client : GraphClient) (r : Resolver)
    (world : ResolverState σ) : IngestRun σ :=
  ⟨src.toSource, client, r, world⟩

/-- With a limiter the call completes when it does without, unless it has something to fetch at a
rate below one. -/
theorem completes_throttled_iff {client : GraphClient} {r : Resolver} {world : ResolverState σ}
    {ledger : Finset (String × String)} :
    Completes h ⟨src.throttled rate, client, r, world⟩ ledger ↔
      (1 ≤ rate ∨ ∀ item ∈ src.discover, item.key ∈ ledger) ∧
        Completes h (unlimited src client r world) ledger := by
  rcases lt_or_ge rate 1 with hlt | hle
  · rw [or_iff_right hlt.not_ge]
    constructor
    · rintro ⟨report, hok⟩
      have hseen : ∀ item ∈ src.discover, item.key ∈ ledger :=
        seen_of_loop (fun item => ⟨_, if_pos hlt⟩) (Prod.ext hok rfl)
      exact ⟨hseen, (loop_of_seen hseen {}).imp fun _ => congrArg Prod.fst⟩
    · rintro ⟨hseen, -⟩
      exact (loop_of_seen hseen {}).imp fun _ => congrArg Prod.fst
  · have hsource : src.throttled rate = src.toSource :=
      congrArg (Source.mk src.discover · src.parse) (funext fun item => if_neg hle.not_gt)
    rw [hsource, and_iff_right (.inl hle)]

end IngestRun

/-! ## Loads that return -/

open InMemoryGraphStore

/-- Every node has its labels, and every metric a key and aliases that can be read. -/
structure InMemoryGraphStore.Readable (g : InMemoryGraphStore) : Prop where
  labels : ∀ k x, g.nodes.get? k = some x → ∃ labels, x.get? "_labels" = some (.set labels)
  aliases : ∀ m ∈ g.metrics, ∃ aliases, aliasesOf m = .ok aliases
  key : ∀ m ∈ g.metrics, ∃ k, m.get? "metric_key" = some (.str k)

/-- The suggester raises nothing. -/
def Resolver.Total (r : Resolver) : Prop :=
  ∀ col terms, ∃ ranked, r.suggester col terms = .ok ranked

section loads
omit [PyFloat] [ObjectTypes]

variable {g : InMemoryGraphStore} {c : GraphClient} {r : Resolver} {b : ParsedBundle}

omit [Python] in
/-- A write that is not to a metric and leaves `_labels` alone is carried out. -/
theorem node_succeeds {n : NodeRef} (hn : n.hashable) (hlabel : n.label ≠ .metric)
    {setProps : Props} (hset : setProps.get? "_labels" = none) (extraLabels : List String) :
    (Write.node n setProps extraLabels).program.Succeeds handler Readable fun _ => True := by
  refine Program.Succeeds.call (Q := fun _ => True) (fun g hg => ?_) fun _ _ => .ret trivial
  obtain ⟨labels, hlabels⟩ : ∃ labels, (g.node n).get? "_labels" = some (.set labels) := by
    rcases hk : g.nodes.get? n.id with _ | x
    · exact ⟨{n.label.value}, by simp [InMemoryGraphStore.node, hk, freshNode]⟩
    · simpa [InMemoryGraphStore.node, hk] using hg.labels _ _ hk
  have hmetrics := metrics_node_of_ne g hlabel setProps extraLabels
  refine ⟨(), (handler (Write.node n setProps extraLabels).call g).2, ?_, ⟨?_, ?_, ?_⟩, trivial⟩
  · rw [handler_node_of_hashable g hn, updateNode_labels hlabels hset]
    rfl
  · refine forall_nodes_node hg.labels fun _ => ?_
    rw [updateNode_labels hlabels hset]
    exact ⟨_, Dict.get?_set_self ..⟩
  · exact hmetrics ▸ hg.aliases
  · exact hmetrics ▸ hg.key

omit [Python] in
theorem link_succeeds {l : Link} (hl : l.hashable) (prov : EdgeProvenance) :
    (Write.link l prov).program.Succeeds handler Readable fun _ => True := by
  refine Program.Succeeds.call (Q := fun _ => True) (fun g hg => ?_) fun _ _ => .ret trivial
  refine ⟨(), (handler (Write.link l prov).call g).2, ?_, ⟨?_, ?_, ?_⟩, trivial⟩
  · rw [handler_link_of_hashable g hl]
  · exact nodes_link g l prov ▸ hg.labels
  · exact metrics_link g l prov ▸ hg.aliases
  · exact metrics_link g l prov ▸ hg.key

/-- What the index of readable metrics holds is a key. -/
theorem metricAliases_succeeds : GraphClient.metricAliases.Succeeds handler Readable
    fun index => ∀ name v, index.get? name = some v → ∃ k, v = .str k := by
  intro g hg
  have hindexable : ∀ m ∈ g.metrics, Indexable m := fun m hm => by
    obtain ⟨aliases, ha⟩ := hg.aliases m hm
    obtain ⟨k, hk⟩ := hg.key m hm
    exact ⟨aliases, ha, fun _ => by rw [hk]; rfl⟩
  obtain ⟨index, hok, hget⟩ := aliasIndex_of_indexable hindexable
  refine ⟨index, g, by rw [metricAliases_run, hok], hg, fun name v hv => ?_⟩
  rw [hget] at hv
  obtain ⟨m, hm, ha⟩ := lookup_mem hv
  obtain ⟨k, hk⟩ := hg.key m hm
  exact ⟨k, Option.some.inj ((answer_key ha).symm.trans hk)⟩

theorem metricTerms_succeeds :
    GraphClient.metricTerms.Succeeds handler Readable fun _ => True := by
  intro g hg
  have hterms : ∀ m ∈ g.metrics, ∃ e, termsOf m = .ok e := by
    intro m hm
    obtain ⟨aliases, ha⟩ := hg.aliases m hm
    obtain ⟨k, hk⟩ := hg.key m hm
    simp only [termsOf, ha, metricKeyOf, hk]
    exact ⟨_, rfl⟩
  choose! entry hentry using hterms
  have hall : g.metrics.mapM termsOf = .ok (g.metrics.map entry) :=
    Program.mapM_eq_ok.mpr (List.forall₂_map_right_iff.mpr (List.forall₂_same.mpr hentry))
  refine ⟨Dict.ofList (g.metrics.map entry), g, ?_, hg, trivial⟩
  rw [metricTerms_run, termIndex_eq, hall]
  rfl

/-- The world of a resolver over a readable graph. -/
abbrev ReadableWorld (w : ResolverState InMemoryGraphStore) : Prop := w.store.Readable

omit [Python] in
theorem liftStore_succeeds {p : StoreProgram α} {post : α → Prop}
    (hp : p.Succeeds handler Readable post) :
    (liftStore p).Succeeds (ResolverState.handler handler) ReadableWorld post :=
  hp.lift (ResolverState.lifting handler)

theorem resolve_succeeds (hr : r.Total) (col : ObservedColumn) :
    (r.resolve col).Succeeds (ResolverState.handler handler) ReadableWorld
      fun out => ∀ v, out.metricKey = some v → ∃ k, v = .str k := by
  refine (liftStore_succeeds metricAliases_succeeds).bind fun index hindex => ?_
  split
  · rename_i hit hhit
    refine .ret fun v hv => ?_
    cases hv
    exact hindex _ _ (Option.filter_eq_some_iff.mp hhit).1
  · split
    · exact .ret nofun
    · refine (liftStore_succeeds metricTerms_succeeds).bind fun terms _ => ?_
      obtain ⟨ranked, hranked⟩ := hr col terms
      refine (Program.Succeeds.ofExcept ⟨ranked, hranked, rfl⟩).bind fun ranked _ => ?_
      dsimp only
      split
      · refine .ret fun v hv => ?_
        cases hv
        exact ⟨_, rfl⟩
      · exact Program.Succeeds.call (Q := fun _ => True)
          (fun w hw => ⟨_, _, rfl, hw, trivial⟩) fun _ _ => .ret nofun

omit [Python] in
theorem linkOutcome_succeeds {outcome : Resolution}
    (hkey : ∀ v, outcome.metricKey = some v → ∃ k, v = .str k) (prov : EdgeProvenance)
    (col : ObservedColumn) (owner : Option String) :
    (linkOutcome prov col owner outcome).Succeeds handler Readable fun _ => True := by
  rw [linkOutcome_eq]
  refine .forM fun l hl => link_succeeds ?_ prov
  obtain ⟨v, ⟨-, hv, -⟩, hl⟩ := mem_linksMade.mp hl
  obtain ⟨k, rfl⟩ := hkey v hv
  rcases hl with rfl | ⟨uid, -, rfl⟩ <;> rfl

/-- Nothing in the bundle is refused: its entities supply no labels, and its relations are of
allow-listed types. -/
structure ParsedBundle.Acceptable (c : GraphClient) (b : ParsedBundle) : Prop where
  entities : ∀ ent ∈ b.entities, KeepsLabels ent.attributes
  relations : ∀ rel ∈ b.relations, rel.Allowed c

omit [Python] in
theorem loadColumn_succeeds (col : ObservedColumn) :
    (loadColumn col).Succeeds handler Readable fun _ => True :=
  node_succeeds (n := col.ref) rfl nofun ((get?_clean ..).trans rfl) []

theorem loadRecords_succeeds (hb : b.Acceptable c) :
    (loadRecords c b).Succeeds handler Readable fun _ => True := by
  refine .bind (.forM fun doc hdoc => ?_) fun _ _ => .bind (.forM fun col hcol => ?_) fun _ _ =>
    .bind (.forM fun ent hent => ?_) fun _ _ => .forM fun rel hrel => ?_
  · refine (node_succeeds (n := .document doc.uri) rfl nofun ((get?_clean ..).trans rfl) []).bind
      fun _ _ => .bind (.forM fun uid _ => ?_) fun _ _ => .forM fun metricKey _ => ?_
    · exact link_succeeds (l := .describes doc.uri uid) rfl _
    · exact link_succeeds (l := .definedIn metricKey doc.uri) rfl _
  · exact loadColumn_succeeds col
  · rw [loadEntity_eq]
    have hwrite : (ent.write c).program.Succeeds handler Readable fun _ => True :=
      node_succeeds (n := .entity ent.uid) rfl nofun (hb.entities ent hent) _
    exact hwrite.bind fun _ _ => .forM fun col _ => loadColumn_succeeds col
  · rw [loadRelation_eq (hb.relations rel hrel)]
    exact link_succeeds rfl _

theorem loadBundle_succeeds (hr : r.Total) (hb : b.Acceptable c) :
    (loadBundle c r b).Succeeds (ResolverState.handler handler) ReadableWorld fun _ => True := by
  refine (liftStore_succeeds (loadRecords_succeeds hb)).bind fun _ _ => .mapM fun col _ => ?_
  refine (resolve_succeeds hr col).bind fun outcome hkey => ?_
  exact (liftStore_succeeds (linkOutcome_succeeds hkey _ _ _)).bind fun _ _ => .ret trivial

end loads

/-! ## The connector's items -/

omit [PyFloat] in
/-- What the connector brings is parsed, and nothing in it is refused. -/
theorem SyntheticSource.acceptable (hitem : item ∈ src.discover) (c : GraphClient) :
    ∃ artifact b, src.pull item = .ok artifact ∧ src.parse artifact = .ok b ∧ b.Acceptable c := by
  rcases List.mem_append.mp hitem with hitem | hitem
  · obtain ⟨⟨system, table⟩, hkey, rfl⟩ := List.mem_map.mp hitem
    obtain ⟨rows, hrows⟩ := Dict.mem_keys.mp hkey
    obtain ⟨system', table', -, -, hparse⟩ := src.parse_tableArtifact system table rows
    refine ⟨_, _, src.pull_tableItem hrows, hparse, ?_, nofun⟩
    exact List.forall_mem_singleton.mpr ((get?_clean ..).trans rfl)
  · obtain ⟨uri, hkey, rfl⟩ := List.mem_map.mp hitem
    obtain ⟨doc, hdoc⟩ := Dict.mem_keys.mp hkey
    exact ⟨_, _, src.pull_documentItem hdoc, src.parse_documentArtifact uri doc, nofun, nofun⟩

omit [PyFloat] in
/-- Without a limiter the call completes over every readable graph. -/
theorem IngestRun.completes_of_readable {client : GraphClient} {r : Resolver}
    {world : ResolverState InMemoryGraphStore} (hr : r.Total) (hg : world.store.Readable)
    (ledger : Finset (String × String)) :
    Completes handler (unlimited src client r world) ledger := by
  have hrun : (runIngest src.toSource client r).Succeeds
      (IngestState.handler src.toSource handler) (fun w => w.world.store.Readable)
        fun _ => True := by
    refine .foldlM (fun item hitem report => ?_) _
    obtain ⟨artifact, b, hpull, hparse, hb⟩ := src.acceptable hitem client
    refine .call (Q := fun _ => True) (fun w hw => ⟨_, w, rfl, hw, trivial⟩) fun seen _ => ?_
    split
    · exact .ret trivial
    · refine .call (Q := fun a => a = artifact)
        (fun w hw => ⟨artifact, w, Prod.ext hpull rfl, hw, rfl⟩) fun a ha => ?_
      subst ha
      refine (Program.Succeeds.ofExcept ⟨b, hparse, rfl⟩).bind fun b' hb' => ?_
      subst hb'
      refine ((loadBundle_succeeds hr hb).lift (IngestState.lifting _ _)).bind fun _ _ => ?_
      refine .call (Q := fun _ => True) (fun w hw => ⟨_, _, rfl, hw, trivial⟩) fun _ _ => ?_
      exact .ret trivial
  obtain ⟨report, w', hreport, -, -⟩ := hrun ⟨world, ledger⟩ hg
  exact ⟨report, congrArg Prod.fst hreport⟩

/-! ## The limiter -/

namespace LimitedState

/-- The call of `run_ingest` from this state returns, and has ingested what the ledger did not
have, with no more sleep than the rate accounts for. -/
def ServesAll (rate : ℚ) (src : SyntheticSource) (client : GraphClient) (r : Resolver)
    (h : Handler StoreCall StoreCall.Reply PyErr σ) (w : LimitedState σ C) : Prop :=
  let program := runIngest src.toSource client r
  let fetched := (program.attempts (handler src h) w).filterMap IngestCall.fetched?
  ∃ report w', program.run (handler src h) w = (.ok report, w') ∧
    (∀ item ∈ src.discover, item.key ∈ w'.ingest.ledger) ∧
    fetched = src.discover.filter (fun item => item.key ∉ w.ingest.ledger) ∧
    report.itemsIngested = fetched.length ∧
    w'.slept ≤ w.slept + fetched.length / rate

/-- The limiter lets the whole run through, or it is the run over a source that gives nothing. -/
theorem servesAll_iff_completes (hC : C.Exact) (hids : (src.discover.map WorkItem.itemId).Nodup)
    {client : GraphClient} {r : Resolver} {w : LimitedState σ C} (hL : HasRate rate w.limiter) :
    ServesAll rate src client r h w ↔
      (⟨src.throttled rate, client, r, w.ingest.world⟩ : IngestRun σ).Completes h
        w.ingest.ledger := by
  let run : IngestRun σ := ⟨src.throttled rate, client, r, w.ingest.world⟩
  let program := runIngest src.toSource client r
  obtain ⟨hresult, hstate, hcalls⟩ : (program.run (handler src h) w).1 = (run.result h _).1 ∧
      Stands rate (program.run (handler src h) w).2 (run.result h _).2 ∧
      program.attempts (handler src h) w = program.attempts (run.answers h) w.ingest :=
    Program.run_simulates (stands_handler hC) program ⟨rfl, hL⟩
  have hslept : Slept rate w (program.attempts (handler src h) w)
      (program.run (handler src h) w).2 :=
    (Program.Uses.all program).run_attempts (l := []) (fun _ hw => slept_handler hC _ hw)
      ⟨hL, by simp⟩
  constructor
  · rintro ⟨report, w', hrun, -⟩
    exact ⟨report, by rw [← hresult, hrun]⟩
  · rintro ⟨report, hok⟩
    have hrun : (run.loop {} src.discover).run (run.answers h) w.ingest =
        (.ok report, (run.result h w.ingest.ledger).2) := Prod.ext hok rfl
    have hkeys : (src.discover.map WorkItem.key).Nodup :=
      List.Nodup.of_map Prod.snd (by rw [List.map_map]; exact hids)
    have hfetched : (program.attempts (handler src h) w).filterMap IngestCall.fetched? =
        Turn.openItems (run.loopTurns h src.discover w.ingest) := by
      rw [hcalls]
      exact IngestRun.fetched_loop {} src.discover w.ingest
    refine ⟨report, _, Prod.ext (hresult.trans hok) rfl, ?_, ?_, ?_, hslept.slept⟩
    · rw [hstate.ingest]
      exact IngestRun.loop_done hrun
    · rw [hfetched, IngestRun.openItems_eq hrun hkeys]
    · rw [hfetched, IngestRun.loop_ingested hrun]
      exact Nat.zero_add _

/-- **Which rates serve every fetch**: a limiter with the default capacity lets `run_ingest` over
the connector do what it does without a limiter exactly when the rate is at least one, or there is
nothing to fetch. Without a limiter the run completes over every graph whose metrics can be read. -/
theorem throttled_completes_iff (hC : C.Exact) (t : τ) (hrate : 0 < rate)
    (hids : (src.discover.map WorkItem.itemId).Nodup) (client : GraphClient) (r : Resolver)
    (w : IngestState InMemoryGraphStore) :
    ∃ L, Limiter.init C rate none t = .ok L ∧
      (ServesAll rate src client r InMemoryGraphStore.handler ⟨w, L, 0⟩ ↔
        (1 ≤ rate ∨ ∀ item ∈ src.discover, item.key ∈ w.ledger) ∧
          (IngestRun.unlimited src client r w.world).Completes InMemoryGraphStore.handler
            w.ledger) ∧
      (r.Total → w.world.store.Readable →
        (IngestRun.unlimited src client r w.world).Completes InMemoryGraphStore.handler
          w.ledger) := by
  obtain ⟨L, hL⟩ := Limiter.init_ok C t hrate
  refine ⟨L, hL, ?_, fun hr hg => IngestRun.completes_of_readable hr hg w.ledger⟩
  rw [servesAll_iff_completes hC hids (HasRate.init hL), IngestRun.completes_throttled_iff]

end LimitedState

end runs

/-- One table with one row. -/
def orders : SyntheticSource where
  api := {
    tables := .ofList [(("pg", "orders"), [.ofList [("id", .int 1)]])]
    documents := ∅
    isDocument := nofun }
  clock _ := "2026-07-06"

/-- Three tables, and a bucket that holds one token and refills once a second. -/
theorem LimitedState.throttled_completes_orders :
    let src : SyntheticSource := {
      api := {
        tables := .ofList [(("pg", "orders"), [.ofList [("id", .int 1)]]),
          (("pg", "parts"), [.ofList [("sku", .str "a")]]), (("erp", "sites"), [])]
        documents := ∅
        isDocument := nofun }
      clock := fun _ => "2026-07-06" }
    ∃ L, Limiter.init Clock.still 1 none 0 = .ok L ∧
      ServesAll 1 src ∅ ⟨fun _ _ => .ok [], 6 / 10, 3, 0⟩ InMemoryGraphStore.handler
        ⟨⟨⟨∅, [[]]⟩, ∅⟩, L, 0⟩ := by
  intro src
  have hids : (src.discover.map WorkItem.itemId).Nodup := by decide
  obtain ⟨L, hL, hiff, hfree⟩ := LimitedState.throttled_completes_iff
    Clock.still_exact 0 one_pos hids ∅ ⟨fun _ _ => .ok [], 6 / 10, 3, 0⟩
    ⟨⟨∅, [[]]⟩, ∅⟩
  have hreadable : InMemoryGraphStore.Readable ∅ := ⟨nofun, nofun, nofun⟩
  exact ⟨L, hL, hiff.mpr ⟨.inl le_rfl, hfree (fun _ _ => ⟨[], rfl⟩) hreadable⟩⟩

/-- A bucket that refills every two seconds holds half a token at most, and refuses the first
fetch. -/
theorem LimitedState.slow_rate_refused :
    ∃ L, Limiter.init Clock.still (1 / 2) none 0 = .ok L ∧
      (∃ e, orders.fetch (orders.tableItem "pg" "orders") L = (.error (.valueError e), [], L)) ∧
      ¬ ServesAll (1 / 2) orders ∅ ⟨fun _ _ => .ok [], 6 / 10, 3, 0⟩ InMemoryGraphStore.handler
        ⟨⟨⟨∅, [[]]⟩, ∅⟩, L, 0⟩ := by
  have hpos : (0 : ℚ) < 1 / 2 := by norm_num
  have hslow : (1 / 2 : ℚ) < 1 := by norm_num
  have hids : (orders.discover.map WorkItem.itemId).Nodup := List.nodup_singleton _
  obtain ⟨L, hL⟩ := Limiter.init_ok Clock.still 0 hpos
  have hrate : HasRate (1 / 2) L := .init hL
  refine ⟨L, hL, ?_, fun hserves => ?_⟩
  · have hacquire := acquire_of_lt (L := L) (hrate.capacity_eq ▸ hslow)
    exact ⟨_, by rw [SyntheticSource.fetch, hacquire]⟩
  · rw [servesAll_iff_completes Clock.still_exact hids hrate,
      IngestRun.completes_throttled_iff] at hserves
    rcases hserves.1 with hle | hseen
    · exact hslow.not_ge hle
    · exact Finset.notMem_empty _ (hseen _ List.mem_cons_self)

end MarginKG
