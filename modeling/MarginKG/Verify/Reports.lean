import MarginKG.Platform
import MarginKG.Theory.Traces
import MarginKG.Verify.Escalation
import MarginKG.Verify.Workers

/-! The report of `run_ingest` accounts for all that the run did to the graph and to the queue
(`Backend.report_replays`), over either store.

The bundles of a report and its resolutions determine a list of writes (`IngestReport.writes`). On
every path on which `run_ingest` returns, whatever the store replied, these are the writes that it
made, and the escalations among the resolutions are what it enqueued (`runIngest_tells`). -/

namespace MarginKG

/-! ## The writes that a report determines -/

/-- The writes of a document and of its links. -/
def ObservedDocument.writes (prov : EdgeProvenance) (d : ObservedDocument) : List Write :=
  d.write :: (d.describes.map (fun uid => .link (.describes d.uri uid) prov) ++
    d.defines.map fun metricKey => .link (.definedIn metricKey d.uri) prov)

def ObservedEntity.writes (c : GraphClient) (ent : ObservedEntity) : List Write :=
  ent.write c :: ent.columns.map ObservedColumn.write

namespace ParsedBundle

/-- The writes of the records of a bundle, in the order of `load_bundle`. -/
def recordWrites (c : GraphClient) (b : ParsedBundle) : List Write :=
  b.documents.flatMap (ObservedDocument.writes b.provenance.toEdge) ++
  (b.columns.map ObservedColumn.write ++ (b.entities.flatMap (ObservedEntity.writes c) ++
    b.relations.map fun rel => .link rel.link b.provenance.toEdge))

/-- The links that a load makes for these resolutions. -/
def linkWrites (b : ParsedBundle) (resolutions : List Resolution) : List Write :=
  resolutions.flatMap fun outcome =>
    (outcome.linksMade outcome.column ((ownerOf b.entities).get? outcome.column.key)).map
      fun l => .link l b.provenance.toEdge

end ParsedBundle

namespace IngestReport

/-- The writes for some bundles, each of which takes as many of the resolutions as it has
columns. -/
def bundleWrites (c : GraphClient) : List ParsedBundle → List Resolution → List Write
  | [], _ => []
  | b :: bundles, resolutions =>
    b.recordWrites c ++ (b.linkWrites (resolutions.take b.iterColumns.length) ++
      bundleWrites c bundles (resolutions.drop b.iterColumns.length))

/-- The writes that a report accounts for. -/
def writes (c : GraphClient) (report : IngestReport) : List Write :=
  bundleWrites c report.bundles report.resolutions

theorem bundleWrites_append (c : GraphClient) {bundles bundles' : List ParsedBundle}
    {resolutions resolutions' : List Resolution}
    (h : resolutions.map Resolution.column = bundles.flatMap ParsedBundle.iterColumns) :
    bundleWrites c (bundles ++ bundles') (resolutions ++ resolutions') =
      bundleWrites c bundles resolutions ++ bundleWrites c bundles' resolutions' := by
  induction bundles generalizing resolutions with
  | nil =>
    cases List.map_eq_nil_iff.mp h
    rfl
  | cons b bundles ih =>
    have hlength : b.iterColumns.length ≤ resolutions.length := by
      rw [← List.length_map (f := Resolution.column), h, List.flatMap_cons, List.length_append]
      apply Nat.le_add_right
    have hrest : (resolutions.drop b.iterColumns.length).map Resolution.column =
        bundles.flatMap ParsedBundle.iterColumns := by
      rw [List.map_drop, h, List.flatMap_cons, List.drop_left]
    rw [List.cons_append, bundleWrites, bundleWrites, List.take_append_of_le_length hlength,
      List.drop_append_of_le_length hlength, ih hrest]
    simp only [List.append_assoc]

theorem bundleWrites_singleton (c : GraphClient) {b : ParsedBundle} {resolutions : List Resolution}
    (h : resolutions.map Resolution.column = b.iterColumns) :
    bundleWrites c [b] resolutions = b.recordWrites c ++ b.linkWrites resolutions := by
  have hlength : b.iterColumns.length = resolutions.length := by
    rw [← h, List.length_map]
  rw [bundleWrites, bundleWrites, List.append_nil, hlength, List.take_length]

end IngestReport

/-! ## What programs leave behind -/

/-- The call changes the graph. -/
def StoreCall.Upserts : StoreCall → Prop
  | .upsertNode .. | .upsertEdge .. => True
  | .getNode .. | .outNeighbors .. | .nodesByLabel .. => False

instance : DecidablePred StoreCall.Upserts
  | .upsertNode .. | .upsertEdge .. => isTrue trivial
  | .getNode .. | .outNeighbors .. | .nodesByLabel .. => isFalse id

theorem Write.upserts (w : Write) : w.call.Upserts := by cases w <;> trivial

namespace ResolverCall

def upsert? (c : ResolverCall) : Option StoreCall := c.store?.filter fun c => c.Upserts

def enqueued? : ResolverCall → Option (Nat × Resolution)
  | .store _ => none
  | .enqueue queue outcome => some (queue, outcome)

end ResolverCall

/-- The calls make these writes and enqueue the escalations among these resolutions. -/
structure Leaves (queue : Nat) (l : List ResolverCall) (ws : List Write)
    (outcomes : List Resolution) : Prop where
  upserts : l.filterMap ResolverCall.upsert? = ws.map Write.call
  enqueued : l.filterMap ResolverCall.enqueued? = (escalations outcomes).map (queue, ·)

namespace Leaves

theorem nil : Leaves queue [] [] [] := ⟨rfl, rfl⟩

theorem append (h : Leaves queue l ws outcomes) (h' : Leaves queue l' ws' outcomes') :
    Leaves queue (l ++ l') (ws ++ ws') (outcomes ++ outcomes') where
  upserts := by rw [List.filterMap_append, List.map_append, h.upserts, h'.upserts]
  enqueued := by
    rw [List.filterMap_append, escalations_append, List.map_append, h.enqueued, h'.enqueued]

/-- Calls of a store that are writes. -/
theorem of_writes {l : List StoreCall} (h : l = ws.map Write.call) :
    Leaves queue (l.map .store) ws [] := by
  subst h
  constructor
  · rw [List.filterMap_map, List.filterMap_map]
    have hcall (w : Write) : ResolverCall.upsert? (.store w.call) = some w.call :=
      Option.filter_eq_some_iff.mpr ⟨rfl, decide_eq_true w.upserts⟩
    rw [← List.filterMap_eq_map]
    exact List.filterMap_congr fun w _ => hcall w
  · rw [List.filterMap_map]
    exact List.filterMap_eq_nil_iff.mpr fun _ _ => rfl

end Leaves

section effects
variable {σ : Type} {h : Handler StoreCall StoreCall.Reply PyErr σ}

/-- What the calls of a resolver do, when reads leave the store as it is: its upserts, in their
order, and the queues receive what is enqueued. -/
theorem resolver_effect (hreads : ∀ c s, ¬ c.Upserts → (h c s).2 = s) {l : List ResolverCall}
    {outcomes : List Resolution}
    (henqueued : l.filterMap ResolverCall.enqueued? = outcomes.map (queue, ·))
    (w : ResolverState σ) :
    Program.effect (ResolverState.handler h) l w =
      ⟨Program.effect h (l.filterMap ResolverCall.upsert?) w.store,
        w.queues.modify queue (· ++ outcomes)⟩ := by
  induction l generalizing outcomes w with
  | nil =>
    cases List.map_eq_nil_iff.mp henqueued.symm
    simp only [List.append_nil]
    rw [show (fun l : List Resolution => l) = id from rfl, List.modify_id]
    rfl
  | cons c l ih =>
    rw [Program.effect_cons]
    cases c with
    | store c =>
      rw [ih henqueued]
      by_cases hc : c.Upserts
      · have hcall : (ResolverCall.store c).upsert? = some c :=
          Option.filter_eq_some_iff.mpr ⟨rfl, decide_eq_true hc⟩
        rw [List.filterMap_cons_some hcall, Program.effect_cons]
        rfl
      · have hcall : (ResolverCall.store c).upsert? = none :=
          Option.filter_eq_none_iff.mpr fun _ hmem => by cases hmem; simpa using hc
        rw [List.filterMap_cons_none hcall]
        dsimp only [ResolverState.handler]
        rw [hreads c _ hc]
    | enqueue q outcome =>
      obtain ⟨rfl, rest, rfl, hrest⟩ : q = queue ∧ ∃ rest, outcomes = outcome :: rest ∧
          l.filterMap ResolverCall.enqueued? = rest.map (queue, ·) := by
        rcases outcomes with _ | ⟨first, rest⟩
        · cases henqueued
        · obtain ⟨hhead, hrest⟩ := List.cons.inj henqueued
          cases hhead
          exact ⟨rfl, rest, rfl, hrest⟩
      rw [ih hrest, List.filterMap_cons_none rfl]
      dsimp only [ResolverState.handler]
      rw [List.modify_modify_eq]
      simp only [Function.comp_def, List.append_assoc, List.singleton_append]

theorem resolver_allOk (hreads : ∀ c s, ¬ c.Upserts → (h c s).2 = s) {l : List ResolverCall}
    {w : ResolverState σ} (hok : Program.AllOk (ResolverState.handler h) l w) :
    Program.AllOk h (l.filterMap ResolverCall.upsert?) w.store := by
  induction l generalizing w with
  | nil => trivial
  | cons c l ih =>
    have hrest := ih hok.2
    cases c with
    | enqueue => exact hrest
    | store c =>
      by_cases hc : c.Upserts
      · have hcall : (ResolverCall.store c).upsert? = some c :=
          Option.filter_eq_some_iff.mpr ⟨rfl, decide_eq_true hc⟩
        rw [List.filterMap_cons_some hcall]
        exact ⟨hok.1, hrest⟩
      · have hcall : (ResolverCall.store c).upsert? = none :=
          Option.filter_eq_none_iff.mpr fun _ hmem => by cases hmem; simpa using hc
        rw [List.filterMap_cons_none hcall]
        dsimp only [ResolverState.handler] at hrest
        rwa [hreads c _ hc] at hrest

/-- Writes that the store carries out, one after the other. -/
theorem run_replay {ws : List Write} {s : σ} (hok : Program.AllOk h (ws.map Write.call) s) :
    (ws.forM Write.program).run h s = (.ok (), Program.effect h (ws.map Write.call) s) := by
  induction ws generalizing s with
  | nil => rfl
  | cons w ws ih =>
    obtain ⟨⟨reply, hreply⟩, hrest⟩ := hok
    have hw : w.program.run h s = (.ok (), (h w.call s).2) :=
      Program.run_call_ok (Prod.ext hreply rfl) _
    rw [List.forM, Program.run_bind_ok hw]
    exact ih hrest

end effects

section tells
variable [Python]

/-! ## Loads -/

omit [Python] in
theorem Write.program_tells (w : Write) :
    w.program.Tells fun l _ => l = [w].map Write.call := fun _ => rfl

omit [Python] in
/-- A loop of writes. -/
theorem forM_writes {α : Type} {l : List α} {f : α → StoreProgram PUnit} {g : α → List Write}
    (h : ∀ a ∈ l, (f a).Tells fun calls _ => calls = (g a).map Write.call) :
    (l.forM f).Tells fun calls _ => calls = (l.flatMap g).map Write.call := by
  rw [List.map_flatMap]
  exact .forM h

omit [Python] in
/-- A loop of single writes. -/
theorem forM_write {α : Type} {l : List α} {f : α → StoreProgram PUnit} {g : α → Write}
    (h : ∀ a ∈ l, f a = (g a).program) :
    (l.forM f).Tells fun calls _ => calls = (l.map g).map Write.call := by
  rw [List.map_eq_flatMap (f := g)]
  refine forM_writes (g := fun a => [g a]) fun a ha => ?_
  rw [h a ha]
  exact (g a).program_tells

omit [Python] in
/-- Programs of writes, one after the other. -/
theorem bind_writes {p : StoreProgram α} {f : α → StoreProgram β} {ws ws' : List Write}
    (hp : p.Tells fun l _ => l = ws.map Write.call)
    (hf : ∀ a, (f a).Tells fun l _ => l = ws'.map Write.call) :
    (p >>= f).Tells fun l _ => l = (ws ++ ws').map Write.call := by
  refine hp.bind fun l a hl => (hf a).mono fun l' _ hl' => ?_
  rw [hl, hl', List.map_append]

/-- A load of records that returns has made their writes. -/
theorem loadRecords_tells (c : GraphClient) (b : ParsedBundle) :
    (loadRecords c b).Tells fun l _ => l = (b.recordWrites c).map Write.call := by
  refine bind_writes (forM_writes fun d _ => ?_) fun _ =>
    bind_writes (forM_write fun _ _ => rfl) fun _ =>
      bind_writes (forM_writes fun ent _ => ?_) fun _ => ?_
  · refine bind_writes d.write.program_tells fun _ =>
      bind_writes (forM_write fun _ _ => rfl) fun _ => forM_write fun _ _ => rfl
  · rw [loadEntity_eq]
    exact bind_writes (ent.write c).program_tells fun _ =>
      forM_write fun _ _ => rfl
  · rw [List.map_eq_flatMap (f := fun rel : ObservedRelation =>
      Write.link rel.link b.provenance.toEdge)]
    refine forM_writes (g := fun rel : ObservedRelation => [.link rel.link _]) fun rel _ => ?_
    by_cases h : rel.Allowed c
    · rw [loadRelation_eq h]
      exact Write.program_tells _
    · obtain ⟨m, hm⟩ := loadRelation_refused h b.provenance.toEdge
      rw [hm]
      trivial

omit [Python] in
/-- Reads of metrics leave nothing behind. -/
theorem leaves_reads {p : StoreProgram α} (hp : p.Uses fun c => ¬ c.Upserts) (queue : Nat) :
    (liftStore p).Tells fun l _ => Leaves queue l [] [] := by
  induction p with
  | ret a => exact .nil
  | throw e => trivial
  | call c k ih =>
    intro r
    refine (ih r (hp.2 r)).mono fun l _ hl => ⟨?_, hl.enqueued⟩
    have hcall : (ResolverCall.store c).upsert? = none :=
      Option.filter_eq_none_iff.mpr fun _ hmem => by cases hmem; simpa using hp.1
    exact (List.filterMap_cons_none hcall).trans hl.upserts

/-- A resolution writes nothing, and enqueues itself when it is an escalation. -/
theorem Resolver.resolve_tells (r : Resolver) (col : ObservedColumn) :
    (r.resolve col).Tells fun l outcome => Leaves r.queue l [] [outcome] ∧
      outcome.column = col := by
  have hread {l : List ResolverCall} {outcome : Resolution} (hl : Leaves r.queue l [] [])
      (htier : outcome.tier ≠ .escalated) : Leaves r.queue l [] [outcome] := by
    have hnone : escalations [outcome] = [] := List.filter_eq_nil_iff.mpr (by simpa using htier)
    exact ⟨hl.upserts, hl.enqueued.trans (by rw [hnone]; rfl)⟩
  have haliases : GraphClient.metricAliases.Uses fun c => ¬ c.Upserts :=
    ⟨id, fun _ => .ofExcept _⟩
  have hterms : GraphClient.metricTerms.Uses fun c => ¬ c.Upserts := ⟨id, fun _ => .ofExcept _⟩
  refine (leaves_reads haliases r.queue).bind fun l index hl => ?_
  split
  · exact ⟨by simpa using hread hl (by simp), rfl⟩
  split
  · exact ⟨by simpa using hread hl (by simp), rfl⟩
  refine (leaves_reads hterms r.queue).bind fun l' terms hl' => ?_
  refine Program.Tells.bind (T := fun calls _ => calls = []) (.ofExcept fun _ _ => rfl)
    fun _ ranked hnil => ?_
  subst hnil
  dsimp only
  have hreads : Leaves r.queue (l ++ l') [] [] := hl.append hl'
  split
  · exact ⟨by simpa using hread hreads (by simp), rfl⟩
  · intro _
    refine ⟨?_, rfl⟩
    have hqueue (alternatives : List Suggestion) :
        let outcome : Resolution := { column := col, tier := .escalated, alternatives }
        Leaves r.queue [.enqueue r.queue outcome] [] [outcome] := ⟨rfl, rfl⟩
    simpa using hreads.append (hqueue _)

theorem resolveAndLink_tells (r : Resolver) (prov : EdgeProvenance)
    (owners : Dict (String × String × String) String) (col : ObservedColumn) :
    (resolveAndLink r prov owners col).Tells fun l outcome => outcome.column = col ∧
      Leaves r.queue l ((outcome.linksMade outcome.column (owners.get? outcome.column.key)).map
        fun link => .link link prov) [outcome] := by
  refine (r.resolve_tells col).bind fun l outcome hl => ?_
  obtain ⟨hl, hcol⟩ := hl
  subst hcol
  refine Program.Tells.bind (T := fun calls _ => Leaves r.queue calls
    ((outcome.linksMade outcome.column (owners.get? outcome.column.key)).map
      fun link => .link link prov) []) ?_ fun l' _ hl' => ?_
  · rw [linkOutcome_eq]
    exact (forM_write fun _ _ => rfl).lift fun _ _ => Leaves.of_writes
  · refine ⟨rfl, ?_⟩
    simpa using hl.append hl'

/-- A load that returns has made the writes of its records and the links of its resolutions. -/
theorem loadBundle_tells (c : GraphClient) (r : Resolver) (b : ParsedBundle) :
    (loadBundle c r b).Tells fun l outcomes => outcomes.map Resolution.column = b.iterColumns ∧
      Leaves r.queue l (b.recordWrites c ++ b.linkWrites outcomes) outcomes := by
  refine Program.Tells.bind (T := fun l _ => Leaves r.queue l (b.recordWrites c) [])
    ((loadRecords_tells c b).lift fun _ _ => Leaves.of_writes) fun l _ hl => ?_
  refine (Program.Tells.mapM (J := fun cols calls outcomes =>
    outcomes.map Resolution.column = cols ∧
      Leaves r.queue calls (b.linkWrites outcomes) outcomes) ⟨rfl, .nil⟩ fun col _ => ?_).mono
    fun l' outcomes hl' => ⟨hl'.1, hl.append hl'.2⟩
  refine (resolveAndLink_tells r _ _ col).mono fun calls outcome hcalls => ?_
  rintro cols calls' outcomes ⟨hcols, hcalls'⟩
  obtain ⟨rfl, hcalls⟩ := hcalls
  exact ⟨congrArg _ hcols, hcalls.append hcalls'⟩

/-! ## Ingestions -/

/-- The report accounts for the calls made so far. -/
structure IngestReport.Accounts (c : GraphClient) (r : Resolver) (calls : List IngestCall)
    (report : IngestReport) : Prop where
  columns : report.resolutions.map Resolution.column =
    report.bundles.flatMap ParsedBundle.iterColumns
  leaves : Leaves r.queue (calls.filterMap IngestCall.resolver?) (report.writes c)
    report.resolutions

theorem ingestItem_tells (source : Source) (c : GraphClient) (r : Resolver) (item : WorkItem)
    {calls : List IngestCall} {report : IngestReport} (h : report.Accounts c r calls) :
    (ingestItem source c r report item).Tells fun calls' report' =>
      report'.Accounts c r (calls ++ calls') := by
  have hcalls {calls' : List IngestCall} {report' : IngestReport} (ls : List ResolverCall)
      (hcalls' : calls'.filterMap IngestCall.resolver? = ls)
      (h' : Leaves r.queue (calls.filterMap IngestCall.resolver? ++ ls) (report'.writes c)
        report'.resolutions)
      (hcolumns : report'.resolutions.map Resolution.column =
        report'.bundles.flatMap ParsedBundle.iterColumns) :
      report'.Accounts c r (calls ++ calls') :=
    ⟨hcolumns, by rwa [List.filterMap_append, hcalls']⟩
  intro seen
  dsimp only
  split
  · refine hcalls [] rfl ?_ h.columns
    rw [List.append_nil]
    exact h.leaves
  intro artifact
  refine Program.Tells.bind (T := fun l _ => l = []) (.ofExcept fun _ _ => rfl) fun _ b hnil => ?_
  subst hnil
  refine Program.Tells.bind (T := fun l outcomes => ∃ ls, l = ls.map IngestCall.resolver ∧
      outcomes.map Resolution.column = b.iterColumns ∧
      Leaves r.queue ls (b.recordWrites c ++ b.linkWrites outcomes) outcomes)
    ((loadBundle_tells c r b).lift fun ls _ hls => ⟨ls, rfl, hls⟩) fun _ outcomes hl => ?_
  obtain ⟨ls, rfl, hcolumns, hls⟩ := hl
  intro _
  refine hcalls ls ?_ ?_ ?_
  · simp [IngestCall.resolver?, List.filterMap_cons, List.filterMap_append, List.filterMap_map,
      Function.comp_def]
  · rw [IngestReport.writes, IngestReport.bundleWrites_append c h.columns,
      IngestReport.bundleWrites_singleton c hcolumns]
    exact h.leaves.append hls
  · rw [List.map_append, h.columns, hcolumns, List.flatMap_append, List.flatMap_singleton]

/-- **What a report tells**: whenever `run_ingest` returns, it made the writes that its report
determines and enqueued the escalations of its report. -/
theorem runIngest_tells (source : Source) (c : GraphClient) (r : Resolver) :
    (runIngest source c r).Tells fun calls report => report.Accounts c r calls := by
  have hstart : IngestReport.Accounts c r [] {} := ⟨rfl, .nil⟩
  exact Program.Tells.foldlM (J := fun calls report => IngestReport.Accounts c r calls report)
    (fun item _ _ _ h => ingestItem_tells source c r item h) hstart

theorem Backend.reads [RowOrder] (kind : Backend) (c : StoreCall) (s : kind.Store)
    (hc : ¬ c.Upserts) :
    (kind.handler c s).2 = s := by
  cases kind <;> cases c <;> first | rfl | exact absurd trivial hc

/-- **The report replays**: over either store, the writes that a report determines lead from the
store as it was to the store as the run left it, and the queue has received the escalations of the
report; each column of its bundles has one resolution, in their order. -/
theorem Backend.report_replays [RowOrder] (kind : Backend) {source : Source} {c : GraphClient}
    {r : Resolver} {w w' : IngestState kind.Store} {report : IngestReport}
    (hrun : (runIngest source c r).run (IngestState.handler source kind.handler) w =
      (.ok report, w')) :
    ((report.writes c).forM Write.program).run kind.handler w.world.store =
        (.ok (), w'.world.store) ∧
      w'.world.queues = w.world.queues.modify r.queue (· ++ report.byTier .escalated) ∧
      report.resolutions.map Resolution.column =
        report.bundles.flatMap ParsedBundle.iterColumns := by
  obtain ⟨l, H⟩ := Program.Steps.of_run hrun
  obtain ⟨hcolumns, hleaves⟩ := H.tells (runIngest_tells source c r)
  have hok := resolver_allOk kind.reads (ingest_allOk source kind.handler l w H.allOk)
  have heffect := (ingest_effect source kind.handler l w).1
  rw [← H.effect, resolver_effect kind.reads hleaves.enqueued] at heffect
  rw [hleaves.upserts] at hok heffect
  refine ⟨?_, congrArg ResolverState.queues heffect, hcolumns⟩
  rw [run_replay hok, heffect]

end tells

/-- A column is linked and another escalated. -/
theorem Backend.report_replays_parts :
    let source : Source := {
      discover := [{ itemId := "1", sourceRef := "src" }]
      fetch := fun item => .ok ⟨item.itemId, "src", "rows", .other (.str "x"), "2026"⟩
      parse := fun _ => .ok {
        provenance := ⟨"src", "2026", "c@1"⟩
        entities := [{
          uid := "e"
          columns := [{ system := "s", table := "t", name := "weight" },
            { system := "s", table := "t", name := "xyzzy" }] }] } }
    let r : Resolver := { suggester := fun _ _ => .ok [], queue := 0 }
    let metric : Write := .node (.metric (.str "p.weight"))
      (.ofList [("aliases", .list [.str "weight"])]) []
    let w : IngestState InMemoryGraphStore :=
      ⟨⟨(InMemoryGraphStore.handler metric.call ∅).2, [[]]⟩, ∅⟩
    let run := (runIngest source ∅ r).run (IngestState.handler source InMemoryGraphStore.handler) w
    ∃ report w', run = (.ok report, w') ∧
      ((report.writes ∅).forM Write.program).run InMemoryGraphStore.handler w.world.store =
        (.ok (), w'.world.store) ∧
      w'.world.queues = w.world.queues.modify r.queue (· ++ report.byTier .escalated) := by
  intro source r metric w run
  have hok : run.1.toOption.isSome := by decide +kernel
  rcases hrun : run with ⟨e | report, w'⟩
  · rw [hrun] at hok
    cases hok
  · obtain ⟨hstore, hqueues, -⟩ := Backend.report_replays .inMemory hrun
    exact ⟨report, w', rfl, hstore, hqueues⟩

end MarginKG
