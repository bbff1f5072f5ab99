import MarginKG.Ingestion.Pipeline

/-! The ledger, the fetches and the report of `run_ingest` (`ledger_exact`).

The loop takes the discovered items in turn. What comes of a turn is determined by the state before
it (`takeUp`), and a run is the sequence of its turns (`loop_ok`, `loop_error`, `fetched_loop`).
What the ledger holds after any series of runs is then read off the turns. -/

namespace MarginKG

/-- What comes of an item's turn when nothing is raised. -/
inductive Outcome where
  | skipped
  | ingested (bundle : ParsedBundle) (resolutions : List Resolution)

/-- An item's turn, with the ledger before it. -/
structure Turn where
  item : WorkItem
  ledger : Finset (String × String)
  outcome : Except PyErr Outcome

namespace Turn

/-- The bundle and the resolutions, when `load_bundle` returned. -/
def ingested? (t : Turn) : Option (ParsedBundle × List Resolution) :=
  match t.outcome with
  | .ok (.ingested bundle resolutions) => some (bundle, resolutions)
  | _ => none

/-- The keys of the items for which `load_bundle` returned. -/
def ingestedKeys (ts : List Turn) : List (String × String) :=
  (ts.filter (·.ingested?.isSome)).map (·.item.key)

/-- The items that the ledger did not have when their turn came. -/
def openItems (ts : List Turn) : List WorkItem :=
  (ts.filter fun t => t.item.key ∉ t.ledger).map Turn.item

theorem openItems_of_mem {t : Turn} (h : t.item.key ∈ t.ledger) (ts : List Turn) :
    openItems (t :: ts) = openItems ts := by
  rw [openItems, List.filter_cons_of_neg (by simpa using h)]
  rfl

theorem openItems_of_not_mem {t : Turn} (h : t.item.key ∉ t.ledger) (ts : List Turn) :
    openItems (t :: ts) = t.item :: openItems ts := by
  rw [openItems, List.filter_cons_of_pos (by simpa using h)]
  rfl

variable {item : WorkItem} {ledger : Finset (String × String)}

@[simp] theorem ingestedKeys_error (ts : List Turn) :
    ingestedKeys (⟨item, ledger, .error e⟩ :: ts) = ingestedKeys ts := rfl

@[simp] theorem ingestedKeys_skipped (ts : List Turn) :
    ingestedKeys (⟨item, ledger, .ok .skipped⟩ :: ts) = ingestedKeys ts := rfl

@[simp] theorem ingestedKeys_ingested (ts : List Turn) :
    ingestedKeys (⟨item, ledger, .ok (.ingested bundle resolutions)⟩ :: ts) =
      item.key :: ingestedKeys ts := rfl

end Turn

/-- The report after a turn. -/
def IngestReport.add (report : IngestReport) : Outcome → IngestReport
  | .skipped => { report with itemsSkipped := report.itemsSkipped + 1 }
  | .ingested bundle resolutions => {
      itemsIngested := report.itemsIngested + 1
      itemsSkipped := report.itemsSkipped
      resolutions := report.resolutions ++ resolutions
      bundles := report.bundles ++ [bundle] }

/-- The item that a call fetches. -/
def IngestCall.fetched? : IngestCall → Option WorkItem
  | .fetch item => some item
  | _ => none

/-- A call of `run_ingest` but for its ledger, with the graph and the queues that it finds. A source
is asked for an item at most once in a call, and its answers may differ from call to call. -/
structure IngestRun (σ : Type) where
  source : Source
  client : GraphClient
  resolver : Resolver
  world : ResolverState σ

namespace IngestRun

variable [Python] {σ : Type} (h : Handler StoreCall StoreCall.Reply PyErr σ) (run : IngestRun σ)

/-- The turn of an item. -/
def takeUp (item : WorkItem) (w : IngestState σ) : Except PyErr Outcome × IngestState σ :=
  if item.key ∈ w.ledger then (.ok .skipped, w)
  else
    match run.source.fetch item with
    | .error e => (.error e, w)
    | .ok artifact =>
      match run.source.parse artifact with
      | .error e => (.error e, w)
      | .ok bundle =>
        match (loadBundle run.client run.resolver bundle).run (ResolverState.handler h) w.world with
        | (.error e, world) => (.error e, { w with world })
        | (.ok resolutions, world) =>
          (.ok (.ingested bundle resolutions), { world, ledger := insert item.key w.ledger })

/-- The turns of a loop over some items, up to one that raises. -/
def loopTurns : List WorkItem → IngestState σ → List Turn
  | [], _ => []
  | item :: items, w =>
    match run.takeUp h item w with
    | (.error e, _) => [⟨item, w.ledger, .error e⟩]
    | (.ok outcome, w') => ⟨item, w.ledger, .ok outcome⟩ :: loopTurns items w'

/-- The loop of `run_ingest` over some items. -/
abbrev loop (report : IngestReport) (items : List WorkItem) : IngestProgram IngestReport :=
  items.foldlM (ingestItem run.source run.client run.resolver) report

/-- How the calls of the loop are answered. -/
abbrev answers : Handler IngestCall IngestCall.Reply PyErr (IngestState σ) :=
  IngestState.handler run.source h

/-! ## Turns -/

omit [Python] in
theorem answers_hasSeen (key : String × String) (w : IngestState σ) :
    run.answers h (.hasSeen key) w = (.ok (decide (key ∈ w.ledger)), w) := rfl

omit [Python] in
theorem answers_fetch_ok (hfetch : run.source.fetch item = .ok artifact) (w : IngestState σ) :
    run.answers h (.fetch item) w = (.ok artifact, w) :=
  Prod.ext hfetch rfl

omit [Python] in
theorem answers_fetch_error (hfetch : run.source.fetch item = .error e) (w : IngestState σ) :
    run.answers h (.fetch item) w = (.error e, w) :=
  Prod.ext hfetch rfl

theorem run_ingestItem (report : IngestReport) (item : WorkItem) (w : IngestState σ) :
    (ingestItem run.source run.client run.resolver report item).run (run.answers h) w =
      ((run.takeUp h item w).1.map report.add, (run.takeUp h item w).2) := by
  rw [ingestItem, Program.run_call_ok (run.answers_hasSeen h item.key w), takeUp]
  by_cases hkey : item.key ∈ w.ledger
  · rw [if_pos (decide_eq_true hkey), if_pos hkey]
    rfl
  · rw [if_neg (by simpa using hkey), if_neg hkey]
    rcases hfetch : run.source.fetch item with e | artifact
    · rw [Program.run_call_error (run.answers_fetch_error h hfetch w)]
      rfl
    · rw [Program.run_call_ok (run.answers_fetch_ok h hfetch w)]
      dsimp only
      rcases hparse : run.source.parse artifact with e | bundle
      · rfl
      · rw [Program.ofExcept_ok, Program.ret_bind, Program.run_bind, IngestState.run_liftResolver]
        dsimp only
        rcases (loadBundle run.client run.resolver bundle).run (ResolverState.handler h) w.world
          with ⟨e | resolutions, world⟩ <;> rfl

omit [Python] in
theorem liftResolver_uses (p : ResolverProgram α) :
    (liftResolver p).Uses fun c => c.fetched? = none :=
  (Program.Uses.all p).lift fun _ _ => rfl

/-- A turn fetches its item when the ledger does not have it. -/
theorem fetched_ingestItem (report : IngestReport) (item : WorkItem) (w : IngestState σ) :
    ((ingestItem run.source run.client run.resolver report item).attempts
      (run.answers h) w).filterMap IngestCall.fetched? =
      if item.key ∈ w.ledger then [] else [item] := by
  rw [ingestItem, Program.attempts_call_ok (run.answers_hasSeen h item.key w)]
  by_cases hkey : item.key ∈ w.ledger
  · rw [if_pos (decide_eq_true hkey), if_pos hkey]
    rfl
  · rw [if_neg (by simpa using hkey), if_neg hkey]
    rcases hfetch : run.source.fetch item with e | artifact
    · rw [Program.attempts_call_error (run.answers_fetch_error h hfetch w)]
      rfl
    · rw [Program.attempts_call_ok (run.answers_fetch_ok h hfetch w)]
      refine congrArg (item :: ·) (List.filterMap_eq_nil_iff.mpr ?_)
      -- what comes after the fetch fetches nothing
      refine Program.Uses.attempts (P := fun c : IngestCall => c.fetched? = none) ?_ w
      refine (Program.Uses.ofExcept _).bind fun bundle => ?_
      exact (liftResolver_uses _).bind fun _ => ⟨rfl, fun _ => trivial⟩

/-! ## Loops -/

variable {h run} {item : WorkItem} {w w' : IngestState σ}

theorem run_loop_error (hturn : run.takeUp h item w = (.error e, w')) (report : IngestReport)
    (items : List WorkItem) :
    (run.loop report (item :: items)).run (run.answers h) w = (.error e, w') := by
  rw [loop, List.foldlM_cons, Program.run_bind, run_ingestItem, hturn]
  rfl

theorem run_loop_ok (hturn : run.takeUp h item w = (.ok outcome, w')) (report : IngestReport)
    (items : List WorkItem) :
    (run.loop report (item :: items)).run (run.answers h) w =
      (run.loop (report.add outcome) items).run (run.answers h) w' := by
  rw [loop, List.foldlM_cons, Program.run_bind, run_ingestItem, hturn]
  rfl

theorem loopTurns_error (hturn : run.takeUp h item w = (.error e, w')) (items : List WorkItem) :
    run.loopTurns h (item :: items) w = [⟨item, w.ledger, .error e⟩] := by
  rw [loopTurns, hturn]

theorem loopTurns_ok (hturn : run.takeUp h item w = (.ok outcome, w')) (items : List WorkItem) :
    run.loopTurns h (item :: items) w =
      ⟨item, w.ledger, .ok outcome⟩ :: run.loopTurns h items w' := by
  rw [loopTurns, hturn]

/-- A loop that completes, turn by turn: it ends with `report'` in `w'`. -/
inductive LoopReturns (run : IngestRun σ) (h : Handler StoreCall StoreCall.Reply PyErr σ)
    (report' : IngestReport) (w' : IngestState σ) :
    IngestReport → List WorkItem → IngestState σ → Prop
  | nil : LoopReturns run h report' w' report' [] w'
  | cons {report : IngestReport} {item : WorkItem} {items : List WorkItem} {w w₁ : IngestState σ} :
    run.takeUp h item w = (.ok outcome, w₁) →
    LoopReturns run h report' w' (report.add outcome) items w₁ →
    LoopReturns run h report' w' report (item :: items) w

theorem loopReturns_iff {report report' : IngestReport} {items : List WorkItem} :
    run.LoopReturns h report' w' report items w ↔
      (run.loop report items).run (run.answers h) w = (.ok report', w') := by
  constructor
  · intro hrun
    induction hrun with
    | nil => rfl
    | cons hturn _ ih => exact (run_loop_ok hturn ..).trans ih
  · intro hrun
    induction items generalizing report w with
    | nil =>
      cases hrun
      exact .nil
    | cons item items ih =>
      rcases hturn : run.takeUp h item w with ⟨e | outcome, w₁⟩
      · rw [run_loop_error hturn] at hrun
        cases hrun
      · rw [run_loop_ok hturn] at hrun
        exact .cons hturn (ih hrun)

/-- What a turn can come to, and what it does to the ledger. -/
inductive Takes (item : WorkItem) (w w' : IngestState σ) : Except PyErr Outcome → Prop
  | skipped : item.key ∈ w.ledger → w' = w → Takes item w w' (.ok .skipped)
  | raised : item.key ∉ w.ledger → w'.ledger = w.ledger → Takes item w w' (.error e)
  | ingested : item.key ∉ w.ledger → w'.ledger = insert item.key w.ledger →
    Takes item w w' (.ok (.ingested bundle resolutions))

theorem takes_of_takeUp (hturn : run.takeUp h item w = (outcome, w')) :
    Takes item w w' outcome := by
  rw [takeUp] at hturn
  split at hturn
  · cases hturn
    exact .skipped ‹_› rfl
  · rename_i hkey
    split at hturn
    · cases hturn
      exact .raised hkey rfl
    · split at hturn
      · cases hturn
        exact .raised hkey rfl
      · split at hturn <;> cases hturn
        · exact .raised hkey rfl
        · exact .ingested hkey rfl

/-- The ledger after a loop. -/
theorem loop_ledger (report : IngestReport) (items : List WorkItem) (w : IngestState σ) :
    ((run.loop report items).run (run.answers h) w).2.ledger =
      w.ledger ∪ (Turn.ingestedKeys (run.loopTurns h items w)).toFinset := by
  induction items generalizing report w with
  | nil => exact (Finset.union_empty _).symm
  | cons item items ih =>
    rcases hturn : run.takeUp h item w with ⟨e | outcome, w'⟩
    · rw [run_loop_error hturn, loopTurns_error hturn]
      cases takes_of_takeUp hturn with
      | raised _ hledger => exact hledger.trans (Finset.union_empty _).symm
    · rw [run_loop_ok hturn, loopTurns_ok hturn, ih]
      cases takes_of_takeUp hturn with
      | skipped _ hw => rw [hw, Turn.ingestedKeys_skipped]
      | ingested _ hledger =>
        rw [hledger, Turn.ingestedKeys_ingested, List.toFinset_cons, Finset.union_insert,
          Finset.insert_union]

/-- What a loop ingests was not in the ledger, and is ingested once. -/
theorem loop_nodup (items : List WorkItem) (w : IngestState σ) :
    (Turn.ingestedKeys (run.loopTurns h items w)).Nodup ∧
      ∀ key ∈ Turn.ingestedKeys (run.loopTurns h items w), key ∉ w.ledger := by
  induction items generalizing w with
  | nil => exact ⟨List.nodup_nil, nofun⟩
  | cons item items ih =>
    rcases hturn : run.takeUp h item w with ⟨e | outcome, w'⟩
    · rw [loopTurns_error hturn]
      exact ⟨List.nodup_nil, nofun⟩
    · rw [loopTurns_ok hturn]
      obtain ⟨hnodup, hfresh⟩ := ih w'
      cases takes_of_takeUp hturn with
      | skipped _ hw =>
        rw [hw] at hnodup hfresh ⊢
        exact ⟨hnodup, hfresh⟩
      | ingested hkey hledger =>
        rw [Turn.ingestedKeys_ingested, List.nodup_cons, List.forall_mem_cons]
        refine ⟨⟨fun hmem => ?_, hnodup⟩, hkey, fun key hmem hw => ?_⟩
        · exact hfresh _ hmem (hledger ▸ Finset.mem_insert_self ..)
        · exact hfresh _ hmem (hledger ▸ Finset.mem_insert_of_mem hw)

/-- A loop fetches the items that the ledger does not have when their turn comes. -/
theorem fetched_loop (report : IngestReport) (items : List WorkItem) (w : IngestState σ) :
    ((run.loop report items).attempts (run.answers h) w).filterMap IngestCall.fetched? =
      Turn.openItems (run.loopTurns h items w) := by
  induction items generalizing report w with
  | nil => rfl
  | cons item items ih =>
    rw [loop, List.foldlM_cons, Program.attempts_bind, List.filterMap_append, fetched_ingestItem,
      run_ingestItem]
    rcases hturn : run.takeUp h item w with ⟨e | outcome, w'⟩
    · rw [loopTurns_error hturn]
      cases takes_of_takeUp hturn with
      | raised hkey _ =>
        rw [if_neg hkey, Turn.openItems_of_not_mem hkey]
        rfl
    · rw [loopTurns_ok hturn]
      dsimp only [Except.map]
      rw [ih]
      let t : Turn := ⟨item, w.ledger, .ok outcome⟩
      split
      · rename_i hkey
        exact (Turn.openItems_of_mem (t := t) hkey _).symm
      · rename_i hkey
        exact (Turn.openItems_of_not_mem (t := t) hkey _).symm

/-- No two items that a loop fetches have the same key. -/
theorem openItems_nodup (items : List WorkItem) (w : IngestState σ) :
    ((Turn.openItems (run.loopTurns h items w)).map WorkItem.key).Nodup ∧
      ∀ item ∈ Turn.openItems (run.loopTurns h items w), item.key ∉ w.ledger := by
  induction items generalizing w with
  | nil => exact ⟨List.nodup_nil, nofun⟩
  | cons item items ih =>
    rcases hturn : run.takeUp h item w with ⟨e | outcome, w'⟩
    · rw [loopTurns_error hturn]
      cases takes_of_takeUp hturn with
      | raised hkey _ =>
        rw [Turn.openItems_of_not_mem hkey]
        exact ⟨List.nodup_singleton _, List.forall_mem_singleton.mpr hkey⟩
    · rw [loopTurns_ok hturn]
      obtain ⟨hnodup, hfresh⟩ := ih w'
      cases takes_of_takeUp hturn with
      | skipped hkey hw =>
        rw [Turn.openItems_of_mem hkey, ← hw]
        exact ⟨hnodup, hfresh⟩
      | ingested hkey hledger =>
        rw [Turn.openItems_of_not_mem hkey, List.map_cons, List.nodup_cons, List.forall_mem_cons]
        refine ⟨⟨fun hmem => ?_, hnodup⟩, hkey, fun item' hitem hw => ?_⟩
        · obtain ⟨item', hitem', heq⟩ := List.mem_map.mp hmem
          exact hfresh item' hitem' (hledger ▸ heq ▸ Finset.mem_insert_self ..)
        · exact hfresh item' hitem (hledger ▸ Finset.mem_insert_of_mem hw)

/-- The ledger before a turn. -/
theorem loopTurns_ledger {items : List WorkItem} (hts : run.loopTurns h items w = ts ++ t :: ts') :
    t.ledger = w.ledger ∪ (Turn.ingestedKeys ts).toFinset := by
  induction items generalizing w ts with
  | nil => cases ts <;> cases hts
  | cons item items ih =>
    rcases hturn : run.takeUp h item w with ⟨e | outcome, w'⟩
    · rw [loopTurns_error hturn] at hts
      obtain ⟨rfl, rfl, -⟩ : ts = [] ∧ t = ⟨item, w.ledger, .error e⟩ ∧ ts' = [] := by
        cases ts <;> simp_all
      exact (Finset.union_empty _).symm
    · rw [loopTurns_ok hturn] at hts
      cases ts with
      | nil =>
        obtain ⟨rfl, -⟩ := List.cons.inj hts
        exact (Finset.union_empty _).symm
      | cons t₁ ts =>
        obtain ⟨rfl, htail⟩ := List.cons.inj hts
        rw [ih htail]
        cases takes_of_takeUp hturn with
        | skipped _ hw => rw [hw, Turn.ingestedKeys_skipped]
        | ingested _ hledger =>
          rw [hledger, Turn.ingestedKeys_ingested, List.toFinset_cons, Finset.union_insert,
            Finset.insert_union]

/-- A loop that raises does so in the last of its turns. -/
theorem loop_error {report : IngestReport} {items : List WorkItem}
    (hrun : (run.loop report items).run (run.answers h) w = (.error e, w')) :
    ∃ ts t rest, run.loopTurns h items w = ts ++ [t] ∧ t.outcome = .error e ∧
      items = (run.loopTurns h items w).map Turn.item ++ rest := by
  induction items generalizing report w with
  | nil => cases hrun
  | cons item items ih =>
    rcases hturn : run.takeUp h item w with ⟨e' | outcome, w₁⟩
    · rw [run_loop_error hturn] at hrun
      cases hrun
      rw [loopTurns_error hturn]
      exact ⟨[], _, items, rfl, rfl, rfl⟩
    · rw [run_loop_ok hturn] at hrun
      obtain ⟨ts, t, rest, hts, ht, hitems⟩ := ih hrun
      rw [loopTurns_ok hturn]
      refine ⟨_ :: ts, t, rest, congrArg _ hts, ht, ?_⟩
      rw [List.map_cons, List.cons_append, ← hitems]

/-- The report of a loop that completes: every item has had its turn. -/
theorem loop_ok {report report' : IngestReport} {items : List WorkItem}
    (hrun : (run.loop report items).run (run.answers h) w = (.ok report', w')) :
    (run.loopTurns h items w).map Turn.item = items ∧
      report'.itemsIngested + report'.itemsSkipped =
        report.itemsIngested + report.itemsSkipped + items.length ∧
      report'.bundles = report.bundles ++
        ((run.loopTurns h items w).filterMap Turn.ingested?).map Prod.fst ∧
      report'.resolutions = report.resolutions ++
        ((run.loopTurns h items w).filterMap Turn.ingested?).flatMap Prod.snd := by
  replace hrun := loopReturns_iff.mpr hrun
  induction hrun with
  | nil => exact ⟨rfl, rfl, (List.append_nil _).symm, (List.append_nil _).symm⟩
  | @cons outcome report item items w w₁ hturn _ ih =>
    obtain ⟨hitems, hcount, hbundles, hresolutions⟩ := ih
    rw [loopTurns_ok hturn, hbundles, hresolutions, hcount]
    refine ⟨congrArg (item :: ·) hitems, ?_⟩
    cases outcome with
    | skipped =>
      refine ⟨?_, rfl, rfl⟩
      simp only [IngestReport.add, List.length_cons]
      omega
    | ingested bundle resolutions =>
      refine ⟨?_, List.append_assoc .., List.append_assoc ..⟩
      simp only [IngestReport.add, List.length_cons]
      omega

/-- No turn of a loop that completes raises. -/
theorem loop_returns {report report' : IngestReport} {items : List WorkItem}
    (hrun : (run.loop report items).run (run.answers h) w = (.ok report', w')) :
    ∀ t ∈ run.loopTurns h items w, ∃ outcome, t.outcome = .ok outcome := by
  replace hrun := loopReturns_iff.mpr hrun
  induction hrun with
  | nil => simp [loopTurns]
  | cons hturn _ ih =>
    rw [loopTurns_ok hturn, List.forall_mem_cons]
    exact ⟨⟨_, rfl⟩, ih⟩

/-- After a loop that completes, every item is in the ledger. -/
theorem loop_done {report report' : IngestReport} {items : List WorkItem}
    (hrun : (run.loop report items).run (run.answers h) w = (.ok report', w')) :
    ∀ item ∈ items, item.key ∈ w'.ledger := by
  replace hrun := loopReturns_iff.mpr hrun
  induction hrun with
  | nil => simp
  | @cons outcome report item items w w₁ hturn hrest ih =>
    rw [List.forall_mem_cons]
    refine ⟨?_, ih⟩
    have hledger : w'.ledger = w₁.ledger ∪
        (Turn.ingestedKeys (run.loopTurns h items w₁)).toFinset := by
      rw [← loop_ledger (report.add outcome), loopReturns_iff.mp hrest]
    rw [hledger]
    apply Finset.mem_union_left
    cases takes_of_takeUp hturn with
    | skipped hkey hw => exact hw ▸ hkey
    | ingested _ hw => exact hw ▸ Finset.mem_insert_self ..

/-- A loop that completes ingests what it fetches. -/
theorem loop_ingested {report report' : IngestReport} {items : List WorkItem}
    (hrun : (run.loop report items).run (run.answers h) w = (.ok report', w')) :
    report'.itemsIngested =
      report.itemsIngested + (Turn.openItems (run.loopTurns h items w)).length := by
  replace hrun := loopReturns_iff.mpr hrun
  induction hrun with
  | nil => rfl
  | cons hturn _ ih =>
    rw [loopTurns_ok hturn, ih]
    cases takes_of_takeUp hturn with
    | skipped hkey _ =>
      rw [Turn.openItems_of_mem hkey]
      rfl
    | ingested hkey _ =>
      rw [Turn.openItems_of_not_mem hkey, List.length_cons]
      simp only [IngestReport.add]
      omega

/-- What a loop that completes fetches, when no two of its items have the same key. -/
theorem openItems_eq {report report' : IngestReport} {items : List WorkItem}
    (hrun : (run.loop report items).run (run.answers h) w = (.ok report', w'))
    (hitems : (items.map WorkItem.key).Nodup) :
    Turn.openItems (run.loopTurns h items w) = items.filter fun item => item.key ∉ w.ledger := by
  replace hrun := loopReturns_iff.mpr hrun
  induction hrun with
  | nil => rfl
  | @cons outcome report item items w w₁ hturn _ ih =>
    rw [List.map_cons, List.nodup_cons] at hitems
    rw [loopTurns_ok hturn]
    cases takes_of_takeUp hturn with
    | skipped hkey hw =>
      rw [Turn.openItems_of_mem hkey, ih hitems.2, hw,
        List.filter_cons_of_neg (by simpa using hkey)]
    | ingested hkey hw =>
      rw [Turn.openItems_of_not_mem hkey, ih hitems.2, hw,
        List.filter_cons_of_pos (by simpa using hkey)]
      refine congrArg (item :: ·) (List.filter_congr fun item' hitem => ?_)
      have hne : item'.key ≠ item.key := fun heq =>
        hitems.1 (List.mem_map.mpr ⟨item', hitem, heq⟩)
      simp only [Finset.mem_insert, hne, false_or]

/-- When no turn skips its item, the report counts none. -/
theorem loop_skipped {report report' : IngestReport} {items : List WorkItem}
    (hrun : (run.loop report items).run (run.answers h) w = (.ok report', w'))
    (hnone : ∀ t ∈ run.loopTurns h items w, t.outcome ≠ .ok .skipped) :
    report'.itemsSkipped = report.itemsSkipped := by
  replace hrun := loopReturns_iff.mpr hrun
  induction hrun with
  | nil => rfl
  | @cons outcome report item items w w₁ hturn _ ih =>
    rw [loopTurns_ok hturn, List.forall_mem_cons] at hnone
    rw [ih hnone.2]
    cases outcome with
    | skipped => exact absurd rfl hnone.1
    | ingested bundle resolutions => rfl

/-- An item is skipped when it was in the ledger, or when one with its key came before. -/
theorem not_skipped {items : List WorkItem} (hitems : (items.map WorkItem.key).Nodup)
    (hfresh : ∀ item ∈ items, item.key ∉ w.ledger) :
    ∀ t ∈ run.loopTurns h items w, t.outcome ≠ .ok .skipped := by
  induction items generalizing w with
  | nil => exact nofun
  | cons item items ih =>
    rw [List.map_cons, List.nodup_cons] at hitems
    rw [List.forall_mem_cons] at hfresh
    rcases hturn : run.takeUp h item w with ⟨e | outcome, w'⟩
    · rw [loopTurns_error hturn]
      exact List.forall_mem_singleton.mpr nofun
    · rw [loopTurns_ok hturn, List.forall_mem_cons]
      cases takes_of_takeUp hturn with
      | skipped hkey _ => exact absurd hkey hfresh.1
      | ingested hkey hledger =>
        refine ⟨nofun, ih hitems.2 fun item' hitem hmem => ?_⟩
        rw [hledger, Finset.mem_insert] at hmem
        rcases hmem with heq | hmem
        · exact hitems.1 (List.mem_map.mpr ⟨item', hitem, heq⟩)
        · exact hfresh.2 item' hitem hmem

/-! ## Columns -/

omit h run in
theorem resolve_column (r : Resolver) (column : ObservedColumn) :
    (r.resolve column).Returns fun resolution => resolution.column = column := by
  refine (Program.Returns.all _).bind fun index _ => ?_
  split
  · rfl
  · split
    · rfl
    · refine (Program.Returns.all _).bind fun terms _ => ?_
      refine (Program.Returns.all _).bind fun ranked _ => ?_
      dsimp only
      split
      · rfl
      · exact fun _ => rfl

/-- A bundle has one resolution for each of its columns. -/
theorem loadBundle_columns (client : GraphClient) (r : Resolver) (bundle : ParsedBundle) :
    (loadBundle client r bundle).Returns fun resolutions =>
      resolutions.map Resolution.column = bundle.iterColumns := by
  refine (Program.Returns.all _).bind fun _ _ => ?_
  have hturns : (bundle.iterColumns.mapM (resolveAndLink r bundle.provenance.toEdge
      (ownerOf bundle.entities))).Returns
      (List.Forall₂ (fun column resolution => column = resolution.column) bundle.iterColumns) :=
    Program.Returns.mapM fun column => (resolve_column r column).bind fun outcome houtcome =>
      (Program.Returns.all _).bind fun _ _ => houtcome.symm
  refine hturns.mono fun resolutions hcolumns => ?_
  have hcolumns := List.forall₂_map_right_iff.mpr hcolumns
  rw [List.forall₂_eq_eq_eq] at hcolumns
  exact hcolumns.symm

/-- What is behind an item that was ingested. -/
theorem takeUp_ingested
    (hturn : run.takeUp h item w = (.ok (.ingested bundle resolutions), w')) :
    ∃ artifact, run.source.fetch item = .ok artifact ∧ run.source.parse artifact = .ok bundle ∧
      (loadBundle run.client run.resolver bundle).run (ResolverState.handler h) w.world =
        (.ok resolutions, w'.world) := by
  rw [takeUp] at hturn
  split at hturn
  · cases hturn
  · split at hturn
    · cases hturn
    · split at hturn
      · cases hturn
      · split at hturn <;> cases hturn
        exact ⟨_, ‹_›, ‹_›, ‹_›⟩

/-- The bundle of an item that was ingested is the one that its artifact is parsed to. -/
theorem bundle_of_loopTurns {items : List WorkItem} (ht : t ∈ run.loopTurns h items w)
    (hb : t.ingested? = some (bundle, resolutions)) :
    ∃ artifact, run.source.fetch t.item = .ok artifact ∧
      run.source.parse artifact = .ok bundle := by
  induction items generalizing w with
  | nil => cases ht
  | cons item items ih =>
    rcases hturn : run.takeUp h item w with ⟨e | outcome, w₁⟩
    · rw [loopTurns_error hturn, List.mem_singleton] at ht
      cases ht
      cases hb
    · rw [loopTurns_ok hturn] at ht
      rcases List.mem_cons.mp ht with rfl | ht
      · cases outcome with
        | skipped => cases hb
        | ingested bundle' resolutions' =>
          cases hb
          obtain ⟨artifact, hfetch, hparse, -⟩ := takeUp_ingested hturn
          exact ⟨artifact, hfetch, hparse⟩
      · exact ih ht

theorem takeUp_columns
    (hturn : run.takeUp h item w = (.ok (.ingested bundle resolutions), w')) :
    resolutions.map Resolution.column = bundle.iterColumns := by
  obtain ⟨_, -, -, hload⟩ := takeUp_ingested hturn
  exact (loadBundle_columns _ _ _).run hload

/-- The resolutions of a loop are those of the columns of its bundles. -/
theorem loop_columns (items : List WorkItem) (w : IngestState σ) :
    (((run.loopTurns h items w).filterMap Turn.ingested?).flatMap Prod.snd).map Resolution.column =
      (((run.loopTurns h items w).filterMap Turn.ingested?).map Prod.fst).flatMap
        ParsedBundle.iterColumns := by
  induction items generalizing w with
  | nil => rfl
  | cons item items ih =>
    rcases hturn : run.takeUp h item w with ⟨e | outcome, w'⟩
    · rw [loopTurns_error hturn]
      rfl
    · rw [loopTurns_ok hturn]
      cases outcome with
      | skipped => exact ih w'
      | ingested bundle resolutions =>
        let done := (run.loopTurns h items w').filterMap Turn.ingested?
        have hdone : (done.flatMap Prod.snd).map Resolution.column =
            (done.map Prod.fst).flatMap ParsedBundle.iterColumns := ih w'
        change (((bundle, resolutions) :: done).flatMap Prod.snd).map Resolution.column =
          (((bundle, resolutions) :: done).map Prod.fst).flatMap ParsedBundle.iterColumns
        rw [List.flatMap_cons, List.map_append, takeUp_columns hturn, hdone]
        rfl

/-! ## Series of runs -/

variable (h)

/-- What a call of `run_ingest` over a ledger returns or raises, and the state that it leaves. -/
def result (run : IngestRun σ) (ledger : Finset (String × String)) :
    Except PyErr IngestReport × IngestState σ :=
  (runIngest run.source run.client run.resolver).run (run.answers h) ⟨run.world, ledger⟩

/-- The items that it fetches, in their order; one whose fetch raises is the last. -/
def fetched (run : IngestRun σ) (ledger : Finset (String × String)) : List WorkItem :=
  ((runIngest run.source run.client run.resolver).attempts (run.answers h)
    ⟨run.world, ledger⟩).filterMap IngestCall.fetched?

/-- Its turns. -/
def turns (run : IngestRun σ) (ledger : Finset (String × String)) : List Turn :=
  run.loopTurns h run.source.discover ⟨run.world, ledger⟩

/-- Some runs one after the other, with the ledgers that they start from. -/
def history : Finset (String × String) → List (IngestRun σ) →
    List (IngestRun σ × Finset (String × String))
  | _, [] => []
  | ledger, run :: runs => (run, ledger) :: history (run.result h ledger).2.ledger runs

/-- The ledger that some runs one after the other leave. -/
def ledgerAfter (ledger : Finset (String × String)) (runs : List (IngestRun σ)) :
    Finset (String × String) :=
  runs.foldl (fun ledger run => (run.result h ledger).2.ledger) ledger

/-- The keys that some runs one after the other ingest. -/
def ingestedKeys (ledger : Finset (String × String)) (runs : List (IngestRun σ)) :
    List (String × String) :=
  (history h ledger runs).flatMap fun (run, ledger) => Turn.ingestedKeys (run.turns h ledger)

variable {h}

theorem result_ledger (run : IngestRun σ) (ledger : Finset (String × String)) :
    (run.result h ledger).2.ledger =
      ledger ∪ (Turn.ingestedKeys (run.turns h ledger)).toFinset :=
  loop_ledger ..

theorem ingestedKeys_cons (ledger : Finset (String × String)) (run : IngestRun σ)
    (runs : List (IngestRun σ)) : ingestedKeys h ledger (run :: runs) =
      Turn.ingestedKeys (run.turns h ledger) ++
        ingestedKeys h (run.result h ledger).2.ledger runs :=
  List.flatMap_cons

theorem ledgerAfter_eq (ledger : Finset (String × String)) (runs : List (IngestRun σ)) :
    ledgerAfter h ledger runs = ledger ∪ (ingestedKeys h ledger runs).toFinset := by
  induction runs generalizing ledger with
  | nil => exact (Finset.union_empty _).symm
  | cons run runs ih =>
    rw [ledgerAfter, List.foldl_cons, ← ledgerAfter, ih, ingestedKeys_cons, List.toFinset_append,
      ← Finset.union_assoc, ← result_ledger]

theorem ingestedKeys_nodup (ledger : Finset (String × String)) (runs : List (IngestRun σ)) :
    (ingestedKeys h ledger runs).Nodup ∧ ∀ key ∈ ingestedKeys h ledger runs, key ∉ ledger := by
  induction runs generalizing ledger with
  | nil => exact ⟨List.nodup_nil, nofun⟩
  | cons run runs ih =>
    obtain ⟨hnodup, hfresh⟩ := ih (run.result h ledger).2.ledger
    obtain ⟨hnodup₁, hfresh₁⟩ : (Turn.ingestedKeys (run.turns h ledger)).Nodup ∧
        ∀ key ∈ Turn.ingestedKeys (run.turns h ledger), key ∉ ledger := loop_nodup ..
    -- what the first run ingested is in the ledger of the later ones
    have hfresh (key) (hkey : key ∈ ingestedKeys h (run.result h ledger).2.ledger runs) :
        key ∉ ledger ∧ key ∉ Turn.ingestedKeys (run.turns h ledger) := by
      simpa [result_ledger] using hfresh key hkey
    rw [ingestedKeys_cons]
    refine ⟨List.nodup_append.mpr ⟨hnodup₁, hnodup, ?_⟩, fun key hkey => ?_⟩
    · rintro key hkey _ hkey' rfl
      exact (hfresh key hkey').2 hkey
    · rcases List.mem_append.mp hkey with hkey | hkey
      · exact hfresh₁ key hkey
      · exact (hfresh key hkey).1

/-- **What is ingested, fetched and reported.** A key is in the ledger exactly when it was there
before or a load for an item with that key returned, which no two loads do. A run fetches the
discovered items that are not in the ledger when their turn comes, up to one that raises. -/
theorem ledger_exact (h : Handler StoreCall StoreCall.Reply PyErr σ)
    (ledger : Finset (String × String)) (runs : List (IngestRun σ)) :
    (∀ key, key ∈ ledgerAfter h ledger runs ↔ key ∈ ledger ∨ key ∈ ingestedKeys h ledger runs) ∧
    (ingestedKeys h ledger runs).Nodup ∧
    ∀ run l, (run, l) ∈ history h ledger runs →
      (∀ ts t ts', run.turns h l = ts ++ t :: ts' →
        t.ledger = l ∪ (Turn.ingestedKeys ts).toFinset) ∧
      run.fetched h l = Turn.openItems (run.turns h l) ∧
      ((run.fetched h l).map WorkItem.key).Nodup ∧
      (∀ e, (run.result h l).1 = .error e → ∃ ts t rest, run.turns h l = ts ++ [t] ∧
        t.outcome = .error e ∧ run.source.discover = (run.turns h l).map Turn.item ++ rest) ∧
      (∀ report, (run.result h l).1 = .ok report →
        (run.turns h l).map Turn.item = run.source.discover ∧
        report.itemsIngested + report.itemsSkipped = run.source.discover.length ∧
        report.resolutions.map Resolution.column =
          report.bundles.flatMap ParsedBundle.iterColumns) := by
  refine ⟨fun key => ?_, (ingestedKeys_nodup ledger runs).1, fun run l hrun =>
    ⟨fun ts t ts' => loopTurns_ledger, fetched_loop .., ?_, fun e herror => ?_,
      fun report hreport => ?_⟩⟩
  · rw [ledgerAfter_eq, Finset.mem_union, List.mem_toFinset]
  · rw [fetched, runIngest, fetched_loop]
    exact (openItems_nodup ..).1
  · exact loop_error (Prod.ext herror rfl)
  · obtain ⟨hitems, hcount, hbundles, hresolutions⟩ := loop_ok (Prod.ext hreport rfl)
    refine ⟨hitems, hcount.trans (Nat.zero_add _), ?_⟩
    rw [hbundles, hresolutions]
    exact loop_columns ..

end IngestRun

end MarginKG
