import MarginKG.Verify.Loads

/-! Crash and resume: however often `run_ingest` is interrupted, and whichever of the ledgers is
lost, a run that completes leaves the graph that one uninterrupted run would have left
(`resumed_graph`).

The writes of the items that a ledger leaves open (`left`) are what remains to be done. A run
makes the first of them; when it is interrupted, the writes of the item it was at are made again
(`Progress`). So all runs together write the sequence of the uninterrupted run with
interruptions, in the sense of `Resumed`. -/

namespace MarginKG

open InMemoryGraphStore

section runs
variable [Python] (source : Source) (c : GraphClient) (r : Resolver) (g₀ : InMemoryGraphStore)

/-- The states from which `run_ingest` is started when every run before was interrupted at some
point. The first run has an empty ledger, a later one the ledger as it was at the interruption
or an empty one. Queues do not outlive a run. -/
inductive Interrupted : IngestState InMemoryGraphStore → Prop
  | start : Interrupted ⟨⟨g₀, queues⟩, ∅⟩
  | crash : Interrupted w →
    Program.Steps (IngestState.handler source handler) (runIngest source c r) w l q w' →
    ledger = w'.ledger ∨ ledger = ∅ → Interrupted ⟨⟨w'.world.store, queues⟩, ledger⟩

/-! ## Items -/

omit [Python] in
/-- The items that a run over this ledger takes up. -/
def pending : Finset (String × String) → List WorkItem → List WorkItem
  | _, [] => []
  | done, item :: items =>
    if item.key ∈ done then pending done items
    else item :: pending (insert item.key done) items

/-- The writes of an item. -/
noncomputable def itemWrites (item : WorkItem) : List Write :=
  match source.fetch item with
  | .error _ => []
  | .ok artifact =>
    match source.parse artifact with
    | .error _ => []
    | .ok b => loadWrites c r g₀ b

/-- Neither the source nor the load of its bundle raises an exception for the item. -/
def Loads (item : WorkItem) : Prop :=
  ∃ artifact b out, source.fetch item = .ok artifact ∧ source.parse artifact = .ok b ∧
    loadOutcome c r g₀ b = .ok out

/-- The writes that are left to be made when the items of the ledger are done. -/
noncomputable def left (done : Finset (String × String)) (items : List WorkItem) : List Write :=
  (pending done items).flatMap (itemWrites source c r g₀)

omit [Python] in
theorem pending_of_mem {item : WorkItem} (h : item.key ∈ done) (items : List WorkItem) :
    pending done (item :: items) = pending done items := if_pos h

omit [Python] in
theorem pending_of_not_mem {item : WorkItem} (h : item.key ∉ done) (items : List WorkItem) :
    pending done (item :: items) = item :: pending (insert item.key done) items := if_neg h

omit [Python] in
theorem pending_eq_nil {items : List WorkItem} (h : ∀ item ∈ items, item.key ∈ done) :
    pending done items = [] := by
  induction items with
  | nil => rfl
  | cons item items ih =>
    rw [pending_of_mem (h item List.mem_cons_self)]
    exact ih fun item hi => h item (List.mem_cons_of_mem _ hi)

variable {source c r g₀} {w w' : IngestState InMemoryGraphStore} {items : List WorkItem}

/-- What the steps of a load and of the mark after it amount to: some of the first writes of the
bundle; or all of them, and the item is then done. -/
theorem bundle_steps (hw : g₀.SameMetrics w.world.store) {key : String × String}
    {b : ParsedBundle} {report : List Resolution → IngestReport}
    (H : Program.Steps (IngestState.handler source handler)
      (liftResolver (loadBundle c r b) >>= fun resolutions =>
        .call (.markDone key) fun _ => .ret (report resolutions)) w l q w') :
    (∃ Q R, loadWrites c r g₀ b = Q ++ R ∧ g₀.Wrote Q w.world.store w'.world.store ∧
      w'.ledger = w.ledger ∧ ∀ report', q ≠ .ret report') ∨
    (∃ out, loadOutcome c r g₀ b = .ok out) ∧ w'.ledger = insert key w.ledger ∧
      g₀.Wrote (loadWrites c r g₀ b) w.world.store w'.world.store := by
  rcases H.bind_inv with ⟨p, rfl, H₁⟩ | ⟨out, w₁, l₁, l₂, -, H₁, H₂⟩ <;>
    obtain ⟨l, q, -, hq, hsteps, hw₁⟩ :=
      Program.Steps.of_lift (IngestState.lifting source handler) H₁ <;>
    obtain ⟨hsplit, hout, hwrote⟩ := load_steps hw hsteps
  · subst hq
    refine .inl ⟨writesOf l, _, hsplit, hwrote, by rw [hw₁], ?_⟩
    cases q <;> nofun
  · cases q with
    | throw | call => cases hq
    | ret out =>
      rw [hsplit.trans (List.append_nil _)]
      have hledger : w₁.ledger = w.ledger := by rw [hw₁]
      cases H₂ with
      | refl => exact .inl ⟨writesOf l, [], (List.append_nil _).symm, hwrote, hledger, nofun⟩
      | call hmark H₂ =>
        cases hmark
        cases H₂
        exact .inr ⟨⟨out, hout⟩, congrArg (insert key) hledger, hwrote⟩

/-- What the steps of one item amount to: nothing when the item is done; some of its first
writes; or all of them, and the item is then done. -/
theorem item_steps (hw : g₀.SameMetrics w.world.store) {report : IngestReport} {item : WorkItem}
    (H : Program.Steps (IngestState.handler source handler)
      (ingestItem source c r report item) w l q w') :
    (item.key ∈ w.ledger ∧ w' = w) ∨
    (item.key ∉ w.ledger ∧ ∃ Q R, itemWrites source c r g₀ item = Q ++ R ∧
      g₀.Wrote Q w.world.store w'.world.store ∧ w'.ledger = w.ledger ∧
      ∀ report', q ≠ .ret report') ∨
    item.key ∉ w.ledger ∧ Loads source c r g₀ item ∧ w'.ledger = insert item.key w.ledger ∧
      g₀.Wrote (itemWrites source c r g₀ item) w.world.store w'.world.store := by
  by_cases hkey : item.key ∈ w.ledger
  · left
    refine ⟨hkey, ?_⟩
    cases H with
    | refl => rfl
    | call hseen H =>
      cases hseen
      dsimp only at H
      rw [if_pos (by simpa using hkey)] at H
      cases H
      rfl
  right
  cases H with
  | refl => exact .inl ⟨hkey, [], _, rfl, .nil hw, rfl, nofun⟩
  | call hseen H =>
    cases hseen
    dsimp only at H
    rw [if_neg (by simpa using hkey)] at H
    cases H with
    | refl => exact .inl ⟨hkey, [], _, rfl, .nil hw, rfl, nofun⟩
    | call hreply H =>
      rename_i artifact
      obtain ⟨hfetch, hs⟩ := Prod.ext_iff.mp hreply
      change source.fetch item = .ok artifact at hfetch
      cases hs
      clear hreply
      change Program.Steps _ (Program.ofExcept (source.parse artifact) >>= _) w _ q w' at H
      rcases hparse : source.parse artifact with e | b <;> rw [hparse] at H
      · cases H
        exact .inl ⟨hkey, [], _, rfl, .nil hw, rfl, nofun⟩
      rw [Program.ofExcept_ok, Program.ret_bind] at H
      have hwrites : itemWrites source c r g₀ item = loadWrites c r g₀ b := by
        rw [itemWrites, hfetch]
        dsimp only
        rw [hparse]
      rw [hwrites]
      rcases bundle_steps hw H with hpart | ⟨⟨out, hout⟩, hledger, hwrote⟩
      · exact .inl ⟨hkey, hpart⟩
      · exact .inr ⟨hkey, ⟨artifact, b, out, hfetch, hparse, hout⟩, hledger, hwrote⟩

/-! ## Runs -/

variable (source c r g₀ items) in
/-- A run from `w` to `w'` has made the writes `Q₁` of the items that it finished and `Q₂` of the
one it was at; `R` is left besides. -/
structure Progress (w w' : IngestState InMemoryGraphStore) (Q₁ Q₂ R : List Write) : Prop where
  before : left source c r g₀ w.ledger items = Q₁ ++ Q₂ ++ R
  after : left source c r g₀ w'.ledger items = Q₂ ++ R
  wrote : g₀.Wrote (Q₁ ++ Q₂) w.world.store w'.world.store
  ledger : w.ledger ⊆ w'.ledger
  loads : ∀ item ∈ pending w.ledger items,
    item ∈ pending w'.ledger items ∨ Loads source c r g₀ item

namespace Progress

theorem refl (hw : g₀.SameMetrics w.world.store) :
    Progress source c r g₀ items w w [] [] (left source c r g₀ w.ledger items) :=
  ⟨rfl, rfl, .nil hw, subset_rfl, fun _ => .inl⟩

/-- The first item was done before. -/
theorem cons_done {item : WorkItem} (h : Progress source c r g₀ items w w' Q₁ Q₂ R)
    (hkey : item.key ∈ w.ledger) : Progress source c r g₀ (item :: items) w w' Q₁ Q₂ R := by
  refine ⟨?_, ?_, h.wrote, h.ledger, ?_⟩
  · rw [left, pending_of_mem hkey]
    exact h.before
  · rw [left, pending_of_mem (h.ledger hkey)]
    exact h.after
  · rw [pending_of_mem hkey, pending_of_mem (h.ledger hkey)]
    exact h.loads

/-- The first item is finished. -/
theorem cons {item : WorkItem} {w₁ : IngestState InMemoryGraphStore}
    (h : Progress source c r g₀ items w₁ w' Q₁ Q₂ R) (hkey : item.key ∉ w.ledger)
    (hload : Loads source c r g₀ item) (hledger : w₁.ledger = insert item.key w.ledger)
    (hwrote : g₀.Wrote (itemWrites source c r g₀ item) w.world.store w₁.world.store) :
    Progress source c r g₀ (item :: items) w w' (itemWrites source c r g₀ item ++ Q₁) Q₂ R := by
  have hdone : item.key ∈ w'.ledger := h.ledger (hledger ▸ Finset.mem_insert_self ..)
  have hbefore := h.before
  have hloads := h.loads
  rw [left, hledger] at hbefore
  rw [hledger] at hloads
  refine ⟨?_, ?_, ?_, fun k hk => h.ledger (hledger ▸ Finset.mem_insert_of_mem hk), ?_⟩
  · rw [left, pending_of_not_mem hkey, List.flatMap_cons, hbefore]
    simp only [List.append_assoc]
  · rw [left, pending_of_mem hdone]
    exact h.after
  · rw [List.append_assoc]
    exact hwrote.append h.wrote
  · rw [pending_of_not_mem hkey, pending_of_mem hdone]
    intro item' hitem
    rcases List.mem_cons.mp hitem with rfl | hitem
    · exact .inr hload
    · exact hloads item' hitem

end Progress

theorem loop_steps (hw : g₀.SameMetrics w.world.store) {report : IngestReport}
    (H : Program.Steps (IngestState.handler source handler)
      (items.foldlM (ingestItem source c r) report) w l q w') :
    ∃ Q₁ Q₂ R, Progress source c r g₀ items w w' Q₁ Q₂ R := by
  induction items generalizing w report l with
  | nil =>
    cases H
    exact ⟨_, _, _, .refl hw⟩
  | cons item items ih =>
    rw [List.foldlM_cons] at H
    rcases H.bind_inv with ⟨p, -, H₁⟩ | ⟨report', w₁, l₁, l₂, -, H₁, H₂⟩
    · rcases item_steps hw H₁ with ⟨hkey, rfl⟩ | ⟨hkey, Q, R, hQ, hwrote, hledger, -⟩ |
        ⟨hkey, hload, hledger, hwrote⟩
      · exact ⟨_, _, _, .refl hw⟩
      · -- the run stops within the item, which is still open
        refine ⟨[], Q, R ++ left source c r g₀ (insert item.key w.ledger) items, ?_, ?_, hwrote,
          hledger.symm.subset, fun _ hitem => .inl (hledger ▸ hitem)⟩
        · rw [left, pending_of_not_mem hkey, List.flatMap_cons, hQ, List.append_assoc]
          rfl
        · rw [hledger, left, pending_of_not_mem hkey, List.flatMap_cons, hQ, List.append_assoc]
          rfl
      · exact ⟨_, _, _, (Progress.refl hwrote.metrics).cons hkey hload hledger hwrote⟩
    · rcases item_steps hw H₁ with ⟨hkey, rfl⟩ | ⟨-, -, -, -, -, -, hne⟩ |
        ⟨hkey, hload, hledger, hwrote⟩
      · obtain ⟨Q₁, Q₂, R, h⟩ := ih hw H₂
        exact ⟨_, _, _, h.cons_done hkey⟩
      · exact absurd rfl (hne report')
      · obtain ⟨Q₁, Q₂, R, h⟩ := ih hwrote.metrics H₂
        exact ⟨_, _, _, h.cons hkey hload hledger hwrote⟩

/-- After a run that completes every item is done. -/
theorem loop_done (hw : g₀.SameMetrics w.world.store) {report report' : IngestReport}
    (H : Program.Steps (IngestState.handler source handler)
      (items.foldlM (ingestItem source c r) report) w l (.ret report') w') :
    ∀ item ∈ items, item.key ∈ w'.ledger := by
  induction items generalizing w report l with
  | nil => simp
  | cons item items ih =>
    rw [List.foldlM_cons] at H
    obtain ⟨report₁, w₁, l₁, l₂, -, H₁, H₂⟩ := H.bind_ret_inv
    obtain ⟨hsame, hkey⟩ : g₀.SameMetrics w₁.world.store ∧ item.key ∈ w₁.ledger := by
      rcases item_steps hw H₁ with ⟨hkey, rfl⟩ | ⟨-, -, -, -, -, -, hne⟩ |
        ⟨hkey, hload, hledger, hwrote⟩
      · exact ⟨hw, hkey⟩
      · exact absurd rfl (hne report₁)
      · exact ⟨hwrote.metrics, hledger ▸ Finset.mem_insert_self ..⟩
    obtain ⟨Q₁, Q₂, R, hprogress⟩ := loop_steps hsame H₂
    intro item' hitem
    rcases List.mem_cons.mp hitem with rfl | hitem
    · exact hprogress.ledger hkey
    · exact ih hsame H₂ item' hitem

theorem item_completes (hw : g₀.SameMetrics w.world.store) {item : WorkItem}
    (hkey : item.key ∉ w.ledger) (hload : Loads source c r g₀ item)
    (hadmits : writes.Admits Write.Admitted (itemWrites source c r g₀ item)
      w.world.store.contents) (report : IngestReport) :
    ∃ report' w₁, (ingestItem source c r report item).run (IngestState.handler source handler) w =
        (.ok report', w₁) ∧ w₁.ledger = insert item.key w.ledger ∧
      g₀.Wrote (itemWrites source c r g₀ item) w.world.store w₁.world.store := by
  obtain ⟨artifact, b, out, hfetch, hparse, hout⟩ := hload
  have hwrites : itemWrites source c r g₀ item = loadWrites c r g₀ b := by
    simp only [itemWrites, hfetch, hparse]
  obtain ⟨s, hrun⟩ := load_completes hw hout (hwrites ▸ hadmits)
  obtain ⟨report', w₁, hitem⟩ : ∃ report' w₁, (ingestItem source c r report item).run
      (IngestState.handler source handler) w = (.ok report', w₁) := by
    have hseen : IngestState.handler source handler (.hasSeen item.key) w = (.ok false, w) := by
      simp only [IngestState.handler, hkey, decide_false]
    have hfetched : IngestState.handler source handler (.fetch item) w = (.ok artifact, w) := by
      simp only [IngestState.handler, hfetch]
    rw [ingestItem, Program.run_call_ok hseen, if_neg Bool.false_ne_true,
      Program.run_call_ok hfetched, hparse, Program.ofExcept_ok, Program.ret_bind,
      Program.run_bind, IngestState.run_liftResolver, hrun]
    exact ⟨_, _, rfl⟩
  refine ⟨report', w₁, hitem, ?_⟩
  obtain ⟨l, H⟩ := Program.Steps.of_run hitem
  rcases item_steps hw H with ⟨hmem, -⟩ | ⟨-, -, -, -, -, -, hne⟩ | ⟨-, -, h⟩
  · exact absurd hmem hkey
  · exact absurd rfl (hne report')
  · exact h

theorem loop_completes (hw : g₀.SameMetrics w.world.store)
    (hloads : ∀ item ∈ pending w.ledger items, Loads source c r g₀ item)
    (hadmits : writes.Admits Write.Admitted (left source c r g₀ w.ledger items)
      w.world.store.contents) (report : IngestReport) :
    ∃ report' w', (items.foldlM (ingestItem source c r) report).run
      (IngestState.handler source handler) w = (.ok report', w') := by
  induction items generalizing w report with
  | nil => exact ⟨report, w, rfl⟩
  | cons item items ih =>
    rw [List.foldlM_cons]
    by_cases hkey : item.key ∈ w.ledger
    · rw [pending_of_mem hkey] at hloads
      rw [left, pending_of_mem hkey] at hadmits
      have hseen : IngestState.handler source handler (.hasSeen item.key) w = (.ok true, w) := by
        simp only [IngestState.handler, hkey, decide_true]
      rw [ingestItem, Program.call_bind, Program.run_call_ok hseen, if_pos rfl, Program.ret_bind]
      exact ih hw hloads hadmits _
    · rw [pending_of_not_mem hkey] at hloads
      rw [left, pending_of_not_mem hkey, List.flatMap_cons, writes.admits_append] at hadmits
      obtain ⟨report₁, w₁, hrun, hledger, hwrote⟩ :=
        item_completes hw hkey (hloads item List.mem_cons_self) hadmits.1 report
      rw [Program.run_bind_ok hrun]
      refine ih hwrote.metrics (fun item' hitem => ?_) ?_ report₁
      · exact hloads item' (List.mem_cons_of_mem _ (hledger ▸ hitem))
      · rw [left, hledger, hwrote.contents]
        exact hadmits.2

/-! ## Series of runs -/

variable (source c r g₀) in
/-- The runs so far have made the writes `U`: those of the uninterrupted run, with
interruptions. -/
structure Underway (w : IngestState InMemoryGraphStore) (U : List Write) : Prop where
  resumed : Resumed (left source c r g₀ ∅ source.discover) U
    (left source c r g₀ w.ledger source.discover)
  wrote : g₀.Wrote U g₀ w.world.store
  loads : ∀ item ∈ pending ∅ source.discover,
    item ∈ pending w.ledger source.discover ∨ Loads source c r g₀ item

namespace Underway

theorem steps (h : Underway source c r g₀ w U)
    (H : Program.Steps (IngestState.handler source handler) (runIngest source c r) w l q w') :
    ∃ U', Underway source c r g₀ w' U' := by
  obtain ⟨Q₁, Q₂, R, hprogress⟩ := loop_steps h.wrote.metrics H
  refine ⟨U ++ (Q₁ ++ Q₂), ?_, h.wrote.append hprogress.wrote, fun item hitem => ?_⟩
  · rw [hprogress.after]
    exact .writes (hprogress.before ▸ h.resumed)
  · rcases h.loads item hitem with hopen | hload
    · exact hprogress.loads item hopen
    · exact .inr hload

theorem restart (h : Underway source c r g₀ w U) (hledger : ledger = w.ledger ∨ ledger = ∅)
    (queues : List (List Resolution)) :
    Underway source c r g₀ ⟨⟨w.world.store, queues⟩, ledger⟩ U := by
  rcases hledger with rfl | rfl
  · exact ⟨h.resumed, h.wrote, h.loads⟩
  · exact ⟨.restart h.resumed, h.wrote, fun _ => .inl⟩

/-- Once every item is done, the graph is what the uninterrupted run makes of it, and that run
completes. -/
theorem finished (h : Underway source c r g₀ w U)
    (hdone : ∀ item ∈ source.discover, item.key ∈ w.ledger) :
    w.world.store.contents =
        writeAll writes.act (left source c r g₀ ∅ source.discover) g₀.contents ∧
      writes.Admits Write.Admitted (left source c r g₀ ∅ source.discover) g₀.contents ∧
      ∀ item ∈ pending ∅ source.discover, Loads source c r g₀ item := by
  have hnil := pending_eq_nil hdone
  have hresumed := h.resumed
  rw [show left source c r g₀ w.ledger source.discover = [] by rw [left, hnil]; rfl] at hresumed
  refine ⟨?_, ?_, fun item hitem => (h.loads item hitem).resolve_left (by simp [hnil])⟩
  · rw [h.wrote.contents]
    exact hresumed.writeAll_eq writes_absorbing _
  · obtain ⟨hsound, hfirst⟩ := admits_writes_iff.mp h.wrote.admits
    refine admits_writes_iff.mpr
      ⟨fun v hv => hsound v (hresumed.mem_of_nil hv), fun p v hv => hfirst p v ?_⟩
    rcases hresumed.find? (writes.loc · = p) with hnone | heq
    · have hmem := hresumed.mem_of_nil (List.mem_of_find?_eq_some hv)
      exact absurd (List.find?_some hv) (List.find?_eq_none.mp hnone v hmem)
    · exact heq.trans hv

end Underway

theorem Interrupted.underway (h : Interrupted source c r g₀ w) :
    ∃ U, Underway source c r g₀ w U := by
  induction h with
  | start => exact ⟨[], .start, .nil (.refl g₀), fun _ => .inl⟩
  | crash _ H hledger ih =>
    obtain ⟨U, hU⟩ := ih
    obtain ⟨U', hU'⟩ := hU.steps H
    exact ⟨U', hU'.restart hledger _⟩

/-- **Crash and resume**: a run that completes after any interruptions leaves, as maps, the nodes
and edges that one uninterrupted run over an empty ledger leaves. -/
theorem resumed_graph (h : Interrupted source c r g₀ w)
    (hrun : (runIngest source c r).run (IngestState.handler source handler) w = (.ok report, w'))
    (queues : List (List Resolution)) :
    ∃ report₀ w₀, (runIngest source c r).run (IngestState.handler source handler)
        ⟨⟨g₀, queues⟩, ∅⟩ = (.ok report₀, w₀) ∧
      w'.world.store.contents = w₀.world.store.contents := by
  obtain ⟨U, hU⟩ := h.underway
  obtain ⟨l, H⟩ := Program.Steps.of_run hrun
  obtain ⟨U', hU'⟩ := hU.steps H
  obtain ⟨hcontents, hadmits, hloads⟩ := hU'.finished (loop_done hU.wrote.metrics H)
  have hstart : Underway source c r g₀ ⟨⟨g₀, queues⟩, ∅⟩ [] :=
    ⟨.start, .nil (.refl g₀), fun _ => .inl⟩
  obtain ⟨report₀, w₀, hrun₀⟩ := loop_completes (w := ⟨⟨g₀, queues⟩, ∅⟩) (.refl g₀) hloads
    hadmits {}
  obtain ⟨l₀, H₀⟩ := Program.Steps.of_run hrun₀
  obtain ⟨U₀, hU₀⟩ := hstart.steps H₀
  obtain ⟨hcontents₀, -⟩ := hU₀.finished (loop_done (.refl g₀) H₀)
  exact ⟨report₀, w₀, hrun₀, hcontents.trans hcontents₀.symm⟩

end runs

/-- Two items that write one entity, the second of them after a crash within the first. -/
theorem resumed_graph_entity :
    let item (id : String) : WorkItem := { itemId := id, sourceRef := "src" }
    let source : Source := {
      discover := [item "1", item "2"]
      fetch := fun item => .ok ⟨item.itemId, "src", "rows", .other (.str item.itemId), "2024"⟩
      parse := fun artifact => .ok {
        provenance := ⟨"src", "2024", "c@1"⟩
        entities := [{ uid := "e", attributes := .ofList [("v", .str artifact.itemId)] }] } }
    let r : Resolver := { suggester := fun _ _ => .ok [], queue := 0 }
    let crashed : IngestState InMemoryGraphStore :=
      ⟨⟨(handler (entityWrite "e" none (.ofList [("v", .str "1")])).call ∅).2, []⟩, ∅⟩
    ∃ report₀ w₀, (runIngest source ∅ r).run (IngestState.handler source handler)
        ⟨⟨∅, []⟩, ∅⟩ = (.ok report₀, w₀) ∧
      ((runIngest source ∅ r).run (IngestState.handler source handler)
        crashed).2.world.store.contents = w₀.world.store.contents := by
  intro item source r crashed
  have hsteps : Program.Steps (IngestState.handler source handler) (runIngest source ∅ r)
      ⟨⟨∅, []⟩, ∅⟩ _ _ crashed := .call rfl (.call rfl (.call rfl .refl))
  have hcrash : Interrupted source ∅ r ∅ crashed := .crash .start hsteps (.inl rfl)
  exact resumed_graph hcrash (Prod.ext (by rfl) rfl) []

end MarginKG
