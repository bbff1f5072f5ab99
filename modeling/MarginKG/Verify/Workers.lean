import MarginKG.Theory.Interference
import MarginKG.Verify.Delivery
import MarginKG.Verify.Resume

/-! Several runs of `run_ingest` at once over one store and one ledger (`workers_ingest`).

`has_seen` and `mark_done` are two calls, so two runs may load one item at the same time. Each run
takes up, in their order, some of the items that the ledger leaves open, and an item that comes to
be marked was taken up by one of them. The loads of an item are copies of one sequence of writes,
and different items write to different places, so the graph is as after one run. -/

namespace MarginKG

open InMemoryGraphStore

/-! ## The calls of an ingestion -/

/-- The call of the resolver in a call of an ingestion. -/
def IngestCall.resolver? : IngestCall → Option ResolverCall
  | .resolver c => some c
  | .hasSeen _ | .markDone _ | .fetch _ => none

/-- The key that a call marks. -/
def IngestCall.marked? : IngestCall → Option (String × String)
  | .markDone key => some key
  | .resolver _ | .hasSeen _ | .fetch _ => none

/-- The write that a call of an ingestion makes. -/
noncomputable def IngestCall.write? (c : IngestCall) : Option Write :=
  c.resolver?.bind ResolverCall.write?

/-- The writes among some calls of an ingestion. -/
noncomputable def ingestWrites (l : List IngestCall) : List Write := l.filterMap IngestCall.write?

theorem ingestWrites_append (l l' : List IngestCall) :
    ingestWrites (l ++ l') = ingestWrites l ++ ingestWrites l' := List.filterMap_append

theorem ingestWrites_eq (l : List IngestCall) :
    ingestWrites l = writesOf (l.filterMap IngestCall.resolver?) :=
  (List.filterMap_filterMap ..).symm

theorem ingestWrites_resolver (l : List ResolverCall) :
    ingestWrites (l.map .resolver) = writesOf l := by
  rw [ingestWrites, List.filterMap_map]
  rfl

theorem marked_resolver (l : List ResolverCall) :
    (l.map IngestCall.resolver).filterMap IngestCall.marked? = [] := by
  rw [List.filterMap_map]
  exact List.filterMap_eq_nil_iff.mpr fun _ _ => rfl

section calls
variable {σ : Type} (source : Source) (h : Handler StoreCall StoreCall.Reply PyErr σ)

/-- The calls of an ingestion do to its resolver what the calls of the resolver do. -/
theorem ingest_effect (l : List IngestCall) (w : IngestState σ) :
    (Program.effect (IngestState.handler source h) l w).world =
        Program.effect (ResolverState.handler h) (l.filterMap IngestCall.resolver?) w.world ∧
      (Program.effect (IngestState.handler source h) l w).ledger =
        w.ledger ∪ (l.filterMap IngestCall.marked?).toFinset := by
  induction l generalizing w with
  | nil => exact ⟨rfl, (Finset.union_empty _).symm⟩
  | cons c l ih =>
    obtain ⟨hworld, hledger⟩ := ih (IngestState.handler source h c w).2
    rw [Program.effect_cons]
    cases c with
    | resolver | hasSeen | fetch => exact ⟨hworld, hledger⟩
    | markDone key =>
      refine ⟨hworld, hledger.trans ?_⟩
      have hmarked : (IngestCall.markDone key :: l).filterMap IngestCall.marked? =
          key :: l.filterMap IngestCall.marked? := rfl
      rw [hmarked, List.toFinset_cons, Finset.union_insert, ← Finset.insert_union]
      rfl

theorem ingest_allOk (l : List IngestCall) (w : IngestState σ)
    (hok : Program.AllOk (IngestState.handler source h) l w) :
    Program.AllOk (ResolverState.handler h) (l.filterMap IngestCall.resolver?) w.world := by
  induction l generalizing w with
  | nil => trivial
  | cons c l ih =>
    have hrest := ih _ hok.2
    cases c with
    | resolver c => exact ⟨hok.1, hrest⟩
    | hasSeen | markDone | fetch => exact hrest

end calls

/-! ## What a run does among others -/

/-- What the calls of other runs may do: metrics stay, and keys are marked. -/
structure Disturbed (g₀ : InMemoryGraphStore) (w w' : IngestState InMemoryGraphStore) : Prop where
  metrics : g₀.SameMetrics w.world.store → g₀.SameMetrics w'.world.store
  ledger : w.ledger ⊆ w'.ledger

namespace Disturbed

variable {g₀ : InMemoryGraphStore} {w w' w'' : IngestState InMemoryGraphStore}

theorem refl (w : IngestState InMemoryGraphStore) : Disturbed g₀ w w := ⟨id, subset_rfl⟩

theorem trans (h : Disturbed g₀ w w') (h' : Disturbed g₀ w' w'') : Disturbed g₀ w w'' :=
  ⟨h'.metrics ∘ h.metrics, h.ledger.trans h'.ledger⟩

/-- The calls of a run keep to it. -/
theorem call {source : Source} {queue : Nat} {x : IngestCall} {a : Except PyErr x.Reply}
    (hx : Ingests (Reaches (Makes (LoadWrite c)) queue) x)
    (h : IngestState.handler source handler x w = (a, w')) : Disturbed g₀ w w' := by
  cases hx with
  | hasSeen => cases h; exact refl _
  | markDone => cases h; exact ⟨id, Finset.subset_insert ..⟩
  | fetch => obtain ⟨-, rfl⟩ := Prod.ext_iff.mp h; exact refl _
  | resolver hc =>
    obtain ⟨hreply, rfl⟩ := Prod.ext_iff.mp h
    exact ⟨fun hs => (fixed_replies c g₀ queue).keeps hc hs (Prod.ext hreply rfl), subset_rfl⟩

end Disturbed

section runs
variable [Python] {source : Source} {c : GraphClient} {r : Resolver} {g₀ : InMemoryGraphStore}
  {w w' : IngestState InMemoryGraphStore}

/-- What a load is told over the graph `g₀`. -/
def InMemoryGraphStore.ingestReply (g₀ : InMemoryGraphStore) : (c : IngestCall) → c.Reply
  | .resolver c => g₀.reply c
  | .hasSeen _ => false
  | .markDone _ => ()
  | .fetch _ => default

/-- A load among other runs makes the writes that it makes alone. -/
theorem load_among {b : ParsedBundle} (hw : g₀.SameMetrics w.world.store)
    (H : Program.Among (IngestState.handler source handler) (Disturbed g₀)
      (liftResolver (loadBundle c r b)) w l (.ret out) w') :
    loadOutcome c r g₀ b = .ok out ∧ ingestWrites l = loadWrites c r g₀ b ∧
      l.filterMap IngestCall.marked? = [] ∧ Disturbed g₀ w w' := by
  have hfixed : Program.Fixed (IngestState.handler source handler) g₀.ingestReply
      (fun x => ∃ y, Reaches (Makes (LoadWrite c)) r.queue y ∧ x = .resolver y)
      fun w => g₀.SameMetrics w.world.store := by
    constructor
    · rintro _ w _ w' ⟨y, hy, rfl⟩ hw h
      obtain ⟨hreply, -⟩ := Prod.ext_iff.mp h
      exact (fixed_replies c g₀ r.queue).reply hy hw (Prod.ext hreply rfl)
    · rintro _ w _ w' ⟨y, hy, rfl⟩ hw h
      exact (Disturbed.call (.resolver hy) h).metrics hw
  have huses : (liftResolver (loadBundle c r b)).Uses fun x =>
      ∃ y, Reaches (Makes (LoadWrite c)) r.queue y ∧ x = .resolver y :=
    (loadBundle_uses_loadWrite c r b).lift fun y hy => ⟨y, hy, rfl⟩
  have hplan := H.plan hfixed (fun h => h.metrics) huses hw (by rintro ⟨e, he⟩; cases he)
  rw [liftResolver, Program.plan_lift (ρ := g₀.reply) fun _ => rfl] at hplan
  obtain ⟨hcalls, hout⟩ := Prod.mk.inj hplan
  rw [Program.plan, List.append_nil] at hcalls
  have hdisturbed : Disturbed g₀ w w' := by
    refine H.rely Disturbed.trans (fun hx h => ?_) huses
    obtain ⟨y, hy, rfl⟩ := hx
    exact Disturbed.call (.resolver hy) h
  subst hcalls
  exact ⟨hout, ingestWrites_resolver _, marked_resolver _, hdisturbed⟩

/-- The bundle of an item, when neither `fetch` nor `parse` raises an exception. -/
def Source.bundle? (source : Source) (item : WorkItem) : Option ParsedBundle :=
  match source.fetch item with
  | .error _ => none
  | .ok artifact => (source.parse artifact).toOption

variable (source c r g₀) in
/-- The calls `l` load and mark the items `taken`, and the report counts them. -/
structure Took (taken : List WorkItem) (l : List IngestCall) (report report' : IngestReport) :
    Prop where
  writes : ingestWrites l = taken.flatMap (itemWrites source c r g₀)
  marked : l.filterMap IngestCall.marked? = taken.map WorkItem.key
  loads : ∀ item ∈ taken, Loads source c r g₀ item
  bundles : report'.bundles = report.bundles ++ taken.filterMap source.bundle?
  ingested : report'.itemsIngested = report.itemsIngested + taken.length

namespace Took

variable {report report' report'' : IngestReport}

theorem nothing (hbundles : report'.bundles = report.bundles)
    (hingested : report'.itemsIngested = report.itemsIngested) (hwrites : ingestWrites l = [])
    (hmarked : l.filterMap IngestCall.marked? = []) : Took source c r g₀ [] l report report' :=
  ⟨hwrites, hmarked, by simp, hbundles.trans (List.append_nil _).symm, hingested⟩

theorem append (h : Took source c r g₀ taken l report report')
    (h' : Took source c r g₀ taken' l' report' report'') :
    Took source c r g₀ (taken ++ taken') (l ++ l') report report'' where
  writes := by rw [ingestWrites_append, h.writes, h'.writes, List.flatMap_append]
  marked := by rw [List.filterMap_append, h.marked, h'.marked, List.map_append]
  loads item hitem := (List.mem_append.mp hitem).elim (h.loads item) (h'.loads item)
  bundles := by rw [h'.bundles, h.bundles, List.filterMap_append, List.append_assoc]
  ingested := by rw [h'.ingested, h.ingested, List.length_append, Nat.add_assoc]

end Took

/-- A turn of the loop skips an item that is marked, or loads and marks one that was open when the
turn began. -/
theorem item_among (hw : g₀.SameMetrics w.world.store) {report report' : IngestReport}
    {item : WorkItem} (H : Program.Among (IngestState.handler source handler) (Disturbed g₀)
      (ingestItem source c r report item) w l (.ret report') w') :
    ∃ taken, (taken = [] ∨ taken = [item] ∧ item.key ∉ w.ledger) ∧
      Took source c r g₀ taken l report report' ∧ item.key ∈ w'.ledger ∧ Disturbed g₀ w w' ∧
      report'.itemsIngested + report'.itemsSkipped =
        report.itemsIngested + report.itemsSkipped + 1 := by
  cases H with
  | @call _ w₁ _ _ _ _ _ _ _ hE hseen H =>
    cases hseen
    dsimp only at H
    by_cases hkey : item.key ∈ w₁.ledger
    · rw [if_pos (by simpa using hkey)] at H
      cases H with
      | wait hE' =>
        exact ⟨[], .inl rfl, .nothing rfl rfl rfl rfl, hE'.ledger hkey, hE.trans hE', rfl⟩
    rw [if_neg (by simpa using hkey)] at H
    cases H with
    | @call _ w₂ _ _ _ _ _ _ artifact hE' hreply H =>
      obtain ⟨hfetch, hsame⟩ := Prod.ext_iff.mp hreply
      change source.fetch item = .ok artifact at hfetch
      cases hsame
      clear hreply
      change Program.Among _ _ (Program.ofExcept (source.parse artifact) >>= _) w₂ _ _ w' at H
      rcases hparse : source.parse artifact with e | b <;> rw [hparse] at H
      · cases H
      rw [Program.ofExcept_ok, Program.ret_bind] at H
      obtain ⟨out, w₃, l₁, l₂, rfl, H₁, H₂⟩ := H.bind_ret_inv Disturbed.refl
      have hstart := hE.trans hE'
      obtain ⟨hout, hwrites, hmarked, hload⟩ := load_among (hstart.metrics hw) H₁
      cases H₂ with
      | @call _ w₄ _ _ _ _ _ _ _ hE₃ hmark H₂ =>
        cases hmark
        cases H₂ with
        | wait hE₄ =>
          have hbundle : source.bundle? item = some b := by
            rw [Source.bundle?, hfetch]
            dsimp only
            rw [hparse]
            rfl
          have hitem : itemWrites source c r g₀ item = loadWrites c r g₀ b := by
            rw [itemWrites, hfetch]
            dsimp only
            rw [hparse]
          have hlast : ingestWrites [.markDone item.key] = [] := rfl
          refine ⟨[item], .inr ⟨rfl, fun h => hkey (hE.ledger h)⟩, ⟨?_, ?_, ?_, ?_, rfl⟩,
            hE₄.ledger (Finset.mem_insert_self ..), ?_, Nat.add_right_comm ..⟩
          · rw [List.flatMap_singleton, hitem, ← hwrites]
            change ingestWrites (l₁ ++ [.markDone item.key]) = _
            rw [ingestWrites_append, hlast, List.append_nil]
          · change (l₁ ++ [IngestCall.markDone item.key]).filterMap IngestCall.marked? = _
            rw [List.filterMap_append, hmarked]
            rfl
          · refine List.forall_mem_singleton.mpr ⟨artifact, b, out, hfetch, hparse, hout⟩
          · rw [List.filterMap_cons_some hbundle]
            rfl
          · have hmark : Disturbed g₀ w₄ { w₄ with ledger := insert item.key w₄.ledger } :=
              ⟨id, Finset.subset_insert ..⟩
            exact hstart.trans (hload.trans (hE₃.trans (hmark.trans hE₄)))

omit [Python] in
theorem pending_sublist {done done' : Finset (String × String)} (h : done ⊆ done')
    (items : List WorkItem) : (pending done' items).Sublist (pending done items) := by
  induction items generalizing done done' with
  | nil => exact .slnil
  | cons item items ih =>
    by_cases hitem : item.key ∈ done
    · rw [pending_of_mem hitem, pending_of_mem (h hitem)]
      exact ih h
    rw [pending_of_not_mem hitem]
    by_cases hitem' : item.key ∈ done'
    · rw [pending_of_mem hitem']
      exact .cons _ (ih (Finset.insert_subset hitem' h))
    · rw [pending_of_not_mem hitem']
      exact .cons_cons _ (ih (Finset.insert_subset_insert _ h))

/-- A run takes up some of the items that were open when it began, in their order, and leaves none
open. -/
theorem loop_among {items : List WorkItem} (hw : g₀.SameMetrics w.world.store)
    {report report' : IngestReport} (H : Program.Among (IngestState.handler source handler)
      (Disturbed g₀) (items.foldlM (ingestItem source c r) report) w l (.ret report') w') :
    ∃ taken, taken.Sublist (pending w.ledger items) ∧ Took source c r g₀ taken l report report' ∧
      (∀ item ∈ items, item.key ∈ w'.ledger) ∧ Disturbed g₀ w w' ∧
      report'.itemsIngested + report'.itemsSkipped =
        report.itemsIngested + report.itemsSkipped + items.length := by
  induction items generalizing w report l with
  | nil =>
    cases H with
    | wait hE => exact ⟨[], .slnil, .nothing rfl rfl rfl rfl, by simp, hE, rfl⟩
  | cons item items ih =>
    rw [List.foldlM_cons] at H
    obtain ⟨report₁, w₁, l₁, l₂, rfl, H₁, H₂⟩ := H.bind_ret_inv Disturbed.refl
    obtain ⟨taken₁, hcases, htook₁, hkey, hE₁, hcount₁⟩ := item_among hw H₁
    obtain ⟨taken₂, hsub, htook₂, hall, hE₂, hcount₂⟩ := ih (hE₁.metrics hw) H₂
    refine ⟨taken₁ ++ taken₂, ?_, htook₁.append htook₂,
      List.forall_mem_cons.mpr ⟨hE₂.ledger hkey, hall⟩, hE₁.trans hE₂, ?_⟩
    · rcases hcases with rfl | ⟨rfl, hopen⟩
      · have hrest := pending_sublist hE₁.ledger (item :: items)
        rw [pending_of_mem hkey] at hrest
        exact hsub.trans hrest
      · rw [pending_of_not_mem hopen]
        have hinsert : insert item.key w.ledger ⊆ w₁.ledger :=
          Finset.insert_subset hkey hE₁.ledger
        exact .cons_cons _ (hsub.trans (pending_sublist hinsert items))
    · rw [hcount₂, hcount₁, List.length_cons]
      omega

/-! ## Several runs -/

omit [Python] in
theorem pending_subset (done : Finset (String × String)) (items : List WorkItem) :
    (pending done items).Sublist items := by
  induction items generalizing done with
  | nil => exact .slnil
  | cons item items ih =>
    rw [pending]
    split
    · exact .cons _ (ih done)
    · exact .cons_cons _ (ih _)

omit [Python] in
theorem pending_keys (done : Finset (String × String)) (items : List WorkItem) :
    (∀ item ∈ pending done items, item.key ∉ done) ∧
      ((pending done items).map WorkItem.key).Nodup := by
  induction items generalizing done with
  | nil => exact ⟨by simp [pending], List.nodup_nil⟩
  | cons item items ih =>
    rw [pending]
    split
    · exact ih done
    · obtain ⟨hopen, hnodup⟩ := ih (insert item.key done)
      refine ⟨List.forall_mem_cons.mpr ⟨‹_›, fun x hx hdone => ?_⟩,
        List.nodup_cons.mpr ⟨fun hmem => ?_, hnodup⟩⟩
      · exact hopen x hx (Finset.mem_insert_of_mem hdone)
      · obtain ⟨x, hx, heq⟩ := List.mem_map.mp hmem
        exact hopen x hx (heq ▸ Finset.mem_insert_self ..)

section several
variable {done : Finset (String × String)} {l : List (Nat × IngestCall)}
  {reports : List IngestReport}

/-- Bundles of items with different keys write different identities. -/
def Source.Apart (source : Source) : Prop :=
  source.discover.Pairwise fun x y => x.key ≠ y.key → ∀ b ∈ source.bundle? x,
    ∀ b' ∈ source.bundle? y, b.identities.Disjoint b'.identities

theorem mem_itemWrites {item : WorkItem} (hv : v ∈ itemWrites source c r g₀ item) :
    ∃ b ∈ source.bundle? item, b.Writes c v := by
  rw [itemWrites] at hv
  split at hv
  · cases hv
  · rename_i artifact hfetch
    split at hv
    · cases hv
    · rename_i b hparse
      refine ⟨b, ?_, loadWrites_writes hv⟩
      rw [Source.bundle?, hfetch]
      dsimp only
      rw [hparse]
      rfl

/-- The writes of the open items go to different places. -/
theorem Source.Apart.writes (h : source.Apart) (done : Finset (String × String)) :
    writes.Apart (itemWrites source c r g₀) (pending done source.discover) := by
  have hkeys := List.pairwise_map.mp (pending_keys done source.discover).2
  refine ((h.sublist (pending_subset done source.discover)).and hkeys).imp ?_
  intro x y hxy v hv w hw
  obtain ⟨b, hb, hv⟩ := mem_itemWrites hv
  obtain ⟨b', hb', hw⟩ := mem_itemWrites hw
  exact place_ne (hxy.1 hxy.2 b hb b' hb') hv hw

/-- A run that returned marked each open item, or found it marked by another run. -/
theorem mem_taken {taken : List WorkItem} {calls : List IngestCall} {report report' : IngestReport}
    (htaken : taken.Sublist (pending done source.discover))
    (htook : Took source c r g₀ taken calls report report') {item : WorkItem}
    (hitem : item ∈ pending done source.discover)
    (hmarked : item.key ∈ calls.filterMap IngestCall.marked?) : item ∈ taken := by
  rw [htook.marked] at hmarked
  obtain ⟨x, hx, hkey⟩ := List.mem_map.mp hmarked
  rwa [← List.inj_on_of_nodup_map (pending_keys done source.discover).2 (htaken.subset hx) hitem
    hkey]

theorem runIngest_uses_loadWrite (source : Source) (c : GraphClient) (r : Resolver) :
    (runIngest source c r).Uses (Ingests (Reaches (Makes (LoadWrite c)) r.queue)) :=
  runIngest_uses source c r fun _ b _ => loadBundle_uses_loadWrite c r b

/-- What each of the runs of a pool took up. -/
theorem pool_taken {n : Nat} (hw : g₀.SameMetrics w.world.store)
    (H : Program.Pool (IngestState.handler source handler) (List.replicate n (runIngest source c r))
      w l (reports.map .ret) w') (i : Nat) :
    ∃ taken report, taken.Sublist (pending w.ledger source.discover) ∧
      Took source c r g₀ taken (Program.callsOf i l) {} report ∧
      (taken ≠ [] → reports[i]? = some report) ∧
      ∀ report' ∈ reports[i]?, report' = report ∧
        report.itemsIngested + report.itemsSkipped = source.discover.length ∧
        ∀ item ∈ source.discover, item.key ∈ w'.ledger := by
  have hlen : reports.length = n := by
    simpa using H.length_eq
  by_cases hi : i < n
  · have hreport : reports[i]? = some reports[i] := List.getElem?_eq_getElem (hlen ▸ hi)
    have hps : ∀ p ∈ List.replicate n (runIngest source c r),
        p.Uses (Ingests (Reaches (Makes (LoadWrite c)) r.queue)) := by
      intro p hp
      rw [List.eq_of_mem_replicate hp]
      exact runIngest_uses_loadWrite source c r
    have hamong := H.among (E := Disturbed g₀) Disturbed.refl Disturbed.trans Disturbed.call hps
      (i := i) (by rw [List.getElem?_replicate, if_pos hi])
      (by rw [List.getElem?_map, hreport]; rfl)
    obtain ⟨taken, hsub, htook, hall, -, hcount⟩ := loop_among hw hamong
    refine ⟨taken, _, hsub, htook, fun _ => hreport, fun report' h => ?_⟩
    cases hreport.symm.trans h
    exact ⟨rfl, hcount.trans (Nat.zero_add _), hall⟩
  · have hcalls : Program.callsOf i l = [] := by
      refine H.callsOf_eq_nil ?_
      rw [List.getElem?_replicate, if_neg hi]
    refine ⟨[], {}, List.nil_sublist _, ?_, fun h => absurd rfl h, fun report' h => ?_⟩
    · rw [hcalls]
      exact .nothing rfl rfl rfl rfl
    · rw [List.getElem?_eq_none (by omega)] at h
      cases h

omit [Python] in
/-- The contents that some calls of runs leave, and what made them possible. -/
theorem ingest_contents {calls : List IngestCall}
    (hcalls : ∀ x ∈ calls, Ingests (Reaches (Makes (LoadWrite c)) r.queue) x)
    (hok : Program.AllOk (IngestState.handler source handler) calls w) :
    writes.Admits Write.Admitted (ingestWrites calls) w.world.store.contents ∧
      (Program.effect (IngestState.handler source handler) calls w).world.store.contents =
        writeAll writes.act (ingestWrites calls) w.world.store.contents := by
  have hresolver : ∀ y ∈ calls.filterMap IngestCall.resolver?,
      Reaches (Makes (LoadWrite c)) r.queue y := by
    intro y hy
    obtain ⟨x, hx, hxy⟩ := List.mem_filterMap.mp hy
    cases hcalls x hx with
    | resolver h => cases hxy; exact h
    | hasSeen | markDone | fetch => cases hxy
  obtain ⟨hadmits, hcontents⟩ := allOk_calls hresolver w.world
  rw [ingestWrites_eq, (ingest_effect source handler calls w).1]
  have hok := ingest_allOk source handler calls w hok
  exact ⟨hadmits.mp hok, hcontents hok⟩

/-- One run that completes takes up every open item. -/
theorem run_taken {report : IngestReport} (hw : g₀.SameMetrics w.world.store)
    (hrun : (runIngest source c r).run (IngestState.handler source handler) w = (.ok report, w')) :
    w'.world.store.contents = writeAll writes.act
        ((pending w.ledger source.discover).flatMap (itemWrites source c r g₀))
        w.world.store.contents ∧
      w'.ledger = w.ledger ∪ ((pending w.ledger source.discover).map WorkItem.key).toFinset ∧
      report.bundles = (pending w.ledger source.discover).filterMap source.bundle? := by
  obtain ⟨calls, H⟩ := Program.Steps.of_run hrun
  have hamong := Program.Among.of_steps (E := Disturbed g₀) Disturbed.refl H
  obtain ⟨taken, hsub, htook, hall, -⟩ := loop_among hw hamong
  have heffect := H.effect
  have hledger := (ingest_effect source handler calls w).2
  rw [← heffect] at hledger
  have htaken : taken = pending w.ledger source.discover := by
    refine hsub.eq_of_length_le (List.Subperm.length_le ?_)
    refine ((pending_keys w.ledger source.discover).2.of_map _).subperm fun item hitem => ?_
    refine mem_taken hsub htook hitem ?_
    have hmarked := hall item ((pending_subset w.ledger source.discover).subset hitem)
    rw [hledger, Finset.mem_union, List.mem_toFinset] at hmarked
    exact hmarked.resolve_left ((pending_keys w.ledger source.discover).1 item hitem)
  subst htaken
  obtain ⟨-, hcontents⟩ := ingest_contents (H.uses (runIngest_uses_loadWrite source c r)) H.allOk
  refine ⟨?_, ?_, htook.bundles⟩
  · rw [heffect, hcontents, htook.writes]
  · rw [hledger, htook.marked]

/-- **Several runs at once**: any number of runs of `run_ingest` that share the store and the
ledger, their calls interleaved in any way, leave the graph and the ledger that one run leaves, once
all of them have returned. An item may be loaded by several of them, and no item is missed. -/
theorem workers_ingest {n : Nat} (hn : 0 < n) (hapart : source.Apart)
    (H : Program.Pool (IngestState.handler source handler) (List.replicate n (runIngest source c r))
      ⟨⟨g₀, queues⟩, done⟩ l (reports.map .ret) w') (queues₀ : List (List Resolution)) :
    ∃ report₀ w₀, (runIngest source c r).run (IngestState.handler source handler)
        ⟨⟨g₀, queues₀⟩, done⟩ = (.ok report₀, w₀) ∧
      w'.world.store.contents = w₀.world.store.contents ∧ w'.ledger = w₀.ledger ∧
      (∀ report ∈ reports, report.bundles.Sublist report₀.bundles ∧
        report.itemsIngested + report.itemsSkipped = source.discover.length) ∧
      ∀ b ∈ report₀.bundles, ∃ report ∈ reports, b ∈ report.bundles := by
  have hstart : g₀.SameMetrics (⟨⟨g₀, queues⟩, done⟩ :
    IngestState InMemoryGraphStore).world.store := .refl g₀
  choose taken report hsub htook hsome hreport using pool_taken hstart H
  have hlen : reports.length = n := by
    simpa using H.length_eq
  have hcalls : ∀ x ∈ l.map Prod.snd, Ingests (Reaches (Makes (LoadWrite c)) r.queue) x := by
    intro x hx
    obtain ⟨e, he, rfl⟩ := List.mem_map.mp hx
    refine H.uses (fun p hp => ?_) e he
    rw [List.eq_of_mem_replicate hp]
    exact runIngest_uses_loadWrite source c r
  obtain ⟨hadmits, hcontents⟩ := ingest_contents hcalls (H.allOk (Program.not_raised_ret reports))
  have hledger := (ingest_effect source handler (l.map Prod.snd) ⟨⟨g₀, queues⟩, done⟩).2
  rw [← H.effect] at hcontents hledger
  have hmarked : ∀ item ∈ pending done source.discover,
      item.key ∈ (l.map Prod.snd).filterMap IngestCall.marked? := by
    intro item hitem
    have hpos : 0 < reports.length := by omega
    have hkey := (hreport 0 _ (List.getElem?_eq_getElem hpos)).2.2 item
      ((pending_subset done source.discover).subset hitem)
    rw [hledger, Finset.mem_union, List.mem_toFinset] at hkey
    exact hkey.resolve_left ((pending_keys done source.discover).1 item hitem)
  -- every open item was taken up by the run that marked it
  have hall : ∀ item ∈ pending done source.discover, ∃ i, item ∈ taken i := by
    intro item hitem
    obtain ⟨x, hx, hkey⟩ := List.mem_filterMap.mp (hmarked item hitem)
    obtain ⟨e, he, rfl⟩ := List.mem_map.mp hx
    refine ⟨e.1, mem_taken (hsub e.1) (htook e.1) hitem ?_⟩
    exact List.mem_filterMap.mpr ⟨e.2, Program.mem_callsOf he, hkey⟩
  -- the writes, each with the number of its run
  set lanes := l.filterMap fun e => e.2.write?.map (e.1, ·) with hlanes
  have hlane (i : Nat) : Program.callsOf i lanes =
      (taken i).flatMap (itemWrites source c r g₀) :=
    (Program.callsOf_filterMap IngestCall.write? i l).trans (htook i).writes
  have hwrites : ingestWrites (l.map Prod.snd) = lanes.map Prod.snd := by
    rw [ingestWrites, List.filterMap_map, hlanes, List.map_filterMap]
    congr 1
    funext e
    rcases h : e.2.write? with _ | w <;> simp [h]
  rw [hwrites] at hadmits hcontents
  have hadmits₀ : writes.Admits Write.Admitted (left source c r g₀ done source.discover)
      g₀.contents := by
    obtain ⟨hsound, hfirst⟩ := admits_writes_iff.mp hadmits
    refine admits_writes_iff.mpr ⟨fun w hw => hsound w ?_, fun p w hw => hfirst p w ?_⟩
    · obtain ⟨item, hitem, hw⟩ := List.mem_flatMap.mp hw
      obtain ⟨i, hi⟩ := hall item hitem
      have hmem : w ∈ Program.callsOf i lanes := by
        rw [hlane]
        exact List.mem_flatMap.mpr ⟨item, hi, hw⟩
      exact List.mem_map.mpr ⟨(i, w), Program.mem_callsOf_iff.mp hmem, rfl⟩
    · rw [writes.find?_sublists (hapart.writes done) hsub hlane hall]
      exact hw
  have hloads : ∀ item ∈ pending done source.discover, Loads source c r g₀ item := by
    intro item hitem
    obtain ⟨i, hi⟩ := hall item hitem
    exact (htook i).loads item hi
  obtain ⟨report₀, w₀, hrun⟩ := loop_completes (w := ⟨⟨g₀, queues₀⟩, done⟩) (.refl g₀) hloads
    hadmits₀ {}
  have hstart₀ : g₀.SameMetrics (⟨⟨g₀, queues₀⟩, done⟩ :
    IngestState InMemoryGraphStore).world.store := .refl g₀
  obtain ⟨hcontents₀, hledger₀, hbundles₀⟩ := run_taken hstart₀ hrun
  refine ⟨report₀, w₀, hrun, ?_, ?_, fun report' hmem => ?_, fun b hb => ?_⟩
  · rw [hcontents, hcontents₀]
    exact writes.writeAll_sublists writes_absorbing (hapart.writes done) hsub hlane hall _
  · rw [hledger, hledger₀]
    refine congrArg (done ∪ ·) (Finset.ext fun key => ?_)
    rw [List.mem_toFinset, List.mem_toFinset]
    constructor
    · intro hkey
      obtain ⟨x, hx, hkey⟩ := List.mem_filterMap.mp hkey
      obtain ⟨e, he, rfl⟩ := List.mem_map.mp hx
      have hlane : key ∈ (Program.callsOf e.1 l).filterMap IngestCall.marked? :=
        List.mem_filterMap.mpr ⟨e.2, Program.mem_callsOf he, hkey⟩
      rw [(htook e.1).marked] at hlane
      exact List.map_subset _ (hsub e.1).subset hlane
    · intro hkey
      obtain ⟨item, hitem, rfl⟩ := List.mem_map.mp hkey
      exact hmarked item hitem
  · obtain ⟨i, hi⟩ := List.mem_iff_getElem?.mp hmem
    obtain ⟨rfl, hcount, -⟩ := hreport i report' hi
    rw [(htook i).bundles, hbundles₀]
    exact ⟨(hsub i).filterMap _, hcount⟩
  · rw [hbundles₀] at hb
    obtain ⟨item, hitem, hb⟩ := List.mem_filterMap.mp hb
    obtain ⟨i, hi⟩ := hall item hitem
    refine ⟨report i, List.mem_of_getElem? (hsome i (List.ne_nil_of_mem hi)), ?_⟩
    rw [(htook i).bundles]
    exact List.mem_append_right _ (List.mem_filterMap.mpr ⟨item, hi, hb⟩)

end several

end runs

/-- Two runs that both find the one item open and load it at the same time. -/
theorem workers_ingest_race :
    let bundle : ParsedBundle := {
      provenance := ⟨"src", "2024", "c@1"⟩
      entities := [{ uid := "e" }] }
    let source : Source := {
      discover := [{ itemId := "1", sourceRef := "src" }]
      fetch := fun item => .ok ⟨item.itemId, "src", "rows", .other (.str "x"), "2024"⟩
      parse := fun _ => .ok bundle }
    let r : Resolver := { suggester := fun _ _ => .ok [], queue := 0 }
    let write : Write := entityWrite "e" none ∅
    let graph := (handler write.call (handler write.call ∅).2).2
    ∃ report₀ w₀, (runIngest source ∅ r).run (IngestState.handler source handler)
        ⟨⟨∅, []⟩, ∅⟩ = (.ok report₀, w₀) ∧ graph.contents = w₀.world.store.contents := by
  intro bundle source r write graph
  let report : IngestReport := { itemsIngested := 1, bundles := [bundle] }
  have hpool : Program.Pool (IngestState.handler source handler)
      (List.replicate 2 (runIngest source ∅ r)) ⟨⟨∅, []⟩, ∅⟩ _ ([report, report].map .ret)
      ⟨⟨graph, []⟩, {("src", "1")}⟩ :=
    .call (i := 0) rfl rfl <| .call (i := 1) rfl rfl <| .call (i := 0) rfl rfl <|
      .call (i := 1) rfl rfl <| .call (i := 0) rfl rfl <| .call (i := 1) rfl rfl <|
      .call (i := 1) rfl rfl <| .call (i := 0) rfl rfl .refl
  have hapart : source.Apart := List.pairwise_singleton ..
  obtain ⟨report₀, w₀, hrun, hcontents, -⟩ := workers_ingest (by decide) hapart hpool []
  exact ⟨report₀, w₀, hrun, hcontents⟩

end MarginKG
