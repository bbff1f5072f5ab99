import MarginKG.Resolver.Suggest
import MarginKG.Theory.Traces
import MarginKG.Verify.Throttle

/-! Resolvers are interchangeable as far as the graph is concerned. A suggester, a threshold and a
queue decide what a human is asked, and nothing else: with any two resolvers, a load makes the same
calls but for what is enqueued, until a suggester raises (`loadBundle_follows`).

So one may change the resolver between two runs of `run_ingest`, after a suggester that raises or
after any other interruption, and a run that completes leaves the graph that one uninterrupted run
with any resolver would have left (`resolvers_interchangeable`). -/

namespace MarginKG

open InMemoryGraphStore

/-! ## Resolutions and reports that agree -/

/-- The resolutions link the column alike. -/
structure Resolution.Agree (a b : Resolution) : Prop where
  column : a.column = b.column
  linked : a.tier = .autoLinked ∨ b.tier = .autoLinked → a = b

/-- The reports are about the same items, bundles and links. -/
structure IngestReport.Agree (a b : IngestReport) : Prop where
  ingested : a.itemsIngested = b.itemsIngested
  skipped : a.itemsSkipped = b.itemsSkipped
  bundles : a.bundles = b.bundles
  resolutions : List.Forall₂ Resolution.Agree a.resolutions b.resolutions

/-- What others than the queues' readers see: the store and the ledger. -/
structure IngestState.Alike {σ : Type} (w w' : IngestState σ) : Prop where
  store : w.world.store = w'.world.store
  ledger : w.ledger = w'.ledger

def ResolverCall.Enqueues : ResolverCall → Prop
  | .store _ => False
  | .enqueue .. => True

def IngestCall.Enqueues : IngestCall → Prop
  | .resolver c => c.Enqueues
  | .hasSeen _ | .markDone _ | .fetch _ => False

/-- To enqueue changes nothing but the queues, on which no reply depends. -/
theorem hides_queues {σ : Type} (source : Source)
    (h : Handler StoreCall StoreCall.Reply PyErr σ) :
    Program.Hides (IngestState.handler source h) IngestCall.Enqueues IngestState.Alike where
  call {w t c r w'} hw hc := by
    obtain ⟨hstore, hledger⟩ := hw
    refine ⟨(IngestState.handler source h c t).2, Prod.ext ?_ rfl, ?_⟩ <;>
      obtain ⟨hreply, rfl⟩ := Prod.ext_iff.mp hc
    · rw [← hreply]
      cases c with
      | resolver c =>
        cases c with
        | enqueue => rfl
        | store c => exact congrArg (fun s => (h c s).1) hstore.symm
      | hasSeen key =>
        exact congrArg (fun l => Except.ok (ε := PyErr) (decide (key ∈ l))) hledger.symm
      | markDone | fetch => rfl
    · cases c with
      | resolver c =>
        cases c with
        | enqueue => exact ⟨hstore, hledger⟩
        | store c => exact ⟨congrArg (fun s => (h c s).2) hstore, hledger⟩
      | hasSeen | fetch => exact ⟨hstore, hledger⟩
      | markDone key => exact ⟨hstore, congrArg (insert key) hledger⟩
  silent {c w} hc := by
    cases c with
    | hasSeen | markDone | fetch => exact hc.elim
    | resolver c =>
      cases c with
      | store => exact hc.elim
      | enqueue => exact ⟨(), _, rfl, rfl, rfl⟩
  symm hw := ⟨hw.store.symm, hw.ledger.symm⟩
  trans hw hw' := ⟨hw.store.trans hw'.store, hw.ledger.trans hw'.ledger⟩

section follows
variable [Python] {r r₀ : Resolver}

/-! ## Loads with different resolvers -/

/-- A column with one resolver, and with another that does not raise. -/
theorem resolve_follows (hr₀ : r₀.Total) (r : Resolver) (col : ObservedColumn) :
    Program.Follows ResolverCall.Enqueues Resolution.Agree (r.resolve col) (r₀.resolve col) := by
  refine Program.Follows.bind (.refl (fun _ => rfl) _) fun index _ hindex => ?_
  subst hindex
  split
  · exact .ret ⟨rfl, fun _ => rfl⟩
  split
  · exact .ret ⟨rfl, fun _ => rfl⟩
  refine Program.Follows.bind (.refl (fun _ => rfl) _) fun terms _ hterms => ?_
  subst hterms
  rcases r.suggester col terms with e | ranked
  · exact .throw
  obtain ⟨ranked₀, hranked₀⟩ := hr₀ col terms
  rw [hranked₀]
  simp only [Program.ofExcept_ok, Program.ret_bind, Program.pure_eq]
  split <;> split
  · exact .ret ⟨rfl, by simp⟩
  · exact .right trivial fun _ => .ret ⟨rfl, by simp⟩
  · exact .left trivial fun _ => .ret ⟨rfl, by simp⟩
  · exact .left trivial fun _ => .right trivial fun _ => .ret ⟨rfl, by simp⟩

omit [Python] in
theorem Resolution.Agree.linksMade {a b : Resolution} (h : a.Agree b) (col : ObservedColumn)
    (owner : Option String) : a.linksMade col owner = b.linksMade col owner := by
  by_cases hlinked : a.tier = .autoLinked ∨ b.tier = .autoLinked
  · rw [h.linked hlinked]
  · have hnil (c : Resolution) (hc : c.tier ≠ .autoLinked) : c.linksMade col owner = [] := by
      apply List.eq_nil_iff_forall_not_mem.mpr
      intro l hl
      obtain ⟨k, hk, -⟩ := mem_linksMade.mp hl
      exact hc hk.1
    obtain ⟨ha, hb⟩ := not_or.mp hlinked
    rw [hnil a ha, hnil b hb]

theorem loadBundle_follows (hr₀ : r₀.Total) (c : GraphClient) (r : Resolver) (b : ParsedBundle) :
    Program.Follows ResolverCall.Enqueues (List.Forall₂ Resolution.Agree) (loadBundle c r b)
      (loadBundle c r₀ b) := by
  refine Program.Follows.bind (Q := fun _ _ => True) (.refl (fun _ => trivial) _) fun _ _ _ => ?_
  refine .mapM fun col _ => ?_
  refine (resolve_follows hr₀ r col).bind fun outcome outcome₀ hagree => ?_
  rw [linkOutcome_eq, linkOutcome_eq, hagree.linksMade]
  exact Program.Follows.bind (Q := fun _ _ => True) (.refl (fun _ => trivial) _)
    fun _ _ _ => .ret hagree

/-- **A run with one resolver is one with another**, but for what it enqueues, until a suggester
raises. -/
theorem runIngest_follows (hr₀ : r₀.Total) (source : Source) (c : GraphClient) (r : Resolver) :
    Program.Follows IngestCall.Enqueues IngestReport.Agree (runIngest source c r)
      (runIngest source c r₀) := by
  refine .foldlM (fun item _ report report₀ h => ?_) ⟨rfl, rfl, rfl, .nil⟩
  refine .call fun seen => ?_
  split
  · exact .ret ⟨h.ingested, congrArg (· + 1) h.skipped, h.bundles, h.resolutions⟩
  refine .call fun artifact => ?_
  refine Program.Follows.bind (.refl (fun _ => rfl) _) fun b _ hb => ?_
  subst hb
  have hload : Program.Follows IngestCall.Enqueues (List.Forall₂ Resolution.Agree)
      (liftResolver (loadBundle c r b)) (liftResolver (loadBundle c r₀ b)) :=
    (loadBundle_follows hr₀ c r b).lift fun _ h => h
  refine hload.bind fun outcomes outcomes₀ ho => ?_
  refine .call fun _ => .ret ⟨congrArg (· + 1) h.ingested, h.skipped, ?_, ?_⟩
  · dsimp only
    rw [h.bundles]
  · exact List.rel_append h.resolutions ho

/-- Over any store, whatever run completes with one resolver completes with every other whose
suggester does not raise, and leaves the same store and ledger. -/
theorem runIngest_resolver {σ : Type} {h : Handler StoreCall StoreCall.Reply PyErr σ}
    {source : Source} {c : GraphClient} (hr₀ : r₀.Total) {w w' t : IngestState σ}
    (hrun : (runIngest source c r).run (IngestState.handler source h) w = (.ok report, w'))
    (hw : w.Alike t) : ∃ report₀ t', (runIngest source c r₀).run (IngestState.handler source h) t =
      (.ok report₀, t') ∧ w'.Alike t' ∧ report.Agree report₀ :=
  (runIngest_follows hr₀ source c r).run (hides_queues source h) hrun hw

/-! ## Series of runs with different resolvers -/

/-- The states from which `run_ingest` is started when every run before was interrupted or raised at
some point, each of them with a resolver of its own. The first run has an empty ledger, a later one
the ledger as it was when the last one ended, or an empty one. Queues do not outlive a run. -/
inductive Restarted (source : Source) (c : GraphClient) (g₀ : InMemoryGraphStore) :
    IngestState InMemoryGraphStore → Prop
  | start : Restarted source c g₀ ⟨⟨g₀, queues⟩, ∅⟩
  | stop {r : Resolver} : Restarted source c g₀ w →
    Program.Steps (IngestState.handler source handler) (runIngest source c r) w l q w' →
    ledger = w'.ledger ∨ ledger = ∅ →
    Restarted source c g₀ ⟨⟨w'.world.store, queues⟩, ledger⟩

variable {source : Source} {c : GraphClient} {g₀ : InMemoryGraphStore}
  {w w' : IngestState InMemoryGraphStore}

/-- What the runs have done with several resolvers is what they could have done with one. -/
theorem Restarted.underway (hr₀ : r₀.Total) (h : Restarted source c g₀ w) :
    ∃ U, Underway source c r₀ g₀ w U := by
  induction h with
  | start => exact ⟨[], .start, .nil (.refl g₀), fun _ => .inl⟩
  | @stop w l q w' ledger queues r _ H hledger ih =>
    obtain ⟨U, hU⟩ := ih
    obtain ⟨l₀, q₀, t, H₀, ht, -⟩ :=
      (runIngest_follows hr₀ source c r).steps (hides_queues source handler) H ⟨rfl, rfl⟩
    obtain ⟨U', hU'⟩ := hU.steps H₀
    rw [ht.store]
    exact ⟨U', hU'.restart (ht.ledger ▸ hledger) queues⟩

/-- Once a run completes, the graph is that of an uninterrupted run, which completes too. -/
theorem Underway.returned {U : List Write} (h : Underway source c r g₀ w U)
    (hrun : (runIngest source c r).run (IngestState.handler source handler) w = (.ok report, w'))
    (queues : List (List Resolution)) :
    ∃ report₀ w₀, (runIngest source c r).run (IngestState.handler source handler)
        ⟨⟨g₀, queues⟩, ∅⟩ = (.ok report₀, w₀) ∧
      w'.world.store.contents = w₀.world.store.contents := by
  obtain ⟨l, H⟩ := Program.Steps.of_run hrun
  obtain ⟨U', hU'⟩ := h.steps H
  obtain ⟨hcontents, hadmits, hloads⟩ := hU'.finished (loop_done h.wrote.metrics H)
  have hstart : Underway source c r g₀ ⟨⟨g₀, queues⟩, ∅⟩ [] :=
    ⟨.start, .nil (.refl g₀), fun _ => .inl⟩
  obtain ⟨report₀, w₀, hrun₀⟩ :=
    loop_completes (w := ⟨⟨g₀, queues⟩, ∅⟩) (.refl g₀) hloads hadmits {}
  obtain ⟨l₀, H₀⟩ := Program.Steps.of_run hrun₀
  obtain ⟨U₀, hU₀⟩ := hstart.steps H₀
  exact ⟨report₀, w₀, hrun₀, hcontents.trans (hU₀.finished (loop_done (.refl g₀) H₀)).1.symm⟩

/-- **Resolvers are interchangeable**: after any interruptions of runs with any resolvers, a run
that completes leaves, as maps, the nodes and edges that one uninterrupted run leaves with any
resolver whose suggester does not raise, and such a run completes. -/
theorem resolvers_interchangeable (h : Restarted source c g₀ w)
    (hrun : (runIngest source c r).run (IngestState.handler source handler) w = (.ok report, w'))
    (hr₀ : r₀.Total) (queues : List (List Resolution)) :
    ∃ report₀ w₀, (runIngest source c r₀).run (IngestState.handler source handler)
        ⟨⟨g₀, queues⟩, ∅⟩ = (.ok report₀, w₀) ∧
      w'.world.store.contents = w₀.world.store.contents := by
  obtain ⟨U, hU⟩ := h.underway hr₀
  obtain ⟨report₁, t, hrun₁, ht, -⟩ := runIngest_resolver hr₀ hrun ⟨rfl, rfl⟩
  obtain ⟨report₀, w₀, hrun₀, hcontents⟩ := hU.returned hrun₁ queues
  exact ⟨report₀, w₀, hrun₀, (congrArg contents ht.store).trans hcontents⟩

end follows

/-- The embedding suggester raises for the column of the first item; the next run, with another
suggester, starts from what is left. -/
theorem resolvers_interchangeable_stub :
    let source : Source := {
      discover := [{ itemId := "1", sourceRef := "src" }]
      fetch := fun item => .ok ⟨item.itemId, "src", "rows", .other (.str "x"), "2026"⟩
      parse := fun _ => .ok {
        provenance := ⟨"src", "2026", "c@1"⟩
        columns := [{ system := "s", table := "t", name := "xyzzy" }] } }
    let r : Resolver := { suggester := fun _ _ => .ok [], queue := 0 }
    let column : Write := .node (.column "s" "t" "xyzzy") (clean (columnProps none [] false)) []
    let stopped : IngestState InMemoryGraphStore := ⟨⟨(handler column.call ∅).2, [[]]⟩, ∅⟩
    ∃ report w' report₀ w₀, (runIngest source ∅ r).run (IngestState.handler source handler)
        stopped = (.ok report, w') ∧
      (runIngest source ∅ r).run (IngestState.handler source handler)
        ⟨⟨∅, [[]]⟩, ∅⟩ = (.ok report₀, w₀) ∧
      w'.world.store.contents = w₀.world.store.contents := by
  intro source r column stopped
  let stub : Resolver := { suggester := embeddingSuggester, queue := 0 }
  have hsteps : Program.Steps (IngestState.handler source handler) (runIngest source ∅ stub)
      ⟨⟨∅, [[]]⟩, ∅⟩ _ (.throw _) stopped :=
    .call rfl (.call rfl (.call rfl (.call rfl (.call rfl .refl))))
  have hok : ((runIngest source ∅ r).run (IngestState.handler source handler)
      stopped).1.toOption.isSome := by decide +kernel
  rcases hrun : (runIngest source ∅ r).run (IngestState.handler source handler) stopped
    with ⟨e | report, w'⟩
  · rw [hrun] at hok
    cases hok
  · have hr : r.Total := fun _ _ => ⟨[], rfl⟩
    obtain ⟨report₀, w₀, hrun₀, hcontents⟩ :=
      resolvers_interchangeable (.stop .start hsteps (.inl rfl)) hrun hr [[]]
    exact ⟨report, w', report₀, w₀, rfl, hrun₀, hcontents⟩

end MarginKG
