import MarginKG.Verify.Loads

/-! At-least-once delivery: loads of bundles that write different nodes and relations may come in
any order, any number of times, and with their store writes interleaved; the graph ends up as
after one load of each (`delivered_graph`).

Every edge of a load starts or ends at a node that the bundle writes, or is one of its relations,
so bundles with disjoint `identities` write to disjoint places. Within one place the copies of a
bundle are interleaved copies of one absorbing sequence. -/

namespace MarginKG

open InMemoryGraphStore

/-! ## What a bundle owns -/

/-- The identities that the records of a bundle write: of documents, columns and entities, and of
relations. -/
def ParsedBundle.identities (b : ParsedBundle) : List (NodeRef ⊕ Link) :=
  b.documents.map (fun d => .inl (.document d.uri)) ++
  b.iterColumns.map (fun col => .inl col.ref) ++
  b.entities.map (fun ent => .inl (.entity ent.uid)) ++
  b.relations.map (fun rel => .inr rel.link)

/-- The record that a write of a load belongs to. A link that is no relation belongs to the
record at one of its ends. -/
def Write.record : Write → NodeRef ⊕ Link
  | node n _ _ => .inl n
  | link l _ =>
    match l with
    | .measures .. | .describes .. => .inl l.source
    | .appliesTo .. | .definedIn .. => .inl l.target
    | _ => .inr l

theorem Write.record_congr {v w : Write} (h : v.place = w.place) : v.record = w.record := by
  cases v <;> cases w <;> simp only [place, Sum.inl.injEq, Sum.inr.injEq, reduceCtorEq] at h
  · rw [record, record, NodeRef.id_injective h]
  · cases Link.ident_injective h; rfl

/-- A load writes to the records of its bundle alone. -/
theorem ParsedBundle.Writes.record_mem {c : GraphClient} {b : ParsedBundle}
    (hw : b.Writes c w) : w.record ∈ b.identities := by
  simp only [ParsedBundle.identities, List.mem_append, List.mem_map]
  cases hw with
  | document hd | describes hd | defines hd => exact .inl (.inl (.inl ⟨_, hd, rfl⟩))
  | column hcol | measures hcol => exact .inl (.inl (.inr ⟨_, hcol, rfl⟩))
  | entity hent => exact .inl (.inr ⟨_, hent, rfl⟩)
  | appliesTo _ hown =>
    obtain ⟨ent, hent, rfl⟩ := mem_ownerOf hown
    exact .inl (.inr ⟨ent, hent, rfl⟩)
  | relation hrel => exact .inr ⟨_, hrel, rfl⟩

theorem place_ne {c : GraphClient} {b b' : ParsedBundle}
    (h : b.identities.Disjoint b'.identities) (hv : b.Writes c v) (hw : b'.Writes c w) :
    writes.loc v ≠ writes.loc w :=
  fun heq => h hv.record_mem (Write.record_congr heq ▸ hw.record_mem)

section runs
variable [Python] {c : GraphClient} {r : Resolver} {g₀ : InMemoryGraphStore}
  {family : List ParsedBundle}

/-! ## One load of each -/

/-- Loads that each complete alone complete one after the other. -/
theorem loadAll_completes {s : ResolverState InMemoryGraphStore} (hs : g₀.SameMetrics s.store)
    (hdisj : family.Pairwise fun b b' => b.identities.Disjoint b'.identities)
    (hloads : ∀ b ∈ family, ∃ out, loadOutcome c r g₀ b = .ok out ∧
      writes.Admits Write.Admitted (loadWrites c r g₀ b) s.store.contents) :
    ∃ outs s', (family.mapM (loadBundle c r)).run (ResolverState.handler handler) s =
        (.ok outs, s') ∧ List.Forall₂ (fun b out => loadOutcome c r g₀ b = .ok out) family outs ∧
      g₀.Wrote (family.flatMap (loadWrites c r g₀)) s.store s'.store := by
  induction family generalizing s with
  | nil => exact ⟨[], s, rfl, .nil, .nil hs⟩
  | cons b family ih =>
    obtain ⟨hb, hdisj⟩ := List.pairwise_cons.mp hdisj
    obtain ⟨out, hout, hadmits⟩ := hloads b List.mem_cons_self
    obtain ⟨s₁, hrun⟩ := load_completes hs hout hadmits
    have hwrote := (load_run hs hrun).2
    -- the other bundles find their places as they were
    have hother : ∀ b' ∈ family, ∃ out, loadOutcome c r g₀ b' = .ok out ∧
        writes.Admits Write.Admitted (loadWrites c r g₀ b') s₁.store.contents := by
      intro b' hb'
      obtain ⟨out', hout', hadmits'⟩ := hloads b' (List.mem_cons_of_mem _ hb')
      refine ⟨out', hout', admits_writes_iff.mpr ⟨(admits_writes_iff.mp hadmits').1, ?_⟩⟩
      intro p w hw
      have hsame : s₁.store.contents p = s.store.contents p := by
        rw [hwrote.contents]
        refine writes.writeAll_of_not_mem (fun v hv => ?_) _
        have hp : writes.loc w = p := by simpa using List.find?_some hw
        exact hp ▸ place_ne (hb b' hb') (loadWrites_writes hv)
          (loadWrites_writes (List.mem_of_find?_eq_some hw))
      rw [hsame]
      exact (admits_writes_iff.mp hadmits').2 p w hw
    obtain ⟨outs, s', hrest, houts, hwrote'⟩ := ih hwrote.metrics hdisj hother
    refine ⟨out :: outs, s', ?_, .cons hout houts, hwrote.append hwrote'⟩
    rw [List.mapM_cons, Program.run_bind_ok hrun, Program.run_bind_ok hrest]
    rfl

/-! ## Any interleaving -/

omit [Python] in
theorem exists_mem_zip {R : α → β → Prop} {as : List α} {bs : List β}
    (h : List.Forall₂ R as bs) (ha : a ∈ as) : ∃ b, (a, b) ∈ as.zip bs ∧ R a b := by
  induction h with
  | nil => cases ha
  | cons hab _ ih =>
    rcases List.mem_cons.mp ha with rfl | ha
    · exact ⟨_, List.mem_cons_self, hab⟩
    · obtain ⟨b, hb, hR⟩ := ih ha
      exact ⟨b, List.mem_cons_of_mem _ hb, hR⟩

/-- In an interleaving of loads that all complete, every load makes its writes and returns its
resolutions. -/
theorem pool_lane {bs : List ParsedBundle} {outs : List (List Resolution)}
    {s s' : ResolverState InMemoryGraphStore} (hs : g₀.SameMetrics s.store)
    (H : Program.Pool (ResolverState.handler handler) (bs.map (loadBundle c r)) s l
      (outs.map .ret) s') {i : Nat} (hi : bs[i]? = some b) :
    writesOf (Program.callsOf i l) = loadWrites c r g₀ b ∧
      ∃ out, outs[i]? = some out ∧ loadOutcome c r g₀ b = .ok out := by
  obtain ⟨out, hout⟩ : ∃ out, outs[i]? = some out := by
    have hlen := H.length_eq
    rw [List.length_map, List.length_map] at hlen
    have hlt : i < outs.length := hlen ▸ (List.getElem?_eq_some_iff.mp hi).1
    exact ⟨_, List.getElem?_eq_getElem hlt⟩
  have huses : ∀ p ∈ bs.map (loadBundle c r), p.Uses (Reaches (Makes (LoadWrite c)) r.queue) := by
    intro p hp
    obtain ⟨b, -, rfl⟩ := List.mem_map.mp hp
    exact loadBundle_uses_loadWrite c r b
  have hplan := H.plan (fixed_replies c g₀ r.queue) huses hs (i := i)
    (by rw [List.getElem?_map, hi]; rfl) (by rw [List.getElem?_map, hout]; rfl)
    (Program.not_raised_ret outs _ (List.mem_map_of_mem (List.mem_of_getElem? hout)))
  rw [loadWrites, loadOutcome, hplan, Program.plan, List.append_nil]
  exact ⟨rfl, out, hout, rfl⟩

/-- **At-least-once delivery**: bundles of which no two write one identity, each of which loads
without error, give the same graph and the same resolutions in every interleaving of any number
of complete loads as in one load of each in the listed order. -/
theorem delivered_graph {bs : List ParsedBundle} {outs : List (List Resolution)}
    (hloads : ∀ b ∈ family, ∃ out s, (loadBundle c r b).run (ResolverState.handler handler)
      ⟨g₀, queues⟩ = (.ok out, s))
    (hdisj : family.Pairwise fun b b' => b.identities.Disjoint b'.identities)
    (hbs : ∀ b, b ∈ bs ↔ b ∈ family)
    (H : Program.Pool (ResolverState.handler handler) (bs.map (loadBundle c r)) ⟨g₀, queues⟩ l
      (outs.map .ret) s) :
    ∃ outs₀ s₀, (family.mapM (loadBundle c r)).run (ResolverState.handler handler)
        ⟨g₀, queues⟩ = (.ok outs₀, s₀) ∧
      s.store.contents = s₀.store.contents ∧
      ∀ (i : Nat) b out, bs[i]? = some b → outs[i]? = some out → (b, out) ∈ family.zip outs₀ := by
  have hstart : g₀.SameMetrics (⟨g₀, queues⟩ : ResolverState InMemoryGraphStore).store := .refl g₀
  obtain ⟨outs₀, s₀, hrun, houts₀, hwrote⟩ := loadAll_completes (c := c) (r := r) hstart hdisj
    fun b hb => by
      obtain ⟨out, s, hrun⟩ := hloads b hb
      obtain ⟨hout, hwrote⟩ := load_run hstart hrun
      exact ⟨out, hout, hwrote.admits⟩
  refine ⟨outs₀, s₀, hrun, ?_, fun i b out hb hout => ?_⟩
  · have hcalls : ∀ call ∈ l.map Prod.snd, Reaches (Makes (LoadWrite c)) r.queue call := by
      intro call hcall
      obtain ⟨e, he, rfl⟩ := List.mem_map.mp hcall
      refine H.uses (fun p hp => ?_) e he
      obtain ⟨b, -, rfl⟩ := List.mem_map.mp hp
      exact loadBundle_uses_loadWrite c r b
    have hlane (i : Nat) := Program.callsOf_filterMap ResolverCall.write? i l
    rw [H.effect, (allOk_calls hcalls _).2 (H.allOk (Program.not_raised_ret outs)), hwrote.contents]
    have hwrites : writesOf (l.map Prod.snd) =
        (l.filterMap fun e => e.2.write?.map (e.1, ·)).map Prod.snd := by
      rw [writesOf, List.filterMap_map, List.map_filterMap]
      congr 1
      funext e
      rcases h : e.2.write? with _ | w <;> simp [h]
    rw [hwrites]
    refine writes.writeAll_family writes_absorbing (hdisj.imp fun h v hv w hw =>
      place_ne h (loadWrites_writes hv) (loadWrites_writes hw)) (fun i => ?_) (fun b hb => ?_) _
    · rw [hlane]
      rcases hi : bs[i]? with _ | b
      · right
        rw [H.callsOf_eq_nil (by rw [List.getElem?_map, hi]; rfl)]
        rfl
      · exact .inl ⟨b, (hbs b).mp (List.mem_of_getElem? hi), (pool_lane hstart H hi).1⟩
    · obtain ⟨i, hi⟩ := List.mem_iff_getElem?.mp ((hbs b).mpr hb)
      exact ⟨i, (hlane i).trans (pool_lane hstart H hi).1⟩
  · obtain ⟨-, out', hout', hb'⟩ := pool_lane hstart H hb
    rw [hout] at hout'
    cases hout'
    obtain ⟨out₀, hmem, hout₀⟩ := exists_mem_zip houts₀ ((hbs b).mp (List.mem_of_getElem? hb))
    cases hb'.symm.trans hout₀
    exact hmem

end runs

/-- Two bundles that write their node twice, one of them delivered twice and racing with itself. -/
theorem delivered_graph_twice :
    let attrs (v : Int) : Props := .ofList [("size", .int v)]
    let bundle (uid : String) : ParsedBundle := {
      provenance := ⟨"src", "2024", "c@1"⟩
      entities := [{ uid, attributes := attrs 1 }, { uid, attributes := attrs 2 }] }
    let r : Resolver := { suggester := fun _ _ => .ok [], queue := 0 }
    let write (uid : String) (v : Int) : Write := entityWrite uid none (attrs v)
    let next (g : InMemoryGraphStore) (uid : String) (v : Int) : InMemoryGraphStore :=
      (handler (write uid v).call g).2
    let graph := next (next (next (next (next (next ∅ "a" 1) "b" 1) "a" 1) "a" 2) "b" 2) "a" 2
    ∃ outs₀ s₀, ([bundle "a", bundle "b"].mapM (loadBundle ∅ r)).run
        (ResolverState.handler handler) ⟨∅, []⟩ = (.ok outs₀, s₀) ∧
      graph.contents = s₀.store.contents := by
  intro attrs bundle r write next graph
  have hwrite (g : InMemoryGraphStore) (uid : String) (v : Int)
      (hok : (handler (write uid v).call g).1.isOk) :
      ResolverState.handler handler (.store (write uid v).call) ⟨g, []⟩ =
        (.ok (), ⟨next g uid v, []⟩) := by
    refine Prod.ext ?_ rfl
    change (handler (write uid v).call g).1 = .ok ()
    rcases hx : (handler (write uid v).call g).1 with e | u
    · rw [hx] at hok
      cases hok
    · rfl
  have hpool : Program.Pool (ResolverState.handler handler)
      ([bundle "a", bundle "b", bundle "a"].map (loadBundle ∅ r)) ⟨∅, []⟩
      [(2, .store (write "a" 1).call), (1, .store (write "b" 1).call),
        (0, .store (write "a" 1).call), (2, .store (write "a" 2).call),
        (1, .store (write "b" 2).call), (0, .store (write "a" 2).call)]
      ([[], [], []].map .ret) ⟨graph, []⟩ :=
    .call (i := 2) rfl (hwrite _ "a" 1 (by decide +kernel)) <|
      .call (i := 1) rfl (hwrite _ "b" 1 (by decide +kernel)) <|
      .call (i := 0) rfl (hwrite _ "a" 1 (by decide +kernel)) <|
      .call (i := 2) rfl (hwrite _ "a" 2 (by decide +kernel)) <|
      .call (i := 1) rfl (hwrite _ "b" 2 (by decide +kernel)) <|
      .call (i := 0) rfl (hwrite _ "a" 2 (by decide +kernel)) .refl
  have hloads : ∀ b ∈ [bundle "a", bundle "b"], ∃ out s, (loadBundle ∅ r b).run
      (ResolverState.handler handler) ⟨∅, []⟩ = (.ok out, s) := by
    intro b hb
    rcases List.mem_cons.mp hb with rfl | hb
    · exact ⟨[], _, rfl⟩
    · cases List.mem_singleton.mp hb
      exact ⟨[], _, rfl⟩
  have hdisj : [bundle "a", bundle "b"].Pairwise fun b b' =>
      b.identities.Disjoint b'.identities := by
    have hidentities (uid : String) : (bundle uid).identities =
        List.replicate 2 (.inl (.entity uid)) := rfl
    refine List.pairwise_pair.mpr fun n ha hb => ?_
    rw [hidentities] at ha hb
    have hne : (Sum.inl (NodeRef.entity "a") : NodeRef ⊕ Link) ≠ .inl (.entity "b") := by decide
    exact hne ((List.eq_of_mem_replicate ha).symm.trans (List.eq_of_mem_replicate hb))
  have hbs : ∀ b, b ∈ [bundle "a", bundle "b", bundle "a"] ↔ b ∈ [bundle "a", bundle "b"] := by
    intro b
    simp only [List.mem_cons, List.not_mem_nil, or_false]
    exact ⟨fun h => h.elim .inl (·.elim .inr .inl), fun h => h.elim .inl (.inr ∘ .inl)⟩
  obtain ⟨outs₀, s₀, hrun, hgraph, -⟩ := delivered_graph hloads hdisj hbs hpool
  clear_value graph
  exact ⟨outs₀, s₀, hrun, hgraph⟩

end MarginKG
