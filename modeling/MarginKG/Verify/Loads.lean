import MarginKG.Verify.Contents

/-! What a load writes. It reads nothing but metrics and writes everything else, so the replies
it gets are those of the graph it starts from, and its writes (`loadWrites`) and resolutions
(`loadOutcome`) are the same in every graph with these metrics: alone (`load_steps`,
`load_run`), interrupted, or among other loads. -/

namespace MarginKG

open InMemoryGraphStore

/-! ## The writes among the calls of a resolver -/

open Classical in
/-- The write that a call makes. -/
noncomputable def ResolverCall.write? (c : ResolverCall) : Option Write :=
  if h : ∃ w : Write, c = .store w.call then some h.choose else none

theorem ResolverCall.write?_call (w : Write) :
    (ResolverCall.store w.call).write? = some w := by
  have h : ∃ w' : Write, ResolverCall.store w.call = .store w'.call := ⟨w, rfl⟩
  rw [write?, dif_pos h]
  exact congrArg some (Write.call_injective (ResolverCall.store.inj h.choose_spec).symm)

theorem ResolverCall.write?_eq_none {c : ResolverCall} (h : ∀ w : Write, c ≠ .store w.call) :
    c.write? = none := by
  rw [write?, dif_neg (not_exists.mpr h)]

/-- The writes among some calls. -/
noncomputable def writesOf (l : List ResolverCall) : List Write :=
  l.filterMap ResolverCall.write?

theorem writesOf_append (l l' : List ResolverCall) :
    writesOf (l ++ l') = writesOf l ++ writesOf l' := List.filterMap_append

/-- A call either makes a write or leaves the store alone and returns. -/
theorem Reaches.cases_write {P : Write → Prop} {c : ResolverCall}
    (h : Reaches (Makes P) queue c) : (∃ w, P w ∧ c = .store w.call) ∨
      c.write? = none ∧ ∀ s, (∃ r, (ResolverState.handler handler c s).1 = .ok r) ∧
        (ResolverState.handler handler c s).2.store = s.store := by
  cases h with
  | store h =>
    cases h with
    | write h => exact .inl ⟨_, h, rfl⟩
    | metrics =>
      exact .inr ⟨ResolverCall.write?_eq_none fun w => by cases w <;> nofun,
        fun s => ⟨⟨_, rfl⟩, rfl⟩⟩
    | @metric k =>
      refine .inr ⟨ResolverCall.write?_eq_none fun w => by cases w <;> nofun, fun s => ⟨?_, rfl⟩⟩
      exact ⟨_, s.store.getNode_ref (n := .metric (.str k)) rfl⟩
  | enqueue => exact .inr ⟨ResolverCall.write?_eq_none fun w => nofun, fun s => ⟨⟨_, rfl⟩, rfl⟩⟩

theorem mem_writesOf {P : Write → Prop} {l : List ResolverCall}
    (hl : ∀ c ∈ l, Reaches (Makes P) queue c) (hw : w ∈ writesOf l) : P w := by
  obtain ⟨c, hc, hcw⟩ := List.mem_filterMap.mp hw
  rcases (hl c hc).cases_write with ⟨v, hv, rfl⟩ | ⟨hnone, -⟩
  · rw [ResolverCall.write?_call] at hcw
    cases hcw
    exact hv
  · rw [hnone] at hcw
    cases hcw

/-- Calls return one after the other when their writes are admitted, and the graph is then what
the writes make of it. -/
theorem allOk_calls {P : Write → Prop} {l : List ResolverCall}
    (hl : ∀ c ∈ l, Reaches (Makes P) queue c) (s : ResolverState InMemoryGraphStore) :
    (Program.AllOk (ResolverState.handler handler) l s ↔
      writes.Admits Write.Admitted (writesOf l) s.store.contents) ∧
    (Program.AllOk (ResolverState.handler handler) l s →
      (Program.effect (ResolverState.handler handler) l s).store.contents =
        writeAll writes.act (writesOf l) s.store.contents) := by
  induction l generalizing s with
  | nil => exact ⟨Iff.rfl, fun _ => rfl⟩
  | cons c l ih =>
    have ih := ih (fun c hc => hl c (List.mem_cons_of_mem _ hc))
      (ResolverState.handler handler c s).2
    rcases (hl c List.mem_cons_self).cases_write with ⟨w, -, rfl⟩ | ⟨hnone, hs⟩
    · have hcall : writesOf (.store w.call :: l) = w :: writesOf l :=
        List.filterMap_cons_some (ResolverCall.write?_call w)
      rw [hcall, Program.effect_cons, writeAll_cons]
      have hadmitted : (∃ r, (ResolverState.handler handler (.store w.call) s).1 = .ok r) ↔
          w.Admitted (s.store.contents (writes.loc w)) := (s.store.admitted_iff w).symm
      by_cases hw : w.Admitted (s.store.contents (writes.loc w))
      · have hcontents : (ResolverState.handler handler (.store w.call) s).2.store.contents =
            writes.act w s.store.contents := s.store.contents_write hw.1
        rw [hcontents] at ih
        simp only [Program.AllOk, Located.Admits, hadmitted, hw, true_and]
        exact ih
      · simp only [Program.AllOk, Located.Admits, hadmitted, hw, false_and]
        exact ⟨trivial, False.elim⟩
    · have hcall : writesOf (c :: l) = writesOf l := List.filterMap_cons_none hnone
      rw [hcall, Program.effect_cons]
      rw [(hs s).2] at ih
      simp only [Program.AllOk, (hs s).1, true_and]
      exact ih

/-! ## Replies -/

/-- The graph has the metrics of `g₀`. -/
structure InMemoryGraphStore.SameMetrics (g₀ g : InMemoryGraphStore) : Prop where
  metrics : g.metrics = g₀.metrics
  metric : ∀ k, g.nodes.get? (NodeRef.metric k).id = g₀.nodes.get? (NodeRef.metric k).id

theorem InMemoryGraphStore.SameMetrics.refl (g : InMemoryGraphStore) : g.SameMetrics g :=
  ⟨rfl, fun _ => rfl⟩

/-- What a resolver is told over the graph `g₀`. -/
def InMemoryGraphStore.reply (g₀ : InMemoryGraphStore) : (c : ResolverCall) → c.Reply
  | .store (.upsertNode ..) | .store (.upsertEdge ..) | .enqueue .. => ()
  | .store (.getNode label key) =>
    match g₀.getNode label key with
    | .ok node => node
    | .error _ => none
  | .store (.outNeighbors ..) => []
  | .store (.nodesByLabel label) => g₀.nodesByLabel label

/-- What a load of some bundle may write. -/
def LoadWrite (c : GraphClient) (w : Write) : Prop := ∃ b : ParsedBundle, b.Writes c w

theorem LoadWrite.sameMetrics {g₀ g : InMemoryGraphStore} (hw : LoadWrite c w)
    (h : g₀.SameMetrics g) : g₀.SameMetrics (handler w.call g).2 := by
  obtain ⟨b, hw⟩ := hw
  refine ⟨(hw.metrics_eq g).trans h.metrics, fun k => Eq.trans ?_ (h.metric k)⟩
  cases hw with
  | document | column | entity =>
    exact (get?_nodes_node ..).trans (if_neg fun hk => by cases NodeRef.id_injective hk.2)
  | _ => rw [nodes_link]

/-- Over graphs with the metrics of `g₀`, the replies to loads are those of `g₀`. -/
theorem fixed_replies (c : GraphClient) (g₀ : InMemoryGraphStore) (queue : Nat) :
    Program.Fixed (ResolverState.handler handler) g₀.reply
      (Reaches (Makes (LoadWrite c)) queue) fun s => g₀.SameMetrics s.store where
  reply {call s s' r} hc hs h := by
    cases hc with
    | enqueue => rfl
    | store hc =>
      cases hc with
      | @write w _ => cases w <;> rfl
      | metrics => cases h; exact hs.metrics
      | @metric k =>
        have hget (g : InMemoryGraphStore) :
            g.getNode CoreLabel.metric.value (metricKeyProps (.str k)) =
              .ok (g.nodes.get? (NodeRef.metric (.str k)).id) := g.getNode_ref (n := .metric _) rfl
        have h : s.store.getNode CoreLabel.metric.value (metricKeyProps (.str k)) = .ok r :=
          congrArg Prod.fst h
        cases (hget s.store).symm.trans h
        refine (hs.metric _).trans ?_
        change _ = match g₀.getNode CoreLabel.metric.value (metricKeyProps (.str k)) with
          | .ok node => node
          | .error _ => none
        rw [hget g₀]
  keeps {call s s' r} hc hs h := by
    obtain ⟨-, rfl⟩ := Prod.ext_iff.mp h
    cases hc with
    | enqueue => exact hs
    | store hc =>
      cases hc with
      | write hw => exact hw.sameMetrics hs
      | metrics | metric => exact hs

/-! ## Loads -/

/-- The writes `Q`, none of them refused, lead from `g` to `g'`, which has the metrics of `g₀`. -/
structure InMemoryGraphStore.Wrote (g₀ : InMemoryGraphStore) (Q : List Write)
    (g g' : InMemoryGraphStore) : Prop where
  admits : writes.Admits Write.Admitted Q g.contents
  contents : g'.contents = writeAll writes.act Q g.contents
  metrics : g₀.SameMetrics g'

theorem InMemoryGraphStore.Wrote.nil {g₀ g : InMemoryGraphStore} (h : g₀.SameMetrics g) :
    g₀.Wrote [] g g := ⟨trivial, rfl, h⟩

theorem InMemoryGraphStore.Wrote.append {g₀ g₁ g₂ g₃ : InMemoryGraphStore}
    (h : g₀.Wrote Q g₁ g₂) (h' : g₀.Wrote Q' g₂ g₃) : g₀.Wrote (Q ++ Q') g₁ g₃ where
  admits := writes.admits_append.mpr ⟨h.admits, h.contents ▸ h'.admits⟩
  contents := by rw [h'.contents, h.contents, writeAll_append]
  metrics := h'.metrics

section runs
variable [Python] {c : GraphClient} {r : Resolver} {g₀ : InMemoryGraphStore} {b : ParsedBundle}

/-- The writes of a load over graphs with the metrics of `g₀`. -/
noncomputable def loadWrites (c : GraphClient) (r : Resolver) (g₀ : InMemoryGraphStore)
    (b : ParsedBundle) : List Write :=
  writesOf ((loadBundle c r b).plan g₀.reply).1

/-- How a load ends over graphs with the metrics of `g₀`. -/
def loadOutcome (c : GraphClient) (r : Resolver) (g₀ : InMemoryGraphStore) (b : ParsedBundle) :
    Except PyErr (List Resolution) :=
  ((loadBundle c r b).plan g₀.reply).2

theorem loadWrites_writes (hw : w ∈ loadWrites c r g₀ b) : b.Writes c w :=
  mem_writesOf ((loadBundle_uses c r b).plan _) hw

theorem loadBundle_uses_loadWrite (c : GraphClient) (r : Resolver) (b : ParsedBundle) :
    (loadBundle c r b).Uses (Reaches (Makes (LoadWrite c)) r.queue) :=
  (loadBundle_uses c r b).mono fun _ h => h.mono fun _ h => h.mono fun _ h => ⟨b, h⟩

/-- The part of a load that has been executed made the first of its writes. -/
theorem load_steps {s s' : ResolverState InMemoryGraphStore} (hs : g₀.SameMetrics s.store)
    (H : Program.Steps (ResolverState.handler handler) (loadBundle c r b) s l q s') :
    loadWrites c r g₀ b = writesOf l ++ writesOf (q.plan g₀.reply).1 ∧
      loadOutcome c r g₀ b = (q.plan g₀.reply).2 ∧ g₀.Wrote (writesOf l) s.store s'.store := by
  have huses := loadBundle_uses_loadWrite c r b
  obtain ⟨hplan, -, hs'⟩ := H.plan (fixed_replies c g₀ r.queue) huses hs
  obtain ⟨hadmits, hcontents⟩ := allOk_calls (H.uses huses) s
  refine ⟨?_, ?_, hadmits.mp H.allOk, ?_, hs'⟩
  · rw [loadWrites, hplan, writesOf_append]
  · rw [loadOutcome, hplan]
  · rw [H.effect]
    exact hcontents H.allOk

theorem load_run {s s' : ResolverState InMemoryGraphStore} (hs : g₀.SameMetrics s.store)
    (H : (loadBundle c r b).run (ResolverState.handler handler) s = (.ok out, s')) :
    loadOutcome c r g₀ b = .ok out ∧ g₀.Wrote (loadWrites c r g₀ b) s.store s'.store := by
  obtain ⟨l, H⟩ := Program.Steps.of_run H
  obtain ⟨hwrites, hout, hwrote⟩ := load_steps hs H
  rw [hwrites.trans (List.append_nil _)]
  exact ⟨hout, hwrote⟩

/-- A load whose writes are admitted completes, unless it raises an exception of its own. -/
theorem load_completes {s : ResolverState InMemoryGraphStore} (hs : g₀.SameMetrics s.store)
    (hout : loadOutcome c r g₀ b = .ok out)
    (h : writes.Admits Write.Admitted (loadWrites c r g₀ b) s.store.contents) :
    ∃ s', (loadBundle c r b).run (ResolverState.handler handler) s = (.ok out, s') := by
  have huses := loadBundle_uses_loadWrite c r b
  have hok := (allOk_calls (huses.plan g₀.reply) s).1.mpr h
  exact ⟨_, (Program.Steps.of_plan (fixed_replies c g₀ r.queue) huses hs
    (Prod.ext rfl hout) hok).run_ret⟩

end runs

end MarginKG
