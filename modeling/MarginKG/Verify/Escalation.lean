import MarginKG.Ingestion.Pipeline

/-! A queue that several resolvers share receives every escalation, in the order in which the
resolutions are returned.

`Resolver.__init__` drops a queue that is empty at that moment. The law therefore holds along the
runs in which every resolver is constructed while the queue is not empty (`QueueOp.Shares`), and
`escalation_lost` is the run that starts with a resolver on an empty queue. Nothing here depends on
the store: its handler is arbitrary. -/

namespace MarginKG

/-- The escalations among the resolutions. -/
def escalations (outcomes : List Resolution) : List Resolution :=
  outcomes.filter (·.tier = .escalated)

@[simp] theorem escalations_nil : escalations [] = [] := rfl

theorem escalations_cons (outcome : Resolution) (outcomes : List Resolution) :
    escalations (outcome :: outcomes) = escalations [outcome] ++ escalations outcomes :=
  List.filter_append [outcome] outcomes

theorem escalations_append (outcomes outcomes' : List Resolution) :
    escalations (outcomes ++ outcomes') = escalations outcomes ++ escalations outcomes' :=
  List.filter_append ..

namespace ResolverState

variable {σ : Type} {h : Handler StoreCall StoreCall.Reply PyErr σ}

@[simp] theorem pending_store (w : ResolverState σ) (s : σ) (q : Nat) :
    ({ w with store := s }).pending q = w.pending q := rfl

/-- Enqueueing appends, for a queue that exists. -/
theorem pending_enqueue {w : ResolverState σ} (hq : q < w.queues.length) (outcome : Resolution) :
    (handler h (.enqueue q outcome) w).2.pending q = w.pending q ++ [outcome] := by
  simp [handler, pending, List.getD_eq_getElem?_getD, hq]

/-- No call removes a queue. -/
theorem handler_queues_length (c : ResolverCall) (w : ResolverState σ) :
    (handler h c w).2.queues.length = w.queues.length := by
  cases c with
  | store c => rfl
  | enqueue q outcome => simp [handler]

end ResolverState

section runs
variable [Python] {σ : Type} (h : Handler StoreCall StoreCall.Reply PyErr σ)

open ResolverState

/-- One column leaves in the queue of its resolver what it returned, if that is an escalation; a
resolution that raises leaves nothing there. -/
theorem Resolver.pending_resolve (r : Resolver) (col : ObservedColumn) (w : ResolverState σ)
    (hq : r.queue < w.queues.length) :
    ((r.resolve col).run (handler h) w).2.pending r.queue = w.pending r.queue ++
      escalations (((r.resolve col).run (handler h) w).1.toOption.toList) := by
  rw [resolve, Program.run_bind, run_liftStore]
  rcases (GraphClient.metricAliases.run h w.store) with ⟨e | index, g⟩
  · simp [Except.toOption]
  dsimp only
  split
  · simp [Except.toOption, escalations]
  split
  · simp [Except.toOption, escalations]
  rw [Program.run_bind, run_liftStore]
  rcases (GraphClient.metricTerms.run h g) with ⟨e | terms, g'⟩
  · simp [Except.toOption]
  dsimp only
  rcases r.suggester col terms with e | ranked
  · simp [Except.toOption]
  dsimp only [Program.ofExcept_ok, Program.ret_bind]
  split
  · simp [Except.toOption, escalations]
  · rw [Program.run_call_ok rfl, Program.run_ret]
    exact pending_enqueue (h := h) hq _

omit [Python] in
theorem queues_length_run (p : ResolverProgram α) (w : ResolverState σ) :
    (p.run (handler h) w).2.queues.length = w.queues.length :=
  (Program.Uses.all p).run (h := handler h)
    (I := fun w' : ResolverState σ => w'.queues.length = w.queues.length)
    (fun c w' _ hw' => (handler_queues_length c w').trans hw') rfl

/-- The resolutions that the loop of `load_bundle` obtains, in their order, including those it has
obtained by the time it raises. -/
def resolutionsReturned (r : Resolver) (prov : EdgeProvenance)
    (owners : Dict (String × String × String) String) :
    List ObservedColumn → ResolverState σ → List Resolution
  | [], _ => []
  | col :: cols, w =>
    match (r.resolve col).run (handler h) w with
    | (.error _, _) => []
    | (.ok outcome, w) => outcome ::
      match (linkOutcome prov col (owners.get? col.key) outcome).run h w.store with
      | (.error _, _) => []
      | (.ok _, s) => resolutionsReturned r prov owners cols { w with store := s }

/-- When the loop completes, they are what it returns. -/
theorem resolutionsReturned_eq {r : Resolver} {cols : List ObservedColumn} {w : ResolverState σ}
    (hrun : (cols.mapM (resolveAndLink r prov owners)).run (handler h) w = (.ok outcomes, w')) :
    resolutionsReturned h r prov owners cols w = outcomes := by
  induction cols generalizing w outcomes with
  | nil => cases hrun; rfl
  | cons col cols ih =>
    rw [List.mapM_cons, Program.run_bind, resolveAndLink, Program.run_bind] at hrun
    rw [resolutionsReturned]
    rcases hr : (r.resolve col).run (handler h) w with ⟨e | outcome, w₁⟩ <;> rw [hr] at hrun
    · cases hrun
    dsimp only at hrun ⊢
    rw [Program.run_bind, run_liftStore] at hrun
    rcases hl : (linkOutcome prov col (owners.get? col.key) outcome).run h w₁.store with
      ⟨e | _, s⟩ <;> rw [hl] at hrun
    · cases hrun
    dsimp only [Program.pure_eq, Program.run_ret] at hrun ⊢
    rw [Program.run_bind] at hrun
    rcases hrest : (cols.mapM (resolveAndLink r prov owners)).run (handler h)
      { w₁ with store := s } with ⟨e | rest, w₂⟩
    · rw [hrest] at hrun; cases hrun
    · rw [hrest] at hrun
      cases hrun
      rw [ih hrest]

theorem pending_loop (r : Resolver) (prov : EdgeProvenance)
    (owners : Dict (String × String × String) String) (cols : List ObservedColumn)
    (w : ResolverState σ) (hq : r.queue < w.queues.length) :
    ((cols.mapM (resolveAndLink r prov owners)).run (handler h) w).2.pending r.queue =
      w.pending r.queue ++ escalations (resolutionsReturned h r prov owners cols w) := by
  induction cols generalizing w with
  | nil => simp [resolutionsReturned]
  | cons col cols ih =>
    have hresolve := r.pending_resolve h col w hq
    have hlength := queues_length_run h (r.resolve col) w
    rw [List.mapM_cons, Program.run_bind, resolveAndLink, Program.run_bind, resolutionsReturned]
    rcases hr : (r.resolve col).run (handler h) w with ⟨e | outcome, w₁⟩ <;>
      rw [hr] at hresolve hlength
    · exact hresolve
    have hresolve : w₁.pending r.queue = w.pending r.queue ++ escalations [outcome] := hresolve
    dsimp only at hlength ⊢
    rw [Program.run_bind, run_liftStore, escalations_cons, ← List.append_assoc, ← hresolve]
    rcases (linkOutcome prov col (owners.get? col.key) outcome).run h w₁.store with ⟨e | _, s⟩
    · simp
    dsimp only [Program.pure_eq, Program.run_ret]
    rw [Program.run_bind]
    have ih := ih { w₁ with store := s } (hlength ▸ hq)
    rcases hrest : (cols.mapM (resolveAndLink r prov owners)).run (handler h)
      { w₁ with store := s } with ⟨e | rest, w₂⟩ <;> rw [hrest] at ih <;> exact ih

/-! ## Runs -/

/-- What callers do around one queue: they construct resolvers on it and use them, by their
number. -/
inductive QueueOp where
  | construct (suggester : Suggester) (threshold : ℚ) (topK : Nat)
  | resolve (i : Nat) (column : ObservedColumn)
  | loadBundle (i : Nat) (client : GraphClient) (bundle : ParsedBundle)

/-- The resolvers constructed so far, and the state they work on. -/
structure Desk (σ : Type) where
  resolvers : List Resolver
  world : ResolverState σ

namespace QueueOp

/-- The state after an operation on the queue `q`, and the resolutions returned in it. -/
def exec (q : Nat) (d : Desk σ) : QueueOp → List Resolution × Desk σ
  | construct suggester threshold topK =>
    let (resolver, w) := Resolver.init suggester threshold topK (some q) d.world
    ([], ⟨d.resolvers ++ [resolver], w⟩)
  | resolve i column =>
    match d.resolvers[i]? with
    | none => ([], d)
    | some r =>
      let (result, w) := (r.resolve column).run (handler h) d.world
      (result.toOption.toList, { d with world := w })
  | loadBundle i client bundle =>
    match d.resolvers[i]? with
    | none => ([], d)
    | some r =>
      let w := ((liftStore (loadRecords client bundle)).run (handler h) d.world)
      (match w.1 with
        | .error _ => []
        | .ok _ => resolutionsReturned h r bundle.provenance.toEdge (ownerOf bundle.entities)
          bundle.iterColumns w.2,
        { d with world := ((MarginKG.loadBundle client r bundle).run (handler h) d.world).2 })

/-- A resolver is constructed on a queue that is not empty. -/
def Shares (q : Nat) (d : Desk σ) : QueueOp → Prop
  | construct .. => d.world.pending q ≠ []
  | _ => True

/-- Every operation of a sequence keeps the queue shared. -/
def AllShare (q : Nat) : Desk σ → List QueueOp → Prop
  | _, [] => True
  | d, op :: ops => op.Shares q d ∧ AllShare q (op.exec h q d).2 ops

/-- The resolutions returned in a sequence of operations, and the state after it. -/
def run (q : Nat) : Desk σ → List QueueOp → List Resolution × Desk σ
  | d, [] => ([], d)
  | d, op :: ops =>
    ((op.exec h q d).1 ++ (run q (op.exec h q d).2 ops).1, (run q (op.exec h q d).2 ops).2)

end QueueOp

/-- Every resolver at the desk has the queue `q`, which exists. -/
structure Desk.Sharing (q : Nat) (d : Desk σ) : Prop where
  exists_queue : q < d.world.queues.length
  queue_eq : ∀ r ∈ d.resolvers, r.queue = q

namespace QueueOp

theorem sharing_exec {q : Nat} {d : Desk σ} (hd : d.Sharing q) {op : QueueOp}
    (hop : op.Shares q d) : (op.exec h q d).2.Sharing q := by
  cases op with
  | construct suggester threshold topK =>
    have hinit : Resolver.init suggester threshold topK (some q) d.world =
        (⟨suggester, threshold, topK, q⟩, d.world) := by
      have hop : d.world.pending q ≠ [] := hop
      simp [Resolver.init, Option.filter, hop]
    simp only [exec, hinit]
    refine ⟨hd.exists_queue, fun r hr => ?_⟩
    rcases List.mem_append.mp hr with hr | hr
    · exact hd.queue_eq r hr
    · rw [List.mem_singleton.mp hr]
  | resolve i column =>
    rw [exec]
    split
    · exact hd
    · exact ⟨(queues_length_run ..).symm ▸ hd.exists_queue, hd.queue_eq⟩
  | loadBundle i client bundle =>
    rw [exec]
    split
    · exact hd
    · exact ⟨(queues_length_run ..).symm ▸ hd.exists_queue, hd.queue_eq⟩

theorem pending_exec {q : Nat} {d : Desk σ} (hd : d.Sharing q) {op : QueueOp}
    (hop : op.Shares q d) : (op.exec h q d).2.world.pending q =
      d.world.pending q ++ escalations (op.exec h q d).1 := by
  cases op with
  | construct suggester threshold topK =>
    have hop : d.world.pending q ≠ [] := hop
    simp [exec, Resolver.init, Option.filter, hop]
  | resolve i column =>
    rw [exec]
    split
    · simp
    · rename_i r hr
      have hq := hd.queue_eq r (List.mem_of_getElem? hr)
      subst hq
      exact r.pending_resolve h column d.world hd.exists_queue
  | loadBundle i client bundle =>
    rw [exec]
    split
    · simp
    · rename_i r hr
      have hq := hd.queue_eq r (List.mem_of_getElem? hr)
      subst hq
      dsimp only
      rw [MarginKG.loadBundle, Program.run_bind, run_liftStore]
      rcases (loadRecords client bundle).run h d.world.store with ⟨e | _, s⟩
      · simp
      · exact pending_loop h r _ _ _ _ hd.exists_queue

theorem pending_run {q : Nat} {d : Desk σ} (hd : d.Sharing q) {ops : List QueueOp}
    (hops : AllShare h q d ops) :
    (run h q d ops).2.world.pending q = d.world.pending q ++ escalations (run h q d ops).1 := by
  induction ops generalizing d with
  | nil => simp [run]
  | cons op ops ih =>
    rw [run, ih (sharing_exec h hd hops.1) hops.2, pending_exec h hd hops.1, escalations_append,
      List.append_assoc]

/-- **No escalation is lost**: while resolvers are only constructed on the queue when it is not
empty, it holds what it held before and every escalation that was returned, in order. -/
theorem escalations_received {q : Nat} (w : ResolverState σ) (hq : q < w.queues.length)
    {ops : List QueueOp} (hops : AllShare h q ⟨[], w⟩ ops) :
    (run h q ⟨[], w⟩ ops).2.world.pending q = w.pending q ++ escalations (run h q ⟨[], w⟩ ops).1 :=
  pending_run h ⟨hq, by simp⟩ hops

end QueueOp

end runs

namespace QueueOp

theorem escalations_received_twice :
    let col : ObservedColumn := { system := "s", table := "t", name := "xyz" }
    let w : ResolverState InMemoryGraphStore := {
      store := ∅
      queues := [[{ column := col, tier := .escalated }]] }
    let ops : List QueueOp := [.construct (fun _ _ => .ok []) (6 / 10) 3, .resolve 0 col]
    let final := run InMemoryGraphStore.handler 0 ⟨[], w⟩ ops
    final.2.world.pending 0 = w.pending 0 ++ escalations final.1 :=
  escalations_received InMemoryGraphStore.handler _ (by decide)
    ⟨List.cons_ne_nil _ _, trivial, trivial⟩

/-- A resolver that is constructed on an empty queue puts its escalations elsewhere. -/
theorem escalation_lost :
    let col : ObservedColumn := { system := "s", table := "t", name := "xyz" }
    let w : ResolverState InMemoryGraphStore := { store := ∅, queues := [[]] }
    let ops : List QueueOp := [.construct (fun _ _ => .ok []) (6 / 10) 3, .resolve 0 col]
    let final := run InMemoryGraphStore.handler 0 ⟨[], w⟩ ops
    final.2.world.pending 0 ≠ w.pending 0 ++ escalations final.1 := by
  decide

end QueueOp

end MarginKG
