import MarginKG.Verify.AliasIndex
import MarginKG.Verify.Escalation

/-! What the funnel decides over the in-memory store, read off the metrics.

A resolution depends on the graph through its metrics alone, and leaves nothing behind but an
escalation in its queue (`Resolver.resolve_run`). -/

namespace MarginKG

open InMemoryGraphStore

/-- The state after an answer of the funnel has been put into a queue, if it is an escalation. -/
def ResolverState.receive (w : ResolverState σ) (queue : Nat)
    (answer : Except PyErr Resolution) : ResolverState σ :=
  { w with queues := w.queues.modify queue (· ++ escalations answer.toOption.toList) }

namespace ResolverState

theorem receive_of_nil {w : ResolverState σ} {answer : Except PyErr Resolution}
    (h : escalations answer.toOption.toList = []) (queue : Nat) : w.receive queue answer = w := by
  simp [receive, h, show (fun l : List Resolution => l) = id from rfl]

end ResolverState

namespace Resolver

variable [Python]

/-- What `resolve` comes to when these are the metrics. -/
def verdict (r : Resolver) (metrics : List Props) (column : ObservedColumn) :
    Except PyErr Resolution := do
  let index ← aliasIndex metrics
  match (index.get? (casefold column.name)).filter (· ≠ .null) with
  | some hit => return { column, tier := .autoLinked, metricKey := some hit, score := 1 }
  | none =>
    if column.hasDictionary then return { column, tier := .documented }
    else
      let terms ← termIndex metrics
      let ranked ← r.suggester column terms
      let suggestions := ranked.take r.topK
      match suggestions.head?.filter fun top => r.threshold ≤ top.score with
      | some top => return {
          column
          tier := .suggested
          metricKey := some (.str top.metricKey)
          score := top.score
          alternatives := suggestions }
      | none => return { column, tier := .escalated, alternatives := suggestions }

/-- The ways in which a verdict comes about. -/
inductive Decides (r : Resolver) (metrics : List Props) (column : ObservedColumn) :
    Except PyErr Resolution → Prop
  | unindexed : aliasIndex metrics = .error e → Decides r metrics column (.error e)
  | autoLinked : aliasIndex metrics = .ok index →
    (index.get? (casefold column.name)).filter (· ≠ .null) = some key →
    Decides r metrics column
      (.ok { column, tier := .autoLinked, metricKey := some key, score := 1 })
  | documented : aliasIndex metrics = .ok index →
    (index.get? (casefold column.name)).filter (· ≠ .null) = none →
    column.hasDictionary = true → Decides r metrics column (.ok { column, tier := .documented })
  | termless : aliasIndex metrics = .ok index →
    (index.get? (casefold column.name)).filter (· ≠ .null) = none →
    column.hasDictionary = false → termIndex metrics = .error e →
    Decides r metrics column (.error e)
  | unranked : aliasIndex metrics = .ok index →
    (index.get? (casefold column.name)).filter (· ≠ .null) = none →
    column.hasDictionary = false → termIndex metrics = .ok terms →
    r.suggester column terms = .error e → Decides r metrics column (.error e)
  | suggested : aliasIndex metrics = .ok index →
    (index.get? (casefold column.name)).filter (· ≠ .null) = none →
    column.hasDictionary = false → termIndex metrics = .ok terms →
    r.suggester column terms = .ok ranked →
    ((ranked.take r.topK).head?.filter fun top => r.threshold ≤ top.score) = some top →
    Decides r metrics column (.ok {
      column
      tier := .suggested
      metricKey := some (.str top.metricKey)
      score := top.score
      alternatives := ranked.take r.topK })
  | escalated : aliasIndex metrics = .ok index →
    (index.get? (casefold column.name)).filter (· ≠ .null) = none →
    column.hasDictionary = false → termIndex metrics = .ok terms →
    r.suggester column terms = .ok ranked →
    ((ranked.take r.topK).head?.filter fun top => r.threshold ≤ top.score) = none →
    Decides r metrics column
      (.ok { column, tier := .escalated, alternatives := ranked.take r.topK })

theorem decides_verdict (r : Resolver) (metrics : List Props) (column : ObservedColumn) :
    r.Decides metrics column (r.verdict metrics column) := by
  rw [verdict]
  rcases hindex : aliasIndex metrics with e | index
  · exact .unindexed hindex
  dsimp only [bind, Except.bind]
  split
  · exact .autoLinked hindex ‹_›
  rename_i hfound
  split
  · exact .documented hindex hfound ‹_›
  rename_i hdocumented
  replace hdocumented := Bool.not_eq_true _ ▸ hdocumented
  rcases hterms : termIndex metrics with e | terms
  · exact .termless hindex hfound hdocumented hterms
  dsimp only
  rcases hranked : r.suggester column terms with e | ranked
  · exact .unranked hindex hfound hdocumented hterms hranked
  dsimp only
  split
  · exact .suggested hindex hfound hdocumented hterms hranked ‹_›
  · exact .escalated hindex hfound hdocumented hterms hranked ‹_›

/-- What a verdict rests on: the index and, where the index does not have the name and there is no
dictionary, the terms and what the suggester makes of them. -/
theorem verdict_inv {r : Resolver} {metrics : List Props} {column : ObservedColumn}
    (h : r.verdict metrics column = .ok out) :
    ∃ index, aliasIndex metrics = .ok index ∧
      ((index.get? (casefold column.name)).filter (· ≠ .null) = none →
        out.tier ≠ .autoLinked ∧
        (column.hasDictionary = false → ∃ terms ranked, termIndex metrics = .ok terms ∧
          r.suggester column terms = .ok ranked ∧ out.alternatives = ranked.take r.topK)) := by
  have hdecides := r.decides_verdict metrics column
  rw [h] at hdecides
  cases hdecides with
  | autoLinked hindex hfound =>
    refine ⟨_, hindex, fun hnone => ?_⟩
    cases hfound.symm.trans hnone
  | documented hindex hfound hdocumented =>
    refine ⟨_, hindex, fun _ => ⟨nofun, fun hno => ?_⟩⟩
    cases hdocumented.symm.trans hno
  | suggested hindex hfound hdocumented hterms hranked
  | escalated hindex hfound hdocumented hterms hranked =>
    exact ⟨_, hindex, fun _ => ⟨nofun, fun _ => ⟨_, _, hterms, hranked, rfl⟩⟩⟩

/-- The verdict on a column depends on nothing but its folded name, whether it has a dictionary,
and what the suggester makes of it. -/
theorem verdict_congr {r : Resolver} {column column' : ObservedColumn}
    (hname : casefold column'.name = casefold column.name)
    (hdocumented : column'.hasDictionary = column.hasDictionary)
    (hsuggester : r.suggester column' = r.suggester column) (metrics : List Props) :
    r.verdict metrics column' =
      (r.verdict metrics column).map fun out => { out with column := column' } := by
  rw [verdict, verdict, hname, hdocumented, hsuggester]
  rcases aliasIndex metrics with e | index
  · rfl
  dsimp only [bind, Except.bind]
  generalize Option.filter (fun x => decide (x ≠ Value.null)) (index.get? (casefold column.name))
    = found
  rcases found with _ | hit
  swap
  · rfl
  rcases column.hasDictionary with _ | _
  swap
  · rfl
  rcases termIndex metrics with e | terms
  · rfl
  rcases hranked : r.suggester column terms with e | ranked
  · simp only [hranked]
    rfl
  simp only [hranked]
  generalize (ranked.take r.topK).head?.filter (fun top => decide (r.threshold ≤ top.score)) = top
  rcases top with _ | top <;> rfl

/-- The resolution returns the verdict, and enqueues it when it is an escalation. -/
theorem resolve_run (r : Resolver) (column : ObservedColumn)
    (w : ResolverState InMemoryGraphStore) :
    (r.resolve column).run (ResolverState.handler handler) w =
      (r.verdict w.store.metrics column,
        w.receive r.queue (r.verdict w.store.metrics column)) := by
  -- an answer that is no escalation leaves the state as it is
  have hnone {answer : Except PyErr Resolution} (h : escalations answer.toOption.toList = []) :
      (answer, w) = (answer, w.receive r.queue answer) :=
    Prod.ext rfl (ResolverState.receive_of_nil h _).symm
  rw [resolve, Program.run_bind, ResolverState.run_liftStore, metricAliases_run, verdict]
  rcases aliasIndex w.store.metrics with e | index
  · exact hnone rfl
  dsimp only [bind, Except.bind]
  generalize Option.filter (fun x => decide (x ≠ Value.null)) (index.get? (casefold column.name))
    = found
  generalize column.hasDictionary = documented
  rcases found with _ | hit
  swap
  · exact hnone rfl
  by_cases hdocumented : documented = true
  · simp only [if_pos hdocumented]
    exact hnone rfl
  simp only [if_neg hdocumented]
  change ((liftStore GraphClient.metricTerms >>= _ : ResolverProgram Resolution).run _ _) = _
  rw [Program.run_bind, ResolverState.run_liftStore, metricTerms_run]
  rcases termIndex w.store.metrics with e | terms
  · exact hnone rfl
  dsimp only
  rcases r.suggester column terms with e | ranked
  · exact hnone rfl
  dsimp only [Program.ofExcept_ok, Program.bind]
  generalize (ranked.take r.topK).head?.filter (fun top => decide (r.threshold ≤ top.score)) = top
  rcases top with _ | top
  · rfl
  · exact hnone rfl

end Resolver

end MarginKG
