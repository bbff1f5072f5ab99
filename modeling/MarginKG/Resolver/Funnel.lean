import MarginKG.Graph.Client
import MarginKG.Ingestion.IR
import Mathlib.Data.Rat.Defs

/-! The three-tier resolver funnel (`resolver/funnel.py`) over any suggester
(`resolver/suggest.py`).

Besides the store, a resolver reaches one escalation queue. Queues are objects that several
resolvers may share: the state holds all of them, and a resolver holds the number of its own.
Scores are rational numbers. -/

namespace MarginKG

structure Suggestion where
  metricKey : String
  score : ℚ
  deriving DecidableEq

/-- Ranked candidates for a column, from the terms of each metric. -/
abbrev Suggester := ObservedColumn → Dict String (List String) → Except PyErr (List Suggestion)

inductive Tier where
  | autoLinked
  | suggested
  | escalated
  | documented
  deriving DecidableEq

structure Resolution where
  column : ObservedColumn
  tier : Tier
  /-- The auto-linked (tier 1) or top-suggested (tier 2) metric. -/
  metricKey : Option Value := none
  score : ℚ := 0
  alternatives : List Suggestion := []
  deriving DecidableEq

/-- The calls a resolver makes: those of its store, and `EscalationQueue.enqueue`. -/
inductive ResolverCall where
  | store (c : StoreCall)
  | enqueue (queue : Nat) (resolution : Resolution)

@[reducible] def ResolverCall.Reply : ResolverCall → Type
  | .store c => c.Reply
  | .enqueue .. => Unit

abbrev ResolverProgram := Program ResolverCall ResolverCall.Reply PyErr

/-- A program over the store, among those that also reach a queue. -/
def liftStore (p : StoreProgram α) : ResolverProgram α := p.lift .store fun _ => id

/-- A store, and the contents of every escalation queue. -/
structure ResolverState (σ : Type) where
  store : σ
  queues : List (List Resolution) := []
  deriving DecidableEq

namespace ResolverState

variable {σ : Type}

/-- `queue.pending()`. -/
def pending (w : ResolverState σ) (queue : Nat) : List Resolution := w.queues.getD queue []

def handler (h : Handler StoreCall StoreCall.Reply PyErr σ) :
    Handler ResolverCall ResolverCall.Reply PyErr (ResolverState σ)
  | .store c, w => ((h c w.store).1, { w with store := (h c w.store).2 })
  | .enqueue queue resolution, w =>
    (.ok (), { w with queues := w.queues.modify queue (· ++ [resolution]) })

theorem lifting (h : Handler StoreCall StoreCall.Reply PyErr σ) :
    Program.Lifting h (handler h) .store (fun _ => id) store fun s w => { w with store := s } where
  get_put := rfl
  put_put := rfl
  put_get := rfl
  ok hc := ⟨_, by simp only [handler, hc], rfl⟩
  error hc := by simp only [handler, hc]

/-- A program over the store runs as it does there, and the queues stay as they are. -/
theorem run_liftStore (h : Handler StoreCall StoreCall.Reply PyErr σ) (p : StoreProgram α)
    (w : ResolverState σ) :
    (liftStore p).run (handler h) w =
      ((p.run h w.store).1, { w with store := (p.run h w.store).2 }) :=
  Program.run_lift (lifting h) p w

end ResolverState

structure Resolver where
  suggester : Suggester
  threshold : ℚ := 5404319552844595 / 2 ^ 53 -- the float `0.6`
  topK : Nat := 3
  queue : Nat

namespace Resolver

/-- `Resolver.__init__`. A queue is false while it is empty, because it has a `__len__`, so
`queue or EscalationQueue()` replaces an empty queue by a new one. -/
def init {σ : Type} (suggester : Suggester) (threshold : ℚ) (topK : Nat) (queue : Option Nat)
    (w : ResolverState σ) : Resolver × ResolverState σ :=
  match queue.filter fun q => w.pending q ≠ [] with
  | some q => (⟨suggester, threshold, topK, q⟩, w)
  | none => (⟨suggester, threshold, topK, w.queues.length⟩, { w with queues := w.queues ++ [[]] })

variable [Python]

/-- Run one column through the funnel. -/
def resolve (r : Resolver) (column : ObservedColumn) : ResolverProgram Resolution := do
  -- Tier 1: exact match against known pack rules (metric aliases).
  let index ← liftStore GraphClient.metricAliases
  match (index.get? (casefold column.name)).filter (· ≠ .null) with
  | some hit => return { column, tier := .autoLinked, metricKey := some hit, score := 1 }
  | none =>
    -- Tier 0: the source ships a data dictionary for this column.
    if column.hasDictionary then return { column, tier := .documented }
    else
      -- Tier 2: suggest candidates by similarity.
      let terms ← liftStore GraphClient.metricTerms
      let ranked ← Program.ofExcept (r.suggester column terms)
      let suggestions := ranked.take r.topK
      match suggestions.head?.filter fun top => r.threshold ≤ top.score with
      | some top => return {
          column
          tier := .suggested
          metricKey := some (.str top.metricKey)
          score := top.score
          alternatives := suggestions }
      | none =>
        -- Tier 3: escalate for a human to define a new metric.
        let escalated : Resolution := { column, tier := .escalated, alternatives := suggestions }
        Program.call (.enqueue r.queue escalated) fun _ => .ret escalated

/-- A human accepted `metricKey` for `column`: link it and write the mapping back. -/
def confirm (column : ObservedColumn) (metricKey : String) (prov : EdgeProvenance) :
    StoreProgram Unit := do
  GraphClient.linkColumnToMetric column.system column.table column.name (.str metricKey) prov
  GraphClient.addMetricAlias metricKey (casefold column.name)

end Resolver

end MarginKG
