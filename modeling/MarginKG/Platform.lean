import MarginKG.Graph.Neo4j
import MarginKG.System

/-! The operations of the platform as programs, over any store.

`System` fixes the in-memory store and runs one operation after another. Here an operation is one
program over the calls of an ingestion (`Op.program`), so that it can be run over any store
(`Op.perform`) or next to others (`Program.Pool`). Over the in-memory store `Op.perform` is
`Op.exec` (`Op.exec_eq_perform`). -/

namespace MarginKG

variable [Python]

/-- The two stores behind `GraphStore`. -/
inductive Backend where
  | inMemory
  | neo4j
  deriving DecidableEq

namespace Backend

@[reducible] def Store : Backend → Type
  | inMemory => InMemoryGraphStore
  | neo4j => Neo4jGraph

def handler [RowOrder] : (kind : Backend) → Handler StoreCall StoreCall.Reply PyErr kind.Store
  | inMemory => InMemoryGraphStore.handler
  | neo4j => Neo4jGraphStore.handler

end Backend

/-- What an operation returns. -/
inductive Op.Result where
  | done
  | resolutions (resolutions : List Resolution)
  | report (report : IngestReport)
  deriving DecidableEq

namespace Op

/-- The client after the operation, whether or not it raises. -/
def clientAfter (c : GraphClient) : Op → GraphClient
  | .client call => call.client c
  | .loadPack pack => (MarginKG.loadPack c pack).1
  | _ => c

/-- What the operation does, when `c` is the client. -/
def program (c : GraphClient) : Op → IngestProgram Op.Result
  | .client call => do
    liftResolver (liftStore (call.program c))
    return .done
  | .loadPack pack => do
    liftResolver (liftStore (MarginKG.loadPack c pack).2)
    return .done
  | .loadBundle resolver bundle => do
    let resolutions ← liftResolver (MarginKG.loadBundle c resolver bundle)
    return .resolutions resolutions
  | .resolve resolver column => do
    let resolution ← liftResolver (resolver.resolve column)
    return .resolutions [resolution]
  | .confirm column metricKey prov => do
    liftResolver (liftStore (Resolver.confirm column metricKey prov))
    return .done
  | .runIngest source resolver _ => do
    let report ← MarginKG.runIngest source c resolver
    return .report report

/-- The source that the operation asks. Only `run_ingest` asks one. -/
def asked : Op → Source
  | .runIngest source _ _ => source
  | _ => ⟨[], fun item => .error (.keyError item.itemId), fun a => .error (.keyError a.itemId)⟩

/-- The ledger that the operation starts with. -/
def ledger (kept : Finset (String × String)) : Op → Finset (String × String)
  | .runIngest _ _ fresh => if fresh then ∅ else kept
  | _ => kept

end Op

/-- A client, and the state it works on, over a store of any kind. -/
structure Platform (σ : Type) where
  client : GraphClient
  state : IngestState σ

namespace Platform

variable {σ : Type}

abbrev store (s : Platform σ) : σ := s.state.world.store

/-- A new client over a store, and the empty queues of so many resolvers. -/
def new (store : σ) (queues : Nat) : Platform σ :=
  ⟨∅, ⟨⟨store, .replicate queues []⟩, ∅⟩⟩

/-- The state in which the operation starts. -/
def start (s : Platform σ) (op : Op) : IngestState σ :=
  { s.state with ledger := op.ledger s.state.ledger }

end Platform

section perform
variable {σ : Type} (h : Handler StoreCall StoreCall.Reply PyErr σ)

/-- How an operation ends, and the state that it leaves. -/
def Op.perform (s : Platform σ) (op : Op) : Except PyErr Op.Result × Platform σ :=
  let (result, state) := (op.program s.client).run (IngestState.handler op.asked h) (s.start op)
  (result, ⟨op.clientAfter s.client, state⟩)

/-- How the operations of a sequence end, and the state that they leave. An exception ends its
operation alone. -/
def Platform.session (s : Platform σ) : List Op → List (Except PyErr Op.Result) × Platform σ
  | [] => ([], s)
  | op :: ops =>
    let (result, s) := op.perform h s
    let (results, s) := session s ops
    (result :: results, s)

end perform

/-- A system is a platform over the in-memory store. -/
def System.platform (s : System) : Platform InMemoryGraphStore := ⟨s.client, s.state⟩

omit [Python] in
/-- A program of a resolver is run as `System` runs it. -/
theorem System.runResolver_eq (s : System) (source : Source) (p : ResolverProgram α)
    (f : α → Op.Result) : ((liftResolver p >>= fun a => .ret (f a)).run
      (IngestState.handler source InMemoryGraphStore.handler) s.state) =
        ((s.runResolver p).1.map f, (s.runResolver p).2.state) := by
  rw [Program.run_bind, IngestState.run_liftResolver, System.runResolver]
  rcases p.run (ResolverState.handler InMemoryGraphStore.handler) s.state.world with ⟨e | a, w⟩ <;>
    rfl

omit [Python] in
/-- A program over the store is run as `System` runs it. -/
theorem System.runStore_eq (s : System) (source : Source) (p : StoreProgram α)
    (f : α → Op.Result) : ((liftResolver (liftStore p) >>= fun a => .ret (f a)).run
      (IngestState.handler source InMemoryGraphStore.handler) s.state) =
        ((s.runStore p).1.map f, (s.runStore p).2.state) := by
  rw [System.runResolver_eq, System.runResolver, ResolverState.run_liftStore, System.runStore]
  rfl

/-- Over the in-memory store an operation does what `Op.exec` says. -/
theorem Op.exec_eq_perform (s : System) (op : Op) :
    (op.exec s).1 = (op.perform InMemoryGraphStore.handler s.platform).1.map (fun _ => ()) ∧
      (op.exec s).2.platform = (op.perform InMemoryGraphStore.handler s.platform).2 := by
  rw [perform, Platform.start]
  cases op with
  | client call =>
    simp only [program, Program.pure_eq, ledger, System.platform]
    rw [System.runStore_eq s, exec]
    simp only [System.runStore]
    rcases (call.program s.client).run InMemoryGraphStore.handler s.graph with ⟨e | a, g⟩ <;>
      exact ⟨rfl, rfl⟩
  | loadPack pack =>
    simp only [program, Program.pure_eq, ledger, System.platform]
    rw [System.runStore_eq s, exec]
    simp only [System.runStore]
    rcases (MarginKG.loadPack s.client pack).2.run InMemoryGraphStore.handler s.graph
      with ⟨e | a, g⟩ <;> exact ⟨rfl, rfl⟩
  | loadBundle r b =>
    simp only [program, Program.pure_eq, ledger, System.platform]
    rw [System.runResolver_eq s, exec]
    simp only [System.runResolver]
    rcases (MarginKG.loadBundle s.client r b).run (ResolverState.handler InMemoryGraphStore.handler)
      s.state.world with ⟨e | a, w⟩ <;> exact ⟨rfl, rfl⟩
  | resolve r col =>
    simp only [program, Program.pure_eq, ledger, System.platform]
    rw [System.runResolver_eq s, exec]
    simp only [System.runResolver]
    rcases (r.resolve col).run (ResolverState.handler InMemoryGraphStore.handler) s.state.world
      with ⟨e | a, w⟩ <;> exact ⟨rfl, rfl⟩
  | confirm col metricKey prov =>
    simp only [program, Program.pure_eq, ledger, System.platform]
    rw [System.runStore_eq s, exec]
    simp only [System.runStore]
    rcases (Resolver.confirm col metricKey prov).run InMemoryGraphStore.handler s.graph
      with ⟨e | a, g⟩ <;> exact ⟨rfl, rfl⟩
  | runIngest src r fresh =>
    simp only [program, asked, Program.pure_eq, ledger, System.platform]
    rw [Program.run_bind, exec]
    dsimp only
    rcases (MarginKG.runIngest src s.client r).run
      (IngestState.handler src InMemoryGraphStore.handler)
      { s.state with ledger := if fresh then ∅ else s.state.ledger } with ⟨e | a, w⟩ <;>
      exact ⟨rfl, rfl⟩

end MarginKG
