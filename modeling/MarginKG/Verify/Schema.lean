import MarginKG.Graph.Schema
import MarginKG.Verify.Backends
import MarginKG.Verify.Identity
import MarginKG.Verify.Visibility

/-! The core constraints over a database that enforces them (`schema_in_force`): whoever creates
them, and whenever, nothing that the platform does is refused because of them.

Every node is one of the ontology, and no two nodes are the same one (`Neo4jGraphStore.Identified`).
A write that leaves identities alone keeps this, and then each core constraint holds. -/

namespace MarginKG

open PropertyGraph

/-! ## Lookups of several keys -/

theorem eq_of_mapM_eq_some {f g : α → Option β} {l : List α} {vs : List β} (hf : l.mapM f = some vs)
    (hg : l.mapM g = some vs) : ∀ a ∈ l, f a = g a := by
  induction l generalizing vs with
  | nil => exact fun a ha => by cases ha
  | cons a l ih =>
    simp only [List.mapM_cons, Option.bind_eq_bind, Option.bind_eq_some_iff, Option.pure_def,
      Option.some.injEq] at hf hg
    obtain ⟨v, hv, us, hus, rfl⟩ := hf
    obtain ⟨v', hv', us', hus', heq⟩ := hg
    cases heq
    exact List.forall_mem_cons.mpr ⟨hv.trans hv'.symm, ih hus hus'⟩

theorem isSome_mapM {f : α → Option β} {l : List α} (h : ∀ a ∈ l, (f a).isSome) :
    (l.mapM f).isSome := by
  induction l with
  | nil => rfl
  | cons a l ih =>
    obtain ⟨ha, hl⟩ := List.forall_mem_cons.mp h
    obtain ⟨b, hb⟩ := Option.isSome_iff_exists.mp ha
    obtain ⟨bs, hbs⟩ := Option.isSome_iff_exists.mp (ih hl)
    rw [List.mapM_cons, hb, hbs]
    rfl

/-- Two ways to compute the same of each element compute the same of a list. -/
theorem map_mapM_congr {β γ : Type} {f : α → Except ε β} {f' : α → Except ε γ} {g : β → δ}
    {g' : γ → δ} {l : List α} (h : ∀ a ∈ l, g <$> f a = g' <$> f' a) :
    List.map g <$> l.mapM f = List.map g' <$> l.mapM f' := by
  induction l with
  | nil => rfl
  | cons a l ih =>
    obtain ⟨ha, hl⟩ := List.forall_mem_cons.mp h
    have hsplit {γ : Type} {f : α → Except ε γ} {g : γ → δ} :
        List.map g <$> (a :: l).mapM f =
          (g <$> f a) >>= fun d => (d :: ·) <$> (List.map g <$> l.mapM f) := by
      rw [List.mapM_cons]
      rcases f a with e | b
      · rfl
      · rcases l.mapM f with e | bs <;> rfl
    rw [hsplit, hsplit, ha, ih hl]

/-! ## Statements -/

namespace Cypher

variable [Python]

/-- What a statement that creates a constraint says: the name, the label and the properties, and the
kind. -/
def readConstraint (st : Statement) : List String × ConstraintKind :=
  (st.names, if st.getLast? = some (.text ") IS NODE KEY") then .nodeKey else .unique)

theorem checkIdent_eq (h : value.toList.getLast? ≠ some '\n') :
    checkIdent value = MarginKG.checkIdent value := by
  rw [checkIdent, matchIdent, MarginKG.checkIdent]
  simp only [if_neg h, String.ofList_toList]

/-- **The statement of a constraint says what is created** (`Constraint.compile`), or is refused
with it. -/
theorem createConstraint_compile {c : Constraint}
    (h : ∀ p ∈ c.properties, p.toList.getLast? ≠ some '\n') :
    readConstraint <$> createConstraint c =
      (fun d => (d.1 :: d.2.label.value :: d.2.properties, d.2.kind)) <$> c.compile := by
  have hlabel : checkIdent c.label.value = .ok c.label.value := by
    rw [checkIdent_eq (by cases c.label <;> decide), c.label.checkIdent]
  have hprops : List.map id <$>
      (c.properties.mapM fun p => do return [Piece.text "n.", .name (← checkIdent p)]) =
        List.map (fun p => [.text "n.", .name p]) <$> c.properties.mapM MarginKG.checkIdent :=
    map_mapM_congr fun p hp => by
      rw [checkIdent_eq (h p hp)]
      rcases MarginKG.checkIdent p with e | p' <;> rfl
  rw [List.map_id_fun, id_map] at hprops
  rw [createConstraint, Constraint.compile, hlabel, c.label.checkIdent, hprops]
  rcases c.properties.mapM MarginKG.checkIdent with e | properties
  · rfl
  · have hnames : (properties.map fun p => [Piece.text "n.", .name p]).flatMap Statement.names =
        properties := by
      rw [List.flatMap_map]
      exact List.flatMap_singleton' properties
    refine congrArg Except.ok (Prod.ext ?_ ?_)
    · simp [readConstraint, Statement.names_intercalate, hnames]
    · have hlast (st : Statement) (clause : String) :
          (readConstraint (st ++ [.text clause])).2 =
            if clause = ") IS NODE KEY" then .nodeKey else .unique := by
        rw [readConstraint, List.getLast?_concat]
        simp
      refine (hlast _ _).trans ?_
      cases c.kind <;> rfl

/-- So do the statements of some constraints. -/
theorem ensureConstraints_compile {constraints : List Constraint}
    (h : ∀ c ∈ constraints, ∀ p ∈ c.properties, p.toList.getLast? ≠ some '\n') :
    List.map readConstraint <$> ensureConstraints constraints =
      List.map (fun d => (d.1 :: d.2.label.value :: d.2.properties, d.2.kind)) <$>
        constraints.mapM Constraint.compile :=
  map_mapM_congr fun c hc => createConstraint_compile (h c hc)

end Cypher

/-! ## The constraints hold -/

/-- Each core constraint is on the identity of its label. -/
theorem properties_of_core : ∀ c ∈ coreConstraints, c.properties = c.label.identity := by decide

namespace Neo4jGraphStore

/-- Every node is one of the ontology, no node is two of them, and no two nodes are the same one. -/
structure Identified (pg : Neo4jGraph) : Prop where
  oneBaseLabel : ∀ a ∈ pg.nodes, OneBaseLabel a
  named : ∀ a ∈ pg.nodes, ∃ n : NodeRef, n.fits a = true
  apart : pg.nodes.Pairwise fun a b => ∀ n : NodeRef, n.fits a = true → n.fits b = false

namespace Identified

variable {pg : Neo4jGraph}

theorem empty : Identified ∅ where
  oneBaseLabel _ h := by cases h
  named _ h := by cases h
  apart := .nil

/-- A node with the label of a constraint is a node of the ontology with this label. -/
theorem exists_fits (h : Identified pg) {L : CoreLabel} (ha : a ∈ pg.nodes)
    (hL : L.value ∈ a.labels) : ∃ n : NodeRef, n.label = L ∧ n.fits a = true := by
  obtain ⟨n, hn⟩ := h.named a ha
  exact ⟨n, h.oneBaseLabel a ha _ _ (Node.fits_iff.mp hn).1 hL, hn⟩

/-- **The core constraints hold** in a graph of the ontology. -/
theorem holds (h : Identified pg) : ∀ c ∈ coreConstraints, c.Holds pg := by
  intro c hc
  have hprops := properties_of_core c hc
  have hnodes (a : Node String String Value) (ha : a ∈ c.nodes pg) :
      a ∈ pg.nodes ∧ c.label.value ∈ a.labels := by
    simpa [Constraint.nodes] using ha
  constructor
  · refine List.pairwise_filterMap.mpr ((h.apart.filter _).imp_of_mem ?_)
    intro a b ha hb hab vs hvs vs' hvs' heq
    subst heq
    obtain ⟨hamem, halabel⟩ := hnodes a ha
    obtain ⟨hbmem, hblabel⟩ := hnodes b hb
    obtain ⟨n, hlabel, hn⟩ := h.exists_fits hamem halabel
    refine absurd (hab n hn) (Bool.not_eq_false _ ▸ Node.fits_iff.mpr ⟨hlabel ▸ hblabel, ?_⟩)
    refine fits_iff.mpr fun f v hv => ?_
    have hf : f ∈ n.label.identity := n.keys_key ▸ Dict.mem_keys.mpr ⟨v, hv⟩
    rw [← eq_of_mapM_eq_some hvs hvs' f (hprops ▸ hlabel ▸ hf)]
    exact fits_iff.mp (Node.fits_iff.mp hn).2 f v hv
  · intro _ a ha
    obtain ⟨hamem, halabel⟩ := hnodes a ha
    obtain ⟨n, hlabel, hn⟩ := h.exists_fits hamem halabel
    refine isSome_mapM fun f hf => ?_
    obtain ⟨v, -, hv⟩ := get?_of_fits hn (hlabel ▸ hprops ▸ hf)
    exact Option.isSome_iff_exists.mpr ⟨v, hv⟩

/-- Merging a node keeps the graph, when it changes no identity. -/
theorem mergeNode (h : Identified pg) (hkeeps : KeepsIdentity n setProps names) :
    Identified (pg.mergeNode n.label.value n.key fun a =>
      ⟨a.labels ∪ names.toFinset, a.props.update setProps⟩) := by
  have hfits {a : Node String String Value} (ha : a ∈ pg.nodes) (hn : n.fits a = true)
      (m : NodeRef) : m.fits ⟨a.labels ∪ names.toFinset, a.props.update setProps⟩ = m.fits a :=
    hkeeps.fits (h.oneBaseLabel a ha) hn m
  have hnew (m : NodeRef) : m.fits ⟨{n.label.value} ∪ names.toFinset, n.key.update setProps⟩ =
      m.fits ⟨{n.label.value}, n.key⟩ := hkeeps.fits (oneBaseLabel_new n) (fits_new n) m
  refine ⟨(grows_mergeNode h.oneBaseLabel hkeeps ⟨"", "", ""⟩).oneBaseLabel h.oneBaseLabel, ?_, ?_⟩
  · rw [nodes_mergeNode]
    refine forall_mergeWhere h.named (fun a ha hn _ => ⟨n, ?_⟩) ⟨n, ?_⟩
    · exact (hfits ha hn n).trans hn
    · exact (hnew n).trans (fits_new n)
  · rw [nodes_mergeNode]
    refine pairwise_mergeWhere h.apart (fun m a ha hn => hfits ha hn m) fun m hm a ha hn => ?_
    rw [hnew m] at hm
    rw [eq_of_fits_new hm]
    exact hn

/-- A write that leaves identities alone keeps the graph. -/
theorem write [Python] [RowOrder] (h : Identified pg) {w : Write} (hw : w.KeepsIdentity)
    (hlabels : ∀ n setProps extraLabels, w = .node n setProps extraLabels →
      ∀ label ∈ extraLabels, ∀ L : CoreLabel, checkIdent label = .ok L.value → L = n.label) :
    Identified (handler w.call pg).2 := by
  cases w with
  | link l prov =>
    rw [handler_link]
    split <;> exact ⟨h.oneBaseLabel, h.named, h.apart⟩
  | node n setProps extraLabels =>
    rw [handler_node]
    split
    · rename_i names hnames
      refine h.mergeNode ⟨hw, fun L hL => ?_⟩
      obtain ⟨label, hlabel, hcheck⟩ := exists_mem_of_forall₂ (Program.mapM_eq_ok.mp hnames) hL
      exact hlabels n setProps extraLabels rfl label hlabel L hcheck
    · exact h

end Identified

end Neo4jGraphStore

/-! ## What the operations write -/

section operations
variable [Python]

/-- The write names its node as it is named, and gives it no other base label. -/
structure Write.KeepsNode (w : Write) : Prop where
  identity : w.KeepsIdentity
  label : ∀ n setProps extraLabels, w = .node n setProps extraLabels →
    ∀ label ∈ extraLabels, ∀ L : CoreLabel, checkIdent label = .ok L.value → L = n.label

/-- The allow-list has no base label, but that of an entity. -/
def GraphClient.CoreFree (c : GraphClient) : Prop :=
  ∀ label ∈ c.entitySubtypes, ∀ L : CoreLabel, checkIdent label = .ok L.value → L = .entity

omit [Python] in
theorem subtype_of_entityWrite {c : GraphClient} {subtypeLabel : Option String}
    (hsub : ∀ label ∈ subtypeLabel, label ∈ c.entitySubtypes)
    (h : Write.node n setProps extraLabels = entityWrite uid subtypeLabel attributes) :
    ∀ label ∈ extraLabels, n.label = .entity ∧ label ∈ c.entitySubtypes := by
  cases h
  intro label hlabel
  cases subtypeLabel with
  | none => cases hlabel
  | some sub =>
    dsimp only at hlabel
    split at hlabel
    · cases hlabel
    · cases List.mem_singleton.mp hlabel
      exact ⟨rfl, hsub _ rfl⟩

omit [Python] in
theorem ParsedBundle.Writes.subtype {c : GraphClient} {b : ParsedBundle}
    (h : b.Writes c (.node n setProps extraLabels)) :
    ∀ label ∈ extraLabels, n.label = .entity ∧ label ∈ c.entitySubtypes := by
  generalize hnode : Write.node n setProps extraLabels = w at h
  cases h with
  | document | column => cases hnode; exact fun _ h => by cases h
  | entity =>
    refine subtype_of_entityWrite (fun label hlabel => ?_) hnode
    simpa using List.find?_some hlabel
  | describes | defines | relation | measures | appliesTo => cases hnode

/-- A subtype is written on an entity, and is on the allow-list. -/
theorem Op.Writes.subtype {s : System} {op : Op} (h : op.Writes s (.node n setProps extraLabels)) :
    ∀ label ∈ extraLabels, n.label = .entity ∧ label ∈ s.client.entitySubtypes := by
  generalize hnode : Write.node n setProps extraLabels = w at h
  have hnil (heq : extraLabels = []) :
      ∀ label ∈ extraLabels, n.label = .entity ∧ label ∈ s.client.entitySubtypes := by
    rw [heq]
    exact fun _ h => by cases h
  cases h with
  | @client _ call h =>
    cases h with
    | newAlias => cases hnode; exact hnil rfl
    | write h =>
      cases call with
      | registerAllowlists | addMetricAlias => cases h
      | upsertEntity uid subtypeLabel attributes =>
        simp only [ClientCall.write, Option.ite_none_right_eq_some, Option.some.injEq] at h
        exact subtype_of_entityWrite h.1 (hnode.trans h.2.symm)
      | relateEntities =>
        simp only [ClientCall.write, Option.ite_none_right_eq_some, Option.some.injEq] at h
        cases hnode.trans h.2.symm
      | upsertMetric | upsertColumn | upsertDocument | upsertBenchmark | upsertParty =>
        cases h
        cases hnode
        exact hnil rfl
      | _ => cases h; cases hnode
  | loadPack _ h => cases h <;> · cases hnode; exact hnil rfl
  | loadBundle h => cases hnode; exact h.subtype
  | link => cases hnode
  | newAlias => cases hnode; exact hnil rfl
  | runIngest _ h => cases hnode; exact h.subtype

theorem Op.Writes.keepsNode {s : System} {op : Op} (h : op.Writes s w) (hop : op.KeepsIdentity s)
    (hfree : s.client.CoreFree) : w.KeepsNode := by
  refine ⟨hop.write h, fun n setProps extraLabels hw label hlabel L hL => ?_⟩
  subst hw
  obtain ⟨hn, hallowed⟩ := h.subtype label hlabel
  exact (hfree label hallowed L hL).trans hn.symm

/-! ## Calls -/

/-- A call of an operation that keeps its nodes, or one that creates a core constraint. -/
inductive Routine : DatabaseCall → Prop
  | ingest {c : IngestCall} : c.OnStore (Makes Write.KeepsNode) → Routine (.ingest c)
  | create : c ∈ coreConstraints → Routine (.create c.name c)

/-- The graph is one of the ontology, and only core constraints are in force. -/
structure Database.Ready (db : Database) : Prop where
  identified : Neo4jGraphStore.Identified db.graph
  core : ∀ name c, db.constraints.get? name = some c → c ∈ coreConstraints ∧ name = c.name

/-- The state without its constraints. -/
def IngestState.plain (w : IngestState Database) : IngestState Neo4jGraph :=
  ⟨⟨w.world.store.graph, w.world.queues⟩, w.ledger⟩

namespace Database.Ready

variable {db : Database}

omit [Python] in
theorem mem_values (h : db.Ready) (hd : d ∈ db.constraints.values) : d ∈ coreConstraints := by
  obtain ⟨e, he, rfl⟩ := List.mem_map.mp hd
  exact (h.core e.1 e.2 (Dict.mem_items.mp he)).1

/-- The database answers a call as it does without constraints. -/
theorem store [RowOrder] (h : db.Ready) (hc : Makes Write.KeepsNode c) (refused : PyErr) :
    Database.handler refused c db = ((Neo4jGraphStore.handler c db.graph).1,
      { db with graph := (Neo4jGraphStore.handler c db.graph).2 }) ∧
      Neo4jGraphStore.Identified (Neo4jGraphStore.handler c db.graph).2 := by
  have hnext : Neo4jGraphStore.Identified (Neo4jGraphStore.handler c db.graph).2 := by
    cases hc with
    | write hw => exact h.identified.write hw.identity hw.label
    | metrics | metric => exact h.identified
  refine ⟨?_, hnext⟩
  rw [Database.handler]
  exact if_pos fun d hd => hnext.holds d (h.mem_values hd)

theorem ingest [RowOrder] {w : IngestState Database} (h : w.world.store.Ready)
    (hc : c.OnStore (Makes Write.KeepsNode)) (source : Source) (refused : PyErr) :
    (DatabaseCall.handler source refused (.ingest c) w).1 =
        (IngestState.handler source Neo4jGraphStore.handler c w.plain).1 ∧
      (DatabaseCall.handler source refused (.ingest c) w).2.world.store.Ready ∧
      (DatabaseCall.handler source refused (.ingest c) w).2.world.store.constraints =
        w.world.store.constraints := by
  cases c with
  | hasSeen | markDone | fetch => exact ⟨rfl, h, rfl⟩
  | resolver c =>
    cases c with
    | enqueue => exact ⟨rfl, h, rfl⟩
    | store call =>
      obtain ⟨hanswer, hnext⟩ := h.store (hc call rfl) refused
      simp only [DatabaseCall.handler, IngestState.handler, ResolverState.handler, hanswer]
      exact ⟨rfl, ⟨hnext, h.core⟩, trivial⟩

omit [Python] in
/-- A core constraint is created, or is there already. -/
theorem create (h : db.Ready) (hc : c ∈ coreConstraints) (refused : PyErr) :
    (Database.create refused c.name c db).1 = .ok () ∧
      (Database.create refused c.name c db).2.Ready ∧
      (Database.create refused c.name c db).2.constraints.get? c.name = some c ∧
      ∀ name d, db.constraints.get? name = some d →
        (Database.create refused c.name c db).2.constraints.get? name = some d := by
  have hname : ∀ c ∈ coreConstraints, ∀ d ∈ coreConstraints, c.name = d.name → c = d := by
    decide +kernel
  have hprops : ∀ c ∈ coreConstraints, ∀ d ∈ coreConstraints, d.label = c.label → d = c := by
    decide
  rw [Database.create]
  split
  · rename_i hthere
    refine ⟨rfl, h, ?_, fun _ _ => id⟩
    rcases hthere with hkey | hvalue
    · obtain ⟨d, hd⟩ := Dict.mem_keys.mp hkey
      obtain ⟨hcore, hname'⟩ := h.core _ d hd
      rw [hd, hname c hc d hcore hname']
    · obtain ⟨e, he, rfl⟩ := List.mem_map.mp hvalue
      have hget := Dict.mem_items.mp he
      rw [← (h.core e.1 e.2 hget).2]
      exact hget
  · rename_i hnew
    rw [not_or] at hnew
    rw [if_neg]
    · refine ⟨rfl, ⟨h.identified, fun name d hd => ?_⟩, Dict.get?_set_self .., fun name d hd => ?_⟩
      · rw [Dict.get?_set] at hd
        split at hd
        · rename_i heq
          cases hd
          exact ⟨hc, heq.symm⟩
        · exact h.core name d hd
      · have hne : c.name ≠ name := fun heq => hnew.1 (Dict.mem_keys.mpr ⟨d, heq ▸ hd⟩)
        exact (Dict.get?_set_of_ne hne).trans hd
    · rintro (⟨d, hd, hlabel, -⟩ | hbroken)
      · exact hnew.2 (hprops c hc d (h.mem_values hd) hlabel ▸ hd)
      · exact hbroken (h.identified.holds c hc)

end Database.Ready

/-! ## Runs -/

/-- What one of the callers of the platform does. -/
inductive Caller where
  | schema
  | operation (client : GraphClient) (op : Op)

namespace Caller

def program : Caller → DatabaseProgram (Option Op.Result)
  | .schema => do
    initSchema
    return none
  | .operation client op => do
    let result ← liftIngest (op.program client)
    return some result

/-- The operation of the caller keeps its nodes. -/
def KeepsNodes : Caller → Prop
  | .schema => True
  | .operation client op => op.KeepsIdentity { System.initial with client } ∧ client.CoreFree

/-- The statements of `init_schema`. -/
theorem initSchema_eq : initSchema = coreConstraints.forM fun c =>
    (.call (.create c.name c) .ret : DatabaseProgram Unit) := by
  have hident : ∀ c ∈ coreConstraints, ∀ p ∈ c.properties, isIdent p.toList := by decide
  have hcompile : coreConstraints.mapM Constraint.compile =
      .ok (coreConstraints.map fun c => (c.name, c)) := by
    refine Program.mapM_eq_ok.mpr (List.forall₂_map_right_iff.mpr (List.forall₂_same.mpr ?_))
    intro c hc
    rw [Constraint.compile, c.label.checkIdent, mapM_checkIdent (hident c hc)]
    rfl
  rw [initSchema, ensureConstraints, hcompile]
  rfl

theorem program_uses {x : Caller} (hx : x.KeepsNodes) : x.program.Uses Routine := by
  cases x with
  | schema =>
    rw [program, initSchema_eq]
    exact .bind (.forM fun c hc => ⟨.create hc, fun _ => trivial⟩) fun _ => .ret _
  | operation client op =>
    obtain ⟨hkeeps, hfree⟩ := hx
    have huses := Op.program_uses { System.initial with client } op
    refine .bind (huses.lift fun c hc => .ingest fun call hcall => ?_) fun _ => .ret _
    exact (hc call hcall).mono fun w hw => hw.keepsNode hkeeps hfree

theorem program_passes (hc : c ∈ coreConstraints) :
    Caller.schema.program.Passes (.create c.name c) := by
  rw [program, initSchema_eq]
  exact .bind_left (.forM hc (.perform _ _)) _

end Caller

section runs
variable [RowOrder] {source : Source} {refused : PyErr} {w w' : IngestState Database}

/-- The constraints that have been created are in force. -/
structure InForce (calls : List (Nat × DatabaseCall)) (db : Database) : Prop extends db.Ready where
  created : ∀ i name c, (i, .create name c) ∈ calls → db.constraints.get? name = some c

theorem InForce.step (h : InForce calls w.world.store) (hc : Routine c)
    (hnext : DatabaseCall.handler source refused c w = (x, w')) :
    InForce (calls ++ [(i, c)]) w'.world.store := by
  cases hc with
  | ingest hc =>
    obtain ⟨-, hready, hsame⟩ := h.ingest hc source refused
    rw [hnext] at hready hsame
    refine ⟨hready, fun j name d hmem => ?_⟩
    rw [hsame]
    exact h.created j name d (by simpa using hmem)
  | create hc =>
    obtain ⟨-, hready, hnew, hkeep⟩ := h.create hc refused
    obtain ⟨-, rfl⟩ := Prod.ext_iff.mp hnext
    refine ⟨hready, fun j name d hmem => ?_⟩
    rcases List.mem_append.mp hmem with hmem | hmem
    · exact hkeep name d (h.created j name d hmem)
    · cases List.mem_singleton.mp hmem
      exact hnew

/-- **Nothing is refused because of the core constraints**, however the callers interleave: the
graph meets all of them at any time, those that a call of `init_schema` has created are in force
once it returns, and each next call is answered as it is without constraints. -/
theorem schema_in_force {callers : List Caller} (hcallers : ∀ x ∈ callers, x.KeepsNodes)
    (hw : w.world.store.Ready)
    (H : Program.Pool (DatabaseCall.handler source refused) (callers.map Caller.program) w l qs
      w') :
    (∀ c ∈ coreConstraints, c.Holds w'.world.store.graph) ∧
      (∀ (i : Nat) result, callers[i]? = some .schema → qs[i]? = some (.ret result) →
        ∀ c ∈ coreConstraints, w'.world.store.constraints.get? c.name = some c) ∧
      (∀ (i : Nat) c k, qs[i]? = some (.call (.ingest c) k) →
        (DatabaseCall.handler source refused (.ingest c) w').1 =
          (IngestState.handler source Neo4jGraphStore.handler c w'.plain).1) ∧
      ∀ (i : Nat) name c k, qs[i]? = some (.call (.create name c) k) →
        (DatabaseCall.handler source refused (.create name c) w').1 = .ok () := by
  have huses : ∀ p ∈ callers.map Caller.program, p.Uses Routine := by
    intro p hp
    obtain ⟨x, hx, rfl⟩ := List.mem_map.mp hp
    exact x.program_uses (hcallers x hx)
  have hstart : (∀ p ∈ callers.map Caller.program, p.Uses Routine) ∧
      InForce [] w.world.store := ⟨huses, hw, fun _ _ _ h => by cases h⟩
  obtain ⟨hrest, hforce⟩ := H.keeps (J := fun calls ps w => (∀ p ∈ ps, p.Uses Routine) ∧
    InForce calls w.world.store) (fun {calls ps s s' i c k r} hi hc hJ => by
      obtain ⟨hroutine, hcall, -⟩ := Program.Pool.uses_set hJ.1 hi
      exact ⟨hcall r, hJ.2.step hroutine hc⟩) (fun {calls ps s s' i c k e} hi hc hJ => by
      obtain ⟨hroutine, -, hraise⟩ := Program.Pool.uses_set hJ.1 hi
      exact ⟨hraise e, hJ.2.step hroutine hc⟩) hstart
  have hnext {i : Nat} {c k} (hi : qs[i]? = some (.call c k)) : Routine c :=
    (hrest _ (List.mem_of_getElem? hi)).1
  refine ⟨hforce.identified.holds, fun i result hi hq c hc => ?_, fun i c k hi => ?_,
    fun i name c k hi => ?_⟩
  · have hp : (callers.map Caller.program)[i]? = some Caller.schema.program := by
      rw [List.getElem?_map, hi]
      rfl
    exact hforce.created i _ c (H.passes hp (Caller.program_passes hc) hq)
  · rcases hnext hi with hc | -
    exact (hforce.ingest hc source refused).1
  · rcases hnext hi with - | hc
    exact (hforce.create hc refused).1

end runs

end operations

/-- A party is written between the statements of `init_schema`. -/
theorem schema_in_force_party :
    let write : Write := .node (.party "p1") ∅ []
    let db : Database :=
      ⟨.ofList (coreConstraints.map fun c => (c.name, c)), (Neo4jGraphStore.handler write.call ∅).2⟩
    (∀ c ∈ coreConstraints, c.Holds db.graph) ∧
      ∀ c ∈ coreConstraints, db.constraints.get? c.name = some c := by
  intro write db
  let source : Source := ⟨[], fun _ => .error .typeError, fun _ => .error .typeError⟩
  have hpool : Program.Pool (DatabaseCall.handler source .typeError)
      ([.schema, .operation ∅ (.client (.upsertParty "p1" ∅))].map Caller.program)
      ⟨⟨⟨∅, ∅⟩, []⟩, ∅⟩ _ [.ret none, .ret (some .done)] ⟨⟨db, []⟩, ∅⟩ :=
    .call (i := 0) rfl rfl <| .call (i := 0) rfl rfl <| .call (i := 1) rfl rfl <|
      .call (i := 0) rfl rfl <| .call (i := 0) rfl rfl <| .call (i := 0) rfl rfl <|
      .call (i := 0) rfl rfl .refl
  have hcallers : ∀ x ∈ [.schema, .operation ∅ (.client (.upsertParty "p1" ∅))],
      Caller.KeepsNodes x := by
    simp only [List.forall_mem_cons]
    have hkeeps : KeepsIdentity (.party "p1") ∅ := by decide
    exact ⟨trivial, ⟨hkeeps, fun _ h => by cases h⟩, fun _ h => by cases h⟩
  have hstart : (⟨∅, ∅⟩ : Database).Ready := ⟨.empty, fun _ _ h => by cases h⟩
  obtain ⟨hholds, hforce, -⟩ := schema_in_force hcallers hstart hpool
  exact ⟨hholds, hforce 0 none rfl rfl⟩

end MarginKG
