import MarginKG.Verify.Writes

/-! The spine keeps its meaning: every stored edge is a link of the ontology, carries the
provenance it was last written with, and when its type is one of the core types it joins the
labels that the ontology fixes for the type.

`relate_entities` accepts every type that a pack allow-lists, and nothing keeps a pack from
listing a core type. The results are about the runs in which no entities are related by such a
type (`Op.SpineKept`); `spine_broken` is a run outside of them. A bundle is not checked before it
is written, so these runs also load no bundle that is refused half-way. -/

namespace MarginKG

/-- The label at the start of a core type. -/
def RelType.source : RelType → CoreLabel
  | measures => .column
  | appliesTo | definedIn | benchmarkedAgainst | computedFrom => .metric
  | describes => .document
  | hasRole => .party
  | relatedTo => .entity

/-- The label at the end of a core type. -/
def RelType.target : RelType → CoreLabel
  | measures | computedFrom => .metric
  | appliesTo | describes | hasRole | relatedTo => .entity
  | definedIn => .document
  | benchmarkedAgainst => .benchmark

/-- The type is one of the core types, and not the one that relates entities. -/
def OtherCoreType (relType : String) : Prop :=
  relType ∈ [RelType.measures, .appliesTo, .definedIn, .benchmarkedAgainst, .computedFrom,
    .describes, .hasRole].map RelType.value

instance (relType : String) : Decidable (OtherCoreType relType) :=
  inferInstanceAs (Decidable (_ ∈ _))

theorem otherCoreType_value {t : RelType} : OtherCoreType t.value ↔ t ≠ .relatedTo := by
  cases t <;> decide

/-- The link has the type RELATED_TO, another core type with its endpoints, or a type of
`types` that is not a core one. -/
def Link.OnSpine (types : Finset String) : Link → Prop
  | related relType .. =>
    relType = RelType.relatedTo.value ∨ relType ∈ types ∧ ¬ OtherCoreType relType
  | _ => True

theorem Link.OnSpine.mono {l : Link} (h : l.OnSpine types) (hsub : types ⊆ types') :
    l.OnSpine types' := by
  cases l with
  | related => exact h.imp id fun h => ⟨hsub h.1, h.2⟩
  | _ => trivial

/-- The type of the link is a core one or in `types`. -/
theorem Link.OnSpine.type {l : Link} (h : l.OnSpine types) :
    (∃ t : RelType, l.relType = t.value) ∨ l.relType ∈ types := by
  cases l with
  | related => exact h.imp (fun h => ⟨_, h⟩) And.left
  | _ => simp [relType]

/-- A link of a core type has its endpoints. -/
theorem Link.OnSpine.ends {l : Link} (h : l.OnSpine types) {t : RelType}
    (ht : l.relType = t.value) : l.source.label = t.source ∧ l.target.label = t.target := by
  cases l with
  | related relType =>
    have ht : relType = t.value := ht
    have : t = .relatedTo := by
      rcases h with h | ⟨-, h⟩
      · exact RelType.value_inj.mp (ht.symm.trans h)
      · exact by_contra fun hne => h (ht ▸ otherCoreType_value.mpr hne)
    subst this
    exact ⟨rfl, rfl⟩
  | _ =>
    simp only [relType, RelType.value_inj] at ht
    subst ht
    exact ⟨rfl, rfl⟩

/-! ## The invariant -/

/-- The properties of an edge are the provenance `prov`, beside those that identify it. -/
def CarriesProvenance (e : Props) (prov : EdgeProvenance) : Prop :=
  e.get? "source_ref" = some (.str prov.sourceRef) ∧ e.get? "as_of" = some (.str prov.asOf) ∧
    e.get? "created_by" = some (.str prov.createdBy)

theorem carriesProvenance_update (e : Props) (prov : EdgeProvenance) :
    CarriesProvenance (e.update prov.setProps) prov :=
  ⟨Dict.get?_update .., Dict.get?_update .., Dict.get?_update ..⟩

/-- Among the recorded calls, the last one that made the link gave it the provenance `prov`. -/
def LastLink (log : List StoreCall) (l : Link) (prov : EdgeProvenance) : Prop :=
  ∃ pre post, log = pre ++ l.call prov :: post ∧ ∀ prov', l.call prov' ∉ post

theorem LastLink.of_last (log : List StoreCall) (l : Link) (prov : EdgeProvenance) :
    LastLink (log ++ [l.call prov]) l prov := ⟨log, [], by simp, by simp⟩

theorem LastLink.concat {c : StoreCall} (h : LastLink log l prov) (hc : ∀ prov', l.call prov' ≠ c) :
    LastLink (log ++ [c]) l prov := by
  obtain ⟨pre, post, rfl, hpost⟩ := h
  refine ⟨pre, post ++ [c], by simp, fun prov' hmem => ?_⟩
  rcases List.mem_append.mp hmem with hmem | hmem
  · exact hpost prov' hmem
  · exact hc prov' (List.mem_singleton.mp hmem)

/-- Every stored edge is a link on the spine, with its last provenance. -/
def Spined (types : Finset String) (log : List StoreCall) (g : InMemoryGraphStore) : Prop :=
  ∀ ident e, g.edges.get? ident = some e → ∃ l prov, l.ident = ident ∧ l.OnSpine types ∧
    LastLink log l prov ∧ CarriesProvenance e prov

theorem Spined.mono (h : Spined types log g) (hsub : types ⊆ types') : Spined types' log g := by
  intro ident e he
  obtain ⟨l, prov, hident, hspine, hlast, hprov⟩ := h ident e he
  exact ⟨l, prov, hident, hspine.mono hsub, hlast, hprov⟩

/-- A call that is not a link keeps the edges and their last provenance. -/
theorem Spined.concat (h : Spined types log g) (hedges : g'.edges = g.edges) {c : StoreCall}
    (hc : ∀ (l : Link) prov, l.call prov ≠ c) : Spined types (log ++ [c]) g' := by
  intro ident e he
  rw [hedges] at he
  obtain ⟨l, prov, hident, hspine, hlast, hprov⟩ := h ident e he
  exact ⟨l, prov, hident, hspine, hlast.concat (hc l), hprov⟩

/-- The write is a link on the spine, if it is a link. -/
def Write.SpineKept (types : Finset String) : Write → Prop
  | .node .. => True
  | .link l _ => l.OnSpine types

theorem handler_node_edges (g : InMemoryGraphStore) (n : NodeRef) (setProps : Props)
    (extraLabels : List String) :
    (InMemoryGraphStore.handler (Write.node n setProps extraLabels).call g).2.edges = g.edges := by
  rw [InMemoryGraphStore.handler_node]
  split <;> rfl

theorem keeps_spined (types : Finset String) : Keeps (Write.SpineKept types) (Spined types) where
  metrics h := h.concat rfl nofun
  metric h := h.concat rfl nofun
  error {w g e log} _ he h := by
    cases w with
    | node n setProps extraLabels =>
      intro ident e he
      rw [handler_node_edges] at he
      exact h ident e he
    | link l prov =>
      rw [InMemoryGraphStore.handler_link] at he ⊢
      split at he
      · cases he
      · rename_i hl; rwa [if_neg hl]
  ok {w g r log} hw hr h := by
    cases w with
    | node n setProps extraLabels => exact h.concat (handler_node_edges ..) nofun
    | link l prov =>
      rw [InMemoryGraphStore.handler_link] at hr ⊢
      split at hr
      case isFalse => cases hr
      rename_i hl
      rw [if_pos hl]
      intro ident e he
      by_cases hident : l.ident = ident
      · subst hident
        rw [Dict.get?_set_self] at he
        cases he
        exact ⟨l, prov, rfl, hw, .of_last .., carriesProvenance_update ..⟩
      · rw [Dict.get?_set_of_ne hident] at he
        obtain ⟨m, prov', rfl, hspine, hlast, hprov⟩ := h ident e he
        refine ⟨m, prov', rfl, hspine, hlast.concat fun prov'' hc => ?_, hprov⟩
        exact hident (congrArg Link.ident (Link.eq_of_call hc).symm)

/-! ## Refusals -/

/-- The exception is not the one a client refuses a write with. -/
def NoRefusal (e : PyErr) : Prop := ∀ m, e ≠ .writeValidationError m

theorem frozenset_error (h : frozenset props = .error e) : e = .typeError := by
  rw [frozenset] at h
  split at h <;> cases h
  rfl

theorem nodeKey_error (h : nodeKey label props = .error e) : e = .typeError := by
  rw [nodeKey] at h
  rcases hk : frozenset props with e' | k <;> rw [hk] at h <;> cases h
  exact frozenset_error hk

theorem handler_error {c : StoreCall} (h : InMemoryGraphStore.handler c g = (.error e, g')) :
    e = .typeError ∨ e = .attributeError ∨ e = .keyError "_labels" := by
  cases c with
  | upsertNode label key setProps extraLabels =>
    simp only [InMemoryGraphStore.handler, InMemoryGraphStore.upsertNode] at h
    rcases hk : nodeKey label key with e' | k <;> rw [hk] at h
    · cases h
      exact .inl (nodeKey_error hk)
    · simp only [InMemoryGraphStore.updateNode] at h
      split at h
      · cases h
      · cases h; exact .inr (.inl rfl)
      · cases h; exact .inr (.inr rfl)
  | upsertEdge relType sl sk dl dk keyProps setProps =>
    simp only [InMemoryGraphStore.handler, InMemoryGraphStore.upsertEdge] at h
    rcases hs : nodeKey sl sk with e₁ | src <;> rw [hs] at h
    · cases h
      exact .inl (nodeKey_error hs)
    rcases hd : nodeKey dl dk with e₂ | dst <;> rw [hd] at h
    · cases h
      exact .inl (nodeKey_error hd)
    rcases hk : frozenset keyProps with e₃ | key <;> rw [hk] at h <;> cases h
    exact .inl (frozenset_error hk)
  | getNode label key =>
    rcases hk : nodeKey label key with e' | k <;>
      simp only [InMemoryGraphStore.handler, InMemoryGraphStore.getNode, hk, Except.map,
        Prod.mk.injEq, Except.error.injEq, reduceCtorEq, false_and] at h
    exact .inl (h.1 ▸ nodeKey_error hk)
  | outNeighbors label key relType =>
    rcases hk : nodeKey label key with e' | k <;>
      simp only [InMemoryGraphStore.handler, InMemoryGraphStore.outNeighbors, hk, Except.map,
        Prod.mk.injEq, Except.error.injEq, reduceCtorEq, false_and] at h
    exact .inl (h.1 ▸ nodeKey_error hk)
  | nodesByLabel label => cases h

theorem handler_noRefusal {c : StoreCall}
    (h : InMemoryGraphStore.handler c g = (.error e, g')) : NoRefusal e := by
  rcases handler_error h with rfl | rfl | rfl <;> exact nofun

theorem Write.program_raises (E : PyErr → Prop) (w : Write) : w.program.Raises E :=
  fun _ => trivial

theorem aliasesOf_error (h : aliasesOf m = .error e) : e = .typeError := by
  rw [aliasesOf] at h
  split at h
  · cases h
  · rename_i v _
    split at h
    · rcases hv : v.iter with _ | l <;> rw [hv] at h <;> cases h
      rfl
    · cases h

theorem metricKeyOf_error (h : metricKeyOf m = .error e) : e = .keyError "metric_key" := by
  rw [metricKeyOf] at h
  rcases hk : m.get? "metric_key" with _ | k <;> rw [hk] at h <;> cases h
  rfl

section runs
variable [Python]

theorem aliasIndex_noRefusal (h : aliasIndex metrics = .error e) : NoRefusal e := by
  refine Program.foldlM_error (fun {index m e} h => ?_) h
  rcases ha : aliasesOf m with e' | aliases
  · rw [indexMetric, ha] at h
    cases h
    rw [aliasesOf_error ha]
    exact nofun
  · rw [indexMetric, ha] at h
    refine Program.foldlM_error (fun {index a e} h => ?_) h
    rcases hk : metricKeyOf m with e' | k
    · rw [hk] at h
      cases h
      rw [metricKeyOf_error hk]
      exact nofun
    · rw [hk] at h
      cases h

theorem termIndex_noRefusal (h : termIndex metrics = .error e) : NoRefusal e := by
  refine Program.foldlM_error (fun {out m e} h => ?_) h
  rcases ht : termsOf m with e' | t
  · rw [ht] at h
    cases h
    rw [termsOf] at ht
    rcases ha : aliasesOf m with e' | aliases
    · rw [ha] at ht
      cases ht
      rw [aliasesOf_error ha]
      exact nofun
    · rcases hk : metricKeyOf m with e' | k
      · rw [ha, hk] at ht
        cases ht
        rw [metricKeyOf_error hk]
        exact nofun
      · rw [ha, hk] at ht
        cases k <;> cases ht
        all_goals exact nofun
  · rw [ht] at h
    cases h

/-- The suggester does not raise what a client refuses a write with. -/
def Quiet (suggester : Suggester) : Prop :=
  ∀ column terms e, suggester column terms = .error e → NoRefusal e

theorem Resolver.resolve_raises {r : Resolver} (hr : Quiet r.suggester) (col : ObservedColumn) :
    (r.resolve col).Raises NoRefusal := by
  refine .bind (Program.Raises.lift fun _ => .ofExcept fun _ => aliasIndex_noRefusal)
    fun index => ?_
  split
  · trivial
  · split
    · trivial
    · refine .bind (Program.Raises.lift fun _ => .ofExcept fun _ => termIndex_noRefusal)
        fun terms => .bind (.ofExcept (hr col terms)) fun ranked => ?_
      dsimp only
      split
      · trivial
      · exact fun _ => trivial

omit [Python] in
theorem linkOutcome_raises (prov : EdgeProvenance) (col : ObservedColumn) (owner : Option String)
    (outcome : Resolution) : (linkOutcome prov col owner outcome).Raises NoRefusal := by
  rw [linkOutcome_eq]
  exact .forM fun l _ => Write.program_raises _ (.link l prov)

/-- A bundle whose relations are all allowed is not refused. -/
theorem loadBundle_raises {c : GraphClient} {r : Resolver} {b : ParsedBundle}
    (hb : ∀ rel ∈ b.relations, rel.Allowed c) (hr : Quiet r.suggester) :
    (loadBundle c r b).Raises NoRefusal := by
  refine .bind (Program.Raises.lift (.bind (.forM fun d hd => ?_) fun _ =>
    .bind (.forM fun col hcol => ?_) fun _ => .bind (.forM fun ent hent => ?_) fun _ =>
    .forM fun rel hrel => ?_)) fun _ => .mapM fun col _ => (Resolver.resolve_raises hr col).bind
      fun outcome => .bind (Program.Raises.lift (linkOutcome_raises ..)) fun _ => trivial
  · exact .bind (Write.program_raises _ d.write) fun _ =>
      .bind (.forM fun uid _ => Write.program_raises _ (.link (.describes d.uri uid) _)) fun _ =>
        .forM fun k _ => Write.program_raises _ (.link (.definedIn k d.uri) _)
  · exact Write.program_raises _ col.write
  · rw [loadEntity_eq]
    exact .bind (Write.program_raises _ _) fun _ =>
      .forM fun col _ => Write.program_raises _ col.write
  · rw [loadRelation_eq (hb rel hrel)]
    exact Write.program_raises _ _

/-- A bundle is refused before anything of it is written, if it is refused at all. -/
def ParsedBundle.Whole (c : GraphClient) (b : ParsedBundle) : Prop :=
  (∀ rel ∈ b.relations, rel.Allowed c) ∨
    b.documents = [] ∧ b.columns = [] ∧ b.entities = [] ∧
      ∀ rel ∈ b.relations.head?, ¬ rel.Allowed c

/-- The bundle relates no entities by another core type. -/
def ParsedBundle.SpineKept (c : GraphClient) (b : ParsedBundle) : Prop :=
  ∀ rel ∈ b.relations, rel.Allowed c → ¬ OtherCoreType rel.typeName

/-- The operation relates no entities by another core type, and loads no bundle of which a part is
written before it is refused. -/
def Op.SpineKept (s : System) : Op → Prop
  | .client (.relateEntities _ _ _ _ relType) =>
    relType ∈ s.client.packEdgeTypes → ¬ OtherCoreType relType
  | .client _ => True
  | .loadPack _ => True
  | .loadBundle resolver b =>
    b.SpineKept s.client ∧ b.Whole s.client ∧ Quiet resolver.suggester
  | .resolve .. => True
  | .confirm .. => True
  | .runIngest source _ _ => ∀ artifact b, source.parse artifact = .ok b → b.SpineKept s.client

omit [Python] in
theorem ParsedBundle.Writes.spineKept {c : GraphClient} {b : ParsedBundle} (h : b.SpineKept c)
    (hw : b.Writes c w) : w.SpineKept c.packEdgeTypes := by
  cases hw with
  | relation hrel hallowed =>
    exact hallowed.imp id fun h' => ⟨h', h _ hrel hallowed⟩
  | _ => trivial

theorem Op.SpineKept.write {s : System} {op : Op} (hop : op.SpineKept s) (hw : op.Writes s w) :
    w.SpineKept s.client.packEdgeTypes := by
  cases hw with
  | @client _ call hw =>
    cases hw with
    | newAlias => trivial
    | write hw =>
      cases call with
      | registerAllowlists | addMetricAlias => cases hw
      | upsertEntity =>
        simp only [ClientCall.write, Option.ite_none_right_eq_some, Option.some.injEq] at hw
        obtain ⟨-, rfl⟩ := hw
        trivial
      | relateEntities subjectUid objectUid role prov relType =>
        simp only [ClientCall.write, Option.ite_none_right_eq_some, Option.some.injEq] at hw
        obtain ⟨hallowed, rfl⟩ := hw
        exact hallowed.imp id fun h => ⟨h, hop h⟩
      | _ => cases hw; trivial
  | loadPack hv hw => cases hw <;> trivial
  | loadBundle hw => exact hw.spineKept hop.1
  | link => trivial
  | newAlias => trivial
  | runIngest hb hw => exact hw.spineKept (hop _ _ hb)

/-- The edge types that an operation registers. -/
def Op.registersEdgeTypes : Op → List String
  | .client (.registerAllowlists _ edgeTypes) => edgeTypes
  | .loadPack pack => if pack.validate = .ok () then pack.edgeTypes else []
  | _ => []

theorem Op.mem_packEdgeTypes_next {s : System} {op : Op} :
    relType ∈ (op.next s).client.packEdgeTypes ↔
      relType ∈ s.client.packEdgeTypes ∨ relType ∈ op.registersEdgeTypes := by
  rw [Op.next_client]
  cases op with
  | client call => cases call <;> simp [ClientCall.client, GraphClient.registerAllowlists,
      registersEdgeTypes]
  | loadPack pack =>
    rcases hv : pack.validate with e | _ <;>
      simp [MarginKG.loadPack, hv, GraphClient.registerAllowlists, registersEdgeTypes]
  | _ => simp [registersEdgeTypes]

/-- The operation was refused: a write or a bundle by the client, a pack by its validation. -/
def Op.Rejected (s : System) (op : Op) : Prop :=
  match op with
  | .client _ | .loadBundle .. => ∃ m, (op.exec s).1 = .error (.writeValidationError m)
  | .loadPack _ => ∃ m, (op.exec s).1 = .error (.valueError m)
  | _ => False

omit [Python] in
theorem GraphClient.addMetricAlias_raises (metricKey aliasName : String) :
    (addMetricAlias metricKey aliasName).Raises NoRefusal := by
  refine fun node => Program.Raises.bind (p := Program.ofExcept (currentAliases node))
    (.ofExcept fun e h => ?_) fun _ => Write.program_raises _ (aliasWrite ..)
  rw [currentAliases] at h
  split at h
  · cases h
  · rename_i v _
    rcases hv : v.iter with _ | l <;> rw [hv] at h <;> cases h
    exact nofun

omit [Python] in
theorem System.runStore_noRefusal {s : System} {p : StoreProgram α} (hp : p.Raises NoRefusal) :
    (s.runStore p).1 ≠ .error (.writeValidationError m) := by
  intro h
  exact hp.run handler_noRefusal (Prod.ext h rfl : p.run _ s.graph = (_, _)) m rfl

theorem ParsedBundle.Whole.allowed_or_throw {c : GraphClient} {b : ParsedBundle} (h : b.Whole c)
    (r : Resolver) : (∀ rel ∈ b.relations, rel.Allowed c) ∨
      ∃ m, loadBundle c r b = .throw (.writeValidationError m) := by
  rcases h with h | ⟨hdocs, hcols, hents, hrel⟩
  · exact .inl h
  rcases hrels : b.relations with _ | ⟨rel, rels⟩
  · exact .inl (by simp)
  obtain ⟨m, hm⟩ := loadRelation_refused (hrel rel (by simp [hrels])) b.provenance.toEdge
  refine .inr ⟨m, ?_⟩
  have hrecords : loadRecords c b = .throw (.writeValidationError m) := by
    simp only [loadRecords, hdocs, hcols, hents, hrels, List.forM_eq_forM, List.forM_nil,
      List.forM_cons, hm]
    rfl
  rw [loadBundle, hrecords]
  rfl

omit [Python] in
theorem System.runResolver_noRefusal {s : System} {p : ResolverProgram α}
    (hp : p.Raises NoRefusal) :
    ((s.runResolver p).1.map fun _ => ()) ≠ .error (.writeValidationError m) := by
  intro h
  rcases hr : (s.runResolver p).1 with e | a <;> rw [hr] at h <;> cases h
  refine hp.run (fun {c w e w'} hc => ?_) (Prod.ext hr rfl : p.run _ s.state.world = (_, _)) m rfl
  cases c with
  | enqueue => cases hc
  | store c => exact handler_noRefusal (Prod.ext (Prod.ext_iff.mp hc).1 rfl)

omit [Python] in
/-- The store raises no `ValueError` while a catalog is written. -/
theorem Pack.loadCatalog_error {pack : Pack}
    (h : pack.loadCatalog.run InMemoryGraphStore.handler g = (.error e, g')) :
    ∀ m, e ≠ .valueError m := by
  have hraises : pack.loadCatalog.Raises fun e => ∀ m, e ≠ .valueError m :=
    .bind (.forM fun m _ => Write.program_raises _ m.write) fun _ =>
      .forM fun b _ => Write.program_raises _ b.write
  refine hraises.run (fun hc => ?_) h
  rcases handler_error hc with rfl | rfl | rfl <;> exact nofun

/-- A refused operation changes neither the graph nor the allow-lists. -/
theorem Op.SpineKept.rejected {s : System} {op : Op} (hop : op.SpineKept s) (h : op.Rejected s) :
    (op.next s).graph = s.graph ∧ (op.next s).client = s.client := by
  cases op with
  | client call =>
    obtain ⟨m, hm⟩ := h
    have hm : (System.runStore { s with client := call.client s.client }
      (call.program s.client)).1 = .error (.writeValidationError m) := hm
    have hwrite : call.write s.client = none := by
      by_contra hw
      obtain ⟨w, hw⟩ := Option.ne_none_iff_exists'.mp hw
      rw [ClientCall.program_of_write hw] at hm
      exact System.runStore_noRefusal (Write.program_raises _ w) hm
    have hreg : ∀ e t, call ≠ .registerAllowlists e t := by
      rintro e t rfl
      cases hm
    have halias : ∀ k a, call ≠ .addMetricAlias k a := by
      rintro k a rfl
      exact System.runStore_noRefusal (GraphClient.addMetricAlias_raises k a) hm
    obtain ⟨m', hm'⟩ := ClientCall.program_of_refused hwrite hreg halias
    constructor
    · simp only [Op.next, Op.exec, hm']
      rfl
    · rw [Op.next_client]
      cases call with
      | registerAllowlists e t => exact absurd rfl (hreg e t)
      | _ => rfl
  | loadPack pack =>
    obtain ⟨m, hm⟩ := h
    rcases hv : pack.validate with e | _
    · simp only [Op.next, Op.exec, MarginKG.loadPack, hv]
      exact ⟨rfl, rfl⟩
    · simp only [Op.exec, MarginKG.loadPack, hv] at hm
      exact absurd rfl (Pack.loadCatalog_error (Prod.ext hm rfl) m)
  | loadBundle r b =>
    obtain ⟨-, hwhole, hquiet⟩ := hop
    rcases hwhole.allowed_or_throw r with hallowed | ⟨m, hm⟩
    · obtain ⟨m, hm⟩ := h
      exact absurd hm (System.runResolver_noRefusal (loadBundle_raises hallowed hquiet))
    · simp only [Op.next, Op.exec, hm]
      exact ⟨rfl, rfl⟩
  | resolve | confirm | runIngest => exact h.elim

/-! ## Runs -/

/-- What the spine means for the edges of a graph that a sequence of operations has led to. -/
def SpineMeaning (ops : List Op) (log : List StoreCall) (g : InMemoryGraphStore) : Prop :=
  ∀ ident e, g.edges.get? ident = some e →
    ((∃ t : RelType, ident.relType = t.value) ∨
      ∃ op ∈ ops, ident.relType ∈ op.registersEdgeTypes) ∧
    (∃ l prov, l.ident = ident ∧ LastLink log l prov ∧ CarriesProvenance e prov) ∧
    ∀ t : RelType, ident.relType = t.value →
      ident.src.label = t.source.value ∧ ident.dst.label = t.target.value

namespace System

theorem mem_packEdgeTypes_after {s : System} {ops : List Op} :
    relType ∈ (s.after ops).client.packEdgeTypes ↔
      relType ∈ s.client.packEdgeTypes ∨ ∃ op ∈ ops, relType ∈ op.registersEdgeTypes := by
  induction ops generalizing s with
  | nil => simp
  | cons op ops ih => simp [ih, Op.mem_packEdgeTypes_next, or_assoc]

theorem spined_next {s : System} {op : Op} (hop : op.SpineKept s)
    (h : Spined s.client.packEdgeTypes l s.graph) :
    Spined (op.next s).client.packEdgeTypes (l ++ op.log s) (op.next s).graph := by
  refine Spined.mono ?_ fun t ht => Op.mem_packEdgeTypes_next.mpr (.inl ht)
  exact Op.next_log ((keeps_spined _).mono fun w => hop.write) h

theorem spined_after {s : System} {ops : List Op} (hops : s.Meets (fun s op => op.SpineKept s) ops)
    (h : Spined s.client.packEdgeTypes l s.graph) :
    Spined (s.after ops).client.packEdgeTypes (l ++ s.log ops) (s.after ops).graph := by
  induction ops generalizing s l with
  | nil => simpa [System.log] using h
  | cons op ops ih =>
    rw [System.log, ← List.append_assoc]
    exact ih hops.2 (spined_next hops.1 h)

/-- **The spine keeps its meaning**: along a run whose operations keep the spine, every stored edge
has a core or a registered type and its last provenance, edges of a core type join the labels the
ontology fixes, and an operation that is refused changes nothing. -/
theorem spine_after {ops : List Op} (hops : initial.Meets (fun s op => op.SpineKept s) ops) :
    SpineMeaning ops (initial.log ops) (initial.after ops).graph ∧
      ∀ pre op post, ops = pre ++ op :: post → op.Rejected (initial.after pre) →
        (op.next (initial.after pre)).graph = (initial.after pre).graph ∧
        (op.next (initial.after pre)).client = (initial.after pre).client := by
  constructor
  · have hinit : Spined initial.client.packEdgeTypes [] initial.graph := fun ident e he => by
      cases he
    intro ident e he
    obtain ⟨l, prov, rfl, hspine, hlast, hprov⟩ := spined_after hops hinit ident e he
    refine ⟨hspine.type.imp id fun h => ?_, ⟨l, prov, rfl, hlast, hprov⟩, fun t ht => ?_⟩
    · exact (mem_packEdgeTypes_after.mp h).resolve_left (Finset.notMem_empty _)
    · obtain ⟨hsource, htarget⟩ := hspine.ends ht
      exact ⟨congrArg CoreLabel.value hsource, congrArg CoreLabel.value htarget⟩
  · rintro pre op post rfl
    exact (Meets.at hops).rejected

end System

end runs

namespace System

theorem spine_after_pack :
    let ops : List Op := [
      .loadPack { name := "p", edgeTypes := ["PART_OF"] },
      .client (.relateEntities "a" "b" "part" ⟨"src", "2024", "c@1"⟩ "PART_OF"),
      .client (.relateEntities "a" "b" "part" ⟨"src", "2024", "c@1"⟩ "OWNS")]
    SpineMeaning ops (initial.log ops) (initial.after ops).graph ∧
      ∀ pre op post, ops = pre ++ op :: post → op.Rejected (initial.after pre) →
        (op.next (initial.after pre)).graph = (initial.after pre).graph ∧
        (op.next (initial.after pre)).client = (initial.after pre).client :=
  spine_after ⟨trivial, fun _ => by decide, fun _ => by decide, trivial⟩

/-- A pack that lists MEASURES among its edge types lets it join two entities. -/
theorem spine_broken :
    let ops : List Op := [
      .loadPack { name := "p", edgeTypes := ["MEASURES"] },
      .client (.relateEntities "a" "b" "part" ⟨"src", "2024", "c@1"⟩ "MEASURES")]
    ¬ SpineMeaning ops (initial.log ops) (initial.after ops).graph := by
  intro ops h
  have hedge : (initial.after ops).graph.edges.get? (Link.related "MEASURES" "a" "b" "part").ident =
      some (.ofList [("role", .str "part"), ("source_ref", .str "src"), ("as_of", .str "2024"),
        ("created_by", .str "c@1")]) := by decide
  have hends := (h _ _ hedge).2.2 .measures rfl
  exact absurd hends.1 (by decide)

end System

end MarginKG
