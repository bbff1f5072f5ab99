import MarginKG.Platform
import MarginKG.Theory.Refinement
import MarginKG.Verify.Stores

/-! The platform over the two stores (`Platform.backends_agree`): packs, bundles, resolutions,
confirmations and whole ingestions return the same over the Neo4j store as in memory, raise the
same, and leave graphs that read the same; and so do operations that interleave
(`Platform.interleavings_agree`).

`Simulates` keeps the graphs in step for the calls of a client. The operations of the platform
make these same calls, with some reads of metrics between them, and nothing in them looks at a
metric but through its properties (`Op.program_blind`). So one store refines the other for every
operation (`backends_refine`). -/

namespace MarginKG

open InMemoryGraphStore

/-! ## Replies -/

/-- The replies of the two stores to a call: the same nodes and edges in the same order, each with
the same properties. -/
def StoreCall.SameReply : (c : StoreCall) → c.Reply → c.Reply → Prop
  | .upsertNode .., _, _ | .upsertEdge .., _, _ => True
  | .getNode .., x, y => Option.Rel SameProps x y
  | .outNeighbors .., l, l' =>
    List.Forall₂ (fun p q => SameProps p.1 q.1 ∧ SameProps p.2 q.2) l l'
  | .nodesByLabel .., l, l' => List.Forall₂ SameProps l l'

def ResolverCall.SameReply : (c : ResolverCall) → c.Reply → c.Reply → Prop
  | .store c, r, r' => c.SameReply r r'
  | .enqueue .., _, _ => True

def IngestCall.SameReply : (c : IngestCall) → c.Reply → c.Reply → Prop
  | .resolver c, r, r' => c.SameReply r r'
  | .hasSeen _, r, r' => r = r'
  | .markDone _, _, _ => True
  | .fetch _, r, r' => r = r'

theorem foldlM_congr {f : β → α → Except ε β} {R : α → α → Prop}
    (hf : ∀ b x y, R x y → f b x = f b y) {l l' : List α} (h : List.Forall₂ R l l') (b : β) :
    l.foldlM f b = l'.foldlM f b := by
  induction h generalizing b with
  | nil => rfl
  | cons hxy _ ih =>
    rw [List.foldlM_cons, List.foldlM_cons, hf b _ _ hxy]
    exact congrArg _ (funext ih)

theorem aliasesOf_congr {m m' : Props} (h : SameProps m m') : aliasesOf m = aliasesOf m' := by
  rw [aliasesOf, aliasesOf, show m.get? = m'.get? from h]

theorem metricKeyOf_congr {m m' : Props} (h : SameProps m m') : metricKeyOf m = metricKeyOf m' := by
  rw [metricKeyOf, metricKeyOf, show m.get? = m'.get? from h]

/-- The metrics come in the order in which they were created, as they do in memory. Cypher does not
promise this, and the last metric that has an alias is the one that the alias finds. -/
def RowOrder.MetricsInOrder [RowOrder] : Prop :=
  ∀ l : List Props, rows (.nodesByLabel CoreLabel.metric.value) l = l

section blind
variable [Python]

theorem aliasIndex_congr {l l' : List Props} (h : List.Forall₂ SameProps l l') :
    aliasIndex l = aliasIndex l' := by
  refine foldlM_congr (fun index m m' hm => ?_) h ∅
  rw [indexMetric, indexMetric, aliasesOf_congr hm, metricKeyOf_congr hm]

theorem termIndex_congr {l l' : List Props} (h : List.Forall₂ SameProps l l') :
    termIndex l = termIndex l' := by
  refine foldlM_congr (fun out m m' hm => ?_) h ∅
  have hterms : termsOf m = termsOf m' := by
    rw [termsOf, termsOf, aliasesOf_congr hm, metricKeyOf_congr hm]
  rw [hterms]

/-! ## Programs that look at nodes through their properties alone -/

omit [Python] in
theorem Write.program_blind (w : Write) : w.program.Blind StoreCall.SameReply :=
  ⟨fun _ _ _ => rfl, fun _ => trivial⟩

theorem GraphClient.metricAliases_blind : metricAliases.Blind StoreCall.SameReply :=
  ⟨fun _ _ hr => congrArg Program.ofExcept (aliasIndex_congr hr), fun _ => .ofExcept _⟩

theorem GraphClient.metricTerms_blind : metricTerms.Blind StoreCall.SameReply :=
  ⟨fun _ _ hr => congrArg Program.ofExcept (termIndex_congr hr), fun _ => .ofExcept _⟩

omit [Python] in
theorem GraphClient.addMetricAlias_blind (metricKey aliasName : String) :
    (addMetricAlias metricKey aliasName).Blind StoreCall.SameReply := by
  rw [addMetricAlias_eq]
  refine ⟨fun x y hxy => ?_, fun x => .bind (.ofExcept _) fun _ => Write.program_blind _⟩
  dsimp only
  rw [currentAliases_congr hxy]

theorem ClientCall.program_blind (c : GraphClient) (call : ClientCall) :
    (call.program c).Blind StoreCall.SameReply := by
  rcases hw : call.write c with _ | w
  · by_cases hreg : ∃ e t, call = .registerAllowlists e t
    · obtain ⟨e, t, rfl⟩ := hreg
      trivial
    by_cases halias : ∃ k a, call = .addMetricAlias k a
    · obtain ⟨k, a, rfl⟩ := halias
      exact GraphClient.addMetricAlias_blind k a
    simp only [not_exists] at hreg halias
    obtain ⟨m, hm⟩ := program_of_refused hw hreg halias
    rw [hm]
    trivial
  · rw [program_of_write hw]
    exact Write.program_blind w

theorem loadPack_blind (c : GraphClient) (pack : Pack) :
    (loadPack c pack).2.Blind StoreCall.SameReply := by
  rw [loadPack]
  split
  · trivial
  · exact .bind (.forM fun m _ => m.write.program_blind) fun _ =>
      .forM fun b _ => b.write.program_blind

theorem loadRecords_blind (c : GraphClient) (b : ParsedBundle) :
    (loadRecords c b).Blind StoreCall.SameReply := by
  refine .bind (.forM fun d _ => ?_) fun _ => .bind (.forM fun col _ => col.write.program_blind)
    fun _ => .bind (.forM fun ent _ => ?_) fun _ => .forM fun rel _ => ?_
  · refine .bind d.write.program_blind fun _ => .bind (.forM fun uid _ => ?_) fun _ => .forM ?_
    · exact (Write.link (.describes d.uri uid) b.provenance.toEdge).program_blind
    · exact fun k _ => (Write.link (.definedIn k d.uri) b.provenance.toEdge).program_blind
  · rw [loadEntity_eq]
    exact .bind (Write.program_blind _) fun _ => .forM fun col _ => col.write.program_blind
  · by_cases h : rel.Allowed c
    · rw [loadRelation_eq h]
      exact Write.program_blind _
    · obtain ⟨m, hm⟩ := loadRelation_refused h b.provenance.toEdge
      rw [hm]
      trivial

omit [Python] in
theorem liftStore_blind {p : StoreProgram α} (hp : p.Blind StoreCall.SameReply) :
    (liftStore p).Blind ResolverCall.SameReply := hp.lift fun _ _ _ => id

omit [Python] in
theorem liftResolver_blind {p : ResolverProgram α} (hp : p.Blind ResolverCall.SameReply) :
    (liftResolver p).Blind IngestCall.SameReply := hp.lift fun _ _ _ => id

theorem Resolver.resolve_blind (r : Resolver) (col : ObservedColumn) :
    (r.resolve col).Blind ResolverCall.SameReply := by
  refine .bind (liftStore_blind GraphClient.metricAliases_blind) fun index => ?_
  split
  · trivial
  · split
    · trivial
    · refine .bind (liftStore_blind GraphClient.metricTerms_blind) fun terms =>
        .bind (.ofExcept _) fun ranked => ?_
      dsimp only
      split
      · trivial
      · exact ⟨fun _ _ _ => rfl, fun _ => trivial⟩

theorem loadBundle_blind (c : GraphClient) (r : Resolver) (b : ParsedBundle) :
    (loadBundle c r b).Blind ResolverCall.SameReply := by
  refine .bind (liftStore_blind (loadRecords_blind c b)) fun _ => .mapM fun col _ => ?_
  refine .bind (r.resolve_blind col) fun outcome => .bind (liftStore_blind ?_) fun _ => trivial
  rw [linkOutcome_eq]
  exact .forM fun l _ => Write.program_blind _

theorem runIngest_blind (source : Source) (c : GraphClient) (r : Resolver) :
    (runIngest source c r).Blind IngestCall.SameReply := by
  refine .foldlM (fun item _ report => ?_) _
  refine ⟨fun _ _ hr => by cases hr; rfl, fun seen => ?_⟩
  dsimp only
  split
  · trivial
  · refine ⟨fun _ _ hr => by cases hr; rfl, fun artifact => .bind (.ofExcept _) fun b => ?_⟩
    refine .bind (liftResolver_blind (loadBundle_blind c r b)) fun _ => ?_
    exact ⟨fun _ _ _ => rfl, fun _ => trivial⟩

/-- No operation tells the replies of the two stores apart. -/
theorem Op.program_blind (c : GraphClient) (op : Op) :
    (op.program c).Blind IngestCall.SameReply := by
  cases op with
  | client call =>
    exact .bind (liftResolver_blind (liftStore_blind (call.program_blind c))) fun _ => trivial
  | loadPack pack =>
    exact .bind (liftResolver_blind (liftStore_blind (loadPack_blind c pack))) fun _ => trivial
  | loadBundle r b => exact .bind (liftResolver_blind (loadBundle_blind c r b)) fun _ => trivial
  | resolve r col => exact .bind (liftResolver_blind (r.resolve_blind col)) fun _ => trivial
  | confirm col k prov =>
    refine .bind (liftResolver_blind (liftStore_blind ?_)) fun _ => trivial
    rw [Resolver.confirm_eq]
    exact .bind (Write.program_blind _) fun _ => GraphClient.addMetricAlias_blind _ _
  | runIngest source r fresh => exact .bind (runIngest_blind source c r) fun _ => trivial

/-! ## Writes that both stores carry out -/

/-- A write of a call that both stores carry out alike, and the links that a load makes with a
metric key that it has read back. -/
inductive Write.Portable : Write → Prop
  | call {call : ClientCall} : call.Plain → call.Portable → call.write c = some w → Portable w
  | measures : Portable (.link (.measures system table name metricKey) prov)
  | appliesTo : Portable (.link (.appliesTo metricKey uid) prov)

omit [Python] in
/-- A new list of aliases is written as an attribute of the metric is. -/
theorem Write.Portable.newAlias (metricKey : String) (aliases : List Value) :
    (aliasWrite metricKey aliases).Portable := by
  let call : ClientCall := .upsertMetric metricKey none none none none none
    (.ofList [("aliases", .list aliases)])
  have hplain : call.Plain := by
    intro n hn f hf
    cases hn
    have hf : f = "_labels" ∨ f = "metric_key" := by
      simpa [NodeRef.label, CoreLabel.identity] using hf
    rcases hf with rfl | rfl <;> rfl
  exact .call (c := ∅) hplain trivial rfl

/-- The ends of an edge are stored. -/
def StoreCall.Joined (g : InMemoryGraphStore) : StoreCall → Prop
  | .upsertEdge _ srcLabel srcKey dstLabel dstKey _ _ =>
    (∃ k ∈ g.nodes.keys, nodeKey srcLabel srcKey = .ok k) ∧
      ∃ k ∈ g.nodes.keys, nodeKey dstLabel dstKey = .ok k
  | _ => True

instance (g : InMemoryGraphStore) : (c : StoreCall) → Decidable (c.Joined g)
  | .upsertEdge .. => inferInstanceAs (Decidable (_ ∧ _))
  | .upsertNode .. | .getNode .. | .outNeighbors .. | .nodesByLabel .. => isTrue trivial

omit [Python] in
theorem NodeRef.nodeKey_eq_ok {n : NodeRef} (h : nodeKey n.label.value n.key = .ok k) :
    n.hashable ∧ n.id = k := by
  rw [nodeKey_eq] at h
  split at h
  · exact ⟨‹_›, Except.ok.inj h⟩
  · cases h

omit [Python] in
theorem Write.joins_of_joined {w : Write} (h : w.call.Joined g) :
    w.Joins g ∧ ∀ l prov, w = .link l prov → l.hashable := by
  cases w with
  | node n setProps extraLabels => exact ⟨trivial, fun _ _ h => by cases h⟩
  | link l prov =>
    obtain ⟨⟨k, hk, hsrc⟩, k', hk', hdst⟩ := h
    obtain ⟨hs, rfl⟩ := NodeRef.nodeKey_eq_ok hsrc
    obtain ⟨hd, rfl⟩ := NodeRef.nodeKey_eq_ok hdst
    refine ⟨⟨hk, hk'⟩, fun m prov' hm => ?_⟩
    cases hm
    rw [Link.hashable, hs, hd]
    rfl

/-- The graphs are in step, and what is stored in memory is what calls of a client wrote. -/
structure InStep (g : InMemoryGraphStore) (pg : Neo4jGraph) : Prop where
  simulates : Simulates g pg
  recorded : ∃ hist, Recorded hist g ∧ CoreFree hist

namespace InStep

omit [Python] in
theorem empty : InStep ∅ ∅ :=
  ⟨⟨.nil, .nil⟩, [], .empty, fun _ _ ⟨_, _, _, hmem⟩ => by cases hmem⟩

omit [Python] in
/-- A stored metric has a text for its key. -/
theorem metric_key (h : InStep g pg) (hk : (NodeRef.metric v).id ∈ g.nodes.keys) :
    ∃ k, v = .str k := by
  obtain ⟨hist, hrec, -⟩ := h.recorded
  obtain ⟨x, hx⟩ := Dict.mem_keys.mp hk
  obtain ⟨n, hid, hup, -⟩ := hrec.nodes _ x hx
  cases NodeRef.id_injective hid
  exact hup.metric_key

/-- Both stores carry out a portable write between stored nodes. -/
theorem write [RowOrder] (h : InStep g pg) {w : Write} (hw : w.Portable)
    (hjoined : w.call.Joined g) :
    (∃ r, (handler w.call g).1 = .ok r) ∧ (∃ r, (Neo4jGraphStore.handler w.call pg).1 = .ok r) ∧
      InStep (handler w.call g).2 (Neo4jGraphStore.handler w.call pg).2 := by
  obtain ⟨hist, hrec, hfree⟩ := h.recorded
  obtain ⟨hjoins, -⟩ := Write.joins_of_joined hjoined
  -- the links to a metric that was read back are those of calls, since its key is a text
  have hcall : ∃ (c : GraphClient) (call : ClientCall), call.Plain ∧ call.Portable ∧
      call.write c = some w := by
    cases hw with
    | call hplain hport hw => exact ⟨_, _, hplain, hport, hw⟩
    | @measures system table name v prov =>
      obtain ⟨k, rfl⟩ := h.metric_key hjoins.2
      exact ⟨∅, .linkColumnToMetric system table name k prov, (fun _ hn => by cases hn), trivial,
        rfl⟩
    | @appliesTo v uid prov =>
      obtain ⟨k, rfl⟩ := h.metric_key hjoins.1
      exact ⟨∅, .linkMetricToEntity k uid prov, (fun _ hn => by cases hn), trivial, rfl⟩
  obtain ⟨c, call, hplain, hport, hwrite⟩ := hcall
  obtain ⟨hok, hrec'⟩ := hrec.write hplain hwrite
  obtain ⟨hok', hsim⟩ := h.simulates.write hrec hfree hplain hport hwrite hjoins
  exact ⟨hok, hok', hsim, _, hrec', hport.coreFree hfree⟩

end InStep

/-- **The Neo4j store refines the in-memory store** for portable writes between stored nodes and
for reads of metrics. -/
theorem backends_refine [RowOrder] (hrows : RowOrder.MetricsInOrder) :
    Refines handler Neo4jGraphStore.handler InStep StoreCall.SameReply
      fun c g => Makes Write.Portable c ∧ c.Joined g where
  ok {g pg c r g'} hs hG hc := by
    obtain ⟨hmakes, hjoined⟩ := hG
    obtain ⟨hist, hrec, hfree⟩ := hs.recorded
    cases hmakes with
    | @write w hw =>
      obtain ⟨-, ⟨r', hr'⟩, hnext⟩ := hs.write hw hjoined
      rw [hc] at hnext
      refine ⟨r', _, Prod.ext hr' rfl, ?_, hnext⟩
      cases w <;> trivial
    | metrics =>
      cases hc
      have hmetrics := Neo4jGraphStore.nodesByLabel_ref pg .metric
      rw [hrows] at hmetrics
      exact ⟨_, pg, Prod.ext hmetrics rfl, hs.simulates.nodesByLabel hrec hfree .metric, hs⟩
    | @metric k =>
      obtain ⟨hr, rfl⟩ := Prod.ext_iff.mp hc
      have hget : g.getNode CoreLabel.metric.value (metricKeyProps (.str k)) =
          .ok (g.nodes.get? (NodeRef.metric (.str k)).id) := g.getNode_ref (n := .metric _) rfl
      cases hget.symm.trans hr
      exact ⟨_, pg, Prod.ext (Neo4jGraphStore.getNode_ref pg (.metric (.str k))) rfl,
        hs.simulates.getNode hrec hfree (.metric (.str k)), hs⟩
  error {g pg c e g'} hs hG hc := by
    obtain ⟨hmakes, hjoined⟩ := hG
    cases hmakes with
    | write hw =>
      obtain ⟨⟨r, hr⟩, -⟩ := hs.write hw hjoined
      rw [hc] at hr
      cases hr
    | metrics => cases hc
    | @metric k =>
      have hget : g.getNode CoreLabel.metric.value (metricKeyProps (.str k)) =
          .ok (g.nodes.get? (NodeRef.metric (.str k)).id) := g.getNode_ref (n := .metric _) rfl
      cases hget.symm.trans (congrArg Prod.fst hc)

/-! ## Resolvers and ingestions over a refined store -/

/-- The call reaches the store, if it does, with a call that satisfies `Q`. -/
def IngestCall.OnStore (Q : StoreCall → Prop) (c : IngestCall) : Prop := ∀ call ∈ c.store?, Q call

instance (Q : StoreCall → Prop) [DecidablePred Q] (c : IngestCall) : Decidable (c.OnStore Q) :=
  inferInstanceAs (Decidable (∀ call ∈ c.store?, Q call))

omit [Python] in
theorem Ingests.onStore {Q : StoreCall → Prop} (h : Ingests (Reaches Q queue) c) :
    c.OnStore Q := by
  intro call hcall
  cases h with
  | hasSeen | markDone | fetch => cases hcall
  | resolver h =>
    cases h with
    | enqueue => cases hcall
    | store h => cases hcall; exact h

omit [Python] in
theorem liftResolver_onStore {Q : StoreCall → Prop} {p : ResolverProgram α}
    (hp : p.Uses (Reaches Q queue)) : (liftResolver p).Uses (IngestCall.OnStore Q) :=
  hp.lift fun _ h => (Ingests.resolver h).onStore

omit [Python] in
theorem liftStore_onStore {Q : StoreCall → Prop} {p : StoreProgram α} (hp : p.Uses Q) :
    (liftResolver (liftStore p)).Uses (IngestCall.OnStore Q) :=
  liftResolver_onStore (liftStore_uses hp 0)

/-- An operation makes its writes, and reads metrics. -/
theorem Op.program_uses (s : System) (op : Op) :
    (op.program s.client).Uses (IngestCall.OnStore (Makes (op.Writes s))) := by
  cases op with
  | client call =>
    refine (liftStore_onStore ?_).bind fun _ => .ret _
    exact (call.program_uses s.client).mono fun _ h => h.mono fun _ => .client
  | loadPack pack =>
    refine (liftStore_onStore ?_).bind fun _ => .ret _
    rcases hv : pack.validate with e | _
    · rw [MarginKG.loadPack, hv]
      exact .throw e
    · exact (loadPack_uses s.client pack).mono fun _ h => h.mono fun _ => .loadPack hv
  | loadBundle r b =>
    have huses : (MarginKG.loadBundle s.client r b).Uses
        (Reaches (Makes (Op.Writes s (.loadBundle r b))) r.queue) :=
      (loadBundle_uses s.client r b).mono fun _ h => h.mono fun _ h => h.mono fun _ => .loadBundle
    exact (liftResolver_onStore huses).bind fun _ => .ret _
  | resolve r col => exact (liftResolver_onStore (r.resolve_uses col)).bind fun _ => .ret _
  | confirm col k prov =>
    refine (liftStore_onStore ?_).bind fun _ => .ret _
    exact Resolver.confirm_uses .link fun _ h => .newAlias h
  | runIngest source r fresh =>
    have hload (artifact : RawArtifact) (b : ParsedBundle) (hb : source.parse artifact = .ok b) :
        (MarginKG.loadBundle s.client r b).Uses
          (Reaches (Makes (Op.Writes s (.runIngest source r fresh))) r.queue) :=
      (loadBundle_uses s.client r b).mono fun _ h => h.mono fun _ h => h.mono fun _ =>
        .runIngest hb
    refine Program.Uses.bind ?_ fun _ => .ret _
    exact (runIngest_uses source s.client r hload).mono fun _ h => h.onStore

section ingest
variable {σ τ : Type} {h : Handler StoreCall StoreCall.Reply PyErr σ}
  {h' : Handler StoreCall StoreCall.Reply PyErr τ} {S : σ → τ → Prop} {G : StoreCall → σ → Prop}

/-- The stores are related, and all else is the same. -/
structure SameBut (S : σ → τ → Prop) (w : IngestState σ) (w' : IngestState τ) : Prop where
  store : S w.world.store w'.world.store
  queues : w'.world.queues = w.world.queues
  ledger : w'.ledger = w.ledger

omit [Python] in
/-- An ingestion over a refined store is refined. -/
theorem Refines.ingest (H : Refines h h' S StoreCall.SameReply G) (source : Source) :
    Refines (IngestState.handler source h) (IngestState.handler source h') (SameBut S)
      IngestCall.SameReply fun c w => c.OnStore fun call => G call w.world.store where
  ok {w w' c _ v} hs hG hc := by
    cases c with
    | hasSeen key =>
      cases hc
      exact ⟨_, w', rfl, by rw [IngestCall.SameReply, hs.ledger], hs⟩
    | markDone key =>
      cases hc
      exact ⟨_, _, rfl, trivial, hs.store, hs.queues, congrArg (insert key) hs.ledger⟩
    | fetch item =>
      obtain ⟨hr, rfl⟩ := Prod.ext_iff.mp hc
      exact ⟨_, w', Prod.ext hr rfl, rfl, hs⟩
    | resolver c =>
      cases c with
      | enqueue queue resolution =>
        cases hc
        refine ⟨_, _, rfl, trivial, hs.store, ?_, hs.ledger⟩
        exact congrArg (List.modify · queue (· ++ [resolution])) hs.queues
      | store call =>
        obtain ⟨hr, rfl⟩ := Prod.ext_iff.mp hc
        obtain ⟨r', t, hc', hsame, hnext⟩ := H.ok hs.store (hG call rfl) (Prod.ext hr rfl)
        refine ⟨r', { w' with world := { w'.world with store := t } }, ?_, hsame, hnext, hs.queues,
          hs.ledger⟩
        simp only [IngestState.handler, ResolverState.handler, hc']
  error {w w' c e v} hs hG hc := by
    cases c with
    | hasSeen key | markDone key => cases hc
    | fetch item =>
      obtain ⟨he, rfl⟩ := Prod.ext_iff.mp hc
      exact ⟨w', Prod.ext he rfl, hs⟩
    | resolver c =>
      cases c with
      | enqueue queue resolution => cases hc
      | store call =>
        obtain ⟨he, rfl⟩ := Prod.ext_iff.mp hc
        obtain ⟨t, hc', hnext⟩ := H.error hs.store (hG call rfl) (Prod.ext he rfl)
        refine ⟨{ w' with world := { w'.world with store := t } }, ?_, hnext, hs.queues, hs.ledger⟩
        simp only [IngestState.handler, ResolverState.handler, hc']

end ingest

/-! ## Operations -/

/-- No attribute map of the pack names an identity field of its node, or `_labels`. -/
def Pack.Plain (pack : Pack) : Prop :=
  (∀ m ∈ pack.metrics, ∀ f ∈ "_labels" :: CoreLabel.metric.identity, m.attributes.get? f = none) ∧
    ∀ b ∈ pack.benchmarks, ∀ f ∈ "_labels" :: CoreLabel.benchmark.identity,
      b.attributes.get? f = none

/-- No attribute map of the bundle names an identity field of its node, or `_labels`; labels and
edge types are plain identifiers, and no label is a base label. -/
def ParsedBundle.Plain (b : ParsedBundle) : Prop :=
  (∀ ent ∈ b.entities,
    (∀ f ∈ "_labels" :: CoreLabel.entity.identity, ent.attributes.get? f = none) ∧
      ∀ label ∈ ent.candidateLabels, isIdent label.toList ∧ ∀ L : CoreLabel, label ≠ L.value) ∧
    ∀ rel ∈ b.relations, isIdent rel.typeName.toList

/-- What the operation names and writes is plain. -/
def Op.Plain : Op → Prop
  | .client call => call.Plain ∧ call.Portable
  | .loadPack pack => pack.Plain
  | .loadBundle _ b => b.Plain
  | .resolve .. | .confirm .. => True
  | .runIngest source _ _ => ∀ artifact b, source.parse artifact = .ok b → b.Plain

omit [Python] in
theorem ClientCall.Writes.portable {c : GraphClient} {call : ClientCall} (h : call.Writes c w)
    (hplain : call.Plain) (hport : call.Portable) : w.Portable := by
  cases h with
  | write h => exact .call hplain hport h
  | newAlias => exact .newAlias _ _

omit [Python] in
theorem Pack.Writes.portable {pack : Pack} (h : pack.Writes w) (hplain : pack.Plain) :
    w.Portable := by
  cases h with
  | @metric m hm =>
    let call : ClientCall := .upsertMetric m.metricKey m.formula m.unit m.numeratorDef
      m.denominatorDef m.provenance m.attrs
    have hcall : call.Plain := by
      intro n hn f hf
      cases hn
      have hf : f ∈ "_labels" :: CoreLabel.metric.identity := hf
      change m.attrs.get? f = none
      rw [MetricDef.attrs]
      split
      · exact hplain.1 m hm f hf
      · rw [Dict.get?_set_of_ne, hplain.1 m hm f hf]
        rintro rfl
        exact absurd hf (by decide)
    exact .call (c := ∅) hcall trivial rfl
  | @benchmark b hb =>
    let call : ClientCall := .upsertBenchmark b.benchmarkKey b.attributes
    have hcall : call.Plain := by
      intro n hn f hf
      cases hn
      exact hplain.2 b hb f hf
    exact .call (c := ∅) hcall trivial rfl

omit [Python] in
theorem ParsedBundle.Writes.portable {c : GraphClient} {b : ParsedBundle} (h : b.Writes c w)
    (hplain : b.Plain) : w.Portable := by
  have hnone (call : ClientCall) (hn : call.attributes = ∅) : call.Plain := fun _ _ _ _ => by
    rw [hn]
    rfl
  cases h with
  | @document d hd =>
    exact .call (c := c) (hnone (.upsertDocument d.uri d.title d.text d.asOf) rfl) trivial rfl
  | @describes d uid hd hu =>
    exact .call (c := c) (hnone (.linkDocumentToEntity d.uri uid b.provenance.toEdge) rfl) trivial
      rfl
  | @defines d k hd hk =>
    exact .call (c := c) (hnone (.linkMetricToDocument k d.uri b.provenance.toEdge) rfl) trivial rfl
  | @column col hcol =>
    exact .call (c := c) (hnone (.upsertColumn col.system col.table col.name col.dtype
      col.sampleValues col.hasDictionary) rfl) trivial rfl
  | @entity ent hent =>
    obtain ⟨hattrs, hlabels⟩ := hplain.1 ent hent
    let call : ClientCall :=
      .upsertEntity ent.uid (pickSubtype c ent.candidateLabels) ent.attributes
    have hcall : call.Plain := by
      intro n hn f hf
      cases hn
      exact hattrs f hf
    have hport : call.Portable := by
      intro label hlabel
      obtain ⟨hident, hbase⟩ := hlabels label (List.mem_of_find?_eq_some hlabel)
      refine ⟨hident, hbase .entity, fun hother => ?_⟩
      obtain ⟨L, -, hL⟩ := otherBaseLabel_iff.mp hother
      exact hbase L hL
    refine .call (c := c) hcall hport ?_
    have hpick : ∀ label ∈ pickSubtype c ent.candidateLabels, label ∈ c.entitySubtypes := by
      intro label h
      simpa using List.find?_some h
    exact if_pos hpick
  | @relation rel hrel hallowed =>
    let call : ClientCall := .relateEntities rel.subjectUid rel.objectUid rel.role
      b.provenance.toEdge rel.typeName
    have hport : call.Portable := hplain.2 rel hrel
    exact .call (c := c) (hnone call rfl) hport (if_pos hallowed)
  | measures => exact .measures
  | appliesTo => exact .appliesTo

theorem Op.Writes.portable {s : System} {op : Op} (h : op.Writes s w) (hplain : op.Plain) :
    w.Portable := by
  cases h with
  | client h => exact h.portable hplain.1 hplain.2
  | loadPack _ h => exact h.portable hplain
  | loadBundle h => exact h.portable hplain
  | link => exact .measures
  | newAlias => exact .newAlias _ _
  | runIngest hparse h => exact h.portable (hplain _ _ hparse)

/-- Each link of the operation is made when both its ends are stored. -/
def Op.Joined (s : Platform InMemoryGraphStore) (op : Op) : Prop :=
  (op.program s.client).Guarded (IngestState.handler op.asked handler)
    (fun c w => c.OnStore (StoreCall.Joined w.world.store)) (s.start op)

instance (s : Platform InMemoryGraphStore) (op : Op) : Decidable (op.Joined s) :=
  Program.Guarded.decidable ..

/-- Each link of a sequence of operations is made when both its ends are stored. -/
def Platform.Joined (s : Platform InMemoryGraphStore) : List Op → Prop
  | [] => True
  | op :: ops => op.Joined s ∧ Platform.Joined (op.perform handler s).2 ops

instance Platform.joinedDecidable :
    (s : Platform InMemoryGraphStore) → (ops : List Op) → Decidable (s.Joined ops)
  | _, [] => isTrue trivial
  | s, op :: ops =>
    have := joinedDecidable (op.perform handler s).2 ops
    inferInstanceAs (Decidable (_ ∧ _))

/-- The platforms differ in their stores alone, which are in step. -/
structure Platform.Agree (s : Platform InMemoryGraphStore) (t : Platform Neo4jGraph) : Prop where
  client : t.client = s.client
  state : SameBut InStep s.state t.state

namespace Platform.Agree

variable [RowOrder] {s : Platform InMemoryGraphStore} {t : Platform Neo4jGraph}

/-- An operation ends alike. -/
theorem perform (h : Agree s t) (hrows : RowOrder.MetricsInOrder) {op : Op} (hplain : op.Plain)
    (hjoined : op.Joined s) :
    (op.perform Neo4jGraphStore.handler t).1 = (op.perform handler s).1 ∧
      Agree (op.perform handler s).2 (op.perform Neo4jGraphStore.handler t).2 := by
  have hstart : SameBut InStep (s.start op) (t.start op) :=
    ⟨h.state.store, h.state.queues, congrArg (op.ledger ·) h.state.ledger⟩
  have hguard := hjoined.and_uses (Op.program_uses ⟨s.client, s.state⟩ op)
  have hguard : (op.program s.client).Guarded (IngestState.handler op.asked handler)
      (fun c w => c.OnStore fun call => Makes Write.Portable call ∧ call.Joined w.world.store)
      (s.start op) :=
    hguard.mono fun c w hc call hcall =>
      ⟨(hc.1 call hcall).mono fun _ h => h.portable hplain, hc.2 call hcall⟩
  obtain ⟨hresult, hnext⟩ := ((backends_refine hrows).ingest op.asked).run
    (op.program_blind s.client) hguard hstart
  rw [Op.perform, Op.perform, h.client]
  exact ⟨hresult, rfl, hnext⟩

/-- A sequence of operations ends alike. -/
theorem session (h : Agree s t) (hrows : RowOrder.MetricsInOrder) {ops : List Op}
    (hplain : ∀ op ∈ ops, op.Plain) (hjoined : s.Joined ops) :
    (t.session Neo4jGraphStore.handler ops).1 = (s.session handler ops).1 ∧
      Agree (s.session handler ops).2 (t.session Neo4jGraphStore.handler ops).2 := by
  induction ops generalizing s t with
  | nil => exact ⟨rfl, h⟩
  | cons op ops ih =>
    obtain ⟨hop, hplain⟩ := List.forall_mem_cons.mp hplain
    obtain ⟨hresult, hnext⟩ := h.perform hrows hop hjoined.1
    obtain ⟨hresults, hlast⟩ := ih hnext hplain hjoined.2
    exact ⟨congrArg₂ List.cons hresult hresults, hlast⟩

end Platform.Agree

/-- **The platform is the same over both stores**, if metrics come in the order in which they were
created: when attribute maps leave identity fields and `_labels` alone, names are plain identifiers,
and each link is made between stored nodes, the operations of a sequence return the same and raise
the same over the Neo4j store as in memory, and leave the same allow-lists, the same queues, the
same ledger and graphs that read the same. -/
theorem Platform.backends_agree [RowOrder] (hrows : RowOrder.MetricsInOrder) {ops : List Op}
    {queues : Nat} (hplain : ∀ op ∈ ops, op.Plain) (hjoined : (Platform.new ∅ queues).Joined ops) :
    let mem := (Platform.new ∅ queues).session handler ops
    let neo4j := (Platform.new ∅ queues).session Neo4jGraphStore.handler ops
    neo4j.1 = mem.1 ∧ neo4j.2.client = mem.2.client ∧
      neo4j.2.state.ledger = mem.2.state.ledger ∧
      neo4j.2.state.world.queues = mem.2.state.world.queues ∧
      SameReads mem.2.store neo4j.2.store := by
  have hstart : Agree (Platform.new ∅ queues) (Platform.new ∅ queues) := ⟨rfl, .empty, rfl, rfl⟩
  obtain ⟨hresults, hlast⟩ := hstart.session hrows hplain hjoined
  obtain ⟨hist, hrec, hfree⟩ := hlast.state.store.recorded
  exact ⟨hresults, hlast.client, hlast.state.ledger, hlast.state.queues,
    hlast.state.store.simulates.reads hrec hfree⟩

/-- **Interleaved operations are the same over both stores**, if metrics come in the order in which
they were created: whatever the order in which callers with plain operations make their calls in
memory, as long as links are made between stored nodes, they can make the same calls in the same
order over the Neo4j store, with the same results so far, the same ledger and queues, and graphs
that read the same. -/
theorem Platform.interleavings_agree [RowOrder] (hrows : RowOrder.MetricsInOrder)
    {callers : List (GraphClient × Op)} {source : Source}
    {queues : List (List Resolution)} {ledger : Finset (String × String)}
    {l : List (Nat × IngestCall)} {qs : List (IngestProgram Op.Result)}
    {w : IngestState InMemoryGraphStore} (hplain : ∀ x ∈ callers, x.2.Plain)
    (hjoined : Program.Along (IngestState.handler source handler)
      (fun c w => c.OnStore (StoreCall.Joined w.world.store)) (l.map Prod.snd)
      ⟨⟨∅, queues⟩, ledger⟩)
    (H : Program.Pool (IngestState.handler source handler)
      (callers.map fun x => x.2.program x.1) ⟨⟨∅, queues⟩, ledger⟩ l qs w) :
    ∃ w', Program.Pool (IngestState.handler source Neo4jGraphStore.handler)
        (callers.map fun x => x.2.program x.1) ⟨⟨∅, queues⟩, ledger⟩ l qs w' ∧
      w'.ledger = w.ledger ∧ w'.world.queues = w.world.queues ∧
      SameReads w.world.store w'.world.store := by
  have hblind : ∀ p ∈ callers.map fun x => x.2.program x.1, p.Blind IngestCall.SameReply := by
    intro p hp
    obtain ⟨x, -, rfl⟩ := List.mem_map.mp hp
    exact x.2.program_blind x.1
  have huses : ∀ p ∈ callers.map fun x => x.2.program x.1,
      p.Uses (IngestCall.OnStore (Makes Write.Portable)) := by
    intro p hp
    obtain ⟨x, hx, rfl⟩ := List.mem_map.mp hp
    have hp := Op.program_uses ⟨x.1, ⟨⟨∅, queues⟩, ledger⟩⟩ x.2
    exact hp.mono fun c hc call hcall =>
      (hc call hcall).mono fun _ h => h.portable (hplain x hx)
  have hcalls : ∀ c ∈ l.map Prod.snd, c.OnStore (Makes Write.Portable) := by
    intro c hc
    obtain ⟨e, he, rfl⟩ := List.mem_map.mp hc
    exact H.uses huses e he
  have hguard : Program.Along (IngestState.handler source handler)
      (fun c w => c.OnStore fun call => Makes Write.Portable call ∧ call.Joined w.world.store)
      (l.map Prod.snd) ⟨⟨∅, queues⟩, ledger⟩ :=
    (hjoined.and_forall hcalls).mono fun c w hc call hcall =>
      ⟨hc.1 call hcall, hc.2 call hcall⟩
  have hstart : SameBut InStep (⟨⟨∅, queues⟩, ledger⟩ : IngestState InMemoryGraphStore)
      ⟨⟨∅, queues⟩, ledger⟩ := ⟨.empty, rfl, rfl⟩
  obtain ⟨w', H', hlast⟩ := ((backends_refine hrows).ingest source).pool H hblind hguard hstart
  obtain ⟨hist, hrec, hfree⟩ := hlast.store.recorded
  exact ⟨w', H', hlast.ledger, hlast.queues, hlast.store.simulates.reads hrec hfree⟩

end blind

/-- A pack, an ingestion that links one column and queues another, its confirmation, and the
ingestion once more. -/
theorem Platform.backends_agree_widget :
    let r : Resolver := ⟨fun _ _ => .ok [], 6 / 10, 3, 0⟩
    let bundle : ParsedBundle := {
      provenance := ⟨"src", "2026", "c@1"⟩
      entities := [{
        uid := "u1"
        candidateLabels := ["Widget"]
        columns := [{ system := "erp", table := "orders", name := "wgt" },
          { system := "erp", table := "orders", name := "xyz" }] }] }
    let source : Source := {
      discover := [{ itemId := "1", sourceRef := "src" }]
      fetch := fun item => .ok ⟨item.itemId, "src", "rows", .other (.str "x"), "2026"⟩
      parse := fun _ => .ok bundle }
    let pack : Pack := {
      name := "p"
      entitySubtypes := ["Widget"]
      metrics := [{ metricKey := "p.weight", aliases := ["wgt"] }] }
    let ops : List Op := [
      .loadPack pack,
      .runIngest source r false,
      .confirm { system := "erp", table := "orders", name := "xyz" } "p.weight" ⟨"r", "t", "u"⟩,
      .runIngest source r true]
    let mem := (Platform.new ∅ 1).session handler ops
    let neo4j := (Platform.new ∅ 1).session Neo4jGraphStore.handler ops
    neo4j.1 = mem.1 ∧ neo4j.2.client = mem.2.client ∧
      neo4j.2.state.ledger = mem.2.state.ledger ∧
      neo4j.2.state.world.queues = mem.2.state.world.queues ∧
      SameReads mem.2.store neo4j.2.store := by
  intro r bundle source pack ops
  have hbundle : bundle.Plain := by
    refine ⟨fun ent hent => ?_, fun rel hrel => by cases hrel⟩
    cases List.mem_singleton.mp hent
    refine ⟨by decide, fun label hlabel => ?_⟩
    cases List.mem_singleton.mp hlabel
    exact ⟨by decide, fun L => by cases L <;> decide⟩
  have hsource : ∀ artifact b, source.parse artifact = .ok b → b.Plain := by
    intro artifact b hb
    cases hb
    exact hbundle
  have hpack : pack.Plain := ⟨by decide, by decide⟩
  have hplain : ∀ op ∈ ops, op.Plain := by
    simp only [ops, List.forall_mem_cons]
    exact ⟨hpack, hsource, trivial, hsource, by simp⟩
  exact backends_agree (fun _ => rfl) hplain (by decide +kernel)

/-- A column is loaded while a pack is, and is linked, since its name is looked up after the metric
is written. -/
theorem Platform.interleavings_agree_pack :
    let r : Resolver := ⟨fun _ _ => .ok [], 6 / 10, 3, 0⟩
    let bundle : ParsedBundle := {
      provenance := ⟨"src", "2026", "c@1"⟩
      columns := [{ system := "erp", table := "orders", name := "wgt" }] }
    let pack : Pack := { name := "p", metrics := [{ metricKey := "p.weight", aliases := ["wgt"] }] }
    let callers : List (GraphClient × Op) := [(∅, .loadPack pack), (∅, .loadBundle r bundle)]
    let column : Write := .node (.column "erp" "orders" "wgt")
      (clean (columnProps none [] false)) []
    let metric : Write := .node (.metric (.str "p.weight"))
      (clean (metricProps none none none none none (.ofList [("aliases", .list [.str "wgt"])]))) []
    let link : Write := .link (.measures "erp" "orders" "wgt" (.str "p.weight"))
      ⟨"src", "2026", "c@1"⟩
    let l : List (Nat × IngestCall) := [(1, .resolver (.store column.call)),
      (0, .resolver (.store metric.call)),
      (1, .resolver (.store (.nodesByLabel CoreLabel.metric.value))),
      (1, .resolver (.store link.call))]
    ∃ qs w, Program.Pool (IngestState.handler (Op.loadPack pack).asked Neo4jGraphStore.handler)
      (callers.map fun x => x.2.program x.1) ⟨⟨∅, []⟩, ∅⟩ l qs w := by
  intro r bundle pack callers column metric link l
  have hpool : Program.Pool (IngestState.handler (Op.loadPack pack).asked handler)
      (callers.map fun x => x.2.program x.1) ⟨⟨∅, []⟩, ∅⟩ l _ _ :=
    .call rfl rfl <| .call rfl rfl <| .call rfl rfl <| .call rfl rfl .refl
  have hplain : ∀ x ∈ callers, x.2.Plain := by
    simp only [callers, List.forall_mem_cons]
    exact ⟨⟨by decide, by decide⟩, ⟨by simp [bundle], by simp [bundle]⟩, by simp⟩
  obtain ⟨w, H, -⟩ := Platform.interleavings_agree (fun _ => rfl) hplain (by decide +kernel) hpool
  exact ⟨_, w, H⟩

end MarginKG
