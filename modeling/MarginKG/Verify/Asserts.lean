import MarginKG.Verify.Writes

/-! The links that a bundle asserts, and what becomes of them in a load over any store.

`Serves` is what the load relies on: nodes and links that are there stay, an upsert leaves its
node behind, and a link that is `Ready` when it is made is there afterwards. Whether a link is
ready is where stores differ. The order of the writes makes every link ready but one kind: that
of a document to an entity it describes (`Serves.load`). -/

namespace MarginKG

/-! ## What a bundle asserts -/

/-- The nodes that the bundle itself brings. -/
inductive ParsedBundle.Carries (b : ParsedBundle) : NodeRef → Prop
  | document : d ∈ b.documents → Carries b (.document d.uri)
  | column : col ∈ b.iterColumns → Carries b col.ref
  | entity : ent ∈ b.entities → Carries b (.entity ent.uid)

/-- The links that the bundle asserts, when its columns were resolved to `out`. -/
inductive ParsedBundle.Asserts (b : ParsedBundle) (out : List Resolution) : Link → Prop
  | describes : d ∈ b.documents → uid ∈ d.describes → Asserts b out (.describes d.uri uid)
  | defines : d ∈ b.documents → metricKey ∈ d.defines →
    Asserts b out (.definedIn metricKey d.uri)
  | relation : rel ∈ b.relations → Asserts b out rel.link
  | measures {col : ObservedColumn} : (col, outcome) ∈ b.iterColumns.zip out →
    outcome.Links metricKey → Asserts b out (.measures col.system col.table col.name metricKey)
  | appliesTo {col : ObservedColumn} : (col, outcome) ∈ b.iterColumns.zip out →
    outcome.Links metricKey → (ownerOf b.entities).get? col.key = some uid →
    Asserts b out (.appliesTo metricKey uid)

theorem ParsedBundle.Carries.not_metric {b : ParsedBundle} {k : Value} :
    ¬ b.Carries (.metric k) := by
  rintro ⟨⟩

/-! ## Loads over any store -/

/-- What a store does for the writes of a load. `Known n` says that a node is there, `Linked l`
that a link is there, and `Ready l` that making it would put it there. -/
structure Serves (h : Handler StoreCall StoreCall.Reply PyErr σ) (P : Write → Prop)
    (le : σ → σ → Prop) (Inv : σ → Prop) (Known : NodeRef → σ → Prop)
    (Ready Linked : Link → σ → Prop) : Prop where
  preorder : IsPreorder σ le
  inv : Program.Stable le Inv
  known : ∀ n, Program.Stable le (Known n)
  linked : ∀ l, Program.Stable le (Linked l)
  ready_of_known : Known l.source s → Known l.target s → Ready l s
  node : P (.node n setProps extraLabels) → Inv s →
    h (Write.node n setProps extraLabels).call s = (.ok r, s') → le s s' ∧ Known n s'
  link : P (.link l prov) → Inv s → h (Write.link l prov).call s = (.ok r, s') →
    le s s' ∧ (Ready l s → Linked l s')
  reads : Makes (fun _ => False) c → (h c s).2 = s

namespace Serves

variable [Python] {h : Handler StoreCall StoreCall.Reply PyErr σ} {P : Write → Prop}
  {le : σ → σ → Prop} {Inv : σ → Prop} {Known : NodeRef → σ → Prop} {Ready Linked : Link → σ → Prop}
  {pre : σ → Prop}

omit [Python] in
theorem write_node (S : Serves h P le Inv Known Ready Linked)
    (hP : P (.node n setProps extraLabels)) :
    (Write.node n setProps extraLabels).program.Ensures h le Inv fun _ => Known n := by
  intro s a s' hs hrun
  rw [Write.run_program] at hrun
  rcases hw : h (Write.node n setProps extraLabels).call s with ⟨e | r, s₁⟩ <;> rw [hw] at hrun <;>
    cases hrun
  exact S.node hP hs hw

omit [Python] in
theorem write_link (S : Serves h P le Inv Known Ready Linked) (hP : P (.link l prov)) (φ : Prop)
    (hready : ∀ s, pre s → Inv s ∧ (φ → Ready l s)) :
    (Write.link l prov).program.Ensures h le pre fun _ s => φ → Linked l s := by
  intro s a s' hs hrun
  rw [Write.run_program] at hrun
  rcases hw : h (Write.link l prov).call s with ⟨e | r, s₁⟩ <;> rw [hw] at hrun <;> cases hrun
  obtain ⟨hinv, hφ⟩ := hready s hs
  exact (S.link hP hinv hw).imp_right fun hl h => hl (hφ h)

section load
variable {c : GraphClient} {b : ParsedBundle} {s₀ : σ}

/-- Where a load that started in `s₀` may be. -/
def Since (le : σ → σ → Prop) (Inv : σ → Prop) (s₀ s : σ) : Prop := Inv s ∧ le s₀ s

/-- The node was there when the load started, or the bundle brings it. -/
def Known₀ (Known : NodeRef → σ → Prop) (b : ParsedBundle) (s₀ : σ) (n : NodeRef) : Prop :=
  Known n s₀ ∨ b.Carries n

omit [Python] in
theorem stable_since (S : Serves h P le Inv Known Ready Linked) (s₀ : σ) :
    Program.Stable le (Since le Inv s₀) := fun _ _ hle h =>
  have := S.preorder
  ⟨S.inv hle h.1, trans_of le h.2 hle⟩

omit [Python] in
/-- A metric that is known was there when the load started. -/
theorem known_metric (S : Serves h P le Inv Known Ready Linked) {k : Value}
    (hk : Known₀ Known b s₀ (.metric k)) (hs : Since le Inv s₀ s) : Known (.metric k) s :=
  S.known _ hs.2 (hk.resolve_right ParsedBundle.Carries.not_metric)

/-- What the load of a document leaves behind. -/
structure DocumentLoaded (Known : NodeRef → σ → Prop) (Linked : Link → σ → Prop) (b : ParsedBundle)
    (s₀ : σ) (d : ObservedDocument) (s : σ) : Prop where
  known : Known (.document d.uri) s
  describes : ∀ uid ∈ d.describes, Known₀ Known b s₀ (.entity uid) →
    Linked (.describes d.uri uid) s
  defines : ∀ metricKey ∈ d.defines, Known₀ Known b s₀ (.metric (.str metricKey)) →
    Linked (.definedIn metricKey d.uri) s

omit [Python] in
theorem document (S : Serves h (b.Writes c) le Inv Known Ready Linked) (hd : d ∈ b.documents)
    (hready : ∀ uid ∈ d.describes, Known₀ Known b s₀ (.entity uid) → ∀ s, Since le Inv s₀ s →
      Known (.document d.uri) s → Ready (.describes d.uri uid) s) :
    (loadDocument b.provenance.toEdge d).Ensures h le (Since le Inv s₀) fun _ =>
      DocumentLoaded Known Linked b s₀ d := by
  have := S.preorder
  have hsince := S.stable_since s₀
  have hpre := hsince.and (S.known (.document d.uri))
  have hdescribes : Program.Stable le fun s => ∀ uid ∈ d.describes,
      Known₀ Known b s₀ (.entity uid) → Linked (.describes d.uri uid) s :=
    .all fun _ => .imp _ (.imp _ (S.linked _))
  refine (Program.Ensures.bind_and hsince (S.known _) ?_ fun _ =>
    .bind_and hpre hdescribes ?_ fun _ => ?_).mono (fun _ => id)
      fun _ _ ⟨hd, hdescribes, hdefines⟩ => ⟨hd, hdescribes, hdefines⟩
  · exact (S.write_node (.document hd)).mono (fun _ hs => hs.1) fun _ _ => id
  · refine .forM hpre (fun _ => .imp _ (S.linked _)) fun uid huid => ?_
    exact S.write_link (.describes hd huid) _ fun s hs =>
      ⟨hs.1.1, fun hk => hready uid huid hk s hs.1 hs.2⟩
  · refine .forM (hpre.and hdescribes) (fun _ => .imp _ (S.linked _)) fun k hk => ?_
    exact S.write_link (.defines hd hk) _ fun s hs =>
      ⟨hs.1.1.1, fun hk => S.ready_of_known (S.known_metric hk hs.1.1) hs.1.2⟩

omit [Python] in
theorem column (S : Serves h (b.Writes c) le Inv Known Ready Linked) (hcol : col ∈ b.iterColumns) :
    (loadColumn col).Ensures h le (Since le Inv s₀) fun _ => Known col.ref :=
  (S.write_node (.column hcol)).mono (fun _ hs => hs.1) fun _ _ => id

theorem entity (S : Serves h (b.Writes c) le Inv Known Ready Linked) (hent : ent ∈ b.entities) :
    (loadEntity c ent).Ensures h le (Since le Inv s₀) fun _ s =>
      Known (.entity ent.uid) s ∧ ∀ col ∈ ent.columns, Known col.ref s := by
  have := S.preorder
  rw [loadEntity_eq]
  refine .bind_and (S.stable_since s₀) (S.known _) ?_ fun _ =>
    .forM ((S.stable_since s₀).and (S.known _)) (fun col => S.known _) fun col hcol => ?_
  · exact (S.write_node (.entity hent)).mono (fun _ hs => hs.1) fun _ _ => id
  · exact (S.column (List.mem_append_right _ (List.mem_flatMap.mpr ⟨ent, hent, hcol⟩))).mono
      (fun _ hs => hs.1) fun _ _ => id

theorem relation (S : Serves h (b.Writes c) le Inv Known Ready Linked) (hrel : rel ∈ b.relations) :
    (loadRelation c b.provenance.toEdge rel).Ensures h le
      (fun s => Since le Inv s₀ s ∧ ∀ ent ∈ b.entities, Known (.entity ent.uid) s) fun _ s =>
        Known₀ Known b s₀ rel.link.source ∧ Known₀ Known b s₀ rel.link.target →
          Linked rel.link s := by
  by_cases hallowed : rel.Allowed c
  · rw [loadRelation_eq hallowed]
    refine S.write_link (.relation hrel hallowed) _ fun s hs => ⟨hs.1.1, fun hk => ?_⟩
    have hknown {uid : String} (hk : Known₀ Known b s₀ (.entity uid)) : Known (.entity uid) s := by
      rcases hk with hk | hk
      · exact S.known _ hs.1.2 hk
      · cases hk with
        | entity hent => exact hs.2 _ hent
    exact S.ready_of_known (hknown hk.1) (hknown hk.2)
  · obtain ⟨m, hm⟩ := loadRelation_refused hallowed b.provenance.toEdge
    rw [hm]
    exact .throw

/-- What the load of the records leaves behind. -/
structure RecordsLoaded (Known : NodeRef → σ → Prop) (Linked : Link → σ → Prop) (b : ParsedBundle)
    (s₀ s : σ) : Prop where
  documents : ∀ d ∈ b.documents, DocumentLoaded Known Linked b s₀ d s
  columns : ∀ col ∈ b.columns, Known col.ref s
  entities : ∀ ent ∈ b.entities, Known (.entity ent.uid) s ∧ ∀ col ∈ ent.columns, Known col.ref s
  relations : ∀ rel ∈ b.relations,
    Known₀ Known b s₀ rel.link.source ∧ Known₀ Known b s₀ rel.link.target → Linked rel.link s

omit [Python] in
theorem stable_documentLoaded (S : Serves h P le Inv Known Ready Linked) (b : ParsedBundle) (s₀ : σ)
    (d : ObservedDocument) : Program.Stable le (DocumentLoaded Known Linked b s₀ d) :=
  fun _ _ hle hd => ⟨S.known _ hle hd.known,
    fun uid huid hk => S.linked _ hle (hd.describes uid huid hk),
    fun k hmem hk => S.linked _ hle (hd.defines k hmem hk)⟩

omit [Python] in
theorem stable_recordsLoaded (S : Serves h P le Inv Known Ready Linked) (b : ParsedBundle)
    (s₀ : σ) :
    Program.Stable le (RecordsLoaded Known Linked b s₀) := fun _ _ hle hb =>
  ⟨fun d hd => S.stable_documentLoaded b s₀ d hle (hb.documents d hd),
    fun col hcol => S.known _ hle (hb.columns col hcol),
    fun ent hent => ⟨S.known _ hle (hb.entities ent hent).1,
      fun col hcol => S.known _ hle ((hb.entities ent hent).2 col hcol)⟩,
    fun rel hrel hk => S.linked _ hle (hb.relations rel hrel hk)⟩

theorem records (S : Serves h (b.Writes c) le Inv Known Ready Linked)
    (hready : ∀ d ∈ b.documents, ∀ uid ∈ d.describes, Known₀ Known b s₀ (.entity uid) → ∀ s,
      Since le Inv s₀ s → Known (.document d.uri) s → Ready (.describes d.uri uid) s) :
    (loadRecords c b).Ensures h le (Since le Inv s₀) fun _ => RecordsLoaded Known Linked b s₀ := by
  have := S.preorder
  have hsince := S.stable_since s₀
  have hdocs : Program.Stable le fun s => ∀ d ∈ b.documents, DocumentLoaded Known Linked b s₀ d s :=
    .all fun d => .imp _ (S.stable_documentLoaded b s₀ d)
  have hcols : Program.Stable le fun s => ∀ col ∈ b.columns, Known col.ref s :=
    .all fun _ => .imp _ (S.known _)
  have hents : Program.Stable le fun s => ∀ ent ∈ b.entities,
      Known (.entity ent.uid) s ∧ ∀ col ∈ ent.columns, Known col.ref s :=
    .all fun _ => .imp _ ((S.known _).and (.all fun _ => .imp _ (S.known _)))
  refine (Program.Ensures.bind_and hsince hdocs ?_ fun _ =>
    .bind_and (hsince.and hdocs) hcols ?_ fun _ =>
      .bind_and ((hsince.and hdocs).and hcols) hents ?_ fun _ => ?_).mono (fun _ => id)
        fun _ _ ⟨hdocs, hcols, hents, hrels⟩ => ⟨hdocs, hcols, hents, hrels⟩
  · exact .forM hsince (S.stable_documentLoaded b s₀) fun d hd => S.document hd (hready d hd)
  · exact (Program.Ensures.forM hsince (fun _ => S.known _) fun col hcol =>
      S.column (List.mem_append_left _ hcol)).mono (fun _ hs => hs.1) fun _ _ => id
  · exact (Program.Ensures.forM hsince (fun _ => (S.known _).and (.all fun _ => .imp _ (S.known _)))
      fun ent hent => S.entity hent).mono (fun _ hs => hs.1.1) fun _ _ => id
  · refine (Program.Ensures.forM (hsince.and (.all fun _ => .imp _ (S.known _)))
      (fun _ => .imp _ (S.linked _)) fun rel hrel => S.relation hrel).mono ?_ fun _ _ => id
    exact fun s hs => ⟨hs.1.1.1, fun ent hent => (hs.2 ent hent).1⟩

omit [Python] in
/-- The nodes that were known when the load started, or that the bundle brings, are there once its
records are loaded. -/
theorem known_of_recordsLoaded (S : Serves h P le Inv Known Ready Linked)
    (hs : Since le Inv s₀ s) (hb : RecordsLoaded Known Linked b s₀ s)
    (hn : Known₀ Known b s₀ n) : Known n s := by
  rcases hn with hn | hn
  · exact S.known n hs.2 hn
  · cases hn with
    | document hd => exact (hb.documents _ hd).known
    | column hcol =>
      rcases List.mem_append.mp hcol with hcol | hcol
      · exact hb.columns _ hcol
      · obtain ⟨ent, hent, hcol⟩ := List.mem_flatMap.mp hcol
        exact (hb.entities ent hent).2 _ hcol
    | entity hent => exact (hb.entities _ hent).1

/-- The links that a resolution of a column makes. -/
def ColumnLinked (Known : NodeRef → σ → Prop) (Linked : Link → σ → Prop) (b : ParsedBundle) (s₀ : σ)
    (col : ObservedColumn) (outcome : Resolution) (s : σ) : Prop :=
  ∀ k, outcome.Links k → Known₀ Known b s₀ (.metric k) →
    Linked (.measures col.system col.table col.name k) s ∧
      ∀ uid, (ownerOf b.entities).get? col.key = some uid → Linked (.appliesTo k uid) s

omit [Python] in
theorem linkOutcome (S : Serves h (b.Writes c) le Inv Known Ready Linked)
    (hcol : col ∈ b.iterColumns) (outcome : Resolution) :
    (MarginKG.linkOutcome b.provenance.toEdge col ((ownerOf b.entities).get? col.key)
      outcome).Ensures h le (fun s => Since le Inv s₀ s ∧ RecordsLoaded Known Linked b s₀ s)
        fun _ => ColumnLinked Known Linked b s₀ col outcome := by
  have := S.preorder
  have hpre := (S.stable_since s₀).and (S.stable_recordsLoaded b s₀)
  -- a link of the outcome is there once it is made, if its metric was known
  have hlinks : ((outcome.linksMade col ((ownerOf b.entities).get? col.key)).forM fun l =>
      (Write.link l b.provenance.toEdge).program).Ensures h le
        (fun s => Since le Inv s₀ s ∧ RecordsLoaded Known Linked b s₀ s) fun _ s =>
          ∀ l ∈ outcome.linksMade col ((ownerOf b.entities).get? col.key),
            (∃ k, outcome.Links k ∧ Known₀ Known b s₀ (.metric k)) → Linked l s := by
    refine .forM hpre (fun l => (S.linked l).imp _) fun l hl => ?_
    obtain ⟨k, hk, hl⟩ := mem_linksMade.mp hl
    have hmetric {s : σ} (hs : Since le Inv s₀ s)
        (hknown : ∃ k, outcome.Links k ∧ Known₀ Known b s₀ (.metric k)) : Known (.metric k) s := by
      obtain ⟨k', hk', hknown⟩ := hknown
      cases hk.2.1.symm.trans hk'.2.1
      exact S.known_metric hknown hs
    rcases hl with rfl | ⟨uid, hown, rfl⟩
    · exact S.write_link (.measures hcol) _ fun s hs => ⟨hs.1.1, fun hknown => S.ready_of_known
        (S.known_of_recordsLoaded hs.1 hs.2 (.inr (.column hcol))) (hmetric hs.1 hknown)⟩
    · refine S.write_link (.appliesTo hcol hown) _ fun s hs => ⟨hs.1.1, fun hknown => ?_⟩
      obtain ⟨ent, hent, rfl⟩ := mem_ownerOf hown
      exact S.ready_of_known (hmetric hs.1 hknown)
        (S.known_of_recordsLoaded hs.1 hs.2 (.inr (.entity hent)))
  rw [linkOutcome_eq]
  refine hlinks.mono (fun _ => id) fun _ s hs k hk hknown => ⟨?_, fun uid hown => ?_⟩
  · exact hs _ (mem_linksMade.mpr ⟨k, hk, .inl rfl⟩) ⟨k, hk, hknown⟩
  · exact hs _ (mem_linksMade.mpr ⟨k, hk, .inr ⟨uid, hown, rfl⟩⟩) ⟨k, hk, hknown⟩

theorem resolveAndLink (S : Serves h (b.Writes c) le Inv Known Ready Linked) (r : Resolver)
    (hcol : col ∈ b.iterColumns) :
    (MarginKG.resolveAndLink r b.provenance.toEdge (ownerOf b.entities) col).Ensures
      (ResolverState.handler h) (fun w w' => le w.store w'.store)
      (fun w => Since le Inv s₀ w.store ∧ RecordsLoaded Known Linked b s₀ w.store)
      fun outcome w => ColumnLinked Known Linked b s₀ col outcome w.store := by
  have := S.preorder
  have : IsPreorder (ResolverState σ) fun w w' => le w.store w'.store :=
    { refl := fun w => refl_of le w.store, trans := fun _ _ _ => trans_of le }
  have hpre := (S.stable_since s₀).and (S.stable_recordsLoaded b s₀)
  refine .bind (.of_uses (r.resolve_uses (P := fun _ => False) col) ?_ fun _ _ hle => hpre hle)
    fun outcome => .bind ((S.linkOutcome hcol outcome).lift (ResolverState.lifting h))
      fun _ => .ret fun _ => id
  intro call w reply w' hcall hw
  cases hcall with
  | enqueue => cases hw; exact refl_of le w.store
  | store hcall =>
    obtain ⟨-, rfl⟩ := Prod.ext_iff.mp hw
    change le w.store (h _ w.store).2
    rw [S.reads hcall]
    exact refl_of le w.store

/-- **What a load leaves behind over any store**: each node that the bundle brings, and each link
that it asserts between known nodes, when the links of documents to the entities they describe are
ready as they are made. -/
theorem load (S : Serves h (b.Writes c) le Inv Known Ready Linked) (r : Resolver)
    {w w' : ResolverState σ} (hinv : Inv w.store)
    (hready : ∀ d ∈ b.documents, ∀ uid ∈ d.describes, Known₀ Known b w.store (.entity uid) → ∀ s,
      Since le Inv w.store s → Known (.document d.uri) s → Ready (.describes d.uri uid) s)
    (hrun : (loadBundle c r b).run (ResolverState.handler h) w = (.ok out, w')) :
    Since le Inv w.store w'.store ∧ (∀ n, Known₀ Known b w.store n → Known n w'.store) ∧
      ∀ l, b.Asserts out l → Known₀ Known b w.store l.source → Known₀ Known b w.store l.target →
        Linked l w'.store := by
  have := S.preorder
  have : IsPreorder (ResolverState σ) fun w w' => le w.store w'.store :=
    { refl := fun w => refl_of le w.store, trans := fun _ _ _ => trans_of le }
  have hsince := S.stable_since w.store
  have hrecords := S.stable_recordsLoaded b w.store
  have hlinked (col : ObservedColumn) (outcome : Resolution) :
      Program.Stable le (ColumnLinked Known Linked b w.store col outcome) :=
    .all fun _ => .imp _ (.imp _ ((S.linked _).and (.all fun _ => .imp _ (S.linked _))))
  have hload : (loadBundle c r b).Ensures (ResolverState.handler h)
      (fun w w' => le w.store w'.store) (fun w' => Since le Inv w.store w'.store)
      fun out w' => RecordsLoaded Known Linked b w.store w'.store ∧
        List.Forall₂ (fun col outcome => ColumnLinked Known Linked b w.store col outcome w'.store)
          b.iterColumns out := by
    refine .bind_and
      (A := fun w' : ResolverState σ => RecordsLoaded Known Linked b w.store w'.store)
      (fun _ _ hle => hsince hle) (fun _ _ hle => hrecords hle)
      ((S.records hready).lift (ResolverState.lifting h)) fun _ => ?_
    exact .mapM (fun _ _ hle => (hsince.and hrecords) hle) (fun col outcome _ _ hle =>
      hlinked col outcome hle) fun col hcol => S.resolveAndLink r hcol
  obtain ⟨hle, hb, hcols⟩ := hload w out w' ⟨hinv, refl_of le w.store⟩ hrun
  have hw' : Since le Inv w.store w'.store := ⟨S.inv hle hinv, hle⟩
  refine ⟨hw', fun n => S.known_of_recordsLoaded hw' hb, fun l hl hsrc hdst => ?_⟩
  have hzip {col : ObservedColumn} {outcome : Resolution}
      (h : (col, outcome) ∈ b.iterColumns.zip out) := (List.forall₂_iff_zip.mp hcols).2 h
  cases hl with
  | describes hd huid => exact (hb.documents _ hd).describes _ huid hdst
  | defines hd hk => exact (hb.documents _ hd).defines _ hk hsrc
  | relation hrel => exact hb.relations _ hrel ⟨hsrc, hdst⟩
  | measures hmem hlinks => exact (hzip hmem _ hlinks hdst).1
  | appliesTo hmem hlinks hown => exact (hzip hmem _ hlinks hsrc).2 _ hown

end load

end Serves

end MarginKG
