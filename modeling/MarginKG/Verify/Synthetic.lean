import MarginKG.Ingestion.Synthetic
import MarginKG.Verify.Ledger
import MarginKG.Verify.Visibility
import Mathlib.Data.List.TakeWhile

/-! The items of the reference connector (`SyntheticSource.items_round_trip_iff`), and the columns
that its rows parser finds (`SyntheticSource.parseRows_complete_iff`).

The identifier of a table's item is put together from its system and its name, and the parser takes
it apart again at the first dot. The two agree exactly on the systems without a dot. The names of
the columns are those of the first row, while their types and samples come from later rows too. -/

namespace MarginKG

/-! ## Identifiers -/

theorem splitOnce_eq {s a b : String} (hs : s.toList = a.toList ++ sep :: b.toList)
    (ha : sep ∉ a.toList) : splitOnce sep s = .ok (a, b) := by
  have hne : ∀ c ∈ a.toList, decide (c ≠ sep) = true := fun c hc =>
    decide_eq_true fun heq => ha (heq ▸ hc)
  rw [splitOnce, hs, List.dropWhile_append_of_pos hne, List.takeWhile_append_of_pos hne]
  simp

/-- The first part has no separator. -/
theorem splitOnce_fst {s a b : String} (h : splitOnce sep s = .ok (a, b)) : sep ∉ a.toList := by
  rw [splitOnce] at h
  split at h <;> cases h
  intro hmem
  rw [String.toList_ofList] at hmem
  simpa using List.mem_takeWhile_imp hmem

theorem splitOnce_of_mem {s : String} (h : sep ∈ s.toList) :
    ∃ a b, splitOnce sep s = .ok (a, b) := by
  rw [splitOnce]
  split
  · rename_i hnil
    have := List.dropWhile_eq_nil_iff.mp hnil sep h
    simp at this
  · exact ⟨_, _, rfl⟩

namespace SyntheticSource

/-- No system has a dot in its name. -/
def Undotted (src : SyntheticSource) : Prop := ∀ key ∈ src.api.listTables, '.' ∉ key.1.toList

variable {src : SyntheticSource}

theorem split_tableId (system table : String) :
    splitOnce ':' (src.tableItem system table).itemId = .ok ("rows", system ++ "." ++ table) :=
  splitOnce_eq (by simp [tableItem]) (by simp)

theorem split_documentId (uri : String) :
    splitOnce ':' (src.documentItem uri).itemId = .ok ("prose", uri) :=
  splitOnce_eq (by simp [documentItem]) (by simp)

theorem ids_nodup (h : src.Undotted) : (src.discover.map WorkItem.itemId).Nodup := by
  rw [discover, List.map_append, List.map_map, List.map_map, List.nodup_append]
  refine ⟨?_, ?_, ?_⟩
  · refine List.Nodup.map_on ?_ src.api.tables.nodup
    intro (system, table) hkey (system', table') hkey' heq
    have hsplit : splitOnce ':' (src.tableItem system table).itemId =
      splitOnce ':' (src.tableItem system' table').itemId := congrArg _ heq
    rw [split_tableId, split_tableId] at hsplit
    have href : system ++ "." ++ table = system' ++ "." ++ table' :=
      congrArg Prod.snd (Except.ok.inj hsplit)
    have hfirst : splitOnce '.' (system ++ "." ++ table) = .ok (system, table) :=
      splitOnce_eq (by simp) (h _ hkey)
    have hfirst' : splitOnce '.' (system' ++ "." ++ table') = .ok (system', table') :=
      splitOnce_eq (by simp) (h _ hkey')
    rw [href, hfirst'] at hfirst
    exact (Except.ok.inj hfirst).symm
  · refine List.Nodup.map_on ?_ src.api.documents.nodup
    intro uri _ uri' _ heq
    have hsplit : splitOnce ':' (src.documentItem uri).itemId =
      splitOnce ':' (src.documentItem uri').itemId := congrArg _ heq
    rw [split_documentId, split_documentId] at hsplit
    exact congrArg Prod.snd (Except.ok.inj hsplit)
  · intro id hid id' hid' heq
    obtain ⟨key, -, rfl⟩ := List.mem_map.mp hid
    obtain ⟨uri, -, rfl⟩ := List.mem_map.mp hid'
    have hsplit : splitOnce ':' (src.tableItem key.1 key.2).itemId =
      splitOnce ':' (src.documentItem uri).itemId := congrArg _ heq
    rw [split_tableId, split_documentId] at hsplit
    exact absurd (congrArg Prod.fst (Except.ok.inj hsplit)) (by decide : ¬ "rows" = "prose")

theorem keys_nodup (h : src.Undotted) : (src.discover.map WorkItem.key).Nodup :=
  List.Nodup.of_map Prod.snd (by rw [List.map_map]; exact ids_nodup h)

end SyntheticSource

/-! ## Parsing what was fetched -/

section runs
variable [Python] [ObjectTypes]

omit [ObjectTypes] in
theorem ParserRouter.assertVersioned_ok {b : ParsedBundle}
    (hcolumns : ∀ c ∈ b.iterColumns, c.schemaVersion = irSchemaVersion)
    (hdocuments : ∀ d ∈ b.documents, d.schemaVersion = irSchemaVersion)
    (hentities : ∀ e ∈ b.entities, e.schemaVersion = irSchemaVersion)
    (hrelations : b.relations = []) : assertVersioned b = .ok () := by
  apply Program.forM_eq_ok
  intro r hr
  refine if_neg (not_not.mpr ?_)
  simp only [List.mem_append, List.mem_map, List.mem_flatMap, hrelations, List.not_mem_nil,
    false_and, exists_false, or_false] at hr
  rcases hr with ((⟨c, hc, rfl⟩ | ⟨d, hd, rfl⟩) | ⟨e, he, rfl⟩) | ⟨e, he, c, hc, rfl⟩
  · exact hcolumns c (List.mem_append_left _ hc)
  · exact hdocuments d hd
  · exact hentities e he
  · exact hcolumns c (List.mem_append_right _ (List.mem_flatMap.mpr ⟨e, he, hc⟩))

namespace SyntheticSource

variable (src : SyntheticSource)

/-- The names of the columns of a table, from its first row. -/
def columnNames (rows : List Props) : List String := (rows.head?.map Dict.keys).getD []

/-- The bundle that is parsed from the rows of a table. -/
def tableBundle (system table : String) (rows : List Props) (fetchedAt : String) :
    ParsedBundle where
  provenance := src.provenance fetchedAt
  entities := [{
    uid := system ++ "." ++ table
    candidateLabels := ["Widget"]
    attributes := .ofList [("system", .str system), ("table", .str table)]
    columns := (columnNames rows).map fun name => {
      system, table, name
      dtype := inferDtype rows name
      sampleValues := ((rows.take 3).filterMap (cell name)).map Value.pyStr } }]

theorem router_eq : src.router = .ok
    ⟨.ofList [("rows", src.parseRows), ("prose", src.parseProse)]⟩ := rfl

omit [ObjectTypes] in
theorem router_parse {r : ParserRouter} {artifact : RawArtifact}
    (hparser : r.parsers.get? artifact.artifactType = some parser)
    (hparse : parser artifact = .ok b) (hversioned : ParserRouter.assertVersioned b = .ok ()) :
    r.parse artifact = .ok b := by
  simp only [ParserRouter.parse, hparser]
  rw [hparse]
  change (ParserRouter.assertVersioned b >>= fun _ => Except.ok b) = _
  rw [hversioned]
  rfl

theorem parse_rows {artifact : RawArtifact} (htype : artifact.artifactType = "rows")
    (hparse : src.parseRows artifact = .ok b)
    (hversioned : ParserRouter.assertVersioned b = .ok ()) : src.parse artifact = .ok b := by
  rw [parse, router_eq]
  refine router_parse ?_ hparse hversioned
  rw [htype]
  rfl

theorem parse_prose {artifact : RawArtifact} (htype : artifact.artifactType = "prose")
    (hparse : src.parseProse artifact = .ok b)
    (hversioned : ParserRouter.assertVersioned b = .ok ()) : src.parse artifact = .ok b := by
  rw [parse, router_eq]
  refine router_parse ?_ hparse hversioned
  rw [htype]
  rfl

/-- The artifact of a table. -/
def tableArtifact (system table : String) (rows : List Props) : RawArtifact where
  itemId := "rows:" ++ system ++ "." ++ table
  sourceRef := src.sourceRef
  artifactType := "rows"
  payload := .rows rows
  fetchedAt := src.clock (src.tableItem system table)

omit [ObjectTypes] in
theorem pull_tableItem (h : src.api.tables.get? (system, table) = some rows) :
    src.pull (src.tableItem system table) = .ok (src.tableArtifact system table rows) := by
  have hrows : src.api.getRows system table = .ok rows := by
    rw [InMemoryRestStub.getRows, h]
  have hsystem : metadataText (src.tableItem system table) "system" = .ok system := rfl
  have htable : metadataText (src.tableItem system table) "table" = .ok table := rfl
  have htype : (src.tableItem system table).artifactType = "rows" := rfl
  rw [pull, if_pos htype, hsystem, htable]
  change (src.api.getRows system table >>= fun rows => _) = _
  rw [hrows]
  rfl

theorem parseRows_eq {artifact : RawArtifact} (hpayload : artifact.payload = .rows rows)
    (hid : splitOnce ':' artifact.itemId = .ok (kind, ref))
    (href : splitOnce '.' ref = .ok (system, table)) :
    src.parseRows artifact = .ok (src.tableBundle system table rows artifact.fetchedAt) := by
  simp only [parseRows, hpayload, hid]
  change splitOnce '.' ref >>= _ = _
  rw [href]
  rfl

omit [Python] [ObjectTypes] in
theorem split_artifactId (system table : String) (rows : List Props) :
    splitOnce ':' (src.tableArtifact system table rows).itemId =
      .ok ("rows", system ++ "." ++ table) :=
  splitOnce_eq (by simp [tableArtifact]) (by simp)

theorem parse_of_split (hsplit : splitOnce '.' (system ++ "." ++ table) = .ok (system', table'))
    (rows : List Props) : src.parse (src.tableArtifact system table rows) =
      .ok (src.tableBundle system' table' rows (src.clock (src.tableItem system table))) := by
  have hparse := src.parseRows_eq rfl (src.split_artifactId system table rows) hsplit
  exact src.parse_rows rfl hparse <| ParserRouter.assertVersioned_ok
    (by simp [ParsedBundle.iterColumns, tableBundle]) nofun (by simp [tableBundle]) rfl

/-- The parser takes the identifier apart at the first dot. -/
theorem parse_tableArtifact (system table : String) (rows : List Props) :
    ∃ system' table', '.' ∉ system'.toList ∧
      ('.' ∉ system.toList → system' = system ∧ table' = table) ∧
      src.parse (src.tableArtifact system table rows) =
        .ok (src.tableBundle system' table' rows (src.clock (src.tableItem system table))) := by
  obtain ⟨system', table', hsplit⟩ : ∃ system' table',
      splitOnce '.' (system ++ "." ++ table) = .ok (system', table') :=
    splitOnce_of_mem (by simp)
  refine ⟨system', table', splitOnce_fst hsplit, fun hdot => ?_, src.parse_of_split hsplit rows⟩
  have hfirst : splitOnce '.' (system ++ "." ++ table) = .ok (system, table) :=
    splitOnce_eq (by simp) hdot
  cases hfirst.symm.trans hsplit
  exact ⟨rfl, rfl⟩

/-- The artifact of a document. -/
def documentArtifact (uri : String) (doc : Props) : RawArtifact where
  itemId := "prose:" ++ uri
  sourceRef := src.sourceRef
  artifactType := "prose"
  payload := .document doc
  fetchedAt := src.clock (src.documentItem uri)

omit [ObjectTypes] in
theorem pull_documentItem (h : src.api.documents.get? uri = some doc) :
    src.pull (src.documentItem uri) = .ok (src.documentArtifact uri doc) := by
  have hdoc : src.api.getDocument uri = .ok doc := by
    rw [InMemoryRestStub.getDocument, h]
  have huri : metadataText (src.documentItem uri) "uri" = .ok uri := rfl
  have htype : ¬ (src.documentItem uri).artifactType = "rows" :=
    show ¬ "prose" = "rows" by decide
  rw [pull, if_neg htype, huri]
  change (src.api.getDocument uri >>= fun doc => _) = _
  rw [hdoc]
  rfl

/-- The bundle that is parsed from a document. -/
def documentBundle (uri : String) (doc : Props) (fetchedAt : String) : ParsedBundle where
  provenance := src.provenance fetchedAt
  documents := [{
    uri
    title := (doc.get? "title").bind Value.str?
    text := ((doc.get? "text").getD (.str "")).pyStr
    asOf := (doc.get? "as_of").bind Value.str? }]

theorem parse_documentArtifact (uri : String) (doc : Props) :
    src.parse (src.documentArtifact uri doc) =
      .ok (src.documentBundle uri doc (src.clock (src.documentItem uri))) := by
  have hparse : src.parseProse (src.documentArtifact uri doc) =
      .ok (src.documentBundle uri doc (src.clock (src.documentItem uri))) := by
    rw [parseProse]
    change splitOnce ':' (src.documentItem uri).itemId >>= _ = _
    rw [split_documentId]
    rfl
  have hversioned : ParserRouter.assertVersioned
      (src.documentBundle uri doc (src.clock (src.documentItem uri))) = .ok () :=
    ParserRouter.assertVersioned_ok (by simp [ParsedBundle.iterColumns, documentBundle])
      (by simp [documentBundle]) (by simp [documentBundle]) rfl
  exact src.parse_prose rfl hparse hversioned

/-! ## Records -/

/-- The records of a table: its columns, and an entity that is named after it. -/
structure IsTable (system table : String) (rows : List Props) (b : ParsedBundle) : Prop where
  columns : b.iterColumns.map ObservedColumn.key =
    (columnNames rows).map fun name => (system, table, name)
  entities : ∀ ent ∈ b.entities, ent.attributes.get? "system" = some (.str system) ∧
    ent.attributes.get? "table" = some (.str table)
  entity : b.entities.length = 1
  documents : b.documents = []
  relations : b.relations = []

/-- The records of a document. -/
structure IsProse (uri : String) (b : ParsedBundle) : Prop where
  documents : b.documents.map ObservedDocument.uri = [uri]
  columns : b.iterColumns = []
  entities : b.entities = []
  relations : b.relations = []

theorem isTable_tableBundle (system table : String) (rows : List Props) (fetchedAt : String) :
    IsTable system table rows (src.tableBundle system table rows fetchedAt) where
  columns := by
    simp only [ParsedBundle.iterColumns, tableBundle, List.flatMap_cons, List.flatMap_nil,
      List.append_nil, List.nil_append, List.map_map]
    rfl
  entities := List.forall_mem_singleton.mpr ⟨rfl, rfl⟩
  entity := rfl
  documents := rfl
  relations := rfl

end SyntheticSource

/-! ## Columns in the graph -/

open InMemoryGraphStore

namespace IngestRun

variable {run : IngestRun InMemoryGraphStore} {w w' : IngestState InMemoryGraphStore}

omit [ObjectTypes] in
/-- A loop takes no node away. -/
theorem known_loop (report : IngestReport) (items : List WorkItem)
    (hn : Known handler n w.world.store) :
    Known handler n ((run.loop report items).run (run.answers handler) w).2.world.store := by
  have hkeeps : Keeps (fun _ => True) fun _ g => Known InMemoryGraphStore.handler n g :=
    .of_graph fun write _ _ => known_write write
  have huses : (run.loop report items).Uses
      (Ingests (Reaches (Makes fun _ => True) run.resolver.queue)) := by
    refine .foldlM (fun item _ report => ingestItem_uses _ _ _ report item fun _ b _ => ?_) report
    exact (loadBundle_uses run.client run.resolver b).mono fun _ hc =>
      hc.mono fun _ hc => hc.mono fun _ _ => trivial
  exact hkeeps.run_ingest (l := []) huses hn

omit [ObjectTypes] in
/-- The nodes that an ingested bundle brings. -/
theorem known_takeUp
    (hturn : run.takeUp handler item w = (.ok (.ingested bundle resolutions), w'))
    (hn : bundle.Carries n) : Known handler n w'.world.store := by
  obtain ⟨_, -, -, hload⟩ := takeUp_ingested hturn
  exact ((InMemoryGraphStore.serves_nodes _).load run.resolver trivial
    (fun _ _ _ _ _ _ _ _ => trivial) hload).2.1 n (.inr hn)

omit [ObjectTypes] in
/-- After a loop, the nodes of the bundles that it ingested are there. -/
theorem known_loopTurns (report : IngestReport) (items : List WorkItem)
    (ht : t ∈ run.loopTurns handler items w) (hb : t.ingested? = some (bundle, resolutions))
    (hn : bundle.Carries n) :
    Known handler n ((run.loop report items).run (run.answers handler) w).2.world.store := by
  induction items generalizing report w with
  | nil => cases ht
  | cons item items ih =>
    rcases hturn : run.takeUp handler item w with ⟨e | outcome, w₁⟩
    · rw [loopTurns_error hturn, List.mem_singleton] at ht
      cases ht
      cases hb
    · rw [run_loop_ok hturn]
      rw [loopTurns_ok hturn] at ht
      rcases List.mem_cons.mp ht with rfl | ht
      · cases outcome with
        | skipped => cases hb
        | ingested bundle' resolutions' =>
          cases hb
          exact known_loop _ items (known_takeUp hturn hn)
      · exact ih _ ht

end IngestRun

/-! ## Round trips -/

namespace SyntheticSource

variable (src : SyntheticSource)

/-- The items of the connector keep apart what it holds: they have different identifiers, fetching
and parsing one gives the records of its own table or document, and a run over an empty ledger
skips none and leaves each column under its own name. -/
structure ItemsRoundTrip : Prop where
  ids : (src.discover.map WorkItem.itemId).Nodup
  tables : ∀ system table rows, src.api.tables.get? (system, table) = some rows →
    ∃ artifact b, src.pull (src.tableItem system table) = .ok artifact ∧
      src.parse artifact = .ok b ∧ IsTable system table rows b
  documents : ∀ uri doc, src.api.documents.get? uri = some doc →
    ∃ artifact b, src.pull (src.documentItem uri) = .ok artifact ∧
      src.parse artifact = .ok b ∧ IsProse uri b
  run : ∀ client resolver world,
    let run : IngestRun InMemoryGraphStore := ⟨src.toSource, client, resolver, world⟩
    (∀ t ∈ run.turns handler ∅, t.outcome ≠ .ok .skipped) ∧
      ∀ report w', run.result handler ∅ = (.ok report, w') →
        report.itemsSkipped = 0 ∧
        ∀ system table rows, src.api.tables.get? (system, table) = some rows →
          ∀ name ∈ columnNames rows, Known handler (.column system table name) w'.world.store

variable {src}

theorem tables_of_undotted (h : src.Undotted)
    (hrows : src.api.tables.get? (system, table) = some rows) :
    ∃ artifact b, src.pull (src.tableItem system table) = .ok artifact ∧
      src.parse artifact = .ok b ∧ IsTable system table rows b := by
  obtain ⟨system', table', -, hdot, hparse⟩ := src.parse_tableArtifact system table rows
  obtain ⟨rfl, rfl⟩ := hdot (h _ (Dict.mem_keys.mpr ⟨rows, hrows⟩))
  exact ⟨_, _, src.pull_tableItem hrows, hparse, src.isTable_tableBundle ..⟩

/-- No turn of a run over an empty ledger skips its item. -/
theorem none_skipped (h : src.Undotted) {run : IngestRun InMemoryGraphStore}
    (hsource : run.source = src.toSource) :
    ∀ t ∈ run.turns handler ∅, t.outcome ≠ .ok .skipped := by
  refine IngestRun.not_skipped ?_ fun _ _ => Finset.notMem_empty _
  rw [hsource]
  exact keys_nodup h

/-- After a run over an empty ledger that completes, the columns of a table are there. -/
theorem known_column (h : src.Undotted) {run : IngestRun InMemoryGraphStore}
    (hsource : run.source = src.toSource) (hrun : run.result handler ∅ = (.ok report, w'))
    (hrows : src.api.tables.get? (system, table) = some rows) (hname : name ∈ columnNames rows) :
    Known handler (.column system table name) w'.world.store := by
  -- the table's item has had its turn, and was ingested
  obtain ⟨t, ht, hitem⟩ : ∃ t ∈ run.turns handler ∅, t.item = src.tableItem system table := by
    rw [← List.mem_map, IngestRun.turns, (IngestRun.loop_ok hrun).1, hsource]
    exact List.mem_append_left _ (List.mem_map.mpr ⟨_, Dict.mem_keys.mpr ⟨rows, hrows⟩, rfl⟩)
  obtain ⟨bundle, resolutions, hingested⟩ : ∃ bundle resolutions,
      t.ingested? = some (bundle, resolutions) := by
    obtain ⟨outcome, houtcome⟩ := IngestRun.loop_returns hrun t ht
    cases outcome with
    | skipped => exact absurd houtcome (none_skipped h hsource t ht)
    | ingested bundle resolutions =>
      refine ⟨bundle, resolutions, ?_⟩
      rw [Turn.ingested?, houtcome]
  -- its bundle has the column
  obtain ⟨artifact, hfetch, hparse⟩ := IngestRun.bundle_of_loopTurns ht hingested
  obtain ⟨artifact', b, hpull, hparse', htable⟩ := tables_of_undotted h hrows
  rw [hsource] at hfetch hparse
  rw [hitem] at hfetch
  cases hfetch.symm.trans hpull
  cases hparse.symm.trans hparse'
  obtain ⟨col, hcol, hkey⟩ : ∃ col ∈ bundle.iterColumns, col.key = (system, table, name) := by
    rw [← List.mem_map, htable.columns]
    exact List.mem_map.mpr ⟨name, hname, rfl⟩
  obtain ⟨rfl, rfl, rfl⟩ : col.system = system ∧ col.table = table ∧ col.name = name := by
    simpa [ObservedColumn.key] using hkey
  have hknown := IngestRun.known_loopTurns {} run.source.discover ht hingested (.column hcol)
  have hstate : ((run.loop {} run.source.discover).run (run.answers handler)
    ⟨run.world, ∅⟩).2 = w' := congrArg Prod.snd hrun
  rwa [hstate] at hknown

/-- **Which items round-trip**: those of a connector none of whose systems has a dot in its
name. -/
theorem items_round_trip_iff : src.ItemsRoundTrip ↔ src.Undotted := by
  constructor
  · intro h key hkey
    obtain ⟨rows, hrows⟩ := Dict.mem_keys.mp hkey
    obtain ⟨artifact, b, hpull, hparse, htable⟩ := h.tables key.1 key.2 rows hrows
    obtain ⟨system', table', hdot, -, hparse'⟩ := src.parse_tableArtifact key.1 key.2 rows
    rw [src.pull_tableItem hrows] at hpull
    cases hpull
    rw [hparse'] at hparse
    cases hparse
    -- the entity carries the part before the first dot
    obtain ⟨hsystem, -⟩ := htable.entities _ List.mem_cons_self
    cases (hsystem : some (Value.str system') = some (.str key.1))
    exact hdot
  · intro h
    refine ⟨ids_nodup h, fun _ _ _ hrows => tables_of_undotted h hrows, fun uri doc hdoc => ?_,
      fun client resolver world => ?_⟩
    · exact ⟨_, _, src.pull_documentItem hdoc, src.parse_documentArtifact uri doc,
        ⟨rfl, rfl, rfl, rfl⟩⟩
    · have hnone : ∀ t ∈ IngestRun.turns handler ⟨src.toSource, client, resolver, world⟩ ∅,
          t.outcome ≠ .ok .skipped := none_skipped h rfl
      refine ⟨hnone, fun report w' hrun => ⟨IngestRun.loop_skipped hrun hnone, ?_⟩⟩
      exact fun system table rows hrows name hname => known_column h rfl hrun hrows hname

end SyntheticSource

end runs

/-- The columns of a table whose system has a dot are parsed under another system and table. -/
theorem SyntheticSource.items_round_trip_dotted :
    let api : InMemoryRestStub := {
      tables := .ofList [(("pg.public", "orders"), [.ofList [("id", .int 1)]])]
      documents := ∅
      isDocument := nofun }
    let src : SyntheticSource := { api, clock := fun _ => "2026-07-06" }
    (∃ artifact b, src.pull (src.tableItem "pg.public" "orders") = .ok artifact ∧
      src.parse artifact = .ok b ∧
      b.iterColumns.map ObservedColumn.key = [("pg", "public.orders", "id")]) ∧
    ¬ src.ItemsRoundTrip := by
  intro api src
  have hrows : src.api.tables.get? ("pg.public", "orders") = some [.ofList [("id", .int 1)]] := rfl
  have hsplit : splitOnce '.' ("pg.public" ++ "." ++ "orders") = .ok ("pg", "public.orders") := rfl
  have hparse := src.parse_of_split hsplit [.ofList [("id", .int 1)]]
  refine ⟨⟨_, _, src.pull_tableItem hrows, hparse, rfl⟩, fun h => ?_⟩
  obtain ⟨artifact, b', hpull, hparse', htable⟩ := h.tables _ _ _ hrows
  cases hpull.symm.trans (src.pull_tableItem hrows)
  cases hparse.symm.trans hparse'
  have hown : [("pg", "public.orders", "id")] = [("pg.public", "orders", "id")] := htable.columns
  exact absurd hown (by decide)

/-! ## The columns of a table -/

namespace SyntheticSource

section columns
variable [Python] [ObjectTypes]

/-- The columns are those of the rows: one for each name that occurs in a row, with the type of the
first value under it, if there is one, and the values among the first three rows as samples. -/
structure IsColumns (rows : List Props) (columns : List ObservedColumn) : Prop where
  nodup : (columns.map ObservedColumn.name).Nodup
  names : ∀ name, name ∈ columns.map ObservedColumn.name ↔ ∃ row ∈ rows, name ∈ row.keys
  dtype : ∀ c ∈ columns, c.dtype = (rows.filterMap (cell c.name)).head?.map Value.typeName
  samples : ∀ c ∈ columns,
    c.sampleValues = ((rows.take 3).filterMap (cell c.name)).map Value.pyStr

omit [Python] [ObjectTypes] in
theorem mem_columnNames {rows : List Props} :
    name ∈ columnNames rows ↔ ∃ row ∈ rows.head?, name ∈ row.keys := by
  cases rows <;> simp [columnNames]

omit [Python] [ObjectTypes] in
theorem columnNames_nodup (rows : List Props) : (columnNames rows).Nodup := by
  cases rows with
  | nil => exact .nil
  | cons row rows => exact row.nodup

/-- **Which rows are parsed in full**: those whose names all occur in the first row. -/
theorem parseRows_complete_iff (src : SyntheticSource) {artifact : RawArtifact}
    (hpayload : artifact.payload = .rows rows)
    (hid : splitOnce ':' artifact.itemId = .ok (kind, ref))
    (href : splitOnce '.' ref = .ok (system, table)) :
    (∃ b, src.parseRows artifact = .ok b ∧ IsColumns rows b.iterColumns) ↔
      ∀ row ∈ rows, ∀ name ∈ row.keys, ∃ first ∈ rows.head?, name ∈ first.keys := by
  rw [src.parseRows_eq hpayload hid href]
  have hcolumns : (src.tableBundle system table rows artifact.fetchedAt).iterColumns =
      (columnNames rows).map fun name => {
        system, table, name
        dtype := inferDtype rows name
        sampleValues := ((rows.take 3).filterMap (cell name)).map Value.pyStr } := by
    simp [ParsedBundle.iterColumns, tableBundle]
  have hnames : (src.tableBundle system table rows artifact.fetchedAt).iterColumns.map
      ObservedColumn.name = columnNames rows := by
    rw [hcolumns, List.map_map]
    exact List.map_id _
  constructor
  · rintro ⟨b, hb, hcomplete⟩ row hrow name hname
    cases hb
    have hmem := (hcomplete.names name).mpr ⟨row, hrow, hname⟩
    rw [hnames] at hmem
    exact mem_columnNames.mp hmem
  · intro hfirst
    refine ⟨_, rfl, ?_, fun name => ?_, fun c hc => ?_, fun c hc => ?_⟩
    · rw [hnames]
      exact columnNames_nodup rows
    · rw [hnames, mem_columnNames]
      constructor
      · rintro ⟨row, hrow, hname⟩
        exact ⟨row, List.mem_of_head? hrow, hname⟩
      · rintro ⟨row, hrow, hname⟩
        exact hfirst row hrow name hname
    · rw [hcolumns] at hc
      obtain ⟨name, -, rfl⟩ := List.mem_map.mp hc
      rw [List.head?_filterMap]
      rfl
    · rw [hcolumns] at hc
      obtain ⟨name, -, rfl⟩ := List.mem_map.mp hc
      rfl

end columns

end SyntheticSource

/-- Two rows of the same shape are parsed in full. -/
theorem SyntheticSource.parseRows_complete_alike :
    let src : SyntheticSource := { api := ⟨∅, ∅, nofun⟩, clock := fun _ => "2026-07-06" }
    let rows : List Props := [
      .ofList [("sku", .null), ("weight", .int 3)],
      .ofList [("weight", .int 4), ("sku", .str "a")]]
    ∃ b, src.parseRows (src.tableArtifact "erp" "widgets" rows) = .ok b ∧
      IsColumns rows b.iterColumns :=
  (parseRows_complete_iff _ rfl (split_artifactId _ _ _ _) rfl).mpr (by decide)

/-- A column that the first row does not have is lost. -/
theorem SyntheticSource.parseRows_complete_late :
    let src : SyntheticSource := { api := ⟨∅, ∅, nofun⟩, clock := fun _ => "2026-07-06" }
    let rows : List Props := [
      .ofList [("id", .int 1)],
      .ofList [("id", .int 2), ("weight", .int 3)]]
    ∃ b, src.parseRows (src.tableArtifact "erp" "widgets" rows) = .ok b ∧
      b.iterColumns.map ObservedColumn.name = ["id"] ∧ ¬ IsColumns rows b.iterColumns := by
  intro src rows
  refine ⟨_, src.parseRows_eq rfl (src.split_artifactId _ _ _) rfl, rfl, fun h => ?_⟩
  have hmem := (h.names "weight").mpr ⟨_, List.mem_cons_of_mem _ List.mem_cons_self, by decide⟩
  exact absurd hmem (by decide)

end MarginKG
