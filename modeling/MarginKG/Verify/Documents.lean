import MarginKG.Packs.Document
import MarginKG.Verify.LoadOrder

/-! Pack files. A document is accepted when its required keys are there and no list is left blank,
and the packs that documents declare are those whose metrics have no reserved key among their
free-form attributes (`pack_documents`). What an accepted document says of a metric or a benchmark
can be read back from the graph, the last entry that says something of a property first; what it
says nothing of stays as it was (`load_pack_file_reads_back`). -/

namespace MarginKG

open InMemoryGraphStore

/-! ## What the last of several writes says -/

/-- The write changes no label but those that it sets. -/
def Write.Bare (w : Write) : Prop := ∀ f v, w.finish f v = v

theorem Write.bare_node (n : NodeRef) (setProps : Props) : (node n setProps []).Bare := by
  intro f v
  simp only [finish]
  split
  · rcases v with _ | v
    · rfl
    · cases v <;> simp [addLabels]
  · rfl

/-- What a sequence of writes says of a property at a place: what the last of them says that says
something. -/
def statesLast (p : Place) (f : String) (ws : List Write) : Option Value :=
  ws.reverse.findSome? fun w => if w.place = p then w.setProps.get? f else none

theorem statesLast_concat (p : Place) (f : String) (ws : List Write) (w : Write) :
    statesLast p f (ws ++ [w]) =
      (if w.place = p then w.setProps.get? f else none).or (statesLast p f ws) := by
  rw [statesLast, List.reverse_append, List.reverse_singleton, List.singleton_append,
    List.findSome?_cons]
  rcases (if w.place = p then w.setProps.get? f else none) with _ | v <;> rfl

/-- A property is what the writes say of it last, or what it was. -/
theorem writeAll_old {ws : List Write} (hws : ∀ w ∈ ws, w.Bare) (w₀ : Write)
    (A : Place → Stored) (f : String) :
    w₀.old (writeAll writes.act ws A w₀.place) f =
      (statesLast w₀.place f ws).or (w₀.old (A w₀.place) f) := by
  induction ws using List.reverseRecOn with
  | nil => rfl
  | append_singleton ws w ih =>
    have ih := ih fun v hv => hws v (List.mem_append_left _ hv)
    have hbare := hws w (List.mem_append_right _ (List.mem_singleton_self w))
    rw [writeAll_append, statesLast_concat, writeAll_cons, writeAll_nil]
    by_cases hw : w.place = w₀.place
    · have hact : writes.act w (writeAll writes.act ws A) w₀.place =
          w.update (writeAll writes.act ws A w₀.place) := by
        rw [← hw]
        exact writes.act_self w _
      have hold : w₀.old (w.update (writeAll writes.act ws A w₀.place)) f =
          (w.setProps.get? f).or (w₀.old (writeAll writes.act ws A w₀.place) f) := by
        rw [← Write.old_congr hw, ← Write.old_congr hw]
        exact hbare f ((w.setProps.get? f).or (w.old (writeAll writes.act ws A w₀.place) f))
      rw [hact, hold, if_pos hw, ih, Option.or_assoc]
    · rw [writes.act_of_ne _ (Ne.symm hw), if_neg hw, Option.none_or, ih]

/-- The same of the properties of a node. -/
theorem InMemoryGraphStore.node_writes {ws : List Write} (hws : ∀ w ∈ ws, w.Bare)
    {g g' : InMemoryGraphStore} (h : g'.contents = writeAll writes.act ws g.contents)
    (n : NodeRef) (f : String) :
    (g'.node n).get? f = (statesLast (.inl n.id) f ws).or ((g.node n).get? f) := by
  have hold := writeAll_old hws (.node n ∅ []) g.contents f
  rw [← h] at hold
  change (Write.node n ∅ []).old (g'.contents (.inl n.id)) f = _ at hold
  rwa [g'.old_node n ∅ [], Write.place, g.old_node n ∅ []] at hold

theorem findSome?_forall₂ {α β γ : Type} {R : α → β → Prop} {l : List α} {l' : List β}
    {f : α → Option γ} {f' : β → Option γ} (h : List.Forall₂ R l l')
    (hf : ∀ {a b}, R a b → f a = f' b) : l.findSome? f = l'.findSome? f' := by
  induction h with
  | nil => rfl
  | cons hab _ ih => rw [List.findSome?_cons, List.findSome?_cons, hf hab, ih]

/-! ## What a document says -/

/-- What an entry says of a property of its metric. A null says nothing, and neither does an empty
list of aliases. -/
def MetricEntry.states (m : MetricEntry) (f : String) : Option Value :=
  if f = "metric_key" then none
  else if f = "aliases" then
    (((m.fields.get? f).bind Value.iter).filter (· ≠ [])).map .list
  else (m.fields.get? f).filter (· ≠ .null)

/-- What an entry says of a property of its benchmark. -/
def BenchmarkEntry.states (b : BenchmarkEntry) (f : String) : Option Value :=
  match b.attributes with
  | .given attributes => (attributes.get? f).filter (· ≠ .null)
  | .absent | .blank => none

/-- The node that an entry is for. -/
def MetricEntry.node (m : MetricEntry) : Option NodeRef :=
  (m.text "metric_key").map fun k => .metric (.str k)

def BenchmarkEntry.node (b : BenchmarkEntry) : Option NodeRef := b.benchmarkKey.map .benchmark

namespace PackDocument

/-- What a document says of a property of a node: what the last entry for the node says that says
something. -/
def states (data : PackDocument) (n : NodeRef) (f : String) : Option Value :=
  (data.benchmarks.items.reverse.findSome? fun b =>
      if b.node = some n then b.states f else none).or
    (data.metrics.items.reverse.findSome? fun m =>
      if m.node = some n then m.states f else none)

/-- The document has an entry for the node. -/
def Declares (data : PackDocument) (n : NodeRef) : Prop :=
  some n ∈ data.metrics.items.map MetricEntry.node ∨
    some n ∈ data.benchmarks.items.map BenchmarkEntry.node

/-- The graph `g'` is `g` with what the document says. -/
structure Stored (data : PackDocument) (g g' : InMemoryGraphStore) : Prop where
  node : ∀ n f, (g'.node n).get? f = (data.states n f).or ((g.node n).get? f)
  known : ∀ n : NodeRef, n.id ∈ g'.nodes.keys ↔ n.id ∈ g.nodes.keys ∨ data.Declares n
  rest : ∀ p, (∀ n : NodeRef, data.Declares n → p ≠ .inl n.id) → g'.contents p = g.contents p

end PackDocument

theorem required_ok {x : Option String} : required key x = .ok s ↔ x = some s := by
  rcases x with _ | t
  · exact ⟨nofun, nofun⟩
  · rw [required, Except.ok.injEq, Option.some.injEq]

theorem Entry.getD_ok {e : Entry (List α)} (h : e.getD [] = .ok l) : e.items = l := by
  rcases e with _ | _ | l' <;> cases h <;> rfl

namespace MetricEntry

theorem aliases_ok {m : MetricEntry} (h : m.aliases = .ok as) :
    ((m.fields.get? "aliases").bind Value.iter).getD [] = as.map .str := by
  rw [aliases] at h
  rcases hv : m.fields.get? "aliases" with _ | v <;> rw [hv] at h
  · cases h
    rfl
  dsimp only at h
  rcases hitems : v.iter with _ | items <;> rw [hitems] at h <;> cases h
  rw [Option.bind_some, hitems, Option.getD_some]
  have hstr : ∀ x ∈ items, x.str?.isSome := m.isEntry.2.2 v hv items hitems
  clear hitems
  induction items with
  | nil => rfl
  | cons x items ih =>
    rw [List.forall_mem_cons] at hstr
    have htail := ih hstr.2
    cases x <;> first | exact congrArg (Value.str _ :: ·) htail | cases hstr.1

/-- The metric of an entry. -/
theorem metricDef_ok {m : MetricEntry} (h : m.metricDef = .ok d) :
    m.text "metric_key" = some d.metricKey ∧ m.aliases = .ok d.aliases ∧
      d = { d with
        formula := m.text "formula"
        unit := m.text "unit"
        numeratorDef := m.text "numerator_def"
        denominatorDef := m.text "denominator_def"
        provenance := m.text "provenance"
        attributes := m.fields.filter fun k _ => k ∉ reservedMetricKeys } := by
  rw [metricDef] at h
  rcases hkey : required "metric_key" (m.text "metric_key") with e | k <;> rw [hkey] at h
  · cases h
  rcases has : m.aliases with e | as <;> rw [has] at h <;> cases h
  exact ⟨required_ok.mp hkey, rfl, rfl⟩

/-- A text field states its text. -/
theorem ofOption_text (m : MetricEntry) {f : String}
    (hf : f ∈ ["formula", "unit", "numerator_def", "denominator_def", "provenance"]) :
    (some (Value.ofOption (m.text f))).filter (· ≠ .null) =
      (m.fields.get? f).filter (· ≠ .null) := by
  rw [text]
  rcases hv : m.fields.get? f with _ | v
  · rfl
  rcases m.isEntry.2.1 f hf v hv with rfl | hstr
  · rfl
  · cases v <;> first | rfl | cases hstr

/-- Beside the arguments of `upsert_metric`, the write of a metric sets what its entry has under a
key that is not reserved, and the aliases. -/
theorem attrs_get? {m : MetricEntry} (h : m.metricDef = .ok d) (f : String) :
    d.attrs.get? f = if f = "aliases" then
      (((m.fields.get? f).bind Value.iter).filter (· ≠ [])).map .list
    else (m.fields.get? f).filter fun _ => f ∉ reservedMetricKeys := by
  obtain ⟨-, has, hd⟩ := metricDef_ok h
  have hattrs : d.attributes.get? f = (m.fields.get? f).filter fun _ => f ∉ reservedMetricKeys := by
    rw [hd]
    exact Dict.get?_filter ..
  have haliases := aliases_ok has
  rw [MetricDef.attrs]
  by_cases hf : f = "aliases"
  · subst hf
    have hnone : d.attributes.get? "aliases" = none := by
      rw [hattrs]
      rcases m.fields.get? "aliases" with _ | v <;> rfl
    rw [if_pos rfl]
    rcases hitems : (m.fields.get? "aliases").bind Value.iter with _ | items <;>
      rw [hitems] at haliases
    · rw [List.map_eq_nil_iff.mp haliases.symm, if_pos rfl, hnone]
      rfl
    · have hitems : items = d.aliases.map .str := haliases
      rcases has : d.aliases with _ | ⟨a, as⟩ <;> rw [has] at hitems <;> subst hitems
      · rw [if_pos rfl, hnone]
        rfl
      · rw [if_neg (List.cons_ne_nil a as), Dict.get?_set_self]
        rfl
  · rw [if_neg hf, ← hattrs]
    split
    · rfl
    · exact Dict.get?_set_of_ne (Ne.symm hf)

/-- The write of a metric sets what its entry says. -/
theorem setProps_write {m : MetricEntry} (h : m.metricDef = .ok d) (f : String) :
    d.write.setProps.get? f = m.states f := by
  rw [states, MetricDef.write, Write.setProps]
  by_cases hf : f ∈ ["formula", "unit", "numerator_def", "denominator_def", "provenance"]
  · have hreserved : f ∈ reservedMetricKeys :=
      List.mem_cons_of_mem _ (List.mem_append_left ["aliases"] hf)
    have hkey : f ≠ "metric_key" ∧ f ≠ "aliases" := by
      constructor <;> rintro rfl <;> simp at hf
    have hnone : d.attrs.get? f = none := by
      rw [attrs_get? h, if_neg hkey.2]
      simp [hreserved]
    obtain ⟨-, -, hd⟩ := metricDef_ok h
    rw [if_neg hkey.1, if_neg hkey.2, get?_clean, metricProps, Dict.get?_update,
      Dict.get?_ofList (by simp), hnone, Option.none_or, hd, ← m.ofOption_text hf]
    simp only [List.mem_cons, List.not_mem_nil, or_false] at hf
    rcases hf with rfl | rfl | rfl | rfl | rfl <;> rfl
  rw [get?_metricProps hf, get?_clean, attrs_get? h]
  by_cases hkey : f = "metric_key"
  · subst hkey
    rw [if_pos rfl]
    rcases m.fields.get? "metric_key" with _ | v <;> rfl
  rw [if_neg hkey]
  split
  · generalize (Option.bind _ _).filter _ = x
    rcases x with _ | items <;> rfl
  · have hfree : f ∉ reservedMetricKeys := by
      simp only [reservedMetricKeys, List.mem_cons, List.not_mem_nil, or_false] at hf ⊢
      tauto
    simp [hfree]

end MetricEntry

theorem BenchmarkEntry.benchmarkDef_ok {b : BenchmarkEntry} :
    b.benchmarkDef = .ok d ↔
      b.benchmarkKey = some d.benchmarkKey ∧ b.attributes.getD ∅ = .ok d.attributes := by
  simp only [benchmarkDef, Program.bind_eq_ok, required_ok]
  constructor
  · rintro ⟨k, hkey, attributes, hattrs, h⟩
    cases h
    exact ⟨hkey, hattrs⟩
  · rintro ⟨hkey, hattrs⟩
    exact ⟨_, hkey, _, hattrs, rfl⟩

/-- The write of a benchmark sets what its entry says. -/
theorem BenchmarkEntry.setProps_write {b : BenchmarkEntry} (h : b.benchmarkDef = .ok d)
    (f : String) : d.write.setProps.get? f = b.states f := by
  obtain ⟨-, hattrs⟩ := benchmarkDef_ok.mp h
  rw [states, BenchmarkDef.write, Write.setProps, get?_clean]
  rcases hb : b.attributes with _ | _ | attributes <;> rw [hb] at hattrs
  · rw [← Except.ok.inj hattrs]
    rfl
  · cases hattrs
  · rw [← Except.ok.inj hattrs]

/-- The document declares the pack. -/
structure PackDocument.Describes (data : PackDocument) (pack : Pack) : Prop where
  name : data.name = some pack.name
  «namespace» : data.namespace = pack.namespace
  entitySubtypes : data.entitySubtypes.getD [] = .ok pack.entitySubtypes
  edgeTypes : data.edgeTypes.getD [] = .ok pack.edgeTypes
  metrics : ∃ ms, data.metrics.getD [] = .ok ms ∧
    List.Forall₂ (fun m d => m.metricDef = .ok d) ms pack.metrics
  benchmarks : ∃ bs, data.benchmarks.getD [] = .ok bs ∧
    List.Forall₂ (fun b d => b.benchmarkDef = .ok d) bs pack.benchmarks

theorem packFromDict_ok {data : PackDocument} {pack : Pack} :
    packFromDict data = .ok pack ↔ data.Describes pack := by
  simp only [packFromDict, Program.bind_eq_ok, required_ok]
  constructor
  · rintro ⟨name, hname, sub, hsub, edge, hedge, ms, hms, ds, hds, bs, hbs, es, hes, h⟩
    cases h
    exact ⟨hname, rfl, hsub, hedge, ⟨ms, hms, Program.mapM_eq_ok.mp hds⟩,
      ⟨bs, hbs, Program.mapM_eq_ok.mp hes⟩⟩
  · rintro ⟨hname, hns, hsub, hedge, ⟨ms, hms, hds⟩, bs, hbs, hes⟩
    exact ⟨_, hname, _, hsub, _, hedge, _, hms, _, Program.mapM_eq_ok.mpr hds, _, hbs, _,
      Program.mapM_eq_ok.mpr hes, by rw [hns]; rfl⟩

/-! ## The writes of a document -/

theorem MetricDef.place_eq {d : MetricDef} {n : NodeRef} :
    d.write.place = .inl n.id ↔ .metric (.str d.metricKey) = n := by
  rw [write, Write.place, Sum.inl.injEq, NodeRef.id_injective.eq_iff]

theorem BenchmarkDef.place_eq {d : BenchmarkDef} {n : NodeRef} :
    d.write.place = .inl n.id ↔ .benchmark d.benchmarkKey = n := by
  rw [write, Write.place, Sum.inl.injEq, NodeRef.id_injective.eq_iff]

/-- The catalog of the pack that a document declares states what the document states. -/
theorem PackDocument.Describes.statesLast {data : PackDocument} {pack : Pack}
    (h : data.Describes pack) (n : NodeRef) (f : String) :
    MarginKG.statesLast (.inl n.id) f pack.catalog = data.states n f := by
  obtain ⟨ms, hms, hds⟩ := h.metrics
  obtain ⟨bs, hbs, hes⟩ := h.benchmarks
  rw [MarginKG.statesLast, Pack.catalog, List.reverse_append, List.findSome?_append,
    ← List.map_reverse, ← List.map_reverse, List.findSome?_map, List.findSome?_map, states,
    Entry.getD_ok hms, Entry.getD_ok hbs]
  congr 1
  · refine (findSome?_forall₂ (List.forall₂_reverse_iff.mpr hes) fun {b d} hd => ?_).symm
    rw [Function.comp_apply, BenchmarkEntry.setProps_write hd, BenchmarkEntry.node,
      (BenchmarkEntry.benchmarkDef_ok.mp hd).1]
    simp only [Option.map_some, Option.some.injEq, BenchmarkDef.place_eq]
  · refine (findSome?_forall₂ (List.forall₂_reverse_iff.mpr hds) fun {m d} hd => ?_).symm
    rw [Function.comp_apply, MetricEntry.setProps_write hd, MetricEntry.node,
      (MetricEntry.metricDef_ok hd).1]
    simp only [Option.map_some, Option.some.injEq, MetricDef.place_eq]

/-- The pack writes to the nodes that the document has entries for. -/
theorem PackDocument.Describes.nodes {data : PackDocument} {pack : Pack} (h : data.Describes pack)
    {n : NodeRef} : n.id ∈ pack.catalog.filterMap Write.nodeKey? ↔ data.Declares n := by
  obtain ⟨ms, hms, hds⟩ := h.metrics
  obtain ⟨bs, hbs, hes⟩ := h.benchmarks
  have hmetrics : ms.map MetricEntry.node = pack.metrics.map fun d =>
      some (.metric (.str d.metricKey)) := by
    rw [← List.forall₂_eq_eq_eq, List.forall₂_map_left_iff, List.forall₂_map_right_iff]
    refine hds.imp fun m d hd => ?_
    rw [MetricEntry.node, (MetricEntry.metricDef_ok hd).1]
    rfl
  have hbenchmarks : bs.map BenchmarkEntry.node = pack.benchmarks.map fun d =>
      some (.benchmark d.benchmarkKey) := by
    rw [← List.forall₂_eq_eq_eq, List.forall₂_map_left_iff, List.forall₂_map_right_iff]
    refine hes.imp fun b d hd => ?_
    rw [BenchmarkEntry.node, (BenchmarkEntry.benchmarkDef_ok.mp hd).1]
    rfl
  rw [Declares, Entry.getD_ok hms, Entry.getD_ok hbs, hmetrics, hbenchmarks, Pack.catalog,
    List.filterMap_append, List.mem_append, List.filterMap_map, List.filterMap_map]
  refine or_congr ?_ ?_
  · simp only [List.mem_filterMap, List.mem_map, Option.some.injEq, Function.comp_apply]
    refine exists_congr fun d => and_congr_right fun _ => ?_
    rw [MetricDef.write, Write.nodeKey?, Option.some.injEq, NodeRef.id_injective.eq_iff]
  · simp only [List.mem_filterMap, List.mem_map, Option.some.injEq, Function.comp_apply]
    refine exists_congr fun d => and_congr_right fun _ => ?_
    rw [BenchmarkDef.write, Write.nodeKey?, Option.some.injEq, NodeRef.id_injective.eq_iff]

theorem Pack.catalog_bare (pack : Pack) : ∀ w ∈ pack.catalog, w.Bare := by
  intro w hw
  rcases mem_catalog.mp hw with ⟨m, -, rfl⟩ | ⟨b, -, rfl⟩ <;> exact Write.bare_node _ _

/-- The graph after the writes of a pack has what its document says. -/
theorem PackDocument.Describes.stored {data : PackDocument} {pack : Pack}
    (h : data.Describes pack) {g g' : InMemoryGraphStore}
    (hrun : pack.loadCatalog.run handler g = (.ok (), g')) : data.Stored g g' := by
  rw [pack.loadCatalog_eq] at hrun
  obtain ⟨hcontents, hkeys⟩ := run_writes_ok hrun
  refine ⟨fun n f => ?_, fun n => ?_, fun p hp => ?_⟩
  · rw [node_writes pack.catalog_bare hcontents, h.statesLast]
  · rw [hkeys, List.mem_append, Entries.mem_newKeys, h.nodes]
    tauto
  · rw [hcontents]
    refine writes.writeAll_of_not_mem (fun w hw hplace => ?_) _
    rcases Pack.mem_catalog.mp hw with ⟨m, hm, rfl⟩ | ⟨b, hb, rfl⟩
    · have hnode : some (NodeRef.metric (.str m.metricKey)).id = m.write.nodeKey? := rfl
      exact hp _ (h.nodes.mp (List.mem_filterMap.mpr ⟨_, hw, hnode.symm⟩)) hplace.symm
    · have hnode : some (NodeRef.benchmark b.benchmarkKey).id = b.write.nodeKey? := rfl
      exact hp _ (h.nodes.mp (List.mem_filterMap.mpr ⟨_, hw, hnode.symm⟩)) hplace.symm

section loads
variable [Python]

/-- **What a pack file states can be read back**: when `load_pack_file` returns, the graph has what
the document states, the last entry that states something of a property first, and is otherwise as
it was; and the client allows what it allowed and what the document lists. -/
theorem load_pack_file_reads_back {c : GraphClient} {data : PackDocument}
    {g g' : InMemoryGraphStore}
    (h : (loadPackFile c data).2.run handler g = (.ok pack, g')) :
    data.Stored g g' ∧ (loadPackFile c data).1 =
      c.registerAllowlists data.entitySubtypes.items data.edgeTypes.items := by
  rw [loadPackFile] at h ⊢
  rcases hdata : packFromDict data with e | pack' <;> rw [hdata] at h
  · cases h
  have hdescribes := packFromDict_ok.mp hdata
  dsimp only at h ⊢
  rw [loadPack] at h ⊢
  rcases hv : pack'.validate with e | _ <;> rw [hv] at h
  · cases h
  dsimp only at h ⊢
  rcases hrun : pack'.loadCatalog.run handler g with ⟨e | _, g₁⟩
  · rw [Program.run_bind, hrun] at h
    cases h
  · rw [Program.run_bind_ok hrun] at h
    cases h
    refine ⟨hdescribes.stored hrun, ?_⟩
    rw [Entry.getD_ok hdescribes.entitySubtypes, Entry.getD_ok hdescribes.edgeTypes]

end loads

/-- The bundled pack over a metric that somebody described otherwise. -/
theorem load_pack_file_reads_back_widgets :
    let g := (handler (Write.node (.metric (.str "widgets.weight"))
      (.ofList [("unit", .str "ounce"), ("formula", .str "m")]) []).call ∅).2
    ∃ pack g', (loadPackFile ∅ PackDocument.widgets).2.run handler g = (.ok pack, g') ∧
      PackDocument.widgets.Stored g g' := by
  intro g
  have hok : ((loadPackFile ∅ PackDocument.widgets).2.run handler g).1.toOption.isSome := by
    decide +kernel
  rcases hrun : (loadPackFile ∅ PackDocument.widgets).2.run handler g with ⟨e | pack, g'⟩
  · rw [hrun] at hok
    cases hok
  · exact ⟨pack, g', rfl, (load_pack_file_reads_back hrun).1⟩

/-! ## The packs that can be written as documents -/

/-- The required keys are there, no list or mapping is left blank, and aliases can be iterated
over. -/
structure PackDocument.Complete (data : PackDocument) : Prop where
  name : data.name.isSome
  entitySubtypes : data.entitySubtypes ≠ .blank
  edgeTypes : data.edgeTypes ≠ .blank
  metrics : data.metrics ≠ .blank
  benchmarks : data.benchmarks ≠ .blank
  metric : ∀ m ∈ data.metrics.items, (m.text "metric_key").isSome ∧
    ∀ v ∈ m.fields.get? "aliases", v.iter.isSome
  benchmark : ∀ b ∈ data.benchmarks.items, b.benchmarkKey.isSome ∧ b.attributes ≠ .blank

theorem Entry.getD_ok_iff {d : α} {e : Entry α} : (∃ a, e.getD d = .ok a) ↔ e ≠ .blank := by
  cases e <;> simp [getD]

theorem MetricEntry.aliases_ok_iff {m : MetricEntry} :
    (∃ as, m.aliases = .ok as) ↔ ∀ v ∈ m.fields.get? "aliases", v.iter.isSome := by
  rw [aliases]
  rcases m.fields.get? "aliases" with _ | v
  · simp
  · rcases h : v.iter with _ | items <;> simp [h]

theorem MetricEntry.metricDef_ok_iff {m : MetricEntry} : (∃ d, m.metricDef = .ok d) ↔
    (m.text "metric_key").isSome ∧ ∀ v ∈ m.fields.get? "aliases", v.iter.isSome := by
  rw [← aliases_ok_iff, Option.isSome_iff_exists]
  constructor
  · rintro ⟨d, h⟩
    obtain ⟨hkey, has, -⟩ := metricDef_ok h
    exact ⟨⟨_, hkey⟩, _, has⟩
  · rintro ⟨⟨k, hkey⟩, as, has⟩
    simp only [metricDef, Program.bind_eq_ok, required_ok]
    exact ⟨_, k, hkey, as, has, rfl⟩

theorem BenchmarkEntry.benchmarkDef_ok_iff {b : BenchmarkEntry} :
    (∃ d, b.benchmarkDef = .ok d) ↔ b.benchmarkKey.isSome ∧ b.attributes ≠ .blank := by
  rw [← Entry.getD_ok_iff (d := ∅), Option.isSome_iff_exists]
  constructor
  · rintro ⟨d, h⟩
    obtain ⟨hkey, hattrs⟩ := benchmarkDef_ok.mp h
    exact ⟨⟨_, hkey⟩, _, hattrs⟩
  · rintro ⟨⟨k, hkey⟩, attributes, hattrs⟩
    exact ⟨⟨k, attributes⟩, benchmarkDef_ok.mpr ⟨hkey, hattrs⟩⟩

/-- A document is accepted when it is complete. -/
theorem packFromDict_ok_iff {data : PackDocument} :
    (∃ pack, packFromDict data = .ok pack) ↔ data.Complete := by
  constructor
  · rintro ⟨pack, hpack⟩
    have h := packFromDict_ok.mp hpack
    obtain ⟨ms, hms, hds⟩ := h.metrics
    obtain ⟨bs, hbs, hes⟩ := h.benchmarks
    refine ⟨by rw [h.name]; rfl, Entry.getD_ok_iff.mp ⟨_, h.entitySubtypes⟩,
      Entry.getD_ok_iff.mp ⟨_, h.edgeTypes⟩, Entry.getD_ok_iff.mp ⟨_, hms⟩,
      Entry.getD_ok_iff.mp ⟨_, hbs⟩, fun m hm => ?_, fun b hb => ?_⟩
    · rw [Entry.getD_ok hms] at hm
      obtain ⟨d, -, hd⟩ := exists_mem_of_forall₂ hds.flip hm
      exact MetricEntry.metricDef_ok_iff.mp ⟨d, hd⟩
    · rw [Entry.getD_ok hbs] at hb
      obtain ⟨d, -, hd⟩ := exists_mem_of_forall₂ hes.flip hb
      exact BenchmarkEntry.benchmarkDef_ok_iff.mp ⟨d, hd⟩
  · intro h
    obtain ⟨name, hname⟩ := Option.isSome_iff_exists.mp h.name
    obtain ⟨sub, hsub⟩ := Entry.getD_ok_iff.mpr h.entitySubtypes
    obtain ⟨edge, hedge⟩ := Entry.getD_ok_iff.mpr h.edgeTypes
    obtain ⟨ms, hms⟩ := Entry.getD_ok_iff.mpr h.metrics
    obtain ⟨bs, hbs⟩ := Entry.getD_ok_iff.mpr h.benchmarks
    obtain ⟨ds, hds⟩ := Program.mapM_ok_iff.mpr fun m hm =>
      MetricEntry.metricDef_ok_iff.mpr (h.metric m (Entry.getD_ok hms ▸ hm))
    obtain ⟨es, hes⟩ := Program.mapM_ok_iff.mpr fun b hb =>
      BenchmarkEntry.benchmarkDef_ok_iff.mpr (h.benchmark b (Entry.getD_ok hbs ▸ hb))
    simp only [packFromDict, Program.bind_eq_ok, required_ok]
    exact ⟨_, name, hname, sub, hsub, edge, hedge, ms, hms, ds, hds, bs, hbs, es, hes, rfl⟩

/-- The fields of an entry that declares the metric. -/
def MetricDef.fields (m : MetricDef) : Props := m.attributes.setAll [
  ("metric_key", .str m.metricKey), ("formula", .ofOption m.formula), ("unit", .ofOption m.unit),
  ("numerator_def", .ofOption m.numeratorDef), ("denominator_def", .ofOption m.denominatorDef),
  ("provenance", .ofOption m.provenance), ("aliases", .list (m.aliases.map .str))]

theorem MetricDef.fields_get? (m : MetricDef) (f : String) : m.fields.get? f = (Entries.get? f [
    ("metric_key", Value.str m.metricKey), ("formula", .ofOption m.formula),
    ("unit", .ofOption m.unit), ("numerator_def", .ofOption m.numeratorDef),
    ("denominator_def", .ofOption m.denominatorDef), ("provenance", .ofOption m.provenance),
    ("aliases", .list (m.aliases.map .str))]).or (m.attributes.get? f) :=
  Dict.get?_setAll (by simp) ..

/-- An entry that declares the metric. -/
def MetricDef.entry (m : MetricDef) : MetricEntry where
  fields := m.fields
  isEntry := by
    simp only [IsMetricEntry, m.fields_get?]
    refine ⟨?_, fun f hf => ?_, ?_⟩
    · intro v hv
      cases hv
      rfl
    · intro v hv
      have hofOption (x : Option String) : Value.ofOption x = .null ∨
          (Value.ofOption x).str?.isSome := by
        cases x <;> simp [Value.ofOption, Value.str?]
      simp only [List.mem_cons, List.not_mem_nil, or_false] at hf
      rcases hf with rfl | rfl | rfl | rfl | rfl <;> cases hv <;> exact hofOption _
    · intro v hv items hitems x hx
      cases hv
      cases hitems
      obtain ⟨s, -, rfl⟩ := List.mem_map.mp hx
      rfl

/-- Read back, the entry declares the metric, unless an attribute has a reserved name. -/
theorem MetricDef.entry_metricDef {m : MetricDef}
    (h : ∀ k ∈ reservedMetricKeys, m.attributes.get? k = none) : m.entry.metricDef = .ok m := by
  have htext {f : String} {x : Option String} (hget : m.fields.get? f = some (.ofOption x)) :
      m.entry.text f = x := by
    change (m.fields.get? f).bind Value.str? = x
    rw [hget]
    cases x <;> rfl
  have has : m.entry.aliases = .ok m.aliases := by
    have hget : m.entry.fields.get? "aliases" = some (.list (m.aliases.map .str)) :=
      m.fields_get? "aliases"
    rw [MetricEntry.aliases, hget]
    dsimp only [Value.iter]
    rw [List.filterMap_map]
    exact congrArg Except.ok (List.filterMap_some ..)
  have hattrs : m.fields.filter (fun k _ => k ∉ reservedMetricKeys) = m.attributes := by
    have hkeys : ∀ k ∈ reservedMetricKeys, decide (k ∉ reservedMetricKeys) = false := by decide
    rw [fields, Dict.filter_setAll hkeys]
    refine Dict.filter_eq_self fun k v hv => decide_eq_true fun hk => ?_
    cases (h k hk).symm.trans hv
  simp only [MetricEntry.metricDef, Program.bind_eq_ok, required_ok]
  refine ⟨m.metricKey, htext (x := some m.metricKey) (m.fields_get? _), m.aliases, has, ?_⟩
  rw [htext (m.fields_get? "formula"), htext (m.fields_get? "unit"),
    htext (m.fields_get? "numerator_def"), htext (m.fields_get? "denominator_def"),
    htext (m.fields_get? "provenance")]
  exact congrArg (fun attributes => Except.ok { m with attributes }) hattrs

/-- The attributes of a metric that a document declares. -/
theorem MetricEntry.attributes_free {m : MetricEntry} (h : m.metricDef = .ok d) :
    ∀ k ∈ reservedMetricKeys, d.attributes.get? k = none := by
  intro k hk
  obtain ⟨-, -, hd⟩ := metricDef_ok h
  rw [hd, Dict.get?_filter]
  simp [hk]

/-- A document that declares the pack. -/
def Pack.document (pack : Pack) : PackDocument where
  name := some pack.name
  «namespace» := pack.namespace
  entitySubtypes := .given pack.entitySubtypes
  edgeTypes := .given pack.edgeTypes
  metrics := .given (pack.metrics.map MetricDef.entry)
  benchmarks := .given (pack.benchmarks.map fun b => ⟨some b.benchmarkKey, .given b.attributes⟩)

/-- Read back, the document declares the pack, unless an attribute of a metric has a reserved
name. -/
theorem Pack.document_describes {pack : Pack}
    (h : ∀ m ∈ pack.metrics, ∀ k ∈ reservedMetricKeys, m.attributes.get? k = none) :
    pack.document.Describes pack where
  name := rfl
  «namespace» := rfl
  entitySubtypes := rfl
  edgeTypes := rfl
  metrics := ⟨_, rfl, List.forall₂_map_left_iff.mpr
    (List.forall₂_same.mpr fun m hm => MetricDef.entry_metricDef (h m hm))⟩
  benchmarks := ⟨_, rfl, List.forall₂_map_left_iff.mpr (List.forall₂_same.mpr fun _ _ => rfl)⟩

/-- **Documents and packs**: `pack_from_dict` accepts the complete documents, and yields the packs
whose metrics keep the reserved keys out of their free-form attributes; each of these is what its
own document declares. -/
theorem pack_documents :
    (∀ data, (∃ pack, packFromDict data = .ok pack) ↔ data.Complete) ∧
    (∀ pack, (∃ data, packFromDict data = .ok pack) ↔
      ∀ m ∈ pack.metrics, ∀ k ∈ reservedMetricKeys, m.attributes.get? k = none) ∧
    ∀ pack : Pack, (∃ data, packFromDict data = .ok pack) →
      packFromDict pack.document = .ok pack := by
  have hfree (pack : Pack) (h : ∃ data, packFromDict data = .ok pack) :
      ∀ m ∈ pack.metrics, ∀ k ∈ reservedMetricKeys, m.attributes.get? k = none := by
    obtain ⟨data, hdata⟩ := h
    obtain ⟨ms, -, hds⟩ := (packFromDict_ok.mp hdata).metrics
    intro d hd
    obtain ⟨m, -, hm⟩ := exists_mem_of_forall₂ hds hd
    exact MetricEntry.attributes_free hm
  refine ⟨fun _ => packFromDict_ok_iff, fun pack => ⟨hfree pack, fun h => ?_⟩, fun pack h => ?_⟩
  · exact ⟨_, packFromDict_ok.mpr (Pack.document_describes h)⟩
  · exact packFromDict_ok.mpr (Pack.document_describes (hfree pack h))

end MarginKG
