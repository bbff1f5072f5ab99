import MarginKG.Theory.Interference
import MarginKG.Verify.Listings
import MarginKG.Verify.Schema

/-! Readers among writers. Nothing that either store shows is ever lost, whatever the order in which
callers make their calls (`Backend.nothing_lost`). So a `resolve_column`, which asks the store
several times, returns no less than it would have returned when it began, and no more than it would
return when it ends (`Backend.reads_between`).

`Showing` says of a store what its replies show. All that is said about a reading is derived from
it, and from writes that make a store show more and never less (`Grown`). -/

namespace MarginKG

open GraphStore

/-! ## What a store shows -/

section showing
variable {σ : Type}

/-- Which nodes there are in a store, which properties they have, and which links
`out_neighbors` finds under the name of a type. -/
structure View (σ : Type) where
  known (n : NodeRef) (s : σ) : Prop
  has (n : NodeRef) (f : String) (s : σ) : Prop
  there (relType : String) (l : Link) (s : σ) : Prop

/-- The replies of a store show its nodes and its links, while it meets the invariant `I`. -/
structure Showing (h : Handler StoreCall StoreCall.Reply PyErr σ) (I : σ → Prop) (V : View σ) :
    Prop where
  getNode : ∀ {n : NodeRef} {s x}, I s → (h (.getNode n.label.value n.key) s).1 = .ok x →
    (x = none → ¬ V.known n s) ∧
      ∀ node ∈ x, V.known n s ∧ Shows n node ∧ ∀ f, f ∈ node.keys ↔ V.has n f s
  finds : ∀ {n : NodeRef}, n.hashable → ∀ s, ∃ x,
    h (.getNode n.label.value n.key) s = (.ok x, s)
  findsAgain : ∀ {n : NodeRef} {s x}, (h (.getNode n.label.value n.key) s).1 = .ok x →
    ∀ s', ∃ x', h (.getNode n.label.value n.key) s' = (.ok x', s')
  outNeighbors : ∀ {n : NodeRef} {relType s pairs}, I s →
    (h (.outNeighbors n.label.value n.key relType) s).1 = .ok pairs →
      (∀ p ∈ pairs, ∃ l, V.there relType l s ∧ l.source = n ∧ Shows l.target p.1 ∧
        PropertyGraph.fits l.key p.2 = true) ∧
      ∀ l, V.there relType l s → l.source = n →
        ∃ p ∈ pairs, Shows l.target p.1 ∧ PropertyGraph.fits l.key p.2 = true
  listsAgain : ∀ {n : NodeRef} {relType s pairs},
    (h (.outNeighbors n.label.value n.key relType) s).1 = .ok pairs →
      ∀ s', ∃ pairs', h (.outNeighbors n.label.value n.key relType) s' = (.ok pairs', s')
  spine : ∀ {n : NodeRef} {s}, I s → V.known n s → ∀ t : RelType,
    ∃ pairs, h (.outNeighbors n.label.value n.key t.value) s = (.ok pairs, s)
  typed : ∀ {t u : RelType} {l s}, V.there t.value l s → l.relType = u.value → u = t
  target : ∀ {relType l s}, V.there relType l s → V.known l.target s

/-- The store shows what it showed. -/
structure View.Le (V : View σ) (s s' : σ) : Prop where
  known : ∀ n, V.known n s → V.known n s'
  has : ∀ n f, V.has n f s → V.has n f s'
  there : ∀ relType l, V.there relType l s → V.there relType l s'

/-- From a state of `I` the store goes on to show what it showed. -/
def View.Grows (V : View σ) (I : σ → Prop) (s s' : σ) : Prop := I s → I s' ∧ V.Le s s'

namespace View

variable {V : View σ} {I : σ → Prop} {s s' s'' : σ}

theorem Le.refl (s : σ) : V.Le s s := ⟨fun _ => id, fun _ _ => id, fun _ _ => id⟩

theorem Le.trans (h : V.Le s s') (h' : V.Le s' s'') : V.Le s s'' where
  known n hn := h'.known n (h.known n hn)
  has n f hf := h'.has n f (h.has n f hf)
  there relType l hl := h'.there relType l (h.there relType l hl)

theorem Grows.refl (s : σ) : V.Grows I s s := fun hs => ⟨hs, .refl s⟩

theorem Grows.trans (h : V.Grows I s s') (h' : V.Grows I s' s'') : V.Grows I s s'' := fun hs =>
  have h := h hs
  ⟨(h' h.1).1, h.2.trans (h' h.1).2⟩

end View

/-! ## What a reading returns -/

/-- The entry is for the same metric, and lists the same entities at least. -/
def GraphClient.ResolvedMetric.Within (m m' : GraphClient.ResolvedMetric) : Prop :=
  m'.metric.get? "metric_key" = m.metric.get? "metric_key" ∧
    ∀ x ∈ m.appliesTo, ∃ x' ∈ m'.appliesTo, x'.get? "uid" = x.get? "uid"

/-- A column that was found is found again, with the same identity and the same entries at
least. -/
def GraphClient.ResolvedColumn.Within (a a' : Option GraphClient.ResolvedColumn) : Prop :=
  ∀ rc ∈ a, ∃ rc' ∈ a',
    (∀ f ∈ CoreLabel.column.identity, rc'.column.get? f = rc.column.get? f) ∧
      ∀ m ∈ rc.metrics, ∃ m' ∈ rc'.metrics, m.Within m'

/-- The entry of a metric has the entities that it is linked to in `lo`, and no others than it is
linked to in `hi`. -/
structure View.ListsMetric (V : View σ) (lo hi : σ) (v : Value)
    (m : GraphClient.ResolvedMetric) : Prop where
  key : m.metric.get? "metric_key" = some v
  all : ∀ uid, V.there RelType.appliesTo.value (.appliesTo v uid) lo →
    ∃ x ∈ m.appliesTo, x.get? "uid" = some (.str uid)
  only : ∀ x ∈ m.appliesTo, ∃ uid, x.get? "uid" = some (.str uid) ∧
    V.there RelType.appliesTo.value (.appliesTo v uid) hi

theorem View.ListsMetric.later {V : View σ} {lo hi hi' : σ} (hle : V.Le hi hi')
    (h : V.ListsMetric lo hi v m) : V.ListsMetric lo hi' v m where
  key := h.key
  all := h.all
  only x hx := (h.only x hx).imp fun _ hl => hl.imp_right (hle.there _ _)

/-- The reading of a column returns what there is in `lo`, and nothing that there is not in
`hi`. -/
structure View.Lists (V : View σ) (lo hi : σ) (system table name : String)
    (a : Option GraphClient.ResolvedColumn) : Prop where
  none : a = none → ¬ V.known (.column system table name) lo
  known : ∀ rc ∈ a, V.known (.column system table name) hi
  shows : ∀ rc ∈ a, Shows (.column system table name) rc.column
  all : ∀ rc ∈ a, ∀ v, V.there RelType.measures.value (.measures system table name v) lo →
    ∃ m ∈ rc.metrics, m.metric.get? "metric_key" = some v
  only : ∀ rc ∈ a, ∀ m ∈ rc.metrics, ∃ v,
    V.there RelType.measures.value (.measures system table name v) hi ∧ V.ListsMetric lo hi v m

theorem View.Lists.later {V : View σ} {lo hi hi' : σ} (hle : V.Le hi hi')
    (h : V.Lists lo hi system table name a) : V.Lists lo hi' system table name a where
  none := h.none
  known rc hrc := hle.known _ (h.known rc hrc)
  shows := h.shows
  all := h.all
  only rc hrc m hm := (h.only rc hrc m hm).imp fun _ hv => ⟨hle.there _ _ hv.1, hv.2.later hle⟩

/-- A later reading returns no less. -/
theorem View.Lists.within {V : View σ} {lo mid hi : σ} (h : V.Lists lo mid system table name a)
    (h' : V.Lists mid hi system table name a') : GraphClient.ResolvedColumn.Within a a' := by
  intro rc hrc
  rcases a' with _ | rc'
  · exact (h'.none rfl (h.known rc hrc)).elim
  refine ⟨rc', rfl, fun f hf => ?_, fun m hm => ?_⟩
  · rw [h.shows rc hrc f hf, h'.shows rc' rfl f hf]
  · obtain ⟨v, hv, hm⟩ := h.only rc hrc m hm
    obtain ⟨m', hmem, hkey⟩ := h'.all rc' rfl v hv
    obtain ⟨v', -, hm'⟩ := h'.only rc' rfl m' hmem
    cases hkey.symm.trans hm'.key
    refine ⟨m', hmem, hkey.trans hm.key.symm, fun x hx => ?_⟩
    obtain ⟨uid, huid, hlink⟩ := hm.only x hx
    obtain ⟨x', hx', huid'⟩ := hm'.all uid hlink
    exact ⟨x', hx', huid'.trans huid.symm⟩

/-- The store is well kept, and has shown since `lo` what it showed then. -/
def View.Since (V : View σ) (I : σ → Prop) (lo s : σ) : Prop := I s ∧ V.Le lo s

section reading
variable {h : Handler StoreCall StoreCall.Reply PyErr σ} {I : σ → Prop} {V : View σ} {lo : σ}

/-- What has been learned since `lo` stays so. -/
theorem stable_since {P : σ → Prop} (hP : ∀ ⦃s s'⦄, V.Le s s' → P s → P s') :
    Program.Stable (V.Grows I) fun s => V.Since I lo s ∧ P s := by
  intro s s' hgrows hs
  obtain ⟨hinv, hle⟩ := hgrows hs.1.1
  exact ⟨⟨hinv, hs.1.2.trans hle⟩, hP hle hs.2⟩

/-- The turn of one metric, among writers. -/
theorem resolveMetric_withstands (H : Showing h I V) {v : Value} {pair : Props × Props}
    (hkey : pair.1.get? "metric_key" = some v) :
    (GraphClient.resolveMetric pair).Withstands h (V.Grows I)
      (fun s => V.Since I lo s ∧ V.known (.metric v) s)
      fun m s => V.Since I lo s ∧ V.ListsMetric lo s v m := by
  rw [GraphClient.resolveMetric, metricKeyOf, hkey]
  refine .call (fun pairs s => V.Since I lo s ∧
    V.ListsMetric lo s v ⟨pair.1, pairs.map Prod.fst⟩) (stable_since fun s s' hle => hle.known _)
    (fun s hs => ?_) fun pairs => .ret fun s s' hgrows hs =>
      stable_since (fun s s' hle => View.ListsMetric.later hle) hgrows hs
  obtain ⟨pairs, hans⟩ := H.spine hs.1.1 hs.2 .appliesTo
  obtain ⟨honly, hall⟩ := H.outNeighbors hs.1.1 (congrArg Prod.fst hans)
  refine ⟨pairs, s, hans, hs.1, hkey, fun uid hl => ?_, fun x hx => ?_⟩
  · obtain ⟨p, hp, hshows, -⟩ := hall _ (hs.1.2.there _ _ hl) rfl
    exact ⟨p.1, List.mem_map_of_mem hp, hshows "uid" List.mem_cons_self⟩
  · obtain ⟨p, hp, rfl⟩ := List.mem_map.mp hx
    obtain ⟨l, hl, hsource, hshows, -⟩ := honly p hp
    cases l with
    | appliesTo v' uid =>
      cases hsource
      exact ⟨uid, hshows "uid" List.mem_cons_self, hl⟩
    | definedIn => exact absurd (H.typed hl (u := .definedIn) rfl) (by decide)
    | benchmarkedAgainst => exact absurd (H.typed hl (u := .benchmarkedAgainst) rfl) (by decide)
    | computedFrom => exact absurd (H.typed hl (u := .computedFrom) rfl) (by decide)
    | _ => cases hsource

/-- The calls of a reading leave the store as it is. -/
def StoreCall.Reads : StoreCall → Prop
  | .getNode .. | .outNeighbors .. => True
  | _ => False

theorem resolveMetric_uses (pair : Props × Props) :
    (GraphClient.resolveMetric pair).Uses StoreCall.Reads := by
  rw [GraphClient.resolveMetric]
  exact .bind (.ofExcept _) fun _ => ⟨trivial, fun _ => trivial⟩

theorem resolveColumn_uses (system table name : String) :
    (GraphClient.resolveColumn system table name).Uses StoreCall.Reads := by
  rw [GraphClient.resolveColumn_eq]
  refine ⟨trivial, fun column => ?_⟩
  cases column with
  | none => trivial
  | some column =>
    exact ⟨trivial, fun neighbors => .bind (.mapM fun pair _ => resolveMetric_uses pair) fun _ =>
      trivial⟩

theorem grows_of_reads (hreads : ∀ c s, StoreCall.Reads c → (h c s).2 = s)
    (hc : StoreCall.Reads c) (hcall : h c s = (x, t)) : V.Grows I s t := by
  have hsame := hreads c s hc
  rw [hcall] at hsame
  cases hsame
  exact .refl _

/-- What a reading knows once it has found the column and its neighbors. -/
structure View.Found (V : View σ) (lo s : σ) (system table name : String) (column : Props)
    (neighbors : List (Props × Props)) : Prop where
  known : V.known (.column system table name) s
  shows : Shows (.column system table name) column
  all : ∀ v, V.there RelType.measures.value (.measures system table name v) lo →
    ∃ pair ∈ neighbors, pair.1.get? "metric_key" = some v
  only : ∀ pair ∈ neighbors, ∃ v, pair.1.get? "metric_key" = some v ∧
    V.there RelType.measures.value (.measures system table name v) s

theorem View.Found.later {s s' : σ} (hle : V.Le s s')
    (h : V.Found lo s system table name column neighbors) :
    V.Found lo s' system table name column neighbors where
  known := hle.known _ h.known
  shows := h.shows
  all := h.all
  only pair hpair := (h.only pair hpair).imp fun _ hv => hv.imp_right (hle.there _ _)

/-- The entry that is made for a neighbor, while its metric is linked. -/
def View.Enters (V : View σ) (lo s : σ) (system table name : String) (pair : Props × Props)
    (m : GraphClient.ResolvedMetric) : Prop :=
  ∃ v, pair.1.get? "metric_key" = some v ∧
    V.there RelType.measures.value (.measures system table name v) s ∧ V.ListsMetric lo s v m

theorem resolveMetric_enters (H : Showing h I V)
    (hreads : ∀ c s, StoreCall.Reads c → (h c s).2 = s) (hpair : pair ∈ neighbors) :
    (GraphClient.resolveMetric pair).Withstands h (V.Grows I)
      (fun s => V.Since I lo s ∧ V.Found lo s system table name column neighbors)
      fun m s => V.Since I lo s ∧ V.Enters lo s system table name pair m := by
  intro s l q s' hs
  obtain ⟨v, hkey, hl⟩ := hs.2.only pair hpair
  have hmetric : (GraphClient.resolveMetric pair).Withstands h (V.Grows I)
      (fun s => V.Since I lo s ∧ V.known (.metric v) s)
      fun m s => V.Since I lo s ∧ V.ListsMetric lo s v m := resolveMetric_withstands H hkey
  have hlinked : Program.Stable (V.Grows I) fun s => V.Since I lo s ∧
      V.there RelType.measures.value (.measures system table name v) s :=
    stable_since fun s s' hle => hle.there _ _
  have hframe := hmetric.frame (E := V.Grows I) .trans (grows_of_reads hreads)
    (resolveMetric_uses pair) hlinked
  refine hframe.mono (fun s hs => hs) (fun m s hm => ?_) ⟨⟨hs.1, H.target hl⟩, hs.1, hl⟩
  exact ⟨hm.2.1, v, hkey, hm.2.2, hm.1.2⟩

/-- The loop of `resolve_column`, among writers. -/
theorem resolveMetrics_withstands (H : Showing h I V)
    (hreads : ∀ c s, StoreCall.Reads c → (h c s).2 = s) (system table name : String)
    (column : Props) (neighbors : List (Props × Props)) :
    (neighbors.mapM GraphClient.resolveMetric).Withstands h (V.Grows I)
      (fun s => V.Since I lo s ∧ V.Found lo s system table name column neighbors)
      fun metrics s => V.Since I lo s ∧
        V.Lists lo s system table name (some ⟨column, metrics⟩) := by
  have hstable : Program.Stable (V.Grows I) fun s => V.Since I lo s ∧
      V.Found lo s system table name column neighbors := stable_since fun s s' hle => .later hle
  have henters (pair m) : Program.Stable (V.Grows I) fun s => V.Since I lo s ∧
      V.Enters lo s system table name pair m := stable_since fun s s' hle hs =>
    hs.imp fun v hv => ⟨hv.1, hle.there _ _ hv.2.1, hv.2.2.later hle⟩
  have huses : ∀ pair ∈ neighbors, (GraphClient.resolveMetric pair).Uses StoreCall.Reads :=
    fun pair _ => resolveMetric_uses pair
  have hloop := Program.Withstands.mapM (E := V.Grows I) .refl .trans (grows_of_reads hreads)
    hstable henters huses fun pair hpair => resolveMetric_enters H hreads hpair
  have hframe := hloop.frame (E := V.Grows I) .trans (grows_of_reads hreads) (.mapM huses) hstable
  refine hframe.mono (fun s hs => ⟨hs, hs⟩) fun metrics s hs => ⟨hs.2.1, ?_⟩
  obtain ⟨hmetrics, -, hfound⟩ := hs
  refine ⟨fun h => (by cases h), fun rc hrc => hfound.known, fun rc hrc => ?_,
    fun rc hrc v hv => ?_, fun rc hrc m hm => ?_⟩ <;> cases hrc
  · exact hfound.shows
  · obtain ⟨pair, hpair, hkey⟩ := hfound.all v hv
    obtain ⟨m, hm, -, v', hkey', -, hlists⟩ := exists_mem_of_forall₂ hmetrics.flip hpair
    cases hkey.symm.trans hkey'
    exact ⟨m, hm, hlists.key⟩
  · obtain ⟨pair, -, -, v, -, hl, hlists⟩ := exists_mem_of_forall₂ hmetrics hm
    exact ⟨v, hl, hlists⟩

/-- A reading among writers returns what there was when it began, and nothing that there is not when
it has returned; and it does not raise. -/
theorem resolveColumn_withstands (H : Showing h I V)
    (hreads : ∀ c s, StoreCall.Reads c → (h c s).2 = s) (system table name : String) (lo : σ) :
    (GraphClient.resolveColumn system table name).Withstands h (V.Grows I) (V.Since I lo)
      fun a s => V.Since I lo s ∧ V.Lists lo s system table name a := by
  rw [GraphClient.resolveColumn_eq]
  refine .call (fun x s => V.Since I lo s ∧
    (x = none → ¬ V.known (.column system table name) lo) ∧
      ∀ node ∈ x, V.known (.column system table name) s ∧ Shows (.column system table name) node)
    (fun s s' hgrows hs => ⟨(hgrows hs.1).1, hs.2.trans (hgrows hs.1).2⟩)
    (fun s hs => ?_) fun x => ?_
  · obtain ⟨x, hans⟩ := H.finds (n := .column system table name) rfl s
    obtain ⟨hnone, hsome⟩ := H.getNode hs.1 (congrArg Prod.fst hans)
    exact ⟨x, s, hans, hs, fun hx hknown => hnone hx (hs.2.known _ hknown),
      fun node hnode => ⟨(hsome node hnode).1, (hsome node hnode).2.1⟩⟩
  rcases x with _ | column
  · refine .ret fun s s' hgrows hs => ⟨⟨(hgrows hs.1.1).1, hs.1.2.trans (hgrows hs.1.1).2⟩, ?_⟩
    refine ⟨fun _ => hs.2.1 rfl, ?_, ?_, ?_, ?_⟩ <;> exact fun _ h => by cases h
  refine .call
    (fun neighbors s => V.Since I lo s ∧ V.Found lo s system table name column neighbors)
    (stable_since fun s s' hle hs => ⟨fun hx => (by cases hx), fun node hnode =>
      (hs.2 node hnode).imp_left (hle.known _)⟩) (fun s hs => ?_) fun neighbors => ?_
  · obtain ⟨hknown, hshows⟩ := hs.2.2 column rfl
    obtain ⟨pairs, hans⟩ := H.spine hs.1.1 hknown .measures
    obtain ⟨honly, hall⟩ := H.outNeighbors hs.1.1 (congrArg Prod.fst hans)
    refine ⟨pairs, s, hans, hs.1, hknown, hshows, fun v hv => ?_, fun pair hpair => ?_⟩
    · obtain ⟨p, hp, hshows, -⟩ := hall _ (hs.1.2.there _ _ hv) rfl
      exact ⟨p, hp, hshows "metric_key" List.mem_cons_self⟩
    · obtain ⟨l, hl, hsource, hshows, -⟩ := honly pair hpair
      cases l with
      | measures s t n v =>
        cases hsource
        exact ⟨v, hshows "metric_key" List.mem_cons_self, hl⟩
      | _ => cases hsource
  · refine .bind .refl (resolveMetrics_withstands H hreads system table name column neighbors)
      fun metrics => .ret fun s s' hgrows hs => ?_
    exact stable_since (fun s s' hle => View.Lists.later hle) hgrows hs

/-- What a reading among writers returned lies between what it returns by itself before and
after. -/
theorem View.Lists.between (H : Showing h I V) (hreads : ∀ c s, StoreCall.Reads c → (h c s).2 = s)
    {lo hi : σ} (hlo : I lo) (hhi : I hi) (hlists : V.Lists lo hi system table name a) :
    ∃ a₁ a₂, (GraphClient.resolveColumn system table name).run h lo = (.ok a₁, lo) ∧
      (GraphClient.resolveColumn system table name).run h hi = (.ok a₂, hi) ∧
      GraphClient.ResolvedColumn.Within a₁ a ∧ GraphClient.ResolvedColumn.Within a a₂ := by
  have halone {s : σ} (hs : I s) : ∃ a,
      (GraphClient.resolveColumn system table name).run h s = (.ok a, s) ∧
        V.Lists s s system table name a := by
    have hread := resolveColumn_withstands H hreads system table name s
    obtain ⟨a, s', hrun, -, hlists⟩ := hread.run .refl ⟨hs, .refl s⟩
    have hsame : s' = s := (congrArg Prod.snd hrun).symm.trans
      ((resolveColumn_uses system table name).run (I := (· = s))
        (fun c s' hc hs' => (hreads c s' hc).trans hs') rfl)
    exact ⟨a, hsame ▸ hrun, hsame ▸ hlists⟩
  obtain ⟨a₁, hrun₁, hlists₁⟩ := halone hlo
  obtain ⟨a₂, hrun₂, hlists₂⟩ := halone hhi
  exact ⟨a₁, a₂, hrun₁, hrun₂, hlists₁.within hlists, hlists.within hlists₂⟩

end reading

end showing

/-! ## In memory -/

namespace InMemoryGraphStore

variable {g : InMemoryGraphStore}

/-- Nodes show their identities, and edges are links and show their roles. -/
structure WellKept (g : InMemoryGraphStore) : Prop where
  identified : g.Identified
  hashable : ∀ n : NodeRef, (g.nodes.get? n.id).isSome → n.hashable
  allLinks : g.AllLinks
  hasRoles : g.HasRoles

theorem wellKept_empty : WellKept ∅ where
  identified _ _ h := by cases h
  hashable _ h := by cases h
  allLinks _ _ h := by cases h
  hasRoles _ _ h := by cases h

def view : View InMemoryGraphStore where
  known n g := (g.nodes.get? n.id).isSome
  has n f g := ∃ x, g.nodes.get? n.id = some x ∧ f ∈ x.keys
  there relType l g :=
    l.relType = relType ∧ (g.edges.get? l.ident).isSome ∧ (g.nodes.get? l.target.id).isSome

/-- A stored node shows the identity of what it is stored for. -/
theorem Identified.shows (h : g.Identified) {n : NodeRef} (hx : g.nodes.get? n.id = some x) :
    Shows n x := by
  obtain ⟨m, hid, hshows⟩ := h _ x hx
  exact NodeRef.id_injective hid ▸ hshows

/-- Only the key decides whether the neighbors of a node are listed. -/
theorem outNeighbors_ok {label : String} {key : Props}
    (h : g.outNeighbors label key relType = .ok pairs) : ∃ src, nodeKey label key = .ok src := by
  rw [outNeighbors] at h
  rcases hk : nodeKey label key with e | src
  · rw [hk] at h
    cases h
  · exact ⟨src, rfl⟩

theorem hashable_of_getNode {n : NodeRef} (h : g.getNode n.label.value n.key = .ok x) :
    n.hashable := by
  by_contra hn
  rw [getNode, n.nodeKey_eq, if_neg hn] at h
  cases h

theorem showing : Showing handler WellKept view where
  getNode {n g x} hg hx := by
    cases (g.getNode_ref (hashable_of_getNode hx)).symm.trans hx
    refine ⟨fun hx hknown => ?_, fun x hx => ?_⟩
    · have hknown : (g.nodes.get? n.id).isSome := hknown
      rw [hx] at hknown
      cases hknown
    · refine ⟨Option.isSome_of_eq_some hx, hg.identified.shows hx, fun f => ?_⟩
      refine ⟨fun hf => ⟨x, hx, hf⟩, fun hf => ?_⟩
      obtain ⟨x', hx', hf⟩ := hf
      cases hx.symm.trans hx'
      exact hf
  finds hn g := ⟨_, Prod.ext (g.getNode_ref hn) rfl⟩
  findsAgain hx g' := ⟨_, Prod.ext (g'.getNode_ref (hashable_of_getNode hx)) rfl⟩
  outNeighbors {n relType g pairs} hg hpairs := by
    obtain ⟨src, hsrc⟩ := outNeighbors_ok hpairs
    cases (g.outNeighbors_of_nodeKey hsrc relType).symm.trans hpairs
    obtain rfl : n.id = src := by
      rw [n.nodeKey_eq] at hsrc
      split at hsrc
      · exact Except.ok.inj hsrc
      · cases hsrc
    constructor
    · intro p hp
      obtain ⟨⟨ident, e⟩, hmem, hshown⟩ := List.mem_filterMap.mp hp
      obtain ⟨⟨htype, hsource⟩, node, hnode, rfl⟩ := shown_eq_some.mp hshown
      have he := Dict.get?_of_mem hmem
      obtain ⟨l, rfl⟩ := hg.allLinks ident e he
      exact ⟨l, ⟨htype, Option.isSome_of_eq_some he, Option.isSome_of_eq_some hnode⟩,
        NodeRef.id_injective hsource, hg.identified.shows hnode, hg.hasRoles l e he⟩
    · rintro l ⟨htype, hedge, htarget⟩ rfl
      obtain ⟨e, he⟩ := Option.isSome_iff_exists.mp hedge
      obtain ⟨x, hx⟩ := Option.isSome_iff_exists.mp htarget
      refine ⟨(x, e), List.mem_filterMap.mpr ⟨(l.ident, e), Dict.mem_items.mpr he, ?_⟩,
        hg.identified.shows hx, hg.hasRoles l e he⟩
      exact shown_eq_some.mpr ⟨⟨htype, rfl⟩, x, hx, rfl⟩
  listsAgain {n relType g pairs} hpairs g' := by
    obtain ⟨src, hsrc⟩ := outNeighbors_ok hpairs
    exact ⟨_, Prod.ext (g'.outNeighbors_of_nodeKey hsrc relType) rfl⟩
  spine hg hn t :=
    ⟨_, Prod.ext (outNeighbors_of_nodeKey _ (NodeRef.nodeKey_of_hashable (hg.hashable _ hn)) _) rfl⟩
  typed hl hu := RelType.value_inj.mp (hu.symm.trans hl.1)
  target hl := hl.2.2

theorem mem_keys_updateNode {x : Props} (h : f ∈ x.keys) (setProps : Props)
    (extraLabels : List String) : f ∈ (updateNode x setProps extraLabels).2.keys := by
  have hupdate : f ∈ (x.update setProps).keys := Dict.mem_keys_update.mpr (.inr h)
  rw [updateNode]
  split
  · exact Dict.mem_keys_set.mpr (.inr hupdate)
  · exact hupdate
  · exact hupdate

theorem WellKept.write {w : Write} (h : g.WellKept) (hw : w.KeepsIdentity) :
    (handler w.call g).2.WellKept where
  identified := h.identified.write hw
  hashable m hm := by
    cases w with
    | link l prov =>
      rw [nodes_link] at hm
      exact h.hashable m hm
    | node n setProps extraLabels =>
      rw [get?_nodes_node] at hm
      split at hm
      · rename_i hn
        exact NodeRef.id_injective hn.2 ▸ hn.1
      · exact h.hashable m hm
  allLinks := h.allLinks.write
  hasRoles := h.hasRoles.write w

/-- What takes no node, no property and no edge away. -/
theorem le_of_stays {g' : InMemoryGraphStore}
    (hnodes : ∀ k x, g.nodes.get? k = some x →
      ∃ x', g'.nodes.get? k = some x' ∧ ∀ f ∈ x.keys, f ∈ x'.keys)
    (hedges : ∀ ident, (g.edges.get? ident).isSome → (g'.edges.get? ident).isSome) :
    view.Le g g' := by
  have hknown (k : NodeKey) (hk : (g.nodes.get? k).isSome) : (g'.nodes.get? k).isSome := by
    obtain ⟨x, hx⟩ := Option.isSome_iff_exists.mp hk
    obtain ⟨x', hx', -⟩ := hnodes k x hx
    exact Option.isSome_of_eq_some hx'
  refine ⟨fun n => hknown n.id, fun n f hf => ?_,
    fun _ l hl => ⟨hl.1, hedges _ hl.2.1, hknown _ hl.2.2⟩⟩
  obtain ⟨x, hx, hmem⟩ := hf
  obtain ⟨x', hx', hkeys⟩ := hnodes _ x hx
  exact ⟨x', hx', hkeys f hmem⟩

/-- A write takes nothing away. -/
theorem le_write (w : Write) (g : InMemoryGraphStore) : view.Le g (handler w.call g).2 := by
  cases w with
  | node n setProps extraLabels =>
    refine le_of_stays (fun k x hx => ?_) fun ident he => ?_
    · rw [get?_nodes_node]
      split
      · rename_i hn
        refine ⟨_, rfl, fun f hf => mem_keys_updateNode ?_ setProps extraLabels⟩
        rw [InMemoryGraphStore.node, hn.2, hx]
        exact hf
      · exact ⟨x, hx, fun _ => id⟩
    · rw [handler_node_edges]
      exact he
  | link l prov =>
    refine le_of_stays (fun k x hx => ?_) fun ident he => ?_
    · rw [nodes_link]
      exact ⟨x, hx, fun _ => id⟩
    · rw [handler_link]
      split
      · dsimp only
        rw [Dict.get?_set]
        split
        · rfl
        · exact he
      · exact he

/-- What the operations ask of the store makes it show more. -/
theorem grows [Python] (hc : Makes Write.KeepsNode c) (g : InMemoryGraphStore) :
    view.Grows WellKept g (handler c g).2 := fun hg => by
  cases hc with
  | write hw => exact ⟨hg.write hw.identity, le_write _ g⟩
  | metrics | metric => exact ⟨hg, .refl g⟩

end InMemoryGraphStore

/-! ## Over Neo4j -/

namespace Neo4jGraphStore

open PropertyGraph

variable [Python] [RowOrder] {pg : Neo4jGraph}

/-- Nodes are those of the ontology, and edges are links. -/
structure WellKept (pg : Neo4jGraph) : Prop extends Identified pg where
  allLinks : ∀ e ∈ pg.edges, ∃ l : Link, checkIdent l.relType = .ok e.relType ∧
    e.src ∈ pg.matchNodes l.source.label.value l.source.key ∧
    e.dst ∈ pg.matchNodes l.target.label.value l.target.key ∧ fits l.key e.props = true

omit [RowOrder] in
theorem wellKept_empty : WellKept ∅ := ⟨.empty, fun _ h => by cases h⟩

def view : View Neo4jGraph where
  known n pg := ∃ a ∈ pg.nodes, n.fits a = true
  has n f pg := ∃ a ∈ pg.nodes, n.fits a = true ∧ f ∈ (record a).keys
  there relType l pg := ∃ rel, checkIdent relType = .ok rel ∧ checkIdent l.relType = .ok rel ∧
    ∃ e ∈ pg.edges, e.relType = rel ∧
      e.src ∈ pg.matchNodes l.source.label.value l.source.key ∧
      e.dst ∈ pg.matchNodes l.target.label.value l.target.key ∧ fits l.key e.props = true

omit [Python] [RowOrder] in
/-- A node is known by one name. -/
theorem eq_of_fits {m n : NodeRef} {a : Node String String Value} (ha : OneBaseLabel a)
    (hm : m.fits a = true) (hn : n.fits a = true) : m = n := by
  have hlabel := ha _ _ (Node.fits_iff.mp hm).1 (Node.fits_iff.mp hn).1
  refine NodeRef.eq_of_identity hlabel fun f hf => ?_
  obtain ⟨v, hv, hget⟩ := get?_of_fits hm hf
  obtain ⟨v', hv', hget'⟩ := get?_of_fits hn (hlabel ▸ hf)
  rw [hv, hv', ← hget, ← hget']

omit [Python] [RowOrder] in
/-- A name finds one node. -/
theorem Identified.unique (h : Identified pg) {n : NodeRef} {a b : Node String String Value}
    (ha : a ∈ pg.nodes) (hb : b ∈ pg.nodes) (hna : n.fits a = true) (hnb : n.fits b = true) :
    a = b := by
  by_contra hne
  have hsymm : Std.Symm fun a b : Node String String Value =>
      ∀ n : NodeRef, n.fits a = true → n.fits b = false := by
    refine ⟨fun a b hab n hb => ?_⟩
    by_contra ha
    rw [hab n (Bool.eq_true_of_not_eq_false ha)] at hb
    cases hb
  have hfalse := h.apart.forall ha hb hne n hna
  rw [hnb] at hfalse
  cases hfalse

omit [Python] [RowOrder] in
theorem shows_record {n : NodeRef} {a : Node String String Value} (h : n.fits a = true) :
    Shows n (record a) := by
  intro f hf
  obtain ⟨v, hv, hget⟩ := get?_of_fits h hf
  have hne : "_labels" ≠ f := fun heq => labels_not_mem_identity n.label (heq ▸ hf)
  rw [record, Dict.get?_set_of_ne hne, hget, hv]

/-- Only the name of the type decides whether the neighbors of a node are listed. -/
theorem outNeighbors_ok {n : NodeRef}
    (h : outNeighbors pg n.label.value n.key relType = .ok pairs) :
    ∃ rel, checkIdent relType = .ok rel := by
  rcases hrel : checkIdent relType with e | rel
  · rw [outNeighbors, n.label.checkIdent, hrel] at h
    cases h
  · exact ⟨rel, rfl⟩

theorem showing : Showing handler WellKept view where
  getNode {n pg x} hpg hx := by
    cases (getNode_ref pg n).symm.trans hx
    refine ⟨fun hx hknown => ?_, fun x hx => ?_⟩
    · obtain ⟨a, ha, hfits⟩ := hknown
      have hsome := isSome_found.mpr ⟨a, ha, hfits⟩
      rw [hx] at hsome
      cases hsome
    · obtain ⟨a, hmem, hfits, rfl⟩ := exists_of_found hx
      refine ⟨⟨a, hmem, hfits⟩, shows_record hfits, fun f => ⟨fun hf => ⟨a, hmem, hfits, hf⟩, ?_⟩⟩
      rintro ⟨b, hb, hfits', hf⟩
      rwa [hpg.unique hmem hb hfits hfits']
  finds {n} _ pg := ⟨_, Prod.ext (getNode_ref pg n) rfl⟩
  findsAgain {n pg x} _ pg' := ⟨_, Prod.ext (getNode_ref pg' n) rfl⟩
  outNeighbors {n relType pg pairs} hpg hpairs := by
    obtain ⟨rel, hrel⟩ := outNeighbors_ok hpairs
    cases (outNeighbors_ref pg n hrel).symm.trans hpairs
    constructor
    · intro p hp
      obtain ⟨⟨d, r⟩, hmem, rfl⟩ := List.mem_map.mp (RowOrder.mem_rows.mp hp)
      obtain ⟨i, hi, hd⟩ := List.mem_flatMap.mp hmem
      obtain ⟨e, he, htype, rfl, hdst, rfl⟩ := mem_outgoing.mp hd
      obtain ⟨l, hlrel, hsrc, htgt, hkey⟩ := hpg.allLinks e he
      obtain ⟨a, ha, hfits⟩ := PropertyGraph.mem_matchNodes.mp hi
      obtain ⟨a', ha', hfits'⟩ := PropertyGraph.mem_matchNodes.mp hsrc
      obtain ⟨d', hd', hfits''⟩ := PropertyGraph.mem_matchNodes.mp htgt
      cases ha.symm.trans ha'
      cases hdst.symm.trans hd'
      have hone := hpg.oneBaseLabel a (List.mem_of_getElem? ha)
      exact ⟨l, ⟨rel, hrel, htype ▸ hlrel, e, he, htype, hsrc, htgt, hkey⟩,
        eq_of_fits hone hfits' hfits, shows_record hfits'', hkey⟩
    · rintro l ⟨rel', hrel', -, e, he, htype, hsrc, htgt, hkey⟩ rfl
      cases hrel.symm.trans hrel'
      obtain ⟨d, hd, hfits⟩ := PropertyGraph.mem_matchNodes.mp htgt
      refine ⟨(record d, e.props), RowOrder.mem_rows.mpr (List.mem_map.mpr ⟨(d, e.props),
        List.mem_flatMap.mpr ⟨e.src, hsrc, ?_⟩, rfl⟩), shows_record hfits, hkey⟩
      exact mem_outgoing.mpr ⟨e, he, htype, rfl, hd, rfl⟩
  listsAgain {n relType pg pairs} hpairs pg' := by
    obtain ⟨rel, hrel⟩ := outNeighbors_ok hpairs
    exact ⟨_, Prod.ext (outNeighbors_ref pg' n hrel) rfl⟩
  spine {n pg} _ _ t := ⟨_, Prod.ext (outNeighbors_ref pg n (checkIdent_of_isIdent t.isIdent)) rfl⟩
  typed {t u l pg} hl hu := by
    obtain ⟨rel, hrel, hlrel, -⟩ := hl
    rw [hu, checkIdent_of_isIdent u.isIdent] at hlrel
    rw [checkIdent_of_isIdent t.isIdent] at hrel
    exact RelType.value_inj.mp (Except.ok.inj (hlrel.trans hrel.symm))
  target {relType l pg} hl := by
    obtain ⟨-, -, -, e, -, -, -, htgt, -⟩ := hl
    obtain ⟨d, hd, hfits⟩ := PropertyGraph.mem_matchNodes.mp htgt
    exact ⟨d, List.mem_of_getElem? hd, hfits⟩

omit [Python] [RowOrder] in
/-- A merge leaves every node its properties. -/
theorem has_mergeNode (hpg : Identified pg) (hkeeps : KeepsIdentity n setProps names)
    (h : ∃ a ∈ pg.nodes, NodeRef.fits m a = true ∧ f ∈ (record a).keys) :
    ∃ a ∈ (pg.mergeNode n.label.value n.key fun a =>
      ⟨a.labels ∪ names.toFinset, a.props.update setProps⟩).nodes,
      m.fits a = true ∧ f ∈ (record a).keys := by
  obtain ⟨a, ha, hfits, hf⟩ := h
  obtain ⟨i, hi⟩ := List.getElem?_of_mem ha
  have hlt : i < pg.nodes.length := (List.getElem?_eq_some_iff.mp hi).1
  have hget : (pg.mergeNode n.label.value n.key fun a =>
    ⟨a.labels ∪ names.toFinset, a.props.update setProps⟩).nodes[i]? = _ := getElem?_mergeNode hlt
  rw [hi, Option.map_some] at hget
  refine ⟨_, List.mem_of_getElem? hget, ?_⟩
  split
  · rename_i hn
    refine ⟨(hkeeps.fits (hpg.oneBaseLabel a ha) hn m).trans hfits, ?_⟩
    rw [record, Dict.mem_keys_set] at hf ⊢
    exact hf.imp_right fun hf => Dict.mem_keys_update.mpr (.inr hf)
  · exact ⟨hfits, hf⟩

omit [Python] [RowOrder] in
/-- Provenance does not touch the role of a link. -/
theorem fits_key_update {l : Link} {x : Props} (h : fits l.key x = true) (prov : EdgeProvenance) :
    fits l.key (x.update prov.setProps) = true :=
  fits_trans (l.fits_key prov) (fits_update h _)

omit [RowOrder] in
theorem keepsIdentity_of_keepsNode (hw : (Write.node n setProps extraLabels).KeepsNode)
    (hnames : extraLabels.mapM checkIdent = .ok names) : KeepsIdentity n setProps names := by
  refine ⟨hw.identity, fun L hL => ?_⟩
  obtain ⟨label, hlabel, hcheck⟩ := exists_mem_of_forall₂ (Program.mapM_eq_ok.mp hnames) hL
  exact hw.label n setProps extraLabels rfl label hlabel L hcheck

/-- A write that leaves identities alone keeps the graph, and takes nothing away. -/
theorem grows_write {w : Write} (hw : w.KeepsNode) (pg : Neo4jGraph) :
    view.Grows WellKept pg (handler w.call pg).2 := fun h => by
  have hidentified := h.toIdentified.write hw.identity hw.label
  cases w with
  | node n setProps extraLabels =>
    rw [handler_node] at hidentified ⊢
    rcases hnames : extraLabels.mapM checkIdent with e | names
    · exact ⟨h, .refl pg⟩
    rw [hnames] at hidentified
    have hkeeps := keepsIdentity_of_keepsNode hw hnames
    have hgrows := grows_mergeNode h.oneBaseLabel hkeeps ⟨"", "", ""⟩
    refine ⟨⟨hidentified, fun e he => ?_⟩, fun m hm => ?_, fun m f => ?_, fun relType l hl => ?_⟩
    · obtain ⟨l, hrel, hsrc, hdst, hkey⟩ := h.allLinks e he
      exact ⟨l, hrel, hgrows.mem_matchNodes hsrc, hgrows.mem_matchNodes hdst, hkey⟩
    · exact known_iff.mp (hgrows.known (known_iff.mpr hm))
    · exact has_mergeNode h.toIdentified hkeeps
    · obtain ⟨rel, hrel, hlrel, e, he, htype, hsrc, hdst, hkey⟩ := hl
      exact ⟨rel, hrel, hlrel, e, he, htype, hgrows.mem_matchNodes hsrc,
        hgrows.mem_matchNodes hdst, hkey⟩
  | link l prov =>
    rw [handler_link] at hidentified ⊢
    rcases hrel : checkIdent l.relType with e | rel
    · exact ⟨h, .refl pg⟩
    rw [hrel] at hidentified
    refine ⟨⟨hidentified, ?_⟩, fun _ => id, fun _ _ => id, fun relType m hm => ?_⟩
    · refine forall_mergeRows h.allLinks (fun e he => ?_) fun row hrow => ?_
      · obtain ⟨m, hmrel, hsrc, hdst, hkey⟩ := he
        exact ⟨m, hmrel, hsrc, hdst, fits_key_update hkey prov⟩
      · obtain ⟨hsrc, hdst⟩ := mem_matchPairs.mp hrow
        exact ⟨l, hrel, hsrc, hdst, l.fits_key prov⟩
    · obtain ⟨rel', hrel', hmrel, e, he, htype, hsrc, hdst, hkey⟩ := hm
      refine ⟨rel', hrel', hmrel, exists_mergeRows (fun e he => ?_)
        ⟨e, he, htype, hsrc, hdst, hkey⟩⟩
      exact ⟨he.1, he.2.1, he.2.2.1, fits_key_update he.2.2.2 prov⟩

/-- What the operations ask of the store makes it show more. -/
theorem grows (hc : Makes Write.KeepsNode c) (pg : Neo4jGraph) :
    view.Grows WellKept pg (handler c pg).2 := by
  cases hc with
  | write hw => exact grows_write hw pg
  | metrics | metric => exact .refl pg

end Neo4jGraphStore

/-! ## Over either store -/

namespace Backend

def empty : (kind : Backend) → kind.Store
  | inMemory => (∅ : InMemoryGraphStore)
  | neo4j => (∅ : Neo4jGraph)

variable [Python]

def WellKept : (kind : Backend) → kind.Store → Prop
  | inMemory => InMemoryGraphStore.WellKept
  | neo4j => Neo4jGraphStore.WellKept

def view : (kind : Backend) → View kind.Store
  | inMemory => InMemoryGraphStore.view
  | neo4j => Neo4jGraphStore.view

theorem wellKept_empty (kind : Backend) : kind.WellKept kind.empty := by
  cases kind with
  | inMemory => exact InMemoryGraphStore.wellKept_empty
  | neo4j => exact Neo4jGraphStore.wellKept_empty

theorem showing [RowOrder] (kind : Backend) : Showing kind.handler kind.WellKept kind.view := by
  cases kind with
  | inMemory => exact InMemoryGraphStore.showing
  | neo4j => exact Neo4jGraphStore.showing

theorem grows [RowOrder] (kind : Backend) (hc : Makes Write.KeepsNode c) (s : kind.Store) :
    kind.view.Grows kind.WellKept s (kind.handler c s).2 := by
  cases kind with
  | inMemory => exact InMemoryGraphStore.grows hc s
  | neo4j => exact Neo4jGraphStore.grows hc s

theorem reads_same [RowOrder] (kind : Backend) (c : StoreCall) (s : kind.Store) (hc : c.Reads) :
    (kind.handler c s).2 = s := by
  cases c with
  | getNode | outNeighbors => cases kind <;> rfl
  | _ => exact hc.elim

end Backend

/-- What one of the users of the platform does: it reads a column, or performs an operation. -/
inductive Visitor where
  | reads (system table name : String)
  | performs (client : GraphClient) (op : Op)

/-- What a user gets. -/
abbrev Visitor.Result := Option GraphClient.ResolvedColumn ⊕ Op.Result

namespace Visitor

variable [Python]

def program : Visitor → IngestProgram Visitor.Result
  | .reads system table name => do
    let column ← liftResolver (liftStore (GraphClient.resolveColumn system table name))
    return .inl column
  | .performs client op => do
    let result ← op.program client
    return .inr result

/-- The operation leaves identities alone. -/
def KeepsNodes : Visitor → Prop
  | .reads .. => True
  | .performs client op => op.KeepsIdentity { System.initial with client } ∧ client.CoreFree

theorem program_uses {v : Visitor} (hv : v.KeepsNodes) :
    v.program.Uses (IngestCall.OnStore fun c => Makes Write.KeepsNode c ∨ c.Reads) := by
  cases v with
  | reads system table name =>
    have huses := resolveColumn_uses system table name
    exact (liftStore_onStore (huses.mono fun _ => .inr)).bind fun _ => .ret _
  | performs client op =>
    obtain ⟨hkeeps, hfree⟩ := hv
    have huses := Op.program_uses { System.initial with client } op
    refine (huses.mono fun c hc call hcall => .inl ?_).bind fun _ => .ret _
    exact (hc call hcall).mono fun w hw => hw.keepsNode hkeeps hfree

end Visitor

namespace Backend

section runs
variable [Python] [RowOrder] {kind : Backend} {source : Source} {visitors : List Visitor}

/-- The graph shows what it showed. -/
def GrowsIn (kind : Backend) (w w' : IngestState kind.Store) : Prop :=
  kind.view.Grows kind.WellKept w.world.store w'.world.store

theorem grows_call (hc : c.OnStore fun c => Makes Write.KeepsNode c ∨ c.Reads)
    (hnext : IngestState.handler source kind.handler c w = (x, w')) : kind.GrowsIn w w' := by
  obtain rfl : (IngestState.handler source kind.handler c w).2 = w' := congrArg Prod.snd hnext
  cases c with
  | hasSeen | markDone | fetch => exact .refl _
  | resolver c =>
    cases c with
    | enqueue => exact .refl _
    | store call =>
      rcases hc call rfl with hmakes | hreads
      · exact kind.grows hmakes _
      · have hsame := kind.reads_same call w.world.store hreads
        change kind.view.Grows kind.WellKept _ (kind.handler call w.world.store).2
        rw [hsame]
        exact .refl _

theorem pool_grows {ps qs : List (IngestProgram Visitor.Result)}
    (hps : ∀ p ∈ ps, p.Uses (IngestCall.OnStore fun c => Makes Write.KeepsNode c ∨ c.Reads))
    (H : Program.Pool (IngestState.handler source kind.handler) ps w l qs w') :
    kind.GrowsIn w w' := by
  induction H with
  | refl => exact .refl _
  | call hi hc _ ih =>
    obtain ⟨hP, hcall, -⟩ := Program.Pool.uses_set hps hi
    exact (grows_call hP hc).trans (ih (hcall _))
  | raise hi hc _ ih =>
    obtain ⟨hP, -, hraise⟩ := Program.Pool.uses_set hps hi
    exact (grows_call hP hc).trans (ih (hraise _))

section visits
variable {queues : List (List Resolution)} {ledger : Finset (String × String)}

/-- The store is well kept at any time, and shows what it showed before. -/
theorem visits (hvisitors : ∀ v ∈ visitors, v.KeepsNodes)
    (H₁ : Program.Pool (IngestState.handler source kind.handler) (visitors.map Visitor.program)
      ⟨⟨kind.empty, queues⟩, ledger⟩ l₁ ps w₁)
    (H₂ : Program.Pool (IngestState.handler source kind.handler) ps w₁ l₂ qs w₂) :
    kind.WellKept w₁.world.store ∧ kind.WellKept w₂.world.store ∧
      kind.view.Le w₁.world.store w₂.world.store ∧
      ∀ p ∈ ps, p.Uses (IngestCall.OnStore fun c => Makes Write.KeepsNode c ∨ c.Reads) := by
  have huses : ∀ p ∈ visitors.map Visitor.program,
      p.Uses (IngestCall.OnStore fun c => Makes Write.KeepsNode c ∨ c.Reads) := by
    intro p hp
    obtain ⟨v, hv, rfl⟩ := List.mem_map.mp hp
    exact v.program_uses (hvisitors v hv)
  have hrest := H₁.uses_rest huses
  have hkept := (pool_grows huses H₁ kind.wellKept_empty).1
  obtain ⟨hkept', hle⟩ := pool_grows hrest H₂ hkept
  exact ⟨hkept, hkept', hle, hrest⟩

/-- **Nothing is ever lost**, on either store and whatever the order in which the users of the
platform make their calls, as long as their operations leave identities alone: a node that is found
is found at any later time, with its identity and all its properties, and a neighbor that is listed
is listed at any later time, under the same role. -/
theorem nothing_lost (hvisitors : ∀ v ∈ visitors, v.KeepsNodes)
    (H₁ : Program.Pool (IngestState.handler source kind.handler) (visitors.map Visitor.program)
      ⟨⟨kind.empty, queues⟩, ledger⟩ l₁ ps w₁)
    (H₂ : Program.Pool (IngestState.handler source kind.handler) ps w₁ l₂ qs w₂) (n : NodeRef) :
    (∀ node, (kind.handler (.getNode n.label.value n.key) w₁.world.store).1 = .ok (some node) →
      ∃ node', (kind.handler (.getNode n.label.value n.key) w₂.world.store).1 = .ok (some node') ∧
        Shows n node ∧ Shows n node' ∧ node.keys ⊆ node'.keys) ∧
    ∀ relType pairs,
      (kind.handler (.outNeighbors n.label.value n.key relType) w₁.world.store).1 = .ok pairs →
      ∃ pairs', (kind.handler (.outNeighbors n.label.value n.key relType) w₂.world.store).1 =
          .ok pairs' ∧
        ∀ p ∈ pairs, ∃ l : Link, l.source = n ∧ Shows l.target p.1 ∧
          PropertyGraph.fits l.key p.2 = true ∧
          ∃ p' ∈ pairs', Shows l.target p'.1 ∧ PropertyGraph.fits l.key p'.2 = true := by
  obtain ⟨hkept₁, hkept₂, hle, -⟩ := visits hvisitors H₁ H₂
  have H := kind.showing
  refine ⟨fun node hnode => ?_, fun relType pairs hpairs => ?_⟩
  · obtain ⟨hknown, hshows, hkeys⟩ := (H.getNode hkept₁ hnode).2 node rfl
    obtain ⟨x, hx⟩ := H.findsAgain hnode w₂.world.store
    obtain ⟨hnone, hsome⟩ := H.getNode hkept₂ (congrArg Prod.fst hx)
    rcases x with _ | node'
    · exact (hnone rfl (hle.known n hknown)).elim
    obtain ⟨-, hshows', hkeys'⟩ := hsome node' rfl
    exact ⟨node', congrArg Prod.fst hx, hshows, hshows', fun f hf =>
      (hkeys' f).mpr (hle.has n f ((hkeys f).mp hf))⟩
  · obtain ⟨pairs', hpairs'⟩ := H.listsAgain hpairs w₂.world.store
    refine ⟨pairs', congrArg Prod.fst hpairs', fun p hp => ?_⟩
    obtain ⟨l, hl, hsource, hshows, hkey⟩ := (H.outNeighbors hkept₁ hpairs).1 p hp
    exact ⟨l, hsource, hshows, hkey,
      (H.outNeighbors hkept₂ (congrArg Prod.fst hpairs')).2 l (hle.there relType l hl) hsource⟩

/-- **A reading lies between its surroundings**: whatever the order in which the users of the
platform make their calls, on either store, a `resolve_column` never raises, its calls are answered,
and it returns no less than it would return by itself when it begins, and no more than it would
return by itself when it has returned. -/
theorem reads_between (hvisitors : ∀ v ∈ visitors, v.KeepsNodes)
    (H₁ : Program.Pool (IngestState.handler source kind.handler) (visitors.map Visitor.program)
      ⟨⟨kind.empty, queues⟩, ledger⟩ l₁ ps w₁)
    {i : Nat} (hbegins : ps[i]? = some (Visitor.reads system table name).program)
    (H₂ : Program.Pool (IngestState.handler source kind.handler) ps w₁ l₂ qs w₂)
    {q : IngestProgram Visitor.Result} (hends : qs[i]? = some q) :
    q.Proceeds (IngestState.handler source kind.handler) (fun result w => ∃ before a after,
      (GraphClient.resolveColumn system table name).run kind.handler w₁.world.store =
          (.ok before, w₁.world.store) ∧
        result = .inl a ∧
        (GraphClient.resolveColumn system table name).run kind.handler w.world.store =
          (.ok after, w.world.store) ∧
        GraphClient.ResolvedColumn.Within before a ∧ GraphClient.ResolvedColumn.Within a after)
      w₂ := by
  obtain ⟨hkept₁, hkept₂, -, huses⟩ := visits hvisitors H₁ H₂
  have hread := resolveColumn_withstands kind.showing kind.reads_same system table name
    w₁.world.store
  have hlift := (hread.lift (ResolverState.lifting kind.handler) (fun v v' =>
    kind.view.Grows kind.WellKept v.store v'.store) id).lift
    (IngestState.lifting source kind.handler) kind.GrowsIn id
  have hprogram : (Visitor.reads system table name).program.Withstands
      (IngestState.handler source kind.handler) kind.GrowsIn
      (fun w => kind.WellKept w.world.store ∧ kind.view.Le w₁.world.store w.world.store)
      fun result w => ∃ a, result = .inl a ∧
        kind.view.Lists w₁.world.store w.world.store system table name a := by
    refine hlift.bind (fun _ => .refl _) fun a => .ret fun w w' hgrows hw => ⟨a, rfl, ?_⟩
    exact hw.2.later (hgrows hw.1.1).2
  have hq := hprogram ⟨hkept₁, .refl _⟩
    (H₂.among (fun _ => .refl _) .trans grows_call huses hbegins hends)
  cases q with
  | ret result =>
    obtain ⟨a, rfl, hlists⟩ := hq
    obtain ⟨before, after, hbefore, hafter, hwithin⟩ :=
      hlists.between kind.showing kind.reads_same hkept₁ hkept₂
    exact ⟨before, a, after, hbefore, rfl, hafter, hwithin⟩
  | throw e => exact hq
  | call c k => exact hq

end visits

end runs

/-- A column and its metric are still found after the column has been confirmed once more. -/
theorem nothing_lost_column :
    let prov : EdgeProvenance := ⟨"r", "t", "u"⟩
    let column : Write := .node (.column "s" "t" "n") (clean (columnProps none [] false)) []
    let metric : Write := .node (.metric (.str "m"))
      (clean (metricProps none none none none none ∅)) []
    let link : Write := .link (.measures "s" "t" "n" (.str "m")) prov
    let next (g : Neo4jGraph) (w : Write) : Neo4jGraph := (Neo4jGraphStore.handler w.call g).2
    let g₁ := next (next (next ∅ column) metric) link
    let g₂ := next (next g₁ link) (aliasWrite "m" [.str "n"])
    let key := columnKey "s" "t" "n"
    (∃ node node', (Neo4jGraphStore.handler (.getNode "Column" key) g₁).1 = .ok (some node) ∧
      (Neo4jGraphStore.handler (.getNode "Column" key) g₂).1 = .ok (some node') ∧
        Shows (.column "s" "t" "n") node ∧ Shows (.column "s" "t" "n") node' ∧
        node.keys ⊆ node'.keys) ∧
    ∃ p pairs, (Neo4jGraphStore.handler (.outNeighbors "Column" key "MEASURES") g₁).1 = .ok [p] ∧
      (Neo4jGraphStore.handler (.outNeighbors "Column" key "MEASURES") g₂).1 = .ok pairs ∧
      ∃ l : Link, l.source = .column "s" "t" "n" ∧ Shows l.target p.1 ∧
        PropertyGraph.fits l.key p.2 = true ∧
        ∃ p' ∈ pairs, Shows l.target p'.1 ∧ PropertyGraph.fits l.key p'.2 = true := by
  intro prov column metric link next g₁ g₂ key
  let source : Source := ⟨[], fun _ => .error .typeError, fun _ => .error .typeError⟩
  let confirms : Visitor :=
    .performs ∅ (.confirm { system := "s", table := "t", name := "n" } "m" prov)
  let visitors : List Visitor := [
    .performs ∅ (.client (.upsertColumn "s" "t" "n" none [] false)),
    .performs ∅ (.client (.upsertMetric "m" none none none none none ∅)),
    .performs ∅ (.client (.linkColumnToMetric "s" "t" "n" "m" prov)), confirms]
  have hvisitors : ∀ v ∈ visitors, v.KeepsNodes := by
    simp only [visitors, List.forall_mem_cons]
    have hkeeps : KeepsIdentity (.metric (.str "m")) ∅ := by decide
    have hfree : GraphClient.CoreFree ∅ := fun _ h => by cases h
    exact ⟨⟨trivial, hfree⟩, ⟨hkeeps, hfree⟩, ⟨trivial, hfree⟩, ⟨trivial, hfree⟩,
      fun _ h => by cases h⟩
  have H₁ : Program.Pool (IngestState.handler source Backend.neo4j.handler)
      (visitors.map Visitor.program) ⟨⟨Backend.neo4j.empty, []⟩, ∅⟩ _
      [.ret (.inr .done), .ret (.inr .done), .ret (.inr .done), confirms.program]
      ⟨⟨g₁, []⟩, ∅⟩ :=
    .call (i := 0) rfl rfl <| .call (i := 1) rfl rfl <| .call (i := 2) rfl rfl .refl
  have H₂ : Program.Pool (IngestState.handler source Backend.neo4j.handler)
      [.ret (.inr .done), .ret (.inr .done), .ret (.inr .done), confirms.program]
      ⟨⟨g₁, []⟩, ∅⟩ _
      [.ret (.inr .done), .ret (.inr .done), .ret (.inr .done), .ret (.inr .done)]
      ⟨⟨g₂, []⟩, ∅⟩ :=
    .call (i := 3) rfl rfl <| .call (i := 3) rfl rfl <| .call (i := 3) rfl rfl .refl
  obtain ⟨hnode, hpairs⟩ := nothing_lost hvisitors H₁ H₂ (.column "s" "t" "n")
  obtain ⟨node', hnode', hshows, hshows', hkeys⟩ := hnode _ rfl
  obtain ⟨pairs, hpairs', hlisted⟩ := hpairs "MEASURES" _ rfl
  exact ⟨⟨_, node', rfl, hnode', hshows, hshows', hkeys⟩,
    _, pairs, rfl, hpairs', hlisted _ (List.mem_singleton_self _)⟩

/-- A column is found, then confirmed, and then its metrics are looked up. -/
theorem reads_between_confirmed :
    let column : Write := .node (.column "s" "t" "n") (clean (columnProps none [] false)) []
    let link : Write := .link (.measures "s" "t" "n" (.str "m")) ⟨"r", "t", "u"⟩
    let g₁ := (InMemoryGraphStore.handler column.call ∅).2
    let g₂ := (InMemoryGraphStore.handler link.call g₁).2
    let g₃ := (InMemoryGraphStore.handler (aliasWrite "m" [.str "n"]).call g₂).2
    let listed : Option GraphClient.ResolvedColumn := some {
      column := (g₁.nodes.get? (NodeRef.column "s" "t" "n").id).getD ∅
      metrics := [{
        metric := (g₃.nodes.get? (NodeRef.metric (.str "m")).id).getD ∅
        appliesTo := [] }] }
    ∃ before after, (GraphClient.resolveColumn "s" "t" "n").run InMemoryGraphStore.handler g₁ =
        (.ok before, g₁) ∧
      (GraphClient.resolveColumn "s" "t" "n").run InMemoryGraphStore.handler g₃ =
        (.ok after, g₃) ∧
      GraphClient.ResolvedColumn.Within before listed ∧
      GraphClient.ResolvedColumn.Within listed after := by
  intro column link g₁ g₂ g₃ listed
  let source : Source := ⟨[], fun _ => .error .typeError, fun _ => .error .typeError⟩
  let confirms : Visitor :=
    .performs ∅ (.confirm { system := "s", table := "t", name := "n" } "m" ⟨"r", "t", "u"⟩)
  let reads : Visitor := .reads "s" "t" "n"
  let visitors : List Visitor :=
    [.performs ∅ (.client (.upsertColumn "s" "t" "n" none [] false)), confirms, reads]
  have hvisitors : ∀ v ∈ visitors, v.KeepsNodes := by
    simp only [visitors, List.forall_mem_cons]
    exact ⟨⟨trivial, fun _ h => by cases h⟩, ⟨trivial, fun _ h => by cases h⟩, trivial,
      fun _ h => by cases h⟩
  have H₁ : Program.Pool (IngestState.handler source Backend.inMemory.handler)
      (visitors.map Visitor.program) ⟨⟨Backend.inMemory.empty, []⟩, ∅⟩ _
      [.ret (.inr .done), confirms.program, reads.program] ⟨⟨g₁, []⟩, ∅⟩ :=
    .call (i := 0) rfl rfl .refl
  have H₂ : Program.Pool (IngestState.handler source Backend.inMemory.handler)
      [.ret (.inr .done), confirms.program, reads.program] ⟨⟨g₁, []⟩, ∅⟩ _
      [.ret (.inr .done), .ret (.inr .done), .ret (.inl listed)] ⟨⟨g₃, []⟩, ∅⟩ :=
    .call (i := 2) rfl rfl <| .call (i := 1) rfl rfl <| .call (i := 1) rfl rfl <|
      .call (i := 1) rfl rfl <| .call (i := 2) rfl rfl <| .call (i := 2) rfl rfl .refl
  obtain ⟨before, a, after, hbefore, ha, hafter, hwithin⟩ :=
    reads_between hvisitors H₁ (i := 2) rfl H₂ rfl
  cases Sum.inl.inj ha
  exact ⟨before, after, hbefore, hafter, hwithin⟩

end Backend

end MarginKG
