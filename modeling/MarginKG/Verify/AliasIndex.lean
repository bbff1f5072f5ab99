import MarginKG.Verify.Writes

/-! The tier-1 index, read off the metrics of the graph.

`metric_aliases` builds the index anew from all metrics, a later one overwriting an earlier one.
`answer` is what one metric says about a name, `lookup` what the last answering metric says, and
this is what the index holds (`aliasIndex_spec`). A write to a metric replaces one entry of the
list of metrics, or appends one (`metrics_write`), so its effect on the index is its effect on one
answer. The terms that tier 2 matches are read off the metrics alike (`termIndex_eq`). -/

namespace MarginKG

section answers
variable [Python]

/-- What a metric says about a case-folded name: its key, when one of its aliases folds to it. -/
def answer (name : String) (m : Props) : Option Value :=
  match aliasesOf m with
  | .ok aliases =>
    if name ∈ aliases.map fun a => casefold a.pyStr then m.get? "metric_key" else none
  | .error _ => none

theorem answer_of_aliases (h : aliasesOf m = .ok aliases) (name : String) : answer name m =
    if name ∈ aliases.map fun a => casefold a.pyStr then m.get? "metric_key" else none := by
  rw [answer, h]

omit [Python] in
/-- The aliases of the metric can be read, and its key where there are any. -/
def Indexable (m : Props) : Prop :=
  ∃ aliases, aliasesOf m = .ok aliases ∧ (aliases ≠ [] → (m.get? "metric_key").isSome)

/-- What the last metric that answers says. -/
def lookup (name : String) (metrics : List Props) : Option Value :=
  metrics.foldl (fun found m => (answer name m).or found) none

theorem lookup_append (name : String) (l₁ l₂ : List Props) :
    lookup name (l₁ ++ l₂) = (lookup name l₂).or (lookup name l₁) := by
  have h (found : Option Value) : l₂.foldl (fun found m => (answer name m).or found) found =
      (lookup name l₂).or found := by
    rw [lookup]
    suffices ∀ f g : Option Value, l₂.foldl (fun found m => (answer name m).or found) (f.or g) =
        (l₂.foldl (fun found m => (answer name m).or found) f).or g from this none found
    induction l₂ with
    | nil => exact fun _ _ => rfl
    | cons m l ih =>
      intro f g
      rw [List.foldl_cons, List.foldl_cons, ← Option.or_assoc, ih]
  rw [lookup, List.foldl_append]
  exact h _

@[simp] theorem lookup_singleton (name : String) (m : Props) :
    lookup name [m] = answer name m := Option.or_none

theorem lookup_cons (name : String) (m : Props) (l : List Props) :
    lookup name (m :: l) = (lookup name l).or (answer name m) := by
  rw [← List.singleton_append, lookup_append, lookup_singleton]

theorem lookup_eq_none {metrics : List Props} :
    lookup name metrics = none ↔ ∀ m ∈ metrics, answer name m = none := by
  induction metrics with
  | nil => simp [lookup]
  | cons m l ih => simp [lookup_cons, ih, and_comm]

/-- The name is found at a metric that answers it. -/
theorem lookup_mem {metrics : List Props} (h : lookup name metrics = some v) :
    ∃ m ∈ metrics, answer name m = some v := by
  induction metrics with
  | nil => cases h
  | cons m l ih =>
    rw [lookup_cons, Option.or_eq_some_iff] at h
    rcases h with h | ⟨-, h⟩
    · obtain ⟨m', hm', ha⟩ := ih h
      exact ⟨m', List.mem_cons_of_mem _ hm', ha⟩
    · exact ⟨m, List.mem_cons_self, h⟩

theorem answer_key (h : answer name m = some v) : m.get? "metric_key" = some v := by
  rw [answer] at h
  split at h
  · split at h
    · exact h
    · cases h
  · cases h

/-- One turn of the loop of `metric_aliases`. -/
theorem indexMetric_ok (index : Dict String Value) (h : Indexable m) :
    ∃ index', indexMetric index m = .ok index' ∧
      ∀ name, index'.get? name = (answer name m).or (index.get? name) := by
  obtain ⟨aliases, ha, hkey⟩ := h
  simp only [indexMetric, answer, ha]
  change ∃ index', aliases.foldlM (fun index a => do
    let k ← metricKeyOf m
    return index.set (casefold a.pyStr) k) index = .ok index' ∧ _
  rcases aliases with _ | ⟨a, l⟩
  · exact ⟨index, rfl, by simp⟩
  obtain ⟨k, hk⟩ := Option.isSome_iff_exists.mp (hkey (by simp))
  clear ha hkey
  generalize a :: l = aliases
  simp only [metricKeyOf, hk]
  induction aliases generalizing index with
  | nil => exact ⟨index, rfl, by simp⟩
  | cons a l ih =>
    obtain ⟨index', hrun, hget⟩ := ih (index.set (casefold a.pyStr) k)
    refine ⟨index', hrun, fun name => ?_⟩
    rw [hget, Dict.get?_set]
    by_cases hl : name ∈ l.map fun a => casefold a.pyStr
    · simp only [List.map_cons, List.mem_cons, hl, or_true, if_true]
      rfl
    · by_cases hn : name = casefold a.pyStr
      · subst hn; simp [hl]
      · simp [hl, hn, Ne.symm hn]

theorem indexMetric_error (index : Dict String Value) (h : ¬ Indexable m) :
    ∃ e, indexMetric index m = .error e := by
  rw [indexMetric]
  rcases ha : aliasesOf m with e | aliases
  · exact ⟨e, rfl⟩
  · have hkey : aliases ≠ [] ∧ m.get? "metric_key" = none := by
      by_contra hk
      exact h ⟨aliases, ha, fun hne => by
        rw [Option.isSome_iff_ne_none]; exact fun hn => hk ⟨hne, hn⟩⟩
    obtain ⟨a, l, rfl⟩ := List.exists_cons_of_ne_nil hkey.1
    refine ⟨.keyError "metric_key", ?_⟩
    simp only [bind, Except.bind, List.foldlM_cons, metricKeyOf, hkey.2]
    rfl

/-- The index is built exactly when every metric can be indexed, and holds what `lookup` finds. -/
theorem aliasIndex_spec (metrics : List Props) :
    (∀ m ∈ metrics, Indexable m) ∧ (∃ index, aliasIndex metrics = .ok index ∧
        ∀ name, index.get? name = lookup name metrics) ∨
      (¬ ∀ m ∈ metrics, Indexable m) ∧ ∃ e, aliasIndex metrics = .error e := by
  suffices ∀ index : Dict String Value,
      (∀ m ∈ metrics, Indexable m) ∧ (∃ index', metrics.foldlM indexMetric index = .ok index' ∧
        ∀ name, index'.get? name = (lookup name metrics).or (index.get? name)) ∨
      (¬ ∀ m ∈ metrics, Indexable m) ∧ ∃ e, metrics.foldlM indexMetric index = .error e by
    simpa [aliasIndex] using this ∅
  induction metrics with
  | nil => exact fun index => .inl ⟨by simp, index, rfl, fun _ => rfl⟩
  | cons m l ih =>
    intro index
    rw [List.foldlM_cons]
    by_cases hm : Indexable m
    · obtain ⟨index₁, hrun, hget⟩ := indexMetric_ok index hm
      rw [hrun]
      rcases ih index₁ with ⟨hl, index', hrun', hget'⟩ | ⟨hl, e, he⟩
      · refine .inl ⟨List.forall_mem_cons.mpr ⟨hm, hl⟩, index', hrun', fun name => ?_⟩
        rw [hget', hget, lookup_cons, Option.or_assoc]
      · exact .inr ⟨fun h => hl fun m' hm' => h m' (List.mem_cons_of_mem _ hm'), e, he⟩
    · obtain ⟨e, he⟩ := indexMetric_error index hm
      rw [he]
      exact .inr ⟨fun h => hm (h m List.mem_cons_self), e, rfl⟩

theorem aliasIndex_ok {metrics : List Props} (h : aliasIndex metrics = .ok index) :
    (∀ m ∈ metrics, Indexable m) ∧ ∀ name, index.get? name = lookup name metrics := by
  rcases aliasIndex_spec metrics with ⟨hm, index', hrun, hget⟩ | ⟨-, e, he⟩
  · rw [hrun] at h
    cases h
    exact ⟨hm, hget⟩
  · rw [he] at h
    cases h

theorem aliasIndex_of_indexable {metrics : List Props} (h : ∀ m ∈ metrics, Indexable m) :
    ∃ index, aliasIndex metrics = .ok index ∧ ∀ name, index.get? name = lookup name metrics := by
  rcases aliasIndex_spec metrics with ⟨-, hok⟩ | ⟨hm, -⟩
  · exact hok
  · exact absurd h hm

/-! The terms of the metrics. -/

theorem termsOf_key (h : termsOf m = .ok (metricKey, ts)) :
    m.get? "metric_key" = some (.str metricKey) := by
  rcases ha : aliasesOf m with e | aliases
  · simp only [termsOf, ha] at h
    cases h
  rcases hk : m.get? "metric_key" with _ | v <;> simp only [termsOf, ha, metricKeyOf, hk] at h
  · cases h
  · cases v <;> cases h
    rfl

/-- The loop of `metric_terms` stores the terms of the metrics one after the other. -/
theorem termIndex_eq (metrics : List Props) :
    termIndex metrics = (metrics.mapM termsOf).map Dict.ofList := by
  suffices ∀ d : Dict String (List String), metrics.foldlM (fun out m => do
      let kt ← termsOf m
      return out.set kt.1 kt.2) d = (metrics.mapM termsOf).map d.setAll from this ∅
  induction metrics with
  | nil => exact fun d => rfl
  | cons m metrics ih =>
    intro d
    rw [List.foldlM_cons, List.mapM_cons]
    rcases termsOf m with e | ⟨k, terms⟩
    · rfl
    · change metrics.foldlM _ (d.set k terms) = _
      rw [ih]
      rcases metrics.mapM termsOf with e | es <;> rfl

/-- What the loop of `metric_terms` records is what one of the metrics says. -/
theorem termIndex_mem {metrics : List Props} (hindex : termIndex metrics = .ok index)
    (hts : index.get? metricKey = some ts) : ∃ m ∈ metrics, termsOf m = .ok (metricKey, ts) := by
  rw [termIndex_eq] at hindex
  rcases hes : metrics.mapM termsOf with e | es <;> rw [hes] at hindex <;> cases hindex
  rcases Dict.mem_of_get?_setAll hts with h | hmem
  · cases h
  · obtain ⟨m, hm, hterms⟩ := exists_mem_of_forall₂ (Program.mapM_eq_ok.mp hes) hmem
    exact ⟨m, hm, hterms⟩

end answers

/-! ## Writes to metrics -/

namespace InMemoryGraphStore

/-- The stored properties of the metrics, in the order in which the metrics were created. -/
abbrev metrics (g : InMemoryGraphStore) : List Props := g.nodesByLabel CoreLabel.metric.value

/-- The properties of a node after a write, its labels aside. -/
theorem updateNode_get? {f : String} (hf : f ≠ "_labels") (node setProps : Props)
    (extraLabels : List String) :
    (updateNode node setProps extraLabels).2.get? f = (setProps.get? f).or (node.get? f) := by
  simp only [updateNode]
  split
  · rw [Dict.get?_set_of_ne (Ne.symm hf), Dict.get?_update]
  · exact Dict.get?_update ..
  · exact Dict.get?_update ..

/-- A write to a node of another label leaves the metrics as they are. -/
theorem metrics_node_of_ne (g : InMemoryGraphStore) {n : NodeRef} (hn : n.label ≠ .metric)
    (setProps : Props) (extraLabels : List String) :
    (handler (Write.node n setProps extraLabels).call g).2.metrics = g.metrics := by
  rw [handler_node]
  split
  · have hlabel : n.id.label ≠ CoreLabel.metric.value := fun h => hn (CoreLabel.value_inj.mp h)
    rcases hk : g.nodes.get? n.id with _ | node
    · simp [metrics, nodesByLabel, Dict.set_append hk, hlabel]
    · obtain ⟨l₁, l₂, hitems, hset⟩ := Dict.set_split hk
        (updateNode (g.node n) setProps extraLabels).2
      simp [metrics, nodesByLabel, hitems, hset, hlabel]
  · rfl

theorem metrics_link (g : InMemoryGraphStore) (l : Link) (prov : EdgeProvenance) :
    (handler (Write.link l prov).call g).2.metrics = g.metrics := by
  rw [handler_link]
  split <;> rfl

theorem mem_metrics {g : InMemoryGraphStore} {x : Props} :
    x ∈ g.metrics ↔ ∃ k, k.label = CoreLabel.metric.value ∧ g.nodes.get? k = some x := by
  simp only [metrics, nodesByLabel, List.mem_map, List.mem_filter, decide_eq_true_eq]
  constructor
  · rintro ⟨⟨k, y⟩, ⟨hmem, hlabel⟩, rfl⟩
    exact ⟨k, hlabel, Dict.mem_items.mp hmem⟩
  · rintro ⟨k, hlabel, hk⟩
    exact ⟨(k, x), ⟨Dict.mem_items.mpr hk, hlabel⟩, rfl⟩

/-- The list `ms` with `new` in the place of `old`, or at the end when there is no `old`. -/
def Replaces (ms ms' : List Props) (old : Option Props) (new : Props) : Prop :=
  match old with
  | some x => ∃ l₁ l₂, ms = l₁ ++ x :: l₂ ∧ ms' = l₁ ++ new :: l₂
  | none => ms' = ms ++ [new]

/-- A write to a metric replaces its properties in place, or appends a new metric. -/
theorem metrics_write (g : InMemoryGraphStore) {k : Value} (hk : k.hashable) (setProps : Props)
    (extraLabels : List String) :
    Replaces g.metrics (handler (Write.node (.metric k) setProps extraLabels).call g).2.metrics
      (g.nodes.get? (NodeRef.metric k).id)
      (updateNode (g.node (.metric k)) setProps extraLabels).2 := by
  rw [handler_node_of_hashable g (n := .metric k) hk]
  have hlabel : (NodeRef.metric k).id.label = CoreLabel.metric.value := rfl
  rcases hx : g.nodes.get? (NodeRef.metric k).id with _ | x
  · simp [Replaces, metrics, nodesByLabel, Dict.set_append hx, hlabel]
  · obtain ⟨l₁, l₂, hitems, hset⟩ := Dict.set_split hx
      (updateNode (g.node (.metric k)) setProps extraLabels).2
    refine ⟨(l₁.filter (·.1.label = CoreLabel.metric.value)).map Prod.snd,
      (l₂.filter (·.1.label = CoreLabel.metric.value)).map Prod.snd, ?_, ?_⟩
    · simp [metrics, nodesByLabel, hitems, hlabel]
    · simp [metrics, nodesByLabel, hset, hlabel]

end InMemoryGraphStore

/-- Loading a bundle leaves the metrics as they are. -/
theorem ParsedBundle.Writes.metrics_eq {c : GraphClient} {b : ParsedBundle} (hw : b.Writes c w)
    (g : InMemoryGraphStore) :
    (InMemoryGraphStore.handler w.call g).2.metrics = g.metrics := by
  cases hw with
  | document | column | entity =>
    exact InMemoryGraphStore.metrics_node_of_ne g (fun h => by cases h) _ _
  | _ => exact InMemoryGraphStore.metrics_link g _ _

theorem iter_of_not_truthy {v : Value} (hv : ¬ v.truthy) (h : v.iter = some l) : l = [] := by
  cases v with
  | str s =>
    have hs : s = "" := by simpa [Value.truthy] using hv
    subst hs; cases h; rfl
  | list items =>
    have hs : items = [] := by simpa [Value.truthy] using hv
    subst hs; cases h; rfl
  | set items =>
    have hs : items = ∅ := by simpa [Value.truthy] using hv
    subst hs; cases h; simp
  | null | bool | int | obj => cases h

/-- Where the aliases of a metric can be extended, they are the ones the index reads. -/
theorem aliasesOf_of_iter {x : Props} (hx : x.get? "aliases" = some v) (hv : v.iter = some l) :
    aliasesOf x = .ok l := by
  simp only [aliasesOf, hx]
  split
  · rw [hv]; rfl
  · rename_i ht
    rw [iter_of_not_truthy ht hv]

section runs
variable [Python]

open InMemoryGraphStore

namespace InMemoryGraphStore.Replaces

variable {ms ms' : List Props} {old : Option Props} {new : Props}

omit [Python] in
theorem indexable (h : Replaces ms ms' old new) (hms : ∀ m ∈ ms, Indexable m)
    (hnew : Indexable new) : ∀ m ∈ ms', Indexable m := by
  rcases old with _ | x
  · rw [Replaces] at h
    subst h
    simpa [or_imp, forall_and] using ⟨hms, hnew⟩
  · obtain ⟨l₁, l₂, rfl, rfl⟩ := h
    simp only [List.mem_append, List.mem_cons] at hms ⊢
    rintro m (hm | rfl | hm)
    · exact hms m (.inl hm)
    · exact hnew
    · exact hms m (.inr (.inr hm))

/-- A name that the new entry answers as the old one did is found as before. -/
theorem lookup_same (h : Replaces ms ms' old new)
    (hans : answer name new = old.bind (answer name)) :
    lookup name ms' = lookup name ms := by
  rcases old with _ | x
  · rw [Replaces] at h
    subst h
    rw [lookup_append, lookup_singleton, hans]
    rfl
  · obtain ⟨l₁, l₂, rfl, rfl⟩ := h
    rw [lookup_append, lookup_append, lookup_cons, lookup_cons, hans]
    rfl

/-- A name that nothing answered is found at the new entry. -/
theorem lookup_new (h : Replaces ms ms' old new) (hnone : lookup name ms = none)
    (hans : answer name new = some v) : lookup name ms' = some v := by
  rcases old with _ | x
  · rw [Replaces] at h
    subst h
    rw [lookup_append, lookup_singleton, hans]
    rfl
  · obtain ⟨l₁, l₂, rfl, rfl⟩ := h
    rw [lookup_append, lookup_cons, Option.or_eq_none_iff, Option.or_eq_none_iff] at hnone
    rw [lookup_append, lookup_cons, hnone.1.1, hans]
    rfl

/-- A name keeps what it is found at, when the new entry agrees or does not answer it, and it was
not found at the old entry in the latter case. -/
theorem lookup_keep (h : Replaces ms ms' old new) (hms : lookup name ms = some v)
    (hans : answer name new = some v ∨ answer name new = none ∧ old.bind (answer name) ≠ some v) :
    lookup name ms' = some v := by
  rcases old with _ | x
  · rw [Replaces] at h
    subst h
    rw [lookup_append, lookup_singleton, hms]
    rcases hans with hans | ⟨hans, -⟩ <;> rw [hans] <;> rfl
  · obtain ⟨l₁, l₂, rfl, rfl⟩ := h
    rw [lookup_append, lookup_cons] at hms ⊢
    rcases hl₂ : lookup name l₂ with _ | u
    · rcases hans with hans | ⟨hans, hold⟩
      · rw [hans]; rfl
      · rw [hl₂, Option.none_or] at hms
        rw [hans, Option.none_or, Option.none_or]
        rcases hx : answer name x with _ | u
        · rwa [hx] at hms
        · rw [hx] at hms
          exact absurd (hx.trans hms) hold
    · rw [hl₂] at hms
      exact hms

/-- A new entry with the aliases and the key of the old one changes nothing that is found. -/
theorem lookup_eq (h : Replaces ms ms' old new) (hms : ∀ m ∈ ms, Indexable m)
    (haliases : new.get? "aliases" = old.bind (·.get? "aliases"))
    (hkey : new.get? "metric_key" = some v)
    (hold : ∀ x, old = some x → x.get? "metric_key" = some v) :
    (∀ m ∈ ms', Indexable m) ∧ ∀ name, lookup name ms' = lookup name ms := by
  rcases old with _ | x
  · have hnew : aliasesOf new = .ok [] := by rw [aliasesOf, haliases]; rfl
    refine ⟨h.indexable hms ⟨[], hnew, fun hne => absurd rfl hne⟩, fun name => ?_⟩
    exact h.lookup_same (answer_of_aliases hnew name)
  · have hnew : aliasesOf new = aliasesOf x := by rw [aliasesOf, haliases]; rfl
    have hx : x ∈ ms := by
      obtain ⟨l₁, l₂, rfl, -⟩ := h
      exact List.mem_append_right _ List.mem_cons_self
    obtain ⟨aliases, ha, -⟩ := hms x hx
    refine ⟨h.indexable hms ⟨aliases, hnew.trans ha, fun _ => by rw [hkey]; rfl⟩, fun name => ?_⟩
    apply h.lookup_same
    rw [Option.bind_some, answer, answer, hnew, hkey, hold x rfl]

end InMemoryGraphStore.Replaces

theorem metricAliases_run (g : InMemoryGraphStore) :
    GraphClient.metricAliases.run handler g = (aliasIndex g.metrics, g) := by
  rw [GraphClient.metricAliases, Program.call_bind, Program.run_call_ok rfl, Program.ret_bind]
  change (Program.ofExcept (aliasIndex g.metrics)).run handler g = _
  rcases aliasIndex g.metrics with e | index <;> rfl

theorem metricTerms_run (g : InMemoryGraphStore) :
    GraphClient.metricTerms.run handler g = (termIndex g.metrics, g) := by
  rw [GraphClient.metricTerms, Program.call_bind, Program.run_call_ok rfl, Program.ret_bind]
  change (Program.ofExcept (termIndex g.metrics)).run handler g = _
  rcases termIndex g.metrics with e | terms <;> rfl

/-- The metric that a column of this name auto-links to. -/
def InMemoryGraphStore.hit (g : InMemoryGraphStore) (name : String) : Option Value :=
  match aliasIndex g.metrics with
  | .ok index => (index.get? (casefold name)).filter (· ≠ .null)
  | .error _ => none

theorem hit_of_index {g : InMemoryGraphStore} (hindex : aliasIndex g.metrics = .ok index)
    (name : String) : g.hit name = (index.get? (casefold name)).filter (· ≠ .null) := by
  rw [hit, hindex]

theorem hit_eq_some {g : InMemoryGraphStore} : g.hit name = some v ↔
    (∀ m ∈ g.metrics, Indexable m) ∧ lookup (casefold name) g.metrics = some v ∧ v ≠ .null := by
  rw [hit]
  rcases aliasIndex_spec g.metrics with ⟨hm, index, hrun, hget⟩ | ⟨hm, e, he⟩
  · simp only [hrun, hget, Option.filter_eq_some_iff, decide_eq_true_eq]
    exact ⟨fun h => ⟨hm, h⟩, And.right⟩
  · simp [he, hm]

/-- The resolution auto-links the column exactly when the index has its name. -/
theorem resolve_autoLinked (r : Resolver) (col : ObservedColumn)
    (w : ResolverState InMemoryGraphStore) :
    (∃ out, ((r.resolve col).run (ResolverState.handler handler) w).1 = .ok out ∧
      out.tier = .autoLinked ∧ out.metricKey = some v) ↔ w.store.hit col.name = some v := by
  rw [Resolver.resolve, Program.run_bind, ResolverState.run_liftStore, metricAliases_run, hit]
  rcases aliasIndex w.store.metrics with e | index
  · simp
  dsimp only
  split
  · rename_i hit hhit
    rw [hhit]
    simp
  rename_i hhit
  rw [hhit]
  simp only [reduceCtorEq, iff_false, not_exists, not_and]
  intro out hrun htier
  split at hrun
  · cases hrun; cases htier
  rw [Program.run_bind, ResolverState.run_liftStore] at hrun
  rcases hterms : GraphClient.metricTerms.run handler w.store with ⟨e | terms, g⟩ <;>
    rw [hterms] at hrun
  · cases hrun
  dsimp only at hrun
  rcases hs : r.suggester col terms with e | ranked <;> rw [hs] at hrun
  · cases hrun
  dsimp only [Program.ofExcept_ok, Program.ret_bind] at hrun
  split at hrun <;> cases hrun <;> cases htier

end runs

end MarginKG
