import MarginKG.Resolver.Suggest
import MarginKG.Verify.Verdict

/-! The rules by which the funnel decides (`decidesByRules_iff`).

The rules are stated over the metrics themselves: which of them have an alias, and how they rank by
their best similarity. `resolve` works on two maps that are built from the metrics, and the terms of
a metric are lost from one of them when a later metric shows the same key. -/

namespace MarginKG

open InMemoryGraphStore

/-! ## The rules -/

/-- What `difflib` and `round` are relied on for. -/
structure Similarity.Lawful (sim : Similarity) : Prop where
  nonneg : ∀ a b, 0 ≤ sim.ratio a b
  le_one : ∀ a b, sim.ratio a b ≤ 1
  mono : Monotone sim.round4

section rules
variable [Python]

/-- The metric has an alias that is equal to the name up to case. -/
def Aliased (m : Props) (name : String) : Prop :=
  ∃ aliases, aliasesOf m = .ok aliases ∧ ∃ a ∈ aliases, casefold a.pyStr = casefold name

/-- The metric of this key is matched by its aliases and by the local part of the key. -/
def MatchedBy (m : Props) (metricKey name : String) : Prop :=
  name = localPart metricKey ∨
    ∃ aliases, aliasesOf m = .ok aliases ∧ ∃ a ∈ aliases, name = a.pyStr

/-- The best similarity of the column's name. The code folds what it matches twice: as a term, and
when it suggests. -/
def Best [Similarity] (column : ObservedColumn) (m : Props) (metricKey : String) (best : ℚ) :
    Prop :=
  IsGreatest {x | ∃ name, MatchedBy m metricKey name ∧
    x = Similarity.ratio (casefold column.name) (casefold (casefold name))} best

/-- The metric matches at all, and this is how it ranks. -/
structure Candidate [Similarity] (column : ObservedColumn) (m : Props) (s : Suggestion) :
    Prop where
  key : m.get? "metric_key" = some (.str s.metricKey)
  score : ∃ best, Best column m s.metricKey best ∧ 0 < best ∧ s.score = Similarity.round4 best

/-- All metrics that match, the best first, each key once. -/
structure Ranks [Similarity] (metrics : List Props) (column : ObservedColumn)
    (order : List Suggestion) : Prop where
  sorted : order.Pairwise Suggestion.Before
  nodup : (order.map Suggestion.metricKey).Nodup
  sound : ∀ s ∈ order, ∃ m ∈ metrics, Candidate column m s
  complete : ∀ m ∈ metrics, ∀ s, Candidate column m s →
    ∃ t ∈ order, t.metricKey = s.metricKey ∧ t.Before s

/-- The resolution is the one that the rules give. -/
structure Resolution.ByRules [Similarity] (out : Resolution) (metrics : List Props)
    (column : ObservedColumn) (threshold : ℚ) (topK : Nat) : Prop where
  column_eq : out.column = column
  autoLinked : out.tier = .autoLinked ↔ ∃ m ∈ metrics, Aliased m column.name
  named : out.tier = .autoLinked → ∃ m ∈ metrics, Aliased m column.name ∧
    ∃ k, m.get? "metric_key" = some k ∧ out.metricKey = some k
  documented : (¬ ∃ m ∈ metrics, Aliased m column.name) →
    (out.tier = .documented ↔ column.hasDictionary = true)
  suggested : (¬ ∃ m ∈ metrics, Aliased m column.name) → column.hasDictionary = false →
    (out.tier = .suggested ↔ ∃ m ∈ metrics, ∃ s, Candidate column m s ∧ threshold ≤ s.score)
  ranked : out.tier = .suggested → ∃ order, Ranks metrics column order ∧
    out.alternatives = order.take topK ∧ ∃ top, order.head? = some top ∧
      out.metricKey = some (.str top.metricKey) ∧ out.score = top.score
  escalated : out.tier ≠ .autoLinked → out.tier ≠ .documented → out.tier ≠ .suggested →
    out.tier = .escalated ∧ out.metricKey = none

/-- The resolutions say the same about their columns. -/
structure Resolution.Agrees (out out' : Resolution) : Prop where
  tier : out'.tier = out.tier
  metricKey : out'.metricKey = out.metricKey
  score : out'.score = out.score
  alternatives : out'.alternatives = out.alternatives

/-- Whatever the similarity, the threshold, the number of alternatives and the queues, the column is
decided by the rules; the decision leaves the graph as it is and enqueues itself when it is an
escalation; and it is the same for every column whose name is equal up to case. -/
def DecidesByRules (g : InMemoryGraphStore) (column : ObservedColumn) : Prop :=
  ∀ [sim : Similarity], sim.Lawful → ∀ (threshold : ℚ) (topK : Nat), 1 ≤ topK →
  ∀ (queues : List (List Resolution)) (queue : Nat), queue < queues.length →
    let r : Resolver := ⟨stringSimilaritySuggester, threshold, topK, queue⟩
    let answer (column : ObservedColumn) :=
      (r.resolve column).run (ResolverState.handler handler) ⟨g, queues⟩
    ∃ out w, answer column = (.ok out, w) ∧ out.ByRules g.metrics column threshold topK ∧
      w.store = g ∧
      w.queues = queues.modify queue (· ++ if out.tier = .escalated then [out] else []) ∧
      ∀ column', casefold column'.name = casefold column.name →
        column'.hasDictionary = column.hasDictionary →
        ∃ out' w', answer column' = (.ok out', w') ∧ out.Agrees out'

/-- The last of the metrics that show this key. -/
structure LastNamed (metrics : List Props) (metricKey : String) (m : Props) : Prop where
  key : m.get? "metric_key" = some (.str metricKey)
  last : ∃ l₁ l₂, metrics = l₁ ++ m :: l₂ ∧
    ∀ x ∈ l₂, x.get? "metric_key" ≠ some (.str metricKey)

/-- What the metrics of a key are matched by, up to case, matches the last of them. -/
def TermsKept (metrics : List Props) : Prop :=
  ∀ m ∈ metrics, ∀ k, m.get? "metric_key" = some (.str k) → ∀ name, MatchedBy m k name →
    ∀ last, LastNamed metrics k last →
      ∃ name', MatchedBy last k name' ∧ casefold (casefold name') = casefold (casefold name)

/-- The metrics can be read, and no terms that could match the column are lost. -/
structure InMemoryGraphStore.Decisive (g : InMemoryGraphStore) (column : ObservedColumn) :
    Prop where
  indexable : ∀ m ∈ g.metrics, Indexable m
  named : lookup (casefold column.name) g.metrics ≠ some .null
  keyed : (¬ ∃ m ∈ g.metrics, Aliased m column.name) → column.hasDictionary = false →
    ∀ m ∈ g.metrics, ∃ k, m.get? "metric_key" = some (.str k)
  kept : (¬ ∃ m ∈ g.metrics, Aliased m column.name) → column.hasDictionary = false →
    TermsKept g.metrics

end rules

/-! ## The metrics and their maps -/

section maps
variable [Python] {m : Props}

theorem answer_of_aliased (h : Aliased m name) :
    answer (casefold name) m = m.get? "metric_key" := by
  obtain ⟨aliases, haliases, a, ha, hname⟩ := h
  rw [answer_of_aliases haliases, if_pos (List.mem_map.mpr ⟨a, ha, hname⟩)]

theorem aliased_of_answer (h : answer (casefold name) m = some v) : Aliased m name := by
  rw [answer] at h
  split at h
  · rename_i aliases haliases
    split at h
    · rename_i hmem
      obtain ⟨a, ha, hname⟩ := List.mem_map.mp hmem
      exact ⟨aliases, haliases, a, ha, hname⟩
    · cases h
  · cases h

/-- Where all metrics are indexed, a name is found exactly when it is an alias. -/
theorem exists_aliased_iff {metrics : List Props} (hm : ∀ m ∈ metrics, Indexable m) :
    (∃ m ∈ metrics, Aliased m name) ↔ lookup (casefold name) metrics ≠ none := by
  rw [ne_eq, lookup_eq_none, not_forall]
  constructor
  · rintro ⟨m, hmem, halias⟩
    refine ⟨m, fun h => ?_⟩
    obtain ⟨aliases, haliases, hkey⟩ := hm m hmem
    obtain ⟨aliases', haliases', a, ha, -⟩ := id halias
    cases haliases.symm.trans haliases'
    have hkey := hkey (List.ne_nil_of_mem ha)
    rw [← answer_of_aliased halias, h hmem] at hkey
    cases hkey
  · rintro ⟨m, h⟩
    obtain ⟨hmem, hne⟩ := Classical.not_imp.mp h
    obtain ⟨v, hv⟩ := Option.ne_none_iff_exists'.mp hne
    exact ⟨m, hmem, aliased_of_answer hv⟩

theorem termsOf_of_key (hm : Indexable m) (hkey : m.get? "metric_key" = some (.str k)) :
    ∃ ts, termsOf m = .ok (k, ts) := by
  obtain ⟨aliases, haliases, -⟩ := hm
  simp only [termsOf, haliases, metricKeyOf, hkey]
  exact ⟨_, rfl⟩

/-- The terms of a metric are the names it is matched by, folded. -/
theorem mem_termsOf (h : termsOf m = .ok (k, ts)) :
    t ∈ ts ↔ ∃ name, MatchedBy m k name ∧ t = casefold name := by
  rcases haliases : aliasesOf m with e | aliases
  · simp only [termsOf, haliases] at h
    cases h
  have hkey := termsOf_key h
  simp only [termsOf, haliases, metricKeyOf, hkey] at h
  cases h
  simp only [Finset.mem_sort, Finset.mem_insert, List.mem_toFinset, List.mem_map, MatchedBy,
    haliases, Except.ok.injEq, exists_eq_left']
  constructor
  · rintro (rfl | ⟨a, ha, rfl⟩)
    · exact ⟨_, .inl rfl, rfl⟩
    · exact ⟨_, .inr ⟨a, ha, rfl⟩, rfl⟩
  · rintro ⟨name, rfl | ⟨a, ha, rfl⟩, rfl⟩
    · exact .inl rfl
    · exact .inr ⟨a, ha, rfl⟩

/-- The best match among the terms is the best similarity. -/
theorem best_iff [Similarity] (column : ObservedColumn) (h : termsOf m = .ok (k, ts)) :
    Best column m k best ↔ best = bestMatch (casefold column.name) ts := by
  have hset : {x | ∃ name, MatchedBy m k name ∧
      x = Similarity.ratio (casefold column.name) (casefold (casefold name))} =
      {x | x ∈ ts.map fun t => Similarity.ratio (casefold column.name) (casefold t)} := by
    ext x
    simp only [Set.mem_ofPred_eq, List.mem_map, mem_termsOf h]
    constructor
    · rintro ⟨name, hname, rfl⟩
      exact ⟨_, ⟨name, hname, rfl⟩, rfl⟩
    · rintro ⟨_, ⟨name, hname, rfl⟩, rfl⟩
      exact ⟨name, hname, rfl⟩
  have hgreatest : IsGreatest
      {x | x ∈ ts.map fun t => Similarity.ratio (casefold column.name) (casefold t)}
      (bestMatch (casefold column.name) ts) := by
    have hne : (ts.map fun t => Similarity.ratio (casefold column.name) (casefold t)) ≠ [] := by
      have hlocal := (mem_termsOf h).mpr ⟨localPart k, .inl rfl, rfl⟩
      exact List.ne_nil_of_mem (List.mem_map_of_mem hlocal)
    rw [bestMatch]
    rcases hmax : (ts.map fun t => Similarity.ratio (casefold column.name) (casefold t)).max?
      with _ | x
    · exact absurd (List.max?_eq_none_iff.mp hmax) hne
    · exact List.max?_eq_some_iff.mp hmax
  rw [Best, hset]
  exact ⟨fun hbest => hbest.unique hgreatest, fun hbest => hbest ▸ hgreatest⟩

omit [Python] in
theorem exists_lastNamed {metrics : List Props}
    (h : ∃ m ∈ metrics, m.get? "metric_key" = some (.str k)) :
    ∃ last ∈ metrics, LastNamed metrics k last := by
  induction metrics with
  | nil => exact absurd h (by simp)
  | cons x metrics ih =>
    by_cases hlater : ∃ m ∈ metrics, m.get? "metric_key" = some (.str k)
    · obtain ⟨last, hmem, hkey, l₁, l₂, rfl, hl₂⟩ := ih hlater
      exact ⟨last, List.mem_cons_of_mem _ hmem, hkey, x :: l₁, l₂, rfl, hl₂⟩
    · obtain ⟨m, hm, hkey⟩ := h
      rcases List.mem_cons.mp hm with rfl | hm
      · exact ⟨m, hm, hkey, [], metrics, rfl, fun y hy hy' => hlater ⟨y, hy, hy'⟩⟩
      · exact absurd ⟨m, hm, hkey⟩ hlater

/-- The map of terms has what the last metric of the key says. -/
theorem termIndex_last {metrics : List Props} (hindex : termIndex metrics = .ok index)
    (hlast : LastNamed metrics k last) :
    ∃ ts, termsOf last = .ok (k, ts) ∧ index.get? k = some ts := by
  obtain ⟨hkey, l₁, l₂, rfl, hl₂⟩ := hlast
  simp only [termIndex_eq, List.mapM_append, List.mapM_cons] at hindex
  rcases hes₁ : l₁.mapM termsOf with e | es₁ <;> rw [hes₁] at hindex
  · cases hindex
  rcases hterms : termsOf last with e | ⟨k', ts⟩ <;> rw [hterms] at hindex
  · cases hindex
  rcases hes₂ : l₂.mapM termsOf with e | es₂ <;> rw [hes₂] at hindex <;> cases hindex
  cases Value.str.inj (Option.some.inj (hkey.symm.trans (termsOf_key hterms)))
  refine ⟨ts, rfl, ?_⟩
  have hk : k ∉ es₂.map Prod.fst := by
    intro hmem
    obtain ⟨e, he, rfl⟩ := List.mem_map.mp hmem
    obtain ⟨x, hx, hxe⟩ := exists_mem_of_forall₂ (Program.mapM_eq_ok.mp hes₂) he
    exact hl₂ x hx (termsOf_key hxe)
  rw [Dict.ofList, Dict.setAll_append, Dict.setAll_cons, Dict.get?_setAll_of_not_mem hk,
    Dict.get?_set_self]

end maps

/-! ## The ranking -/

theorem Suggestion.Before.score_le {s t : Suggestion} (h : s.Before t) : t.score ≤ s.score := by
  rcases h with h | ⟨h, -⟩
  · exact h.le
  · exact h.ge

/-- The first of a ranking reaches the threshold when any of them does. -/
theorem head_reaches {order : List Suggestion} (h : order.Pairwise Suggestion.Before)
    {threshold : ℚ} : (∃ top, order.head? = some top ∧ threshold ≤ top.score) ↔
      ∃ s ∈ order, threshold ≤ s.score := by
  cases order with
  | nil => simp
  | cons top order =>
    constructor
    · rintro ⟨s, hs, hthreshold⟩
      exact ⟨s, List.mem_of_mem_head? hs, hthreshold⟩
    · rintro ⟨s, hs, hthreshold⟩
      refine ⟨top, rfl, ?_⟩
      rcases List.mem_cons.mp hs with rfl | hs
      · exact hthreshold
      · exact hthreshold.trans (List.rel_of_pairwise_cons h hs).score_le

section ranking
variable [Python] [sim : Similarity]

/-- What the suggester answers: the matching keys of the map, ranked. -/
theorem suggest_spec (column : ObservedColumn) (terms : Dict String (List String)) :
    ∃ ranked, stringSimilaritySuggester column terms = .ok ranked ∧
      ranked.Pairwise Suggestion.Before ∧ (ranked.map Suggestion.metricKey).Nodup ∧
      ∀ s, s ∈ ranked ↔ ∃ ts, terms.get? s.metricKey = some ts ∧
        0 < bestMatch (casefold column.name) ts ∧
        s.score = Similarity.round4 (bestMatch (casefold column.name) ts) := by
  refine ⟨_, rfl, List.pairwise_insertionSort _ _, ?_, fun s => ?_⟩
  · rw [((List.perm_insertionSort _ _).map _).nodup_iff, List.Nodup, List.pairwise_map]
    refine List.Pairwise.filterMap _ ?_ (List.pairwise_map.mp terms.nodup)
    rintro ⟨k, ts⟩ ⟨k', ts'⟩ hne s hs t ht
    simp only [Option.ite_none_right_eq_some, Option.some.injEq] at hs ht
    obtain ⟨-, rfl⟩ := hs
    obtain ⟨-, rfl⟩ := ht
    exact hne
  · rw [List.mem_insertionSort, List.mem_filterMap]
    constructor
    · rintro ⟨⟨k, ts⟩, hmem, hs⟩
      simp only [Option.ite_none_right_eq_some, Option.some.injEq] at hs
      obtain ⟨hpos, rfl⟩ := hs
      exact ⟨ts, Dict.get?_of_mem hmem, hpos, rfl⟩
    · rintro ⟨ts, hget, hpos, hscore⟩
      refine ⟨(s.metricKey, ts), Dict.mem_items.mpr hget, ?_⟩
      dsimp only
      rw [if_pos hpos, ← hscore]

/-- The suggester ranks the metrics when none of their terms are lost. -/
theorem ranks_of_kept (hsim : sim.Lawful) {metrics : List Props} {column : ObservedColumn}
    (hindex : termIndex metrics = .ok terms) (hkept : TermsKept metrics)
    (hranked : stringSimilaritySuggester column terms = .ok ranked) :
    Ranks metrics column ranked := by
  obtain ⟨_, hranked', hsorted, hnodup, hmem⟩ := suggest_spec column terms
  cases hranked.symm.trans hranked'
  refine ⟨hsorted, hnodup, fun s hs => ?_, fun m hm s hs => ?_⟩
  · obtain ⟨ts, hget, hpos, hscore⟩ := (hmem s).mp hs
    obtain ⟨m, hm, hterms⟩ := termIndex_mem hindex hget
    exact ⟨m, hm, termsOf_key hterms, _, (best_iff column hterms).mpr rfl, hpos, hscore⟩
  · obtain ⟨best, hbest, hpos, hscore⟩ := hs.score
    obtain ⟨last, -, hlast⟩ := exists_lastNamed ⟨m, hm, hs.key⟩
    obtain ⟨ts, hterms, hget⟩ := termIndex_last hindex hlast
    have hlastBest := (best_iff column hterms).mpr rfl
    -- the name that matches best is one of the last metric's too
    have hle : best ≤ bestMatch (casefold column.name) ts := by
      obtain ⟨name, hname, rfl⟩ := hbest.1
      obtain ⟨name', hname', hfold⟩ := hkept m hm s.metricKey hs.key name hname last hlast
      exact hfold ▸ hlastBest.2 ⟨name', hname', rfl⟩
    refine ⟨⟨s.metricKey, Similarity.round4 (bestMatch (casefold column.name) ts)⟩,
      (hmem _).mpr ⟨ts, hget, hpos.trans_le hle, rfl⟩, rfl, ?_⟩
    rcases (hsim.mono hle).lt_or_eq with hlt | heq
    · exact .inl (hscore ▸ hlt)
    · exact .inr ⟨heq ▸ hscore.symm, le_rfl⟩

/-- The first of the ranking reaches the threshold when any candidate does. -/
theorem Ranks.reaches_iff {metrics : List Props} (h : Ranks metrics column order) {threshold : ℚ} :
    (∃ top, order.head? = some top ∧ threshold ≤ top.score) ↔
      ∃ m ∈ metrics, ∃ s, Candidate column m s ∧ threshold ≤ s.score := by
  rw [head_reaches h.sorted]
  constructor
  · rintro ⟨s, hs, hthreshold⟩
    obtain ⟨m, hm, hcandidate⟩ := h.sound s hs
    exact ⟨m, hm, s, hcandidate, hthreshold⟩
  · rintro ⟨m, hm, s, hcandidate, hthreshold⟩
    obtain ⟨t, ht, -, hbefore⟩ := h.complete m hm s hcandidate
    exact ⟨t, ht, hthreshold.trans hbefore.score_le⟩

end ranking

/-! ## The decision -/

section decision
variable [Python] {g : InMemoryGraphStore} {column : ObservedColumn}

/-- Where nobody has the alias, the index does not have the name. -/
theorem filter_of_unnamed (hindex : aliasIndex g.metrics = .ok index)
    (hunnamed : ¬ ∃ m ∈ g.metrics, Aliased m column.name) :
    (index.get? (casefold column.name)).filter (· ≠ .null) = none := by
  obtain ⟨hindexable, hget⟩ := aliasIndex_ok hindex
  rw [exists_aliased_iff hindexable, not_not] at hunnamed
  rw [hget, hunnamed]
  rfl

/-- Over metrics that can be read, the name that the index does not have is nobody's alias. -/
theorem InMemoryGraphStore.Decisive.unnamed (hg : g.Decisive column)
    (hindex : aliasIndex g.metrics = .ok index)
    (hfound : (index.get? (casefold column.name)).filter (· ≠ .null) = none) :
    ¬ ∃ m ∈ g.metrics, Aliased m column.name := by
  rw [exists_aliased_iff hg.indexable, not_not]
  rw [(aliasIndex_ok hindex).2, Option.filter_eq_none_iff] at hfound
  rcases hlookup : lookup (casefold column.name) g.metrics with _ | v
  · rfl
  · have hnull : v = .null := by simpa using hfound v hlookup
    exact absurd (hnull ▸ hlookup) hg.named

theorem InMemoryGraphStore.Decisive.terms (hg : g.Decisive column)
    (hunnamed : ¬ ∃ m ∈ g.metrics, Aliased m column.name)
    (hdocumented : column.hasDictionary = false) : ∃ terms, termIndex g.metrics = .ok terms := by
  obtain ⟨es, hes⟩ := Program.mapM_ok_iff.mpr fun m hm => by
    obtain ⟨k, hkey⟩ := hg.keyed hunnamed hdocumented m hm
    obtain ⟨ts, hterms⟩ := termsOf_of_key (hg.indexable m hm) hkey
    exact ⟨(k, ts), hterms⟩
  exact ⟨Dict.ofList es, by rw [termIndex_eq, hes]; rfl⟩

/-- The verdict is given, and given by the rules. -/
theorem InMemoryGraphStore.Decisive.byRules [sim : Similarity] (hg : g.Decisive column)
    (hsim : sim.Lawful) (threshold : ℚ) {topK : Nat} (htopK : 1 ≤ topK) (queue : Nat) :
    ∃ out, (Resolver.mk stringSimilaritySuggester threshold topK queue).verdict g.metrics column =
      .ok out ∧ out.ByRules g.metrics column threshold topK := by
  have hne : topK ≠ 0 := by omega
  generalize hr : Resolver.mk stringSimilaritySuggester threshold topK queue = r
  have hdecides := r.decides_verdict g.metrics column
  generalize r.verdict g.metrics column = answer at hdecides ⊢
  obtain ⟨index, hindex, hget⟩ := aliasIndex_of_indexable hg.indexable
  cases hdecides with
  | unindexed h => cases hindex.symm.trans h
  | @autoLinked index' key h hfound =>
    cases hindex.symm.trans h
    rw [hget, Option.filter_eq_some_iff] at hfound
    obtain ⟨m, hm, hanswer⟩ := lookup_mem hfound.1
    have hnamed : ∃ m ∈ g.metrics, Aliased m column.name := ⟨m, hm, aliased_of_answer hanswer⟩
    exact ⟨_, rfl, {
      column_eq := rfl
      autoLinked := iff_of_true rfl hnamed
      named _ := ⟨m, hm, aliased_of_answer hanswer, key, answer_key hanswer, rfl⟩
      documented h := absurd hnamed h
      suggested h := absurd hnamed h
      ranked := nofun
      escalated h := absurd rfl h }⟩
  | documented h hfound hdocumented =>
    have hunnamed := hg.unnamed h hfound
    exact ⟨_, rfl, {
      column_eq := rfl
      autoLinked := iff_of_false nofun hunnamed
      named := nofun
      documented _ := iff_of_true rfl hdocumented
      suggested _ hno := by cases hdocumented.symm.trans hno
      ranked := nofun
      escalated _ h := absurd rfl h }⟩
  | termless h hfound hdocumented hterms =>
    obtain ⟨terms, hok⟩ := hg.terms (hg.unnamed h hfound) hdocumented
    cases hterms.symm.trans hok
  | unranked h hfound hdocumented hterms hranked =>
    subst hr
    cases hranked
  | @suggested _ terms ranked top h hfound hdocumented hterms hranked htop =>
    subst hr
    have hunnamed := hg.unnamed h hfound
    have hranks := ranks_of_kept hsim hterms (hg.kept hunnamed hdocumented) hranked
    rw [List.head?_take, if_neg hne, Option.filter_eq_some_iff, decide_eq_true_eq] at htop
    exact ⟨_, rfl, {
      column_eq := rfl
      autoLinked := iff_of_false nofun hunnamed
      named := nofun
      documented _ := iff_of_false nofun (by simp [hdocumented])
      suggested _ _ := iff_of_true rfl (hranks.reaches_iff.mp ⟨top, htop⟩)
      ranked _ := ⟨ranked, hranks, rfl, top, htop.1, rfl, rfl⟩
      escalated _ _ h := absurd rfl h }⟩
  | @escalated _ terms ranked h hfound hdocumented hterms hranked htop =>
    subst hr
    have hunnamed := hg.unnamed h hfound
    have hranks := ranks_of_kept hsim hterms (hg.kept hunnamed hdocumented) hranked
    rw [List.head?_take, if_neg hne, Option.filter_eq_none_iff] at htop
    have hbelow : ¬ ∃ top, ranked.head? = some top ∧ threshold ≤ top.score :=
      fun ⟨top, hhead, hthreshold⟩ => htop top hhead (decide_eq_true hthreshold)
    exact ⟨_, rfl, {
      column_eq := rfl
      autoLinked := iff_of_false nofun hunnamed
      named := nofun
      documented _ := iff_of_false nofun (by simp [hdocumented])
      suggested _ _ := iff_of_false nofun fun h => hbelow (hranks.reaches_iff.mpr h)
      ranked := nofun
      escalated _ _ _ := ⟨rfl, rfl⟩ }⟩

/-- What the rules ask for is decided so, over metrics that can be read. -/
theorem InMemoryGraphStore.Decisive.decides (hg : g.Decisive column) : DecidesByRules g column := by
  intro _ hsim threshold topK htopK queues queue _ r answer
  obtain ⟨out, hverdict, hrules⟩ := hg.byRules hsim threshold htopK queue
  have hanswer (column : ObservedColumn) : answer column = (r.verdict g.metrics column,
      (⟨g, queues⟩ : ResolverState InMemoryGraphStore).receive queue
        (r.verdict g.metrics column)) := r.resolve_run column ⟨g, queues⟩
  refine ⟨out, _, (hanswer column).trans (by rw [hverdict]), hrules, rfl, ?_,
    fun column' hname hdocumented => ?_⟩
  · refine congrArg (queues.modify queue) (funext fun pending => ?_)
    simp [escalations, Except.toOption, List.filter_cons]
  · have hsuggester : r.suggester column' = r.suggester column := by
      funext terms
      change stringSimilaritySuggester column' terms = stringSimilaritySuggester column terms
      rw [stringSimilaritySuggester, stringSimilaritySuggester, hname]
    have hverdict' : r.verdict g.metrics column' = .ok { out with column := column' } := by
      rw [Resolver.verdict_congr hname hdocumented hsuggester, hverdict]
      rfl
    exact ⟨{ out with column := column' }, _, (hanswer column').trans (by rw [hverdict']), rfl, rfl,
      rfl, rfl⟩

/-- What is decided by the rules, read as a verdict. -/
theorem DecidesByRules.verdict (h : DecidesByRules g column) {sim : Similarity}
    (hsim : sim.Lawful) (threshold : ℚ) {topK : Nat} (htopK : 1 ≤ topK) :
    ∃ out, (Resolver.mk stringSimilaritySuggester threshold topK 0).verdict g.metrics column =
      .ok out ∧ out.ByRules g.metrics column threshold topK := by
  obtain ⟨out, w, hrun, hrules, -⟩ := h hsim threshold topK htopK [[]] 0 Nat.one_pos
  exact ⟨out, (congrArg Prod.fst (Resolver.resolve_run ..)).symm.trans (congrArg Prod.fst hrun),
    hrules⟩

/-- The similarity that knows one name only. -/
abbrev Similarity.only (name : String) : Similarity := ⟨fun _ b => if b = name then 1 else 0, id⟩

omit [Python] in
theorem Similarity.lawful_only (name : String) : (Similarity.only name).Lawful where
  nonneg a b := by
    change (0 : ℚ) ≤ if b = name then 1 else 0
    split <;> decide
  le_one a b := by
    change (if b = name then 1 else 0 : ℚ) ≤ 1
    split <;> decide
  mono := monotone_id

/-- The keys of a ranking are keys of metrics, so there are no more of them. -/
theorem Ranks.length_le [Similarity] {metrics : List Props}
    (h : Ranks metrics column order) : order.length ≤ metrics.length := by
  have hsubset : order.map (fun s => some (Value.str s.metricKey)) ⊆
      metrics.map (·.get? "metric_key") := by
    intro k hk
    obtain ⟨s, hs, rfl⟩ := List.mem_map.mp hk
    obtain ⟨m, hm, hcandidate⟩ := h.sound s hs
    exact List.mem_map.mpr ⟨m, hm, hcandidate.key⟩
  have hnodup : (order.map fun s => some (Value.str s.metricKey)).Nodup := by
    have hinj : Function.Injective fun k => some (Value.str k) := fun k k' heq =>
      Value.str.inj (Option.some.inj heq)
    rw [← Function.comp_def (fun k => some (Value.str k)) Suggestion.metricKey, ← List.map_map]
    exact h.nodup.map hinj
  have hlength := (hnodup.subperm hsubset).length_le
  rwa [List.length_map, List.length_map] at hlength

/-- No terms are lost under the rules: the similarity that knows a lost name only would rank its
metric, and the suggester does not. -/
theorem DecidesByRules.kept (h : DecidesByRules g column)
    (hunnamed : ¬ ∃ m ∈ g.metrics, Aliased m column.name)
    (hdocumented : column.hasDictionary = false) : TermsKept g.metrics := by
  intro m hm k hkey name hname last hlast
  let sim : Similarity := .only (casefold (casefold name))
  have hlawful : sim.Lawful := Similarity.lawful_only _
  have hcandidate : Candidate column m ⟨k, 1⟩ := by
    refine ⟨hkey, 1, ⟨⟨name, hname, (if_pos rfl).symm⟩, ?_⟩, by decide, rfl⟩
    rintro _ ⟨name', -, rfl⟩
    exact hlawful.le_one _ _
  obtain ⟨out, hverdict, hrules⟩ :=
    DecidesByRules.verdict h hlawful 1 (List.length_pos_of_mem hm)
  have hsuggested : out.tier = .suggested :=
    (hrules.suggested hunnamed hdocumented).mpr ⟨m, hm, _, hcandidate, le_rfl⟩
  obtain ⟨order, hranks, halternatives, -⟩ := hrules.ranked hsuggested
  obtain ⟨t, ht, htkey, -⟩ := hranks.complete m hm _ hcandidate
  rw [List.take_of_length_le hranks.length_le] at halternatives
  obtain ⟨index, hindex, hrest⟩ := Resolver.verdict_inv hverdict
  obtain ⟨terms, ranked, hterms, hranked, halternatives'⟩ :=
    (hrest (filter_of_unnamed hindex hunnamed)).2 hdocumented
  -- so the suggester has a suggestion of this key, from the terms of the last metric
  obtain ⟨_, hranked', -, -, hmem⟩ := suggest_spec column terms
  cases hranked.symm.trans hranked'
  have ht : t ∈ ranked := List.mem_of_mem_take (halternatives' ▸ halternatives ▸ ht)
  obtain ⟨ts, hget, hpos, -⟩ := (hmem t).mp ht
  obtain ⟨ts', hlastTerms, hget'⟩ := termIndex_last hterms hlast
  rw [htkey, hget'] at hget
  cases hget
  obtain ⟨⟨name', hname', hbest⟩, -⟩ := (best_iff column hlastTerms).mpr rfl
  refine ⟨name', hname', ?_⟩
  by_contra hne
  rw [hbest, show sim.ratio _ _ = 0 from if_neg hne] at hpos
  exact lt_irrefl _ hpos

/-- A column that is decided by the rules is decided over metrics that can be read. -/
theorem DecidesByRules.decisive (h : DecidesByRules g column) : g.Decisive column := by
  -- any similarity will do for all but the last part
  let _ : Similarity := .only ""
  obtain ⟨out, hverdict, hrules⟩ := DecidesByRules.verdict h (Similarity.lawful_only "") 0 le_rfl
  obtain ⟨index, hindex, hrest⟩ := Resolver.verdict_inv hverdict
  obtain ⟨hindexable, hget⟩ := aliasIndex_ok hindex
  refine ⟨hindexable, fun hnull => ?_, fun hunnamed hdocumented m hm => ?_, DecidesByRules.kept h⟩
  · obtain ⟨m, hm, hanswer⟩ := lookup_mem hnull
    refine (hrest ?_).1 (hrules.autoLinked.mpr ⟨m, hm, aliased_of_answer hanswer⟩)
    rw [hget, hnull]
    rfl
  · obtain ⟨terms, -, hterms, -⟩ := (hrest (filter_of_unnamed hindex hunnamed)).2 hdocumented
    rw [termIndex_eq] at hterms
    rcases hes : g.metrics.mapM termsOf with e | es <;> rw [hes] at hterms
    · cases hterms
    obtain ⟨⟨k, ts⟩, hmterms⟩ := Program.mapM_ok_iff.mp ⟨es, hes⟩ m hm
    exact ⟨k, termsOf_key hmterms⟩

/-- **When the funnel decides by its rules**: exactly when the metrics can be read and no terms that
could match the column are lost. -/
theorem decidesByRules_iff (g : InMemoryGraphStore) (column : ObservedColumn) :
    DecidesByRules g column ↔ g.Decisive column :=
  ⟨DecidesByRules.decisive, fun h => h.decides⟩

end decision

/-- Two metrics show the same key, and the terms of the first one are lost: a column that matches
them is escalated. -/
theorem terms_lost :
    let attributes : Props :=
      .ofList [("metric_key", .str "p.b"), ("aliases", .list [.str "mass"])]
    let g := (System.initial.after [
      .client (.upsertMetric "p.a" none none none none none attributes),
      .client (.upsertMetric "p.b" none none none none none ∅)]).graph
    ¬ DecidesByRules g { system := "erp", table := "widgets", name := "mas" } := by
  intro attributes g h
  -- the similarity of "mas" and "mass"
  let sim : Similarity := ⟨fun _ b => if b = "mass" then 6 / 7 else 0, id⟩
  have hle (a b : String) : sim.ratio a b ≤ 6 / 7 := by
    change (if b = "mass" then 6 / 7 else 0 : ℚ) ≤ 6 / 7
    split <;> decide +kernel
  have hlawful : sim.Lawful := by
    refine ⟨fun a b => ?_, fun a b => (hle a b).trans (by decide +kernel), monotone_id⟩
    change 0 ≤ (if b = "mass" then 6 / 7 else 0 : ℚ)
    split <;> decide +kernel
  let column : ObservedColumn := { system := "erp", table := "widgets", name := "mas" }
  obtain ⟨out, hverdict, hrules⟩ :=
    DecidesByRules.verdict h hlawful (6 / 10) (show 1 ≤ 3 by decide)
  have hescalated : (Resolver.mk stringSimilaritySuggester (6 / 10) 3 0).verdict g.metrics column =
      .ok { column, tier := .escalated } := by decide +kernel
  cases hverdict.symm.trans hescalated
  let m : Props := .ofList [("metric_key", .str "p.b"), ("_labels", .set {"Metric"}),
    ("aliases", .list [.str "mass"])]
  have hm : m ∈ g.metrics := by decide +kernel
  have hcandidate : Candidate column m ⟨"p.b", 6 / 7⟩ := by
    refine ⟨by decide, 6 / 7, ⟨⟨"mass", .inr ⟨[.str "mass"], by decide, _, List.mem_cons_self, rfl⟩,
      by decide +kernel⟩, ?_⟩, by decide +kernel, rfl⟩
    rintro s ⟨name, -, hs⟩
    rw [hs]
    exact hle _ _
  have hunnamed : ¬ ∃ m ∈ g.metrics, Aliased m column.name :=
    fun hnamed => nomatch hrules.autoLinked.mpr hnamed
  exact nomatch (hrules.suggested hunnamed rfl).mpr ⟨m, hm, _, hcandidate, by decide +kernel⟩

end MarginKG
