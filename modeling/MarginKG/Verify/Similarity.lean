import MarginKG.Verify.Review
import MarginKG.Verify.Tiers

/-! What the funnel makes of similar names, with the similarity of `difflib` (`ingest_alike`).

The rules of `Verify/Tiers.lean` hold for any similarity that keeps to a few laws. With the one that
the code uses, a suggestion can be read off the names: it rests on characters that the column and
the metric have in common, a metric with a common character is passed over only for better ones, and
the name of a metric is never left to a human to define. -/

namespace MarginKG

open InMemoryGraphStore SequenceMatcher

theorem Similarity.difflib_lawful : Similarity.difflib.Lawful where
  nonneg _ _ := ratio_nonneg _ _
  le_one _ _ := ratio_le_one _ _
  mono := roundPlaces_mono 4

variable [Python]

/-- The characters of a column's name, as they are compared. -/
def ObservedColumn.chars (column : ObservedColumn) : List Char := (casefold column.name).toList

/-- The characters of a name of a metric, which is folded once more when it is compared. -/
def nameChars (name : String) : List Char := (casefold (casefold name)).toList

/-- The score is that of characters which the two have in common, in the same order. -/
def Scores (as bs : List Char) (score : ℚ) : Prop :=
  as = [] ∧ bs = [] ∧ score = 1 ∨ ∃ c, c ≠ [] ∧ c.Sublist as ∧ c.Sublist bs ∧
    score = roundPlaces 4 (roundBinary (2 * c.length / ((as.length + bs.length : ℕ) : ℚ)))

/-- What can be read off the names. A metric counts with its own names only when no later one shows
its key. -/
structure Resolution.Alike (out : Resolution) (metrics : List Props) (threshold : ℚ)
    (topK : Nat) : Prop where
  /-- An alternative is a metric that has characters in common with the column. -/
  backed : ∀ s ∈ out.alternatives, s.score ≤ 1 ∧ ∃ m ∈ metrics,
    m.get? "metric_key" = some (.str s.metricKey) ∧
    ∃ name, MatchedBy m s.metricKey name ∧ Scores out.column.chars (nameChars name) s.score
  /-- A metric with a character in common is an alternative, or there is no room for it after better
  ones. -/
  offered : out.tier ≠ .autoLinked → out.tier ≠ .documented → ∀ k m, LastNamed metrics k m →
    ∀ name, MatchedBy m k name →
    (∃ x ∈ out.column.chars, x ∈ nameChars name ∧ unpopular (nameChars name) x) →
    ∃ s : Suggestion, s.metricKey = k ∧
      roundPlaces 4 (ratio out.column.chars (nameChars name)) ≤ s.score ∧
      (s ∈ out.alternatives ∨
        out.alternatives.length = topK ∧ ∀ t ∈ out.alternatives, t.Before s)
  /-- The name of a metric is not escalated, and nothing scores above it. -/
  named : 1 ≤ topK → threshold ≤ 1 → ∀ k m, LastNamed metrics k m → ∀ name, MatchedBy m k name →
    nameChars name = out.column.chars →
    out.tier ≠ .escalated ∧ (out.tier ≠ .documented → out.score = 1)

/-! ## The ranking -/

section ranking
variable {column : ObservedColumn}

/-- A suggestion has the similarity of one of the names of a metric. -/
theorem suggested_name [sim : Similarity] {metrics : List Props}
    (hindex : termIndex metrics = .ok terms)
    (hranked : stringSimilaritySuggester column terms = .ok ranked) (hs : s ∈ ranked) :
    ∃ m ∈ metrics, m.get? "metric_key" = some (.str s.metricKey) ∧ ∃ name,
      MatchedBy m s.metricKey name ∧
      0 < Similarity.ratio (casefold column.name) (casefold (casefold name)) ∧
      s.score =
        Similarity.round4 (Similarity.ratio (casefold column.name) (casefold (casefold name))) := by
  obtain ⟨_, hranked', -, -, hmem⟩ := suggest_spec column terms
  cases hranked.symm.trans hranked'
  obtain ⟨ts, hget, hpos, hscore⟩ := (hmem s).mp hs
  obtain ⟨m, hm, hterms⟩ := termIndex_mem hindex hget
  obtain ⟨⟨name, hname, hbest⟩, -⟩ := (best_iff column hterms).mpr rfl
  exact ⟨m, hm, termsOf_key hterms, name, hname, hbest ▸ hpos, hbest ▸ hscore⟩

/-- A name of the last metric of a key that is alike in any way is suggested, at its similarity or
a better one. -/
theorem name_suggested [sim : Similarity] (hsim : sim.Lawful) {metrics : List Props}
    (hindex : termIndex metrics = .ok terms)
    (hranked : stringSimilaritySuggester column terms = .ok ranked)
    (hlast : LastNamed metrics k m) (hname : MatchedBy m k name)
    (hpos : 0 < Similarity.ratio (casefold column.name) (casefold (casefold name))) :
    ∃ s ∈ ranked, s.metricKey = k ∧
      Similarity.round4 (Similarity.ratio (casefold column.name) (casefold (casefold name))) ≤
        s.score := by
  obtain ⟨_, hranked', -, -, hmem⟩ := suggest_spec column terms
  cases hranked.symm.trans hranked'
  obtain ⟨ts, hterms, hget⟩ := termIndex_last hindex hlast
  have hle := ((best_iff column hterms).mpr rfl).2 ⟨name, hname, rfl⟩
  exact ⟨⟨k, Similarity.round4 (bestMatch (casefold column.name) ts)⟩,
    (hmem _).mpr ⟨ts, hget, hpos.trans_le hle, rfl⟩, rfl, hsim.mono hle⟩

omit [Python] in
/-- What the first suggestions leave out comes after each of them. -/
theorem mem_take_or_before {ranked : List Suggestion} (hsorted : ranked.Pairwise Suggestion.Before)
    (hs : s ∈ ranked) (topK : Nat) :
    s ∈ ranked.take topK ∨
      (ranked.take topK).length = topK ∧ ∀ t ∈ ranked.take topK, t.Before s := by
  rw [← List.take_append_drop topK ranked] at hs
  rcases List.mem_append.mp hs with hs | hs
  · exact .inl hs
  · have hlength := List.length_pos_of_mem hs
    rw [List.length_drop] at hlength
    rw [← List.take_append_drop topK ranked] at hsorted
    refine .inr ⟨?_, fun t ht => (List.pairwise_append.mp hsorted).2.2 t ht s hs⟩
    rw [List.length_take]
    omega

omit [Python] in
theorem scores_ratio {as bs : List Char} (h : 0 < ratio as bs) :
    Scores as bs (roundPlaces 4 (ratio as bs)) := by
  by_cases hlength : as.length + bs.length = 0
  · have has := List.length_eq_zero_iff.mp (Nat.eq_zero_of_add_eq_zero_right hlength)
    have hbs := List.length_eq_zero_iff.mp (Nat.eq_zero_of_add_eq_zero_left hlength)
    exact .inl ⟨has, hbs, by rw [has, hbs, ratio_self, roundPlaces_one]⟩
  · obtain ⟨hleft, hright⟩ := matching_sublist (unpopular bs) as bs
    obtain ⟨heq, -, -⟩ := ratio_eq as bs hlength
    refine .inr ⟨_, fun hnil => ?_, hleft, hright, by rw [heq]⟩
    rw [heq, hnil, List.length_nil, Nat.cast_zero, mul_zero, zero_div, roundBinary_zero] at h
    exact lt_irrefl 0 h

end ranking

/-! ## The resolution -/

section resolution
variable {metrics : List Props} {threshold : ℚ} {topK : Nat} {out : Resolution}

/-- Of the suggestions, those that are offered are alike. -/
theorem alike_of_ranked (hindex : termIndex metrics = .ok terms)
    (hranked : difflibSuggester out.column terms = .ok ranked)
    (halternatives : out.alternatives = ranked.take topK)
    (htier : ∀ top, ranked.head? = some top → 1 ≤ topK → threshold ≤ top.score →
      out.tier ≠ .escalated ∧ out.score = top.score) :
    out.Alike metrics threshold topK := by
  let _ : Similarity := .difflib
  have hlawful := Similarity.difflib_lawful
  obtain ⟨_, hranked', hsorted, -, -⟩ := suggest_spec out.column terms
  cases hranked.symm.trans hranked'
  have hle {s : Suggestion} (hs : s ∈ ranked) : s.score ≤ 1 := by
    obtain ⟨-, -, -, name, -, -, hscore⟩ := suggested_name hindex hranked hs
    rw [hscore, ← roundPlaces_one 4]
    exact roundPlaces_mono 4 (ratio_le_one _ _)
  refine ⟨fun s hs => ?_, fun _ _ k m hlast name hname hcommon => ?_,
    fun htopK hthreshold k m hlast name hname heq => ?_⟩
  · have hs := List.mem_of_mem_take (halternatives ▸ hs)
    obtain ⟨m, hm, hkey, name, hname, hpos, hscore⟩ := suggested_name hindex hranked hs
    exact ⟨hle hs, m, hm, hkey, name, hname, hscore ▸ scores_ratio hpos⟩
  · obtain ⟨x, hx, hx', hcounts⟩ := hcommon
    obtain ⟨s, hs, hkey, hscore⟩ := name_suggested hlawful hindex hranked hlast hname
      (ratio_pos hx hx' hcounts)
    rw [halternatives]
    exact ⟨s, hkey, hscore, mem_take_or_before hsorted hs topK⟩
  · -- the name is like itself, so that some score, and the first one with it, is 1
    have hone : ratio out.column.chars (nameChars name) = 1 := by rw [heq, ratio_self]
    obtain ⟨s, hs, -, hscore⟩ := name_suggested hlawful hindex hranked hlast hname
      (zero_lt_one.trans_eq hone.symm)
    have hs_one : 1 ≤ s.score := by
      rw [← roundPlaces_one 4, ← hone]
      exact hscore
    obtain ⟨top, htop, htop_one⟩ := (head_reaches hsorted).mpr ⟨s, hs, hs_one⟩
    obtain ⟨htier, hscore⟩ := htier top htop htopK (hthreshold.trans htop_one)
    exact ⟨htier, fun _ => hscore.trans ((hle (List.mem_of_mem_head? htop)).antisymm htop_one)⟩

theorem verdict_alike {column : ObservedColumn} {queue : Nat}
    (h : (⟨difflibSuggester, threshold, topK, queue⟩ : Resolver).verdict metrics column = .ok out) :
    out.Alike metrics threshold topK := by
  have hdecides := Resolver.decides_verdict ⟨difflibSuggester, threshold, topK, queue⟩ metrics
    column
  rw [h] at hdecides
  -- with room for an alternative, the first one is the first of the ranking
  have hhead {ranked : List Suggestion} (htopK : 1 ≤ topK) :
      (ranked.take topK).head? = ranked.head? := by
    rw [List.head?_take, if_neg (by omega)]
  cases hdecides with
  | autoLinked hindex hfound =>
    exact ⟨nofun, fun hne => absurd rfl hne, fun _ _ _ _ _ _ _ _ => ⟨nofun, fun _ => rfl⟩⟩
  | documented hindex hfound hdocumented =>
    exact ⟨nofun, fun _ hne => absurd rfl hne,
      fun _ _ _ _ _ _ _ _ => ⟨nofun, fun hne => absurd rfl hne⟩⟩
  | suggested hindex hfound hdocumented hterms hranked htop =>
    refine alike_of_ranked hterms hranked rfl fun top htop' htopK hthreshold => ⟨nofun, ?_⟩
    rw [hhead htopK, htop', Option.filter_eq_some_iff] at htop
    exact congrArg Suggestion.score (Option.some.inj htop.1).symm
  | escalated hindex hfound hdocumented hterms hranked htop =>
    refine alike_of_ranked hterms hranked rfl fun top htop' htopK hthreshold => ?_
    rw [hhead htopK, htop', Option.filter_eq_none_iff] at htop
    exact absurd (decide_eq_true hthreshold) (htop top rfl)

end resolution

/-! ## Ingestions -/

section ingest
variable {w₀ : ResolverState InMemoryGraphStore} {threshold : ℚ} {topK queue : Nat}

omit [Python] in
/-- What an answer puts into a queue is the answer, an escalation. -/
theorem mem_pending_receive {w : ResolverState InMemoryGraphStore}
    {answer : Except PyErr Resolution} (h : out ∈ (w.receive queue answer).pending q) :
    out ∈ w.pending q ∨ answer = .ok out ∧ out.tier = .escalated := by
  simp only [ResolverState.receive, ResolverState.pending, List.getD_eq_getElem?_getD,
    List.getElem?_modify] at h ⊢
  rcases hqueue : w.queues[q]? with _ | outcomes <;> rw [hqueue] at h
  · exact .inl h
  simp only [Option.map_eq_map, Option.map_some, Option.getD_some] at h ⊢
  split at h
  · rcases List.mem_append.mp h with h | h
    · exact .inl h
    · obtain ⟨h, htier⟩ := List.mem_filter.mp h
      rcases answer with e | outcome
      · cases h
      · cases List.mem_singleton.mp h
        exact .inr ⟨rfl, of_decide_eq_true htier⟩
  · exact .inl h

/-- The metrics are those of `w₀`, and what has been enqueued since can be read off the names. -/
structure Reviewable (w₀ : ResolverState InMemoryGraphStore) (threshold : ℚ) (topK : Nat)
    (w : ResolverState InMemoryGraphStore) : Prop where
  metrics : w.store.metrics = w₀.store.metrics
  queued : ∀ q, ∀ out ∈ w.pending q, out ∈ w₀.pending q ∨
    out.tier = .escalated ∧ out.Alike w₀.store.metrics threshold topK

theorem resolve_reviewable (column : ObservedColumn) :
    ((⟨difflibSuggester, threshold, topK, queue⟩ : Resolver).resolve column).Upholds
      (ResolverState.handler handler) (Reviewable w₀ threshold topK)
      fun out => out.Alike w₀.store.metrics threshold topK := by
  intro w hw
  rw [Resolver.resolve_run, hw.metrics]
  refine ⟨⟨hw.metrics, fun q out hout => ?_⟩, fun out hout => verdict_alike hout⟩
  rcases mem_pending_receive hout with hout | ⟨hverdict, htier⟩
  · exact hw.queued q out hout
  · exact .inr ⟨htier, verdict_alike hverdict⟩

/-- **What `run_ingest` makes of a column can be read off the names**: over any state, whatever the
source, the threshold, the number of alternatives and the queue, each resolution of the report has
alternatives that share characters with the column, and passes over no metric that does, while there
is room; and no column that has the name of a metric comes into a queue, also when the ingestion
raises. -/
theorem ingest_alike (source : Source) (c : GraphClient) (threshold : ℚ) (topK queue : Nat)
    (w₀ : IngestState InMemoryGraphStore) :
    let answer := (runIngest source c ⟨difflibSuggester, threshold, topK, queue⟩).run
      (IngestState.handler source handler) w₀
    (∀ report, answer.1 = .ok report → ∀ out ∈ report.resolutions,
      out.Alike w₀.world.store.metrics threshold topK) ∧
    (∀ q, ∀ out ∈ answer.2.world.pending q, out ∈ w₀.world.pending q ∨
      out.tier = .escalated ∧ out.Alike w₀.world.store.metrics threshold topK) ∧
    (1 ≤ topK → threshold ≤ 1 → ∀ k m, LastNamed w₀.world.store.metrics k m → ∀ name,
      MatchedBy m k name → ∀ q, ∀ out ∈ answer.2.world.pending q,
        nameChars name = out.column.chars → out ∈ w₀.world.pending q) := by
  intro answer
  obtain ⟨hend, hreport⟩ := runIngest_upholds (I := Reviewable w₀.world threshold topK)
    (fun _ _ hg hw => ⟨hg.trans hw.metrics, hw.queued⟩) source c
    ⟨difflibSuggester, threshold, topK, queue⟩
    (fun _ _ _ _ _ _ col _ => resolve_reviewable col) w₀ ⟨rfl, fun _ _ hout => .inl hout⟩
  refine ⟨hreport, hend.queued, fun htopK hthreshold k m hlast name hname q out hout heq => ?_⟩
  rcases hend.queued q out hout with hold | ⟨htier, halike⟩
  · exact hold
  · exact absurd htier (halike.named htopK hthreshold k m hlast name hname heq).1

end ingest

end MarginKG
