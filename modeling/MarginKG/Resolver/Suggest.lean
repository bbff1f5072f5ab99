import MarginKG.Resolver.Funnel
import MarginKG.Theory.SequenceMatcher
import Mathlib.Algebra.Order.Ring.Unbundled.Rat
import Mathlib.Data.List.Sort

/-! The string-similarity suggester (`resolver/suggest.py`), the default of a resolver. -/

namespace MarginKG

/-- `SequenceMatcher(None, a, b).ratio()` of `difflib`, and `round(x, 4)`: like `str.casefold`,
parts of the interpreter that the code never looks into. -/
class Similarity where
  ratio (a b : String) : ℚ
  round4 (x : ℚ) : ℚ

/-- The two as they are. -/
abbrev Similarity.difflib : Similarity where
  ratio a b := SequenceMatcher.ratio a.toList b.toList
  round4 := roundPlaces 4

/-- The sort key of the suggestions: `(-s.score, s.metric_key)`. -/
def Suggestion.Before (s t : Suggestion) : Prop :=
  t.score < s.score ∨ s.score = t.score ∧ s.metricKey ≤ t.metricKey

instance (s t : Suggestion) : Decidable (s.Before t) := inferInstanceAs (Decidable (_ ∨ _))

instance : IsTrans Suggestion Suggestion.Before where
  trans s t u hst htu := by
    rcases hst with hst | ⟨hst, hst'⟩ <;> rcases htu with htu | ⟨htu, htu'⟩
    · exact .inl (htu.trans hst)
    · exact .inl (htu ▸ hst)
    · exact .inl (hst ▸ htu)
    · exact .inr ⟨hst.trans htu, hst'.trans htu'⟩

instance : Std.Total Suggestion.Before where
  total s t := by
    rcases lt_trichotomy s.score t.score with h | h | h
    · exact .inr (.inl h)
    · rcases le_total s.metricKey t.metricKey with hk | hk
      · exact .inl (.inr ⟨h, hk⟩)
      · exact .inr (.inr ⟨h.symm, hk⟩)
    · exact .inl (.inl h)

instance : Std.Antisymm Suggestion.Before where
  antisymm s t hst hts := by
    rcases hst with hst | ⟨hst, hst'⟩ <;> rcases hts with hts | ⟨hts, hts'⟩
    · exact (lt_asymm hst hts).elim
    · exact (lt_irrefl _ (hts ▸ hst)).elim
    · exact (lt_irrefl _ (hst ▸ hts)).elim
    · cases s; cases t; cases hst; cases hst'.antisymm hts'; rfl

/-- `EmbeddingSuggester.suggest`, a stub. -/
def embeddingSuggester : Suggester := fun _ _ =>
  .error <| .notImplementedError <|
    "EmbeddingSuggester is a stubbed strategy seam; wire in an embedding " ++
    "backend here without changing the resolver funnel"

variable [Python] [Similarity]

/-- `max(.., default=0.0)`: the best match between a name and any of the terms. -/
def bestMatch (name : String) (terms : List String) : ℚ :=
  (terms.map fun t => Similarity.ratio name (casefold t)).max?.getD 0

/-- `StringSimilaritySuggester.suggest`. -/
def stringSimilaritySuggester : Suggester := fun column termsByMetric =>
  let name := casefold column.name
  let out := termsByMetric.items.filterMap fun (metricKey, terms) =>
    let best := bestMatch name terms
    if 0 < best then some { metricKey, score := Similarity.round4 best : Suggestion } else none
  .ok (out.insertionSort Suggestion.Before)

/-- The suggester over the similarity of `difflib`. -/
def difflibSuggester : Suggester := @stringSimilaritySuggester _ .difflib

end MarginKG
