import MarginKG.Theory.Dict
import Mathlib.Data.Finset.Insert
import Mathlib.Data.List.Perm.Basic

/-! Property graphs: nodes that carry labels and properties, and typed edges that carry
properties. Nodes are numbered in the order of their creation.

A pattern matches by content, and every match counts: `matchNodes` and `outgoing` return all of
them, and a merge updates all of them, or creates one where there is none (`mergeWhere`).

Where the pattern admits exactly the elements with a given key, it finds by content what a
dictionary finds by that key, and the merge does to the list what storing does to the dictionary
(`forall₂_mergeWhere`). -/

namespace MarginKG

universe u v w

/-- Update every element that `p` admits; when there is none, append a new one, updated. -/
def mergeWhere {α : Type u} (p : α → Bool) (update : α → α) (new : α) (l : List α) : List α :=
  if l.any p then l.map fun a => if p a then update a else a else l ++ [update new]

section mergeWhere
variable {α : Type u} {p : α → Bool} {update : α → α} {new : α}

theorem mergeWhere_cons_of_neg {l : List α} (h : p a = false) :
    mergeWhere p update new (a :: l) = a :: mergeWhere p update new l := by
  simp only [mergeWhere, List.any_cons, h, Bool.false_or, List.map_cons, List.cons_append]
  split <;> rfl

theorem mergeWhere_cons_of_pos {l : List α} (h : p a = true) (hl : ∀ b ∈ l, p b = false) :
    mergeWhere p update new (a :: l) = update a :: l := by
  have hmap : (l.map fun b => if p b then update b else b) = l :=
    List.map_congr_left (g := id) (fun b hb => by simp [hl b hb]) |>.trans (List.map_id l)
  rw [mergeWhere, if_pos (by simp [h]), List.map_cons, if_pos h, hmap]

/-- What holds of every element of the list, and of what a merge makes, holds of every element
after it. -/
theorem forall_mergeWhere {Q : α → Prop} {l : List α} (h : ∀ a ∈ l, Q a)
    (hupdate : ∀ a ∈ l, p a = true → Q a → Q (update a)) (hnew : Q (update new)) :
    ∀ a ∈ mergeWhere p update new l, Q a := by
  intro a ha
  rw [mergeWhere] at ha
  split at ha
  · obtain ⟨b, hb, rfl⟩ := List.mem_map.mp ha
    split
    · exact hupdate b hb ‹_› (h b hb)
    · exact h b hb
  · rcases List.mem_append.mp ha with ha | ha
    · exact h a ha
    · rw [List.mem_singleton.mp ha]
      exact hnew

/-- A merge keeps an element with a property that updates keep. -/
theorem exists_mergeWhere {Q : α → Prop} {l : List α} (hupdate : ∀ a, Q a → Q (update a))
    (h : ∃ a ∈ l, Q a) : ∃ a ∈ mergeWhere p update new l, Q a := by
  obtain ⟨a, ha, hQ⟩ := h
  rw [mergeWhere]
  split
  · refine ⟨_, List.mem_map_of_mem ha, ?_⟩
    split
    · exact hupdate a hQ
    · exact hQ
  · exact ⟨a, List.mem_append_left _ ha, hQ⟩

/-- After a merge there is an element that it updated. -/
theorem exists_mergeWhere_update {Q : α → Prop} {l : List α}
    (hupdate : ∀ a ∈ l, p a = true → Q (update a)) (hnew : Q (update new)) :
    ∃ a ∈ mergeWhere p update new l, Q a := by
  rw [mergeWhere]
  split
  · rename_i hany
    obtain ⟨a, ha, hp⟩ := List.any_eq_true.mp hany
    exact ⟨_, List.mem_map_of_mem ha, by rw [if_pos hp]; exact hupdate a ha hp⟩
  · exact ⟨_, List.mem_append_right _ (List.mem_singleton_self _), hnew⟩

/-- When each of a family of tests admits one element at most and updates keep the tests, it does so
after a merge. -/
theorem pairwise_mergeWhere {ι : Type v} {q : ι → α → Bool} {l : List α}
    (h : l.Pairwise fun a b => ∀ i, q i a = true → q i b = false)
    (hq : ∀ i, ∀ a ∈ l, p a = true → q i (update a) = q i a)
    (hnew : ∀ i, q i (update new) = true → ∀ a ∈ l, p a = false → q i a = false) :
    (mergeWhere p update new l).Pairwise fun a b => ∀ i, q i a = true → q i b = false := by
  rw [mergeWhere]
  split
  · have hkeep (i : ι) (a : α) (ha : a ∈ l) : q i (if p a then update a else a) = q i a := by
      split
      · exact hq i a ha ‹_›
      · rfl
    refine List.pairwise_map.mpr (h.imp_of_mem fun {a b} ha hb hab i hi => ?_)
    rw [hkeep i a ha] at hi
    rw [hkeep i b hb]
    exact hab i hi
  · rename_i hany
    refine List.pairwise_append.mpr ⟨h, List.pairwise_singleton .., fun a ha b hb i hi => ?_⟩
    cases List.mem_singleton.mp hb
    have hp : p a = false := by
      refine Bool.eq_false_iff.mpr fun hp => hany ?_
      exact List.any_eq_true.mpr ⟨a, ha, hp⟩
    refine Bool.eq_false_iff.mpr fun hupdate => ?_
    rw [hnew i hupdate a ha hp] at hi
    cases hi

/-- A test that updates keep has its earlier answers, in their order, after a merge. -/
theorem map_prefix_mergeWhere {q : α → Bool} {l : List α}
    (hq : ∀ a ∈ l, p a = true → q (update a) = q a) :
    l.map q <+: (mergeWhere p update new l).map q := by
  rw [mergeWhere]
  split
  · rw [List.map_map]
    refine (List.map_congr_left fun a ha => ?_) ▸ List.prefix_rfl
    rw [Function.comp_apply]
    split
    · exact hq a ha ‹_›
    · rfl
  · rw [List.map_append]
    exact List.prefix_append ..

theorem getElem?_of_map_prefix {q : α → Bool} {l l' : List α} {i : Nat} (h : l.map q <+: l'.map q)
    (hi : l[i]? = some a) : ∃ a', l'[i]? = some a' ∧ q a' = q a := by
  have hq : (l'.map q)[i]? = some (q a) := by
    obtain ⟨t, ht⟩ := h
    rw [← ht, List.getElem?_append_left (by
      rw [List.length_map]
      exact (List.getElem?_eq_some_iff.mp hi).1), List.getElem?_map, hi]
    rfl
  rwa [List.getElem?_map, Option.map_eq_some_iff] at hq

end mergeWhere

/-! ## Lists against dictionaries -/

section keyed
variable {κ : Type u} {β : Type v} {α : Type w} [DecidableEq κ] {R : κ × β → α → Prop}
  {items : List (κ × β)} {l : List α} {p : α → Bool} {k : κ}

omit [DecidableEq κ] in
/-- The element that stands for the `i`-th key. -/
theorem exists_getElem?_of_forall₂ {i : Nat} (h : List.Forall₂ R items l)
    (hi : (items.map Prod.fst)[i]? = some k) :
    ∃ v a, (k, v) ∈ items ∧ l[i]? = some a ∧ R (k, v) a := by
  induction h generalizing i with
  | nil => cases hi
  | @cons item a items l hR h ih =>
    cases i with
    | zero =>
      cases hi
      exact ⟨item.2, a, List.mem_cons_self, rfl, hR⟩
    | succ i =>
      obtain ⟨v, a, hmem, ha, hR⟩ := ih hi
      exact ⟨v, a, List.mem_cons_of_mem _ hmem, ha, hR⟩

/-- Only the element that stands for the key `k` is admitted. -/
def Picks (R : κ × β → α → Prop) (items : List (κ × β)) (p : α → Bool) (k : κ) : Prop :=
  ∀ item ∈ items, ∀ a, R item a → (p a = true ↔ item.1 = k)

omit [DecidableEq κ] in
theorem Picks.tail {item : κ × β} (h : Picks R (item :: items) p k) : Picks R items p k :=
  fun item hitem => h item (List.mem_cons_of_mem _ hitem)

omit [DecidableEq κ] in
theorem Picks.eq_false (hp : Picks R items p k) (h : List.Forall₂ R items l)
    (hk : k ∉ items.map Prod.fst) : ∀ a ∈ l, p a = false := by
  intro a ha
  obtain ⟨item, hmem, hR⟩ := exists_mem_of_forall₂ h ha
  refine Bool.eq_false_iff.mpr fun hpa => hk ?_
  exact List.mem_map.mpr ⟨item, hmem, (hp item hmem a hR).mp hpa⟩

/-- A merge against storing in a dictionary. -/
theorem forall₂_mergeWhere (h : List.Forall₂ R items l) (hnodup : (items.map Prod.fst).Nodup)
    (hp : Picks R items p k) {update : α → α} {new : α} (update' : β → β) {new' : β}
    (hold : ∀ v a, (k, v) ∈ items → R (k, v) a → R (k, update' v) (update a))
    (hnew : R (k, update' new') (update new)) :
    List.Forall₂ R (Entries.set k (update' ((Entries.get? k items).getD new')) items)
      (mergeWhere p update new l) := by
  induction h with
  | nil => exact .cons hnew .nil
  | @cons item a items l hR h ih =>
    obtain ⟨k', v⟩ := item
    rw [List.map_cons, List.nodup_cons] at hnodup
    have hpa := hp _ List.mem_cons_self a hR
    by_cases hk : k' = k
    · subst hk
      rw [mergeWhere_cons_of_pos (hpa.mpr rfl) (hp.tail.eq_false h hnodup.1), Entries.get?,
        if_pos rfl, Entries.set, if_pos rfl]
      exact .cons (hold v a List.mem_cons_self hR) h
    · rw [mergeWhere_cons_of_neg (Bool.eq_false_iff.mpr fun ht => hk (hpa.mp ht)), Entries.get?,
        if_neg hk, Entries.set, if_neg hk]
      exact .cons hR (ih hnodup.2 hp.tail fun v a hv => hold v a (List.mem_cons_of_mem _ hv))

/-- The only match, if there is one, against a lookup. -/
theorem exists_filter_eq (h : List.Forall₂ R items l) (hnodup : (items.map Prod.fst).Nodup)
    (hp : Picks R items p k) : ∃ a : Option α, l.filter p = a.toList ∧
      Option.Rel (fun v a => R (k, v) a) (Entries.get? k items) a := by
  induction h with
  | nil => exact ⟨none, rfl, .none⟩
  | @cons item a items l hR h ih =>
    obtain ⟨k', v⟩ := item
    rw [List.map_cons, List.nodup_cons] at hnodup
    have hpa := hp _ List.mem_cons_self a hR
    by_cases hk : k' = k
    · subst hk
      have hrest : l.filter p = [] := List.filter_eq_nil_iff.mpr fun b hb =>
        Bool.eq_false_iff.mp (hp.tail.eq_false h hnodup.1 b hb)
      rw [Entries.get?, if_pos rfl, List.filter_cons_of_pos (hpa.mpr rfl), hrest]
      exact ⟨some a, rfl, .some hR⟩
    · rw [Entries.get?, if_neg hk, List.filter_cons_of_neg fun ht => hk (hpa.mp ht)]
      exact ih hnodup.2 hp.tail

omit [DecidableEq κ] in
theorem findIdxs_eq_singleton (h : List.Forall₂ R items l) (hnodup : (items.map Prod.fst).Nodup)
    (hp : Picks R items p k) (hi : (items.map Prod.fst)[i]? = some k) (start : Nat) :
    l.findIdxs p start = [i + start] := by
  induction h generalizing i start with
  | nil => cases hi
  | @cons item a items l hR h ih =>
    rw [List.map_cons, List.nodup_cons] at hnodup
    have hpa := hp _ List.mem_cons_self a hR
    rw [List.findIdxs_cons]
    cases i with
    | zero =>
      have hk : item.1 = k := Option.some.inj hi
      subst hk
      rw [if_pos (hpa.mpr rfl),
        List.findIdxs_eq_nil_iff.mpr (hp.tail.eq_false h hnodup.1), Nat.zero_add]
    | succ i =>
      rw [List.map_cons, List.getElem?_cons_succ] at hi
      have hk : item.1 ≠ k := fun hk => hnodup.1 (hk ▸ List.mem_of_getElem? hi)
      rw [if_neg fun ht => hk (hpa.mp ht), ih hnodup.2 hp.tail hi, Nat.succ_add_eq_add_succ]

omit [DecidableEq κ] in
theorem findIdxs_eq_nil (h : List.Forall₂ R items l) (hp : Picks R items p k)
    (hk : k ∉ items.map Prod.fst) (start : Nat) : l.findIdxs p start = [] :=
  List.findIdxs_eq_nil_iff.mpr (hp.eq_false h hk)

end keyed

/-! ## Graphs and statements -/

namespace PropertyGraph

structure Node (L : Type u) (K : Type v) (V : Type w) where
  labels : Finset L
  props : Dict K V

structure Edge (L : Type u) (K : Type v) (V : Type w) where
  relType : L
  src : Nat
  dst : Nat
  props : Dict K V

end PropertyGraph

/-- A property graph. No edge dangles. -/
structure PropertyGraph (L : Type u) (K : Type v) (V : Type w) where
  nodes : List (PropertyGraph.Node L K V)
  edges : List (PropertyGraph.Edge L K V)
  joined : ∀ e ∈ edges, e.src < nodes.length ∧ e.dst < nodes.length

namespace PropertyGraph

variable {L : Type u} {K : Type v} {V : Type w} [DecidableEq L] [DecidableEq K] [DecidableEq V]

omit [DecidableEq L] [DecidableEq K] [DecidableEq V] in
instance : EmptyCollection (PropertyGraph L K V) := ⟨⟨[], [], nofun⟩⟩

/-- `{k: v, ..}`: every property of the pattern is there with its value. -/
def fits (pattern props : Dict K V) : Bool :=
  pattern.items.all fun e => props.get? e.1 = some e.2

/-- `(:label pattern)`. -/
def Node.fits (label : L) (pattern : Dict K V) (n : Node L K V) : Bool :=
  label ∈ n.labels && PropertyGraph.fits pattern n.props

/-- `()-[:relType pattern]->()` between two given nodes. -/
def Edge.fits (relType : L) (pattern : Dict K V) (s d : Nat) (e : Edge L K V) : Bool :=
  e.relType = relType && e.src = s && e.dst = d && PropertyGraph.fits pattern e.props

theorem fits_iff {pattern props : Dict K V} :
    fits pattern props = true ↔ ∀ k v, pattern.get? k = some v → props.get? k = some v := by
  simp [fits, ← Dict.mem_items (d := pattern), Prod.forall]

theorem fits_self (pattern : Dict K V) : fits pattern pattern = true := fits_iff.mpr fun _ _ => id

theorem fits_trans {p q r : Dict K V} (h : fits p q = true) (h' : fits q r = true) :
    fits p r = true :=
  fits_iff.mpr fun k v hk => fits_iff.mp h' k v (fits_iff.mp h k v hk)

theorem fits_update {p q : Dict K V} (h : fits p q = true) (x : Dict K V) :
    fits (p.update x) (q.update x) = true := by
  refine fits_iff.mpr fun k v hk => ?_
  rw [Dict.get?_update] at hk ⊢
  rcases hx : x.get? k with _ | v'
  · rw [hx] at hk
    exact fits_iff.mp h k v hk
  · rwa [hx] at hk

/-- Storing entries of the pattern again changes nothing that it asks for. -/
theorem fits_update_again {p q x : Dict K V} (h : fits (p.update x) q = true) :
    fits (p.update x) (q.update x) = true := by
  refine fits_trans (fits_iff.mpr fun k v hk => ?_) (fits_update h x)
  rw [Dict.get?_update] at hk ⊢
  rcases hx : x.get? k with _ | v'
  · rw [hx] at hk
    rw [Dict.get?_update, hx]
    exact hk
  · rwa [hx] at hk

theorem Node.fits_iff {n : Node L K V} : n.fits label pattern = true ↔
    label ∈ n.labels ∧ PropertyGraph.fits pattern n.props = true := by
  rw [Node.fits, Bool.and_eq_true, decide_eq_true_eq]

theorem Edge.fits_iff {e : Edge L K V} {relType : L} : e.fits relType pattern s d = true ↔
    e.relType = relType ∧ e.src = s ∧ e.dst = d ∧ PropertyGraph.fits pattern e.props = true := by
  simp only [Edge.fits, Bool.and_eq_true, decide_eq_true_eq, and_assoc]

/-- `MATCH (n:label pattern)`, as the numbers of the nodes. -/
def matchNodes (g : PropertyGraph L K V) (label : L) (pattern : Dict K V) : List Nat :=
  g.nodes.findIdxs (Node.fits label pattern)

/-- `MATCH (s:sl sk) MATCH (d:dl dk)`. -/
def matchPairs (g : PropertyGraph L K V) (sl : L) (sk : Dict K V) (dl : L) (dk : Dict K V) :
    List (Nat × Nat) :=
  (g.matchNodes sl sk).flatMap fun s => (g.matchNodes dl dk).map fun d => (s, d)

theorem mem_matchNodes {g : PropertyGraph L K V} : i ∈ g.matchNodes label pattern ↔
    ∃ n, g.nodes[i]? = some n ∧ n.fits label pattern = true := by
  rw [matchNodes, List.mem_findIdxs_iff_exists_getElem_pos]
  constructor
  · rintro ⟨hi, hn⟩
    exact ⟨_, List.getElem?_eq_getElem hi, hn⟩
  · rintro ⟨n, hn, hfits⟩
    obtain ⟨hi, rfl⟩ := List.getElem?_eq_some_iff.mp hn
    exact ⟨hi, hfits⟩

theorem mem_matchPairs {g : PropertyGraph L K V} : row ∈ g.matchPairs sl sk dl dk ↔
    row.1 ∈ g.matchNodes sl sk ∧ row.2 ∈ g.matchNodes dl dk := by
  obtain ⟨s, d⟩ := row
  simp [matchPairs]

theorem lt_of_mem_matchNodes {g : PropertyGraph L K V} (h : i ∈ g.matchNodes label pattern) :
    i < g.nodes.length :=
  let ⟨_, hn, _⟩ := mem_matchNodes.mp h
  (List.getElem?_eq_some_iff.mp hn).1

theorem exists_mem_matchNodes {g : PropertyGraph L K V}
    (h : ∃ n ∈ g.nodes, n.fits label pattern = true) : ∃ i, i ∈ g.matchNodes label pattern := by
  obtain ⟨n, hn, hfits⟩ := h
  obtain ⟨i, hi⟩ := List.getElem?_of_mem hn
  exact ⟨i, mem_matchNodes.mpr ⟨n, hi, hfits⟩⟩

/-- `MERGE (n:label pattern) SET ..`, with what is set as an update of nodes. -/
def mergeNode (g : PropertyGraph L K V) (label : L) (pattern : Dict K V)
    (set : Node L K V → Node L K V) : PropertyGraph L K V where
  nodes := mergeWhere (Node.fits label pattern) set ⟨{label}, pattern⟩ g.nodes
  edges := g.edges
  joined e he := by
    have hle : g.nodes.length ≤
        (mergeWhere (Node.fits label pattern) set ⟨{label}, pattern⟩ g.nodes).length := by
      rw [mergeWhere]
      split <;> simp
    exact (g.joined e he).imp (·.trans_le hle) (·.trans_le hle)

theorem nodes_mergeNode (g : PropertyGraph L K V) (label : L) (pattern : Dict K V)
    (set : Node L K V → Node L K V) : (g.mergeNode label pattern set).nodes =
      mergeWhere (Node.fits label pattern) set ⟨{label}, pattern⟩ g.nodes := rfl

/-- `MERGE (s)-[r:relType pattern]->(d) SET ..` for one row, with what is set as an update of
properties. -/
def mergeRow (relType : L) (pattern : Dict K V) (set : Dict K V → Dict K V)
    (edges : List (Edge L K V)) (row : Nat × Nat) : List (Edge L K V) :=
  mergeWhere (Edge.fits relType pattern row.1 row.2) (fun e => { e with props := set e.props })
    ⟨relType, row.1, row.2, pattern⟩ edges

section mergeRow
variable {relType : L} {pattern : Dict K V} {set : Dict K V → Dict K V} {Q : Edge L K V → Prop}
  {edges : List (Edge L K V)} {rows : List (Nat × Nat)}

theorem forall_mergeRows (h : ∀ e ∈ edges, Q e)
    (hset : ∀ e, Q e → Q { e with props := set e.props })
    (hnew : ∀ row ∈ rows, Q ⟨relType, row.1, row.2, set pattern⟩) :
    ∀ e ∈ rows.foldl (mergeRow relType pattern set) edges, Q e := by
  induction rows generalizing edges with
  | nil => exact h
  | cons row rows ih =>
    refine ih ?_ fun row hrow => hnew row (List.mem_cons_of_mem _ hrow)
    exact forall_mergeWhere h (fun e _ _ => hset e) (hnew row List.mem_cons_self)

theorem exists_mergeRows (hset : ∀ e, Q e → Q { e with props := set e.props })
    (h : ∃ e ∈ edges, Q e) : ∃ e ∈ rows.foldl (mergeRow relType pattern set) edges, Q e := by
  induction rows generalizing edges with
  | nil => exact h
  | cons row rows ih => exact ih (exists_mergeWhere hset h)

/-- After the rows are merged, each has its edge. -/
theorem exists_mergeRows_row (hset : ∀ e, Q e → Q { e with props := set e.props })
    (hrow : row ∈ rows) (hfits : ∀ e : Edge L K V, e.fits relType pattern row.1 row.2 = true →
      Q { e with props := set e.props })
    (hnew : Q ⟨relType, row.1, row.2, set pattern⟩) :
    ∃ e ∈ rows.foldl (mergeRow relType pattern set) edges, Q e := by
  induction rows generalizing edges with
  | nil => cases hrow
  | cons row' rows ih =>
    rw [List.foldl_cons]
    rcases List.mem_cons.mp hrow with rfl | hrow
    · apply exists_mergeRows hset
      rw [mergeRow]
      exact exists_mergeWhere_update (fun e _ => hfits e) hnew
    · exact ih hrow

end mergeRow

/-- `MATCH (s:sl sk) MATCH (d:dl dk) MERGE (s)-[r:relType pattern]->(d) SET ..`. -/
def mergeEdges (g : PropertyGraph L K V) (sl : L) (sk : Dict K V) (dl : L) (dk : Dict K V)
    (relType : L) (pattern : Dict K V) (set : Dict K V → Dict K V) : PropertyGraph L K V where
  nodes := g.nodes
  edges := (g.matchPairs sl sk dl dk).foldl (mergeRow relType pattern set) g.edges
  joined := forall_mergeRows g.joined (fun _ => id) fun _ hrow =>
    (mem_matchPairs.mp hrow).imp lt_of_mem_matchNodes lt_of_mem_matchNodes

theorem edges_mergeEdges (g : PropertyGraph L K V) (sl : L) (sk : Dict K V) (dl : L)
    (dk : Dict K V) (relType : L) (pattern : Dict K V) (set : Dict K V → Dict K V) :
    (g.mergeEdges sl sk dl dk relType pattern set).edges =
      (g.matchPairs sl sk dl dk).foldl (mergeRow relType pattern set) g.edges := rfl

/-- An edge of the type leads from one node to the other. -/
def Joins (g : PropertyGraph L K V) (relType : L) (s d : Nat) : Prop :=
  ∃ e ∈ g.edges, e.relType = relType ∧ e.src = s ∧ e.dst = d

/-- A merge of edges joins what was joined, and every matched pair. -/
theorem joins_mergeEdges {g : PropertyGraph L K V} {sk dk pattern : Dict K V}
    {set : Dict K V → Dict K V} : (g.mergeEdges sl sk dl dk relType pattern set).Joins t s d ↔
      g.Joins t s d ∨ t = relType ∧ s ∈ g.matchNodes sl sk ∧ d ∈ g.matchNodes dl dk := by
  constructor
  · rintro ⟨e, he, rfl, rfl, rfl⟩
    refine forall_mergeRows (Q := fun e => g.Joins e.relType e.src e.dst ∨ e.relType = relType ∧
      e.src ∈ g.matchNodes sl sk ∧ e.dst ∈ g.matchNodes dl dk) ?_ (fun _ => id) ?_ e he
    · exact fun e he => .inl ⟨e, he, rfl, rfl, rfl⟩
    · exact fun row hrow => .inr ⟨rfl, mem_matchPairs.mp hrow⟩
  · rintro (h | ⟨rfl, hs, hd⟩)
    · exact exists_mergeRows (fun _ => id) h
    · have hrow : (s, d) ∈ g.matchPairs sl sk dl dk := mem_matchPairs.mpr ⟨hs, hd⟩
      refine exists_mergeRows_row (fun _ => id) hrow (fun e he => ?_) ⟨rfl, rfl, rfl⟩
      obtain ⟨htype, hsrc, hdst, -⟩ := Edge.fits_iff.mp he
      exact ⟨htype, hsrc, hdst⟩

/-- A merge of nodes keeps the number of every node that was there. -/
theorem getElem?_mergeNode {g : PropertyGraph L K V} {pattern : Dict K V}
    {set : Node L K V → Node L K V} (hi : i < g.nodes.length) :
    (g.mergeNode label pattern set).nodes[i]? =
      g.nodes[i]?.map fun n => if n.fits label pattern then set n else n := by
  rw [nodes_mergeNode, mergeWhere]
  split
  · exact List.getElem?_map
  · rename_i hany
    have hn : g.nodes[i].fits label pattern = false := by
      refine Bool.eq_false_iff.mpr fun hfits => hany ?_
      exact List.any_eq_true.mpr ⟨_, List.getElem_mem hi, hfits⟩
    rw [List.getElem?_append_left hi, List.getElem?_eq_getElem hi, Option.map_some, hn]
    rfl

/-- A node with a new number was created, and the pattern had admitted none. -/
theorem eq_new_of_mergeNode {g : PropertyGraph L K V} {pattern : Dict K V}
    {set : Node L K V → Node L K V} (hi : ¬ i < g.nodes.length)
    (hn : (g.mergeNode label pattern set).nodes[i]? = some n) :
    (∀ a ∈ g.nodes, ¬ a.fits label pattern = true) ∧ n = set ⟨{label}, pattern⟩ := by
  rw [nodes_mergeNode, mergeWhere] at hn
  split at hn
  · rw [List.getElem?_map, List.getElem?_eq_none (Nat.le_of_not_lt hi)] at hn
    cases hn
  · rename_i hany
    refine ⟨fun a ha hfits => hany (List.any_eq_true.mpr ⟨a, ha, hfits⟩), ?_⟩
    exact List.mem_singleton.mp (List.mem_of_getElem?
      ((List.getElem?_append_right (Nat.le_of_not_lt hi)).symm.trans hn))

/-- A pattern that the update leaves alone matches the same nodes after a merge of others. -/
theorem mem_matchNodes_mergeNode {g : PropertyGraph L K V} {pattern pattern' : Dict K V}
    {set : Node L K V → Node L K V}
    (hset : ∀ n : Node L K V, (set n).fits label' pattern' = n.fits label' pattern')
    (hnew : Node.fits label' pattern' ⟨{label}, pattern⟩ = false) :
    i ∈ (g.mergeNode label pattern set).matchNodes label' pattern' ↔
      i ∈ g.matchNodes label' pattern' := by
  simp only [mem_matchNodes]
  have hold (n : Node L K V) :
      Node.fits label' pattern' (if n.fits label pattern then set n else n) =
        n.fits label' pattern' := by
    split
    · exact hset n
    · rfl
  by_cases hi : i < g.nodes.length
  · simp only [getElem?_mergeNode hi, Option.map_eq_some_iff]
    constructor
    · rintro ⟨_, ⟨n, hn, rfl⟩, hfits⟩
      exact ⟨n, hn, (hold n).symm.trans hfits⟩
    · rintro ⟨n, hn, hfits⟩
      exact ⟨_, ⟨n, hn, rfl⟩, (hold n).trans hfits⟩
  · refine iff_of_false ?_ fun ⟨n, hn, _⟩ => hi (List.getElem?_eq_some_iff.mp hn).1
    rintro ⟨n, hn, hfits⟩
    rw [(eq_new_of_mergeNode hi hn).2, hset, hnew] at hfits
    cases hfits

/-- `MATCH (s)-[r:relType]->(d) RETURN d, r` for one `s`. -/
def outgoing (g : PropertyGraph L K V) (relType : L) (s : Nat) : List (Node L K V × Dict K V) :=
  g.edges.filterMap fun e =>
    if e.relType = relType ∧ e.src = s then g.nodes[e.dst]?.map fun d => (d, e.props) else none

omit [DecidableEq K] [DecidableEq V] in
theorem mem_outgoing {g : PropertyGraph L K V} : (d, r) ∈ g.outgoing relType s ↔
    ∃ e ∈ g.edges, e.relType = relType ∧ e.src = s ∧ g.nodes[e.dst]? = some d ∧ e.props = r := by
  simp [outgoing, List.mem_filterMap, and_assoc]

end PropertyGraph

end MarginKG
