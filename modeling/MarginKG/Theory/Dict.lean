import Mathlib.Data.List.Nodup
import Mathlib.Data.List.Basic
import Mathlib.Data.List.Forall2
import Mathlib.Data.Finset.Dedup

/-! Insertion-ordered dictionaries. Storing a value at a key that is present replaces the value
in place; a new key goes to the end. Two dictionaries count as the same map when they agree
under `get?`, whatever the order of their entries.

No key occurs twice: the structure carries the proof, so that a lookup and the membership of an
entry say the same thing (`Dict.mem_items`). -/

namespace MarginKG

universe u v

theorem exists_mem_of_forall₂ {α : Type u} {β : Type v} {R : α → β → Prop} {l : List α}
    {l' : List β} {b : β} (h : List.Forall₂ R l l') (hb : b ∈ l') : ∃ a ∈ l, R a b := by
  induction h with
  | nil => cases hb
  | cons hR _ ih =>
    rcases List.mem_cons.mp hb with rfl | hb
    · exact ⟨_, List.mem_cons_self, hR⟩
    · obtain ⟨a, hmem, hR⟩ := ih hb
      exact ⟨a, List.mem_cons_of_mem _ hmem, hR⟩

namespace Entries

variable {α : Type u} {β : Type v} [DecidableEq α]

/-- The value of the first entry at `k`. -/
def get? (k : α) : List (α × β) → Option β
  | [] => none
  | (k', v) :: l => if k' = k then some v else get? k l

/-- Overwrite the first entry at `k`, or append one. -/
def set (k : α) (v : β) : List (α × β) → List (α × β)
  | [] => [(k, v)]
  | (k', v') :: l => if k' = k then (k', v) :: l else (k', v') :: set k v l

theorem get?_eq_none_iff {l : List (α × β)} : get? k l = none ↔ k ∉ l.map Prod.fst := by
  induction l with
  | nil => simp [get?]
  | cons e l ih =>
    obtain ⟨k', v⟩ := e
    by_cases h : k' = k
    · simp [get?, h]
    · simp [get?, h, ih, Ne.symm h]

theorem get?_of_mem {l : List (α × β)} (hl : (l.map Prod.fst).Nodup) (h : (k, v) ∈ l) :
    get? k l = some v := by
  induction l with
  | nil => cases h
  | cons e l ih =>
    obtain ⟨k', v'⟩ := e
    simp only [List.map_cons, List.nodup_cons] at hl
    rcases List.mem_cons.mp h with h | h
    · cases h; simp [get?]
    · have hne : k' ≠ k := fun e => hl.1 (e ▸ List.mem_map.mpr ⟨_, h, rfl⟩)
      simp [get?, hne, ih hl.2 h]

theorem mem_of_get? {l : List (α × β)} (h : get? k l = some v) : (k, v) ∈ l := by
  induction l with
  | nil => cases h
  | cons e l ih =>
    obtain ⟨k', v'⟩ := e
    by_cases hk : k' = k
    · simp only [get?, hk, if_true, Option.some.injEq] at h
      simp [hk, h]
    · simp only [get?, if_neg hk] at h
      exact List.mem_cons_of_mem _ (ih h)

theorem get?_set (l : List (α × β)) (k k' : α) (v : β) :
    get? k' (set k v l) = if k = k' then some v else get? k' l := by
  induction l with
  | nil => simp [set, get?]
  | cons e l ih =>
    obtain ⟨k₁, v₁⟩ := e
    by_cases h : k₁ = k
    · subst h
      by_cases h' : k₁ = k' <;> simp [set, get?, h']
    · by_cases h' : k₁ = k'
      · subst h'; simp [set, get?, h, Ne.symm h]
      · simp [set, get?, h, h', ih]

/-- Storing at a key that is present keeps the keys and their order. -/
theorem set_eq_of_mem {l₁ l₂ : List (α × β)} (h : k ∉ l₁.map Prod.fst) :
    set k v (l₁ ++ (k, v') :: l₂) = l₁ ++ (k, v) :: l₂ := by
  induction l₁ with
  | nil => simp [set]
  | cons e l₁ ih =>
    simp only [List.map_cons, List.mem_cons, not_or] at h
    simp [set, Ne.symm h.1, ih h.2]

/-- Storing at a new key appends the entry. -/
theorem set_eq_of_not_mem {l : List (α × β)} (h : k ∉ l.map Prod.fst) :
    set k v l = l ++ [(k, v)] := by
  induction l with
  | nil => rfl
  | cons e l ih =>
    simp only [List.map_cons, List.mem_cons, not_or] at h
    simp [set, Ne.symm h.1, ih h.2]

/-- Storing a value keeps the entries around its key. -/
theorem set_eq (l : List (α × β)) (k : α) (v : β) : set k v l =
    (l.takeWhile fun e => e.1 ≠ k) ++ (k, v) :: (l.dropWhile fun e => e.1 ≠ k).tail := by
  induction l with
  | nil => rfl
  | cons e l ih =>
    obtain ⟨k', v'⟩ := e
    by_cases h : k' = k
    · simp [set, h]
    · simp [set, h, ih]

theorem keys_set (l : List (α × β)) (k : α) (v : β) :
    (set k v l).map Prod.fst =
      if k ∈ l.map Prod.fst then l.map Prod.fst else l.map Prod.fst ++ [k] := by
  induction l with
  | nil => simp [set]
  | cons e l ih =>
    obtain ⟨k', v'⟩ := e
    by_cases h : k' = k
    · simp [set, h]
    · simp only [set, if_neg h, List.map_cons, ih, List.mem_cons, Ne.symm h, false_or]
      split <;> simp

/-- Storing at a key that is filtered out does not show. -/
theorem filter_set {p : α → Bool} (hk : p k = false) (l : List (α × β)) (v : β) :
    (set k v l).filter (fun e => p e.1) = l.filter fun e => p e.1 := by
  induction l with
  | nil => simp [set, hk]
  | cons e l ih =>
    obtain ⟨k', v'⟩ := e
    by_cases h : k' = k
    · subst h
      simp [set, hk]
    · rw [set, if_neg h, List.filter_cons, List.filter_cons, ih]

theorem nodup_set {l : List (α × β)} (hl : (l.map Prod.fst).Nodup) :
    ((set k v l).map Prod.fst).Nodup := by
  rw [keys_set]
  split
  · exact hl
  · rename_i h
    exact List.nodup_append.mpr ⟨hl, List.nodup_singleton k, by
      intro a ha b hb hab
      rw [List.mem_singleton.mp hb] at hab
      exact h (hab ▸ ha)⟩

/-- The keys of the second list that are not in the first, each once, in the order in which they
first come up. -/
def newKeys (K : List α) : List α → List α
  | [] => []
  | k :: ks => if k ∈ K then newKeys K ks else k :: newKeys (K ++ [k]) ks

theorem mem_newKeys {K ks : List α} : k ∈ newKeys K ks ↔ k ∈ ks ∧ k ∉ K := by
  induction ks generalizing K with
  | nil => simp [newKeys]
  | cons k' ks ih =>
    rw [newKeys]
    split
    · rename_i hk'
      rw [ih, List.mem_cons]
      exact ⟨fun h => ⟨.inr h.1, h.2⟩, fun h => ⟨h.1.resolve_left fun e => h.2 (e ▸ hk'), h.2⟩⟩
    · rename_i hk'
      rw [List.mem_cons, ih, List.mem_cons, List.mem_append, List.mem_singleton]
      by_cases hk : k = k'
      · simp [hk, hk']
      · simp [hk]

theorem newKeys_congr {K K' ks : List α} (h : ∀ k ∈ ks, k ∈ K ↔ k ∈ K') :
    newKeys K ks = newKeys K' ks := by
  induction ks generalizing K K' with
  | nil => rfl
  | cons k ks ih =>
    obtain ⟨hk, hks⟩ := List.forall_mem_cons.mp h
    have hks' : ∀ k' ∈ ks, k' ∈ K ++ [k] ↔ k' ∈ K' ++ [k] := fun k' hk' => by
      rw [List.mem_append, List.mem_append, hks k' hk']
    rw [newKeys, newKeys, ih hks, ih hks']
    exact if_congr hk rfl rfl

theorem newKeys_append (K ks ks' : List α) :
    newKeys K (ks ++ ks') = newKeys K ks ++ newKeys (K ++ newKeys K ks) ks' := by
  induction ks generalizing K with
  | nil => rw [newKeys, List.nil_append, List.nil_append, List.append_nil]
  | cons k ks ih =>
    rw [List.cons_append, newKeys, newKeys]
    split
    · exact ih K
    · rw [ih, List.cons_append, List.append_assoc, List.singleton_append]

theorem newKeys_append_of_disjoint {ks ks' : List α} (h : ks.Disjoint ks') (K : List α) :
    newKeys K (ks ++ ks') = newKeys K ks ++ newKeys K ks' := by
  rw [newKeys_append]
  refine congrArg _ (newKeys_congr fun k hk => ?_)
  rw [List.mem_append, mem_newKeys]
  exact or_iff_left fun hks => h hks.1 hk

omit [DecidableEq α] in
/-- What a partial function returns over a list, against the elements it returns it for. -/
theorem forall₂_filterMap (f : α → Option β) (l : List α) :
    List.Forall₂ (fun a b => a ∈ l ∧ f a = some b) (l.filter fun a => (f a).isSome)
      (l.filterMap f) := by
  induction l with
  | nil => exact .nil
  | cons a l ih =>
    have ih := ih.imp fun _ _ h => (⟨List.mem_cons_of_mem a h.1, h.2⟩ : _ ∈ a :: l ∧ _)
    rcases ha : f a with _ | b
    · rwa [List.filter_cons_of_neg (by simp [ha]), List.filterMap_cons_none ha]
    · rw [List.filter_cons_of_pos (by simp [ha]), List.filterMap_cons_some ha]
      exact .cons ⟨List.mem_cons_self, ha⟩ ih

end Entries

/-- A dictionary: entries in insertion order, no key twice. -/
@[ext] structure Dict (α : Type u) (β : Type v) where
  items : List (α × β)
  nodup : (items.map Prod.fst).Nodup

namespace Dict

variable {α : Type u} {β : Type v}

instance [DecidableEq α] [DecidableEq β] : DecidableEq (Dict α β) := fun d e =>
  decidable_of_iff (d.items = e.items) Dict.ext_iff.symm

/-- The empty dictionary. -/
def empty : Dict α β := ⟨[], List.nodup_nil⟩

instance : EmptyCollection (Dict α β) := ⟨empty⟩

instance : Inhabited (Dict α β) := ⟨empty⟩

def keys (d : Dict α β) : List α := d.items.map Prod.fst

def values (d : Dict α β) : List β := d.items.map Prod.snd

/-- The entries that `p` admits, in their order. -/
def filter (d : Dict α β) (p : α → β → Bool) : Dict α β :=
  ⟨d.items.filter fun e => p e.1 e.2, d.nodup.sublist (List.filter_sublist.map _)⟩

variable [DecidableEq α]

def get? (d : Dict α β) (k : α) : Option β := Entries.get? k d.items

def set (d : Dict α β) (k : α) (v : β) : Dict α β :=
  ⟨Entries.set k v d.items, Entries.nodup_set d.nodup⟩

/-- Store the entries of a list one after the other. -/
def setAll (d : Dict α β) (l : List (α × β)) : Dict α β :=
  l.foldl (fun d e => d.set e.1 e.2) d

/-- `d.update e` stores the entries of `e` over those of `d`. -/
def update (d e : Dict α β) : Dict α β := d.setAll e.items

/-- The dictionary written as a list of entries, a later one overwriting an earlier one. -/
def ofList (l : List (α × β)) : Dict α β := empty.setAll l

theorem mem_items {d : Dict α β} : (k, v) ∈ d.items ↔ d.get? k = some v :=
  ⟨Entries.get?_of_mem d.nodup, Entries.mem_of_get?⟩

theorem get?_eq_none {d : Dict α β} : d.get? k = none ↔ k ∉ d.keys := Entries.get?_eq_none_iff

theorem mem_keys {d : Dict α β} : k ∈ d.keys ↔ ∃ v, d.get? k = some v := by
  rw [← not_iff_not, ← get?_eq_none, Option.eq_none_iff_forall_ne_some, not_exists]

theorem get?_of_mem {d : Dict α β} (h : (k, v) ∈ d.items) : d.get? k = some v := mem_items.mp h

@[simp] theorem get?_empty (k : α) : (∅ : Dict α β).get? k = none := rfl

omit [DecidableEq α] in
@[simp] theorem items_empty : (∅ : Dict α β).items = [] := rfl

theorem get?_set (d : Dict α β) (k k' : α) (v : β) :
    (d.set k v).get? k' = if k = k' then some v else d.get? k' :=
  Entries.get?_set d.items k k' v

@[simp] theorem get?_set_self (d : Dict α β) (k : α) (v : β) : (d.set k v).get? k = some v := by
  simp [get?_set]

theorem get?_set_of_ne {d : Dict α β} (h : k ≠ k') : (d.set k v).get? k' = d.get? k' := by
  simp [get?_set, h]

/-- The entries around a stored key, before and after a new value is stored there. -/
theorem set_split {d : Dict α β} (h : d.get? k = some v') (v : β) :
    ∃ l₁ l₂, d.items = l₁ ++ (k, v') :: l₂ ∧ (d.set k v).items = l₁ ++ (k, v) :: l₂ := by
  obtain ⟨l₁, l₂, hl⟩ := List.append_of_mem (mem_items.mpr h)
  refine ⟨l₁, l₂, hl, ?_⟩
  have hnd := d.nodup
  rw [hl, List.map_append, List.map_cons] at hnd
  have hk : k ∉ l₁.map Prod.fst := fun hk =>
    (List.nodup_append.mp hnd).2.2 k hk k List.mem_cons_self rfl
  change Entries.set k v d.items = _
  rw [hl, Entries.set_eq_of_mem hk]

/-- A new key is stored at the end. -/
theorem set_append {d : Dict α β} (h : d.get? k = none) (v : β) :
    (d.set k v).items = d.items ++ [(k, v)] :=
  Entries.set_eq_of_not_mem (get?_eq_none.mp h)

/-- The entries that come before a key, all of them when it is not stored. -/
def before (d : Dict α β) (k : α) : List (α × β) := d.items.takeWhile fun e => e.1 ≠ k

/-- The entries that come after a key, none when it is not stored. -/
def after (d : Dict α β) (k : α) : List (α × β) := (d.items.dropWhile fun e => e.1 ≠ k).tail

theorem items_set (d : Dict α β) (k : α) (v : β) :
    (d.set k v).items = d.before k ++ (k, v) :: d.after k :=
  Entries.set_eq d.items k v

theorem keys_set (d : Dict α β) (k : α) (v : β) :
    (d.set k v).keys = if k ∈ d.keys then d.keys else d.keys ++ [k] :=
  Entries.keys_set d.items k v

@[simp] theorem setAll_nil (d : Dict α β) : d.setAll [] = d := rfl

@[simp] theorem setAll_cons (d : Dict α β) (e : α × β) (l : List (α × β)) :
    d.setAll (e :: l) = (d.set e.1 e.2).setAll l := rfl

/-- What is read back was there or is in the list. -/
theorem mem_of_get?_setAll {l : List (α × β)} {d : Dict α β} (h : (d.setAll l).get? k = some v) :
    d.get? k = some v ∨ (k, v) ∈ l := by
  induction l generalizing d with
  | nil => exact .inl h
  | cons e l ih =>
    rcases ih h with h | h
    · rw [get?_set] at h
      split at h
      · rename_i heq
        cases h
        exact .inr (heq ▸ List.mem_cons_self)
      · exact .inl h
    · exact .inr (List.mem_cons_of_mem _ h)

/-- In a list without repeated keys every entry is the one that is read back. -/
theorem get?_setAll {l : List (α × β)} (hl : (l.map Prod.fst).Nodup) (d : Dict α β) (k : α) :
    (d.setAll l).get? k = (Entries.get? k l).or (d.get? k) := by
  induction l generalizing d with
  | nil => simp [Entries.get?]
  | cons e l ih =>
    obtain ⟨k', v⟩ := e
    simp only [List.map_cons, List.nodup_cons] at hl
    rw [setAll_cons, ih hl.2, get?_set]
    by_cases h : k' = k
    · subst h
      simp [Entries.get?, Entries.get?_eq_none_iff.mpr hl.1]
    · simp [Entries.get?, h]

theorem setAll_append (d : Dict α β) (l l' : List (α × β)) :
    d.setAll (l ++ l') = (d.setAll l).setAll l' := List.foldl_append ..

theorem get?_setAll_of_not_mem {l : List (α × β)} (hk : k ∉ l.map Prod.fst) (d : Dict α β) :
    (d.setAll l).get? k = d.get? k := by
  induction l generalizing d with
  | nil => rfl
  | cons e l ih =>
    rw [List.map_cons, List.mem_cons, not_or] at hk
    rw [setAll_cons, ih hk.2, get?_set_of_ne (Ne.symm hk.1)]

theorem get?_setAll_congr {d e : Dict α β} (h : d.get? k = e.get? k) (l : List (α × β)) :
    (d.setAll l).get? k = (e.setAll l).get? k := by
  induction l generalizing d e with
  | nil => exact h
  | cons x l ih => exact ih (by rw [get?_set, get?_set, h])

/-- Two lists of entries without a common key may be stored in either order. -/
theorem get?_setAll_comm {l l' : List (α × β)}
    (h : ∀ k ∈ l.map Prod.fst, k ∉ l'.map Prod.fst) (d : Dict α β) :
    ((d.setAll l).setAll l').get? = ((d.setAll l').setAll l).get? := by
  funext k
  by_cases hk : k ∈ l'.map Prod.fst
  · have hl : k ∉ l.map Prod.fst := fun hl => h k hl hk
    rw [get?_setAll_of_not_mem hl]
    exact get?_setAll_congr (get?_setAll_of_not_mem hl d) l'
  · rw [get?_setAll_of_not_mem hk]
    exact (get?_setAll_congr (get?_setAll_of_not_mem hk d) l).symm

theorem get?_update (d e : Dict α β) (k : α) : (d.update e).get? k = (e.get? k).or (d.get? k) :=
  get?_setAll e.nodup d k

theorem mem_keys_set {d : Dict α β} : k ∈ (d.set k' v).keys ↔ k = k' ∨ k ∈ d.keys := by
  rw [keys_set]
  split
  · rename_i h
    exact ⟨.inr, fun hk => hk.elim (fun he => he ▸ h) id⟩
  · rw [List.mem_append, List.mem_singleton, or_comm]

theorem mem_keys_update {d e : Dict α β} : k ∈ (d.update e).keys ↔ k ∈ e.keys ∨ k ∈ d.keys := by
  simp only [mem_keys, get?_update]
  rcases e.get? k with _ | v
  · simp
  · simp

theorem get?_ofList {l : List (α × β)} (hl : (l.map Prod.fst).Nodup) (k : α) :
    (ofList l).get? k = Entries.get? k l := by
  rw [ofList, get?_setAll hl]
  exact Option.or_none

@[simp] theorem update_empty (d : Dict α β) : d.update ∅ = d := rfl

theorem get?_filter (d : Dict α β) (p : α → β → Bool) (k : α) :
    (d.filter p).get? k = (d.get? k).filter (p k) := by
  apply Option.ext
  intro v
  rw [← mem_items, Option.filter_eq_some_iff, ← mem_items, filter, List.mem_filter]

/-- Entries that are filtered out do not show. -/
theorem filter_setAll {p : α → Bool} {l : List (α × β)} (hl : ∀ k ∈ l.map Prod.fst, p k = false)
    (d : Dict α β) : (d.setAll l).filter (fun k _ => p k) = d.filter fun k _ => p k := by
  induction l generalizing d with
  | nil => rfl
  | cons e l ih =>
    rw [List.map_cons, List.forall_mem_cons] at hl
    rw [setAll_cons, ih hl.2]
    exact Dict.ext (Entries.filter_set hl.1 d.items e.2)

theorem filter_eq_self {p : α → β → Bool} {d : Dict α β}
    (h : ∀ k v, d.get? k = some v → p k v) : d.filter p = d :=
  Dict.ext (List.filter_eq_self.mpr fun e he => h e.1 e.2 (mem_items.mp he))

/-- Dictionaries that agree as maps differ in the order of their entries alone. -/
theorem items_perm {d e : Dict α β} (h : d.get? = e.get?) : d.items.Perm e.items := by
  rw [List.perm_ext_iff_of_nodup d.nodup.of_map e.nodup.of_map]
  rintro ⟨k, v⟩
  rw [mem_items, mem_items, h]

/-- Dictionaries hold the same entries exactly when they agree as maps. -/
theorem toFinset_inj [DecidableEq β] {d e : Dict α β} :
    d.items.toFinset = e.items.toFinset ↔ d.get? = e.get? := by
  constructor <;> intro h
  · funext k
    apply Option.ext
    intro v
    rw [← mem_items, ← mem_items, ← List.mem_toFinset, ← List.mem_toFinset, h]
  · ext ⟨k, v⟩
    rw [List.mem_toFinset, List.mem_toFinset, mem_items, mem_items, h]

end Dict

end MarginKG
