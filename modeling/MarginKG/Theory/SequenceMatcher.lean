import MarginKG.Theory.Rounding
import Mathlib.Data.List.Infix

/-! The gestalt pattern matching of `difflib.SequenceMatcher`, without a junk predicate: the longest
block of elements that two sequences have in common is found, and the parts to the left and to the
right of it are matched in the same way (`matching`). How much of the two is matched is their
similarity (`ratio`).

The longest block is searched for by dynamic programming over the lengths of the blocks that end at
each pair of positions. `blocks_eq` says what these lengths are, and `longestBlock_spec` which block
the search returns: the first one of the longest.

In long sequences an element that occurs too often, a *popular* one, does not count for the search,
and only extends what is found. -/

namespace MarginKG

/-- A block of `size` elements, at `a` in the one sequence and at `b` in the other. -/
structure Match where
  a : ℕ
  b : ℕ
  size : ℕ
  deriving DecidableEq, Repr

namespace Match

variable {α : Type} {as bs c : List α} {m m' m'' : Match}

/-- The block is in both sequences, and these are its elements. -/
structure Of (m : Match) (as bs c : List α) : Prop where
  size : c.length = m.size
  left : ∃ l r, as = l ++ c ++ r ∧ l.length = m.a
  right : ∃ l r, bs = l ++ c ++ r ∧ l.length = m.b

/-- The parts of the sequences to the left and to the right of the block. -/
theorem Of.parts (h : m.Of as bs c) : ∃ l r l' r',
    (as.take m.a = l ∧ (as.drop m.a).take m.size = c ∧ as.drop (m.a + m.size) = r) ∧
    (bs.take m.b = l' ∧ bs.drop (m.b + m.size) = r') ∧ as = l ++ c ++ r ∧ bs = l' ++ c ++ r' := by
  obtain ⟨hsize, ⟨l, r, rfl, hl⟩, l', r', rfl, hl'⟩ := h
  have hlc : (l ++ c).length = m.a + m.size := by rw [List.length_append, hl, hsize]
  have hlc' : (l' ++ c).length = m.b + m.size := by rw [List.length_append, hl', hsize]
  refine ⟨l, r, l', r', ⟨?_, ?_, List.drop_left' hlc⟩, ⟨?_, List.drop_left' hlc'⟩, rfl, rfl⟩
  · rw [List.append_assoc, List.take_left' hl]
  · rw [List.append_assoc, List.drop_left' hl, List.take_left' hsize]
  · rw [List.append_assoc, List.take_left' hl']

/-- The block ends before the other one, in the order of the search. -/
def EndsBefore (m m' : Match) : Prop :=
  m.a + m.size < m'.a + m'.size ∨
    m.a + m.size = m'.a + m'.size ∧ m.b + m.size < m'.b + m'.size

theorem EndsBefore.trans (h : m.EndsBefore m') (h' : m'.EndsBefore m'') : m.EndsBefore m'' := by
  unfold EndsBefore at *
  omega

end Match

namespace SequenceMatcher

variable {α : Type} [DecidableEq α] (keep : α → Bool)

/-- How far two sequences agree from their first elements on, over elements that count. -/
def agree : List α → List α → ℕ
  | x :: xs, y :: ys => if x = y ∧ keep y then agree xs ys + 1 else 0
  | _, _ => 0

/-! ## The search -/

/-- The next `j2len`: the lengths of the blocks that end with `x` and each element of `b`, from
those that end with the element before `x`. The block that both could continue has length `diag`. -/
def nextRow (x : α) : ℕ → List ℕ → List α → List ℕ
  | diag, k :: row, y :: bs => (if x = y ∧ keep y then diag + 1 else 0) :: nextRow x k row bs
  | _, _, _ => []

/-- The blocks of one row; they end before `i`, and before `j`, `j + 1`, .. -/
def rowBlocks (i : ℕ) : ℕ → List ℕ → List Match
  | _, [] => []
  | j, k :: row => ⟨i - k, j - k, k⟩ :: rowBlocks i (j + 1) row

/-- All blocks, in the order in which the two loops come to them. -/
def blocks (bs : List α) : ℕ → List ℕ → List α → List Match
  | _, _, [] => []
  | i, row, x :: as => rowBlocks i 1 (nextRow keep x 0 row bs) ++
    blocks bs (i + 1) (nextRow keep x 0 row bs) as

/-- `if k > bestsize: ..`. -/
def longer (best m : Match) : Match := if best.size < m.size then m else best

/-- The longest block of elements that count. -/
def longestBlock (as bs : List α) : Match :=
  (blocks keep bs 1 (bs.map fun _ => 0) as).foldl longer ⟨0, 0, 0⟩

/-- The block, as far to the left as the sequences agree. -/
def extendLeft (as bs : List α) (m : Match) : Match :=
  let k := agree (fun _ => true) (as.take m.a).reverse (bs.take m.b).reverse
  ⟨m.a - k, m.b - k, m.size + k⟩

/-- The block, as far to the right as the sequences agree. -/
def extendRight (as bs : List α) (m : Match) : Match :=
  { m with
    size := m.size + agree (fun _ => true) (as.drop (m.a + m.size)) (bs.drop (m.b + m.size)) }

/-- `find_longest_match`. -/
def findLongestMatch (as bs : List α) : Match :=
  extendRight as bs (extendLeft as bs (longestBlock keep as bs))

/-- The elements of the matching blocks. Each block is shorter than what is left to be matched, so
that the length of either sequence is fuel enough (`matching_eq`). -/
def matchingFrom : ℕ → List α → List α → List α
  | 0, _, _ => []
  | n + 1, as, bs =>
    let m := findLongestMatch keep as bs
    -- the parts without an element on one side, which are not queued, have no block
    if m.size = 0 then [] else
      matchingFrom n (as.take m.a) (bs.take m.b) ++ (as.drop m.a).take m.size ++
        matchingFrom n (as.drop (m.a + m.size)) (bs.drop (m.b + m.size))

/-- The elements of `get_matching_blocks`. -/
def matching (as bs : List α) : List α := matchingFrom keep as.length as bs

/-- The elements that count: those that are not popular. -/
def unpopular (bs : List α) (y : α) : Bool := bs.length < 200 || bs.count y ≤ bs.length / 100 + 1

/-- `SequenceMatcher(None, a, b).ratio()`. -/
def ratio (as bs : List α) : ℚ :=
  let length := as.length + bs.length
  -- `2.0 * matches` is exact, so that there is one rounding, that of the quotient
  if length = 0 then 1 else
    roundBinary (2 * (matching (unpopular bs) as bs).length / length)

/-! ## What the sequences have in common -/

variable {keep} {as bs xs ys : List α}

@[simp] theorem agree_nil_left (ys : List α) : agree keep [] ys = 0 := rfl

@[simp] theorem agree_nil_right (xs : List α) : agree keep xs [] = 0 := by cases xs <;> rfl

/-- What agrees is a common prefix. -/
theorem agree_spec (keep : α → Bool) (xs ys : List α) : ∃ c xs' ys', xs = c ++ xs' ∧ ys = c ++ ys' ∧
    c.length = agree keep xs ys := by
  induction xs generalizing ys with
  | nil => exact ⟨[], [], ys, rfl, rfl, rfl⟩
  | cons x xs ih =>
    cases ys with
    | nil => exact ⟨[], x :: xs, [], rfl, rfl, rfl⟩
    | cons y ys =>
      rw [agree]
      split
      · rename_i heq
        obtain ⟨c, xs', ys', rfl, rfl, hlength⟩ := ih ys
        exact ⟨x :: c, xs', ys', rfl, heq.1 ▸ rfl, congrArg (· + 1) hlength⟩
      · exact ⟨[], x :: xs, y :: ys, rfl, rfl, rfl⟩

theorem agree_comm (keep : α → Bool) (xs ys : List α) : agree keep xs ys = agree keep ys xs := by
  induction xs generalizing ys with
  | nil => cases ys <;> rfl
  | cons x xs ih =>
    cases ys with
    | nil => rfl
    | cons y ys =>
      by_cases heq : x = y
      · rw [agree, agree, ih, heq]
      · rw [agree, agree, if_neg fun h => heq h.1, if_neg fun h => heq h.1.symm]

theorem agree_le_self (xs ys : List α) : agree keep xs ys ≤ agree keep xs xs := by
  induction xs generalizing ys with
  | nil => exact Nat.zero_le _
  | cons x xs ih =>
    cases ys with
    | nil => exact Nat.zero_le _
    | cons y ys =>
      rw [agree]
      split
      · rename_i heq
        rw [agree, if_pos ⟨rfl, heq.1 ▸ heq.2⟩]
        exact Nat.succ_le_succ (ih ys)
      · exact Nat.zero_le _

@[simp] theorem agree_self_of_all (xs : List α) : agree (fun _ => true) xs xs = xs.length := by
  induction xs with
  | nil => rfl
  | cons x xs ih => rw [agree, if_pos ⟨rfl, rfl⟩, ih, List.length_cons]

variable {c : List α} {m : Match}

theorem of_extendLeft (h : m.Of as bs c) : ∃ c', (extendLeft as bs m).Of as bs (c' ++ c) := by
  obtain ⟨hsize, ⟨l, r, rfl, hl⟩, l', r', rfl, hl'⟩ := h
  rw [extendLeft, List.append_assoc, List.append_assoc, List.take_left' hl, List.take_left' hl']
  obtain ⟨d, xs, ys, hxs, hys, hd⟩ := agree_spec (fun _ => true) l.reverse l'.reverse
  rw [← hd]
  have hxs : l = xs.reverse ++ d.reverse := by
    rw [← List.reverse_append, ← hxs, List.reverse_reverse]
  have hys : l' = ys.reverse ++ d.reverse := by
    rw [← List.reverse_append, ← hys, List.reverse_reverse]
  refine ⟨d.reverse, ?_, ⟨xs.reverse, r, by simp [hxs], ?_⟩, ⟨ys.reverse, r', by simp [hys], ?_⟩⟩
  · rw [List.length_append, List.length_reverse, hsize, Nat.add_comm]
  · rw [← hl, hxs, List.length_append, List.length_reverse, List.length_reverse,
      Nat.add_sub_cancel]
  · rw [← hl', hys, List.length_append, List.length_reverse, List.length_reverse,
      Nat.add_sub_cancel]

theorem of_extendRight (h : m.Of as bs c) : ∃ c', (extendRight as bs m).Of as bs (c ++ c') := by
  obtain ⟨hsize, ⟨l, r, rfl, hl⟩, l', r', rfl, hl'⟩ := h
  have hlc : (l ++ c).length = m.a + m.size := by rw [List.length_append, hl, hsize]
  have hlc' : (l' ++ c).length = m.b + m.size := by rw [List.length_append, hl', hsize]
  rw [extendRight, List.drop_left' hlc, List.drop_left' hlc']
  obtain ⟨d, xs, ys, rfl, rfl, hd⟩ := agree_spec (fun _ => true) r r'
  rw [← hd]
  refine ⟨d, ?_, ⟨l, xs, by simp, hl⟩, ⟨l', ys, by simp, hl'⟩⟩
  rw [List.length_append, hsize]

/-! ## The blocks that the search comes to -/

/-- The non-empty prefixes, the shortest first, each in reverse and on top of `r`. -/
def revPrefixes (r : List α) : List α → List (List α)
  | [] => []
  | x :: xs => (x :: r) :: revPrefixes (x :: r) xs

omit [DecidableEq α] in
theorem mem_revPrefixes {r xs : List α} :
    p ∈ revPrefixes r xs ↔ ∃ x l l', xs = l ++ x :: l' ∧ p = x :: l.reverse ++ r := by
  induction xs generalizing r with
  | nil => simp [revPrefixes]
  | cons y xs ih =>
    rw [revPrefixes, List.mem_cons, ih]
    constructor
    · rintro (rfl | ⟨x, l, l', rfl, rfl⟩)
      · exact ⟨y, [], xs, rfl, rfl⟩
      · exact ⟨x, y :: l, l', rfl, by simp⟩
    · rintro ⟨x, l, l', heq, rfl⟩
      cases l with
      | nil => cases heq; exact .inl rfl
      | cons z l => cases heq; exact .inr ⟨x, l, l', rfl, by simp⟩

omit [DecidableEq α] in
theorem length_of_mem_revPrefixes {r xs : List α} (h : p ∈ revPrefixes r xs) :
    r.length < p.length := by
  obtain ⟨x, l, l', -, rfl⟩ := mem_revPrefixes.mp h
  rw [List.length_append, List.length_cons]
  omega

omit [DecidableEq α] in
theorem pairwise_revPrefixes (r xs : List α) :
    (revPrefixes r xs).Pairwise (·.length < ·.length) := by
  induction xs generalizing r with
  | nil => exact .nil
  | cons x xs ih => exact .cons (fun p hp => length_of_mem_revPrefixes hp) (ih _)

variable (keep) in
/-- The longest block that ends where the two prefixes do. -/
def endBlock (ra rb : List α) : Match :=
  ⟨ra.length - agree keep ra rb, rb.length - agree keep ra rb, agree keep ra rb⟩

theorem nextRow_eq (keep : α → Bool) (x : α) (ra rb bs : List α) :
    nextRow keep x (agree keep ra rb) ((revPrefixes rb bs).map (agree keep ra)) bs =
      (revPrefixes rb bs).map (agree keep (x :: ra)) := by
  induction bs generalizing rb with
  | nil => rfl
  | cons y bs ih => rw [revPrefixes, List.map_cons, nextRow, ih, List.map_cons, agree]

theorem rowBlocks_eq (ra rb bs : List α) :
    rowBlocks ra.length (rb.length + 1) ((revPrefixes rb bs).map (agree keep ra)) =
      (revPrefixes rb bs).map (endBlock keep ra) := by
  induction bs generalizing rb with
  | nil => rfl
  | cons y bs ih =>
    rw [revPrefixes, List.map_cons, rowBlocks, ← List.length_cons (a := y), ih, List.map_cons,
      endBlock]

/-- The rows hold the lengths of the blocks that end at each pair of positions. -/
theorem blocks_eq (keep : α → Bool) (ra as bs : List α) :
    blocks keep bs (ra.length + 1) ((revPrefixes [] bs).map (agree keep ra)) as =
      (revPrefixes ra as).flatMap fun pa => (revPrefixes [] bs).map (endBlock keep pa) := by
  induction as generalizing ra with
  | nil => rfl
  | cons x as ih =>
    have hrow := nextRow_eq keep x ra [] bs
    rw [agree_nil_right] at hrow
    rw [blocks, hrow, ← List.length_cons (a := x), ih, revPrefixes, List.flatMap_cons,
      ← rowBlocks_eq, List.length_nil, Nat.zero_add]

theorem firstRow_eq (keep : α → Bool) (r bs : List α) :
    bs.map (fun _ => 0) = (revPrefixes r bs).map (agree keep []) := by
  induction bs generalizing r with
  | nil => rfl
  | cons y bs ih => rw [List.map_cons, revPrefixes, List.map_cons, ← ih, agree_nil_left]

/-- The search comes to the longest block that ends at each pair of positions, row by row. -/
theorem searched_eq (keep : α → Bool) (as bs : List α) :
    blocks keep bs 1 (bs.map fun _ => 0) as =
      (revPrefixes [] as).flatMap fun pa => (revPrefixes [] bs).map (endBlock keep pa) := by
  rw [firstRow_eq keep []]
  exact blocks_eq keep [] as bs

theorem mem_blocks : m ∈ blocks keep bs 1 (bs.map fun _ => 0) as ↔
    ∃ pa ∈ revPrefixes [] as, ∃ pb ∈ revPrefixes [] bs, endBlock keep pa pb = m := by
  rw [searched_eq, List.mem_flatMap]
  simp only [List.mem_map]

theorem endBlock_mem (keep : α → Bool) (hpa : pa ∈ revPrefixes [] as)
    (hpb : pb ∈ revPrefixes [] bs) :
    endBlock keep pa pb ∈ blocks keep bs 1 (bs.map fun _ => 0) as :=
  mem_blocks.mpr ⟨pa, hpa, pb, hpb, rfl⟩

theorem agree_le_left (xs ys : List α) : agree keep xs ys ≤ xs.length := by
  obtain ⟨c, xs', ys', rfl, -, hlength⟩ := agree_spec keep xs ys
  rw [← hlength, List.length_append]
  exact Nat.le_add_right ..

theorem agree_le_right (xs ys : List α) : agree keep xs ys ≤ ys.length :=
  agree_comm keep xs ys ▸ agree_le_left ys xs

theorem endBlock_a (pa pb : List α) :
    (endBlock keep pa pb).a + (endBlock keep pa pb).size = pa.length :=
  Nat.sub_add_cancel (agree_le_left pa pb)

theorem endBlock_b (pa pb : List α) :
    (endBlock keep pa pb).b + (endBlock keep pa pb).size = pb.length :=
  Nat.sub_add_cancel (agree_le_right pa pb)

omit [DecidableEq α] in
theorem append_of_mem_revPrefixes {xs : List α} (h : p ∈ revPrefixes [] xs) :
    ∃ l, xs = p.reverse ++ l := by
  obtain ⟨x, l, l', rfl, rfl⟩ := mem_revPrefixes.mp h
  exact ⟨l', by simp⟩

theorem of_mem_blocks (h : m ∈ blocks keep bs 1 (bs.map fun _ => 0) as) : ∃ c, m.Of as bs c := by
  obtain ⟨pa, hpa, pb, hpb, rfl⟩ := mem_blocks.mp h
  obtain ⟨l, rfl⟩ := append_of_mem_revPrefixes hpa
  obtain ⟨l', rfl⟩ := append_of_mem_revPrefixes hpb
  obtain ⟨c, xs, ys, rfl, rfl, hlength⟩ := agree_spec keep pa pb
  refine ⟨c.reverse, (List.length_reverse ..).trans hlength, ⟨xs.reverse, l, ?_, ?_⟩,
    ys.reverse, l', ?_, ?_⟩
  · rw [List.reverse_append]
  · simp only [endBlock, ← hlength, List.length_append, Nat.add_sub_cancel_left,
      List.length_reverse]
  · rw [List.reverse_append]
  · simp only [endBlock, ← hlength, List.length_append, Nat.add_sub_cancel_left,
      List.length_reverse]

theorem pairwise_blocks (keep : α → Bool) (as bs : List α) :
    (⟨0, 0, 0⟩ :: blocks keep bs 1 (bs.map fun _ => 0) as).Pairwise Match.EndsBefore := by
  refine .cons (fun m hm => ?_) ?_
  · obtain ⟨pa, hpa, pb, -, rfl⟩ := mem_blocks.mp hm
    exact .inl ((length_of_mem_revPrefixes hpa).trans_eq (endBlock_a pa pb).symm)
  · rw [searched_eq, List.pairwise_flatMap]
    refine ⟨fun pa _ => ?_, (pairwise_revPrefixes [] as).imp fun {pa pa'} hlt => ?_⟩
    · refine List.pairwise_map.mpr ((pairwise_revPrefixes [] bs).imp fun {pb pb'} hlt => ?_)
      refine .inr ⟨?_, ?_⟩
      · rw [endBlock_a, endBlock_a]
      · rwa [endBlock_b, endBlock_b]
    · intro m hm m' hm'
      obtain ⟨pb, -, rfl⟩ := List.mem_map.mp hm
      obtain ⟨pb', -, rfl⟩ := List.mem_map.mp hm'
      refine .inl ?_
      rwa [endBlock_a, endBlock_a]

/-- The block is found in preference to the other one. -/
def Beats (m m' : Match) : Prop :=
  m'.size < m.size ∨ m'.size = m.size ∧ (m' = m ∨ m.EndsBefore m')

/-- Among blocks in the order of the search, the first one of the longest is kept. -/
theorem foldl_longer_spec {best : Match} {ms : List Match}
    (h : (best :: ms).Pairwise Match.EndsBefore) :
    ms.foldl longer best ∈ best :: ms ∧ ∀ m ∈ best :: ms, Beats (ms.foldl longer best) m := by
  induction ms generalizing best with
  | nil =>
    refine ⟨List.mem_singleton_self best, fun m hm => ?_⟩
    cases List.mem_singleton.mp hm
    exact .inr ⟨rfl, .inl rfl⟩
  | cons x ms ih =>
    obtain ⟨hbest, hrest⟩ := List.pairwise_cons.mp h
    rw [List.foldl_cons, longer]
    split
    · rename_i hlt
      obtain ⟨hmem, hall⟩ := ih hrest
      refine ⟨List.mem_cons_of_mem _ hmem, fun m hm => ?_⟩
      rcases List.mem_cons.mp hm with rfl | hm
      · -- the block is shorter than the one that takes its place
        rcases hall x List.mem_cons_self with hsize | ⟨hsize, -⟩
        · exact .inl (hlt.trans hsize)
        · exact .inl (hsize ▸ hlt)
      · exact hall m hm
    · rename_i hle
      obtain ⟨hmem, hall⟩ := ih (List.pairwise_cons.mpr
        ⟨fun m hm => hbest m (List.mem_cons_of_mem _ hm), (List.pairwise_cons.mp hrest).2⟩)
      refine ⟨?_, fun m hm => ?_⟩
      · rcases List.mem_cons.mp hmem with heq | hmem
        · rw [heq]
          exact List.mem_cons_self
        · exact List.mem_cons_of_mem _ (List.mem_cons_of_mem _ hmem)
      rcases List.mem_cons.mp hm with rfl | hm
      · exact hall _ List.mem_cons_self
      rcases List.mem_cons.mp hm with rfl | hm
      · -- the block is no longer than the one that is kept, and comes later
        have hbefore := hbest m List.mem_cons_self
        rcases hall best List.mem_cons_self with hsize | ⟨hsize, hfirst⟩
        · exact .inl ((Nat.le_of_not_lt hle).trans_lt hsize)
        have hends : (ms.foldl longer best).EndsBefore m := by
          rcases hfirst with heq | hends
          · exact heq ▸ hbefore
          · exact hends.trans hbefore
        rcases (Nat.le_of_not_lt hle).lt_or_eq with hlt | heq
        · exact .inl (hlt.trans_eq hsize)
        · exact .inr ⟨heq.trans hsize, .inr hends⟩
      · exact hall m (List.mem_cons_of_mem _ hm)

/-- The search finds the first one of the longest blocks, or none. -/
theorem longestBlock_spec (keep : α → Bool) (as bs : List α) :
    (longestBlock keep as bs = ⟨0, 0, 0⟩ ∨
      longestBlock keep as bs ∈ blocks keep bs 1 (bs.map fun _ => 0) as) ∧
    ∀ m ∈ blocks keep bs 1 (bs.map fun _ => 0) as, Beats (longestBlock keep as bs) m := by
  obtain ⟨hmem, hall⟩ := foldl_longer_spec (pairwise_blocks keep as bs)
  exact ⟨List.mem_cons.mp hmem, fun m hm => hall m (List.mem_cons_of_mem _ hm)⟩

theorem of_longestBlock (keep : α → Bool) (as bs : List α) :
    ∃ c, (longestBlock keep as bs).Of as bs c := by
  rcases (longestBlock_spec keep as bs).1 with heq | hmem
  · rw [heq]
    exact ⟨[], rfl, ⟨[], as, rfl, rfl⟩, [], bs, rfl, rfl⟩
  · exact of_mem_blocks hmem

/-- `find_longest_match` returns a block of both sequences. -/
theorem of_findLongestMatch (keep : α → Bool) (as bs : List α) :
    ∃ c, (findLongestMatch keep as bs).Of as bs c := by
  obtain ⟨c, hc⟩ := of_longestBlock keep as bs
  obtain ⟨c', hc'⟩ := of_extendLeft hc
  obtain ⟨c'', hc''⟩ := of_extendRight hc'
  exact ⟨_, hc''⟩

theorem longestBlock_le (keep : α → Bool) (as bs : List α) :
    (longestBlock keep as bs).size ≤ (findLongestMatch keep as bs).size :=
  (Nat.le_add_right ..).trans (Nat.le_add_right ..)

/-- A common element that counts is enough for a match. -/
theorem findLongestMatch_pos (ha : x ∈ as) (hb : x ∈ bs) (hx : keep x) :
    0 < (findLongestMatch keep as bs).size := by
  obtain ⟨l, l', rfl⟩ := List.append_of_mem ha
  obtain ⟨r, r', rfl⟩ := List.append_of_mem hb
  have hmem := endBlock_mem keep (mem_revPrefixes.mpr ⟨x, l, l', rfl, rfl⟩)
    (mem_revPrefixes.mpr ⟨x, r, r', rfl, rfl⟩)
  have hsize : 0 < (endBlock keep (x :: l.reverse ++ []) (x :: r.reverse ++ [])).size := by
    rw [endBlock, List.cons_append, List.cons_append, agree, if_pos ⟨rfl, hx⟩]
    exact Nat.succ_pos _
  have hbeats := (longestBlock_spec keep _ _).2 _ hmem
  refine hsize.trans_le (le_trans ?_ (longestBlock_le ..))
  rcases hbeats with hlt | ⟨heq, -⟩
  · exact hlt.le
  · exact heq.le

/-- In a sequence and itself, the first one of the longest blocks is at the same place in both. -/
theorem longestBlock_self (keep : α → Bool) (as : List α) :
    (longestBlock keep as as).a = (longestBlock keep as as).b := by
  obtain ⟨heq | hmem, hbeats⟩ := longestBlock_spec keep as as
  · rw [heq]
  generalize hm : longestBlock keep as as = m at hmem hbeats ⊢
  obtain ⟨pa, hpa, pb, hpb, rfl⟩ := mem_blocks.mp hmem
  -- a block on the diagonal that comes before is not as long
  have hdiag {p : List α} (hp : p ∈ revPrefixes [] as) (hle : agree keep pa pb ≤ agree keep p p)
      (hbefore : p.length < pa.length ∨ p.length = pa.length ∧ p.length < pb.length) :
      (endBlock keep pa pb).a = (endBlock keep pa pb).b := by
    rcases hbeats _ (endBlock_mem keep hp hp) with hsize | ⟨-, heq | hends⟩
    · exact absurd hsize hle.not_gt
    · rw [← heq]
      rfl
    · rw [Match.EndsBefore, endBlock_a, endBlock_a, endBlock_b, endBlock_b] at hends
      omega
  rcases lt_trichotomy pa.length pb.length with hlt | heq | hlt
  · exact hdiag hpa (agree_le_self pa pb) (.inr ⟨rfl, hlt⟩)
  · rw [endBlock, heq]
  · exact hdiag hpb (agree_comm keep pa pb ▸ agree_le_self pb pa) (.inl hlt)

/-- A sequence and itself match as a whole. -/
theorem findLongestMatch_self (keep : α → Bool) (as : List α) :
    findLongestMatch keep as as = ⟨0, 0, as.length⟩ := by
  obtain ⟨c, hsize, ⟨l, r, has, hl⟩, -⟩ := of_longestBlock keep as as
  have hdiag := longestBlock_self keep as
  rw [findLongestMatch]
  generalize longestBlock keep as as = m at *
  have hlength : as.length = m.a + m.size + r.length := by
    rw [has, List.length_append, List.length_append, hl, hsize]
  rw [extendLeft, ← hdiag, agree_self_of_all, List.length_reverse, List.length_take, extendRight]
  simp only [agree_self_of_all, List.length_drop, Match.mk.injEq]
  omega

/-! ## What is matched -/

/-- Either there is no block, or the longest one lies between what is matched next. -/
theorem matchingFrom_cases (keep : α → Bool) (as bs : List α) :
    ((findLongestMatch keep as bs).size = 0 ∧ ∀ n, matchingFrom keep n as bs = []) ∨
    ∃ l c r l' r', 0 < c.length ∧ as = l ++ c ++ r ∧ bs = l' ++ c ++ r' ∧
      ∀ n, matchingFrom keep (n + 1) as bs =
        matchingFrom keep n l l' ++ c ++ matchingFrom keep n r r' := by
  by_cases hzero : (findLongestMatch keep as bs).size = 0
  · refine .inl ⟨hzero, fun n => ?_⟩
    cases n with
    | zero => rfl
    | succ n => rw [matchingFrom, if_pos hzero]
  · obtain ⟨c, hc⟩ := of_findLongestMatch keep as bs
    obtain ⟨l, r, l', r', ⟨hl, hblock, hr⟩, ⟨hl', hr'⟩, has, hbs⟩ := hc.parts
    refine .inr ⟨l, c, r, l', r', ?_, has, hbs, fun n => ?_⟩
    · rw [hc.size]
      exact Nat.pos_of_ne_zero hzero
    · rw [matchingFrom, if_neg hzero, hl, hblock, hr, hl', hr']

/-- With fuel for one of the sequences, more fuel changes nothing. -/
theorem matchingFrom_eq (hn : as.length ≤ n) (hn' : as.length ≤ n') :
    matchingFrom keep n as bs = matchingFrom keep n' as bs := by
  induction n generalizing n' as bs with
  | zero =>
    cases List.length_eq_zero_iff.mp (Nat.le_zero.mp hn)
    rcases matchingFrom_cases keep [] bs with ⟨-, hnil⟩ | ⟨l, c, r, l', r', hc, has, -⟩
    · rw [hnil, hnil]
    · have hlength := congrArg List.length has
      simp only [List.length_append, List.length_nil] at hlength
      omega
  | succ n ih =>
    rcases matchingFrom_cases keep as bs with ⟨-, hnil⟩ | ⟨l, c, r, l', r', hc, rfl, rfl, hsucc⟩
    · rw [hnil, hnil]
    simp only [List.length_append] at hn hn'
    obtain ⟨k, rfl⟩ : ∃ k, n' = k + 1 := ⟨n' - 1, by omega⟩
    rw [hsucc, hsucc, ih (by omega) (show l.length ≤ k by omega),
      ih (by omega) (show r.length ≤ k by omega)]

/-- What is matched, without fuel: the block that `find_longest_match` returns, between what is
matched to the left and to the right of it. -/
theorem matching_eq (keep : α → Bool) (as bs : List α) :
    matching keep as bs =
      let m := findLongestMatch keep as bs
      if m.size = 0 then [] else
        matching keep (as.take m.a) (bs.take m.b) ++ (as.drop m.a).take m.size ++
          matching keep (as.drop (m.a + m.size)) (bs.drop (m.b + m.size)) := by
  obtain ⟨c, hsize, ⟨l, r, has, hl⟩, -⟩ := of_findLongestMatch keep as bs
  have hlength := congrArg List.length has
  simp only [List.length_append, hl, hsize] at hlength
  rw [matching, matchingFrom_eq le_rfl (Nat.le_succ _), matchingFrom]
  split
  · rw [if_pos ‹_›]
  · rename_i hzero
    simp only [if_neg hzero, matching]
    congr 1
    · congr 1
      exact matchingFrom_eq (by rw [List.length_take]; omega) le_rfl
    · exact matchingFrom_eq (by rw [List.length_drop]; omega) le_rfl

/-- What is matched is a common subsequence. -/
theorem matchingFrom_sublist (n : ℕ) (as bs : List α) :
    (matchingFrom keep n as bs).Sublist as ∧ (matchingFrom keep n as bs).Sublist bs := by
  induction n generalizing as bs with
  | zero => exact ⟨List.nil_sublist _, List.nil_sublist _⟩
  | succ n ih =>
    rcases matchingFrom_cases keep as bs with ⟨-, hnil⟩ | ⟨l, c, r, l', r', -, rfl, rfl, hsucc⟩
    · rw [hnil]
      exact ⟨List.nil_sublist _, List.nil_sublist _⟩
    · rw [hsucc]
      exact ⟨((ih l l').1.append (.refl c)).append (ih r r').1,
        ((ih l l').2.append (.refl c)).append (ih r r').2⟩

theorem matching_sublist (keep : α → Bool) (as bs : List α) :
    (matching keep as bs).Sublist as ∧ (matching keep as bs).Sublist bs :=
  matchingFrom_sublist _ as bs

theorem matching_self (keep : α → Bool) (as : List α) : matching keep as as = as := by
  rw [matching_eq, findLongestMatch_self]
  dsimp only
  split
  · exact (List.length_eq_zero_iff.mp ‹_›).symm
  · simp [matching, matchingFrom]

/-- A common element that counts is enough for something to be matched. -/
theorem matching_ne_nil (ha : x ∈ as) (hb : x ∈ bs) (hx : keep x) : matching keep as bs ≠ [] := by
  have hpos := findLongestMatch_pos ha hb hx
  obtain ⟨c, hc⟩ := of_findLongestMatch keep as bs
  obtain ⟨-, -, -, -, ⟨-, hblock, -⟩, -⟩ := hc.parts
  rw [matching_eq, if_neg hpos.ne', hblock]
  intro hnil
  have hc_nil := (List.append_eq_nil_iff.mp (List.append_eq_nil_iff.mp hnil).1).2
  rw [← hc.size, hc_nil] at hpos
  exact absurd hpos (lt_irrefl 0)

example : matching (fun _ => true) "lenght".toList "length".toList = "lengh".toList := by
  decide +kernel

/-! ## The similarity -/

/-- The similarity is that of a common subsequence, and before it is rounded it lies in between. -/
theorem ratio_eq (as bs : List α) (h : as.length + bs.length ≠ 0) :
    let x : ℚ := 2 * (matching (unpopular bs) as bs).length / ((as.length + bs.length : ℕ) : ℚ)
    ratio as bs = roundBinary x ∧ 0 ≤ x ∧ x ≤ 1 := by
  intro x
  obtain ⟨hleft, hright⟩ := matching_sublist (unpopular bs) as bs
  have hpos : (0 : ℚ) < (as.length + bs.length : ℕ) := Nat.cast_pos.mpr (Nat.pos_of_ne_zero h)
  refine ⟨if_neg h, div_nonneg (mul_nonneg two_pos.le (Nat.cast_nonneg _)) hpos.le, ?_⟩
  rw [div_le_one hpos, ← Nat.cast_ofNat, ← Nat.cast_mul, Nat.cast_le]
  have hleft := hleft.length_le
  have hright := hright.length_le
  omega

theorem ratio_nonneg (as bs : List α) : 0 ≤ ratio as bs := by
  by_cases h : as.length + bs.length = 0
  · rw [ratio, if_pos h]
    exact zero_le_one
  · obtain ⟨heq, hx, -⟩ := ratio_eq as bs h
    rw [heq]
    exact roundBinary_nonneg hx

theorem ratio_le_one (as bs : List α) : ratio as bs ≤ 1 := by
  by_cases h : as.length + bs.length = 0
  · rw [ratio, if_pos h]
  · obtain ⟨heq, -, hx⟩ := ratio_eq as bs h
    rw [heq, ← roundBinary_one]
    exact roundBinary_mono hx

/-- A sequence is like itself. -/
@[simp] theorem ratio_self (as : List α) : ratio as as = 1 := by
  rw [ratio]
  split
  · rfl
  · rename_i h
    rw [matching_self, Nat.cast_add, ← two_mul, div_self, roundBinary_one]
    rw [ne_eq, mul_eq_zero, not_or, Nat.cast_eq_zero]
    exact ⟨two_ne_zero, fun hzero => h (by omega)⟩

/-- Sequences are alike when they have an element in common that counts. -/
theorem ratio_pos (ha : x ∈ as) (hb : x ∈ bs) (hx : unpopular bs x) : 0 < ratio as bs := by
  have hlength : as.length + bs.length ≠ 0 := by
    have hpos := List.length_pos_of_mem ha
    omega
  obtain ⟨heq, -, -⟩ := ratio_eq as bs hlength
  rw [heq]
  have hmatching := List.length_pos_iff.mpr (matching_ne_nil ha hb hx)
  apply roundBinary_pos
  apply div_pos (mul_pos two_pos (Nat.cast_pos.mpr hmatching))
  exact Nat.cast_pos.mpr (Nat.pos_of_ne_zero hlength)

end SequenceMatcher

end MarginKG
