import MarginKG.Theory.Program
import Mathlib.Logic.Function.Basic
import Mathlib.Data.List.Infix

/-! Writes that overwrite. A family of writes is *absorbing* when a write that is going to be
repeated need not be made now: whatever is written in between, the repetition hides the first
occurrence. Overwriting a field and adding to a set are of this kind, in any mixture.

For absorbing writes the effect of a sequence is fixed by the order of last occurrences. Two
consequences carry the arguments about repetition:

* `Resumed.writeAll_eq`: a sequence made with interruptions, after each of which it goes on from
  an earlier point, has the effect of the uninterrupted sequence;
* `Absorbing.lanes`: copies of one sequence, interleaved in any way, have the effect of one copy.

Most writes touch one location of a larger store; `Located` lifts the law from the contents of a
location to the store, and says that the contents of a location after a sequence depend only on
the writes to it (`Located.writeAll_apply`). A store may refuse a write because of what it finds
at the location; `Located.admits_iff_first` is for stores in which only the first write to a
location can be refused on account of the contents. -/

namespace MarginKG

variable {ω : Type} {X L ι : Type*}

/-- The state after a sequence of writes. -/
def writeAll (act : ω → X → X) (ws : List ω) (s : X) : X := ws.foldl (fun s w => act w s) s

@[simp] theorem writeAll_nil (act : ω → X → X) (s : X) : writeAll act [] s = s := rfl

@[simp] theorem writeAll_cons (act : ω → X → X) (w : ω) (ws : List ω) (s : X) :
    writeAll act (w :: ws) s = writeAll act ws (act w s) := rfl

theorem writeAll_append (act : ω → X → X) (ws ws' : List ω) (s : X) :
    writeAll act (ws ++ ws') s = writeAll act ws' (writeAll act ws s) := List.foldl_append ..

/-- A later repetition of a write hides it. -/
def Absorbing (act : ω → X → X) : Prop :=
  ∀ w ws s, act w (writeAll act ws (act w s)) = act w (writeAll act ws s)

namespace Absorbing

variable {act : ω → X → X}

/-- It is enough to give, for each write, a relation between the states it may confuse. -/
theorem of_rel (E : ω → X → X → Prop) (hself : ∀ w s, E w (act w s) s)
    (hstep : ∀ w v s s', E w s s' → E w (act v s) (act v s'))
    (heq : ∀ w s s', E w s s' → act w s = act w s') : Absorbing act := by
  intro w ws s
  have hall : ∀ ws s s', E w s s' → E w (writeAll act ws s) (writeAll act ws s') := by
    intro ws
    induction ws with
    | nil => exact fun _ _ h => h
    | cons v ws ih => exact fun s s' h => ih _ _ (hstep w v s s' h)
  exact heq w _ _ (hall ws _ _ (hself w s))

theorem of_mem (H : Absorbing act) (h : w ∈ ws) (s : X) :
    writeAll act ws (act w s) = writeAll act ws s := by
  obtain ⟨ws₁, ws₂, rfl⟩ := List.append_of_mem h
  rw [writeAll_append, writeAll_append, writeAll_cons, writeAll_cons, H w ws₁ s]

/-- Writes that are all repeated later leave no trace. -/
theorem of_prefix (H : Absorbing act) (h : ∀ w ∈ pre, w ∈ ws) (s : X) :
    writeAll act ws (writeAll act pre s) = writeAll act ws s := by
  induction pre generalizing s with
  | nil => rfl
  | cons w pre ih =>
    rw [writeAll_cons, ih (fun v hv => h v (List.mem_cons_of_mem _ hv)),
      H.of_mem (h w List.mem_cons_self)]

open Classical in
/-- Before its last occurrence a write can be left out. -/
theorem filter_ne (H : Absorbing act) (ws : List ω) (w : ω) (s : X) :
    act w (writeAll act (ws.filter (· ≠ w)) s) = act w (writeAll act ws s) := by
  induction ws generalizing s with
  | nil => rfl
  | cons v ws ih =>
    by_cases hv : v = w
    · subst hv
      rw [List.filter_cons_of_neg (by simp), ih, writeAll_cons, H]
    · rw [List.filter_cons_of_pos (by simpa using hv), writeAll_cons, writeAll_cons, ih]

/-- **Interleaved copies**: if each lane of an interleaving is either the sequence `v` or empty,
and one of them is `v`, the interleaving has the effect of `v`. The induction is on the length of
`v`: the interleaving ends with the last write of `v`, and all its earlier occurrences can be
left out. -/
theorem lanes (H : Absorbing act) {v : List ω} {l : List (Nat × ω)}
    (hl : ∀ i, Program.callsOf i l = v ∨ Program.callsOf i l = [])
    (hv : ∃ i, Program.callsOf i l = v) (s : X) :
    writeAll act (l.map Prod.snd) s = writeAll act v s := by
  classical
  induction hn : v.length using Nat.strongRecOn generalizing v l with
  | _ n ih =>
    rcases List.eq_nil_or_concat' l with rfl | ⟨l, ⟨j, w⟩, rfl⟩
    · obtain ⟨i, hi⟩ := hv
      rw [← hi]; rfl
    have hj : v = Program.callsOf j l ++ [w] := by
      rcases hl j with h | h <;> rw [Program.callsOf_concat, if_pos rfl] at h
      · exact h.symm
      · simp at h
    set p : ω → Bool := fun x => decide (x ≠ w) with hp
    set u := (Program.callsOf j l).filter p with hu
    have hlen : u.length < n := by
      have := List.length_filter_le p (Program.callsOf j l)
      rw [← hn, hj, List.length_append, List.length_singleton, hu]
      omega
    have hvp : v.filter p = u := by simp [hj, hp, hu]
    have hlanes : ∀ i, Program.callsOf i (l.filter fun e => p e.2) = u ∨
        Program.callsOf i (l.filter fun e => p e.2) = [] := by
      intro i
      rw [Program.callsOf_filter]
      by_cases h : j = i
      · subst h; exact .inl rfl
      · have hi := hl i
        rw [Program.callsOf_concat, if_neg h] at hi
        rcases hi with hi | hi <;> rw [hi]
        · exact .inl hvp
        · exact .inr rfl
    have hcopy := ih u.length hlen hlanes ⟨j, Program.callsOf_filter p j l⟩ rfl
    rw [List.map_append, writeAll_append, hj, writeAll_append]
    change act w _ = act w _
    rw [← H.filter_ne (l.map Prod.snd), ← H.filter_ne (Program.callsOf j l), ← hcopy,
      List.filter_map]
    rfl

end Absorbing

/-! ## Interrupted sequences -/

/-- The sequence `W` is being made with interruptions. The writes `U` have been made, in this
order, and `P` is left: the rest of `W` after the part that counts as done. Of the writes made
between two interruptions the last ones, `Q₂`, may not count; a restart counts none. -/
inductive Resumed (W : List ω) : List ω → List ω → Prop
  | start : Resumed W [] W
  | writes : Resumed W U (Q₁ ++ Q₂ ++ R) → Resumed W (U ++ (Q₁ ++ Q₂)) (Q₂ ++ R)
  | restart : Resumed W U P → Resumed W U W

namespace Resumed

variable {W U P : List ω}

/-- What counts as done has been made. -/
theorem done (h : Resumed W U P) : ∃ D, W = D ++ P ∧ ∀ w ∈ D, w ∈ U := by
  induction h with
  | start => exact ⟨[], rfl, by simp⟩
  | @writes U Q₁ Q₂ R _ ih =>
    obtain ⟨D, rfl, hD⟩ := ih
    refine ⟨D ++ Q₁, by simp, fun w hw => ?_⟩
    rcases List.mem_append.mp hw with hw | hw
    · exact List.mem_append_left _ (hD w hw)
    · exact List.mem_append_right _ (List.mem_append_left _ hw)
  | restart => exact ⟨[], rfl, by simp⟩

/-- Only writes of the sequence have been made. -/
theorem mem (h : Resumed W U P) (hw : w ∈ U) : w ∈ W := by
  induction h with
  | start => cases hw
  | @writes U Q₁ Q₂ R h ih =>
    rcases List.mem_append.mp hw with hw | hw
    · exact ih hw
    · obtain ⟨D, rfl, -⟩ := h.done
      exact List.mem_append_right _ (List.mem_append_left _ hw)
  | restart _ ih => exact ih hw

/-- Once nothing is left, every write of the sequence has been made. -/
theorem mem_of_nil (h : Resumed W U []) (hw : w ∈ W) : w ∈ U := by
  obtain ⟨D, rfl, hD⟩ := h.done
  exact hD w (by simpa using hw)

/-- The first write of a kind was, in the sequence too, the first one of its kind. -/
theorem find? (h : Resumed W U P) (p : ω → Bool) :
    U.find? p = none ∨ U.find? p = W.find? p := by
  induction h with
  | start => exact .inl rfl
  | @writes U Q₁ Q₂ R h ih =>
    rcases hU : U.find? p with _ | u <;> rw [List.find?_append, hU]
    · obtain ⟨D, rfl, hD⟩ := h.done
      have hnone : D.find? p = none :=
        List.find?_eq_none.mpr fun w hw => List.find?_eq_none.mp hU w (hD w hw)
      have hsplit : (D ++ (Q₁ ++ Q₂ ++ R)).find? p = ((Q₁ ++ Q₂).find? p).or (R.find? p) := by
        rw [List.find?_append, hnone, Option.none_or, List.find?_append]
      rw [hsplit, Option.none_or]
      rcases (Q₁ ++ Q₂).find? p with _ | w
      · exact .inl rfl
      · exact .inr rfl
    · right
      rw [hU] at ih
      exact ih.resolve_left nofun
  | restart _ ih => exact ih

/-- **Interrupted sequences**: what is left leads to the state that the uninterrupted sequence
leads to. -/
theorem writeAll_eq {act : ω → X → X} (H : Absorbing act) (h : Resumed W U P) (s : X) :
    writeAll act P (writeAll act U s) = writeAll act W s := by
  induction h with
  | start => rfl
  | @writes U Q₁ Q₂ R _ ih =>
    rw [← ih]
    calc writeAll act (Q₂ ++ R) (writeAll act (U ++ (Q₁ ++ Q₂)) s)
      _ = writeAll act (Q₂ ++ R) (writeAll act Q₂ (writeAll act Q₁ (writeAll act U s))) := by
        rw [writeAll_append act U, writeAll_append act Q₁]
      _ = writeAll act (Q₂ ++ R) (writeAll act Q₁ (writeAll act U s)) :=
        H.of_prefix (fun w hw => List.mem_append_left _ hw) _
      _ = writeAll act (Q₁ ++ Q₂ ++ R) (writeAll act U s) := by
        rw [List.append_assoc, writeAll_append act Q₁]
  | restart h _ => exact H.of_prefix (fun _ => h.mem) s

end Resumed

/-- Writes to the locations of a store: each changes the contents of one location. -/
structure Located (ω : Type) (L X : Type*) where
  loc : ω → L
  upd : ω → X → X

namespace Located

variable [DecidableEq L] (W : Located ω L X)

/-- The store after one write. -/
def act (w : ω) (A : L → X) : L → X := Function.update A (W.loc w) (W.upd w (A (W.loc w)))

theorem act_self (w : ω) (A : L → X) : W.act w A (W.loc w) = W.upd w (A (W.loc w)) := by
  simp [act]

theorem act_of_ne (A : L → X) (h : ℓ ≠ W.loc w) : W.act w A ℓ = A ℓ := by
  simp [act, h]

/-- The contents of a location depend only on the writes to it. -/
theorem writeAll_apply (ws : List ω) (A : L → X) (ℓ : L) :
    writeAll W.act ws A ℓ = writeAll W.act (ws.filter (W.loc · = ℓ)) A ℓ := by
  suffices ∀ A A' : L → X, A ℓ = A' ℓ →
      writeAll W.act ws A ℓ = writeAll W.act (ws.filter (W.loc · = ℓ)) A' ℓ from this A A rfl
  induction ws with
  | nil => exact fun _ _ h => h
  | cons w ws ih =>
    intro A A' h
    by_cases hw : W.loc w = ℓ
    · subst hw
      rw [List.filter_cons_of_pos (by simp), writeAll_cons, writeAll_cons]
      exact ih _ _ (by rw [act_self, act_self, h])
    · rw [List.filter_cons_of_neg (by simpa using hw), writeAll_cons]
      exact ih _ _ (by rw [act_of_ne _ _ (Ne.symm hw), h])

theorem writeAll_of_not_mem {ws : List ω} (h : ∀ w ∈ ws, W.loc w ≠ ℓ) (A : L → X) :
    writeAll W.act ws A ℓ = A ℓ := by
  rw [writeAll_apply, List.filter_eq_nil_iff.mpr (by simpa using h)]
  rfl

/-- Two sequences may change places at a location that is not written by both. -/
theorem writeAll_append_comm {ws ws' : List ω}
    (h : (∀ w ∈ ws, W.loc w ≠ ℓ) ∨ ∀ w ∈ ws', W.loc w ≠ ℓ) (A : L → X) :
    writeAll W.act (ws ++ ws') A ℓ = writeAll W.act (ws' ++ ws) A ℓ := by
  rw [W.writeAll_apply (ws ++ ws'), W.writeAll_apply (ws' ++ ws), List.filter_append,
    List.filter_append]
  have hnil {l : List ω} (hl : ∀ w ∈ l, W.loc w ≠ ℓ) : l.filter (W.loc · = ℓ) = [] :=
    List.filter_eq_nil_iff.mpr (by simpa using hl)
  rcases h with h | h <;> rw [hnil h, List.nil_append, List.append_nil]

/-- The contents of a location to which only one write is made, once or several times. -/
theorem writeAll_of_unique (H : Absorbing W.act) {ws : List ω} (hw : w ∈ ws)
    (hunique : ∀ v ∈ ws, W.loc v = W.loc w → v = w) (A : L → X) :
    writeAll W.act ws A (W.loc w) = W.upd w (A (W.loc w)) := by
  rw [writeAll_apply]
  have hall : ∀ v ∈ ws.filter (W.loc · = W.loc w), v = w := fun v hv =>
    hunique v (List.mem_of_mem_filter hv) (by simpa using List.of_mem_filter hv)
  have hmem : w ∈ ws.filter (W.loc · = W.loc w) := List.mem_filter.mpr ⟨hw, by simp⟩
  generalize ws.filter (W.loc · = W.loc w) = l at hall hmem
  induction l with
  | nil => cases hmem
  | cons v l ih =>
    obtain ⟨rfl, hall⟩ := List.forall_mem_cons.mp hall
    by_cases hl : v ∈ l
    · rw [writeAll_cons, H.of_mem hl]
      exact ih hall hl
    · rcases l with _ | ⟨u, l⟩
      · exact W.act_self v A
      · exact (hl (hall u List.mem_cons_self ▸ List.mem_cons_self)).elim

/-- Writes to one location absorb when, for each of them, a relation on contents is kept by the
writes to its location and confused by it. -/
theorem absorbing (K : ω → X → X → Prop) (hself : ∀ w x, K w (W.upd w x) x)
    (hstep : ∀ w v x x', W.loc v = W.loc w → K w x x' → K w (W.upd v x) (W.upd v x'))
    (heq : ∀ w x x', K w x x' → W.upd w x = W.upd w x') : Absorbing W.act := by
  refine Absorbing.of_rel
    (fun w A A' => (∀ ℓ, ℓ ≠ W.loc w → A ℓ = A' ℓ) ∧ K w (A (W.loc w)) (A' (W.loc w))) ?_ ?_ ?_
  · intro w A
    exact ⟨fun ℓ h => act_of_ne _ _ h, by rw [act_self]; exact hself w _⟩
  · intro w v A A' ⟨hne, hK⟩
    refine ⟨fun ℓ h => ?_, ?_⟩
    · by_cases hv : ℓ = W.loc v
      · subst hv; rw [act_self, act_self, hne _ h]
      · rw [act_of_ne _ _ hv, act_of_ne _ _ hv, hne ℓ h]
    · by_cases hv : W.loc w = W.loc v
      · rw [hv, act_self, act_self]
        rw [hv] at hK
        exact hstep w v _ _ hv.symm hK
      · rwa [act_of_ne _ _ hv, act_of_ne _ _ hv]
  · intro w A A' ⟨hne, hK⟩
    funext ℓ
    by_cases h : ℓ = W.loc w
    · subst h; rw [act_self, act_self, heq w _ _ hK]
    · rw [act_of_ne _ _ h, act_of_ne _ _ h, hne ℓ h]

/-- Each write is admitted by the contents that it finds at its location. -/
def Admits (ok : ω → X → Prop) : List ω → (L → X) → Prop
  | [], _ => True
  | w :: ws, A => ok w (A (W.loc w)) ∧ Admits ok ws (W.act w A)

theorem admits_append {ok : ω → X → Prop} {ws ws' : List ω} {A : L → X} :
    W.Admits ok (ws ++ ws') A ↔ W.Admits ok ws A ∧ W.Admits ok ws' (writeAll W.act ws A) := by
  induction ws generalizing A with
  | nil => simp [Admits]
  | cons w ws ih => simp [Admits, ih, and_assoc]

/-- When a write that was admitted leaves contents behind that admit all that is `sound`, only
the first write to each location depends on what was there before. -/
theorem admits_iff_first {ok : ω → X → Prop} {sound : ω → Prop} (hsound : ∀ w x, ok w x → sound w)
    (hafter : ∀ w v x, W.loc v = W.loc w → ok w x → sound v → ok v (W.upd w x)) {ws : List ω}
    {A : L → X} : W.Admits ok ws A ↔ (∀ w ∈ ws, sound w) ∧
      ∀ ℓ w, ws.find? (W.loc · = ℓ) = some w → ok w (A ℓ) := by
  induction ws generalizing A with
  | nil => simp [Admits]
  | cons w ws ih =>
    rw [Admits, ih]
    constructor
    · rintro ⟨hw, hws, hfirst⟩
      refine ⟨fun v hv => ?_, fun ℓ v hv => ?_⟩
      · rcases List.mem_cons.mp hv with rfl | hv
        · exact hsound _ _ hw
        · exact hws v hv
      · by_cases hℓ : W.loc w = ℓ
        · rw [List.find?_cons_of_pos (by simpa using hℓ)] at hv
          cases hv
          exact hℓ ▸ hw
        · rw [List.find?_cons_of_neg (by simpa using hℓ)] at hv
          rw [← W.act_of_ne A (Ne.symm hℓ)]
          exact hfirst ℓ v hv
    · rintro ⟨hws, hfirst⟩
      have hw : ok w (A (W.loc w)) := hfirst _ w (List.find?_cons_of_pos (by simp))
      refine ⟨hw, fun v hv => hws v (List.mem_cons_of_mem _ hv), fun ℓ v hv => ?_⟩
      by_cases hℓ : W.loc w = ℓ
      · subst hℓ
        have hloc : W.loc v = W.loc w := by simpa using List.find?_some hv
        rw [act_self]
        exact hafter w v _ hloc hw (hws v (List.mem_cons_of_mem _ (List.mem_of_find?_eq_some hv)))
      · rw [W.act_of_ne A (Ne.symm hℓ)]
        exact hfirst ℓ v ((List.find?_cons_of_neg (by simpa using hℓ)).trans hv)

/-- **Interleaved families**: sequences of which no two write to one location, interleaved in any
way and with any number of copies of each, have the effect of the sequences one after the
other. -/
theorem writeAll_family (H : Absorbing W.act) {f : ι → List ω} {family : List ι}
    (hdisj : family.Pairwise fun a b => ∀ v ∈ f a, ∀ w ∈ f b, W.loc v ≠ W.loc w)
    {l : List (Nat × ω)}
    (hl : ∀ i, (∃ a ∈ family, Program.callsOf i l = f a) ∨ Program.callsOf i l = [])
    (hall : ∀ a ∈ family, ∃ i, Program.callsOf i l = f a) (A : L → X) :
    writeAll W.act (l.map Prod.snd) A = writeAll W.act (family.flatMap f) A := by
  funext ℓ
  by_cases hℓ : ∃ a ∈ family, ∃ w ∈ f a, W.loc w = ℓ
  · obtain ⟨a, ha, w, hw, rfl⟩ := hℓ
    obtain ⟨l₁, l₂, rfl⟩ := List.append_of_mem ha
    obtain ⟨-, hafter, hbefore⟩ := List.pairwise_append.mp hdisj
    -- no other sequence of the family writes there
    have hother (b : ι) (hb : b ∈ l₁ ∨ b ∈ l₂) :
        (f b).filter (W.loc · = W.loc w) = [] := by
      refine List.filter_eq_nil_iff.mpr fun v hv => ?_
      simp only [decide_eq_true_eq]
      rcases hb with hb | hb
      · exact hbefore b hb a List.mem_cons_self v hv w hw
      · exact fun h => (List.pairwise_cons.mp hafter).1 b hb w hw v hv h.symm
    have hnil (bs : List ι) (hbs : ∀ b ∈ bs, b ∈ l₁ ∨ b ∈ l₂) :
        (bs.flatMap f).filter (W.loc · = W.loc w) = [] := by
      rw [List.filter_flatMap, List.flatMap_eq_nil_iff]
      exact fun b hb => hother b (hbs b hb)
    have hone : ((l₁ ++ a :: l₂).flatMap f).filter (W.loc · = W.loc w) =
        (f a).filter (W.loc · = W.loc w) := by
      rw [List.flatMap_append, List.flatMap_cons, List.filter_append, List.filter_append,
        hnil l₁ fun b => .inl, hnil l₂ fun b => .inr, List.nil_append, List.append_nil]
    have hlane (i : Nat) :
        Program.callsOf i (l.filter ((fun v => decide (W.loc v = W.loc w)) ∘ Prod.snd)) =
          (Program.callsOf i l).filter (W.loc · = W.loc w) :=
      Program.callsOf_filter (fun v => decide (W.loc v = W.loc w)) i l
    rw [writeAll_apply, W.writeAll_apply ((l₁ ++ a :: l₂).flatMap f), hone, List.filter_map]
    refine congrFun (H.lanes (fun i => ?_) ?_ A) (W.loc w)
    · rw [hlane]
      rcases hl i with ⟨b, hb, hi⟩ | hi <;> rw [hi]
      · rcases List.mem_append.mp hb with hb | hb
        · exact .inr (hother b (.inl hb))
        · rcases List.mem_cons.mp hb with rfl | hb
          · exact .inl rfl
          · exact .inr (hother b (.inr hb))
      · exact .inr rfl
    · obtain ⟨i, hi⟩ := hall a ha
      exact ⟨i, by rw [hlane, hi]⟩
  · push Not at hℓ
    rw [W.writeAll_of_not_mem, W.writeAll_of_not_mem]
    · intro v hv
      obtain ⟨b, hb, hv⟩ := List.mem_flatMap.mp hv
      exact hℓ b hb v hv
    · intro v hv
      obtain ⟨e, he, rfl⟩ := List.mem_map.mp hv
      have hmem := Program.mem_callsOf he
      rcases hl e.1 with ⟨b, hb, hi⟩ | hi <;> rw [hi] at hmem
      · exact hℓ b hb _ hmem
      · cases hmem

section sublists
variable {f : ι → List ω} {family : List ι} {t : Nat → List ι} {l : List (Nat × ω)}

/-- Sequences of which no two write to one location. -/
def Apart (f : ι → List ω) (family : List ι) : Prop :=
  family.Pairwise fun a b => ∀ v ∈ f a, ∀ w ∈ f b, W.loc v ≠ W.loc w

/-- A selection of the sequences writes to a location what one of them writes there, or nothing. -/
theorem filter_flatMap_sublist (hdisj : W.Apart f family) {u : List ι} (hu : u.Sublist family)
    (ℓ : L) : (u.flatMap f).filter (W.loc · = ℓ) = (family.flatMap f).filter (W.loc · = ℓ) ∨
      (u.flatMap f).filter (W.loc · = ℓ) = [] ∧
        ∀ a ∈ u, (f a).filter (W.loc · = ℓ) = [] := by
  induction hu with
  | slnil => exact .inl rfl
  | @cons u family a hu ih =>
    obtain ⟨ha, hdisj⟩ := List.pairwise_cons.mp hdisj
    rcases ih hdisj with heq | hnone
    · by_cases hℓ : ∃ w ∈ f a, W.loc w = ℓ
      · obtain ⟨w, hw, rfl⟩ := hℓ
        -- the location is that of a sequence which is not selected
        have hother : ∀ b ∈ u, (f b).filter (W.loc · = W.loc w) = [] := fun b hb =>
          List.filter_eq_nil_iff.mpr fun v hv => by
            simpa using (ha b (hu.subset hb) w hw v hv).symm
        refine .inr ⟨?_, hother⟩
        rw [List.filter_flatMap]
        exact List.flatMap_eq_nil_iff.mpr hother
      · have hnil : (f a).filter (W.loc · = ℓ) = [] :=
          List.filter_eq_nil_iff.mpr fun v hv => by simpa using fun h => hℓ ⟨v, hv, h⟩
        refine .inl ?_
        rw [heq, List.flatMap_cons, List.filter_append, hnil, List.nil_append]
    · exact .inr hnone
  | @cons_cons u family a hu ih =>
    obtain ⟨ha, hdisj⟩ := List.pairwise_cons.mp hdisj
    rw [List.flatMap_cons, List.flatMap_cons, List.filter_append, List.filter_append]
    rcases ih hdisj with heq | ⟨hnone, hall⟩
    · exact .inl (congrArg _ heq)
    · by_cases hℓ : ∃ w ∈ f a, W.loc w = ℓ
      · obtain ⟨w, hw, rfl⟩ := hℓ
        have hfamily : (family.flatMap f).filter (W.loc · = W.loc w) = [] := by
          refine List.filter_eq_nil_iff.mpr fun v hv => ?_
          obtain ⟨b, hb, hv⟩ := List.mem_flatMap.mp hv
          simpa using (ha b hb w hw v hv).symm
        exact .inl (by rw [hnone, hfamily])
      · have hnil : (f a).filter (W.loc · = ℓ) = [] :=
          List.filter_eq_nil_iff.mpr fun v hv => by simpa using fun h => hℓ ⟨v, hv, h⟩
        refine .inr ⟨by rw [hnil, hnone]; rfl, List.forall_mem_cons.mpr ⟨hnil, hall⟩⟩

/-- At each location, the lanes of an interleaving of selections hold what the family writes there,
or nothing. -/
theorem lanes_at (hdisj : W.Apart f family) (ht : ∀ i, (t i).Sublist family)
    (hl : ∀ i, Program.callsOf i l = (t i).flatMap f) (hall : ∀ a ∈ family, ∃ i, a ∈ t i) (ℓ : L) :
    (∀ i, Program.callsOf i (l.filter fun e => W.loc e.2 = ℓ) =
        (family.flatMap f).filter (W.loc · = ℓ) ∨
      Program.callsOf i (l.filter fun e => W.loc e.2 = ℓ) = []) ∧
    ((∃ i, Program.callsOf i (l.filter fun e => W.loc e.2 = ℓ) =
        (family.flatMap f).filter (W.loc · = ℓ)) ∨
      (family.flatMap f).filter (W.loc · = ℓ) = []) := by
  have hlane (i : Nat) : Program.callsOf i (l.filter fun e => W.loc e.2 = ℓ) =
      ((t i).flatMap f).filter (W.loc · = ℓ) := by
    rw [← hl]
    exact Program.callsOf_filter (fun v => decide (W.loc v = ℓ)) i l
  constructor
  · intro i
    rw [hlane]
    exact (W.filter_flatMap_sublist hdisj (ht i) ℓ).imp_right And.left
  · by_cases hℓ : ∃ a ∈ family, (f a).filter (W.loc · = ℓ) ≠ []
    · obtain ⟨a, ha, hne⟩ := hℓ
      obtain ⟨i, hi⟩ := hall a ha
      refine .inl ⟨i, ?_⟩
      rw [hlane]
      exact (W.filter_flatMap_sublist hdisj (ht i) ℓ).resolve_right fun h => hne (h.2 a hi)
    · refine .inr ?_
      rw [List.filter_flatMap]
      exact List.flatMap_eq_nil_iff.mpr fun a ha => by
        by_contra hne
        exact hℓ ⟨a, ha, hne⟩

/-- Lanes that are empty make an empty interleaving. -/
theorem eq_nil_of_lanes {l : List (Nat × ω)} (h : ∀ i, Program.callsOf i l = []) : l = [] := by
  cases l with
  | nil => rfl
  | cons e l =>
    have hmem := Program.mem_callsOf (e := e) (l := e :: l) List.mem_cons_self
    rw [h e.1] at hmem
    cases hmem

/-- An interleaving of copies begins as they do. -/
theorem head?_lanes {v : List ω} {l : List (Nat × ω)}
    (hl : ∀ i, Program.callsOf i l = v ∨ Program.callsOf i l = [])
    (hv : (∃ i, Program.callsOf i l = v) ∨ v = []) : (l.map Prod.snd).head? = v.head? := by
  cases l with
  | nil =>
    rcases hv with ⟨i, rfl⟩ | rfl <;> rfl
  | cons e l =>
    have hlane := hl e.1
    rw [Program.callsOf_cons, if_pos rfl] at hlane
    rcases hlane with h | h
    · rw [← h]
      rfl
    · cases h

theorem filter_map_snd (l : List (Nat × ω)) (ℓ : L) : (l.map Prod.snd).filter (W.loc · = ℓ) =
    (l.filter fun e => W.loc e.2 = ℓ).map Prod.snd := by
  rw [List.filter_map]
  rfl

/-- **Interleaved selections**: lanes each of which makes, one after the other, some sequences of a
family that write to different locations have the effect of the family, when no sequence is missed
by all of them. -/
theorem writeAll_sublists (H : Absorbing W.act) (hdisj : W.Apart f family)
    (ht : ∀ i, (t i).Sublist family) (hl : ∀ i, Program.callsOf i l = (t i).flatMap f)
    (hall : ∀ a ∈ family, ∃ i, a ∈ t i) (A : L → X) :
    writeAll W.act (l.map Prod.snd) A = writeAll W.act (family.flatMap f) A := by
  funext ℓ
  obtain ⟨hlanes, hsome⟩ := W.lanes_at hdisj ht hl hall ℓ
  rw [writeAll_apply, W.writeAll_apply (family.flatMap f), filter_map_snd]
  rcases hsome with hsome | hnil
  · rw [H.lanes hlanes hsome]
  · rw [hnil] at hlanes
    rw [hnil, eq_nil_of_lanes fun i => (hlanes i).elim id id]
    rfl

/-- The first write to a location is the same in an interleaving of selections as in the family. -/
theorem find?_sublists (hdisj : W.Apart f family) (ht : ∀ i, (t i).Sublist family)
    (hl : ∀ i, Program.callsOf i l = (t i).flatMap f) (hall : ∀ a ∈ family, ∃ i, a ∈ t i) (ℓ : L) :
    (l.map Prod.snd).find? (W.loc · = ℓ) = (family.flatMap f).find? (W.loc · = ℓ) := by
  obtain ⟨hlanes, hsome⟩ := W.lanes_at hdisj ht hl hall ℓ
  rw [← List.head?_filter, ← List.head?_filter, filter_map_snd]
  exact head?_lanes hlanes hsome

end sublists

end Located

end MarginKG
