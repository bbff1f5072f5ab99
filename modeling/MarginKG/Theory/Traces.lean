import MarginKG.Theory.Program

/-! What the text of a program says about the calls on its paths.

`Program.Tells T` relates the calls that a program makes to the value that it returns, whatever
the replies were. `Program.Follows S Q p q` says that `q` can do whatever `p` does: both make the
same calls, apart from silent ones (`S`), and end in values that `Q` relates, until `p` raises.
Over a handler whose silent calls change nothing that others can see, an execution of `p` up to
any point is then one of `q` (`Program.Follows.steps`). -/

namespace MarginKG

namespace Program

variable {C : Type} {R : C → Type} {ε α β γ δ σ : Type}

/-! ## Values that tell of calls -/

/-- Whenever the program returns, `T` holds of the calls that it made and of its value. -/
def Tells (T : List C → α → Prop) : Program C R ε α → Prop
  | .ret a => T [] a
  | .throw _ => True
  | .call c k => ∀ r, (k r).Tells fun l a => T (c :: l) a

namespace Tells

variable {T : List C → α → Prop} {p : Program C R ε α}

theorem mono {T' : List C → α → Prop} (hp : p.Tells T) (h : ∀ l a, T l a → T' l a) :
    p.Tells T' := by
  induction p generalizing T T' with
  | ret a => exact h [] a hp
  | throw e => trivial
  | call c k ih => exact fun r => ih r (hp r) fun l a => h (c :: l) a

theorem bind {f : α → Program C R ε β} {U : List C → β → Prop} (hp : p.Tells T)
    (hf : ∀ l a, T l a → (f a).Tells fun l' b => U (l ++ l') b) : (p >>= f).Tells U := by
  induction p generalizing T U with
  | ret a => exact hf [] a hp
  | throw e => trivial
  | call c k ih => exact fun r => ih r (hp r) fun l a ha => hf (c :: l) a ha

theorem ofExcept {x : Except ε α} (h : ∀ a, x = .ok a → T [] a) :
    (ofExcept x : Program C R ε α).Tells T := by
  cases x with
  | error e => trivial
  | ok a => exact h a rfl

/-- A loop that makes, for each item, the calls of a list. -/
theorem forM {l : List β} {f : β → Program C R ε PUnit} {g : β → List C}
    (h : ∀ b ∈ l, (f b).Tells fun calls _ => calls = g b) :
    (l.forM f).Tells fun calls _ => calls = l.flatMap g := by
  induction l with
  | nil => rfl
  | cons b l ih =>
    refine (h b List.mem_cons_self).bind fun calls _ hcalls => ?_
    refine (ih fun b hb => h b (List.mem_cons_of_mem _ hb)).mono fun calls' _ hcalls' => ?_
    rw [hcalls, hcalls', List.flatMap_cons]

/-- What each turn of a traversal adds to the calls and to the values. -/
theorem mapM {l : List β} {f : β → Program C R ε γ} {J : List β → List C → List γ → Prop}
    (hnil : J [] [] [])
    (hcons : ∀ b ∈ l, (f b).Tells fun calls c => ∀ l' calls' cs, J l' calls' cs →
      J (b :: l') (calls ++ calls') (c :: cs)) : (l.mapM f).Tells (J l) := by
  induction l with
  | nil => exact hnil
  | cons b l ih =>
    rw [List.mapM_cons]
    refine (hcons b List.mem_cons_self).bind fun calls c hc => ?_
    refine (ih fun b hb => hcons b (List.mem_cons_of_mem _ hb)).bind fun calls' cs hcs => ?_
    change J (b :: l) (calls ++ (calls' ++ [])) (c :: cs)
    rw [List.append_nil]
    exact hc l calls' cs hcs

/-- What each turn of a loop keeps of the calls so far and of the value so far. -/
theorem foldlM {l : List β} {f : γ → β → Program C R ε γ} {J : List C → γ → Prop}
    (h : ∀ b ∈ l, ∀ calls c, J calls c → (f c b).Tells fun calls' c' => J (calls ++ calls') c')
    {calls : List C} {c : γ} (hc : J calls c) :
    (l.foldlM f c).Tells fun calls' c' => J (calls ++ calls') c' := by
  induction l generalizing calls c with
  | nil =>
    change J (calls ++ []) c
    rwa [List.append_nil]
  | cons b l ih =>
    rw [List.foldlM_cons]
    refine (h b List.mem_cons_self calls c hc).bind fun calls' c' hc' => ?_
    refine (ih (fun b hb => h b (List.mem_cons_of_mem _ hb)) hc').mono fun l' a ha => ?_
    rwa [← List.append_assoc]

theorem lift {C' : Type} {R' : C' → Type} {f : C → C'} {reply : (c : C) → R' (f c) → R c}
    {T' : List C' → α → Prop} (hp : p.Tells T) (h : ∀ l a, T l a → T' (l.map f) a) :
    (p.lift f reply).Tells T' := by
  induction p generalizing T T' with
  | ret a => exact h [] a hp
  | throw e => trivial
  | call c k ih => exact fun r => ih _ (hp _) fun l a => h (c :: l) a

end Tells

theorem Steps.tells {T : List C → α → Prop} {h : Handler C R ε σ} {p : Program C R ε α}
    (H : Steps h p s l (.ret a) s') (hp : p.Tells T) : T l a := by
  generalize hq : (Program.ret a : Program C R ε α) = q at H
  induction H generalizing T with
  | refl =>
    subst hq
    exact hp
  | call _ _ ih => exact ih (hp _) hq

theorem Steps.trans {h : Handler C R ε σ} {p q q' : Program C R ε α} (H : Steps h p s l q s')
    (H' : Steps h q s' l' q' s'') : Steps h p s (l ++ l') q' s'' := by
  induction H with
  | refl => exact H'
  | call hc _ ih => exact .call hc (ih H')

/-! ## Programs up to silent calls -/

/-- `q` does what `p` does, apart from the silent calls of either, until `p` raises. -/
inductive Follows (S : C → Prop) (Q : α → β → Prop) : Program C R ε α → Program C R ε β → Prop
  | ret : Q a b → Follows S Q (.ret a) (.ret b)
  | throw : Follows S Q (.throw e) q
  | call {c : C} {k : R c → Program C R ε α} {k' : R c → Program C R ε β} :
    (∀ r, Follows S Q (k r) (k' r)) → Follows S Q (.call c k) (.call c k')
  | left {c : C} {k : R c → Program C R ε α} : S c → (∀ r, Follows S Q (k r) q) →
    Follows S Q (.call c k) q
  | right {c : C} {k : R c → Program C R ε β} : S c → (∀ r, Follows S Q p (k r)) →
    Follows S Q p (.call c k)

/-- Each call does the same in states that `E` relates, and a silent call changes nothing up to
`E`. -/
structure Hides (h : Handler C R ε σ) (S : C → Prop) (E : σ → σ → Prop) : Prop where
  call : E s t → h c s = (.ok r, s') → ∃ t', h c t = (.ok r, t') ∧ E s' t'
  silent : S c → ∃ r s', h c s = (.ok r, s') ∧ E s s'
  symm : E s t → E t s
  trans : E s t → E t u → E s u

namespace Follows

variable {S : C → Prop} {Q : α → β → Prop} {p : Program C R ε α} {q : Program C R ε β}

theorem refl {Q : α → α → Prop} (hQ : ∀ a, Q a a) (p : Program C R ε α) : Follows S Q p p := by
  induction p with
  | ret a => exact .ret (hQ a)
  | throw e => exact .throw
  | call c k ih => exact .call ih

theorem bind {f : α → Program C R ε γ} {g : β → Program C R ε δ} {Q' : γ → δ → Prop}
    (H : Follows S Q p q) (hf : ∀ a b, Q a b → Follows S Q' (f a) (g b)) :
    Follows S Q' (p >>= f) (q >>= g) := by
  induction H with
  | ret h => exact hf _ _ h
  | throw => exact .throw
  | call _ ih => exact .call ih
  | left hc _ ih => exact .left hc ih
  | right hc _ ih => exact .right hc ih

/-- Traversals with related turns. -/
theorem mapM {l : List γ} {f : γ → Program C R ε α} {g : γ → Program C R ε β}
    (h : ∀ c ∈ l, Follows S Q (f c) (g c)) :
    Follows S (List.Forall₂ Q) (l.mapM f) (l.mapM g) := by
  induction l with
  | nil => exact .ret .nil
  | cons c l ih =>
    rw [List.mapM_cons, List.mapM_cons]
    refine (h c List.mem_cons_self).bind fun a b hab => ?_
    refine (ih fun c hc => h c (List.mem_cons_of_mem _ hc)).bind fun as bs hs => ?_
    exact .ret (.cons hab hs)

/-- Loops with related turns. -/
theorem foldlM {l : List γ} {f : α → γ → Program C R ε α} {g : β → γ → Program C R ε β}
    (h : ∀ c ∈ l, ∀ a b, Q a b → Follows S Q (f a c) (g b c)) (hab : Q a b) :
    Follows S Q (l.foldlM f a) (l.foldlM g b) := by
  induction l generalizing a b with
  | nil => exact .ret hab
  | cons c l ih =>
    rw [List.foldlM_cons, List.foldlM_cons]
    refine (h c List.mem_cons_self a b hab).bind fun a' b' hab' => ?_
    exact ih (fun c hc => h c (List.mem_cons_of_mem _ hc)) hab'

theorem lift {C' : Type} {R' : C' → Type} {f : C → C'} {reply : (c : C) → R' (f c) → R c}
    {S' : C' → Prop} (H : Follows S Q p q) (hS : ∀ c, S c → S' (f c)) :
    Follows S' Q (p.lift f reply) (q.lift f reply) := by
  induction H with
  | ret h => exact .ret h
  | throw => exact .throw
  | call _ ih => exact .call fun r => ih _
  | left hc _ ih => exact .left (hS _ hc) fun r => ih _
  | right hc _ ih => exact .right (hS _ hc) fun r => ih _

variable {h : Handler C R ε σ} {E : σ → σ → Prop}

/-- Once `p` has returned, only silent calls are left to `q`. -/
theorem finish (hE : Hides h S E) (H : Follows S Q (.ret a) q) (hst : E s t) :
    ∃ l b t', Steps h q t l (.ret b) t' ∧ E s t' ∧ Q a b := by
  generalize hp : (Program.ret a : Program C R ε α) = p at H
  induction H generalizing t with
  | ret hQ =>
    cases hp
    exact ⟨[], _, t, .refl, hst, hQ⟩
  | throw | call | left => cases hp
  | @right _ c k hc _ ih =>
    obtain ⟨r, t₁, hcall, hE₁⟩ := hE.silent (s := t) hc
    obtain ⟨l, b, t', hsteps, hst', hQ⟩ := ih r (hE.trans hst hE₁) hp
    exact ⟨c :: l, b, t', .call hcall hsteps, hst', hQ⟩

/-- One call of `p`. -/
theorem step (hE : Hides h S E) {c : C} {k : R c → Program C R ε α} {r : R c}
    (H : Follows S Q (.call c k) q) (hst : E s t) (hc : h c s = (.ok r, s')) :
    ∃ l q' t', Steps h q t l q' t' ∧ E s' t' ∧ Follows S Q (k r) q' := by
  generalize hp : Program.call c k = p at H
  induction H generalizing t with
  | ret | throw => cases hp
  | call H =>
    cases hp
    obtain ⟨t', hc', hst'⟩ := hE.call hst hc
    exact ⟨[_], _, t', .call hc' .refl, hst', H r⟩
  | left hS H =>
    cases hp
    obtain ⟨r₁, s₁, hc₁, hE₁⟩ := hE.silent (s := s) hS
    cases hc.symm.trans hc₁
    exact ⟨[], _, t, .refl, hE.trans (hE.symm hE₁) hst, H r⟩
  | @right _ c' k' hS _ ih =>
    obtain ⟨r₁, t₁, hcall, hE₁⟩ := hE.silent (s := t) hS
    obtain ⟨l, q', t', hsteps, hst', hrest⟩ := ih r₁ (hE.trans hst hE₁) hp
    exact ⟨c' :: l, q', t', .call hcall hsteps, hst', hrest⟩

/-- **Executions up to silent calls**: whatever `p` has done at some point, `q` can have done. -/
theorem steps (hE : Hides h S E) (H : Follows S Q p q) (Hp : Steps h p s l p' s') (hst : E s t) :
    ∃ l' q' t', Steps h q t l' q' t' ∧ E s' t' ∧ Follows S Q p' q' := by
  induction Hp generalizing q t with
  | refl => exact ⟨[], q, t, .refl, hst, H⟩
  | call hc _ ih =>
    obtain ⟨l₁, q₁, t₁, hsteps₁, hst₁, H₁⟩ := H.step hE hst hc
    obtain ⟨l₂, q₂, t₂, hsteps₂, hst₂, H₂⟩ := ih H₁ hst₁
    exact ⟨l₁ ++ l₂, q₂, t₂, hsteps₁.trans hsteps₂, hst₂, H₂⟩

/-- When `p` returns, `q` returns. -/
theorem run (hE : Hides h S E) (H : Follows S Q p q) (Hp : p.run h s = (.ok a, s'))
    (hst : E s t) : ∃ b t', q.run h t = (.ok b, t') ∧ E s' t' ∧ Q a b := by
  obtain ⟨l, Hp⟩ := Steps.of_run Hp
  obtain ⟨l₁, q₁, t₁, hsteps₁, hst₁, H₁⟩ := H.steps hE Hp hst
  obtain ⟨l₂, b, t₂, hsteps₂, hst₂, hQ⟩ := H₁.finish hE hst₁
  exact ⟨b, t₂, (hsteps₁.trans hsteps₂).run_ret, hst₂, hQ⟩

end Follows

end Program

end MarginKG
