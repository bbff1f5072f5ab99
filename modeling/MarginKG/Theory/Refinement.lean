import MarginKG.Theory.Program

/-! Refinement of handlers. Two handlers may store the same things in different ways and show them
in different ways; a program that makes nothing of the difference runs alike over both.

`Program.Blind Q` says that a program goes on in the same way after replies that `Q` relates, and
`Refines` says that the second handler answers as the first does, up to `Q`, as long as the calls
meet a guard over the states of the first. The run of a blind program whose calls meet the guard
then ends alike over both (`Refines.run`), and so do the interleavings of several
(`Refines.pool`).

The guard is a condition on the run over the first handler (`Program.Guarded`); what the text of
the program says of its calls may be added to it (`Program.Guarded.and_uses`). -/

namespace MarginKG

namespace Program

variable {C : Type} {R : C → Type} {ε α β γ σ τ : Type}

/-- After replies that `Q` relates, the program goes on in the same way. -/
def Blind (Q : (c : C) → R c → R c → Prop) : Program C R ε α → Prop
  | .ret _ => True
  | .throw _ => True
  | .call c k => (∀ r r', Q c r r' → k r = k r') ∧ ∀ r, (k r).Blind Q

namespace Blind

variable {Q : (c : C) → R c → R c → Prop} {p : Program C R ε α}

theorem bind {f : α → Program C R ε β} (hp : p.Blind Q) (hf : ∀ a, (f a).Blind Q) :
    (p >>= f).Blind Q := by
  induction p with
  | ret a => exact hf a
  | throw e => trivial
  | call c k ih =>
    refine ⟨fun r r' hr => ?_, fun r => ih r (hp.2 r)⟩
    exact congrArg (· >>= f) (hp.1 r r' hr)

theorem ofExcept (x : Except ε α) : (ofExcept x : Program C R ε α).Blind Q := by
  cases x <;> trivial

theorem forM {l : List β} {f : β → Program C R ε PUnit} (h : ∀ b ∈ l, (f b).Blind Q) :
    (l.forM f).Blind Q := by
  induction l with
  | nil => trivial
  | cons b l ih =>
    exact (h b List.mem_cons_self).bind fun _ => ih fun b hb => h b (List.mem_cons_of_mem _ hb)

theorem mapM {l : List β} {f : β → Program C R ε γ} (h : ∀ b ∈ l, (f b).Blind Q) :
    (l.mapM f).Blind Q := by
  induction l with
  | nil => trivial
  | cons b l ih =>
    rw [List.mapM_cons]
    exact (h b List.mem_cons_self).bind fun _ =>
      (ih fun b hb => h b (List.mem_cons_of_mem _ hb)).bind fun _ => trivial

theorem foldlM {l : List β} {f : γ → β → Program C R ε γ} (h : ∀ b ∈ l, ∀ c, (f c b).Blind Q)
    (c : γ) : (l.foldlM f c).Blind Q := by
  induction l generalizing c with
  | nil => trivial
  | cons b l ih =>
    refine (h b List.mem_cons_self c).bind fun _ => ?_
    exact ih (fun b hb => h b (List.mem_cons_of_mem _ hb)) _

/-- A program stays blind when it is read over more calls. -/
theorem lift {C' : Type} {R' : C' → Type} {f : C → C'} {reply : (c : C) → R' (f c) → R c}
    {Q' : (c : C') → R' c → R' c → Prop} (hp : p.Blind Q)
    (hQ : ∀ c r r', Q' (f c) r r' → Q c (reply c r) (reply c r')) :
    (p.lift f reply).Blind Q' := by
  induction p with
  | ret a => trivial
  | throw e => trivial
  | call c k ih =>
    refine ⟨fun r r' hr => ?_, fun r => ih _ (hp.2 _)⟩
    exact congrArg (Program.lift f reply) (hp.1 _ _ (hQ c r r' hr))

/-- Along its plan a blind program is told related things. -/
theorem plan {P : C → Prop} {ρ ρ' : (c : C) → R c} (hp : p.Blind Q) (huses : p.Uses P)
    (hρ : ∀ c, P c → Q c (ρ c) (ρ' c)) : p.plan ρ = p.plan ρ' := by
  induction p with
  | ret a => rfl
  | throw e => rfl
  | call c k ih =>
    rw [Program.plan, Program.plan, ← hp.1 _ _ (hρ c huses.1),
      ih (ρ c) (hp.2 _) (huses.2 _)]

end Blind

/-- Each call in the run of the program from `s` meets `G` in the state in which it is made. -/
def Guarded (h : Handler C R ε σ) (G : C → σ → Prop) : Program C R ε α → σ → Prop
  | .ret _, _ => True
  | .throw _, _ => True
  | .call c k, s => G c s ∧
    match h c s with
    | (.ok r, s') => (k r).Guarded h G s'
    | (.error _, _) => True

theorem guarded_call_ok {h : Handler C R ε σ} {G : C → σ → Prop} (hc : h c s = (.ok r, s'))
    {k : R c → Program C R ε α} : (call c k).Guarded h G s ↔ G c s ∧ (k r).Guarded h G s' := by
  rw [Guarded, hc]

theorem guarded_call_error {h : Handler C R ε σ} {G : C → σ → Prop} (hc : h c s = (.error e, s'))
    {k : R c → Program C R ε α} : (call c k).Guarded h G s ↔ G c s := by
  rw [Guarded, hc]
  exact and_iff_left trivial

namespace Guarded

variable {h : Handler C R ε σ} {G : C → σ → Prop} {p : Program C R ε α}

instance decidable (h : Handler C R ε σ) (G : C → σ → Prop) [∀ c s, Decidable (G c s)] :
    (p : Program C R ε α) → (s : σ) → Decidable (p.Guarded h G s)
  | .ret _, _ => isTrue trivial
  | .throw _, _ => isTrue trivial
  | .call c k, s =>
    match hc : h c s with
    | (.ok r, s') =>
      have := decidable h G (k r) s'
      decidable_of_iff _ (guarded_call_ok hc).symm
    | (.error _, _) => decidable_of_iff _ (guarded_call_error hc).symm

theorem mono {G' : C → σ → Prop} (hp : p.Guarded h G s) (hG : ∀ c s, G c s → G' c s) :
    p.Guarded h G' s := by
  induction p generalizing s with
  | ret a => trivial
  | throw e => trivial
  | call c k ih =>
    rw [Guarded] at hp ⊢
    refine ⟨hG c s hp.1, ?_⟩
    rcases hc : h c s with ⟨e | r, s'⟩
    · trivial
    · have hrest := hp.2
      rw [hc] at hrest
      exact ih r hrest

/-- What holds of every call of the program need not be said of the run. -/
theorem and_uses {P : C → Prop} (hp : p.Guarded h G s) (hP : p.Uses P) :
    p.Guarded h (fun c s => P c ∧ G c s) s := by
  induction p generalizing s with
  | ret a => trivial
  | throw e => trivial
  | call c k ih =>
    rw [Guarded] at hp ⊢
    obtain ⟨hG, hrest⟩ := hp
    refine ⟨⟨hP.1, hG⟩, ?_⟩
    rcases hc : h c s with ⟨e | r, s'⟩
    · trivial
    · rw [hc] at hrest
      exact ih r hrest (hP.2 r)

end Guarded

/-- Each of the calls meets `G` in the state in which it is made. -/
def Along (h : Handler C R ε σ) (G : C → σ → Prop) : List C → σ → Prop
  | [], _ => True
  | c :: l, s => G c s ∧ Along h G l (h c s).2

namespace Along

variable {h : Handler C R ε σ} {G : C → σ → Prop}

instance decidable (h : Handler C R ε σ) (G : C → σ → Prop) [∀ c s, Decidable (G c s)] :
    (l : List C) → (s : σ) → Decidable (Along h G l s)
  | [], _ => isTrue trivial
  | c :: l, s =>
    have := decidable h G l (h c s).2
    inferInstanceAs (Decidable (_ ∧ _))

theorem and_forall {P : C → Prop} {l : List C} (hl : Along h G l s) (hP : ∀ c ∈ l, P c) :
    Along h (fun c s => P c ∧ G c s) l s := by
  induction l generalizing s with
  | nil => trivial
  | cons c l ih =>
    obtain ⟨hc, hP⟩ := List.forall_mem_cons.mp hP
    exact ⟨⟨hc, hl.1⟩, ih hl.2 hP⟩

theorem mono {G' : C → σ → Prop} {l : List C} (hl : Along h G l s) (hG : ∀ c s, G c s → G' c s) :
    Along h G' l s := by
  induction l generalizing s with
  | nil => trivial
  | cons c l ih => exact ⟨hG _ _ hl.1, ih hl.2⟩

end Along

end Program

/-- The handler `h'` answers as `h` does, up to `Q`, the calls that meet the guard `G`, and keeps
its states related to those of `h`. -/
structure Refines {C : Type} {R : C → Type} {ε σ τ : Type} (h : Handler C R ε σ)
    (h' : Handler C R ε τ) (S : σ → τ → Prop) (Q : (c : C) → R c → R c → Prop)
    (G : C → σ → Prop) : Prop where
  ok : S s t → G c s → h c s = (.ok r, s') → ∃ r' t', h' c t = (.ok r', t') ∧ Q c r r' ∧ S s' t'
  error : S s t → G c s → h c s = (.error e, s') → ∃ t', h' c t = (.error e, t') ∧ S s' t'

namespace Refines

variable {C : Type} {R : C → Type} {ε α σ τ : Type} {h : Handler C R ε σ} {h' : Handler C R ε τ}
  {S : σ → τ → Prop} {Q : (c : C) → R c → R c → Prop} {G : C → σ → Prop}

/-- **Runs over a refinement**: a program that is blind to how replies differ ends alike. -/
theorem run (H : Refines h h' S Q G) {p : Program C R ε α} (hp : p.Blind Q)
    (hG : p.Guarded h G s) (hs : S s t) :
    (p.run h' t).1 = (p.run h s).1 ∧ S (p.run h s).2 (p.run h' t).2 := by
  induction p generalizing s t with
  | ret a => exact ⟨rfl, hs⟩
  | throw e => exact ⟨rfl, hs⟩
  | call c k ih =>
    rw [Program.Guarded] at hG
    obtain ⟨hG, hrest⟩ := hG
    rcases hc : h c s with ⟨e | r, s'⟩
    · obtain ⟨t', hc', hs'⟩ := H.error hs hG hc
      rw [Program.run_call_error hc, Program.run_call_error hc']
      exact ⟨rfl, hs'⟩
    · obtain ⟨r', t', hc', hr, hs'⟩ := H.ok hs hG hc
      rw [hc] at hrest
      rw [Program.run_call_ok hc, Program.run_call_ok hc', ← hp.1 r r' hr]
      exact ih r (hp.2 r) hrest hs'

/-- **Interleavings over a refinement**: blind programs make the same calls in the same order, and
have the same left to do. -/
theorem pool (H : Refines h h' S Q G) {ps qs : List (Program C R ε α)} {l : List (Nat × C)}
    (Hp : Program.Pool h ps s l qs s') (hps : ∀ p ∈ ps, p.Blind Q)
    (hG : Program.Along h G (l.map Prod.snd) s) (hs : S s t) :
    ∃ t', Program.Pool h' ps t l qs t' ∧ S s' t' := by
  induction Hp generalizing t with
  | refl => exact ⟨t, .refl, hs⟩
  | @call ps i s s₁ l qs s₂ c k r hi hc _ ih =>
    obtain ⟨hcall, hG⟩ := hG
    rw [hc] at hG
    have hblind := hps _ (List.mem_of_getElem? hi)
    obtain ⟨r', t₁, hc', hr, hs₁⟩ := H.ok hs hcall hc
    have hps' := Program.Pool.forall_mem_set hps (hblind.2 r) i
    obtain ⟨t', Hp', hs'⟩ := ih hps' hG hs₁
    refine ⟨t', .call hi hc' ?_, hs'⟩
    rw [← hblind.1 r r' hr]
    exact Hp'
  | @raise ps i s s₁ e l qs s₂ c k hi hc _ ih =>
    obtain ⟨hcall, hG⟩ := hG
    rw [hc] at hG
    obtain ⟨t₁, hc', hs₁⟩ := H.error hs hcall hc
    have hps' := Program.Pool.forall_mem_set hps (q := .throw e) trivial i
    obtain ⟨t', Hp', hs'⟩ := ih hps' hG hs₁
    exact ⟨t', .raise hi hc' Hp', hs'⟩

end Refines

end MarginKG
