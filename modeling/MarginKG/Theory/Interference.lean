import MarginKG.Theory.Program

/-! Programs among others, in the manner of rely and guarantee. `Program.Among h E p s l q s'` is an
execution of one program between whose calls the state may change as the relation `E` allows.

Each program of a pool whose calls keep to `E` runs in this way, whatever the others do
(`Program.Pool.among`). It can then be taken apart along its own text, as `Program.Steps` can, or
be specified by a triple whose conditions `E` leaves stable (`Program.Withstands`). -/

namespace MarginKG

namespace Program

variable {C : Type} {R : C → Type} {ε α β σ : Type}

/-- From `s`, the program `p` makes the calls `l` and is left as `q` in `s'`; before each call, and
in the end, the state may have changed as `E` allows. -/
inductive Among (h : Handler C R ε σ) (E : σ → σ → Prop) :
    Program C R ε α → σ → List C → Program C R ε α → σ → Prop
  | wait : E s s' → Among h E p s [] p s'
  | call {c : C} {k : R c → Program C R ε α} {r : R c} : E s s₁ → h c s₁ = (.ok r, s₂) →
    Among h E (k r) s₂ l q s' → Among h E (.call c k) s (c :: l) q s'
  | raise {c : C} {k : R c → Program C R ε α} : E s s₁ → h c s₁ = (.error e, s₂) → E s₂ s' →
    Among h E (.call c k) s [c] (.throw e) s'

namespace Among

variable {h : Handler C R ε σ} {E : σ → σ → Prop} {p q : Program C R ε α}

/-- The state may change before the program goes on. -/
theorem before (htrans : ∀ {s s' s''}, E s s' → E s' s'' → E s s'') (hE : E s s₁)
    (H : Among h E p s₁ l q s') : Among h E p s l q s' := by
  cases H with
  | wait h => exact .wait (htrans hE h)
  | call h hc H => exact .call (htrans hE h) hc H
  | raise h hc h' => exact .raise (htrans hE h) hc h'

/-- What the surroundings may do, the program together with them may do, when its calls keep to
it. -/
theorem rely {P : C → Prop} (htrans : ∀ {s s' s''}, E s s' → E s' s'' → E s s'')
    (hcall : ∀ {c s x s'}, P c → h c s = (x, s') → E s s') (hp : p.Uses P)
    (H : Among h E p s l q s') : E s s' := by
  induction H with
  | wait h => exact h
  | call h hc _ ih => exact htrans h (htrans (hcall hp.1 hc) (ih (hp.2 _)))
  | raise h hc h' => exact htrans h (htrans (hcall hp.1 hc) h')

/-- An execution that nothing disturbs. -/
theorem of_steps (hrefl : ∀ s, E s s) (H : Steps h p s l q s') : Among h E p s l q s' := by
  induction H with
  | refl => exact .wait (hrefl _)
  | call hc _ ih => exact .call (hrefl _) hc ih

/-- An execution of a sequence is still in its first part, or has finished it. -/
theorem bind_inv {f : α → Program C R ε β} {q : Program C R ε β} (hrefl : ∀ s, E s s)
    (H : Among h E (p >>= f) s l q s') :
    (∃ p', q = (p' >>= f) ∧ (∀ a, p' ≠ .ret a) ∧ Among h E p s l p' s') ∨
      ∃ a s₁ l₁ l₂, l = l₁ ++ l₂ ∧ Among h E p s l₁ (.ret a) s₁ ∧
        Among h E (f a) s₁ l₂ q s' := by
  induction p generalizing s l with
  | ret a => exact .inr ⟨a, s, [], l, rfl, .wait (hrefl s), H⟩
  | throw e =>
    cases H with
    | wait hE => exact .inl ⟨.throw e, rfl, (fun _ hp => by cases hp), .wait hE⟩
  | call c k ih =>
    rw [call_bind] at H
    cases H with
    | wait hE => exact .inl ⟨.call c k, rfl, (fun _ hp => by cases hp), .wait hE⟩
    | call hE hc H =>
      rcases ih _ H with ⟨p', hq, hp, H⟩ | ⟨a, s₁, l₁, l₂, rfl, H₁, H₂⟩
      · exact .inl ⟨p', hq, hp, .call hE hc H⟩
      · exact .inr ⟨a, s₁, c :: l₁, l₂, rfl, .call hE hc H₁, H₂⟩
    | raise hE hc hE' => exact .inl ⟨.throw _, rfl, (fun _ hp => by cases hp), .raise hE hc hE'⟩

/-- A program that has returned made the calls of its parts, one part after the other. -/
theorem bind_ret_inv {f : α → Program C R ε β} (hrefl : ∀ s, E s s)
    (H : Among h E (p >>= f) s l (.ret b) s') : ∃ a s₁ l₁ l₂, l = l₁ ++ l₂ ∧
      Among h E p s l₁ (.ret a) s₁ ∧ Among h E (f a) s₁ l₂ (.ret b) s' := by
  induction p generalizing s l with
  | ret a => exact ⟨a, s, [], l, rfl, .wait (hrefl s), H⟩
  | throw e => cases H
  | call c k ih =>
    cases H with
    | call hE hc H =>
      obtain ⟨a, s₁, l₁, l₂, rfl, H₁, H₂⟩ := ih _ H
      exact ⟨a, s₁, c :: l₁, l₂, rfl, .call hE hc H₁, H₂⟩

/-- A program whose calls have fixed replies follows its plan, unless it raises, when its
surroundings keep the replies fixed. -/
theorem plan {ρ : (c : C) → R c} {P : C → Prop} {I : σ → Prop} (hF : Fixed h ρ P I)
    (hI : ∀ {s s'}, E s s' → I s → I s') (H : Among h E p s l q s') (hp : p.Uses P) (hs : I s)
    (hraised : ¬ q.Raised) : p.plan ρ = (l ++ (q.plan ρ).1, (q.plan ρ).2) := by
  induction H with
  | wait => rfl
  | raise => exact (hraised ⟨_, rfl⟩).elim
  | call hE hc _ ih =>
    have hs₁ := hI hE hs
    rw [Program.plan, ← hF.reply hp.1 hs₁ hc, ih (hp.2 _) (hF.keeps hp.1 hs₁ hc) hraised]
    rfl

end Among

/-- Each program of a pool runs among the others. -/
theorem Pool.among {h : Handler C R ε σ} {E : σ → σ → Prop} {P : C → Prop}
    {ps qs : List (Program C R ε α)} (H : Pool h ps s l qs s') (hrefl : ∀ s, E s s)
    (htrans : ∀ {s s' s''}, E s s' → E s' s'' → E s s'')
    (hcall : ∀ {c s x s'}, P c → h c s = (x, s') → E s s') (hps : ∀ p ∈ ps, p.Uses P)
    (hi : ps[i]? = some p) (hq : qs[i]? = some q) : Among h E p s (callsOf i l) q s' := by
  induction H generalizing p with
  | refl =>
    cases hi.symm.trans hq
    exact .wait (hrefl _)
  | @call ps j s s₁ l qs s₂ c k r hj hc _ ih =>
    obtain ⟨hP, hcalls, -⟩ := uses_set hps hj
    rw [callsOf_cons]
    by_cases hij : j = i
    · subst hij
      cases hi.symm.trans hj
      rw [if_pos rfl]
      refine .call (hrefl _) hc (ih (hcalls r) ?_ hq)
      rw [List.getElem?_set_self', hi]
      rfl
    · rw [if_neg hij]
      refine (ih (hcalls r) ?_ hq).before htrans (hcall hP hc)
      rw [List.getElem?_set_ne hij, hi]
  | @raise ps j s s₁ e l qs s₂ c k hj hc H ih =>
    obtain ⟨hP, -, hraise⟩ := uses_set hps hj
    rw [callsOf_cons]
    by_cases hij : j = i
    · subst hij
      cases hi.symm.trans hj
      have hset : (ps.set j (.throw e))[j]? = some (.throw e) := by
        rw [List.getElem?_set_self', hi]
        rfl
      have hrest := ih (hraise e) hset hq
      generalize callsOf j l = made at hrest ⊢
      generalize hp : (Program.throw e : Program C R ε α) = p at hrest
      rw [if_pos rfl]
      cases hrest with
      | wait hE => exact hp ▸ .raise (hrefl _) hc hE
      | call | raise => cases hp
    · rw [if_neg hij]
      refine (ih (hraise e) ?_ hq).before htrans (hcall hP hc)
      rw [List.getElem?_set_ne hij, hi]

/-- The plan of a program read over more calls. -/
theorem plan_lift {C' : Type} {R' : C' → Type} {f : C → C'} {reply : (c : C) → R' (f c) → R c}
    {ρ : (c : C) → R c} {ρ' : (c : C') → R' c} (hρ : ∀ c, reply c (ρ' (f c)) = ρ c)
    (p : Program C R ε α) :
    (p.lift f reply).plan ρ' = ((p.plan ρ).1.map f, (p.plan ρ).2) := by
  induction p with
  | ret a => rfl
  | throw e => rfl
  | call c k ih =>
    rw [Program.lift, Program.plan, Program.plan, hρ, ih]
    rfl

/-- A program read over more calls runs on its component among what happens there. -/
theorem Among.of_lift {C' : Type} {R' : C' → Type} {τ : Type} {h : Handler C R ε σ}
    {h' : Handler C' R' ε τ} {f : C → C'} {reply : (c : C) → R' (f c) → R c} {get : τ → σ}
    {put : σ → τ → τ} {l' : List C'} {t t' : τ} (H : Lifting h h' f reply get put)
    {E : σ → σ → Prop} {E' : τ → τ → Prop} (hE : ∀ {t t'}, E' t t' → E (get t) (get t'))
    {p : Program C R ε α} {q' : Program C' R' ε α} (hp : Among h' E' (p.lift f reply) t l' q' t') :
    ∃ l q, l' = l.map f ∧ q' = q.lift f reply ∧ Among h E p (get t) l q (get t') := by
  induction p generalizing t l' with
  | ret a =>
    cases hp with
    | wait h => exact ⟨[], .ret a, rfl, rfl, .wait (hE h)⟩
  | throw e =>
    cases hp with
    | wait h => exact ⟨[], .throw e, rfl, rfl, .wait (hE h)⟩
  | call c k ih =>
    rw [Program.lift] at hp
    cases hp with
    | wait h => exact ⟨[], .call c k, rfl, rfl, .wait (hE h)⟩
    | @call _ t₁ _ _ _ _ _ _ _ hE' hc' hp =>
      rcases hc : h c (get t₁) with ⟨e | r, s⟩
      · rw [H.error hc] at hc'
        cases hc'
      · obtain ⟨r₁, hr, rfl⟩ := H.ok hc
        rw [hr] at hc'
        cases hc'
        obtain ⟨l, q, rfl, rfl, hsteps⟩ := ih _ hp
        rw [H.get_put] at hsteps
        exact ⟨c :: l, q, rfl, rfl, .call (hE hE') hc hsteps⟩
    | @raise _ t₁ _ _ _ _ _ hE' hc' hE'' =>
      rcases hc : h c (get t₁) with ⟨e | r, s⟩
      · cases (H.error hc).symm.trans hc'
        have hE'' := hE hE''
        rw [H.get_put] at hE''
        exact ⟨[c], .throw _, rfl, rfl, .raise (hE hE') hc hE''⟩
      · obtain ⟨r₁, hr, -⟩ := H.ok hc
        cases hr.symm.trans hc'

/-! ## Triples among others -/

/-- What is left of a program is a result that meets `post`, or a call that is answered. -/
def Proceeds (h : Handler C R ε σ) (post : α → σ → Prop) : Program C R ε α → σ → Prop
  | .ret a, s => post a s
  | .throw _, _ => False
  | .call c _, s => ∃ r s', h c s = (.ok r, s')

/-- From a state of `pre`, whatever the surroundings do meanwhile, the program does not raise, its
calls are answered, and once it has returned `post` holds. -/
def Withstands (h : Handler C R ε σ) (E : σ → σ → Prop) (pre : σ → Prop) (p : Program C R ε α)
    (post : α → σ → Prop) : Prop :=
  ∀ ⦃s l q s'⦄, pre s → Among h E p s l q s' → q.Proceeds h post s'

namespace Withstands

variable {h : Handler C R ε σ} {E : σ → σ → Prop} {pre F : σ → Prop} {p : Program C R ε α}
  {post : α → σ → Prop}

theorem mono {pre' : σ → Prop} {post' : α → σ → Prop} (hp : p.Withstands h E pre post)
    (hpre : ∀ s, pre' s → pre s) (hpost : ∀ a s, post a s → post' a s) :
    p.Withstands h E pre' post' := by
  intro s l q s' hs H
  have hq := hp (hpre s hs) H
  cases q with
  | ret a => exact hpost a s' hq
  | throw e => exact hq
  | call c k => exact hq

theorem ret (hpost : ∀ ⦃s s'⦄, E s s' → pre s → post a s') :
    (Program.ret a : Program C R ε α).Withstands h E pre post := by
  intro s l q s' hs H
  cases H with
  | wait hE => exact hpost hE hs

theorem call {c : C} {k : R c → Program C R ε α} (mid : R c → σ → Prop) (hpre : Stable E pre)
    (hc : ∀ s, pre s → ∃ r s', h c s = (.ok r, s') ∧ mid r s')
    (hk : ∀ r, (k r).Withstands h E (mid r) post) :
    (Program.call c k).Withstands h E pre post := by
  intro s l q s' hs H
  cases H with
  | wait hE =>
    obtain ⟨r, s', hr, -⟩ := hc _ (hpre hE hs)
    exact ⟨r, s', hr⟩
  | call hE hcall H =>
    obtain ⟨r, s', hr, hmid⟩ := hc _ (hpre hE hs)
    cases hr.symm.trans hcall
    exact hk _ hmid H
  | raise hE hcall _ =>
    obtain ⟨r, s', hr, -⟩ := hc _ (hpre hE hs)
    cases hr.symm.trans hcall

theorem bind {f : α → Program C R ε β} {post' : β → σ → Prop} (hrefl : ∀ s, E s s)
    (hp : p.Withstands h E pre post) (hf : ∀ a, (f a).Withstands h E (post a) post') :
    (p >>= f).Withstands h E pre post' := by
  intro s l q s' hs H
  rcases H.bind_inv hrefl with ⟨p', rfl, hret, H⟩ | ⟨a, s₁, l₁, l₂, -, H₁, H₂⟩
  · have hp' := hp hs H
    cases p' with
    | ret a => exact (hret a rfl).elim
    | throw e => exact hp'.elim
    | call c k => exact hp'
  · exact hf a (hp hs H₁) H₂

/-- What the surroundings and the calls of the program leave alone need not be said again. -/
theorem frame {P : C → Prop} (htrans : ∀ {s s' s''}, E s s' → E s' s'' → E s s'')
    (hcall : ∀ {c s x s'}, P c → h c s = (x, s') → E s s') (hP : p.Uses P)
    (hp : p.Withstands h E pre post) (hF : Stable E F) :
    p.Withstands h E (fun s => pre s ∧ F s) fun a s => post a s ∧ F s := by
  intro s l q s' hs H
  have hq := hp hs.1 H
  cases q with
  | ret a => exact ⟨hq, hF (H.rely htrans hcall hP) hs.2⟩
  | throw e => exact hq
  | call c k => exact hq

/-- A loop, when what a turn establishes is stable. -/
theorem mapM {P : C → Prop} {l : List β} {f : β → Program C R ε γ} {Q : β → γ → σ → Prop}
    (hrefl : ∀ s, E s s) (htrans : ∀ {s s' s''}, E s s' → E s' s'' → E s s'')
    (hcall : ∀ {c s x s'}, P c → h c s = (x, s') → E s s') (hpre : Stable E pre)
    (hQ : ∀ b c, Stable E (Q b c)) (hP : ∀ b ∈ l, (f b).Uses P)
    (hf : ∀ b ∈ l, (f b).Withstands h E pre (Q b)) :
    (l.mapM f).Withstands h E pre fun cs s => List.Forall₂ (fun b c => Q b c s) l cs := by
  induction l with
  | nil => exact ret fun _ _ _ _ => .nil
  | cons b l ih =>
    have hmem : ∀ b' ∈ l, b' ∈ b :: l := fun _ => List.mem_cons_of_mem _
    have hturn := frame (E := E) htrans hcall (hP b List.mem_cons_self) (hf b List.mem_cons_self)
      hpre
    rw [List.mapM_cons]
    refine bind hrefl (hturn.mono (fun _ hs => ⟨hs, hs⟩) fun _ _ => id) fun c => ?_
    have hrest := frame (E := E) htrans hcall (.mapM fun b hb => hP b (hmem b hb))
      (ih (fun b hb => hP b (hmem b hb)) fun b hb => hf b (hmem b hb)) (hQ b c)
    refine bind hrefl (hrest.mono (fun _ hs => hs.symm) fun _ _ => id) fun cs => ?_
    exact ret fun _ _ hE hs => .cons (hQ b c hE hs.2) (hs.1.imp fun b' c' => hQ b' c' hE)

/-- A program that withstands its surroundings runs to its end without them. -/
theorem run (hrefl : ∀ s, E s s) (hp : p.Withstands h E pre post) (hs : pre s) :
    ∃ a s', p.run h s = (.ok a, s') ∧ post a s' := by
  have hrun : ∀ {l q s'}, Among h E p s l q s' → q.Proceeds h post s' := fun H => hp hs H
  clear hp hs
  induction p generalizing s with
  | ret a => exact ⟨a, s, rfl, hrun (.wait (hrefl s))⟩
  | throw e => exact (hrun (.wait (hrefl s))).elim
  | call c k ih =>
    obtain ⟨r, s₁, hc⟩ := hrun (.wait (hrefl s))
    obtain ⟨a, s', hk, hpost⟩ := ih r fun H => hrun (.call (hrefl s) hc H)
    exact ⟨a, s', (run_call_ok hc _).trans hk, hpost⟩

/-- What a program withstands on its component, it withstands when it is read over more calls. -/
theorem lift {C' : Type} {R' : C' → Type} {τ : Type} {h' : Handler C' R' ε τ} {f : C → C'}
    {reply : (c : C) → R' (f c) → R c} {get : τ → σ} {put : σ → τ → τ}
    (H : Lifting h h' f reply get put) (E' : τ → τ → Prop)
    (hE : ∀ {t t'}, E' t t' → E (get t) (get t')) (hp : p.Withstands h E pre post) :
    (p.lift f reply).Withstands h' E' (fun t => pre (get t)) fun a t => post a (get t) := by
  intro t l q t' ht hrun
  obtain ⟨l, q, rfl, rfl, hpart⟩ := hrun.of_lift H hE
  have hq := hp ht hpart
  cases q with
  | ret a => exact hq
  | throw e => exact hq
  | call c k =>
    obtain ⟨r, s', hc⟩ := hq
    obtain ⟨r', hr', -⟩ := H.ok hc
    exact ⟨r', _, hr'⟩

end Withstands

end Program

end MarginKG
