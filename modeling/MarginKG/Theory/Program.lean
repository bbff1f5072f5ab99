import Mathlib.Data.List.Basic
import Mathlib.Control.Monad.Basic
import Mathlib.Data.List.Forall2
import Mathlib.Order.Defs.Unbundled

/-! Programs that reach their surroundings only through calls. `C` is the type of calls, `R c`
the type of the reply to `c`, and `ε` the type of the exceptions a program may raise; nothing
catches an exception.

A handler interprets the calls over a state. It gives three readings of one program:

* `Program.run`, an uninterrupted execution;
* `Program.Steps`, an execution up to any point between two calls, with the calls made so far;
* `Program.Pool`, several programs over one state whose calls interleave in any order.

`Program.plan` is the straight line a program follows when each call has a fixed reply. A program
that only makes calls with fixed replies follows its plan in all three readings
(`Program.Steps.plan`, `Program.Pool.plan`). -/

namespace MarginKG

/-- A computation that makes calls and ends with a value or an exception. -/
inductive Program (C : Type) (R : C → Type) (ε α : Type) where
  | ret (a : α)
  | throw (e : ε)
  | call (c : C) (k : R c → Program C R ε α)

/-- What a call does to a state, and the reply or the exception it ends with. -/
abbrev Handler (C : Type) (R : C → Type) (ε σ : Type) :=
  (c : C) → σ → Except ε (R c) × σ

namespace Program

variable {C : Type} {R : C → Type} {ε α β σ : Type}

def bind : Program C R ε α → (α → Program C R ε β) → Program C R ε β
  | .ret a, f => f a
  | .throw e, _ => .throw e
  | .call c k, f => .call c fun r => (k r).bind f

instance : Monad (Program C R ε) where
  pure := .ret
  bind := bind

@[simp] theorem pure_eq (a : α) : (pure a : Program C R ε α) = .ret a := rfl

@[simp] theorem ret_bind (a : α) (f : α → Program C R ε β) : (.ret a >>= f) = f a := rfl

@[simp] theorem throw_bind (e : ε) (f : α → Program C R ε β) : (.throw e >>= f) = .throw e := rfl

@[simp] theorem call_bind (c : C) (k : R c → Program C R ε α) (f : α → Program C R ε β) :
    (.call c k >>= f) = .call c fun r => k r >>= f := rfl

theorem bind_ret (p : Program C R ε α) : (p >>= .ret) = p := by
  induction p with
  | ret a => rfl
  | throw e => rfl
  | call c k ih => exact congrArg (call c) (funext ih)

theorem bind_assoc (p : Program C R ε α) (f : α → Program C R ε β) (g : β → Program C R ε γ) :
    (p >>= f >>= g) = p >>= fun a => f a >>= g := by
  induction p with
  | ret a => rfl
  | throw e => rfl
  | call c k ih => exact congrArg (call c) (funext ih)

instance : LawfulMonad (Program C R ε) := .mk' _ bind_ret (fun _ _ => rfl) bind_assoc

/-- Make one call and return its reply. -/
def perform (c : C) : Program C R ε (R c) := .call c .ret

/-- A computation without calls. -/
def ofExcept : Except ε α → Program C R ε α
  | .ok a => .ret a
  | .error e => .throw e

@[simp] theorem perform_bind (c : C) (f : R c → Program C R ε β) :
    (perform c >>= f) = .call c f := rfl

@[simp] theorem ofExcept_ok (a : α) : (ofExcept (.ok a) : Program C R ε α) = .ret a := rfl

@[simp] theorem ofExcept_error (e : ε) :
    (ofExcept (.error e) : Program C R ε α) = .throw e := rfl

/-- A sequence without calls returns when both its parts do. -/
theorem bind_eq_ok {x : Except ε α} {f : α → Except ε β} :
    (x >>= f) = .ok b ↔ ∃ a, x = .ok a ∧ f a = .ok b := by
  rcases x with e | a
  · refine iff_of_false nofun ?_
    rintro ⟨_, h, _⟩
    cases h
  · constructor
    · exact fun h => ⟨a, rfl, h⟩
    · rintro ⟨_, ha, h⟩
      cases ha
      exact h

/-- A loop without calls raises only what its steps raise. -/
theorem foldlM_error {E : ε → Prop} {f : β → α → Except ε β}
    (hf : ∀ {b a e}, f b a = .error e → E e) {l : List α} (h : l.foldlM f b = .error e) : E e := by
  induction l generalizing b with
  | nil => cases h
  | cons a l ih =>
    rw [List.foldlM_cons] at h
    rcases ha : f b a with e' | b'
    · rw [ha] at h
      cases h
      exact hf ha
    · rw [ha] at h
      exact ih h

theorem forM_eq_ok {f : α → Except ε Unit} {l : List α} (h : ∀ a ∈ l, f a = .ok ()) :
    l.forM f = .ok () := by
  induction l with
  | nil => rfl
  | cons a l ih =>
    rw [List.forall_mem_cons] at h
    rw [List.forM, h.1]
    exact ih h.2

/-- A loop that only checks its items raises for the first one that fails. -/
theorem forM_check {P : α → Prop} {f : α → Except ε Unit} {e : α → ε}
    (hok : ∀ a, P a → f a = .ok ()) (herr : ∀ a, ¬ P a → f a = .error (e a)) (l : List α) :
    (∀ a ∈ l, P a) ∧ l.forM f = .ok () ∨ ∃ a ∈ l, ¬ P a ∧ l.forM f = .error (e a) := by
  induction l with
  | nil => exact .inl ⟨nofun, rfl⟩
  | cons a l ih =>
    rw [List.forM]
    by_cases ha : P a
    · rw [hok a ha]
      rcases ih with ⟨hall, hrun⟩ | ⟨a', ha', hfails, hrun⟩
      · exact .inl ⟨List.forall_mem_cons.mpr ⟨ha, hall⟩, hrun⟩
      · exact .inr ⟨a', List.mem_cons_of_mem _ ha', hfails, hrun⟩
    · rw [herr a ha]
      exact .inr ⟨a, List.mem_cons_self, ha, rfl⟩

/-- A traversal without calls returns what its steps return. -/
theorem mapM_eq_ok {f : α → Except ε β} {l : List α} {l' : List β} :
    l.mapM f = .ok l' ↔ List.Forall₂ (fun a b => f a = .ok b) l l' := by
  induction l generalizing l' with
  | nil => exact ⟨fun h => by cases h; exact .nil, fun h => by cases h; rfl⟩
  | cons a l ih =>
    rw [List.mapM_cons, List.forall₂_cons_left_iff]
    constructor
    · intro h
      rcases ha : f a with e | b <;> rw [ha] at h
      · cases h
      rcases hl : l.mapM f with e | bs <;> rw [hl] at h <;> cases h
      exact ⟨b, bs, rfl, ih.mp hl, rfl⟩
    · rintro ⟨b, bs, ha, hl, rfl⟩
      rw [ha, ih.mpr hl]
      rfl

/-- A traversal without calls returns when every step returns. -/
theorem mapM_ok_iff {f : α → Except ε β} {l : List α} :
    (∃ l', l.mapM f = .ok l') ↔ ∀ a ∈ l, ∃ b, f a = .ok b := by
  induction l with
  | nil => exact iff_of_true ⟨[], rfl⟩ nofun
  | cons a l ih =>
    rw [List.forall_mem_cons, ← ih]
    simp only [mapM_eq_ok, List.forall₂_cons_left_iff]
    constructor
    · rintro ⟨l', b, bs, ha, hl, -⟩
      exact ⟨⟨b, ha⟩, bs, hl⟩
    · rintro ⟨⟨b, ha⟩, bs, hl⟩
      exact ⟨_, b, bs, ha, hl, rfl⟩

/-- What is in a list that a traversal returned came from one of its steps. -/
theorem exists_mem_mapM {f : α → Except ε β} {l : List α} {l' : List β} (h : l.mapM f = .ok l')
    {P : β → Prop} : (∃ b ∈ l', P b) ↔ ∃ a ∈ l, ∃ b, f a = .ok b ∧ P b := by
  induction mapM_eq_ok.mp h with
  | nil => simp
  | @cons a b l l' ha hl ih =>
    simp only [List.exists_mem_cons_iff, ih (mapM_eq_ok.mpr hl), ha, Except.ok.injEq,
      exists_eq_left']

/-! ## Runs -/

/-- Run a program to its end. An exception ends the run and keeps the state as it is. -/
def run (h : Handler C R ε σ) : Program C R ε α → σ → Except ε α × σ
  | .ret a, s => (.ok a, s)
  | .throw e, s => (.error e, s)
  | .call c k, s =>
    match h c s with
    | (.ok r, s') => (k r).run h s'
    | (.error e, s') => (.error e, s')

@[simp] theorem run_ret (h : Handler C R ε σ) (a : α) (s : σ) :
    (ret a : Program C R ε α).run h s = (.ok a, s) := rfl

@[simp] theorem run_throw (h : Handler C R ε σ) (e : ε) (s : σ) :
    (throw e : Program C R ε α).run h s = (.error e, s) := rfl

theorem run_call_ok {h : Handler C R ε σ} (hc : h c s = (.ok r, s'))
    (k : R c → Program C R ε α) : (call c k).run h s = (k r).run h s' := by
  simp only [run, hc]

theorem run_call_error {h : Handler C R ε σ} (hc : h c s = (.error e, s'))
    (k : R c → Program C R ε α) : (call c k).run h s = (.error e, s') := by
  simp only [run, hc]

theorem run_bind (h : Handler C R ε σ) (p : Program C R ε α) (f : α → Program C R ε β) (s : σ) :
    (p >>= f).run h s =
      match p.run h s with
      | (.ok a, s') => (f a).run h s'
      | (.error e, s') => (.error e, s') := by
  induction p generalizing s with
  | ret a => rfl
  | throw e => rfl
  | call c k ih =>
    rw [call_bind]
    rcases hc : h c s with ⟨r | r, s'⟩
    · rw [run_call_error hc, run_call_error hc]
    · rw [run_call_ok hc, run_call_ok hc, ih]

theorem run_bind_ok {h : Handler C R ε σ} {p : Program C R ε α} (hp : p.run h s = (.ok a, s'))
    (f : α → Program C R ε β) : (p >>= f).run h s = (f a).run h s' := by
  rw [run_bind, hp]

/-- A loop whose turns leave the state as it is. -/
theorem run_mapM_forall₂ {h : Handler C R ε σ} {f : β → Program C R ε γ} {P : α → β → Prop}
    {Q : α → γ → Prop} {l : List α} {l' : List β} (hl : List.Forall₂ P l l')
    (hf : ∀ {a b}, P a b → ∃ c, (f b).run h s = (.ok c, s) ∧ Q a c) :
    ∃ cs, (l'.mapM f).run h s = (.ok cs, s) ∧ List.Forall₂ Q l cs := by
  induction hl with
  | nil => exact ⟨[], rfl, .nil⟩
  | cons hab _ ih =>
    obtain ⟨c, hc, hQ⟩ := hf hab
    obtain ⟨cs, hcs, hQs⟩ := ih
    refine ⟨c :: cs, ?_, .cons hQ hQs⟩
    rw [List.mapM_cons, run_bind_ok hc, run_bind_ok hcs]
    rfl

/-- A loop whose turns only read returns what they return. -/
theorem run_mapM_read {h : Handler C R ε σ} {f : β → Program C R ε γ} {l : List β}
    (hf : ∀ b ∈ l, ((f b).run h s).2 = s) :
    (l.mapM f).run h s = (l.mapM fun b => ((f b).run h s).1, s) := by
  induction l with
  | nil => rfl
  | cons b l ih =>
    rw [List.forall_mem_cons] at hf
    rw [List.mapM_cons, List.mapM_cons, run_bind]
    have hb : (f b).run h s = (((f b).run h s).1, s) := Prod.ext rfl hf.1
    rw [hb]
    rcases ((f b).run h s).1 with e | c
    · rfl
    · dsimp only
      rw [run_bind, ih hf.2]
      rcases l.mapM fun b => ((f b).run h s).1 with e | cs <;> rfl

/-- The calls that return in the run of a program, in their order. -/
def log (h : Handler C R ε σ) : Program C R ε α → σ → List C
  | .ret _, _ => []
  | .throw _, _ => []
  | .call c k, s =>
    match h c s with
    | (.ok r, s') => c :: (k r).log h s'
    | (.error _, _) => []

theorem log_call_ok {h : Handler C R ε σ} (hc : h c s = (.ok r, s'))
    (k : R c → Program C R ε α) : (call c k).log h s = c :: (k r).log h s' := by
  simp only [log, hc]

theorem log_call_error {h : Handler C R ε σ} (hc : h c s = (.error e, s'))
    (k : R c → Program C R ε α) : (call c k).log h s = [] := by
  simp only [log, hc]

/-- The calls that are made in the run of a program, in their order; one that raises is the last. -/
def attempts (h : Handler C R ε σ) : Program C R ε α → σ → List C
  | .ret _, _ => []
  | .throw _, _ => []
  | .call c k, s =>
    match h c s with
    | (.ok r, s') => c :: (k r).attempts h s'
    | (.error _, _) => [c]

@[simp] theorem attempts_ret (h : Handler C R ε σ) (a : α) (s : σ) :
    (ret a : Program C R ε α).attempts h s = [] := rfl

@[simp] theorem attempts_throw (h : Handler C R ε σ) (e : ε) (s : σ) :
    (throw e : Program C R ε α).attempts h s = [] := rfl

theorem attempts_call_ok {h : Handler C R ε σ} (hc : h c s = (.ok r, s'))
    (k : R c → Program C R ε α) : (call c k).attempts h s = c :: (k r).attempts h s' := by
  simp only [attempts, hc]

theorem attempts_call_error {h : Handler C R ε σ} (hc : h c s = (.error e, s'))
    (k : R c → Program C R ε α) : (call c k).attempts h s = [c] := by
  simp only [attempts, hc]

theorem attempts_bind (h : Handler C R ε σ) (p : Program C R ε α) (f : α → Program C R ε β)
    (s : σ) : (p >>= f).attempts h s = p.attempts h s ++
      match p.run h s with
      | (.ok a, s') => (f a).attempts h s'
      | (.error _, _) => [] := by
  induction p generalizing s with
  | ret a => rfl
  | throw e => rfl
  | call c k ih =>
    rw [call_bind]
    rcases hc : h c s with ⟨r | r, s'⟩
    · rw [attempts_call_error hc, attempts_call_error hc, run_call_error hc, List.append_nil]
    · rw [attempts_call_ok hc, attempts_call_ok hc, run_call_ok hc, ih, List.cons_append]

/-! ## The calls a program makes -/

/-- Every call of the program satisfies `P`, whatever the replies were. -/
def Uses (P : C → Prop) : Program C R ε α → Prop
  | .ret _ => True
  | .throw _ => True
  | .call c k => P c ∧ ∀ r, (k r).Uses P

namespace Uses

variable {P Q : C → Prop} {p : Program C R ε α}

@[simp] theorem ret (a : α) : (Program.ret a : Program C R ε α).Uses P := trivial

@[simp] theorem throw (e : ε) : (Program.throw e : Program C R ε α).Uses P := trivial

theorem all (p : Program C R ε α) : p.Uses fun _ => True := by
  induction p with
  | ret a => trivial
  | throw e => trivial
  | call c k ih => exact ⟨trivial, ih⟩

theorem mono (hp : p.Uses P) (h : ∀ c, P c → Q c) : p.Uses Q := by
  induction p with
  | ret a => trivial
  | throw e => trivial
  | call c k ih => exact ⟨h c hp.1, fun r => ih r (hp.2 r)⟩

theorem bind {f : α → Program C R ε β} (hp : p.Uses P) (hf : ∀ a, (f a).Uses P) :
    (p >>= f).Uses P := by
  induction p with
  | ret a => exact hf a
  | throw e => trivial
  | call c k ih => exact ⟨hp.1, fun r => ih r (hp.2 r)⟩

theorem ofExcept (x : Except ε α) : (ofExcept x : Program C R ε α).Uses P := by
  cases x <;> trivial

theorem forM {l : List β} {f : β → Program C R ε PUnit} (h : ∀ b ∈ l, (f b).Uses P) :
    (l.forM f).Uses P := by
  induction l with
  | nil => trivial
  | cons b l ih =>
    exact (h b List.mem_cons_self).bind fun _ => ih fun b hb => h b (List.mem_cons_of_mem _ hb)

theorem mapM {l : List β} {f : β → Program C R ε γ} (h : ∀ b ∈ l, (f b).Uses P) :
    (l.mapM f).Uses P := by
  induction l with
  | nil => trivial
  | cons b l ih =>
    rw [List.mapM_cons]
    exact (h b List.mem_cons_self).bind fun _ =>
      (ih fun b hb => h b (List.mem_cons_of_mem _ hb)).bind fun _ => trivial

theorem foldlM {l : List β} {f : γ → β → Program C R ε γ} (h : ∀ b ∈ l, ∀ c, (f c b).Uses P)
    (c : γ) : (l.foldlM f c).Uses P := by
  induction l generalizing c with
  | nil => trivial
  | cons b l ih =>
    refine (h b List.mem_cons_self c).bind fun _ => ?_
    exact ih (fun b hb => h b (List.mem_cons_of_mem _ hb)) _

theorem attempts {h : Handler C R ε σ} (hp : p.Uses P) (s : σ) : ∀ c ∈ p.attempts h s, P c := by
  induction p generalizing s with
  | ret a => exact nofun
  | throw e => exact nofun
  | call c k ih =>
    rcases hc : h c s with ⟨r | r, s'⟩
    · rw [attempts_call_error hc]
      exact fun c' hc' => List.mem_singleton.mp hc' ▸ hp.1
    · rw [attempts_call_ok hc]
      exact fun c' hc' => (List.mem_cons.mp hc').elim (· ▸ hp.1) (ih r (hp.2 r) s' c')

end Uses

namespace Uses

/-- What every call of a program preserves while the calls that return are recorded, the run of
the program preserves. -/
theorem run_log {P : C → Prop} {p : Program C R ε α} {h : Handler C R ε σ}
    {J : List C → σ → Prop} (hp : p.Uses P)
    (hok : ∀ {c r s s' l}, P c → h c s = (.ok r, s') → J l s → J (l ++ [c]) s')
    (herror : ∀ {c e s s' l}, P c → h c s = (.error e, s') → J l s → J l s') (hs : J l s) :
    J (l ++ p.log h s) (p.run h s).2 := by
  induction p generalizing s l with
  | ret a => simpa [log] using hs
  | throw e => simpa [log] using hs
  | call c k ih =>
    rcases hc : h c s with ⟨r | r, s'⟩
    · rw [run_call_error hc, log_call_error hc, List.append_nil]
      exact herror hp.1 hc hs
    · rw [run_call_ok hc, log_call_ok hc, List.append_cons]
      exact ih r (hp.2 r) (hok hp.1 hc hs)

/-- What every call of a program preserves, the run of the program preserves. -/
theorem run {P : C → Prop} {p : Program C R ε α} {h : Handler C R ε σ} {I : σ → Prop}
    (hp : p.Uses P) (hI : ∀ c s, P c → I s → I (h c s).2) (hs : I s) : I (p.run h s).2 :=
  hp.run_log (J := fun _ s => I s) (l := []) (fun hP hc hs => by simpa [hc] using hI _ _ hP hs)
    (fun hP hc hs => by simpa [hc] using hI _ _ hP hs) hs

end Uses

/-- What every call of a program preserves while the calls that are made are recorded, the run of
the program preserves. -/
theorem Uses.run_attempts {P : C → Prop} {p : Program C R ε α} {h : Handler C R ε σ}
    {J : List C → σ → Prop} (hp : p.Uses P)
    (hJ : ∀ {c s l}, P c → J l s → J (l ++ [c]) (h c s).2) (hs : J l s) :
    J (l ++ p.attempts h s) (p.run h s).2 := by
  induction p generalizing s l with
  | ret a => rwa [attempts_ret, List.append_nil]
  | throw e => rwa [attempts_throw, List.append_nil]
  | call c k ih =>
    have hcall := hJ hp.1 hs
    rcases hc : h c s with ⟨r | r, s'⟩ <;> rw [hc] at hcall
    · rwa [run_call_error hc, attempts_call_error hc]
    · rw [run_call_ok hc, attempts_call_ok hc, List.append_cons]
      exact ih r (hp.2 r) hcall

/-- Handlers that answer every call alike, in states that they keep related, run every program
alike. -/
theorem run_simulates {τ : Type} {h : Handler C R ε σ} {h' : Handler C R ε τ} {S : σ → τ → Prop}
    (H : ∀ c s t, S s t → (h c s).1 = (h' c t).1 ∧ S (h c s).2 (h' c t).2)
    (p : Program C R ε α) {s : σ} {t : τ} (hs : S s t) :
    (p.run h s).1 = (p.run h' t).1 ∧ S (p.run h s).2 (p.run h' t).2 ∧
      p.attempts h s = p.attempts h' t := by
  induction p generalizing s t with
  | ret a => exact ⟨rfl, hs, rfl⟩
  | throw e => exact ⟨rfl, hs, rfl⟩
  | call c k ih =>
    obtain ⟨hresult, hstate⟩ := H c s t hs
    rcases hc : h c s with ⟨r | r, s'⟩ <;> rcases hc' : h' c t with ⟨r' | r', t'⟩ <;>
      rw [hc, hc'] at hresult hstate <;> cases hresult
    · rw [run_call_error hc, run_call_error hc', attempts_call_error hc, attempts_call_error hc']
      exact ⟨rfl, hstate, rfl⟩
    · obtain ⟨hr, hs', hcalls⟩ := ih r hstate
      rw [run_call_ok hc, run_call_ok hc', attempts_call_ok hc, attempts_call_ok hc', hcalls]
      exact ⟨hr, hs', rfl⟩

/-- Every exception that the program raises itself satisfies `E`. -/
def Raises (E : ε → Prop) : Program C R ε α → Prop
  | .ret _ => True
  | .throw e => E e
  | .call _ k => ∀ r, (k r).Raises E

namespace Raises

variable {E : ε → Prop} {p : Program C R ε α}

theorem bind {f : α → Program C R ε β} (hp : p.Raises E) (hf : ∀ a, (f a).Raises E) :
    (p >>= f).Raises E := by
  induction p with
  | ret a => exact hf a
  | throw e => exact hp
  | call c k ih => exact fun r => ih r (hp r)

theorem ofExcept {x : Except ε α} (h : ∀ e, x = .error e → E e) :
    (ofExcept x : Program C R ε α).Raises E := by
  cases x with
  | ok a => trivial
  | error e => exact h e rfl

theorem forM {l : List β} {f : β → Program C R ε PUnit} (h : ∀ b ∈ l, (f b).Raises E) :
    (l.forM f).Raises E := by
  induction l with
  | nil => trivial
  | cons b l ih =>
    exact (h b List.mem_cons_self).bind fun _ => ih fun b hb => h b (List.mem_cons_of_mem _ hb)

theorem mapM {l : List β} {f : β → Program C R ε γ} (h : ∀ b ∈ l, (f b).Raises E) :
    (l.mapM f).Raises E := by
  induction l with
  | nil => trivial
  | cons b l ih =>
    rw [List.mapM_cons]
    exact (h b List.mem_cons_self).bind fun _ =>
      (ih fun b hb => h b (List.mem_cons_of_mem _ hb)).bind fun _ => trivial

/-- A run ends with an exception of the program or of the handler. -/
theorem run {h : Handler C R ε σ} (hp : p.Raises E)
    (hE : ∀ {c s e s'}, h c s = (.error e, s') → E e) (hr : p.run h s = (.error e, s')) :
    E e := by
  induction p generalizing s with
  | ret a => cases hr
  | throw e => cases hr; exact hp
  | call c k ih =>
    rcases hc : h c s with ⟨r | r, s₁⟩
    · rw [run_call_error hc] at hr; cases hr; exact hE hc
    · rw [run_call_ok hc] at hr; exact ih r (hp r) hr

end Raises

/-- Every value that the program returns satisfies `P`, whatever the replies were. -/
def Returns (P : α → Prop) : Program C R ε α → Prop
  | .ret a => P a
  | .throw _ => True
  | .call _ k => ∀ r, (k r).Returns P

namespace Returns

variable {P : α → Prop} {p : Program C R ε α}

theorem all (p : Program C R ε α) : p.Returns fun _ => True := by
  induction p with
  | ret a => trivial
  | throw e => trivial
  | call c k ih => exact ih

theorem mono {Q : α → Prop} (hp : p.Returns P) (h : ∀ a, P a → Q a) : p.Returns Q := by
  induction p with
  | ret a => exact h a hp
  | throw e => trivial
  | call c k ih => exact fun r => ih r (hp r)

theorem bind {f : α → Program C R ε β} {Q : β → Prop} (hp : p.Returns P)
    (hf : ∀ a, P a → (f a).Returns Q) : (p >>= f).Returns Q := by
  induction p with
  | ret a => exact hf a hp
  | throw e => trivial
  | call c k ih => exact fun r => ih r (hp r)

theorem mapM {l : List β} {f : β → Program C R ε γ} {P : β → γ → Prop}
    (h : ∀ b, (f b).Returns (P b)) : (l.mapM f).Returns (List.Forall₂ P l) := by
  induction l with
  | nil => exact .nil
  | cons b l ih =>
    rw [List.mapM_cons]
    exact (h b).bind fun c hc => ih.bind fun cs hcs => .cons hc hcs

theorem run {h : Handler C R ε σ} (hp : p.Returns P) (hr : p.run h s = (.ok a, s')) : P a := by
  induction p generalizing s with
  | ret a => cases hr; exact hp
  | throw e => cases hr
  | call c k ih =>
    rcases hc : h c s with ⟨r | r, s₁⟩
    · rw [run_call_error hc] at hr; cases hr
    · rw [run_call_ok hc] at hr; exact ih r (hp r) hr

end Returns

/-- Every run of the program that returns makes the call `c`, whatever the replies were. -/
def Passes (c : C) : Program C R ε α → Prop
  | .ret _ => False
  | .throw _ => True
  | .call c' k => c' = c ∨ ∀ r, (k r).Passes c

namespace Passes

variable {c : C} {p : Program C R ε α}

theorem perform (c : C) (k : R c → Program C R ε α) : (Program.call c k).Passes c := .inl rfl

theorem bind_left (hp : p.Passes c) (f : α → Program C R ε β) : (p >>= f).Passes c := by
  induction p with
  | ret a => exact hp.elim
  | throw e => trivial
  | call c' k ih => exact hp.imp_right fun hk r => ih r (hk r)

theorem bind_right (p : Program C R ε α) {f : α → Program C R ε β} (hf : ∀ a, (f a).Passes c) :
    (p >>= f).Passes c := by
  induction p with
  | ret a => exact hf a
  | throw e => trivial
  | call c' k ih => exact .inr ih

/-- A loop makes the calls of each of its turns. -/
theorem forM {l : List β} {f : β → Program C R ε PUnit} (hb : b ∈ l) (hf : (f b).Passes c) :
    (l.forM f).Passes c := by
  induction l with
  | nil => cases hb
  | cons b' l ih =>
    rcases List.mem_cons.mp hb with rfl | hb
    · exact hf.bind_left _
    · exact bind_right _ fun _ => ih hb

end Passes

/-! ## Conditions on runs -/

/-- From a state of `pre`, a run that returns moves the state along `le` and ends in `post`. -/
def Ensures (h : Handler C R ε σ) (le : σ → σ → Prop) (pre : σ → Prop) (p : Program C R ε α)
    (post : α → σ → Prop) : Prop :=
  ∀ s a s', pre s → p.run h s = (.ok a, s') → le s s' ∧ post a s'

/-- The condition lasts while the state moves along `le`. -/
def Stable (le : σ → σ → Prop) (P : σ → Prop) : Prop := ∀ ⦃s s'⦄, le s s' → P s → P s'

theorem Stable.and {le : σ → σ → Prop} {P Q : σ → Prop} (hP : Stable le P) (hQ : Stable le Q) :
    Stable le fun s => P s ∧ Q s := fun _ _ h => And.imp (hP h) (hQ h)

theorem Stable.all {le : σ → σ → Prop} {P : β → σ → Prop} (h : ∀ b, Stable le (P b)) :
    Stable le fun s => ∀ b, P b s := fun _ _ hle hP b => h b hle (hP b)

theorem Stable.imp {le : σ → σ → Prop} {P : σ → Prop} (φ : Prop) (h : Stable le P) :
    Stable le fun s => φ → P s := fun _ _ hle hP hφ => h hle (hP hφ)

namespace Ensures

variable {h : Handler C R ε σ} {le : σ → σ → Prop} {pre pre' F : σ → Prop}
  {p : Program C R ε α} {post : α → σ → Prop}

theorem mono {post' : α → σ → Prop} (hp : p.Ensures h le pre post) (hpre : ∀ s, pre' s → pre s)
    (hpost : ∀ a s, post a s → post' a s) : p.Ensures h le pre' post' := fun s a s' hs hrun =>
  (hp s a s' (hpre s hs) hrun).imp_right (hpost a s')

/-- What is stable need not be said again. -/
theorem frame (hp : p.Ensures h le pre post) (hF : Stable le F) (hpre : ∀ s, pre s → F s) :
    p.Ensures h le pre fun a s => post a s ∧ F s := fun s a s' hs hrun =>
  have H := hp s a s' hs hrun
  ⟨H.1, H.2, hF H.1 (hpre s hs)⟩

theorem throw {e : ε} : (Program.throw e : Program C R ε α).Ensures h le pre post :=
  fun _ _ _ _ hrun => by cases hrun

variable [IsPreorder σ le]

theorem ret (hpost : ∀ s, pre s → post a s) :
    (Program.ret a : Program C R ε α).Ensures h le pre post := fun s _ _ hs hrun => by
  cases hrun
  exact ⟨refl_of le s, hpost s hs⟩

theorem bind {f : α → Program C R ε β} {post' : β → σ → Prop} (hp : p.Ensures h le pre post)
    (hf : ∀ a, (f a).Ensures h le (post a) post') : (p >>= f).Ensures h le pre post' := by
  intro s b s' hs hrun
  rw [run_bind] at hrun
  rcases hmid : p.run h s with ⟨e | a, s₁⟩ <;> rw [hmid] at hrun
  · cases hrun
  · obtain ⟨hle, hpost⟩ := hp s a s₁ hs hmid
    obtain ⟨hle', hpost'⟩ := hf a s₁ b s' hpost hrun
    exact ⟨trans_of le hle hle', hpost'⟩

/-- Two steps, when what the first establishes is stable. -/
theorem bind_and {f : α → Program C R ε β} {A : σ → Prop} {B : β → σ → Prop}
    (hpre : Stable le pre) (hA : Stable le A) (hp : p.Ensures h le pre fun _ => A)
    (hf : ∀ a, (f a).Ensures h le (fun s => pre s ∧ A s) B) :
    (p >>= f).Ensures h le pre fun b s => A s ∧ B b s := by
  have hp := (hp.frame hpre fun _ => id).mono (fun _ => id) fun _ _ h => h.symm
  exact hp.bind fun a => ((hf a).frame hA fun _ h => h.2).mono (fun _ => id) fun _ _ h => h.symm

/-- A program whose calls all move the state along `le`. -/
theorem of_uses {P : C → Prop} (hp : p.Uses P)
    (hP : ∀ {c s r s'}, P c → h c s = (.ok r, s') → le s s') (hpre : Stable le pre) :
    p.Ensures h le pre fun _ => pre := by
  intro s a s' hs hrun
  have hle : le s s' := by
    clear hs
    induction p generalizing s with
    | ret a => cases hrun; exact refl_of le _
    | throw e => cases hrun
    | call c k ih =>
      rcases hc : h c s with ⟨e | r, s₁⟩
      · rw [run_call_error hc] at hrun
        cases hrun
      · rw [run_call_ok hc] at hrun
        exact trans_of le (hP hp.1 hc) (ih r (hp.2 r) s₁ hrun)
  exact ⟨hle, hpre hle hs⟩

/-- A loop, when what a turn establishes is stable. -/
theorem forM {l : List β} {f : β → Program C R ε PUnit} {Q : β → σ → Prop} (hpre : Stable le pre)
    (hQ : ∀ b, Stable le (Q b)) (hf : ∀ b ∈ l, (f b).Ensures h le pre fun _ => Q b) :
    (l.forM f).Ensures h le pre fun _ s => ∀ b ∈ l, Q b s := by
  induction l with
  | nil => exact ret (by simp)
  | cons b l ih =>
    have ih := ih fun b hb => hf b (List.mem_cons_of_mem _ hb)
    exact (bind_and hpre (hQ b) (hf b List.mem_cons_self) fun _ => ih.mono (fun _ h => h.1)
      fun _ _ => id).mono (fun _ => id) fun _ _ h => List.forall_mem_cons.mpr h

theorem mapM {l : List β} {f : β → Program C R ε γ} {Q : β → γ → σ → Prop} (hpre : Stable le pre)
    (hQ : ∀ b c, Stable le (Q b c)) (hf : ∀ b ∈ l, (f b).Ensures h le pre (Q b)) :
    (l.mapM f).Ensures h le pre fun cs s => List.Forall₂ (fun b c => Q b c s) l cs := by
  induction l with
  | nil => exact ret fun _ _ => .nil
  | cons b l ih =>
    rw [List.mapM_cons]
    refine bind ((hf b List.mem_cons_self).frame hpre fun _ => id) fun c => ?_
    have ih := ih fun b hb => hf b (List.mem_cons_of_mem _ hb)
    have ih : (l.mapM f).Ensures h le (fun s => Q b c s ∧ pre s) fun cs s =>
        List.Forall₂ (fun b c => Q b c s) l cs := ih.mono (fun _ hs => hs.2) fun _ _ => id
    refine bind (ih.frame (hQ b c) fun _ hs => hs.1) fun cs => ?_
    exact ret fun s hs => .cons hs.2 hs.1

end Ensures

/-- From every state of `I` the program returns, with a value of `P` and in a state of `I`. -/
def Succeeds (h : Handler C R ε σ) (I : σ → Prop) (p : Program C R ε α) (P : α → Prop) : Prop :=
  ∀ s, I s → ∃ a s', p.run h s = (.ok a, s') ∧ I s' ∧ P a

namespace Succeeds

variable {h : Handler C R ε σ} {I : σ → Prop} {p : Program C R ε α} {P : α → Prop}

theorem ret (ha : P a) : (Program.ret a : Program C R ε α).Succeeds h I P := fun s hs =>
  ⟨a, s, rfl, hs, ha⟩

theorem ofExcept {x : Except ε α} (hx : ∃ a, x = .ok a ∧ P a) :
    (ofExcept x : Program C R ε α).Succeeds h I P := by
  obtain ⟨a, rfl, ha⟩ := hx
  exact ret ha

theorem bind {f : α → Program C R ε β} {P' : β → Prop} (hp : p.Succeeds h I P)
    (hf : ∀ a, P a → (f a).Succeeds h I P') : (p >>= f).Succeeds h I P' := by
  intro s hs
  obtain ⟨a, s₁, hrun, hs₁, ha⟩ := hp s hs
  rw [run_bind_ok hrun]
  exact hf a ha s₁ hs₁

theorem call {c : C} {k : R c → Program C R ε α} {Q : R c → Prop}
    (hc : ∀ s, I s → ∃ r s', h c s = (.ok r, s') ∧ I s' ∧ Q r)
    (hk : ∀ r, Q r → (k r).Succeeds h I P) : (Program.call c k).Succeeds h I P := by
  intro s hs
  obtain ⟨r, s₁, hreply, hs₁, hr⟩ := hc s hs
  rw [run_call_ok hreply]
  exact hk r hr s₁ hs₁

theorem forM {l : List β} {f : β → Program C R ε PUnit}
    (hf : ∀ b ∈ l, (f b).Succeeds h I fun _ => True) : (l.forM f).Succeeds h I fun _ => True := by
  induction l with
  | nil => exact ret trivial
  | cons b l ih =>
    rw [List.forall_mem_cons] at hf
    exact hf.1.bind fun _ _ => ih hf.2

theorem mapM {l : List β} {f : β → Program C R ε γ}
    (hf : ∀ b ∈ l, (f b).Succeeds h I fun _ => True) : (l.mapM f).Succeeds h I fun _ => True := by
  induction l with
  | nil => exact ret trivial
  | cons b l ih =>
    rw [List.forall_mem_cons] at hf
    rw [List.mapM_cons]
    exact hf.1.bind fun _ _ => (ih hf.2).bind fun _ _ => ret trivial

theorem foldlM {l : List β} {f : γ → β → Program C R ε γ}
    (hf : ∀ b ∈ l, ∀ c, (f c b).Succeeds h I fun _ => True) (c : γ) :
    (l.foldlM f c).Succeeds h I fun _ => True := by
  induction l generalizing c with
  | nil => exact ret trivial
  | cons b l ih =>
    rw [List.forall_mem_cons] at hf
    rw [List.foldlM_cons]
    exact (hf.1 c).bind fun c' _ => ih hf.2 c'

end Succeeds

/-- From every state of `I` the program leaves the state in `I`, also when it raises, and what it
returns is in `P`. -/
def Upholds (h : Handler C R ε σ) (I : σ → Prop) (p : Program C R ε α) (P : α → Prop) : Prop :=
  ∀ s, I s → I (p.run h s).2 ∧ ∀ a, (p.run h s).1 = .ok a → P a

namespace Upholds

variable {h : Handler C R ε σ} {I : σ → Prop} {p : Program C R ε α} {P : α → Prop}

theorem ret (ha : P a) : (Program.ret a : Program C R ε α).Upholds h I P := fun _ hs =>
  ⟨hs, fun _ h => Except.ok.inj h ▸ ha⟩

theorem throw {e : ε} : (Program.throw e : Program C R ε α).Upholds h I P := fun _ hs =>
  ⟨hs, nofun⟩

theorem ofExcept {x : Except ε α} (hx : ∀ a, x = .ok a → P a) :
    (ofExcept x : Program C R ε α).Upholds h I P := by
  rcases x with e | a
  · exact throw
  · exact ret (hx a rfl)

theorem bind {f : α → Program C R ε β} {P' : β → Prop} (hp : p.Upholds h I P)
    (hf : ∀ a, P a → (f a).Upholds h I P') : (p >>= f).Upholds h I P' := by
  intro s hs
  obtain ⟨hI, hP⟩ := hp s hs
  rw [run_bind]
  rcases hrun : p.run h s with ⟨e | a, s₁⟩ <;> rw [hrun] at hI hP
  · exact ⟨hI, nofun⟩
  · exact hf a (hP a rfl) s₁ hI

theorem call {c : C} {k : R c → Program C R ε α} (hc : ∀ s, I s → I (h c s).2)
    (hk : ∀ s r s', h c s = (.ok r, s') → (k r).Upholds h I P) :
    (Program.call c k).Upholds h I P := by
  intro s hs
  have hI := hc s hs
  rcases hreply : h c s with ⟨e | r, s₁⟩ <;> rw [hreply] at hI
  · rw [run_call_error hreply]
    exact ⟨hI, nofun⟩
  · rw [run_call_ok hreply]
    exact hk s r s₁ hreply s₁ hI

theorem mapM {l : List β} {f : β → Program C R ε γ} {P : γ → Prop}
    (hf : ∀ b ∈ l, (f b).Upholds h I P) : (l.mapM f).Upholds h I fun cs => ∀ c ∈ cs, P c := by
  induction l with
  | nil => exact ret nofun
  | cons b l ih =>
    rw [List.forall_mem_cons] at hf
    rw [List.mapM_cons]
    refine hf.1.bind fun c hc => (ih hf.2).bind fun cs hcs => ret ?_
    exact List.forall_mem_cons.mpr ⟨hc, hcs⟩

theorem foldlM {l : List β} {f : γ → β → Program C R ε γ} {P : γ → Prop}
    (hf : ∀ b ∈ l, ∀ c, P c → (f c b).Upholds h I P) (hc : P c) :
    (l.foldlM f c).Upholds h I P := by
  induction l generalizing c with
  | nil => exact ret hc
  | cons b l ih =>
    rw [List.forall_mem_cons] at hf
    rw [List.foldlM_cons]
    exact (hf.1 c hc).bind fun c' hc' => ih hf.2 hc'

end Upholds

/-! ## Executions up to some point -/

/-- `Steps h p s l q s'`: from state `s`, the program makes the calls `l`, none of which raises,
and is then in state `s'` with `q` left to do. -/
inductive Steps (h : Handler C R ε σ) :
    Program C R ε α → σ → List C → Program C R ε α → σ → Prop
  | refl : Steps h p s [] p s
  | call : h c s = (.ok r, s') → Steps h (k r) s' l q s'' → Steps h (.call c k) s (c :: l) q s''

namespace Steps

variable {h : Handler C R ε σ} {p q : Program C R ε α}

theorem run_eq (H : Steps h p s l q s') : p.run h s = q.run h s' := by
  induction H with
  | refl => rfl
  | call hc _ ih => rw [run_call_ok hc, ih]

theorem run_ret (H : Steps h p s l (.ret a) s') : p.run h s = (.ok a, s') := H.run_eq

theorem of_run (H : p.run h s = (.ok a, s')) : ∃ l, Steps h p s l (.ret a) s' := by
  induction p generalizing s with
  | ret b => cases H; exact ⟨[], .refl⟩
  | throw e => cases H
  | call c k ih =>
    rcases hc : h c s with ⟨r | r, s₁⟩
    · rw [run_call_error hc] at H; cases H
    · rw [run_call_ok hc] at H
      obtain ⟨l, hl⟩ := ih r H
      exact ⟨c :: l, .call hc hl⟩

/-- An execution of a sequence is still in its first part, or has finished it. -/
theorem bind_inv {f : α → Program C R ε β} {q : Program C R ε β}
    (H : Steps h (p >>= f) s l q s') :
    (∃ p', q = (p' >>= f) ∧ Steps h p s l p' s') ∨
      ∃ a s₁ l₁ l₂, l = l₁ ++ l₂ ∧ Steps h p s l₁ (.ret a) s₁ ∧ Steps h (f a) s₁ l₂ q s' := by
  induction p generalizing s l with
  | ret a => exact .inr ⟨a, s, [], l, rfl, .refl, H⟩
  | throw e => cases H; exact .inl ⟨.throw e, rfl, .refl⟩
  | call c k ih =>
    rw [call_bind] at H
    cases H with
    | refl => exact .inl ⟨.call c k, rfl, .refl⟩
    | call hc H =>
      rcases ih _ H with ⟨p', hq, H⟩ | ⟨a, s₁, l₁, l₂, rfl, H₁, H₂⟩
      · exact .inl ⟨p', hq, .call hc H⟩
      · exact .inr ⟨a, s₁, c :: l₁, l₂, rfl, .call hc H₁, H₂⟩

theorem bind_ret_inv {f : α → Program C R ε β} (H : Steps h (p >>= f) s l (.ret b) s') :
    ∃ a s₁ l₁ l₂, l = l₁ ++ l₂ ∧ Steps h p s l₁ (.ret a) s₁ ∧ Steps h (f a) s₁ l₂ (.ret b) s' := by
  rcases H.bind_inv with ⟨p', hq, H⟩ | H
  · cases p' with
    | ret a => exact ⟨a, s', l, [], by simp, H, by rw [hq]; exact .refl⟩
    | throw e => cases hq
    | call c k => cases hq
  · exact H

/-- The calls of an execution are those that the run records. -/
theorem log_eq (H : Steps h p s l (.ret a) s') : p.log h s = l := by
  generalize hq : Program.ret a = q at H
  induction H with
  | refl =>
    subst hq
    rfl
  | call hc _ ih => rw [log_call_ok hc, ih hq]

theorem passes (H : Steps h p s l (.ret a) s') (hp : p.Passes c) : c ∈ l := by
  generalize hq : Program.ret a = q at H
  induction H with
  | refl =>
    subst hq
    exact hp.elim
  | call _ _ ih =>
    rcases hp with rfl | hp
    · exact List.mem_cons_self
    · exact List.mem_cons_of_mem _ (ih (hp _) hq)

/-- An execution of a loop consists of its turns. Each of them starts in a state of `I`. -/
theorem mapM_inv {l : List β} {f : β → Program C R ε γ} {I : σ → Prop}
    (hI : ∀ b ∈ l, ∀ {c s L s'}, Steps h (f b) s L (.ret c) s' → I s → I s')
    (H : Steps h (l.mapM f) s L (.ret out) s') (hs : I s) :
    l.length = out.length ∧
      (∀ e ∈ l.zip out, ∃ s L₁ s', I s ∧ Steps h (f e.1) s L₁ (.ret e.2) s' ∧ L₁ ⊆ L) ∧
      ∀ c ∈ L, ∃ e ∈ l.zip out, ∃ s L₁ s', Steps h (f e.1) s L₁ (.ret e.2) s' ∧ c ∈ L₁ := by
  induction l generalizing s L out with
  | nil =>
    cases H
    exact ⟨rfl, nofun, nofun⟩
  | cons b l ih =>
    rw [List.mapM_cons] at H
    obtain ⟨c, s₁, L₁, L', rfl, hb, H⟩ := H.bind_ret_inv
    obtain ⟨rest, s₂, L₂, L₃, rfl, hl, H⟩ := H.bind_ret_inv
    cases H
    obtain ⟨hlength, hturns, hcalls⟩ := ih (fun b hb => hI b (List.mem_cons_of_mem _ hb)) hl
      (hI b List.mem_cons_self hb hs)
    rw [List.append_nil, List.zip_cons_cons]
    refine ⟨congrArg Nat.succ hlength, fun e he => ?_, fun call hcall => ?_⟩
    · rcases List.mem_cons.mp he with rfl | he
      · exact ⟨s, L₁, s₁, hs, hb, List.subset_append_left ..⟩
      · obtain ⟨s, L, s', hs, hsteps, hsub⟩ := hturns e he
        exact ⟨s, L, s', hs, hsteps, fun _ h => List.mem_append_right _ (hsub h)⟩
    · rcases List.mem_append.mp hcall with hcall | hcall
      · exact ⟨(b, c), List.mem_cons_self, s, L₁, s₁, hb, hcall⟩
      · obtain ⟨e, he, hturn⟩ := hcalls call hcall
        exact ⟨e, List.mem_cons_of_mem _ he, hturn⟩

end Steps

/-! ## Fixed replies -/

/-- The calls a program makes and the way it ends when `ρ` replies. -/
def plan (ρ : (c : C) → R c) : Program C R ε α → List C × Except ε α
  | .ret a => ([], .ok a)
  | .throw e => ([], .error e)
  | .call c k => (c :: ((k (ρ c)).plan ρ).1, ((k (ρ c)).plan ρ).2)

theorem Uses.plan {P : C → Prop} {p : Program C R ε α} (hp : p.Uses P) (ρ : (c : C) → R c) :
    ∀ c ∈ (p.plan ρ).1, P c := by
  induction p with
  | ret a => simp [Program.plan]
  | throw e => simp [Program.plan]
  | call c k ih =>
    intro c' hc
    rcases List.mem_cons.mp hc with rfl | hc
    · exact hp.1
    · exact ih _ (hp.2 _) c' hc

theorem Passes.plan {c : C} {p : Program C R ε α} (hp : p.Passes c) (ρ : (c : C) → R c)
    (h : (p.plan ρ).2 = .ok a) : c ∈ (p.plan ρ).1 := by
  induction p with
  | ret b => exact hp.elim
  | throw e => cases h
  | call c' k ih =>
    rcases hp with rfl | hk
    · exact List.mem_cons_self
    · exact List.mem_cons_of_mem _ (ih _ (hk _) h)

/-- In the states of `I`, a call of `P` that returns gets the reply `ρ` gives, and `I` holds
again, also when the call raises. -/
structure Fixed (h : Handler C R ε σ) (ρ : (c : C) → R c) (P : C → Prop) (I : σ → Prop) :
    Prop where
  reply : P c → I s → h c s = (.ok r, s') → r = ρ c
  keeps : P c → I s → h c s = (x, s') → I s'

/-- The state after a list of calls, their replies aside. -/
def effect (h : Handler C R ε σ) (l : List C) (s : σ) : σ := l.foldl (fun s c => (h c s).2) s

@[simp] theorem effect_nil (h : Handler C R ε σ) (s : σ) : effect h [] s = s := rfl

@[simp] theorem effect_cons (h : Handler C R ε σ) (c : C) (l : List C) (s : σ) :
    effect h (c :: l) s = effect h l (h c s).2 := rfl

/-- Each of the calls returns when they are made one after the other. -/
def AllOk (h : Handler C R ε σ) : List C → σ → Prop
  | [], _ => True
  | c :: l, s => (∃ r, (h c s).1 = .ok r) ∧ AllOk h l (h c s).2

namespace Steps

variable {h : Handler C R ε σ} {p q : Program C R ε α}

theorem effect (H : Steps h p s l q s') : s' = effect h l s := by
  induction H with
  | refl => rfl
  | call hc _ ih => rw [ih, effect_cons, hc]

theorem allOk (H : Steps h p s l q s') : AllOk h l s := by
  induction H with
  | refl => trivial
  | call hc _ ih => exact ⟨⟨_, by rw [hc]⟩, by rw [hc]; exact ih⟩

/-- The calls made are calls of the program. -/
theorem uses {P : C → Prop} (H : Steps h p s l q s') (hp : p.Uses P) : ∀ c ∈ l, P c := by
  induction H with
  | refl => simp
  | call _ _ ih =>
    intro c hc
    rcases List.mem_cons.mp hc with rfl | hc
    · exact hp.1
    · exact ih (hp.2 _) c hc

/-- A program whose calls have fixed replies follows its plan. -/
theorem plan (hF : Fixed h ρ P I) (H : Steps h p s l q s') (hp : p.Uses P) (hs : I s) :
    p.plan ρ = (l ++ (q.plan ρ).1, (q.plan ρ).2) ∧ q.Uses P ∧ I s' := by
  induction H with
  | refl => exact ⟨by simp, hp, hs⟩
  | call hc _ ih =>
    obtain ⟨heq, hq, hI⟩ := ih (hp.2 _) (hF.keeps hp.1 hs hc)
    refine ⟨?_, hq, hI⟩
    rw [Program.plan, ← hF.reply hp.1 hs hc, heq]
    rfl

/-- The plan is carried out as long as its calls return. -/
theorem of_plan (hF : Fixed h ρ P I) (hp : p.Uses P) (hs : I s)
    (heq : p.plan ρ = (l, .ok a)) (hok : AllOk h l s) :
    Steps h p s l (.ret a) (Program.effect h l s) := by
  induction p generalizing s l with
  | ret b => cases heq; exact .refl
  | throw e => cases heq
  | call c k ih =>
    simp only [Program.plan, Prod.mk.injEq] at heq
    obtain ⟨rfl, heq⟩ := heq
    obtain ⟨⟨r, hr⟩, hok⟩ := hok
    have hc : h c s = (.ok r, (h c s).2) := Prod.ext hr rfl
    have hρ := hF.reply hp.1 hs hc
    subst hρ
    exact .call hc (ih _ (hp.2 _) (hF.keeps hp.1 hs hc) (Prod.ext rfl heq) hok)

end Steps

/-! ## Interleaved executions -/

/-- `Pool h ps s l qs s'`: the programs `ps` make their calls over one state in the order of `l`,
each call tagged with the number of the program that makes it; `qs` is left to do. A call that
raises ends the program that makes it, and what it did to the state stays. -/
inductive Pool (h : Handler C R ε σ) :
    List (Program C R ε α) → σ → List (Nat × C) → List (Program C R ε α) → σ → Prop
  | refl : Pool h ps s [] ps s
  | call {c : C} {k : R c → Program C R ε α} {r : R c} :
    ps[i]? = some (.call c k) → h c s = (.ok r, s') →
    Pool h (ps.set i (k r)) s' l qs s'' → Pool h ps s ((i, c) :: l) qs s''
  | raise {c : C} {k : R c → Program C R ε α} :
    ps[i]? = some (.call c k) → h c s = (.error e, s') →
    Pool h (ps.set i (.throw e)) s' l qs s'' → Pool h ps s ((i, c) :: l) qs s''

/-- The program has ended with an exception. -/
def Raised (p : Program C R ε α) : Prop := ∃ e, p = .throw e

theorem not_raised_ret (l : List α) : ∀ q ∈ l.map (ret : α → Program C R ε α), ¬ q.Raised := by
  rintro _ hq ⟨e, rfl⟩
  obtain ⟨a, -, ha⟩ := List.mem_map.mp hq
  cases ha

/-- The calls of the `i`-th program in an interleaving. -/
def callsOf (i : Nat) (l : List (Nat × C)) : List C := (l.filter (·.1 = i)).map Prod.snd

theorem callsOf_cons (i : Nat) (e : Nat × C) (l : List (Nat × C)) :
    callsOf i (e :: l) = if e.1 = i then e.2 :: callsOf i l else callsOf i l := by
  by_cases h : e.1 = i <;> simp [callsOf, h]

theorem callsOf_concat (i : Nat) (l : List (Nat × C)) (e : Nat × C) :
    callsOf i (l ++ [e]) = if e.1 = i then callsOf i l ++ [e.2] else callsOf i l := by
  by_cases h : e.1 = i <;> simp [callsOf, h]

theorem callsOf_append (i : Nat) (l l' : List (Nat × C)) :
    callsOf i (l ++ l') = callsOf i l ++ callsOf i l' := by
  simp only [callsOf, List.filter_append, List.map_append]

/-- Leaving out calls leaves them out of each lane. -/
theorem callsOf_filter (p : C → Bool) (i : Nat) (l : List (Nat × C)) :
    callsOf i (l.filter fun e => p e.2) = (callsOf i l).filter p := by
  simp only [callsOf, List.filter_filter, List.filter_map]
  congr 1
  exact List.filter_congr fun e _ => Bool.and_comm ..

theorem mem_callsOf {e : Nat × C} {l : List (Nat × C)} (h : e ∈ l) : e.2 ∈ callsOf e.1 l :=
  List.mem_map.mpr ⟨e, List.mem_filter.mpr ⟨h, by simp⟩, rfl⟩

theorem mem_callsOf_iff {l : List (Nat × C)} : c ∈ callsOf i l ↔ (i, c) ∈ l := by
  simp [callsOf]

/-- Reading calls as something else leaves them in their lanes. -/
theorem callsOf_filterMap (f : C → Option D) (i : Nat) (l : List (Nat × C)) :
    callsOf i (l.filterMap fun e => (f e.2).map (e.1, ·)) = (callsOf i l).filterMap f := by
  induction l with
  | nil => rfl
  | cons e l ih =>
    rw [callsOf_cons]
    rcases hf : f e.2 with _ | d
    · rw [List.filterMap_cons_none (by rw [hf]; rfl), ih]
      split
      · rw [List.filterMap_cons_none hf]
      · rfl
    · rw [List.filterMap_cons_some (by rw [hf]; rfl), callsOf_cons, ih]
      split
      · rw [List.filterMap_cons_some hf]
      · rfl

namespace Pool

variable {h : Handler C R ε σ} {ps qs : List (Program C R ε α)}

theorem effect (H : Pool h ps s l qs s') : s' = effect h (l.map Prod.snd) s := by
  induction H with
  | refl => rfl
  | call _ hc _ ih | raise _ hc _ ih => rw [ih, List.map_cons, effect_cons, hc]

theorem length_eq (H : Pool h ps s l qs s') : qs.length = ps.length := by
  induction H with
  | refl => rfl
  | call _ _ _ ih | raise _ _ _ ih => rw [ih, List.length_set]

/-- A program that has raised makes no more calls. -/
theorem of_throw {i : Nat} (H : Pool h ps s l qs s') (hi : ps[i]? = some (.throw e)) :
    qs[i]? = some (.throw e) := by
  induction H with
  | refl => exact hi
  | call hj _ _ ih | raise hj _ _ ih =>
    apply ih
    rw [List.getElem?_set_ne, hi]
    rintro rfl
    cases hi.symm.trans hj

/-- The program that makes a call that raises ends with the exception. -/
theorem of_raise {e : ε} (H : Pool h (ps.set i (.throw e)) s l qs s') (hi : ps[i]? = some p) :
    qs[i]? = some (.throw e) := by
  apply H.of_throw
  rw [List.getElem?_set_self', hi]
  rfl

/-- When no program has raised, no call has. -/
theorem allOk (H : Pool h ps s l qs s') (hqs : ∀ q ∈ qs, ¬ q.Raised) :
    AllOk h (l.map Prod.snd) s := by
  induction H with
  | refl => trivial
  | call _ hc _ ih => exact ⟨⟨_, by rw [hc]⟩, by rw [hc]; exact ih hqs⟩
  | raise hi _ H _ => exact (hqs _ (List.mem_of_getElem? (H.of_raise hi)) ⟨_, rfl⟩).elim

/-- What holds of all programs and of what becomes of one of them. -/
theorem forall_mem_set {P : Program C R ε α → Prop} (hps : ∀ p ∈ ps, P p) (hq : P q) (i : Nat) :
    ∀ p ∈ ps.set i q, P p := by
  intro p hp
  rcases List.mem_or_eq_of_mem_set hp with hp | rfl
  · exact hps p hp
  · exact hq

theorem uses_set {P : C → Prop} {c : C} {k : R c → Program C R ε α} (hps : ∀ p ∈ ps, p.Uses P)
    (hi : ps[i]? = some (.call c k)) :
    P c ∧ (∀ r, ∀ p ∈ ps.set i (k r), p.Uses P) ∧ ∀ e, ∀ p ∈ ps.set i (.throw e), p.Uses P := by
  have huses := hps _ (List.mem_of_getElem? hi)
  exact ⟨huses.1, fun r => forall_mem_set hps (huses.2 r) i,
    fun e => forall_mem_set hps (.throw e) i⟩

theorem uses {P : C → Prop} (H : Pool h ps s l qs s') (hps : ∀ p ∈ ps, p.Uses P) :
    ∀ e ∈ l, P e.2 := by
  induction H with
  | refl => simp
  | call hi _ _ ih =>
    obtain ⟨hc, hcall, -⟩ := uses_set hps hi
    exact List.forall_mem_cons.mpr ⟨hc, ih (hcall _)⟩
  | raise hi _ _ ih =>
    obtain ⟨hc, -, hraise⟩ := uses_set hps hi
    exact List.forall_mem_cons.mpr ⟨hc, ih (hraise _)⟩

/-- What is left to do makes no other calls. -/
theorem uses_rest {P : C → Prop} (H : Pool h ps s l qs s') (hps : ∀ p ∈ ps, p.Uses P) :
    ∀ q ∈ qs, q.Uses P := by
  induction H with
  | refl => exact hps
  | call hi _ _ ih => exact ih ((uses_set hps hi).2.1 _)
  | raise hi _ _ ih => exact ih ((uses_set hps hi).2.2 _)

/-- A program that has returned has made the calls that it passes. -/
theorem passes {c : C} (H : Pool h ps s l qs s') (hi : ps[i]? = some p) (hp : p.Passes c)
    (hq : qs[i]? = some (.ret a)) : (i, c) ∈ l := by
  induction H generalizing p with
  | refl =>
    cases hi.symm.trans hq
    exact hp.elim
  | @call ps j s s₁ l qs s₂ c' k r hj _ _ ih =>
    by_cases hij : j = i
    · subst hij
      cases hi.symm.trans hj
      rcases hp with rfl | hk
      · exact List.mem_cons_self
      · refine List.mem_cons_of_mem _ (ih ?_ (hk r) hq)
        rw [List.getElem?_set_self', hi]
        rfl
    · refine List.mem_cons_of_mem _ (ih ?_ hp hq)
      rw [List.getElem?_set_ne hij, hi]
  | @raise ps j s s₁ e l qs s₂ c' k hj _ _ ih =>
    by_cases hij : j = i
    · subst hij
      refine List.mem_cons_of_mem _ (ih (p := .throw e) ?_ trivial hq)
      rw [List.getElem?_set_self', hi]
      rfl
    · refine List.mem_cons_of_mem _ (ih ?_ hp hq)
      rw [List.getElem?_set_ne hij, hi]

/-- What every call of a pool preserves while the calls are recorded, an interleaving preserves. -/
theorem keeps {J : List (Nat × C) → List (Program C R ε α) → σ → Prop} (H : Pool h ps s l qs s')
    (hcall : ∀ {l ps s s' i c} {k : R c → Program C R ε α} {r}, ps[i]? = some (.call c k) →
      h c s = (.ok r, s') → J l ps s → J (l ++ [(i, c)]) (ps.set i (k r)) s')
    (hraise : ∀ {l ps s s' i c} {k : R c → Program C R ε α} {e}, ps[i]? = some (.call c k) →
      h c s = (.error e, s') → J l ps s → J (l ++ [(i, c)]) (ps.set i (.throw e)) s')
    (hs : J l₀ ps s) : J (l₀ ++ l) qs s' := by
  induction H generalizing l₀ with
  | refl => rwa [List.append_nil]
  | call hi hc _ ih =>
    rw [List.append_cons]
    exact ih (hcall hi hc hs)
  | raise hi hc _ ih =>
    rw [List.append_cons]
    exact ih (hraise hi hc hs)

/-- An interleaving up to one of its calls, that call, and what comes after it, when the program
that makes the call does not raise. -/
theorem split (H : Pool h ps s (l ++ (i, c) :: l') qs s') (hq : ∀ q ∈ qs[i]?, ¬ q.Raised) :
    ∃ ps₁ s₁ s₂ r, ∃ k : R c → Program C R ε α, Pool h ps s l ps₁ s₁ ∧
      ps₁[i]? = some (.call c k) ∧ h c s₁ = (.ok r, s₂) ∧ Pool h (ps₁.set i (k r)) s₂ l' qs s' := by
  induction l generalizing ps s with
  | nil =>
    cases H with
    | call hi hc H => exact ⟨_, _, _, _, _, .refl, hi, hc, H⟩
    | raise hi _ H => exact (hq _ (H.of_raise hi) ⟨_, rfl⟩).elim
  | cons e l ih =>
    cases H with
    | call hj hc H =>
      obtain ⟨ps₁, s₁, s₂, r, k, H₁, hi, hc', H₂⟩ := ih H
      exact ⟨ps₁, s₁, s₂, r, k, .call hj hc H₁, hi, hc', H₂⟩
    | raise hj hc H =>
      obtain ⟨ps₁, s₁, s₂, r, k, H₁, hi, hc', H₂⟩ := ih H
      exact ⟨ps₁, s₁, s₂, r, k, .raise hj hc H₁, hi, hc', H₂⟩

/-- Only the programs of the pool make calls. -/
theorem callsOf_eq_nil (H : Pool h ps s l qs s') (hi : ps[i]? = none) : callsOf i l = [] := by
  induction H with
  | refl => rfl
  | @call ps j _ _ _ _ _ _ _ _ hj _ _ ih | @raise ps j _ _ _ _ _ _ _ _ hj _ _ ih =>
    have hij : j ≠ i := fun h => by rw [h, hi] at hj; cases hj
    rw [callsOf_cons, if_neg hij]
    exact ih (by rw [List.getElem?_set_ne hij, hi])

/-- Programs whose calls have fixed replies follow their plans in every interleaving, unless they
raise. -/
theorem plan (hF : Fixed h ρ P I) (H : Pool h ps s l qs s') (hps : ∀ p ∈ ps, p.Uses P)
    (hs : I s) (hi : ps[i]? = some p) (hq : qs[i]? = some q) (hraised : ¬ q.Raised) :
    p.plan ρ = (callsOf i l ++ (q.plan ρ).1, (q.plan ρ).2) := by
  induction H generalizing p with
  | refl => rw [hi] at hq; cases hq; simp [callsOf]
  | @call ps j s s₁ l qs s₂ c k r hj hc _ ih =>
    obtain ⟨hP, hcall, -⟩ := uses_set hps hj
    have hI := hF.keeps hP hs hc
    rw [callsOf_cons]
    by_cases hij : j = i
    · subst hij
      rw [hi] at hj; cases hj
      have hset : (ps.set j (k r))[j]? = some (k r) := by
        rw [List.getElem?_set_self' , hi]; rfl
      rw [Program.plan, ← hF.reply hP hs hc, ih (hcall r) hI hset hq, if_pos rfl]
      rfl
    · rw [if_neg hij]
      exact ih (hcall r) hI (by rw [List.getElem?_set_ne hij, hi]) hq
  | @raise ps j s s₁ e l qs s₂ c k hj hc H ih =>
    obtain ⟨hP, -, hraise⟩ := uses_set hps hj
    have hij : j ≠ i := by
      rintro rfl
      cases hq.symm.trans (H.of_raise hj)
      exact hraised ⟨e, rfl⟩
    rw [callsOf_cons, if_neg hij]
    exact ih (hraise e) (hF.keeps hP hs hc) (by rw [List.getElem?_set_ne hij, hi]) hq

end Pool

/-! ## Programs over more calls -/

section lift
variable {C' : Type} {R' : C' → Type} {τ : Type}

/-- Read a program over the calls `C` as one over `C'`, of which they are a part. -/
def lift (f : C → C') (reply : (c : C) → R' (f c) → R c) :
    Program C R ε α → Program C' R' ε α
  | .ret a => .ret a
  | .throw e => .throw e
  | .call c k => .call (f c) fun r => (k (reply c r)).lift f reply

/-- The handler `h'` answers the embedded calls as `h` does on a component of its state. -/
structure Lifting (h : Handler C R ε σ) (h' : Handler C' R' ε τ) (f : C → C')
    (reply : (c : C) → R' (f c) → R c) (get : τ → σ) (put : σ → τ → τ) : Prop where
  get_put : get (put s t) = s
  put_put : put s' (put s t) = put s' t
  put_get : put (get t) t = t
  ok : h c (get t) = (.ok r, s) → ∃ r', h' (f c) t = (.ok r', put s t) ∧ reply c r' = r
  error : h c (get t) = (.error e, s) → h' (f c) t = (.error e, put s t)

variable {h : Handler C R ε σ} {h' : Handler C' R' ε τ} {f : C → C'}
  {reply : (c : C) → R' (f c) → R c} {get : τ → σ} {put : σ → τ → τ}

theorem run_lift (H : Lifting h h' f reply get put) (p : Program C R ε α) (t : τ) :
    (p.lift f reply).run h' t = ((p.run h (get t)).1, put (p.run h (get t)).2 t) := by
  induction p generalizing t with
  | ret a => simp only [lift, run_ret, H.put_get]
  | throw e => simp only [lift, run_throw, H.put_get]
  | call c k ih =>
    rw [lift]
    rcases hc : h c (get t) with ⟨e | r, s⟩
    · rw [run_call_error hc, run_call_error (H.error hc)]
    · obtain ⟨r', hc', rfl⟩ := H.ok hc
      rw [run_call_ok hc, run_call_ok hc', ih, H.get_put, H.put_put]

/-- What a program upholds it upholds when it is read over more calls. -/
theorem Upholds.lift (H : Lifting h h' f reply get put) {p : Program C R ε α} {I : σ → Prop}
    {J : τ → Prop} {P : α → Prop} (hJ : ∀ s t, J t → (I s ↔ J (put s t)))
    (hp : p.Upholds h I P) : (p.lift f reply).Upholds h' J P := by
  intro t ht
  rw [run_lift H]
  have hget : I (get t) := (hJ _ t ht).mpr (H.put_get.symm ▸ ht)
  exact ⟨(hJ _ t ht).mp (hp _ hget).1, (hp _ hget).2⟩

/-- The steps of a program read over more calls are those it makes over its own. -/
theorem Steps.of_lift (H : Lifting h h' f reply get put) {p : Program C R ε α}
    {q' : Program C' R' ε α} (hs : Steps h' (p.lift f reply) t l' q' t') :
    ∃ l q, l' = l.map f ∧ q' = q.lift f reply ∧ Steps h p (get t) l q (get t') ∧
      t' = put (get t') t := by
  induction p generalizing t l' with
  | ret a => cases hs; exact ⟨[], .ret a, rfl, rfl, .refl, H.put_get.symm⟩
  | throw e => cases hs; exact ⟨[], .throw e, rfl, rfl, .refl, H.put_get.symm⟩
  | call c k ih =>
    rw [Program.lift] at hs
    cases hs with
    | refl => exact ⟨[], .call c k, rfl, rfl, .refl, H.put_get.symm⟩
    | call hc' hs =>
      rcases hc : h c (get t) with ⟨e | r, s⟩
      · rw [H.error hc] at hc'
        cases hc'
      · obtain ⟨r', hr', rfl⟩ := H.ok hc
        rw [hr'] at hc'
        cases hc'
        obtain ⟨l, q, rfl, rfl, hsteps, ht⟩ := ih _ hs
        rw [H.get_put] at hsteps
        exact ⟨c :: l, q, rfl, rfl, .call hc hsteps, by rw [ht, H.get_put, H.put_put]⟩

theorem lift_bind (p : Program C R ε α) (g : α → Program C R ε β) :
    (p >>= g).lift f reply = p.lift f reply >>= fun a => (g a).lift f reply := by
  induction p with
  | ret a => rfl
  | throw e => rfl
  | call c k ih => exact congrArg (Program.call (f c)) (funext fun r => ih _)

/-- Conditions on a component hold of the whole state. -/
theorem Ensures.lift (H : Lifting h h' f reply get put) {le : σ → σ → Prop} {pre : σ → Prop}
    {p : Program C R ε α} {post : α → σ → Prop} (hp : p.Ensures h le pre post) :
    (p.lift f reply).Ensures h' (fun t t' => le (get t) (get t')) (fun t => pre (get t))
      fun a t => post a (get t) := by
  intro t a t' ht hrun
  rw [run_lift H, Prod.mk.injEq] at hrun
  obtain ⟨hrun, rfl⟩ := hrun
  simp only [H.get_put]
  exact hp _ _ _ ht (Prod.ext hrun rfl)

/-- What a program does to a component, it does there among more calls. -/
theorem Succeeds.lift (H : Lifting h h' f reply get put) {I : σ → Prop} {p : Program C R ε α}
    {post : α → Prop} (hp : p.Succeeds h I post) :
    (p.lift f reply).Succeeds h' (fun t => I (get t)) post := by
  intro t ht
  obtain ⟨a, s', hrun, hs', ha⟩ := hp _ ht
  refine ⟨a, put s' t, ?_, ?_, ha⟩
  · rw [run_lift H, hrun]
  · change I (get (put s' t))
    rwa [H.get_put]

theorem Uses.lift {P : C → Prop} {Q : C' → Prop} {p : Program C R ε α} (hp : p.Uses P)
    (hPQ : ∀ c, P c → Q (f c)) : (p.lift f reply).Uses Q := by
  induction p with
  | ret a => trivial
  | throw e => trivial
  | call c k ih => exact ⟨hPQ c hp.1, fun r => ih _ (hp.2 _)⟩

theorem Passes.lift {c : C} {p : Program C R ε α} (hp : p.Passes c) :
    (p.lift f reply).Passes (f c) := by
  induction p with
  | ret a => exact hp.elim
  | throw e => trivial
  | call c' k ih =>
    rcases hp with rfl | hk
    · exact .inl rfl
    · exact .inr fun r => ih _ (hk _)

theorem Raises.lift {E : ε → Prop} {p : Program C R ε α} (hp : p.Raises E) :
    (p.lift f reply).Raises E := by
  induction p with
  | ret a => trivial
  | throw e => exact hp
  | call c k ih => exact fun r => ih _ (hp _)

end lift

end Program

end MarginKG
