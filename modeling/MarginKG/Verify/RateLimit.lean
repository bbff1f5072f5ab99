import MarginKG.Ingestion.RateLimit
import Mathlib.Data.List.Infix

/-! What a token bucket admits (`TokenBucket.admits_iff`) and how long it makes a caller wait
(`Limiter.acquire_spec`).

The bucket keeps one balance, cut down to the capacity at every refill. The balance is the minimum
over all instants so far of what the rate has brought since then, with a full bucket to start from,
less what has been granted since then (`TokenBucket.available_iff`). -/

namespace MarginKG

/-- A call of a bucket, at a reading of its clock. `acquire` makes calls of both kinds. -/
inductive BucketCall where
  | refill (now : ℚ)
  | tryAcquire (now n : ℚ)

namespace BucketCall

def now : BucketCall → ℚ
  | refill now => now
  | tryAcquire now _ => now

/-- The tokens that the call asks for. -/
def amount : BucketCall → ℚ
  | refill _ => 0
  | tryAcquire _ n => n

end BucketCall

/-- The outcome of a request: when it was made, and what was granted. -/
structure Grant where
  now : ℚ
  tokens : ℚ

/-- All that was granted. -/
def Grant.total (l : List Grant) : ℚ := (l.map Grant.tokens).sum

@[simp] theorem Grant.total_nil : total [] = 0 := rfl

@[simp] theorem Grant.total_cons (g : Grant) (l : List Grant) :
    total (g :: l) = g.tokens + total l := List.sum_cons

theorem Grant.total_append (l l' : List Grant) : total (l ++ l') = total l + total l' := by
  rw [total, List.map_append, List.sum_append]
  rfl

namespace TokenBucket

/-- The bucket after a call. -/
def call (b : TokenBucket) : BucketCall → TokenBucket
  | .refill now => b.refill now
  | .tryAcquire now n => (b.tryAcquire now n).2

/-- The bucket after some calls. -/
def calls (b : TokenBucket) (cs : List BucketCall) : TokenBucket := cs.foldl call b

/-- What a request is granted. -/
def grant (b : TokenBucket) (now n : ℚ) : Grant :=
  ⟨now, if (b.tryAcquire now n).1 then n else 0⟩

/-- The requests among some calls. -/
def log (b : TokenBucket) : List BucketCall → List Grant
  | [] => []
  | .refill now :: cs => (b.refill now).log cs
  | .tryAcquire now n :: cs => b.grant now n :: (b.tryAcquire now n).2.log cs

/-- The readings of the calls do not go back, and no call is made before `t`. -/
def InOrder (t : ℚ) (cs : List BucketCall) : Prop := (t :: cs.map BucketCall.now).Pairwise (· ≤ ·)

theorem inOrder_nil : InOrder t [] := List.pairwise_singleton ..

theorem inOrder_cons : InOrder t (c :: cs) ↔ t ≤ c.now ∧ InOrder c.now cs := by
  simp only [InOrder, List.map_cons, List.pairwise_cons, List.mem_cons, forall_eq_or_imp]
  constructor
  · rintro ⟨⟨h, -⟩, h', hcs⟩
    exact ⟨h, h', hcs⟩
  · rintro ⟨h, h', hcs⟩
    exact ⟨⟨h, fun a ha => h.trans (h' a ha)⟩, h', hcs⟩

@[simp] theorem call_capacity (b : TokenBucket) (c : BucketCall) :
    (b.call c).capacity = b.capacity := by
  cases c <;> simp [call]

@[simp] theorem call_rate (b : TokenBucket) (c : BucketCall) : (b.call c).rate = b.rate := by
  cases c <;> simp [call]

@[simp] theorem calls_capacity (b : TokenBucket) (cs : List BucketCall) :
    (b.calls cs).capacity = b.capacity := by
  induction cs generalizing b with
  | nil => rfl
  | cons c cs ih =>
    rw [calls, List.foldl_cons, ← calls, ih, call_capacity]

theorem call_last {b : TokenBucket} (h : b.last ≤ c.now) : (b.call c).last = c.now := by
  cases c with
  | refill now => exact refill_last h
  | tryAcquire now n => exact tryAcquire_last h n

@[simp] theorem calls_rate (b : TokenBucket) (cs : List BucketCall) :
    (b.calls cs).rate = b.rate := by
  induction cs generalizing b with
  | nil => rfl
  | cons c cs ih =>
    rw [calls, List.foldl_cons, ← calls, ih, call_rate]

/-- The balance after a call: what was there and what came since, cut down to the capacity, less
what was granted. -/
theorem tryAcquire_tokens {b : TokenBucket} (hb : b.tokens ≤ b.capacity) (h : b.last ≤ now)
    (n : ℚ) :
    (b.tryAcquire now n).2.tokens =
      min b.capacity (b.tokens + (now - b.last) * b.rate) - (b.grant now n).tokens := by
  rw [← refill_tokens hb h, grant]
  by_cases hn : n ≤ (b.refill now).tokens
  · rw [tryAcquire_of_le hn]
    rfl
  · rw [tryAcquire_of_not_le hn]
    exact (sub_zero _).symm

theorem tokens_call_le {b : TokenBucket} (hb : b.tokens ≤ b.capacity) (h : b.last ≤ c.now)
    (hc : 0 ≤ c.amount) : (b.call c).tokens ≤ (b.call c).capacity := by
  rw [call_capacity]
  cases c with
  | refill now =>
    exact (refill_tokens hb h).trans_le (min_le_left ..)
  | tryAcquire now n =>
    refine (tryAcquire_tokens hb h n).trans_le ?_
    have hgrant : 0 ≤ (b.grant now n).tokens := by
      rw [grant]
      split
      · exact hc
      · exact le_rfl
    exact (sub_le_self _ hgrant).trans (min_le_left ..)

/-- A request is never made before the calls that it comes after. -/
theorem le_now_of_mem_log {b : TokenBucket} (h : InOrder t cs) (hg : g ∈ b.log cs) :
    t ≤ g.now := by
  induction cs generalizing b t with
  | nil => cases hg
  | cons c cs ih =>
    obtain ⟨hc, hcs⟩ := inOrder_cons.mp h
    cases c with
    | refill now => exact hc.trans (ih hcs hg)
    | tryAcquire now n =>
      rcases List.mem_cons.mp hg with rfl | hg
      · exact hc
      · exact hc.trans (ih hcs hg)

/-- A window that starts between two requests is covered by those that start at a request. -/
theorem total_add_le {b : TokenBucket} {l : List Grant} (hs : s ≤ t) (hn : n ≤ b.capacity)
    (hlog : ∀ g ∈ l, s ≤ g.now)
    (hwindows : ∀ g post, g :: post <:+ l →
      Grant.total (g :: post) + n ≤ b.capacity + (t - g.now) * b.rate) :
    Grant.total l + n ≤ b.capacity + (t - s) * b.rate := by
  cases l with
  | nil =>
    have := mul_nonneg (sub_nonneg.mpr hs) b.rate_pos.le
    rw [Grant.total_nil]
    linarith
  | cons g post =>
    have := hwindows g post (List.suffix_rfl)
    have := mul_le_mul_of_nonneg_right (hlog g List.mem_cons_self) b.rate_pos.le
    linarith

/-- **The balance is the minimum over all windows**: what the bucket has at `t`, after the calls. -/
theorem available_iff {b : TokenBucket} (hb : b.tokens ≤ b.capacity) (hcs : InOrder b.last cs)
    (ht : ∀ c ∈ cs, c.now ≤ t) (hlast : b.last ≤ t) (hamounts : ∀ c ∈ cs, 0 ≤ c.amount) :
    n ≤ ((b.calls cs).refill t).tokens ↔
      n ≤ b.capacity ∧ Grant.total (b.log cs) + n ≤ b.tokens + (t - b.last) * b.rate ∧
        ∀ g post, g :: post <:+ b.log cs →
          Grant.total (g :: post) + n ≤ b.capacity + (t - g.now) * b.rate := by
  induction cs generalizing b with
  | nil =>
    rw [calls, List.foldl_nil, refill_tokens hb hlast, le_min_iff, log, Grant.total_nil, zero_add]
    refine and_congr_right fun _ => (and_iff_left fun g post h => ?_).symm
    cases List.suffix_nil.mp h
  | cons c cs ih =>
    obtain ⟨hc, hcs⟩ := inOrder_cons.mp hcs
    have hlast' := call_last hc
    have ih := ih (tokens_call_le hb hc (hamounts c List.mem_cons_self)) (hlast'.symm ▸ hcs)
      (fun c hc => ht c (List.mem_cons_of_mem _ hc))
      (hlast'.symm ▸ ht c List.mem_cons_self) fun c hc => hamounts c (List.mem_cons_of_mem _ hc)
    rw [call_capacity, call_rate, hlast'] at ih
    rw [calls, List.foldl_cons, ← calls, ih]
    refine and_congr_right fun hn => ?_
    have hsplit : (t - b.last) * b.rate = (c.now - b.last) * b.rate + (t - c.now) * b.rate := by
      ring
    rw [hsplit]
    cases c with
    | refill now =>
      change Grant.total ((b.refill now).log cs) + n ≤ (b.refill now).tokens + (t - now) * b.rate ∧
        _ ↔ Grant.total ((b.refill now).log cs) + n ≤
          b.tokens + ((now - b.last) * b.rate + (t - now) * b.rate) ∧ _
      have hnow : b.last ≤ now := hc
      rw [refill_tokens hb hnow, ← min_add_add_right, le_min_iff, and_assoc, add_assoc]
      refine ⟨fun h => ⟨h.2.1, h.2.2⟩, fun h => ⟨?_, h⟩⟩
      exact total_add_le (ht _ List.mem_cons_self) hn (fun g hg => le_now_of_mem_log hcs hg) h.2
    | tryAcquire now n' =>
      change Grant.total ((b.tryAcquire now n').2.log cs) + n ≤
          (b.tryAcquire now n').2.tokens + (t - now) * b.rate ∧ _ ↔
        Grant.total (b.grant now n' :: (b.tryAcquire now n').2.log cs) + n ≤
          b.tokens + ((now - b.last) * b.rate + (t - now) * b.rate) ∧ _
      let g := b.grant now n'
      have htokens : (b.tryAcquire now n').2.tokens =
          min b.capacity (b.tokens + (now - b.last) * b.rate) - g.tokens :=
        tryAcquire_tokens hb hc n'
      rw [htokens, Grant.total_cons]
      constructor
      · intro ⟨h, hwindows⟩
        have hcap := min_le_left b.capacity (b.tokens + (now - b.last) * b.rate)
        have hbrought := min_le_right b.capacity (b.tokens + (now - b.last) * b.rate)
        refine ⟨by linarith, fun g' post hsuffix => ?_⟩
        rcases List.suffix_cons_iff.mp hsuffix with heq | hsuffix
        · cases heq
          rw [Grant.total_cons]
          change _ ≤ b.capacity + (t - now) * b.rate
          linarith
        · exact hwindows g' post hsuffix
      · intro ⟨h, hwindows⟩
        have hnow := hwindows g _ List.suffix_rfl
        rw [Grant.total_cons] at hnow
        change _ ≤ b.capacity + (t - now) * b.rate at hnow
        refine ⟨?_, fun g' post hsuffix =>
          hwindows g' post (hsuffix.trans (List.suffix_cons ..))⟩
        have hmin : g.tokens + Grant.total ((b.tryAcquire now n').2.log cs) + n -
            (t - now) * b.rate ≤ min b.capacity (b.tokens + (now - b.last) * b.rate) :=
          le_min (by linarith) (by linarith)
        linarith

theorem tryAcquire_iff {b : TokenBucket} :
    (b.tryAcquire now n).1 = true ↔ n ≤ (b.refill now).tokens := by
  by_cases hn : n ≤ (b.refill now).tokens
  · simp only [tryAcquire_of_le hn, hn]
  · simp only [tryAcquire_of_not_le hn, hn, Bool.false_eq_true]

/-- A refill that does not reach `n` is not cut down. -/
theorem refill_tokens_of_lt {b : TokenBucket} (hn : n ≤ b.capacity) (h : b.last ≤ now)
    (hlt : (b.refill now).tokens < n) :
    (b.refill now).tokens = b.tokens + (now - b.last) * b.rate := by
  apply le_antisymm
  · simp only [refill]
    split
    · exact min_le_right ..
    · have hnow : now = b.last := by linarith
      rw [hnow, sub_self, zero_mul, add_zero]
  · by_contra hgt
    have hbrought := (le_refill_iff hn h).not.mp (not_le.mpr hlt)
    have hcap := le_refill_iff (n := b.tokens + (now - b.last) * b.rate) (by linarith) h
    exact hgt (hcap.mpr le_rfl)

/-- A refill on the way to another one makes no difference. -/
theorem refill_refill {b : TokenBucket} (h : b.last ≤ s) (hst : s ≤ t) :
    (b.refill s).refill t = b.refill t := by
  rcases h.eq_or_lt with rfl | hs
  · have hsame : b.refill b.last = b := by simp [refill]
    rw [hsame]
  · have hfirst : b.refill s =
        { b with tokens := min b.capacity (b.tokens + (s - b.last) * b.rate), last := s } :=
      if_pos (sub_pos.mpr hs)
    have hwhole : b.refill t =
        { b with tokens := min b.capacity (b.tokens + (t - b.last) * b.rate), last := t } :=
      if_pos (sub_pos.mpr (hs.trans_le hst))
    rcases hst.eq_or_lt with rfl | ht
    · rw [hfirst]
      simp [refill]
    · have hmore : 0 ≤ (t - s) * b.rate := mul_nonneg (sub_nonneg.mpr hst) b.rate_pos.le
      have htokens : min b.capacity (min b.capacity (b.tokens + (s - b.last) * b.rate) +
          (t - s) * b.rate) = min b.capacity (b.tokens + (t - b.last) * b.rate) := by
        rw [← min_add_add_right, ← min_assoc, min_eq_left (by linarith : b.capacity ≤ _)]
        congr 1
        ring
      rw [hfirst, hwhole, ← htokens]
      exact if_pos (sub_pos.mpr ht)

/-- The balance lies between nothing and a full bucket. -/
structure Within (b : TokenBucket) : Prop where
  nonneg : 0 ≤ b.tokens
  le_capacity : b.tokens ≤ b.capacity

theorem Within.refill {b : TokenBucket} (hb : b.Within) (h : b.last ≤ now) :
    (b.refill now).Within := by
  constructor
  · rw [refill_tokens hb.le_capacity h]
    have := mul_nonneg (sub_nonneg.mpr h) b.rate_pos.le
    exact le_min (hb.nonneg.trans hb.le_capacity) (add_nonneg hb.nonneg this)
  · rw [refill_tokens hb.le_capacity h, refill_capacity]
    exact min_le_left ..

theorem Within.call {b : TokenBucket} (hb : b.Within) (h : b.last ≤ c.now) (hc : 0 ≤ c.amount) :
    (b.call c).Within := by
  refine ⟨?_, tokens_call_le hb.le_capacity h hc⟩
  cases c with
  | refill now => exact (hb.refill h).nonneg
  | tryAcquire now n =>
    simp only [TokenBucket.call, tryAcquire]
    split
    · exact sub_nonneg.mpr ‹_›
    · exact (hb.refill h).nonneg

theorem Within.calls {b : TokenBucket} (hb : b.Within) (hcs : InOrder b.last cs)
    (hamounts : ∀ c ∈ cs, 0 ≤ c.amount) : (b.calls cs).Within := by
  induction cs generalizing b with
  | nil => exact hb
  | cons c cs ih =>
    obtain ⟨hc, hcs⟩ := inOrder_cons.mp hcs
    refine ih (hb.call hc (hamounts c List.mem_cons_self)) ?_
      fun c hc => hamounts c (List.mem_cons_of_mem _ hc)
    rwa [call_last hc]

/-- What a request is granted was there. -/
theorem Within.grant_le {b : TokenBucket} (hb : b.Within) (h : b.last ≤ now) (n : ℚ) :
    (b.grant now n).tokens ≤ (b.refill now).tokens := by
  by_cases hn : n ≤ (b.refill now).tokens
  · rw [grant, tryAcquire_of_le hn]
    exact hn
  · rw [grant, tryAcquire_of_not_le hn]
    exact (hb.refill h).nonneg

/-- The request behind an entry of the log. -/
theorem log_eq_append {b : TokenBucket} (h : b.log cs = l ++ g :: l') :
    ∃ cs₁ n cs₂, cs = cs₁ ++ .tryAcquire g.now n :: cs₂ ∧ b.log cs₁ = l ∧
      g = (b.calls cs₁).grant g.now n := by
  induction cs generalizing b l with
  | nil => cases l <;> cases h
  | cons c cs ih =>
    cases c with
    | refill now =>
      obtain ⟨cs₁, n, cs₂, rfl, hl, hg⟩ := ih h
      exact ⟨.refill now :: cs₁, n, cs₂, rfl, hl, hg⟩
    | tryAcquire now n =>
      cases l with
      | nil =>
        obtain ⟨rfl, -⟩ := List.cons.inj h
        exact ⟨[], n, cs, rfl, rfl, rfl⟩
      | cons g' l =>
        obtain ⟨hg', h⟩ := List.cons.inj h
        obtain ⟨cs₁, n', cs₂, rfl, hl, hg⟩ := ih h
        refine ⟨.tryAcquire now n :: cs₁, n', cs₂, rfl, ?_, hg⟩
        rw [log, hg', hl]

theorem inOrder_append : InOrder t (cs ++ c :: cs') →
    InOrder t cs ∧ t ≤ c.now ∧ ∀ c' ∈ cs, c'.now ≤ c.now := by
  intro h
  rw [InOrder, List.map_append, List.map_cons, ← List.cons_append, List.pairwise_append] at h
  obtain ⟨hcs, -, hall⟩ := h
  have hle (t' : ℚ) (ht' : t' ∈ t :: cs.map BucketCall.now) : t' ≤ c.now :=
    hall t' ht' _ List.mem_cons_self
  exact ⟨hcs, hle t List.mem_cons_self,
    fun c' hc' => hle _ (List.mem_cons_of_mem _ (List.mem_map_of_mem hc'))⟩

theorem last_calls_le {b : TokenBucket} (hcs : InOrder b.last cs) (hlast : b.last ≤ t)
    (ht : ∀ c ∈ cs, c.now ≤ t) : (b.calls cs).last ≤ t := by
  induction cs generalizing b with
  | nil => exact hlast
  | cons c cs ih =>
    obtain ⟨hc, hcs⟩ := inOrder_cons.mp hcs
    have hlast' := call_last hc
    exact ih (hlast'.symm ▸ hcs) (hlast'.symm ▸ ht c List.mem_cons_self)
      fun c hc => ht c (List.mem_cons_of_mem _ hc)

/-- No window of requests is granted more than the capacity and what the rate brings meanwhile. -/
theorem window_le {b : TokenBucket} (hb : b.Within) (hcs : InOrder b.last cs)
    (hamounts : ∀ c ∈ cs, 0 ≤ c.amount) (hw : w <:+: b.log cs) (h : w ≠ []) :
    Grant.total w ≤ b.capacity + ((w.getLast h).now - (w.head h).now) * b.rate := by
  obtain ⟨w, g, rfl⟩ := (List.eq_nil_or_concat' w).resolve_left h
  obtain ⟨pre, post, hlog⟩ := hw
  rw [List.append_assoc, List.append_assoc, List.singleton_append, ← List.append_assoc] at hlog
  obtain ⟨cs₁, n, cs₂, rfl, hlog₁, hg⟩ := log_eq_append hlog.symm
  obtain ⟨hcs₁, hnow, hcalls⟩ : InOrder b.last cs₁ ∧ b.last ≤ g.now ∧ ∀ c ∈ cs₁, c.now ≤ g.now :=
    inOrder_append hcs
  have hamounts₁ (c) (hc : c ∈ cs₁) := hamounts c (List.mem_append_left _ hc)
  -- what the last request of the window was granted was there at that moment
  have hthere := (hb.calls hcs₁ hamounts₁).grant_le (last_calls_le hcs₁ hnow hcalls) n
  rw [← hg, available_iff hb.le_capacity hcs₁ hcalls hnow hamounts₁, hlog₁] at hthere
  obtain ⟨hfull, -, hwindows⟩ := hthere
  rw [Grant.total_append, Grant.total_cons, Grant.total_nil, add_zero, List.getLast_concat]
  cases w with
  | nil =>
    rw [Grant.total_nil, zero_add]
    change _ ≤ b.capacity + (g.now - g.now) * b.rate
    rwa [sub_self, zero_mul, add_zero]
  | cons g' w => exact hwindows g' w (List.suffix_append pre (g' :: w))

/-- **What a bucket admits.** A request is granted exactly when every window that ends with it
allows it; and no window is ever granted more than the capacity and what the rate brings meanwhile.
The windows start at the construction, at an earlier request or at the request itself. -/
theorem admits_iff {rate t₀ : ℚ} {capacity : Option ℚ} (hinit : init rate capacity t₀ = .ok b)
    (hcap : 0 ≤ capacity.getD rate) (hcs : InOrder t₀ cs) (hamounts : ∀ c ∈ cs, 0 ≤ c.amount) :
    (∀ t n, t₀ ≤ t → (∀ c ∈ cs, c.now ≤ t) → 0 ≤ n →
      (((b.calls cs).tryAcquire t n).1 = true ↔
        n ≤ capacity.getD rate ∧
        Grant.total (b.log cs) + n ≤ capacity.getD rate + rate * (t - t₀) ∧
        ∀ g post, g :: post <:+ b.log cs →
          Grant.total (g :: post) + n ≤ capacity.getD rate + rate * (t - g.now))) ∧
    ∀ w, w <:+: b.log cs → ∀ h : w ≠ [],
      Grant.total w ≤ capacity.getD rate + rate * ((w.getLast h).now - (w.head h).now) := by
  rw [init] at hinit
  split at hinit <;> cases hinit
  rename_i hrate
  let b : TokenBucket := ⟨rate, capacity.getD rate, capacity.getD rate, t₀, not_le.mp hrate⟩
  have hb : b.Within := ⟨hcap, le_rfl⟩
  constructor
  · intro t n ht₀ ht hn
    rw [tryAcquire_iff, available_iff hb.le_capacity hcs ht ht₀ hamounts]
    simp only [mul_comm rate]
    rfl
  · intro w hw h
    rw [mul_comm]
    exact window_le hb hcs hamounts hw h

theorem admits_iff_burst :
    ∃ b, init 1 (some 3) 0 = .ok b ∧
      let cs : List BucketCall := [.tryAcquire 0 1, .refill 0, .tryAcquire 0 2]
      (((b.calls cs).tryAcquire 1 2).1 = true ↔
        2 ≤ (some (3 : ℚ)).getD 1 ∧
        Grant.total (b.log cs) + 2 ≤ (some (3 : ℚ)).getD 1 + 1 * (1 - 0) ∧
        ∀ g post, g :: post <:+ b.log cs →
          Grant.total (g :: post) + 2 ≤ (some (3 : ℚ)).getD 1 + 1 * (1 - g.now)) := by
  obtain ⟨b, hb⟩ : ∃ b, init 1 (some 3) 0 = .ok b := ⟨_, rfl⟩
  have hcs : InOrder 0 [.tryAcquire 0 1, .refill 0, .tryAcquire 0 2] := by
    simp [InOrder, BucketCall.now]
  refine ⟨b, hb, (admits_iff hb (by simp) hcs ?_).1 1 2 zero_le_one ?_ zero_le_two⟩
  · simp [BucketCall.amount]
  · simp [BucketCall.now]

end TokenBucket

/-! ## Waiting -/

/-- The clock moves by sleeping only, and by what was asked for. -/
structure Clock.Exact {σ : Type} (C : Clock σ) : Prop where
  read : ∀ w, C.read w = (C.time w, w)
  sleep : ∀ w d, 0 ≤ d → C.time (C.sleep d w) = C.time w + d

theorem Clock.still_exact : Clock.still.Exact := ⟨fun _ => rfl, fun _ _ _ => rfl⟩

namespace Limiter

variable {σ : Type} {C : Clock σ}

/-- The limiters that requests for no negative amount lead to, while time passes. -/
inductive Reachable [PyFloat] : Limiter C → Prop
  | init : Limiter.init C rate capacity w = .ok L → Reachable L
  | tryAcquire : Reachable L → 0 ≤ n → Reachable (L.tryAcquire n).2
  | acquire : Reachable L → 0 ≤ n → Reachable (L.acquire n).2
  | pass {L L' : Limiter C} : Reachable L → L'.bucket = L.bucket → Reachable L'

/-- The loop of `acquire` ends in its first round or, after one sleep, in its second. -/
theorem acquireLoop_eq {L : Limiter C} (hn : n ≤ L.bucket.capacity) : L.acquireLoop n hn =
    if (L.tryAcquire n).1 then ([], (L.tryAcquire n).2)
    else ([(L.tryAcquire n).2.refill.pause n], ((L.retry n).tryAcquire n).2) := by
  have hcap : n ≤ (L.retry n).bucket.capacity := L.retry_capacity n ▸ hn
  have hretry : ((L.retry n).tryAcquire n).1 = true :=
    TokenBucket.tryAcquire_iff.mpr ((covers_retry hn).tryAcquire hcap)
  rw [acquireLoop]
  split
  · rfl
  · rw [acquireLoop, if_pos hretry]

/-- The calls that `acquire` makes of its bucket. -/
def acquireCalls (L : Limiter C) (n : ℚ) : List BucketCall :=
  if (L.tryAcquire n).1 then [.tryAcquire L.now n]
  else [.tryAcquire L.now n, .refill (L.tryAcquire n).2.now, .tryAcquire (L.retry n).now n]

theorem now_le_now_tryAcquire (L : Limiter C) (n : ℚ) : L.now ≤ (L.tryAcquire n).2.now :=
  (C.read_le_time L.world).trans (C.time_le_read _)

theorem now_le_now_retry (L : Limiter C) (n : ℚ) : (L.tryAcquire n).2.now ≤ (L.retry n).now := by
  let L₂ := (L.tryAcquire n).2.refill
  have hread : (L.tryAcquire n).2.now ≤ C.time L₂.world := C.read_le_time _
  have hslept : C.time L₂.world + L₂.pause n ≤ C.time (L.retry n).world :=
    C.sleep_le L₂.world _ (le_max_right ..)
  have hpause : 0 ≤ L₂.pause n := le_max_right ..
  have hlater : C.time (L.retry n).world ≤ (L.retry n).now := C.time_le_read _
  linarith

theorem acquireCalls_inOrder (L : Limiter C) (n : ℚ) :
    TokenBucket.InOrder L.bucket.last (L.acquireCalls n) := by
  rw [acquireCalls]
  split
  · exact TokenBucket.inOrder_cons.mpr ⟨L.last_le_now, TokenBucket.inOrder_nil⟩
  · refine TokenBucket.inOrder_cons.mpr ⟨L.last_le_now, TokenBucket.inOrder_cons.mpr ⟨?_,
      TokenBucket.inOrder_cons.mpr ⟨?_, TokenBucket.inOrder_nil⟩⟩⟩
    · exact L.now_le_now_tryAcquire n
    · exact L.now_le_now_retry n

theorem acquireCalls_amount (L : Limiter C) (hn : 0 ≤ n) :
    ∀ c ∈ L.acquireCalls n, 0 ≤ c.amount := by
  rw [acquireCalls]
  split <;> simp [BucketCall.amount, hn]

/-- What `acquire` does to the bucket: the calls that it makes, which are granted `n` tokens. -/
theorem acquireLoop_bucket {L : Limiter C} (hn : n ≤ L.bucket.capacity) :
    (L.acquireLoop n hn).2.bucket = L.bucket.calls (L.acquireCalls n) ∧
      Grant.total (L.bucket.log (L.acquireCalls n)) = n := by
  have hcap : n ≤ (L.retry n).bucket.capacity := L.retry_capacity n ▸ hn
  have hretry : ((L.retry n).bucket.tryAcquire (L.retry n).now n).1 = true :=
    TokenBucket.tryAcquire_iff.mpr ((covers_retry hn).tryAcquire hcap)
  rw [acquireLoop_eq, acquireCalls]
  split
  · rename_i hfirst
    have hfirst : (L.bucket.tryAcquire L.now n).1 = true := hfirst
    refine ⟨rfl, ?_⟩
    simp only [TokenBucket.log, TokenBucket.grant, hfirst, if_true, Grant.total_cons,
      Grant.total_nil, add_zero]
  · rename_i hfirst
    have hfirst : ¬ (L.bucket.tryAcquire L.now n).1 = true := hfirst
    refine ⟨rfl, ?_⟩
    change Grant.total [L.bucket.grant L.now n, (L.retry n).bucket.grant (L.retry n).now n] = n
    simp only [TokenBucket.grant, hfirst, hretry, if_true, Grant.total_cons,
      Grant.total_nil, add_zero, zero_add, Bool.false_eq_true, if_false]

/-- What `acquire` leaves: the bucket refilled up to the moment of the grant, less `n` tokens. -/
theorem acquireLoop_balance {L : Limiter C} (hn : n ≤ L.bucket.capacity) :
    ∃ t, C.time L.world ≤ t ∧ t ≤ C.time (L.acquireLoop n hn).2.world ∧
      n ≤ (L.bucket.refill t).tokens ∧ (L.acquireLoop n hn).2.bucket =
        { L.bucket.refill t with tokens := (L.bucket.refill t).tokens - n } := by
  rw [acquireLoop_eq]
  split
  · rename_i hfirst
    have hthere := TokenBucket.tryAcquire_iff.mp hfirst
    refine ⟨L.now, C.time_le_read _, C.read_le_time _, hthere, ?_⟩
    exact congrArg Prod.snd (TokenBucket.tryAcquire_of_le hthere)
  · rename_i hfirst
    have hshort : ¬ n ≤ (L.bucket.refill L.now).tokens := fun hle =>
      hfirst (TokenBucket.tryAcquire_iff.mpr hle)
    have hbucket : (L.retry n).bucket = L.bucket.refill (L.tryAcquire n).2.now := by
      change (L.bucket.tryAcquire L.now n).2.refill (L.tryAcquire n).2.now = _
      rw [TokenBucket.tryAcquire_of_not_le hshort]
      exact TokenBucket.refill_refill L.last_le_now (L.now_le_now_tryAcquire n)
    have hlater := (C.time_le_read L.world).trans (L.now_le_now_tryAcquire n)
    have hrefill : (L.retry n).bucket.refill (L.retry n).now = L.bucket.refill (L.retry n).now := by
      rw [hbucket]
      exact TokenBucket.refill_refill (L.last_le.trans hlater) (L.now_le_now_retry n)
    have hthere := (covers_retry hn).tryAcquire (L.retry_capacity n ▸ hn)
    refine ⟨(L.retry n).now, hlater.trans (L.now_le_now_retry n), C.read_le_time _,
      hrefill ▸ hthere, ?_⟩
    change ((L.retry n).bucket.tryAcquire (L.retry n).now n).2 = _
    rw [TokenBucket.tryAcquire_of_le hthere, hrefill]

theorem acquire_of_le [PyFloat] {L : Limiter C} (hn : n ≤ L.bucket.capacity) :
    L.acquire n = (.ok (L.acquireLoop n hn).1, (L.acquireLoop n hn).2) :=
  dif_neg (not_lt.mpr hn)

theorem acquire_of_lt [PyFloat] {L : Limiter C} (hn : L.bucket.capacity < n) :
    L.acquire n = (.error <| .valueError <| "cannot acquire " ++ str n ++
      " tokens; bucket capacity is " ++ str L.bucket.capacity, L) :=
  dif_pos hn

/-- A balance that can be reached lies between nothing and a full bucket. -/
theorem Reachable.within [PyFloat] {L : Limiter C} (hL : L.Reachable)
    (hcap : 0 ≤ L.bucket.capacity) : L.bucket.Within := by
  induction hL with
  | @init rate capacity w L h =>
    rw [Limiter.init] at h
    split at h <;> cases h
    rename_i bucket hbucket
    rw [TokenBucket.init] at hbucket
    split at hbucket <;> cases hbucket
    exact ⟨hcap, le_rfl⟩
  | @tryAcquire L n _ hn ih =>
    have hcap : 0 ≤ L.bucket.capacity := by simpa [Limiter.tryAcquire] using hcap
    exact (ih hcap).call (c := .tryAcquire L.now n) L.last_le_now hn
  | @acquire L n _ hn ih =>
    rcases lt_or_ge L.bucket.capacity n with hlt | hle
    · rw [acquire_of_lt hlt] at hcap ⊢
      exact ih hcap
    · rw [acquire_of_le hle] at hcap ⊢
      rw [(acquireLoop_bucket hle).1] at hcap ⊢
      rw [TokenBucket.calls_capacity] at hcap
      exact (ih hcap).calls (L.acquireCalls_inOrder n) (L.acquireCalls_amount hn)
  | pass _ hbucket ih =>
    rw [hbucket] at hcap ⊢
    exact ih hcap

section Exact

variable (hC : C.Exact) {L : Limiter C} (hn : n ≤ L.bucket.capacity)
include hC

theorem now_eq (L : Limiter C) : L.now = C.time L.world := by
  rw [now, hC.read]

theorem world_tryAcquire (L : Limiter C) (n : ℚ) : (L.tryAcquire n).2.world = L.world := by
  change (C.read L.world).2 = L.world
  rw [hC.read]

/-- Before its sleep the loop sees what was there when it began. -/
theorem tokens_refill_tryAcquire (h : ¬ (L.tryAcquire n).1 = true) :
    (L.tryAcquire n).2.refill.bucket.tokens =
      (L.bucket.refill (C.time L.world)).tokens := by
  have hle : ¬ n ≤ (L.bucket.refill L.now).tokens := fun hle =>
    h (TokenBucket.tryAcquire_iff.mpr hle)
  have hbucket : (L.tryAcquire n).2.bucket = L.bucket.refill L.now := by
    simp only [tryAcquire, TokenBucket.tryAcquire_of_not_le hle]
  have hnow : (L.tryAcquire n).2.now = L.now := by
    rw [now_eq hC, world_tryAcquire hC, now_eq hC]
  have hlast := TokenBucket.refill_last L.last_le_now
  change ((L.tryAcquire n).2.bucket.refill (L.tryAcquire n).2.now).tokens = _
  rw [hbucket, hnow, ← now_eq hC, TokenBucket.refill, hlast, sub_self]
  exact congrArg TokenBucket.tokens (if_neg (lt_irrefl 0))

theorem time_retry (L : Limiter C) (n : ℚ) :
    C.time (L.retry n).world = C.time L.world + (L.tryAcquire n).2.refill.pause n := by
  have hworld : (L.tryAcquire n).2.refill.world = L.world := by
    change (C.read (L.tryAcquire n).2.world).2 = L.world
    rw [world_tryAcquire hC, hC.read]
  have hpause : 0 ≤ (L.tryAcquire n).2.refill.pause n := le_max_right ..
  change C.time (C.sleep _ (L.tryAcquire n).2.refill.world) = _
  rw [hC.sleep _ _ hpause, hworld]

include hn

/-- What the loop sleeps, and when it is done, on a clock that moves by sleeping only. -/
theorem acquireLoop_time :
    let wait := max 0 (n - (L.bucket.refill (C.time L.world)).tokens) / L.bucket.rate
    (L.acquireLoop n hn).1.sum = wait ∧
      C.time (L.acquireLoop n hn).2.world = C.time L.world + wait := by
  intro wait
  rw [acquireLoop_eq]
  split
  · rename_i hfirst
    have hthere := TokenBucket.tryAcquire_iff.mp hfirst
    rw [now_eq hC] at hthere
    have hwait : wait = 0 := by
      simp only [wait]
      rw [max_eq_left (by linarith), zero_div]
    rw [hwait, add_zero, world_tryAcquire hC]
    exact ⟨rfl, rfl⟩
  · rename_i hfirst
    have hthere : ¬ n ≤ (L.bucket.refill (C.time L.world)).tokens := fun hle =>
      hfirst (TokenBucket.tryAcquire_iff.mpr (now_eq hC L ▸ hle))
    have hpause : (L.tryAcquire n).2.refill.pause n = wait := by
      have hrate : (L.tryAcquire n).2.refill.bucket.rate = L.bucket.rate := by
        simp [refill, tryAcquire]
      simp only [pause, wait, hrate, tokens_refill_tryAcquire hC hfirst]
      rw [max_eq_right (by linarith : 0 ≤ n - (L.bucket.refill (C.time L.world)).tokens)]
      exact max_eq_left (div_nonneg (by linarith) L.bucket.rate_pos.le)
    rw [hpause, world_tryAcquire hC, time_retry hC, hpause]
    exact ⟨List.sum_singleton, rfl⟩

/-- No instant before the one at which the loop is done would do. -/
theorem acquireLoop_least : IsLeast
    {t | C.time L.world ≤ t ∧ (L.bucket.tryAcquire t n).1 = true}
    (C.time (L.acquireLoop n hn).2.world) := by
  have hrate := L.bucket.rate_pos
  let t₀ := C.time L.world
  have hthere (t) (ht : t₀ ≤ t) : (L.bucket.tryAcquire t n).1 = true ↔
      n ≤ L.bucket.tokens + (t - L.bucket.last) * L.bucket.rate := by
    rw [TokenBucket.tryAcquire_iff, TokenBucket.le_refill_iff hn (L.last_le.trans ht)]
  rw [(acquireLoop_time hC hn).2]
  rcases le_or_gt n (L.bucket.refill t₀).tokens with hle | hlt
  · rw [max_eq_left (by linarith), zero_div, add_zero]
    exact ⟨⟨le_rfl, TokenBucket.tryAcquire_iff.mpr hle⟩, fun t ht => ht.1⟩
  · have htokens := TokenBucket.refill_tokens_of_lt hn L.last_le hlt
    have hshort : 0 < n - (L.bucket.refill t₀).tokens := sub_pos.mpr hlt
    rw [max_eq_right hshort.le]
    -- what comes meanwhile is the shortfall
    let wait := (n - (L.bucket.refill t₀).tokens) / L.bucket.rate
    have hwait : 0 < wait := div_pos hshort hrate
    have hbrought : wait * L.bucket.rate = n - (L.bucket.refill t₀).tokens :=
      div_mul_cancel₀ _ hrate.ne'
    have hlater : t₀ ≤ t₀ + wait := by linarith
    constructor
    · refine ⟨hlater, (hthere _ hlater).mpr ?_⟩
      linarith
    · intro t ⟨ht, hsucceeds⟩
      have := (hthere t ht).mp hsucceeds
      have hmul : wait * L.bucket.rate ≤ (t - t₀) * L.bucket.rate := by linarith
      have := le_of_mul_le_mul_right hmul hrate
      linarith

end Exact

/-- **`acquire` waits once, and no longer than needed.** It takes the tokens it asks for: at some
moment `t` of the call the bucket, refilled up to `t`, has them, and what is left is that bucket
less `n` tokens. The balance lies between nothing and a full bucket; a request for more than the
bucket holds changes nothing. -/
theorem acquire_spec [PyFloat] {L : Limiter C} (hL : L.Reachable) (hn : 0 ≤ n) :
    (n ≤ L.bucket.capacity → ∃ pauses L', L.acquire n = (.ok pauses, L') ∧
      pauses.length ≤ 1 ∧
      (∃ t, C.time L.world ≤ t ∧ t ≤ C.time L'.world ∧ n ≤ (L.bucket.refill t).tokens ∧
        L'.bucket = { L.bucket.refill t with tokens := (L.bucket.refill t).tokens - n }) ∧
      (TokenBucket.InOrder L.bucket.last (L.acquireCalls n) ∧
        L'.bucket = L.bucket.calls (L.acquireCalls n) ∧
        Grant.total (L.bucket.log (L.acquireCalls n)) = n) ∧
      0 ≤ L'.bucket.tokens ∧ L'.bucket.tokens ≤ L.bucket.capacity ∧
      (C.Exact →
        pauses.sum = max 0 (n - (L.bucket.refill (C.time L.world)).tokens) / L.bucket.rate ∧
        C.time L'.world = C.time L.world + pauses.sum ∧
        IsLeast {t | C.time L.world ≤ t ∧ (L.bucket.tryAcquire t n).1 = true}
          (C.time L'.world))) ∧
    (L.bucket.capacity < n → ∃ message, L.acquire n = (.error (.valueError message), L)) := by
  constructor
  · intro hle
    obtain ⟨hbucket, htotal⟩ := acquireLoop_bucket hle
    have hwithin : (L.acquireLoop n hle).2.bucket.Within := by
      have := (hL.within (hn.trans hle)).calls (L.acquireCalls_inOrder n) (L.acquireCalls_amount hn)
      rwa [← hbucket] at this
    have hcap : (L.acquireLoop n hle).2.bucket.capacity = L.bucket.capacity := by
      rw [hbucket, TokenBucket.calls_capacity]
    refine ⟨_, _, acquire_of_le hle, ?_, acquireLoop_balance hle,
      ⟨L.acquireCalls_inOrder n, hbucket, htotal⟩, hwithin.nonneg, hcap ▸ hwithin.le_capacity,
      fun hC => ?_⟩
    · rw [acquireLoop_eq]
      split
      · exact Nat.zero_le 1
      · exact le_rfl
    · obtain ⟨hsum, htime⟩ := acquireLoop_time hC hle
      exact ⟨hsum, hsum ▸ htime, acquireLoop_least hC hle⟩
  · intro hlt
    exact ⟨_, acquire_of_lt hlt⟩

/-- A bucket of three tokens that was emptied at once gives two of them after two seconds, and has
nothing left. -/
theorem acquire_spec_emptied :
    let full : Limiter Clock.still := ⟨⟨1, 3, 3, 0, zero_lt_one⟩, 0, le_rfl⟩
    let L := (full.tryAcquire 3).2
    ∃ pauses L', L.acquire 2 = (.ok pauses, L') ∧ pauses.length ≤ 1 ∧ pauses.sum = 2 ∧
      L'.bucket.tokens = 0 ∧
      IsLeast {t | 0 ≤ t ∧ (L.bucket.tryAcquire t 2).1 = true} L'.world := by
  intro full L
  have hfull : init Clock.still 1 (some 3) 0 = .ok full := rfl
  have hL : L.Reachable := (Reachable.init hfull).tryAcquire zero_le_three
  have hbucket : L.bucket = ⟨1, 3, 0, 0, zero_lt_one⟩ := by
    simp [L, full, tryAcquire, TokenBucket.tryAcquire, TokenBucket.refill, now, Clock.still]
  have hcap : 2 ≤ L.bucket.capacity := by
    rw [hbucket]
    norm_num
  obtain ⟨pauses, L', h, hlength, ⟨t, hafter, hbefore, henough, htaken⟩, -, -, -, hexact⟩ :=
    (acquire_spec hL zero_le_two).1 hcap
  obtain ⟨hsum, htime, hleast⟩ := hexact Clock.still_exact
  have htwo : pauses.sum = 2 := by
    rw [hsum, hbucket]
    norm_num [TokenBucket.refill, L, full, tryAcquire, Clock.still]
  -- the grant is made when the sleep is over
  have hends : t ≤ 2 := by
    rw [htime, htwo] at hbefore
    exact hbefore.trans_eq (by norm_num [L, full, tryAcquire, Clock.still])
  have hstart : 0 ≤ t := hafter
  rw [hbucket] at henough htaken
  rw [TokenBucket.refill_tokens zero_le_three hstart] at henough htaken
  refine ⟨pauses, L', h, hlength, htwo, ?_, hleast⟩
  have hbrought := henough.trans (min_le_right ..)
  have hmost := min_le_right (3 : ℚ) (0 + (t - 0) * 1)
  rw [htaken]
  dsimp only at henough hbrought ⊢
  linarith

end Limiter

end MarginKG
