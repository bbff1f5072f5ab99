import MarginKG.Graph.Model
import Mathlib.Algebra.Order.Field.Rat
import Mathlib.Tactic.Linarith
import Mathlib.Tactic.Ring

/-! The rate limiter (`ingestion/ratelimit.py`), in exact rational arithmetic.

The clock and the sleep function are injected: a `Clock` is any world that can be read and slept in
and whose time does not go back. A `Limiter` is a bucket together with the world of its clock. -/

namespace MarginKG

/-- `str` of a float, which belongs to the interpreter. -/
class PyFloat where
  str : ℚ → String

export PyFloat (str)

/-- Floats as fractions, to evaluate the model with. -/
instance (priority := low) fractions : PyFloat := ⟨toString⟩

/-- A bucket refills with `rate` tokens a second, up to `capacity`. -/
structure TokenBucket where
  rate : ℚ
  capacity : ℚ
  tokens : ℚ
  last : ℚ
  rate_pos : 0 < rate

namespace TokenBucket

/-- `__init__`, where `now` is what the clock reads. -/
def init (rate : ℚ) (capacity : Option ℚ) (now : ℚ) : Except PyErr TokenBucket :=
  if h : rate ≤ 0 then .error (.valueError "rate must be positive")
  else .ok {
    rate
    capacity := capacity.getD rate
    tokens := capacity.getD rate
    last := now
    rate_pos := not_le.mp h }

def refill (b : TokenBucket) (now : ℚ) : TokenBucket :=
  let elapsed := now - b.last
  if elapsed > 0 then
    { b with tokens := min b.capacity (b.tokens + elapsed * b.rate), last := now }
  else b

def tryAcquire (b : TokenBucket) (now n : ℚ) : Bool × TokenBucket :=
  let b := b.refill now
  if n ≤ b.tokens then (true, { b with tokens := b.tokens - n }) else (false, b)

@[simp] theorem refill_rate (b : TokenBucket) (now : ℚ) : (b.refill now).rate = b.rate := by
  simp only [refill]
  split <;> rfl

@[simp] theorem refill_capacity (b : TokenBucket) (now : ℚ) :
    (b.refill now).capacity = b.capacity := by
  simp only [refill]
  split <;> rfl

@[simp] theorem tryAcquire_rate (b : TokenBucket) (now n : ℚ) :
    (b.tryAcquire now n).2.rate = b.rate := by
  simp only [tryAcquire]
  split <;> simp

@[simp] theorem tryAcquire_capacity (b : TokenBucket) (now n : ℚ) :
    (b.tryAcquire now n).2.capacity = b.capacity := by
  simp only [tryAcquire]
  split <;> simp

theorem init_last {rate : ℚ} {capacity : Option ℚ} (h : init rate capacity now = .ok b) :
    b.last = now := by
  rw [init] at h
  split at h <;> cases h
  rfl

/-- At a reading that is not before the last one, a refill takes place at that reading. -/
theorem refill_last {b : TokenBucket} (h : b.last ≤ now) : (b.refill now).last = now := by
  simp only [refill]
  split
  · rfl
  · linarith

theorem tryAcquire_last {b : TokenBucket} (h : b.last ≤ now) (n : ℚ) :
    (b.tryAcquire now n).2.last = now := by
  simp only [tryAcquire]
  split <;> exact refill_last h

/-- The tokens after a refill, when no more were there than the bucket holds. -/
theorem refill_tokens {b : TokenBucket} (hb : b.tokens ≤ b.capacity) (h : b.last ≤ now) :
    (b.refill now).tokens = min b.capacity (b.tokens + (now - b.last) * b.rate) := by
  simp only [refill]
  split
  · rfl
  · have hnow : now = b.last := by linarith
    rw [hnow, sub_self, zero_mul, add_zero, min_eq_right hb]

/-- When the bucket can hold `n` tokens, a refill reaches them as soon as the rate allows. -/
theorem le_refill_iff {b : TokenBucket} (hn : n ≤ b.capacity) (h : b.last ≤ now) :
    n ≤ (b.refill now).tokens ↔ n ≤ b.tokens + (now - b.last) * b.rate := by
  simp only [refill]
  split
  · rw [le_min_iff, and_iff_right hn]
  · have hnow : now = b.last := by linarith
    rw [hnow, sub_self, zero_mul, add_zero]

theorem tryAcquire_of_le {b : TokenBucket} (h : n ≤ (b.refill now).tokens) :
    b.tryAcquire now n = (true, { b.refill now with tokens := (b.refill now).tokens - n }) :=
  if_pos h

theorem tryAcquire_of_not_le {b : TokenBucket} (h : ¬ n ≤ (b.refill now).tokens) :
    b.tryAcquire now n = (false, b.refill now) :=
  if_neg h

end TokenBucket

/-! ## Clocks -/

/-- A clock and a sleep function over a world of type `σ`. Time may pass at any moment; it does not
go back, and a sleep takes at least as long as was asked for. -/
structure Clock (σ : Type) where
  read : σ → ℚ × σ
  sleep : ℚ → σ → σ
  /-- A lower bound of what will be read. -/
  time : σ → ℚ
  time_le_read : ∀ w, time w ≤ (read w).1
  read_le_time : ∀ w, (read w).1 ≤ time (read w).2
  sleep_le : ∀ w d, 0 ≤ d → time w + d ≤ time (sleep d w)

/-- The clock that moves by sleeping only. -/
def Clock.still : Clock ℚ where
  read t := (t, t)
  sleep d t := t + d
  time t := t
  time_le_read _ := le_rfl
  read_le_time _ := le_rfl
  sleep_le _ _ _ := le_rfl

/-- A bucket, with the world of its clock as it is now. -/
structure Limiter {σ : Type} (C : Clock σ) where
  bucket : TokenBucket
  world : σ
  last_le : bucket.last ≤ C.time world

namespace Limiter

variable {σ : Type} {C : Clock σ}

/-- `TokenBucket(rate, capacity, clock, sleep)`. -/
def init (C : Clock σ) (rate : ℚ) (capacity : Option ℚ) (w : σ) : Except PyErr (Limiter C) :=
  match h : TokenBucket.init rate capacity (C.read w).1 with
  | .error e => .error e
  | .ok bucket => .ok {
    bucket
    world := (C.read w).2
    last_le := (TokenBucket.init_last h).trans_le (C.read_le_time w) }

/-- What the clock reads. -/
abbrev now (L : Limiter C) : ℚ := (C.read L.world).1

theorem last_le_now (L : Limiter C) : L.bucket.last ≤ L.now :=
  L.last_le.trans (C.time_le_read L.world)

def refill (L : Limiter C) : Limiter C where
  bucket := L.bucket.refill L.now
  world := (C.read L.world).2
  last_le := (TokenBucket.refill_last L.last_le_now).trans_le (C.read_le_time L.world)

def tryAcquire (L : Limiter C) (n : ℚ) : Bool × Limiter C :=
  ((L.bucket.tryAcquire L.now n).1, {
    bucket := (L.bucket.tryAcquire L.now n).2
    world := (C.read L.world).2
    last_le := (TokenBucket.tryAcquire_last L.last_le_now n).trans_le (C.read_le_time L.world) })

def sleep (L : Limiter C) (seconds : ℚ) (h : 0 ≤ seconds) : Limiter C where
  bucket := L.bucket
  world := C.sleep seconds L.world
  last_le := by
    have := C.sleep_le L.world seconds h
    have := L.last_le
    linarith

/-- How long one round of the loop sleeps: long enough for the shortfall to refill. -/
def pause (L : Limiter C) (n : ℚ) : ℚ := max ((n - L.bucket.tokens) / L.bucket.rate) 0

/-- The state after one round of the loop that fails. -/
def retry (L : Limiter C) (n : ℚ) : Limiter C :=
  let L := (L.tryAcquire n).2.refill
  L.sleep (L.pause n) (le_max_right ..)

/-- The tokens are there now. -/
abbrev Covers (L : Limiter C) (n : ℚ) : Prop := n ≤ (L.bucket.refill (C.time L.world)).tokens

/-- What is covered stays so while time passes. -/
theorem Covers.tryAcquire {L : Limiter C} (hn : n ≤ L.bucket.capacity) (h : L.Covers n) :
    n ≤ (L.bucket.refill L.now).tokens := by
  rw [Covers, TokenBucket.le_refill_iff hn L.last_le] at h
  rw [TokenBucket.le_refill_iff hn L.last_le_now]
  have := mul_le_mul_of_nonneg_right (C.time_le_read L.world) L.bucket.rate_pos.le
  linarith

/-- One sleep is enough, however long it takes and whatever time passes around it. -/
theorem covers_retry {L : Limiter C} (hn : n ≤ L.bucket.capacity) : (L.retry n).Covers n := by
  -- the bucket that the loop looks at, and the time it sleeps from
  let L₂ := (L.tryAcquire n).2.refill
  have hlast : L₂.bucket.last ≤ C.time L₂.world := L₂.last_le
  have hcap : n ≤ (L.retry n).bucket.capacity := by
    simpa [retry, sleep, refill, tryAcquire] using hn
  have hpause : n - L₂.bucket.tokens ≤ L₂.pause n * L₂.bucket.rate :=
    (div_le_iff₀ L₂.bucket.rate_pos).mp (le_max_left ..)
  have hslept : C.time L₂.world + L₂.pause n ≤ C.time (L.retry n).world :=
    C.sleep_le L₂.world _ (le_max_right ..)
  rw [Covers, TokenBucket.le_refill_iff hcap (L.retry n).last_le]
  change n ≤ L₂.bucket.tokens + (C.time (L.retry n).world - L₂.bucket.last) * L₂.bucket.rate
  have hlong : L₂.pause n ≤ C.time (L.retry n).world - L₂.bucket.last := by linarith
  have := mul_le_mul_of_nonneg_right hlong L₂.bucket.rate_pos.le
  linarith

theorem retry_capacity (L : Limiter C) (n : ℚ) :
    (L.retry n).bucket.capacity = L.bucket.capacity := by
  simp [retry, sleep, refill, tryAcquire]

/-- The loop of `acquire`, with what it slept. It ends because one sleep is enough. -/
def acquireLoop (n : ℚ) (L : Limiter C) (hn : n ≤ L.bucket.capacity) : List ℚ × Limiter C :=
  if (L.tryAcquire n).1 then ([], (L.tryAcquire n).2)
  else
    let (pauses, L') := acquireLoop n (L.retry n) (L.retry_capacity n ▸ hn)
    ((L.tryAcquire n).2.refill.pause n :: pauses, L')
termination_by if L.Covers n then 0 else 1
decreasing_by
  rename_i h
  have hcovers : ¬ L.Covers n := fun hc => h <| by
    simp only [tryAcquire, TokenBucket.tryAcquire_of_le (hc.tryAcquire hn)]
  rw [if_pos (covers_retry hn), if_neg hcovers]
  exact Nat.zero_lt_one

/-- `acquire`, with what it slept. -/
def acquire [PyFloat] (L : Limiter C) (n : ℚ) : Except PyErr (List ℚ) × Limiter C :=
  if h : n > L.bucket.capacity then
    (.error <| .valueError <| "cannot acquire " ++ str n ++ " tokens; bucket capacity is " ++
      str L.bucket.capacity, L)
  else
    let (pauses, L') := L.acquireLoop n (not_lt.mp h)
    (.ok pauses, L')

end Limiter

end MarginKG
