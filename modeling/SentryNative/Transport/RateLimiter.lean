import Mathlib.Data.List.DropRight
import SentryNative.Value.Tree

/-!
# Rate limits

`sentry_ratelimiter.c` and the slices it reads its headers with. A clock reading
is a number of milliseconds; where a function reads the clock more than once,
the readings are numbered.
-/

namespace SentryNative.Transport

open CLib

/-- `SENTRY_RL_CATEGORY_ANY` and the four after it. -/
inductive RlCategory where
  | any
  | error
  | session
  | transaction
  | replay
  deriving DecidableEq, Repr

/-- `disabled_until`, in milliseconds. -/
abbrev RateLimiter := RlCategory → Nat

/-- `sentry__rate_limiter_new`. -/
def RateLimiter.new : RateLimiter := fun _ => 0

def RateLimiter.set (rl : RateLimiter) (category : RlCategory) (deadline : Nat) : RateLimiter :=
  Function.update rl category deadline

/-- `sentry__rate_limiter_is_disabled`, with the reading of the clock. -/
def RateLimiter.isDisabled (rl : RateLimiter) (category : RlCategory) (now : Nat) : Bool :=
  now < rl .any || now < rl category

/-! ## Slices -/

/-- `is_space` of `sentry_slice.c`. -/
def sliceSpace (c : UInt8) : Bool := c == 32 || c == 9 || c == 13 || c == 10

/-- `sentry__slice_trim`. -/
def sliceTrim (s : Bytes) : Bytes := (s.dropWhile sliceSpace).rdropWhile sliceSpace

/-- `sentry__slice_split_at`. -/
def sliceSplitAt (s : Bytes) (c : UInt8) : Bytes := s.takeWhile (· ≠ c)

/-- `sentry__slice_consume_if`, with whether it did. -/
def sliceConsumeIf (s : Bytes) (c : UInt8) : Bool × Bytes :=
  match s with
  | d :: t => if d = c then (true, t) else (false, s)
  | [] => (false, [])

/-- `sentry__slice_consume_uint64`: what `strtoull` took must hold no minus sign. -/
def sliceConsumeUint64 (s : Bytes) : Option (Nat × Bytes) :=
  let r := strtoull s
  let taken := s.take (s.length - r.rest.length)
  if taken = [] ∨ 45 ∈ taken then none else some (r.value.toNat, r.rest)

/-! ## Updates -/

/-- `MAX_RETRY_AFTER`, in seconds. -/
def maxRetryAfter : Nat := 24 * 60 * 60

/-- `calculate_disabled_until`. -/
def calculateDisabledUntil (now retryAfter : Nat) : Nat := now + min retryAfter maxRetryAfter * 1000

/-- The category a header names; other names are ignored. -/
def headerCategory (s : Bytes) : Option RlCategory :=
  if s = ascii "error" then some .error
  else if s = ascii "session" then some .session
  else if s = ascii "transaction" then some .transaction
  else if s = ascii "replay" then some .replay
  else none

/-- The loop over the categories of one limit. A round takes the name and the
semicolon after it, at least one byte, so the fuel is the number of bytes. -/
def limitCategories (deadline : Nat) : Nat → Bytes → RateLimiter → RateLimiter
  | 0, _, rl => rl
  | _, [], rl => rl
  | fuel + 1, c :: t, rl =>
    let name := sliceSplitAt (c :: t) 59
    let rl := match headerCategory name with
      | some category => rl.set category deadline
      | none => rl
    limitCategories deadline fuel (sliceConsumeIf ((c :: t).drop name.length) 59).2 rl

/-- The loop of `sentry__rate_limiter_update_from_header` over the limits; `k` counts the
readings of the clock. A round takes at least one byte. -/
def updateLimits (clock : Nat → Nat) : Nat → Nat → Bytes → RateLimiter → Bool × RateLimiter
  | 0, _, _, rl => (false, rl)
  | fuel + 1, k, s, rl =>
    match sliceConsumeUint64 (sliceTrim s) with
    | none => (false, rl)
    | some (retryAfter, s) =>
      let deadline := calculateDisabledUntil (clock k) retryAfter
      match sliceConsumeIf s 58 with
      | (false, _) => (false, rl)
      | (true, s) =>
        let categories := sliceSplitAt s 58
        let rl := if categories = [] then rl.set .any deadline
          else limitCategories deadline categories.length categories rl
        match s.dropWhile (· ≠ 44) with
        | _ :: s => updateLimits clock fuel (k + 1) s rl
        | [] => (true, rl)

/-- `sentry__rate_limiter_update_from_header`. -/
def updateFromHeader (clock : Nat → Nat) (header : Bytes) (rl : RateLimiter) : Bool × RateLimiter :=
  updateLimits clock ((cstr header).length + 1) 0 (cstr header) rl

/-- `sentry__rate_limiter_update_from_http_retry_after`. -/
def updateFromHttpRetryAfter (now : Nat) (retryAfter : Bytes) (rl : RateLimiter) : RateLimiter :=
  let eta := match sliceConsumeUint64 (cstr retryAfter) with
    | some (n, _) => n
    | none => 60
  rl.set .any (calculateDisabledUntil now eta)

/-- `sentry__rate_limiter_update_from_429`. -/
def updateFrom429 (now : Nat) (rl : RateLimiter) : RateLimiter := rl.set .any (now + 60 * 1000)

/-! ## The loops end -/

end SentryNative.Transport
