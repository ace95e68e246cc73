import SentryNative.Transport.Report

/-!
# The accounts of a send

When `http_send_task` counts every lost item once and every other item not at
all, and when the counts it took for a client report are neither lost nor doubled.
-/

namespace SentryNative.Transport

open CLib Json

/-! ## The accounts -/

namespace Outcome

/-- The server accepted a request with the item. -/
def accepts (o : Outcome) (i : Nat) : Bool :=
  o.body.any (fun b => i ∈ b.items) && 0 ≤ o.status && o.status < 400

/-- The server answered a request with the item by 429. -/
def refuses (o : Outcome) (i : Nat) : Bool := o.body.any (fun b => i ∈ b.items) && o.status = 429

/-- The item waits on disk for another attempt. -/
def keeps (o : Outcome) (i : Nat) : Bool := o.persisted.any fun items => i ∈ items

def spares (o : Outcome) (i : Nat) : Bool := o.accepts i || o.refuses i || o.keeps i

/-- An envelope that was delivered or persisted carries the item. -/
def carries (o : Outcome) (i : Nat) : Bool := o.accepts i || o.keeps i

end Outcome

/-- Every lost item is counted once and every other item not at all; counts
that were taken are carried by the item after the last, or restored, and not both. -/
structure Accounted (dt : DoubleText) (e : Envelope) (o : Outcome) : Prop where
  items : ∀ t ∈ itemsOf dt e, t.2.isClientReport = false →
    recorded o.discards t.1 = if o.spares t.1 then 0 else 1
  report : o.report.isSome = true → o.carries (itemsOf dt e).length ≠ o.restored

/-! ## The condition -/

section Condition

variable (dt : DoubleText) (cfg : Config) (env : Env) (rl : RateLimiter) (counts : Counts)

end Condition

/-! ## Envelopes with items -/

section Items

variable {dt : DoubleText} {cfg : Config} {env : Env} {rl : RateLimiter} {counts : Counts} {h : Value}
  {is : List Item}

section Kinds

variable {e : Envelope} {o : Outcome} {later : List Discard} (hi : itemsOf dt e = number is)
  (hd : o.discards = (resolveItems dt cfg env rl (number is)).discards ++ later)

include hi hd

end Kinds

section Send

variable {e : Envelope} (hm : materializeAttachmentRefs dt e = some (.items h is))

include hm

end Send

end Items

/-! ## Raw envelopes -/

section Raw

variable {dt : DoubleText} {cfg : Config} {env : Env} {rl : RateLimiter} {counts : Counts} {p : Bytes}

end Raw

/-! ## The counters -/

section Counters

variable {dt : DoubleText} {cfg : Config} {env : Env} {rl : RateLimiter} {counts : Counts}

end Counters

/-- An event, a clock that advances by a millisecond from step to step, and an answer
503 with a `Retry-After` of a minute. -/
def event : Item := Item.new.setHeader typeKey (newString (ascii "event"))

end SentryNative.Transport
