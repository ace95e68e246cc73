import SentryNative.Envelope.Framing
import SentryNative.Transport.Task

/-!
# What a send counts

The discards of each function of a send, item by item. No two items of an
envelope share a number, so an item is counted at most once by each function.
-/

namespace SentryNative.Transport

open CLib Json

/-- How often an item is counted. -/
def recorded (ds : List Discard) (i : Nat) : Nat := ds.countP (·.item = i)

@[simp] theorem recorded_nil (i : Nat) : recorded [] i = 0 := rfl

@[simp] theorem recorded_cons (d : Discard) (ds : List Discard) (i : Nat) :
    recorded (d :: ds) i = recorded ds i + if d.item = i then 1 else 0 := by
  simp [recorded, List.countP_cons]

section FilterMap

variable {ts : List Tagged} {f : Tagged → Option Discard}

end FilterMap

/-! ## Categories -/

theorem category_congr {a b : Item} (h : a.type = b.type) :
    ratelimiterCategory a = ratelimiterCategory b := by
  simp only [ratelimiterCategory, h]

/-! ## Serializing and discarding -/

section Limits

variable {ts : List Tagged} {rl : RateLimiter} {clock : Nat → Nat}

end Limits

/-! ## Attachments -/

section Resolve

variable (dt : DoubleText) (cfg : Config) (env : Env) (rl : RateLimiter)

/-- The loop ends at this item. -/
def stops (t : Tagged) : Bool :=
  match refStep dt cfg env rl t with
  | .stop _ => true
  | _ => false

/-- The item is removed and nothing is counted for it. -/
def dropsUncounted (t : Tagged) : Bool :=
  match refStep dt cfg env rl t with
  | .drop none => true
  | _ => false

/-- The items that `resolve_attachment_refs` removes without counting them. -/
def uncounted (ts : List Tagged) : List Tagged :=
  (ts.takeWhile fun t => !stops dt cfg env rl t).filter (dropsUncounted dt cfg env rl)

/-- What becomes of an item: it stays, it is counted and removed, or only removed. -/
inductive Fate (ts : List Tagged) (r : Resolved) (t : Tagged) : Prop
  | stays (item : Item) (mem : (t.1, item) ∈ r.items) (type : item.type = t.2.type)
      (zero : recorded r.discards t.1 = 0) (counted : t ∉ uncounted dt cfg env rl ts)
  | counted (gone : t.1 ∉ r.items.map Prod.fst) (one : recorded r.discards t.1 = 1)
      (counted : t ∉ uncounted dt cfg env rl ts)
  | lost (gone : t.1 ∉ r.items.map Prod.fst) (zero : recorded r.discards t.1 = 0)
      (uncounted : t ∈ uncounted dt cfg env rl ts)

variable {dt cfg env rl}

theorem mem_uncounted_cons {t u : Tagged} {ts : List Tagged} :
    u ∈ uncounted dt cfg env rl (t :: ts) ↔ stops dt cfg env rl t = false ∧
      (u = t ∧ dropsUncounted dt cfg env rl t = true ∨ u ∈ uncounted dt cfg env rl ts) := by
  unfold uncounted
  cases hs : stops dt cfg env rl t with
  | true => simp [List.takeWhile_cons, hs]
  | false =>
    by_cases hd : dropsUncounted dt cfg env rl t = true
    · simp [List.takeWhile_cons, hs, hd]
    · simp [List.takeWhile_cons, hs, hd]

/-- A later item fares as it does in the rest of the list. -/
theorem Fate.cons {t u : Tagged} {ts : List Tagged} {r r' : Resolved}
    (h : Fate dt cfg env rl ts r u) (hne : t.1 ≠ u.1)
    (hs : stops dt cfg env rl t = false) (hi : ∀ x, x ∈ r.items → x ∈ r'.items)
    (hi' : u.1 ∈ r'.items.map Prod.fst → u.1 ∈ r.items.map Prod.fst)
    (hr : recorded r'.discards u.1 = recorded r.discards u.1) :
    Fate dt cfg env rl (t :: ts) r' u := by
  have hut : u ≠ t := fun he => hne (he ▸ rfl)
  have hiff : u ∈ uncounted dt cfg env rl (t :: ts) ↔ u ∈ uncounted dt cfg env rl ts := by
    rw [mem_uncounted_cons]
    simp [hs, hut]
  cases h with
  | stays item mem type zero counted =>
    exact .stays item (hi _ mem) type (hr.trans zero) (fun h => counted (hiff.mp h))
  | counted gone one counted =>
    exact .counted (fun h => gone (hi' h)) (hr.trans one) (fun h => counted (hiff.mp h))
  | lost gone zero uncounted => exact .lost (fun h => gone (hi' h)) (hr.trans zero) (hiff.mpr uncounted)

end Resolve

end SentryNative.Transport
