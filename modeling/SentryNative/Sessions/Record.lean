import SentryNative.Utils.Timestamp
import SentryNative.Utils.Uuid
import SentryNative.Value.Extending

/-!
# Session records

`sentry_session_t` and the object that it is written as, in an envelope and in `session.json`, and what is read back
of that object after a restart.

* `fromValue_toValue`: what a restart reads of a session;
* `Session.Ordinary.readBack`: it is the session that was written, up to its duration.
-/

namespace SentryNative.Sessions

open CLib Retry Utils
open Breadcrumb (usecTimeToIso8601)

/-- `sentry_session_status_t`. -/
inductive Status where
  | ok
  | crashed
  | abnormal
  | exited
  deriving DecidableEq, Repr

namespace Status

/-- `status_as_string`. -/
def toText : Status → Bytes
  | ok => ascii "ok"
  | crashed => ascii "crashed"
  | abnormal => ascii "abnormal"
  | exited => ascii "exited"

/-- `status_from_string`. -/
def ofText (s : Bytes) : Status :=
  if s = ascii "ok" then ok
  else if s = ascii "exited" then exited
  else if s = ascii "crashed" then crashed
  else if s = ascii "abnormal" then abnormal
  else ok

theorem ofText_toText (st : Status) : ofText (cstr st.toText) = st := by
  cases st <;> decide

end Status

/-- `sentry_session_t`. The errors are counted one at a time, so their `uint64_t` is a natural number. -/
structure Session where
  release : Bytes
  environment : Option Bytes
  sessionId : Uuid
  distinctId : Value
  init : Bool
  status : Status
  errors : Nat
  startedUs : UInt64
  durationUs : UInt64

/-- `(uint64_t)-1`: the duration of a session that has not been read back. -/
def noDuration : UInt64 := 0xffffffffffffffff

/-- What the code does with doubles: `%g`, the two conversions between microseconds and seconds, the widening of an
`int32_t`, and `NAN`. -/
structure Floats where
  print : UInt64 → Bytes
  seconds : UInt64 → UInt64
  usecs : UInt64 → UInt64
  ofInt32 : Int32 → UInt64
  nan : UInt64

variable (fl : Floats)

/-- `sentry__value_stringify`. -/
def stringify : Value → Bytes
  | .list _ | .object _ | .null => []
  | .bool b => if b then ascii "true" else ascii "false"
  | .string s => cstr s
  | .int64 i => printInt i.toInt
  | .uint64 u => printNat u.toNat
  | .int32 i => printInt i.toInt
  | .double d => if 24 ≤ (fl.print d).length then [] else fl.print d

/-- `sentry_value_as_int32`. -/
def asInt32 : Value → Int32
  | .int32 i => i
  | _ => 0

/-- `sentry_value_as_double`. -/
def asDouble : Value → UInt64
  | .int32 i => fl.ofInt32 i
  | .double d => d
  | _ => fl.nan

/-- `sentry_value_is_true` of a boolean, and of what is not there. -/
def isTrueFlag : Value → Bool
  | .bool b => b
  | _ => false

/-- The scope and the options that a new session reads. -/
structure Scope where
  release : Option Bytes
  environment : Option Bytes
  user : Value
  installationId : Option Bytes

/-- `sentry__session_new`. -/
def sessionNew (scope : Scope) (id : Uuid) (now : UInt64) (allocated : Bool) : Option Session :=
  match scope.release, allocated with
  | some release, true =>
    some ⟨release, scope.environment, id, .null, true, .ok, 0, now, noDuration⟩
  | _, _ => none

/-- `sentry__session_sync_user`. -/
def Session.syncUser (s : Session) (user : Value) (installationId : Option Bytes) : Session :=
  let did := user.getByKey (ascii "id")
  match did.isNull, installationId with
  | true, some id => { s with distinctId := .string id }
  | _, _ => { s with distinctId := did }

/-- A string that may be a null pointer. -/
def stringOrNull : Option Bytes → Value
  | some s => .string s
  | none => .null

/-- The duration that is written: the stored one, or the time since the start. -/
def Session.duration (s : Session) (now : UInt64) : UInt64 :=
  if s.durationUs ≠ noDuration then s.durationUs else now - s.startedUs

/-- `sentry__session_to_json`, as the object it writes. -/
def Session.toValue (s : Session) (now : UInt64) : Value :=
  .object (
    (if s.init then [(ascii "init", .bool true)] else []) ++
    [(ascii "sid", .string s.sessionId.asString), (ascii "status", .string s.status.toText)] ++
    (if s.distinctId.isNull then [] else [(ascii "did", .string (stringify fl s.distinctId))]) ++
    [(ascii "errors", .int32 (Int32.ofNat s.errors)),
      (ascii "started", stringOrNull (usecTimeToIso8601 s.startedUs)),
      (ascii "duration", .double (fl.seconds (s.duration now))),
      (ascii "attrs", .object [(ascii "release", .string s.release),
        (ascii "environment", stringOrNull s.environment)])])

/-- `sentry__session_from_json` of a text that parses to the value; an `int32_t` below zero becomes a large
`uint64_t`. -/
def fromValue (v : Value) : Option Session :=
  if v.isNull then none
  else
    let attrs := v.getByKey (ascii "attrs")
    if attrs.isNull then none
    else
      some
        { release := (attrs.getByKey (ascii "release")).asString
          environment := some (attrs.getByKey (ascii "environment")).asString
          sessionId := uuidFromString (some (v.getByKey (ascii "sid")).asString)
          distinctId := v.getByKey (ascii "did")
          init := isTrueFlag (v.getByKey (ascii "init"))
          status := .ofText (v.getByKey (ascii "status")).asString
          errors := ((asInt32 (v.getByKey (ascii "errors"))).toInt % 2 ^ 64).toNat
          startedUs := iso8601ToUsec (some (v.getByKey (ascii "started")).asString)
          durationUs := fl.usecs (asDouble fl (v.getByKey (ascii "duration"))) }

/-! ## What is read back -/

/-- The session that a restart reads from what was written. -/
def Session.readBack (s : Session) (now : UInt64) : Session :=
  { release := cstr s.release
    environment := some (cstr (s.environment.getD []))
    sessionId := s.sessionId
    distinctId := if s.distinctId.isNull then .null else .string (stringify fl s.distinctId)
    init := s.init
    status := s.status
    errors := ((Int32.ofNat s.errors).toInt % 2 ^ 64).toNat
    startedUs := iso8601ToUsec (usecTimeToIso8601 s.startedUs)
    durationUs := fl.usecs (fl.seconds (s.duration now)) }

theorem uuidFromString_asString (u : Uuid) : uuidFromString (some (cstr u.asString)) = u := by
  have hzero : 0 ∉ u.asString := asString_ne_zero u
  simp only [uuidFromString, cstr_of_not_mem hzero]
  apply uuidFromStringN_printed
  rw [asString_eq]
  exact filter_dashed (hex_flatMap _)

theorem asString_stringOrNull (s : Option Bytes) : (stringOrNull s).asString = cstr (s.getD []) := by
  cases s <;> rfl

theorem iso8601ToUsec_cstr (s : Option Bytes) : iso8601ToUsec (some (cstr (s.getD []))) = iso8601ToUsec s := by
  have htwice : cstr (cstr (s.getD [])) = cstr (s.getD []) := cstr_of_not_mem (zero_not_mem_cstr _)
  simp only [iso8601ToUsec, Option.getD_some, htwice]

/-- The members of a written session that are always there. -/
theorem toValue_members (s : Session) (now : UInt64) :
    (s.toValue fl now).getByKey (ascii "sid") = .string s.sessionId.asString ∧
    (s.toValue fl now).getByKey (ascii "status") = .string s.status.toText ∧
    (s.toValue fl now).getByKey (ascii "errors") = .int32 (Int32.ofNat s.errors) ∧
    (s.toValue fl now).getByKey (ascii "started") = stringOrNull (usecTimeToIso8601 s.startedUs) ∧
    (s.toValue fl now).getByKey (ascii "duration") = .double (fl.seconds (s.duration now)) ∧
    (s.toValue fl now).getByKey (ascii "attrs") =
      .object [(ascii "release", .string s.release), (ascii "environment", stringOrNull s.environment)] := by
  unfold Session.toValue
  cases s.init <;> cases s.distinctId.isNull <;> exact ⟨rfl, rfl, rfl, rfl, rfl, rfl⟩

theorem toValue_init (s : Session) (now : UInt64) :
    isTrueFlag ((s.toValue fl now).getByKey (ascii "init")) = s.init := by
  unfold Session.toValue
  cases s.init <;> cases s.distinctId.isNull <;> rfl

theorem toValue_did (s : Session) (now : UInt64) :
    (s.toValue fl now).getByKey (ascii "did") =
      if s.distinctId.isNull then .null else .string (stringify fl s.distinctId) := by
  unfold Session.toValue
  cases s.init <;> cases s.distinctId.isNull <;> rfl

/-- **What was written is read back**, but for strings cut at a NUL, a start that has no text of four-digit years, an
error count beyond an `int32_t` and the rounding of the duration. -/
theorem fromValue_toValue (s : Session) (now : UInt64) :
    fromValue fl (s.toValue fl now) = some (s.readBack fl now) := by
  obtain ⟨hsid, hstatus, herrors, hstarted, hduration, hattrs⟩ := toValue_members fl s now
  have hnull : (s.toValue fl now).isNull = false := rfl
  have hrelease : ((s.toValue fl now).getByKey (ascii "attrs")).getByKey (ascii "release") = .string s.release := by
    rw [hattrs]
    rfl
  have henvironment : ((s.toValue fl now).getByKey (ascii "attrs")).getByKey (ascii "environment") =
      stringOrNull s.environment := by
    rw [hattrs]
    rfl
  have hsome : ((s.toValue fl now).getByKey (ascii "attrs")).isNull = false := by
    rw [hattrs]
    rfl
  simp only [fromValue, hnull, hsome, Bool.false_eq_true, if_false, hrelease, henvironment, hsid, hstatus, herrors,
    hstarted, hduration, toValue_init, toValue_did, asString_stringOrNull, iso8601ToUsec_cstr]
  simp only [Value.asString, uuidFromString_asString, Status.ofText_toText, asInt32, asDouble, Session.readBack]

/-- A session of C strings, started in a year of four digits, with few enough errors. -/
structure Session.Ordinary (s : Session) : Prop where
  release : 0 ∉ s.release
  environment : ∃ e, s.environment = some e ∧ 0 ∉ e
  started : ∃ t, usecTimeToIso8601 s.startedUs = some t
  year : s.startedUs.toNat / 1000000 < fiveDigits
  errors : s.errors < 2 ^ 31

/-- An ordinary session is read back as it was, its distinct id as text and its duration as written. -/
theorem Session.Ordinary.readBack {s : Session} (h : s.Ordinary) (now : UInt64) :
    s.readBack fl now =
      { s with
        distinctId := if s.distinctId.isNull then .null else .string (stringify fl s.distinctId)
        durationUs := fl.usecs (fl.seconds (s.duration now)) } := by
  obtain ⟨e, he, hzero⟩ := h.environment
  obtain ⟨t, ht⟩ := h.started
  have hstarted : iso8601ToUsec (usecTimeToIso8601 s.startedUs) = s.startedUs := by
    rw [ht, iso8601ToUsec_text ht, if_pos h.year]
  have herrors : ((Int32.ofNat s.errors).toInt % 2 ^ 64).toNat = s.errors := by
    have hlt := h.errors
    rw [Int32.toInt_ofNat_of_lt (by omega)]
    omega
  unfold Session.readBack
  rw [hstarted, herrors, cstr_of_not_mem h.release, he, Option.getD_some, cstr_of_not_mem hzero]

def noFloats : Floats := ⟨fun _ => [], id, id, fun _ => 0, 0⟩

end SentryNative.Sessions
