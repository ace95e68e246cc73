import SentryNative.Transport.Send

/-!
# The writers of an envelope

An envelope is written in three ways: object by object over a string builder,
through one JSON writer over a file, and with some of its items left out. No
write fails, except that the file of a minidump may not be written.
-/

namespace SentryNative

open CLib Json

/-! ## What a writer has behind it does not matter -/

namespace Json

open JsonWriter

/-- `sentry__jsonwriter_reset`. -/
def JsonWriter.reset (jw : JsonWriter) : JsonWriter :=
  { jw with wantComma := 0, depth := 0, lastWasKey := false }

/-- A new writer over a builder or a file with some text in it. -/
def JsonWriter.onto (text : Bytes) : JsonWriter := { JsonWriter.new with out := text }

/-- The writer with more text before its own. -/
def JsonWriter.after (jw : JsonWriter) (text : Bytes) : JsonWriter := { jw with out := text ++ jw.out }

section After

variable (jw : JsonWriter) (text : Bytes)

theorem atMaxDepth_after : (jw.after text).atMaxDepth = jw.atMaxDepth := rfl

theorem write_after (more : Bytes) : (jw.after text).write more = (jw.write more).after text := by
  simp [JsonWriter.write, JsonWriter.after, List.append_assoc]

theorem setComma_after (val : Bool) : (jw.after text).setComma val = (jw.setComma val).after text := by
  unfold setComma
  rw [atMaxDepth_after]
  split
  · rfl
  · split <;> rfl

theorem canWriteItem_after :
    (jw.after text).canWriteItem = (jw.canWriteItem.1, jw.canWriteItem.2.after text) := by
  have hk : (jw.after text).lastWasKey = jw.lastWasKey := rfl
  have hc : (jw.after text).wantComma >>> (jw.after text).depth = jw.wantComma >>> jw.depth := rfl
  unfold canWriteItem writeChar
  rw [atMaxDepth_after, setComma_after, write_after, hk, hc]
  split
  · rfl
  · split
    · rfl
    · split <;> rfl

theorem writeItem_after (item : Bytes) :
    (jw.after text).writeItem item = (jw.writeItem item).after text := by
  unfold writeItem
  rw [canWriteItem_after]
  rcases jw.canWriteItem with ⟨b, jw'⟩
  cases b with
  | true => exact write_after jw' text item
  | false => rfl

theorem writeKey_after (k : Bytes) : writeKey (jw.after text) k = (writeKey jw k).after text := by
  unfold writeKey
  rw [canWriteItem_after]
  rcases jw.canWriteItem with ⟨b, jw'⟩
  cases b with
  | true =>
    simp only [write_after]
    rfl
  | false => rfl

theorem writeStart_after (bracket : UInt8) :
    writeStart (jw.after text) bracket = (writeStart jw bracket).after text := by
  unfold writeStart
  rw [writeItem_after]
  exact setComma_after { jw.writeItem [bracket] with
    depth := ((jw.writeItem [bracket]).depth + 1) % 2 ^ 32 } text false

theorem writeEnd_after (bracket : UInt8) :
    writeEnd (jw.after text) bracket = (writeEnd jw bracket).after text := by
  have hd : (jw.after text).depth = jw.depth := rfl
  unfold writeEnd
  rw [hd]
  generalize (jw.depth + 2 ^ 32 - 1) % 2 ^ 32 = d
  have h : ({ jw.after text with depth := d } : JsonWriter) = { jw with depth := d }.after text := rfl
  simp only [h, atMaxDepth_after, writeChar, write_after]
  split <;> rfl

end After

variable (dt : DoubleText)

theorem writeValue_after (v : Value) : ∀ (jw : JsonWriter) (text : Bytes),
    writeValue dt v (jw.after text) = (writeValue dt v jw).after text := by
  induction v using Value.tree_induction with
  | null => exact fun jw text => writeItem_after jw text _
  | bool b => exact fun jw text => writeItem_after jw text _
  | int32 i => exact fun jw text => writeItem_after jw text _
  | int64 i => exact fun jw text => writeItem_after jw text _
  | uint64 u => exact fun jw text => writeItem_after jw text _
  | double d => exact fun jw text => writeItem_after jw text _
  | string s => exact fun jw text => writeItem_after jw text _
  | list vs ih =>
    have hitems : ∀ (jw : JsonWriter) (text : Bytes),
        writeItems dt vs (jw.after text) = (writeItems dt vs jw).after text := by
      induction vs with
      | nil => exact fun jw text => rfl
      | cons v vs ihs =>
        intro jw text
        simp only [writeItems]
        rw [ih v List.mem_cons_self]
        exact ihs (fun w hw => ih w (List.mem_cons_of_mem v hw)) _ text
    intro jw text
    simp only [writeValue]
    rw [writeStart_after, hitems, writeEnd_after]
  | object ps ih =>
    have hpairs : ∀ (jw : JsonWriter) (text : Bytes),
        writePairs dt ps (jw.after text) = (writePairs dt ps jw).after text := by
      induction ps with
      | nil => exact fun jw text => rfl
      | cons p ps ihs =>
        obtain ⟨k, v⟩ := p
        intro jw text
        simp only [writePairs]
        rw [writeKey_after, ih (k, v) List.mem_cons_self]
        exact ihs (fun w hw => ih w (List.mem_cons_of_mem (k, v) hw)) _ text
    intro jw text
    simp only [writeValue]
    rw [writeStart_after, hpairs, writeEnd_after]

/-- A writer that starts over writes a value as a new one does. -/
theorem writeValue_onto (v : Value) (text : Bytes) :
    (writeValue dt v (.onto text)).out = text ++ toJson dt v := by
  have h : JsonWriter.onto text = JsonWriter.new.after text := by
    simp [JsonWriter.onto, JsonWriter.after, JsonWriter.new]
  rw [h, writeValue_after]
  rfl

theorem reset_eq_onto (jw : JsonWriter) : jw.reset = .onto jw.out := rfl

end Json

namespace Envelope

variable (dt : DoubleText)

/-! ## Over a string builder -/

/-- `sentry__envelope_serialize_headers_into_stringbuilder`. -/
def serializeHeadersInto (headers : Value) (sb : Bytes) : Bytes :=
  (writeValue dt headers (.onto sb)).out

/-- `sentry__envelope_serialize_item_into_stringbuilder`. -/
def serializeItemInto (sb : Bytes) (item : Item) : Bytes :=
  (writeValue dt item.headers (.onto (sb ++ [10]))).out ++ [10] ++ item.payload

/-- `sentry__envelope_serialize_into_stringbuilder`. -/
def serializeInto (e : Envelope) (sb : Bytes) : Bytes :=
  match e with
  | .raw p => sb ++ p
  | .items h is => is.foldl (serializeItemInto dt) (serializeHeadersInto dt h sb)

theorem serializeItemInto_eq (sb : Bytes) (item : Item) :
    serializeItemInto dt sb item = sb ++ serializeItem dt item := by
  simp [serializeItemInto, serializeItem, writeValue_onto, List.append_assoc]

theorem foldl_serializeItemInto (is : List Item) (sb : Bytes) :
    is.foldl (serializeItemInto dt) sb = sb ++ is.flatMap (serializeItem dt) := by
  induction is generalizing sb with
  | nil => simp
  | cons item is ih =>
    rw [List.foldl_cons, ih, serializeItemInto_eq]
    simp [List.append_assoc]

theorem serializeInto_eq (e : Envelope) : serializeInto dt e [] = serialize dt e := by
  cases e with
  | raw p => rfl
  | items h is => simp [serializeInto, serialize, foldl_serializeItemInto, serializeHeadersInto,
      writeValue_onto]

/-! ## With the limits -/

/-- The loop of `sentry_envelope_serialize_ratelimited`: the builder and the
number of items in it. The items are numbered from `i` for the clock. -/
def serializeLimited (rl : Option Transport.RateLimiter) (clock : Nat → Nat) :
    Nat → List Item → Bytes × Nat → Bytes × Nat
  | _, [], s => s
  | i, item :: is, (sb, n) =>
    if rl.any fun rl => Transport.limited rl (clock i) item then
      serializeLimited rl clock (i + 1) is (sb, n)
    else serializeLimited rl clock (i + 1) is (serializeItemInto dt sb item, n + 1)

/-- `sentry_envelope_serialize_ratelimited`; the limits may be missing. -/
def serializeRatelimited (e : Envelope) (rl : Option Transport.RateLimiter) (clock : Nat → Nat) :
    Option Bytes :=
  match e with
  | .raw p => some p
  | .items h is =>
    match serializeLimited dt rl clock 0 is (serializeHeadersInto dt h [], 0) with
    | (_, 0) => none
    | (sb, _ + 1) => some sb

/-- The items from number `i` on that the limits let through. -/
def enabled (rl : Transport.RateLimiter) (clock : Nat → Nat) (i : Nat) : List Item → List Item
  | [] => []
  | item :: is =>
    if Transport.limited rl (clock i) item then enabled rl clock (i + 1) is
    else item :: enabled rl clock (i + 1) is

theorem serializeLimited_none (clock : Nat → Nat) (is : List Item) (i : Nat) (sb : Bytes) (n : Nat) :
    serializeLimited dt none clock i is (sb, n) =
      (sb ++ is.flatMap (serializeItem dt), n + is.length) := by
  induction is generalizing i sb n with
  | nil => simp [serializeLimited]
  | cons item is ih =>
    simp only [serializeLimited, Option.any_none, Bool.false_eq_true, if_false, ih,
      serializeItemInto_eq, List.flatMap_cons, List.append_assoc, List.length_cons, Prod.mk.injEq,
      true_and]
    omega

theorem serializeLimited_some (rl : Transport.RateLimiter) (clock : Nat → Nat) (is : List Item)
    (i : Nat) (sb : Bytes) (n : Nat) :
    serializeLimited dt (some rl) clock i is (sb, n) =
      (sb ++ (enabled rl clock i is).flatMap (serializeItem dt),
        n + (enabled rl clock i is).length) := by
  induction is generalizing i sb n with
  | nil => simp [serializeLimited, enabled]
  | cons item is ih =>
    simp only [serializeLimited, enabled, Option.any_some]
    split
    · exact ih (i + 1) sb n
    · rw [ih, serializeItemInto_eq]
      simp only [List.flatMap_cons, List.append_assoc, List.length_cons, Prod.mk.injEq, true_and]
      omega

theorem serializeRatelimited_none (h : Value) {is : List Item} (hne : is ≠ []) (clock : Nat → Nat) :
    serializeRatelimited dt (.items h is) none clock = some (serialize dt (.items h is)) := by
  cases is with
  | nil => exact absurd rfl hne
  | cons item is =>
    simp only [serializeRatelimited, serializeLimited_none, serializeHeadersInto, writeValue_onto,
      List.nil_append, List.length_cons, Nat.zero_add, serialize]

theorem serializeRatelimited_some (h : Value) (is : List Item) (rl : Transport.RateLimiter)
    (clock : Nat → Nat) :
    serializeRatelimited dt (.items h is) (some rl) clock =
      if enabled rl clock 0 is = [] then none
      else some (serialize dt (.items h (enabled rl clock 0 is))) := by
  simp only [serializeRatelimited, serializeLimited_some, serializeHeadersInto, writeValue_onto,
    List.nil_append, Nat.zero_add, serialize]
  cases enabled rl clock 0 is with
  | nil => rfl
  | cons item is => rfl

/-- The request of a send has this text. -/
theorem body_text (e : Envelope) (rl : Transport.RateLimiter) (clock : Nat → Nat) :
    (Transport.serializeRatelimited dt (.of e) rl clock).1.map (·.text) =
      serializeRatelimited dt e (some rl) clock := by
  cases e with
  | raw p => rfl
  | items h is =>
    have hkept : ∀ i, (Transport.serialized rl clock ((is.zipIdx i).map fun p => (p.2, p.1))).map
        Prod.snd = enabled rl clock i is := by
      induction is with
      | nil => exact fun i => rfl
      | cons item is ih =>
        intro i
        simp only [List.zipIdx_cons, List.map_cons, Transport.serialized, List.filter_cons, enabled]
        cases Transport.limited rl (clock i) item with
        | true => simpa [Transport.serialized] using ih (i + 1)
        | false => simpa [Transport.serialized] using ih (i + 1)
    rw [serializeRatelimited_some, ← hkept 0]
    simp only [Transport.serializeRatelimited, Transport.Contents.of, Transport.number,
      List.map_eq_nil_iff]
    split
    · rfl
    · rfl

/-! ## To a file -/

/-- The loop of `envelope_write_to_path`; what the item writer takes is left out. -/
def writeItemsToPath {σ : Type} (itemWriter : Item → σ → Bool × σ) :
    List Item → JsonWriter → σ → JsonWriter × σ
  | [], jw, data => (jw, data)
  | item :: is, jw, data =>
    match itemWriter item data with
    | (true, data) => writeItemsToPath itemWriter is jw data
    | (false, data) =>
      let jw := (writeValue dt item.headers (jw.write [10])).reset
      writeItemsToPath itemWriter is ((jw.write [10]).write item.payload) data

/-- `envelope_write_to_path`: what is in the file, and what the item writer kept. -/
def envelopeWriteToPath {σ : Type} (itemWriter : Item → σ → Bool × σ) (e : Envelope) (data : σ) :
    Bytes × σ :=
  match e with
  | .raw p => (p, data)
  | .items h is =>
    let jw := (writeValue dt h JsonWriter.new).reset
    let r := writeItemsToPath dt itemWriter is jw data
    (r.1.out, r.2)

/-- `sentry_envelope_write_to_path`. -/
def writeToPath (e : Envelope) : Bytes :=
  (envelopeWriteToPath dt (fun _ (data : Unit) => (false, data)) e ()).1

/-- The items that an item writer leaves, and its data after them. -/
def leftBy {σ : Type} (itemWriter : Item → σ → Bool × σ) : List Item → σ → List Item × σ
  | [], data => ([], data)
  | item :: is, data =>
    let rest := leftBy itemWriter is (itemWriter item data).2
    if (itemWriter item data).1 then rest else (item :: rest.1, rest.2)

/-- Between two items the writer is as new. -/
theorem writeItemsToPath_eq {σ : Type} (itemWriter : Item → σ → Bool × σ) (is : List Item)
    (text : Bytes) (data : σ) :
    writeItemsToPath dt itemWriter is (.onto text) data =
      (.onto (text ++ (leftBy itemWriter is data).1.flatMap (serializeItem dt)),
        (leftBy itemWriter is data).2) := by
  induction is generalizing text data with
  | nil => simp [writeItemsToPath, leftBy]
  | cons item is ih =>
    unfold writeItemsToPath leftBy
    rcases itemWriter item data with ⟨b, data'⟩
    cases b with
    | true => exact ih text data'
    | false =>
      have hw : (JsonWriter.onto text).write [10] = .onto (text ++ [10]) := rfl
      have hp : ∀ t : Bytes, ((JsonWriter.onto t).write [10]).write item.payload =
          .onto (t ++ 10 :: item.payload) := by
        intro t
        simp [JsonWriter.onto, JsonWriter.write, List.append_assoc]
      simp only [hw, reset_eq_onto, writeValue_onto, hp, ih, Bool.false_eq_true, if_false,
        List.flatMap_cons, serializeItem, List.append_assoc, List.cons_append, List.nil_append]

theorem envelopeWriteToPath_items {σ : Type} (itemWriter : Item → σ → Bool × σ) (h : Value)
    (is : List Item) (data : σ) :
    envelopeWriteToPath dt itemWriter (.items h is) data =
      (serialize dt (.items h (leftBy itemWriter is data).1), (leftBy itemWriter is data).2) := by
  have hn : (writeValue dt h JsonWriter.new).reset = .onto (toJson dt h) := rfl
  simp only [envelopeWriteToPath, hn, writeItemsToPath_eq, serialize]
  rfl

theorem leftBy_none (is : List Item) :
    leftBy (fun _ (data : Unit) => (false, data)) is () = (is, ()) := by
  induction is with
  | nil => rfl
  | cons item is ih => simp [leftBy, ih]

theorem writeToPath_eq (e : Envelope) : writeToPath dt e = serialize dt e := by
  cases e with
  | raw p => rfl
  | items h is => simp [writeToPath, envelopeWriteToPath_items, leftBy_none]

/-! ## To the cache -/

/-- The items that `write_minidump` tries to write to a file of their own. -/
def inlineMinidump (item : Item) : Bool :=
  (item.headers.getByKey (ascii "attachment_type")).asString = ascii "event.minidump" &&
    item.payload ≠ [] &&
    (item.headers.getByKey (ascii "content_type")).asString ≠ attachmentRefMime

/-- `minidump_writer_t`, with the files it wrote and how often it tried. -/
structure MinidumpWriter where
  index : Nat
  tries : Nat
  files : List (Bytes × Bytes)

/-- The name of a minidump: the first has no number. -/
def minidumpName (eventId : Retry.Uuid) (index : Nat) : Bytes :=
  eventId.asString ++ (if index = 0 then ascii ".dmp" else 45 :: printNat index ++ ascii ".dmp")

/-- `write_minidump`; the n-th file that is tried can be written if `written n`. -/
def writeMinidump (eventId : Retry.Uuid) (written : Nat → Bool) (item : Item) (ctx : MinidumpWriter) :
    Bool × MinidumpWriter :=
  if !inlineMinidump item then (false, ctx)
  else if written ctx.tries then
    (true, ⟨ctx.index + 1, ctx.tries + 1,
      ctx.files ++ [(minidumpName eventId ctx.index, item.payload)]⟩)
  else (false, { ctx with tries := ctx.tries + 1 })

/-- What `sentry__envelope_write_to_cache` writes. -/
structure Cached where
  content : Bytes
  minidumps : List (Bytes × Bytes)

/-- `sentry__envelope_write_to_cache`, with the event id it names its files by. -/
def writeToCache (eventId : Retry.Uuid) (isFile : Bool) (written : Nat → Bool) (e : Envelope) :
    Int × Option Cached :=
  if isFile then (0, none)
  else match Transport.materialize dt e with
    | none => (1, none)
    | some e =>
      let r := envelopeWriteToPath dt (writeMinidump eventId written) e ⟨0, 0, []⟩
      (0, some ⟨r.1, r.2.files⟩)

/-- The names and payloads of some minidumps, numbered from `i`. -/
def minidumpFiles (eventId : Retry.Uuid) (i : Nat) (is : List Item) : List (Bytes × Bytes) :=
  (is.zipIdx i).map fun p => (minidumpName eventId p.2, p.1.payload)

theorem leftBy_writeMinidump (eventId : Retry.Uuid) (is : List Item) (ctx : MinidumpWriter) :
    (leftBy (writeMinidump eventId fun _ => true) is ctx).1 = is.filter (!inlineMinidump ·) ∧
      (leftBy (writeMinidump eventId fun _ => true) is ctx).2.files =
        ctx.files ++ minidumpFiles eventId ctx.index (is.filter inlineMinidump) := by
  induction is generalizing ctx with
  | nil => simp [leftBy, minidumpFiles]
  | cons item is ih =>
    cases hm : inlineMinidump item with
    | true =>
      have hw : writeMinidump eventId (fun _ => true) item ctx = (true, ⟨ctx.index + 1, ctx.tries + 1,
          ctx.files ++ [(minidumpName eventId ctx.index, item.payload)]⟩) := by
        simp [writeMinidump, hm]
      obtain ⟨h1, h2⟩ := ih ⟨ctx.index + 1, ctx.tries + 1,
        ctx.files ++ [(minidumpName eventId ctx.index, item.payload)]⟩
      simp only [leftBy, hw, if_true]
      constructor
      · simp [h1, hm]
      · simp [h2, hm, minidumpFiles, List.append_assoc]
    | false =>
      have hw : writeMinidump eventId (fun _ => true) item ctx = (false, ctx) := by
        simp [writeMinidump, hm]
      obtain ⟨h1, h2⟩ := ih ctx
      simp only [leftBy, hw, Bool.false_eq_true, if_false]
      constructor
      · simp [h1, hm]
      · simp [h2, hm]

/-- **All writers of an envelope emit the same bytes.** The builder and the file
agree; with the limits the bytes are those of the envelope without the disabled
items, if any item is left; the cache gets the bytes of the envelope, or of what a
raw one is read as, without the minidumps that are stored in files. -/
theorem envelope_writers_agree (e : Envelope) (clock : Nat → Nat) (rl : Transport.RateLimiter)
    (eventId : Retry.Uuid) :
    serializeInto dt e [] = serialize dt e ∧ writeToPath dt e = serialize dt e ∧
    (∀ p, e = .raw p → serializeRatelimited dt e none clock = some (serialize dt e) ∧
      serializeRatelimited dt e (some rl) clock = some (serialize dt e)) ∧
    (∀ h is, e = .items h is →
      (is ≠ [] → serializeRatelimited dt e none clock = some (serialize dt e)) ∧
      serializeRatelimited dt e (some rl) clock =
        if enabled rl clock 0 is = [] then none
        else some (serialize dt (.items h (enabled rl clock 0 is)))) ∧
    (∀ h is, Transport.materialize dt e = some (.items h is) →
      writeToCache dt eventId false (fun _ => true) e =
        (0, some ⟨serialize dt (.items h (is.filter (!inlineMinidump ·))),
          minidumpFiles eventId 0 (is.filter inlineMinidump)⟩)) := by
  refine ⟨serializeInto_eq dt e, writeToPath_eq dt e, ?_, ?_, ?_⟩
  · rintro p rfl
    exact ⟨rfl, rfl⟩
  · rintro h is rfl
    exact ⟨fun hne => serializeRatelimited_none dt h hne clock,
      serializeRatelimited_some dt h is rl clock⟩
  · intro h is hm
    obtain ⟨h1, h2⟩ := leftBy_writeMinidump eventId is ⟨0, 0, []⟩
    simp only [writeToCache, hm, envelopeWriteToPath_items, h1, h2, List.nil_append,
      Bool.false_eq_true, if_false]

/-- When the limits leave no item there is no text at all. -/
theorem serializeRatelimited_nothing_left :
    serializeRatelimited noDoubles (.items (.object []) [Item.new]) (some fun _ => 1) (fun _ => 0) ≠
      some (serialize noDoubles (.items (.object []) (enabled (fun _ => 1) (fun _ => 0) 0 [Item.new]))) := by
  have hnil : enabled (fun _ => 1) (fun _ => 0) 0 [Item.new] = [] := by rfl
  rw [serializeRatelimited_some, if_pos hnil]
  intro h
  cases h

end Envelope

end SentryNative
