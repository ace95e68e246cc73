import Mathlib.Data.Nat.Digits.Lemmas
import SentryNative.Daemon.CrashEnvelope
import SentryNative.Envelope.Framing
import SentryNative.Json.RawText

/-!
# Reading the crash envelope back

* `Chunk`: one item as it was written, with the length it announces and the bytes that follow;
* `readItems_chunks`, `sizes_of_readItems`: the reader finds the items exactly when every
  announced length is the number of bytes that were copied;
* `crash_envelope_readable`: what that means for the two functions of the daemon.
-/

namespace SentryNative.Daemon

open CLib Json Envelope

/-! ## Items with an announced length -/

/-- An item in the file. -/
structure Chunk where
  headers : List (Bytes × Value)
  size : Nat
  content : Bytes
  newline : Bool

/-- The headers are scalars, announce the size and are not those of an envelope. -/
structure Chunk.Valid (c : Chunk) : Prop where
  flat : Value.Flat c.headers
  length : (Value.lookup lengthKey c.headers).retype = Value.ofInteger c.size
  size_lt : c.size < 2 ^ 64 - 1
  noDsn : Value.lookup (ascii "dsn") c.headers = .null
  noEventId : Value.lookup (ascii "event_id") c.headers = .null

def Chunk.body (c : Chunk) : Bytes := c.content ++ if c.newline then [10] else []

def Chunk.text (c : Chunk) : Bytes := render (.object c.headers) ++ 10 :: c.body

/-- The item that is read from a payload with the headers of the chunk. -/
def Chunk.itemWith (dt : DoubleText) (c : Chunk) (payload : Bytes) : Item :=
  let type := (Value.lookup typeKey (Value.retypePairs c.headers)).asString
  { headers := .object (Value.retypePairs c.headers)
    event :=
      if 0 < payload.length ∧ (type = ascii "event" ∨ type = ascii "transaction") then fromJson dt payload else .null
    payload := payload }

/-- The item with exactly the bytes that were copied. -/
def Chunk.item (dt : DoubleText) (c : Chunk) : Item := c.itemWith dt c.content

section

variable {dt : DoubleText} {c : Chunk} {cs : List Chunk}

theorem payloadLength_ofInteger {n : Nat} (h : n < 2 ^ 64 - 1) (r : Bytes) :
    payloadLength (Value.ofInteger n) r = some n := by
  unfold Value.ofInteger
  split
  · rename_i hsmall
    have hi : (Int32.ofInt n).toInt = n := by
      have hsize : Int32.size = 2 ^ 32 := by decide
      rw [Int32.toInt_ofInt, Int.bmod_eq_of_le (by omega) (by omega)]
    simp only [payloadLength, asInt64, hi]
    rw [if_neg (by simp only [sizeMax]; omega)]
    simp
  · split
    · rename_i hlarge
      have hi : (Int64.ofInt n).toInt = n := by
        apply Int64.toInt_ofInt_of_le
        · omega
        · omega
      simp only [payloadLength, asInt64, hi]
      rw [if_neg (by simp only [sizeMax]; omega)]
      simp
    · have hu : (UInt64.ofNat n).toNat = n := by
        rw [UInt64.toNat_ofNat']
        exact Nat.mod_eq_of_lt (by omega)
      simp only [payloadLength, Int.toNat_natCast, hu]
      rw [if_neg (by simp only [sizeMax]; omega)]

theorem Chunk.Valid.fromJson_eq (h : c.Valid) :
    fromJson dt (render (.object c.headers)) = .object (Value.retypePairs c.headers) := by
  rw [fromJson_render h.flat.plain (by rw [h.flat.height]; decide), Value.retype]

/-- One round of the reader takes as many bytes as were announced. -/
theorem readItem_chunk (h : c.Valid) (body : Bytes) :
    readItem dt (render (.object c.headers) ++ 10 :: body) =
      if body.length < c.size then none
      else some (c.itemWith dt (body.take c.size), (body.drop c.size).dropWhile (· = 10)) := by
  have hlen : payloadLength (Value.lookup lengthKey (Value.retypePairs c.headers)) body = some c.size := by
    rw [Value.lookup_retypePairs, h.length, payloadLength_ofInteger h.size_lt]
  simp only [readItem, splitLine_append (newline_not_mem_render _), h.fromJson_eq, hlen]
  split
  · rfl
  · rename_i hle
    have htake : (body.take c.size).length = c.size := by
      rw [List.length_take]
      omega
    simp only [Chunk.itemWith, htake]

/-- The text of the next chunks, from which no newline is skipped. -/
theorem dropWhile_chunks (cs : List Chunk) (newline : Bool) :
    ((if newline then [10] else []) ++ cs.flatMap Chunk.text).dropWhile (· = 10) = cs.flatMap Chunk.text := by
  have hstart : (cs.flatMap Chunk.text).dropWhile (· = 10) = cs.flatMap Chunk.text := by
    cases cs with
    | nil => rfl
    | cons c cs =>
      obtain ⟨r, hr⟩ := render_object_head c.headers
      simp [Chunk.text, hr]
  cases newline <;> simpa using hstart

/-- One round of the loop of the reader at a chunk. -/
theorem readItems_cons (h : c.Valid) (cs : List Chunk) (fuel : Nat) :
    readItems dt (fuel + 1) (c.text ++ cs.flatMap Chunk.text) =
      if (c.body ++ cs.flatMap Chunk.text).length < c.size then none
      else (readItems dt fuel (((c.body ++ cs.flatMap Chunk.text).drop c.size).dropWhile (· = 10))).map
        (c.itemWith dt ((c.body ++ cs.flatMap Chunk.text).take c.size) :: ·) := by
  have hround := @readItem_chunk dt c h (c.body ++ cs.flatMap Chunk.text)
  have htext : c.text ++ cs.flatMap Chunk.text =
      render (.object c.headers) ++ 10 :: (c.body ++ cs.flatMap Chunk.text) := by
    simp [Chunk.text]
  obtain ⟨r, hr⟩ := render_object_head c.headers
  rw [htext]
  rw [hr] at hround ⊢
  rw [List.cons_append] at hround ⊢
  simp only [Envelope.readItems, hround]
  by_cases hshort : (c.body ++ cs.flatMap Chunk.text).length < c.size
  · rw [if_pos hshort, if_pos hshort]
  · rw [if_neg hshort, if_neg hshort]

theorem readItems_chunks (h : ∀ c ∈ cs, c.Valid) (hsize : ∀ c ∈ cs, c.size = c.content.length) :
    ∀ fuel, (cs.flatMap Chunk.text).length ≤ fuel →
      readItems dt fuel (cs.flatMap Chunk.text) = some (cs.map (Chunk.item dt)) := by
  induction cs with
  | nil =>
    intro fuel _
    cases fuel <;> rfl
  | cons c cs ih =>
    intro fuel hf
    have hlong : 0 < c.text.length := by simp [Chunk.text]
    rw [List.flatMap_cons] at hf ⊢
    rw [List.length_append] at hf
    obtain ⟨fuel, rfl⟩ : ∃ f, fuel = f + 1 := ⟨fuel - 1, by omega⟩
    have hrest := ih (fun d hd => h d (List.mem_cons_of_mem c hd))
      (fun d hd => hsize d (List.mem_cons_of_mem c hd)) fuel (by omega)
    have hc : c.size = c.content.length := hsize c List.mem_cons_self
    rw [readItems_cons (h c List.mem_cons_self), if_neg, Chunk.body, List.append_assoc, hc, List.drop_left,
      List.take_left, dropWhile_chunks, hrest]
    · rfl
    · rw [hc, Chunk.body, List.length_append, List.length_append]
      omega

theorem sizes_of_readItems (h : ∀ c ∈ cs, c.Valid) :
    ∀ fuel, readItems dt fuel (cs.flatMap Chunk.text) = some (cs.map (Chunk.item dt)) →
      ∀ c ∈ cs, c.size = c.content.length := by
  induction cs with
  | nil => simp
  | cons c cs ih =>
    intro fuel hread
    cases fuel with
    | zero =>
      obtain ⟨r, hr⟩ := render_object_head c.headers
      simp [Chunk.text, hr, Envelope.readItems] at hread
    | succ fuel =>
      rw [List.flatMap_cons, readItems_cons (h c List.mem_cons_self)] at hread
      split at hread
      · cases hread
      · rename_i hlong
        obtain ⟨items, hitems, heq⟩ := Option.map_eq_some_iff.1 hread
        rw [List.map_cons, List.cons.injEq] at heq
        obtain ⟨hfirst, rfl⟩ := heq
        -- the first payload has the announced length
        have hpayload : (c.body ++ cs.flatMap Chunk.text).take c.size = c.content := congrArg Item.payload hfirst
        have hc : c.size = c.content.length := by
          have hlen := congrArg List.length hpayload
          rw [List.length_take] at hlen
          omega
        rw [Chunk.body, List.append_assoc, hc, List.drop_left, dropWhile_chunks] at hitems
        intro d hd
        obtain rfl | hd := List.mem_cons.1 hd
        · exact hc
        · exact ih (fun d hd => h d (List.mem_cons_of_mem c hd)) fuel hitems d hd

end

/-! ## What was written, as chunks -/

def eventChunk (eventJson : Bytes) : Chunk :=
  { headers := [(typeKey, .string (ascii "event")), (lengthKey, .uint64 (UInt64.ofNat eventJson.length))]
    size := eventJson.length
    content := eventJson
    newline := true }

def minidumpChunk (f : Opened) : Chunk :=
  { headers := [(typeKey, .string (ascii "attachment")), (lengthKey, .int64 (Int64.ofNat f.size)),
      (ascii "attachment_type", .string (ascii "event.minidump")), (ascii "filename", .string (ascii "minidump.dmp"))]
    size := f.size
    content := f.copied
    newline := true }

/-- The type that is announced for an attachment. -/
def typeOf (attachmentType : Option Bytes) : Bytes :=
  match attachmentType with
  | some t => if t = [] then SENTRY_ATTACHMENT_TYPE_GENERIC else t
  | none => SENTRY_ATTACHMENT_TYPE_GENERIC

def attachmentChunk (f : Opened) (filename attachmentType : Option Bytes) (contentType : Bytes) : Chunk :=
  { headers := [(typeKey, .string (ascii "attachment")), (lengthKey, .int64 (Int64.ofNat f.size)),
      (ascii "attachment_type", .string (typeOf attachmentType)), (ascii "content_type", .string contentType),
      (ascii "filename", .string (filename.getD (ascii "attachment")))]
    size := f.size
    content := f.copied
    newline := !f.failed }

section

/-- A chunk is valid by its keys, its scalars and the length it announces. -/
theorem Chunk.valid_of_keys {c : Chunk} (keys : List Bytes) (hkeys : c.headers.map Prod.fst = keys)
    (hgood : keys.Nodup ∧ (∀ k ∈ keys, 0 ∉ k) ∧ ascii "dsn" ∉ keys ∧ ascii "event_id" ∉ keys)
    (hscalar : ∀ p ∈ c.headers, p.2.Plain ∧ p.2.height = 0)
    (hlength : (Value.lookup lengthKey c.headers).retype = Value.ofInteger c.size) (hsize : c.size < 2 ^ 64 - 1) :
    c.Valid := by
  obtain ⟨hnodup, hnul, hdsn, hid⟩ := hgood
  subst hkeys
  refine ⟨⟨.object hnodup ?_ fun p hp => (hscalar p hp).1, fun p hp => (hscalar p hp).2⟩, hlength, hsize, ?_, ?_⟩
  · intro p hp
    exact hnul p.1 (List.mem_map_of_mem hp)
  · exact Value.lookup_of_not_mem hdsn
  · exact Value.lookup_of_not_mem hid

theorem eventChunk_valid {json : Bytes} (h : json.length < 2 ^ 64 - 1) : (eventChunk json).Valid := by
  have hu : (UInt64.ofNat json.length).toNat = json.length := by
    rw [UInt64.toNat_ofNat']
    exact Nat.mod_eq_of_lt (by omega)
  refine Chunk.valid_of_keys [typeKey, lengthKey] rfl (by decide) ?_ ?_ h
  · intro p hp
    simp only [eventChunk, List.mem_cons, List.not_mem_nil, or_false] at hp
    obtain rfl | rfl := hp
    · exact ⟨.string _, rfl⟩
    · exact ⟨.uint64 _, rfl⟩
  · change Value.ofInteger (UInt64.ofNat json.length).toNat = _
    rw [hu]
    rfl

theorem toInt_size (f : Opened) : (Int64.ofNat f.size).toInt = f.size := Int64.toInt_ofNat_of_lt f.size_lt

theorem minidumpChunk_valid (f : Opened) : (minidumpChunk f).Valid := by
  refine Chunk.valid_of_keys [typeKey, lengthKey, ascii "attachment_type", ascii "filename"] rfl (by decide) ?_ ?_ ?_
  · intro p hp
    simp only [minidumpChunk, List.mem_cons, List.not_mem_nil, or_false] at hp
    obtain rfl | rfl | rfl | rfl := hp
    · exact ⟨.string _, rfl⟩
    · exact ⟨.int64 _, rfl⟩
    · exact ⟨.string _, rfl⟩
    · exact ⟨.string _, rfl⟩
  · change Value.ofInteger (Int64.ofNat f.size).toInt = _
    rw [toInt_size]
    rfl
  · have hlt := f.size_lt
    change f.size < _
    omega

theorem attachmentChunk_valid (f : Opened) (filename attachmentType : Option Bytes) (contentType : Bytes) :
    (attachmentChunk f filename attachmentType contentType).Valid := by
  refine Chunk.valid_of_keys [typeKey, lengthKey, ascii "attachment_type", ascii "content_type", ascii "filename"] rfl
    (by decide) ?_ ?_ ?_
  · intro p hp
    simp only [attachmentChunk, List.mem_cons, List.not_mem_nil, or_false] at hp
    obtain rfl | rfl | rfl | rfl | rfl := hp
    · exact ⟨.string _, rfl⟩
    · exact ⟨.int64 _, rfl⟩
    · exact ⟨.string _, rfl⟩
    · exact ⟨.string _, rfl⟩
    · exact ⟨.string _, rfl⟩
  · change Value.ofInteger (Int64.ofNat f.size).toInt = _
    rw [toInt_size]
    rfl
  · have hlt := f.size_lt
    change f.size < _
    omega

/-! ## The text of the chunks -/

theorem length_printNat_le {n k : Nat} (h : n < 10 ^ k) (hk : 0 < k) : (printNat n).length ≤ k := by
  unfold printNat
  split
  · exact hk
  · rw [List.length_map, List.length_reverse]
    exact (Nat.digits_length_le_iff (by decide) _).2 h

theorem eventHeader_eq {json : Bytes} (h : json.length < 2 ^ 64 - 1) :
    eventHeader json.length = render (.object (eventChunk json).headers) := by
  have hu : (UInt64.ofNat json.length).toNat = json.length := by
    rw [UInt64.toNat_ofNat']
    exact Nat.mod_eq_of_lt (by omega)
  simp only [eventChunk, render, renderPairs, hu, printInt]
  simp [eventHeader, quote, separator, typeKey, lengthKey, ascii, escapeByte, needsEscaping]

theorem minidumpHeader_eq (f : Opened) : minidumpHeader f.size = render (.object (minidumpChunk f).headers) := by
  simp only [minidumpChunk, render, renderPairs, toInt_size, printInt]
  simp [minidumpHeader, quote, separator, typeKey, lengthKey, ascii, escapeByte, needsEscaping]

/-- The line of an item always fits its buffer. -/
theorem writeLine_short {line : Bytes} (h : line.length < 255) :
    writeLine SENTRY_CRASH_ITEM_HEADER_SIZE line = line ++ [10] := by
  apply if_pos
  rw [List.length_append, SENTRY_CRASH_ITEM_HEADER_SIZE]
  simp only [List.length_singleton]
  omega

theorem writeEvent_eq {json : Bytes} (h : json.length < 2 ^ 64 - 1) : writeEvent json = (eventChunk json).text := by
  have hdigits := length_printNat_le (by omega : json.length < 10 ^ 20) (by decide)
  have hshort : (eventHeader json.length).length < 255 := by
    simp only [eventHeader, List.length_append]
    have hfixed : (ascii "\x7b\"type\":\"event\",\"length\":").length + (ascii "\x7d").length = 26 := by decide
    omega
  unfold writeEvent
  rw [writeLine_short hshort, if_pos (by simp), eventHeader_eq h]
  simp [Chunk.text, Chunk.body, eventChunk]

theorem writeMinidump_eq (minidump : Option Opened) :
    writeMinidump minidump = (minidump.toList.map minidumpChunk).flatMap Chunk.text := by
  cases minidump with
  | none => rfl
  | some f =>
    have hlt := f.size_lt
    have hdigits := length_printNat_le (by omega : f.size < 10 ^ 20) (by decide)
    have hshort : (minidumpHeader f.size).length < 255 := by
      simp only [minidumpHeader, List.length_append]
      have hfixed : (ascii "\x7b\"type\":\"attachment\",\"length\":").length +
          (ascii ",\"attachment_type\":\"event.minidump\",\"filename\":\"minidump.dmp\"\x7d").length ≤ 200 := by decide
      omega
    unfold writeMinidump
    simp only
    rw [writeLine_short hshort, minidumpHeader_eq]
    simp [Chunk.text, Chunk.body, minidumpChunk]

theorem attachmentHeader_eq (f : Opened) (filename attachmentType : Option Bytes) (contentType : Bytes) :
    attachmentHeader f.size filename attachmentType (some contentType) =
      render (.object (attachmentChunk f filename attachmentType contentType).headers) := by
  have hvalid := attachmentChunk_valid f filename attachmentType contentType
  have hjson : attachmentHeader f.size filename attachmentType (some contentType) =
      toJson ⟨fun _ => [], fun _ => 0⟩ (.object (attachmentChunk f filename attachmentType contentType).headers) := by
    simp only [toJson, attachmentChunk, writeValue, writePairs, toInt_size]
    rfl
  rw [hjson, toJson_eq_render _ hvalid.flat.plain (by rw [hvalid.flat.height]; decide),
    truncate_of_height _ 0 (by rw [hvalid.flat.height]; decide)]

theorem writeAttachment_eq (file : Option Opened) (filename attachmentType : Option Bytes) (contentType : Bytes) :
    writeAttachmentToEnvelope file filename attachmentType (some contentType) =
      (file.toList.map fun f => attachmentChunk f filename attachmentType contentType).flatMap Chunk.text := by
  cases file with
  | none => rfl
  | some f =>
    simp only [writeAttachmentToEnvelope, attachmentHeader_eq]
    cases hf : f.failed <;> simp [Chunk.text, Chunk.body, attachmentChunk, hf]

/-- One item for each listed file that can be read, in the order of the manifest. -/
def entryChunks (files : Files) : Nat → List Value → List Chunk
  | _, [] => []
  | i, info :: rest =>
    ((files.openFile i (entryPath info)).toList.map fun f =>
      attachmentChunk f (some (info.getByKey (ascii "filename")).asString)
        (some (info.getByKey (ascii "attachment_type")).asString) (info.getByKey (ascii "content_type")).asString) ++
      entryChunks files (i + 1) rest

def attachmentChunks (dt : DoubleText) (files : Files) : List Chunk :=
  entryChunks files 0 (manifestEntries dt files.manifest) ++
    (files.screenshot.toList.map fun f => attachmentChunk f (some (ascii "screenshot.png")) none (ascii "image/png")) ++
    (files.sessionReplay.toList.map fun f =>
      attachmentChunk f (some (ascii "session-replay.mp4")) none (ascii "video/mp4"))

/-- No listed file is left to be sent by reference. -/
def NoPlaceholders (dt : DoubleText) (files : Files) : Prop :=
  ∀ info ∈ manifestEntries dt files.manifest, files.isPlaceholder (entryPath info) = false

theorem writeEntries_eq {files : Files} {entries : List Value}
    (h : ∀ info ∈ entries, files.isPlaceholder (entryPath info) = false) (i : Nat) :
    writeEntries files i entries = (entryChunks files i entries).flatMap Chunk.text := by
  induction entries generalizing i with
  | nil => rfl
  | cons info rest ih =>
    have hinfo := h info List.mem_cons_self
    simp only [writeEntries, entryChunks, hinfo, Bool.false_eq_true, if_false, writeEntry, writeAttachment_eq,
      List.flatMap_append]
    rw [ih fun j hj => h j (List.mem_cons_of_mem info hj)]

theorem writeAttachments_eq {dt : DoubleText} {files : Files} (h : NoPlaceholders dt files) :
    writeAttachments dt files = (attachmentChunks dt files).flatMap Chunk.text := by
  simp only [writeAttachments, attachmentChunks, writeEntries_eq h, writeAttachment_eq, List.flatMap_append]

theorem attachment_valid {c : Chunk} {file : Option Opened} {filename attachmentType : Option Bytes} {contentType : Bytes}
    (hc : c ∈ file.toList.map fun f => attachmentChunk f filename attachmentType contentType) : c.Valid := by
  obtain ⟨f, -, rfl⟩ := List.mem_map.1 hc
  exact attachmentChunk_valid f filename attachmentType contentType

theorem entryChunks_valid {files : Files} {entries : List Value} {i : Nat} :
    ∀ c ∈ entryChunks files i entries, c.Valid := by
  induction entries generalizing i with
  | nil => simp [entryChunks]
  | cons info rest ih =>
    intro c hc
    obtain hc | hc := List.mem_append.1 hc
    · exact attachment_valid hc
    · exact ih c hc

theorem attachmentChunks_valid (dt : DoubleText) (files : Files) : ∀ c ∈ attachmentChunks dt files, c.Valid := by
  intro c hc
  unfold attachmentChunks at hc
  rw [List.mem_append, List.mem_append] at hc
  obtain (hc | hc) | hc := hc
  · exact entryChunks_valid c hc
  · exact attachment_valid hc
  · exact attachment_valid hc

end

/-! ## The envelope header -/

section

variable {dt : DoubleText} {dsn : Option Bytes} {eventId : Bytes} {cs : List Chunk}

/-- Text that neither ends its string nor its line. -/
def Clean (s : Bytes) : Prop := ∀ c ∈ s, c ≠ 34 ∧ c ≠ 92 ∧ c ≠ 10

def headerPairs (dsn : Option Bytes) (eventId : Bytes) : List (Bytes × Bytes) :=
  (dsn.toList.map fun d => (ascii "dsn", d)) ++ if eventId ≠ [] then [(ascii "event_id", eventId)] else []

theorem envelopeHeader_eq (dsn : Option Bytes) (eventId : Bytes) :
    envelopeHeader dsn eventId = verbatimObject (headerPairs dsn eventId) := by
  unfold envelopeHeader headerPairs verbatimObject
  cases dsn <;> by_cases hid : eventId = [] <;>
    simp [hid, verbatimPairs, separator, quote, ascii, escapeByte, needsEscaping]

/-- The header values that the envelope is to have. -/
def dsnHeader (dsn : Option Bytes) : Value :=
  match dsn with
  | some d => .string d
  | none => .null

def eventIdHeader (eventId : Bytes) : Value := if eventId = [] then .null else .string eventId

/-- The file is an envelope with these header values and exactly these items. -/
def Readable (dt : DoubleText) (dsn : Option Bytes) (eventId : Bytes) (cs : List Chunk) (file : Bytes) : Prop :=
  ∃ ps, deserialize dt file = some (.items (.object ps) (cs.map (Chunk.item dt))) ∧
    Value.lookup (ascii "dsn") ps = dsnHeader dsn ∧ Value.lookup (ascii "event_id") ps = eventIdHeader eventId

/-- The header line fits its buffer. -/
def HeaderFits (dsn : Option Bytes) (eventId : Bytes) : Prop :=
  (envelopeHeader dsn eventId ++ [10]).length < SENTRY_CRASH_ENVELOPE_HEADER_SIZE

/-- What can be printed between quotes; a C string has no NUL. -/
structure CleanHeader (dsn : Option Bytes) (eventId : Bytes) : Prop where
  dsnClean : ∀ d, dsn = some d → Clean d
  idClean : Clean eventId

theorem fromJson_envelopeHeader (hclean : CleanHeader dsn eventId) (hdsn : ∀ d, dsn = some d → 0 ∉ d)
    (hid : 0 ∉ eventId) : fromJson dt (envelopeHeader dsn eventId) =
      .object ((headerPairs dsn eventId).map fun e => (e.1, .string e.2)) := by
  have hmem : ∀ e ∈ headerPairs dsn eventId, dsn = some e.2 ∧ e.1 = ascii "dsn" ∨ e = (ascii "event_id", eventId) := by
    intro e he
    unfold headerPairs at he
    obtain he | he := List.mem_append.1 he
    · obtain ⟨d, hd, rfl⟩ := List.mem_map.1 he
      exact Or.inl ⟨Option.mem_toList.1 hd, rfl⟩
    · split at he
      · exact Or.inr (List.mem_singleton.1 he)
      · cases he
  rw [envelopeHeader_eq]
  apply fromJson_verbatimObject
  · intro e he c hc
    obtain ⟨hd, -⟩ | rfl := hmem e he
    · obtain ⟨hquote, hback, -⟩ := hclean.dsnClean _ hd c hc
      refine ⟨hquote, hback, ?_⟩
      rintro rfl
      exact hdsn _ hd hc
    · obtain ⟨hquote, hback, -⟩ := hclean.idClean c hc
      refine ⟨hquote, hback, ?_⟩
      rintro rfl
      exact hid hc
  · intro e he
    obtain ⟨-, hkey⟩ | rfl := hmem e he
    · rw [hkey]
      decide
    · exact (by decide : (0 : UInt8) ∉ ascii "event_id")
  · unfold headerPairs
    cases dsn <;> by_cases hnil : eventId = [] <;> simp [hnil]
    decide

theorem newline_not_mem_envelopeHeader (hclean : CleanHeader dsn eventId) : 10 ∉ envelopeHeader dsn eventId := by
  have hid : 10 ∉ eventId := fun h => (hclean.idClean 10 h).2.2 rfl
  unfold envelopeHeader
  cases dsn with
  | none => by_cases hnil : eventId = [] <;> simp [hnil, hid, ascii]
  | some d =>
    have hd : 10 ∉ d := fun h => (hclean.dsnClean d rfl 10 h).2.2 rfl
    by_cases hnil : eventId = [] <;> simp [hnil, hid, hd, ascii]

theorem lookup_headerPairs (dsn : Option Bytes) (eventId : Bytes) :
    Value.lookup (ascii "dsn") ((headerPairs dsn eventId).map fun e => (e.1, Value.string e.2)) = dsnHeader dsn ∧
      Value.lookup (ascii "event_id") ((headerPairs dsn eventId).map fun e => (e.1, Value.string e.2)) =
        eventIdHeader eventId := by
  have hne : ascii "dsn" ≠ ascii "event_id" := by decide
  unfold headerPairs dsnHeader eventIdHeader
  cases dsn <;> by_cases hnil : eventId = [] <;> simp [hnil, Value.lookup, hne, hne.symm]

/-- A clean header that fits leaves the reading to the items. -/
theorem deserialize_clean (hclean : CleanHeader dsn eventId) (hdsn : ∀ d, dsn = some d → 0 ∉ d) (hid : 0 ∉ eventId)
    (hfits : HeaderFits dsn eventId) (cs : List Chunk) :
    deserialize dt (writeLine SENTRY_CRASH_ENVELOPE_HEADER_SIZE (envelopeHeader dsn eventId) ++ cs.flatMap Chunk.text) =
      (Envelope.readItems dt (cs.flatMap Chunk.text).length (cs.flatMap Chunk.text)).map
        (.items (.object ((headerPairs dsn eventId).map fun e => (e.1, .string e.2)))) := by
  have hline : writeLine SENTRY_CRASH_ENVELOPE_HEADER_SIZE (envelopeHeader dsn eventId) ++ cs.flatMap Chunk.text =
      envelopeHeader dsn eventId ++ 10 :: cs.flatMap Chunk.text := by
    have hfits' : (envelopeHeader dsn eventId ++ [10]).length < SENTRY_CRASH_ENVELOPE_HEADER_SIZE := hfits
    rw [writeLine, if_pos hfits', List.append_assoc]
    rfl
  rw [hline, deserialize, if_neg (by simp), splitLine_append (newline_not_mem_envelopeHeader hclean)]
  simp only [fromJson_envelopeHeader hclean hdsn hid, Option.getD_some]

theorem readable_of_sizes (hclean : CleanHeader dsn eventId) (hdsn : ∀ d, dsn = some d → 0 ∉ d) (hid : 0 ∉ eventId)
    (hfits : HeaderFits dsn eventId) (hvalid : ∀ c ∈ cs, c.Valid) (hsize : ∀ c ∈ cs, c.size = c.content.length) :
    Readable dt dsn eventId cs
      (writeLine SENTRY_CRASH_ENVELOPE_HEADER_SIZE (envelopeHeader dsn eventId) ++ cs.flatMap Chunk.text) := by
  refine ⟨_, ?_, lookup_headerPairs dsn eventId⟩
  rw [deserialize_clean hclean hdsn hid hfits, readItems_chunks hvalid hsize _ (Nat.le_refl _)]
  rfl

theorem sizes_of_readable (hclean : CleanHeader dsn eventId) (hdsn : ∀ d, dsn = some d → 0 ∉ d) (hid : 0 ∉ eventId)
    (hfits : HeaderFits dsn eventId) (hvalid : ∀ c ∈ cs, c.Valid)
    (h : Readable dt dsn eventId cs
      (writeLine SENTRY_CRASH_ENVELOPE_HEADER_SIZE (envelopeHeader dsn eventId) ++ cs.flatMap Chunk.text)) :
    ∀ c ∈ cs, c.size = c.content.length := by
  obtain ⟨ps, hread, -, -⟩ := h
  rw [deserialize_clean hclean hdsn hid hfits, Option.map_eq_some_iff] at hread
  obtain ⟨items, hitems, heq⟩ := hread
  rw [Envelope.items.injEq] at heq
  obtain ⟨-, rfl⟩ := heq
  exact sizes_of_readItems hvalid _ hitems

/-- Without the header line the first item's headers are taken for it. -/
theorem fits_of_readable (hvalid : ∀ c ∈ cs, c.Valid)
    (h : Readable dt dsn eventId cs
      (writeLine SENTRY_CRASH_ENVELOPE_HEADER_SIZE (envelopeHeader dsn eventId) ++ cs.flatMap Chunk.text)) :
    HeaderFits dsn eventId := by
  by_contra hlong
  obtain ⟨ps, hread, hdsn, hid⟩ := h
  have hnone : writeLine SENTRY_CRASH_ENVELOPE_HEADER_SIZE (envelopeHeader dsn eventId) = [] := if_neg hlong
  rw [hnone, List.nil_append] at hread
  cases cs with
  | nil => simp [deserialize] at hread
  | cons c cs =>
    have hc := hvalid c List.mem_cons_self
    have htext : (c :: cs).flatMap Chunk.text =
        render (.object c.headers) ++ 10 :: (c.body ++ cs.flatMap Chunk.text) := by
      simp [Chunk.text]
    rw [htext, deserialize, if_neg (by simp), splitLine_append (newline_not_mem_render _)] at hread
    simp only [hc.fromJson_eq, Option.map_eq_some_iff, Envelope.items.injEq, Value.object.injEq] at hread
    obtain ⟨items, -, rfl, -⟩ := hread
    rw [Value.lookup_retypePairs, hc.noDsn] at hdsn
    rw [Value.lookup_retypePairs, hc.noEventId] at hid
    cases dsn with
    | some d => cases hdsn
    | none =>
      by_cases hnil : eventId = []
      · subst hnil
        exact hlong (by decide : (envelopeHeader none [] ++ [10]).length < SENTRY_CRASH_ENVELOPE_HEADER_SIZE)
      · rw [eventIdHeader, if_neg hnil] at hid
        cases hid

end

/-! ## The two functions -/

section

variable {dt : DoubleText} {dsn : Option Bytes} {minidump : Option Opened} {files : Files}

/-- The items that an envelope is to have. -/
def crashChunks (dt : DoubleText) (event : Value) (minidump : Option Opened) (files : Files) : List Chunk :=
  eventChunk (toJson dt event) :: (minidump.toList.map minidumpChunk ++ attachmentChunks dt files)

theorem crashChunks_valid {event : Value} (h : (toJson dt event).length < 2 ^ 64 - 1) :
    ∀ c ∈ crashChunks dt event minidump files, c.Valid := by
  intro c hc
  obtain rfl | hc := List.mem_cons.1 hc
  · exact eventChunk_valid h
  obtain hc | hc := List.mem_append.1 hc
  · obtain ⟨f, -, rfl⟩ := List.mem_map.1 hc
    exact minidumpChunk_valid f
  · exact attachmentChunks_valid dt files c hc

theorem writeEnvelopeWithNativeStacktrace_eq (hplace : NoPlaceholders dt files) {event : Value}
    (h : (toJson dt event).length < 2 ^ 64 - 1) :
    writeEnvelopeWithNativeStacktrace dt dsn event minidump files =
      writeLine SENTRY_CRASH_ENVELOPE_HEADER_SIZE (envelopeHeader dsn (eventIdOf event)) ++
        (crashChunks dt event minidump files).flatMap Chunk.text := by
  unfold writeEnvelopeWithNativeStacktrace crashChunks
  rw [writeEvent_eq h, writeMinidump_eq, writeAttachments_eq hplace, List.flatMap_cons, List.flatMap_append]
  simp only [List.append_assoc]

theorem apply_object (m : Msgpack.Mpack) (ps : List (Bytes × Value)) (rings : Breadcrumb.Rings) (max : Option UInt32) :
    ∃ qs, Breadcrumb.applyBreadcrumbsFromRingFiles m (.object ps) rings max = .object qs := by
  unfold Breadcrumb.applyBreadcrumbsFromRingFiles
  split
  · exact ⟨ps, rfl⟩
  · simp only
    split
    · exact ⟨_, rfl⟩
    · exact ⟨ps, rfl⟩

theorem writeEnvelopeWithMinidump_eq (hplace : NoPlaceholders dt files) {m : Msgpack.Mpack} {base : Bytes}
    {ps : List (Bytes × Value)} {rings : Breadcrumb.Rings} {max : Option UInt32} (hbase : fromJson dt base = .object ps)
    (h : (toJson dt (Breadcrumb.applyBreadcrumbsFromRingFiles m (.object ps) rings max)).length < 2 ^ 64 - 1) :
    writeEnvelopeWithMinidump dt m dsn base rings max minidump files =
      writeEnvelopeWithNativeStacktrace dt dsn (Breadcrumb.applyBreadcrumbsFromRingFiles m (.object ps) rings max)
        minidump files := by
  have hne : base ≠ [] := by
    rintro rfl
    cases hbase
  have hevent : readBaseEvent dt m base rings max =
      (eventIdOf (Breadcrumb.applyBreadcrumbsFromRingFiles m (.object ps) rings max),
        toJson dt (Breadcrumb.applyBreadcrumbsFromRingFiles m (.object ps) rings max)) := by
    rw [readBaseEvent, if_neg hne, hbase]
  obtain ⟨qs, hqs⟩ := apply_object m ps rings max
  unfold writeEnvelopeWithMinidump writeEnvelopeWithNativeStacktrace
  simp only [hevent]
  rw [if_pos (by rw [hqs]; exact toJson_object_ne_nil qs)]

theorem zero_not_mem_eventIdOf (event : Value) : 0 ∉ eventIdOf event := by
  unfold eventIdOf Value.asString
  split
  · exact zero_not_mem_cstr _
  · simp

/-- What an envelope needs: a header that fits and can be printed as it is, and files that were
copied as long as they were announced. -/
structure Sound (dsn : Option Bytes) (eventId : Bytes) (cs : List Chunk) : Prop where
  clean : CleanHeader dsn eventId
  fits : HeaderFits dsn eventId
  sizes : ∀ c ∈ cs, c.size = c.content.length

theorem readable_of_sound (hdsn : ∀ d, dsn = some d → 0 ∉ d) (hplace : NoPlaceholders dt files) {event : Value}
    (h : (toJson dt event).length < 2 ^ 64 - 1)
    (hsound : Sound dsn (eventIdOf event) (crashChunks dt event minidump files)) :
    Readable dt dsn (eventIdOf event) (crashChunks dt event minidump files)
      (writeEnvelopeWithNativeStacktrace dt dsn event minidump files) := by
  rw [writeEnvelopeWithNativeStacktrace_eq hplace h]
  exact readable_of_sizes hsound.clean hdsn (zero_not_mem_eventIdOf event) hsound.fits (crashChunks_valid h) hsound.sizes

theorem sound_of_readable (hdsn : ∀ d, dsn = some d → 0 ∉ d) (hplace : NoPlaceholders dt files) {event : Value}
    (h : (toJson dt event).length < 2 ^ 64 - 1) (hclean : CleanHeader dsn (eventIdOf event))
    (hread : Readable dt dsn (eventIdOf event) (crashChunks dt event minidump files)
      (writeEnvelopeWithNativeStacktrace dt dsn event minidump files)) :
    Sound dsn (eventIdOf event) (crashChunks dt event minidump files) := by
  rw [writeEnvelopeWithNativeStacktrace_eq hplace h] at hread
  have hfits := fits_of_readable (crashChunks_valid h) hread
  exact ⟨hclean, hfits, sizes_of_readable hclean hdsn (zero_not_mem_eventIdOf event) hfits (crashChunks_valid h) hread⟩

/-- Both functions leave an envelope with the event, the minidump and every listed file exactly when
the header fits and each file gave as many bytes as it had announced, for a DSN and an event id
that need no escapes. -/
theorem crash_envelope_readable (dt : DoubleText) (dsn : Option Bytes) (hdsn : ∀ d, dsn = some d → 0 ∉ d)
    (minidump : Option Opened) (files : Files) (hplace : NoPlaceholders dt files) :
    (∀ event, (toJson dt event).length < 2 ^ 64 - 1 →
      (Sound dsn (eventIdOf event) (crashChunks dt event minidump files) →
        Readable dt dsn (eventIdOf event) (crashChunks dt event minidump files)
          (writeEnvelopeWithNativeStacktrace dt dsn event minidump files)) ∧
      (CleanHeader dsn (eventIdOf event) →
        Readable dt dsn (eventIdOf event) (crashChunks dt event minidump files)
            (writeEnvelopeWithNativeStacktrace dt dsn event minidump files) →
          Sound dsn (eventIdOf event) (crashChunks dt event minidump files))) ∧
    (∀ m base ps rings max event, fromJson dt base = .object ps →
      event = Breadcrumb.applyBreadcrumbsFromRingFiles m (.object ps) rings max →
      (toJson dt event).length < 2 ^ 64 - 1 →
      (Sound dsn (eventIdOf event) (crashChunks dt event minidump files) →
        Readable dt dsn (eventIdOf event) (crashChunks dt event minidump files)
          (writeEnvelopeWithMinidump dt m dsn base rings max minidump files)) ∧
      (CleanHeader dsn (eventIdOf event) →
        Readable dt dsn (eventIdOf event) (crashChunks dt event minidump files)
            (writeEnvelopeWithMinidump dt m dsn base rings max minidump files) →
          Sound dsn (eventIdOf event) (crashChunks dt event minidump files))) := by
  constructor
  · intro event h
    exact ⟨readable_of_sound hdsn hplace h, sound_of_readable hdsn hplace h⟩
  · rintro m base ps rings max event hbase rfl h
    rw [writeEnvelopeWithMinidump_eq hplace hbase h]
    exact ⟨readable_of_sound hdsn hplace h, sound_of_readable hdsn hplace h⟩

/-! ## Two attachments -/

def sampleDsn : Option Bytes := some (ascii "https://key@host/42")

def sampleEvent : Value := .object [(ascii "event_id", .string (ascii "4c035723"))]

def listed (path : String) : Value :=
  .object [(ascii "path", .string (ascii path)), (ascii "filename", .string (ascii path))]

def twoListed : Value := .list [listed "a", listed "b"]

/-- Two listed files; the first one is announced with some size and gives no bytes. -/
def twoFiles (size : Nat) (h : size < 2 ^ 63) : Files :=
  { isPlaceholder := fun _ => false
    openFile := fun i _ => if i = 0 then some ⟨size, [], true, h⟩ else some ⟨1, [98], false, by decide⟩
    manifest := some (render twoListed)
    screenshot := none
    sessionReplay := none }

theorem listed_plain (path : String) : (listed path).Plain := by
  refine .object (by decide : [ascii "path", ascii "filename"].Nodup) ?_ ?_
  · intro p hp
    simp only [List.mem_cons, List.not_mem_nil, or_false] at hp
    obtain rfl | rfl := hp
    · exact (by decide : (0 : UInt8) ∉ ascii "path")
    · exact (by decide : (0 : UInt8) ∉ ascii "filename")
  · intro p hp
    simp only [List.mem_cons, List.not_mem_nil, or_false] at hp
    obtain rfl | rfl := hp
    · exact .string _
    · exact .string _

theorem twoFiles_entries (size : Nat) (h : size < 2 ^ 63) :
    manifestEntries noDoubles (twoFiles size h).manifest = [listed "a", listed "b"] := by
  have hplain : twoListed.Plain := by
    apply Value.Plain.list
    intro v hv
    simp only [List.mem_cons, List.not_mem_nil, or_false] at hv
    obtain rfl | rfl := hv
    · exact listed_plain "a"
    · exact listed_plain "b"
  have hread : fromJson noDoubles (render twoListed) = twoListed := fromJson_render hplain (by decide)
  have hne : render twoListed ≠ [] := by simp [twoListed, render]
  simp only [manifestEntries, twoFiles, if_neg hne, hread]
  rfl

theorem sample_clean : CleanHeader sampleDsn (eventIdOf sampleEvent) := by
  constructor
  · rintro d ⟨⟩
    unfold Clean
    decide +kernel
  · unfold Clean
    decide +kernel

theorem sample_dsn : ∀ d, sampleDsn = some d → 0 ∉ d := by
  rintro d ⟨⟩
  decide

theorem sample_short : (toJson noDoubles sampleEvent).length < 2 ^ 64 - 1 := by decide

theorem sample_chunks (size : Nat) (h : size < 2 ^ 63) :
    (crashChunks noDoubles sampleEvent none (twoFiles size h)).map (fun c => (c.size, c.content.length)) =
      [((toJson noDoubles sampleEvent).length, (toJson noDoubles sampleEvent).length), (size, 0), (1, 1)] := by
  simp only [crashChunks, attachmentChunks, twoFiles_entries]
  rfl

/-- An empty first file does no harm. -/
theorem crash_envelope_readable_empty :
    Readable noDoubles sampleDsn (eventIdOf sampleEvent)
      (crashChunks noDoubles sampleEvent none (twoFiles 0 (by decide)))
      (writeEnvelopeWithNativeStacktrace noDoubles sampleDsn sampleEvent none (twoFiles 0 (by decide))) := by
  have hsizes : ∀ c ∈ crashChunks noDoubles sampleEvent none (twoFiles 0 (by decide)), c.size = c.content.length := by
    intro c hc
    have hpair := List.mem_map_of_mem (f := fun c : Chunk => (c.size, c.content.length)) hc
    rw [sample_chunks] at hpair
    simp only [List.mem_cons, Prod.mk.injEq, List.not_mem_nil, or_false] at hpair
    omega
  have hfits : HeaderFits sampleDsn (eventIdOf sampleEvent) := by
    unfold HeaderFits
    decide
  exact ((crash_envelope_readable noDoubles sampleDsn sample_dsn none (twoFiles 0 (by decide)) fun _ _ => rfl).1
    sampleEvent sample_short).1 ⟨sample_clean, hfits, hsizes⟩

/-- A listed file that announces five bytes and then cannot be read (a directory, for one)
spoils the envelope, and with it the other attachment. -/
theorem unread_attachment_spoils :
    ¬Readable noDoubles sampleDsn (eventIdOf sampleEvent)
      (crashChunks noDoubles sampleEvent none (twoFiles 5 (by decide)))
      (writeEnvelopeWithNativeStacktrace noDoubles sampleDsn sampleEvent none (twoFiles 5 (by decide))) := by
  intro hread
  have hsound := sound_of_readable sample_dsn (fun _ _ => rfl) sample_short sample_clean hread
  have hmem : ((5, 0) : Nat × Nat) ∈ (crashChunks noDoubles sampleEvent none (twoFiles 5 (by decide))).map
      fun c => (c.size, c.content.length) := by
    rw [sample_chunks]
    simp
  obtain ⟨c, hc, heq⟩ := List.mem_map.1 hmem
  have hsize := hsound.sizes c hc
  rw [Prod.mk.injEq] at heq
  omega

end

end SentryNative.Daemon
