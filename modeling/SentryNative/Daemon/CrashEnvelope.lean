import SentryNative.Breadcrumb.RingFile
import SentryNative.Envelope.Model

/-!
# The crash envelope

What the daemon writes for a crash: a header line, the event, the minidump and the attached
files. All writes succeed. The lengths in the item headers are announced before the files are
copied.
-/

namespace SentryNative.Daemon

open CLib Json

/-- A file that was opened and that `fstat` told the size of, with the bytes that its reads
returned after that and whether the last of them failed. -/
structure Opened where
  size : Nat
  copied : Bytes
  failed : Bool
  size_lt : size < 2 ^ 63

def SENTRY_CRASH_ENVELOPE_HEADER_SIZE : Nat := 1024

def SENTRY_CRASH_ITEM_HEADER_SIZE : Nat := 256

/-- A line that was printed into a buffer is written when all of it fits. -/
def writeLine (bufferSize : Nat) (line : Bytes) : Bytes :=
  if (line ++ [10]).length < bufferSize then line ++ [10] else []

/-- The envelope header, with the DSN and the event id as they are. -/
def envelopeHeader (dsn : Option Bytes) (eventId : Bytes) : Bytes :=
  match dsn with
  | some dsn =>
    if eventId ≠ [] then
      ascii "\x7b\"dsn\":\"" ++ dsn ++ ascii "\",\"event_id\":\"" ++ eventId ++ ascii "\"\x7d"
    else ascii "\x7b\"dsn\":\"" ++ dsn ++ ascii "\"\x7d"
  | none =>
    if eventId ≠ [] then ascii "\x7b\"event_id\":\"" ++ eventId ++ ascii "\"\x7d"
    else ascii "\x7b\x7d"

def eventHeader (eventSize : Nat) : Bytes :=
  ascii "\x7b\"type\":\"event\",\"length\":" ++ printNat eventSize ++ ascii "\x7d"

def writeEvent (eventJson : Bytes) : Bytes :=
  let header := writeLine SENTRY_CRASH_ITEM_HEADER_SIZE (eventHeader eventJson.length)
  if header ≠ [] then header ++ eventJson ++ [10] else []

def minidumpHeader (minidumpSize : Nat) : Bytes :=
  ascii "\x7b\"type\":\"attachment\",\"length\":" ++ printNat minidumpSize ++
    ascii ",\"attachment_type\":\"event.minidump\",\"filename\":\"minidump.dmp\"\x7d"

/-- The newline is written even when a read failed. -/
def writeMinidump (minidump : Option Opened) : Bytes :=
  match minidump with
  | none => []
  | some f => writeLine SENTRY_CRASH_ITEM_HEADER_SIZE (minidumpHeader f.size) ++ f.copied ++ [10]

def SENTRY_ATTACHMENT_TYPE_GENERIC : Bytes := ascii "event.attachment"

/-- The header of an attachment, through the JSON writer; an absent string is none. -/
def attachmentHeader (fileSize : Nat) (filename attachmentType contentType : Option Bytes) : Bytes :=
  let jw := writeStart JsonWriter.new 123
  let jw := writeStr (writeKey jw (ascii "type")) (ascii "attachment")
  let jw := writeInteger (writeKey jw (ascii "length")) fileSize
  let type := match attachmentType with
    | some t => if t = [] then SENTRY_ATTACHMENT_TYPE_GENERIC else t
    | none => SENTRY_ATTACHMENT_TYPE_GENERIC
  let jw := writeStr (writeKey jw (ascii "attachment_type")) type
  let jw := match contentType with
    | some t => writeStr (writeKey jw (ascii "content_type")) t
    | none => jw
  let jw := writeStr (writeKey jw (ascii "filename")) (filename.getD (ascii "attachment"))
  (writeEnd jw 125).out

/-- `write_attachment_to_envelope`: after a read that failed there is no newline. -/
def writeAttachmentToEnvelope (file : Option Opened) (filename attachmentType contentType : Option Bytes) : Bytes :=
  match file with
  | none => []
  | some f =>
    attachmentHeader f.size filename attachmentType contentType ++ [10] ++ f.copied ++
      if f.failed then [] else [10]

/-- What the daemon finds on disk. The same path may be opened more than once, so an open is
numbered by its place in the manifest. -/
structure Files where
  isPlaceholder : Bytes → Bool
  openFile : Nat → Bytes → Option Opened
  /-- The bytes of `__sentry-attachments`, if there is a run folder and it can be read. -/
  manifest : Option Bytes
  /-- `screenshot.png`, when the context asks for it. -/
  screenshot : Option Opened
  /-- `session-replay.mp4`, when the context asks for it. -/
  sessionReplay : Option Opened

section

variable (dt : DoubleText)

/-- The entries of the manifest; what is no list has a length but no entries. -/
def manifestEntries (manifest : Option Bytes) : List Value :=
  match manifest with
  | none => []
  | some bytes =>
    if bytes = [] then []
    else match fromJson dt bytes with
      | .list vs => vs
      | v => List.replicate (Envelope.getLength v) .null

def entryPath (info : Value) : Bytes := (info.getByKey (ascii "path")).asString

def writeEntry (info : Value) (file : Option Opened) : Bytes :=
  writeAttachmentToEnvelope file (some (info.getByKey (ascii "filename")).asString)
    (some (info.getByKey (ascii "attachment_type")).asString) (some (info.getByKey (ascii "content_type")).asString)

/-- The loop over the manifest from its `i`-th entry on. -/
def writeEntries (files : Files) : Nat → List Value → Bytes
  | _, [] => []
  | i, info :: rest =>
    (if files.isPlaceholder (entryPath info) then []
     else writeEntry info (files.openFile i (entryPath info))) ++ writeEntries files (i + 1) rest

def writeAttachments (files : Files) : Bytes :=
  writeEntries files 0 (manifestEntries dt files.manifest) ++
    writeAttachmentToEnvelope files.screenshot (some (ascii "screenshot.png")) none (some (ascii "image/png")) ++
    writeAttachmentToEnvelope files.sessionReplay (some (ascii "session-replay.mp4")) none (some (ascii "video/mp4"))

def eventIdOf (event : Value) : Bytes := (event.getByKey (ascii "event_id")).asString

/-- `write_envelope_with_native_stacktrace` for the event that was built. -/
def writeEnvelopeWithNativeStacktrace (dsn : Option Bytes) (event : Value) (minidump : Option Opened)
    (files : Files) : Bytes :=
  writeLine SENTRY_CRASH_ENVELOPE_HEADER_SIZE (envelopeHeader dsn (eventIdOf event)) ++
    writeEvent (toJson dt event) ++ writeMinidump minidump ++ writeAttachments dt files

/-- The event id and the text of the event for the bytes of the event file. What does not parse
is passed on as it is. -/
def readBaseEvent (m : Msgpack.Mpack) (base : Bytes) (rings : Breadcrumb.Rings) (maxBreadcrumbs : Option UInt32) :
    Bytes × Bytes :=
  if base = [] then ([], [])
  else match fromJson dt base with
    | .null => ([], base)
    | event =>
      let event := Breadcrumb.applyBreadcrumbsFromRingFiles m event rings maxBreadcrumbs
      (eventIdOf event, toJson dt event)

/-- `write_envelope_with_minidump`. -/
def writeEnvelopeWithMinidump (m : Msgpack.Mpack) (dsn : Option Bytes) (base : Bytes) (rings : Breadcrumb.Rings)
    (maxBreadcrumbs : Option UInt32) (minidump : Option Opened) (files : Files) : Bytes :=
  let event := readBaseEvent dt m base rings maxBreadcrumbs
  writeLine SENTRY_CRASH_ENVELOPE_HEADER_SIZE (envelopeHeader dsn event.1) ++
    (if event.2 ≠ [] then writeEvent event.2 else []) ++ writeMinidump minidump ++ writeAttachments dt files

end

end SentryNative.Daemon
