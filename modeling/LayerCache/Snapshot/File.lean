import LayerCache.Json.Layout
import LayerCache.Layers.BoundedReads
import LayerCache.Snapshot.VisibleCache

/-! # Snapshot files

A snapshot file is the exported entries as one indented JSON array. Writing it has no
limits of its own; reading it checks the shape of every entry, passes every value through
the default serializer and a sanitizer of its own, and checks every key, before anything is
imported.
-/

namespace LayerCache.Snapshot

open Json

section ToJson
variable (numerals : Numerals Millis)

def millisJson : Option Millis → Value
  | none => .null
  | some ms => .number (numerals.literal ms)

def kindJson : CacheWriteKind → Value
  | .value => .string "value"
  | .empty => .string "empty"

def envelopeJson (e : StoredValueEnvelope Value) : Value :=
  .object [("__layercache", .number (decimalNumber 1)), ("kind", kindJson e.kind),
    ("value", e.value.getD .null), ("freshUntil", millisJson numerals e.freshUntil),
    ("staleUntil", millisJson numerals e.staleUntil),
    ("errorUntil", millisJson numerals e.errorUntil),
    ("freshTtlMs", millisJson numerals e.freshTtlMs),
    ("staleWhileRevalidateMs", millisJson numerals e.staleWhileRevalidateMs),
    ("staleIfErrorMs", millisJson numerals e.staleIfErrorMs)]

def storedJson : Stored Value → Value
  | .plain v => v
  | .envelope e => envelopeJson numerals e

def jsonEntry (entry : CacheSnapshotEntry (Stored Value)) : CacheSnapshotEntry Value :=
  ⟨entry.key, storedJson numerals entry.value, entry.ttl⟩

/-- An absent `ttl` is not written. -/
def CacheSnapshotEntry.toJson (entry : CacheSnapshotEntry Value) : Value :=
  .object ([("key", .string entry.key), ("value", entry.value)] ++
    (entry.ttl.map fun ttl => ("ttl", Value.number (numerals.literal ttl))).toList)

end ToJson

def entriesText (numerals : Numerals Millis) : List (CacheSnapshotEntry Value) → List Char
  | [] => ['\n', ']']
  | entry :: rest =>
    ',' :: (('\n' :: layout 0 (entry.toJson numerals)) ++ entriesText numerals rest)

def snapshotText (numerals : Numerals Millis) : List (CacheSnapshotEntry Value) → String
  | [] => String.ofList ['[', ']']
  | entry :: rest => String.ofList
    ('[' :: (('\n' :: layout 0 (entry.toJson numerals)) ++ entriesText numerals rest))

structure CandidateEntry where
  key : String
  value : Option Value
  ttl : Option Millis

/-- The check of an entry, together with the entry that passes it. -/
def asCacheSnapshotEntry (numerals : Numerals Millis) (entry : Value) : Option CandidateEntry :=
  match entry.get? "key", entry.get? "ttl" with
  | some (.string key), none => some ⟨key, entry.get? "value", none⟩
  | some (.string key), some (.number n) =>
    if 0 ≤ numerals.value n then some ⟨key, entry.get? "value", some (numerals.value n)⟩ else none
  | _, _ => none

def asCacheSnapshotEntries (numerals : Numerals Millis) : Value → Option (List CandidateEntry)
  | .array entries => entries.mapM (asCacheSnapshotEntry numerals)
  | _ => none

def sanitizeSnapshotValue : Option Value → Except String Value
  | none => .error "Cannot read properties of undefined (reading 'byteLength')"
  | some value => do
    -- the payload is a text, so no bytes have to be made one
    let roundTripped ← JsonSerializer.default.deserialize (fun _ => "") (utf8 (stringify value))
    sanitizeStructuredData roundTripped
      { maxDepth := 64, maxNodes := 10000, label := "Snapshot value" }

def sanitizeEntry (entry : CandidateEntry) : Except String (CacheSnapshotEntry Value) := do
  return ⟨entry.key, ← sanitizeSnapshotValue entry.value, entry.ttl⟩

section Operations
variable {G : Type} [ToString G] (numerals : Numerals Millis)

def CacheStack.persistToFile (stack : CacheStack G (Stored Value)) (maxEntries : Option ℕ)
    (now : Millis) : Except String String := do
  return snapshotText numerals ((← stack.exportState maxEntries now).map (jsonEntry numerals))

def CacheStack.restoreFromFile (stack : CacheStack G Value) (raw : String)
    (maxBytes : Option ℕ) (now : Millis) : Except String (CacheStack G Value) :=
  if ∃ limit ∈ maxBytes, raw.utf8ByteSize > limit then
    .error ("Snapshot file exceeds snapshotMaxBytes limit (" ++ toString raw.utf8ByteSize ++
      " bytes > " ++ toString (maxBytes.getD 0) ++ " bytes).")
  else
    match parse raw with
    | none => .error "Invalid snapshot file: could not parse JSON"
    | some parsed =>
      match asCacheSnapshotEntries numerals parsed with
      | none => .error
        "Invalid snapshot file: expected an array of \x7b key: string, value, ttl? \x7d entries"
      | some entries => do stack.importState (← entries.mapM sanitizeEntry) now

/-- The text of an open file, unless its reported size is over the limit. -/
def readSnapshot (lossy : Bytes → String) (maxBytes : Option ℕ) (handle : FileHandle)
    (turns : ℕ) : Option (Except String String) :=
  if ∃ limit ∈ maxBytes, handle.size > limit then
    some (.error (snapshotExceeds (maxBytes.getD 0) handle.size))
  else (readUtf8HandleWithLimit lossy maxBytes handle turns).map (·.1)

/-- A file whose size is reported right is restored from what its handle reads. -/
theorem CacheStack.restoreFromFile_read (stack : CacheStack G Value) (raw : String)
    (maxBytes : Option ℕ) (now : Millis) (lossy : Bytes → String) {handle : FileHandle}
    (hcontent : handle.content = utf8 raw) (hsize : handle.size = handle.content.length)
    {turns : ℕ} (hturns : raw.utf8ByteSize < turns) :
    (readSnapshot lossy maxBytes handle turns).map (fun read =>
        read >>= fun raw => stack.restoreFromFile numerals raw none now) =
      some (stack.restoreFromFile numerals raw maxBytes now) := by
  have hlength : handle.content.length = raw.utf8ByteSize := hcontent ▸ length_utf8 raw
  rw [readSnapshot, restoreFromFile.eq_def numerals stack raw maxBytes now, hsize, hlength]
  by_cases hlimit : ∃ limit ∈ maxBytes, raw.utf8ByteSize > limit
  · rw [if_pos hlimit, if_pos hlimit]
    rfl
  · rw [if_neg hlimit, if_neg hlimit, readUtf8HandleWithLimit_eq lossy maxBytes handle
      (hlength ▸ hturns), hlength, if_neg hlimit, hcontent, utf8Text_utf8, Option.map_some,
      Except.bind_ok, restoreFromFile, if_neg (by simp)]

end Operations

end LayerCache.Snapshot
