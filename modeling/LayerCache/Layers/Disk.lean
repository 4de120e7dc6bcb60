import Mathlib.Order.Lattice
import Mathlib.Algebra.GroupWithZero.Nat
import Mathlib.Order.Defs.LinearOrder
import Mathlib.Algebra.Group.Defs
import LayerCache.Layers.Protection

/-! # The disk layer

Each key has a file of its own, named by a hash of the key. A file holds the entry as
protected JSON, with the key inside; a read that cannot make sense of the file or finds
the entry expired removes it.
-/

namespace LayerCache

open Json

structure DiskPlatform (T : Type) where
  suite : CipherSuite
  lossy : Bytes → String
  numerals : Numerals T
  /-- The name of a key's file, the hexadecimal SHA-256 of the key. -/
  hashName : String → String

structure DiskEntry (T : Type) where
  key : String
  value : Value
  expiresAt : Option T

structure DiskLayer where
  directory : String
  serializer : JsonSerializer
  maxEntryBytes : Option ℕ
  protection : PayloadProtection

variable {T : Type}

def DiskEntry.toJson (platform : DiskPlatform T) (entry : DiskEntry T) : Value :=
  .object [("key", .string entry.key), ("value", entry.value),
    ("expiresAt", match entry.expiresAt with
      | none => .null
      | some t => .number (platform.numerals.literal t))]

/-- `isDiskEntry`, together with the entry that a value passing it is. -/
def asDiskEntry (platform : DiskPlatform T) (value : Value) : Option (DiskEntry T) :=
  match value.get? "key", value.get? "value", value.get? "expiresAt" with
  | some (.string key), some v, some .null => some ⟨key, v, none⟩
  | some (.string key), some v, some (.number n) => some ⟨key, v, some (platform.numerals.value n)⟩
  | _, _, _ => none

def deadline [LinearOrder T] [Zero T] [Add T] (now : T) (ttl : Option T) : Option T :=
  (ttl.filter fun t => decide (0 < t)).map (now + ·)

namespace DiskLayer
variable (layer : DiskLayer) (platform : DiskPlatform T)

def keyToPath (key : String) : String :=
  layer.directory ++ "/" ++ platform.hashName key ++ ".lc"

/-- The content of the file that `set` renames into place. -/
def file (entry : DiskEntry T) (iv : Iv) : Bytes :=
  layer.protection.protect platform.suite iv (utf8 (stringify (entry.toJson platform)))

def deserializeEntry (raw : Bytes) : Except String (DiskEntry T) := do
  let unprotected ← layer.protection.unprotect platform.suite raw
  let entry ← layer.serializer.deserialize platform.lossy unprotected
  match asDiskEntry platform entry with
  | some entry => .ok entry
  | none => .error "Invalid disk cache entry."

/-- The bytes of a file that is there and not too long. -/
def readEntryFile (file : Option Bytes) : Option Bytes :=
  file.filter fun raw => match layer.maxEntryBytes with
    | none => true
    | some maxEntryBytes => decide (raw.length ≤ maxEntryBytes)

/-- Reads the file of a key: the value if there is one to return, and the file as it is
afterwards. -/
def getEntry [LinearOrder T] (file : Option Bytes) (now : T) : Option Value × Option Bytes :=
  match layer.readEntryFile file with
  | none => (none, none)
  | some raw =>
    match layer.deserializeEntry platform raw with
    | .error _ => (none, none)
    | .ok entry =>
      match entry.expiresAt with
      | some t => if t ≤ now then (none, none) else (some entry.value, some raw)
      | none => (some entry.value, some raw)

end DiskLayer

section
variable {layer : DiskLayer} {platform : DiskPlatform T} {entry : DiskEntry T}

theorem DiskEntry.keys (key : String) (value expiresAt : Value) :
    ofEntries [("key", .string key), ("value", value), ("expiresAt", expiresAt)] =
      [("key", .string key), ("value", value), ("expiresAt", expiresAt)] := by
  have hindex : ∀ k ∈ ["key", "value", "expiresAt"], arrayIndex k = none := by decide
  refine ofEntries_eq_self (fun m hm => hindex m.1 ?_) (by simp)
  simpa using List.mem_map_of_mem (f := (·.1)) hm

theorem DiskEntry.wellFormed (h : WellFormed entry.value) : WellFormed (entry.toJson platform) := by
  refine .object (fun m hm => ?_) (DiskEntry.keys _ _ _)
  simp only [List.mem_cons, List.not_mem_nil, or_false] at hm
  rcases hm with rfl | rfl | rfl
  · exact .string _
  · exact h
  · cases entry.expiresAt <;> constructor

theorem DiskEntry.strip_toJson : strip (entry.toJson platform) =
    ({ entry with value := strip entry.value } : DiskEntry T).toJson platform := by
  obtain ⟨key, value, expiresAt⟩ := entry
  cases expiresAt <;> simp [DiskEntry.toJson, strip, stripMembers, dangerousKeys]

theorem asDiskEntry_toJson : asDiskEntry platform (entry.toJson platform) = some entry := by
  obtain ⟨key, value, expiresAt⟩ := entry
  cases expiresAt with
  | none => simp [asDiskEntry, DiskEntry.toJson, Value.get?, List.find?]
  | some t =>
    simp [asDiskEntry, DiskEntry.toJson, Value.get?, List.find?, platform.numerals.value_literal]

/-- The file of an entry is within the limits of a read. -/
structure DiskLayer.Reads (layer : DiskLayer) (platform : DiskPlatform T) (entry : DiskEntry T) :
    Prop where
  file : ∀ maxEntryBytes ∈ layer.maxEntryBytes,
    (stringify (entry.toJson platform)).utf8ByteSize + layer.protection.overhead ≤ maxEntryBytes
  bytes : (stringify (entry.toJson platform)).utf8ByteSize ≤ layer.serializer.maxBytes
  nodes : nodes (strip entry.value) + 3 ≤ layer.serializer.maxNodes
  depth : height (strip entry.value) + 1 ≤ layer.serializer.maxDepth

theorem reads_toJson_iff : layer.serializer.Reads (entry.toJson platform) ↔
    (stringify (entry.toJson platform)).utf8ByteSize ≤ layer.serializer.maxBytes ∧
      nodes (strip entry.value) + 3 ≤ layer.serializer.maxNodes ∧
      height (strip entry.value) + 1 ≤ layer.serializer.maxDepth := by
  have hnodes : nodes (strip (entry.toJson platform)) = nodes (strip entry.value) + 3 := by
    rw [DiskEntry.strip_toJson]
    cases entry.expiresAt <;> simp [DiskEntry.toJson, nodes, nodesMembers] <;> omega
  have hheight : height (strip (entry.toJson platform)) = height (strip entry.value) + 1 := by
    rw [DiskEntry.strip_toJson]
    cases entry.expiresAt <;> simp [DiskEntry.toJson, height, heightMembers]
  constructor
  · rintro ⟨hb, hn, hd⟩
    exact ⟨hb, hnodes ▸ hn, hheight ▸ hd⟩
  · rintro ⟨hb, hn, hd⟩
    exact ⟨hb, hnodes.symm ▸ hn, hheight.symm ▸ hd⟩

theorem readEntryFile_file (iv : Iv) : layer.readEntryFile (some (layer.file platform entry iv)) =
    if ∀ maxEntryBytes ∈ layer.maxEntryBytes,
      (stringify (entry.toJson platform)).utf8ByteSize + layer.protection.overhead ≤ maxEntryBytes
    then some (layer.file platform entry iv) else none := by
  have hlen : (layer.file platform entry iv).length =
      (stringify (entry.toJson platform)).utf8ByteSize + layer.protection.overhead :=
    PayloadProtection.length_protect iv _
  cases hmax : layer.maxEntryBytes with
  | none => simp [DiskLayer.readEntryFile, hmax]
  | some maxEntryBytes =>
    simp only [DiskLayer.readEntryFile, hmax, Option.filter_some, hlen, Option.mem_def,
      Option.some.injEq, forall_eq', decide_eq_true_eq]

theorem deserializeEntry_file (iv : Iv) :
    layer.deserializeEntry platform (layer.file platform entry iv) =
      layer.serializer.deserialize platform.lossy (utf8 (stringify (entry.toJson platform))) >>=
        fun v => match asDiskEntry platform v with
          | some entry => .ok entry
          | none => .error "Invalid disk cache entry." := by
  have hmagic := PayloadProtection.magic_bytes
  have hplain := @PayloadProtection.unprotect_protect platform.suite layer.protection iv
    (utf8 (stringify (entry.toJson platform)))
    (hmagic.1 ▸ isPrefixOf_stringify _ _) (hmagic.2 ▸ isPrefixOf_stringify _ _)
  rw [DiskLayer.deserializeEntry, DiskLayer.file, hplain, Except.bind_ok]

/-- A live entry within the limits is read as it was written, and stays. -/
theorem getEntry_of_reads [LinearOrder T] (iv : Iv) {now : T} (hwf : WellFormed entry.value)
    (h : layer.Reads platform entry) (hlive : ∀ t ∈ entry.expiresAt, now < t) :
    layer.getEntry platform (some (layer.file platform entry iv)) now =
      (some (strip entry.value), some (layer.file platform entry iv)) := by
  have hentry : layer.deserializeEntry platform (layer.file platform entry iv) =
      .ok { entry with value := strip entry.value } := by
    rw [deserializeEntry_file, deserialize_stringify (DiskEntry.wellFormed hwf)
      (reads_toJson_iff.mpr ⟨h.bytes, h.nodes, h.depth⟩), DiskEntry.strip_toJson, Except.bind_ok,
      asDiskEntry_toJson]
  rw [DiskLayer.getEntry, readEntryFile_file, if_pos h.file]
  simp only [hentry]
  split
  · next t ht => rw [if_neg (not_le.mpr (hlive t ht))]
  · rfl

/-- What is expired or beyond a limit is removed by the read that finds it. -/
theorem getEntry_of_not_reads [LinearOrder T] (iv : Iv) {now : T} (hwf : WellFormed entry.value)
    (h : ¬ (layer.Reads platform entry ∧ ∀ t ∈ entry.expiresAt, now < t)) :
    layer.getEntry platform (some (layer.file platform entry iv)) now = (none, none) := by
  rw [DiskLayer.getEntry, readEntryFile_file]
  split
  · rfl
  · next raw hraw =>
    split at hraw
    · next hfile =>
      cases hraw
      by_cases hreads : layer.serializer.Reads (entry.toJson platform)
      · obtain ⟨hb, hn, hd⟩ := reads_toJson_iff.mp hreads
        have hdead : ¬ ∀ t ∈ entry.expiresAt, now < t := fun hlive =>
          h ⟨⟨hfile, hb, hn, hd⟩, hlive⟩
        rw [deserializeEntry_file, deserialize_stringify (DiskEntry.wellFormed hwf) hreads,
          DiskEntry.strip_toJson, Except.bind_ok, asDiskEntry_toJson]
        dsimp only
        split
        · next t ht =>
          have ht : entry.expiresAt = some t := ht
          rw [if_pos (by simpa [ht] using hdead)]
        · next ht =>
          have ht : entry.expiresAt = none := ht
          exact absurd (by simp [ht]) hdead
      · have hjson : WellFormed (entry.toJson platform) := DiskEntry.wellFormed hwf
        obtain ⟨e, he⟩ := @deserialize_stringify_error _ platform.lossy _ hjson hreads
        rw [deserializeEntry_file, he]
        rfl
    · cases hraw

end

end LayerCache
