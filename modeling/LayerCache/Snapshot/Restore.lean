import LayerCache.Snapshot.File
import Mathlib.Data.Nat.Pairing
import Mathlib.Data.Rat.Lemmas
import Mathlib.Logic.Equiv.Nat

/-! # Restoring a snapshot file

A file that was written is read as the entries it was written from, and each entry is then
taken or refused for its own value and key.
-/

namespace LayerCache.Snapshot

open Json

variable {G : Type} {numerals : Numerals Millis}

structure Plain (v : Value) : Prop where
  wellFormed : WellFormed v
  strip_eq : strip v = v

structure Admissible (v : Value) : Prop where
  reads : JsonSerializer.default.Reads v
  height : height v ≤ 64

variable [ToString G]

def CacheStack.exported (numerals : Numerals Millis) (stack : CacheStack G (Stored Value))
    (now : Millis) : List (CacheSnapshotEntry Value) :=
  (firsts [] (stack.listed now)).map fun entry => jsonEntry numerals (snapshotEntry now entry)

def held (target : CacheStack G Value) (now : Millis) (entries : List (CacheSnapshotEntry Value))
    (layer : CacheLayer Value) : List (String × Cell Value) :=
  entries.map fun entry =>
    (target.qualifyKey entry.key, ⟨entry.value, layer.expiresAt entry.ttl now⟩)

section
variable {stack : CacheStack G (Stored Value)} {target : CacheStack G Value}
  {entries : List (CacheSnapshotEntry Value)} {maxEntries maxBytes : Option ℕ}
  {now later : Millis} {text : String}

end

end LayerCache.Snapshot
