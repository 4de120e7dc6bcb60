import LayerCache.Snapshot.Stack
import Mathlib.Data.List.Dedup
import Mathlib.Data.List.Sublists

/-! # What an export writes

An export writes, for every user key it comes across, the entry it comes across first.
-/

namespace LayerCache.Snapshot

/-- Keeps the first entry under each name that is not in the list. -/
def firsts {S : Type} : List String → List (String × S) → List (String × S)
  | _, [] => []
  | seen, (name, value) :: rest =>
    if name ∈ seen then firsts seen rest else (name, value) :: firsts (name :: seen) rest

section Firsts
variable {S : Type} {seen : List String} {entries : List (String × S)} {name : String} {value : S}

end Firsts

section
variable {G V : Type} [ToString G] (stack : CacheStack G (Stored V)) (now : Millis)

def CacheStack.listed : List (String × Stored V) :=
  (stack.visits now).filterMap fun visit =>
    (readLayerEntry visit.1 now visit.2).map (stack.stripQualifiedKey visit.2, ·)

def snapshotEntry (entry : String × Stored V) : CacheSnapshotEntry (Stored V) :=
  ⟨entry.1, entry.2, remainingStoredTtlMs now entry.2 now⟩

variable {stack now} {maxEntries : Option ℕ}

end

end LayerCache.Snapshot
