import LayerCache.Snapshot.Export

/-! # What an import leaves

An empty layer that is imported into holds the records that fit, the last ones first to
stay.
-/

namespace LayerCache.Snapshot

variable {G S V : Type}

def CacheStack.Empty (stack : CacheStack G S) : Prop := ∀ layer ∈ stack.layers, layer.entries = []

/-- The layer takes writes and holds that many entries. -/
def CacheLayer.Holds (layer : CacheLayer S) (now : Millis) (count : ℕ) : Prop :=
  layer.shouldSkipLayer now = false ∧ ∀ m ∈ layer.maxSize, count ≤ m

namespace CacheLayer

def stored (layer : CacheLayer S) (now : Millis) (record : CacheSnapshotEntry S) :
    String × Cell S :=
  (record.key, ⟨record.value, layer.expiresAt record.ttl now⟩)

variable {layer : CacheLayer S} {now : Millis} {records : List (CacheSnapshotEntry S)}

end CacheLayer

section
variable {layers : List (CacheLayer S)} {now : Millis} {records : List (CacheSnapshotEntry S)}

variable [ToString G] {stack : CacheStack G S}

end

end LayerCache.Snapshot
