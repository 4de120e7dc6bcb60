import LayerCache.Layered.Read

/-! # `has` and `getEntry`

`getEntry` decodes what the layers hold and goes by its deadlines; `has` asks each layer for its own
existence test. A live entry passes that test in every kind of layer. The two differ where nothing
is live and a layer still keeps something: an entry past its deadlines, or, outside the disk layer,
what decodes to no entry.
-/

namespace LayerCache.Layered

open Ttl

variable {K V : Type}

structure CacheEntryResult (K V : Type*) where
  key : K
  value : Js V
  kind : CacheWriteKind
  state : StoredValueState
  layer : String
deriving DecidableEq, Repr

namespace Slot

/-- What passes the existence test of the layer without being an entry that can be read. -/
def Lingers (now : Millis) (kind : LayerKind) : Option (Slot V) → Prop
  | none => False
  | some slot =>
    slot.isExpired now = false ∧
      match slot.payload with
      | .stored entry => (resolveStoredValue now entry now).state = .expired
      | .null | .corrupt => kind ≠ .disk

end Slot

namespace LayeredStack

variable [DecidableEq K]

/-- The loop of `getEntry` over the layers in `todo`. -/
def getEntryFrom (m : Moments) (k : K) :
    List ℕ → LayeredStack K V → Option (CacheEntryResult K V) × LayeredStack K V
  | [], s => (none, s)
  | l :: todo, s =>
    match s.layers[l]? with
    | none => getEntryFrom m k todo s
    | some layer =>
      if s.degraded l then getEntryFrom m k todo s
      else
        let read := s.readLayerEntry (m.asked l) l k
        match read.1 with
        | none => getEntryFrom m k todo read.2
        | some stored =>
          let resolved := resolveStoredValue (m.asked l) stored (m.asked l)
          if resolved.state = .expired then getEntryFrom m k todo (read.2.setSlot l k none)
          else
            (some
              { key := k
                value := resolved.value
                kind := (resolved.envelope.map fun e => e.kind).getD .value
                state := resolved.state
                layer := layer.name },
              read.2.backfill m k stored l none)

def getEntry (s : LayeredStack K V) (m : Moments) (k : K) :
    Option (CacheEntryResult K V) × LayeredStack K V :=
  getEntryFrom m k (List.range s.layers.length) s

/-- The loop of `has` over the layers in `todo`. -/
def hasFrom (m : Moments) (k : K) : List ℕ → LayeredStack K V → Bool × LayeredStack K V
  | [], s => (false, s)
  | l :: todo, s =>
    match s.layers[l]? with
    | none => hasFrom m k todo s
    | some layer =>
      if s.degraded l then hasFrom m k todo s
      else
        let found := Slot.has (m.asked l) (s.slots l k) layer.kind
        if found.1 then (true, s.setSlot l k found.2)
        else hasFrom m k todo (s.setSlot l k found.2)

def has (s : LayeredStack K V) (m : Moments) (k : K) : Bool × LayeredStack K V :=
  hasFrom m k (List.range s.layers.length) s

variable {s : LayeredStack K V} {m : Moments} {k : K} {l : ℕ} {now : Millis}

theorem getEntryFrom_eq {todo : List ℕ} (h : ∀ l ∈ todo, l < s.layers.length) :
    (getEntryFrom m k todo s).1.isSome = (readFromLayers m k none todo s).1.isSome ∧
      (getEntryFrom m k todo s).2 = (readFromLayers m k none todo s).2 := by
  induction todo generalizing s with
  | nil => exact ⟨rfl, rfl⟩
  | cons l todo ih =>
    have hlayer := List.getElem?_eq_getElem (h l List.mem_cons_self)
    have hrest := fun l' hl' => h l' (List.mem_cons_of_mem l hl')
    simp only [getEntryFrom, readFromLayers, hlayer, readLayerEntry]
    cases hd : s.degraded l with
    | true => simpa using ih hrest
    | false =>
      cases ha : s.answer (m.asked l) l k with
      | none => simpa using ih (s := s.setSlot l k _) hrest
      | some stored =>
        by_cases hexpired :
            (resolveStoredValue (m.asked l) stored (m.asked l)).state = .expired
        · simpa [hexpired] using ih (s := (s.setSlot l k _).setSlot l k none) hrest
        · simp [hexpired]

theorem getEntry_isSome_iff :
    (s.getEntry m k).1.isSome = true ↔ ∃ l < s.layers.length, s.live (m.asked l) l k ≠ none := by
  rw [getEntry, (getEntryFrom_eq fun l hl => List.mem_range.mp hl).1]
  constructor
  · intro h
    by_contra hnone
    push Not at hnone
    rw [readFromLayers_of_no_live hnone] at h
    cases h
  · intro h
    obtain ⟨l, stored, hfirst⟩ := exists_firstLive h
    rw [readFromLayers_of_firstLive hfirst]
    rfl

theorem slot_has_iff {slot : Option (Slot V)} {kind : LayerKind} :
    (Slot.has now slot kind).1 = true ↔ Slot.Lingers now kind slot ∨
      ∃ stored, (Slot.getEntry now slot).1 = some stored ∧
        (resolveStoredValue now stored now).state ≠ .expired := by
  cases slot with
  | none => cases kind <;> simp [Slot.has, Slot.getEntry, Slot.Lingers]
  | some slot =>
    cases hexpired : slot.isExpired now with
    | true => cases kind <;> simp [Slot.has, Slot.getEntry, Slot.Lingers, hexpired]
    | false =>
      cases hpayload : slot.payload with
      | stored entry =>
        have hem := em ((resolveStoredValue now entry now).state = .expired)
        cases kind <;> simpa [Slot.has, Slot.getEntry, Slot.Lingers, hexpired, hpayload] using hem
      | null => cases kind <;> simp [Slot.has, Slot.getEntry, Slot.Lingers, hexpired, hpayload]
      | corrupt => cases kind <;> simp [Slot.has, Slot.getEntry, Slot.Lingers, hexpired, hpayload]

theorem hasFrom_iff {todo : List ℕ} (hnodup : todo.Nodup) :
    (hasFrom m k todo s).1 = true ↔ ∃ l ∈ todo, ∃ layer, s.layers[l]? = some layer ∧
      s.degraded l = false ∧ (Slot.has (m.asked l) (s.slots l k) layer.kind).1 = true := by
  induction todo generalizing s with
  | nil => simp [hasFrom]
  | cons l todo ih =>
    obtain ⟨hl, hnodup⟩ := List.nodup_cons.mp hnodup
    -- Passing layer `l` leaves what the later layers are asked about.
    have hrest : ∀ slot, (∃ l' ∈ todo, ∃ layer, (s.setSlot l k slot).layers[l']? = some layer ∧
        (s.setSlot l k slot).degraded l' = false ∧
        (Slot.has (m.asked l') ((s.setSlot l k slot).slots l' k) layer.kind).1 = true) ↔
        ∃ l' ∈ todo, ∃ layer, s.layers[l']? = some layer ∧ s.degraded l' = false ∧
          (Slot.has (m.asked l') (s.slots l' k) layer.kind).1 = true := by
      intro slot
      refine exists_congr fun l' => and_congr_right fun hl' => ?_
      rw [slots_setSlot_of_ne (Or.inr (ne_of_mem_of_not_mem hl' hl))]
      rfl
    simp only [hasFrom, List.exists_mem_cons_iff]
    cases hlayer : s.layers[l]? with
    | none => simp [ih hnodup]
    | some layer =>
      cases hd : s.degraded l with
      | true => simp [ih hnodup]
      | false =>
        cases hhas : (Slot.has (m.asked l) (s.slots l k) layer.kind).1 with
        | true => simp [hhas]
        | false => simpa [hhas, ih hnodup] using hrest _

/-- Some layer that is not degraded keeps under the key what it takes for existing and no read can
use. -/
def Remains (s : LayeredStack K V) (m : Moments) (k : K) : Prop :=
  ∃ l layer, s.layers[l]? = some layer ∧ s.degraded l = false ∧
    Slot.Lingers (m.asked l) layer.kind (s.slots l k)

theorem has_iff :
    (s.has m k).1 = true ↔
      s.Remains m k ∨ ∃ l < s.layers.length, s.live (m.asked l) l k ≠ none := by
  rw [has, hasFrom_iff List.nodup_range]
  simp only [slot_has_iff]
  constructor
  · rintro ⟨l, hl, layer, hlayer, hd, hlingers | ⟨stored, ha, hne⟩⟩
    · exact .inl ⟨l, layer, hlayer, hd, hlingers⟩
    · refine .inr ⟨l, List.mem_range.mp hl, ?_⟩
      rw [live_eq_some_iff.mpr ⟨hd, ha, hne⟩]
      exact Option.some_ne_none stored
  · rintro (⟨l, layer, hlayer, hd, hlingers⟩ | ⟨l, hl, hlive⟩)
    · exact ⟨l, List.mem_range.mpr (List.getElem?_eq_some_iff.mp hlayer).1, layer, hlayer, hd,
        .inl hlingers⟩
    · obtain ⟨stored, hstored⟩ := Option.ne_none_iff_exists'.mp hlive
      obtain ⟨hd, ha, hne⟩ := live_eq_some_iff.mp hstored
      exact ⟨l, List.mem_range.mpr hl, _, List.getElem?_eq_getElem hl, hd, .inr ⟨stored, ha, hne⟩⟩

/-- `has` agrees with `getEntry` unless nothing is live and something remains. -/
theorem has_agrees_iff (s : LayeredStack K V) (m : Moments) (k : K) :
    ((s.has m k).1 = true ↔ (s.getEntry m k).1.isSome = true) ↔
      (∃ l < s.layers.length, s.live (m.asked l) l k ≠ none) ∨ ¬ s.Remains m k := by
  rw [has_iff, getEntry_isSome_iff, or_iff_right_iff_imp, imp_iff_or_not]

/-- One Memcached layer of a second and a half, and an entry set at the instant zero. -/
def roundedUp : LayeredStack String String :=
  let layer : Layer := ⟨⟨"memcached", some 1500⟩, .memcached⟩
  let envelope := createStoredValueEnvelope .value (some "v") ⟨some 1500, none, none⟩ 0
  { layers := [layer]
    degraded := fun _ => false
    slots := fun l k =>
      if l = 0 ∧ k = "k" then
        some (layer.writeSlot 0
          { key := "k", value := envelope, ttl := remainingStoredTtlMs 0 (.envelope envelope) 0 }
          [some 1500])
      else none }

/-- Memcached keeps the entry to the end of the second. -/
theorem roundedUp_has : (roundedUp.has (.at 1700) "k").1 = true ∧
    ¬ ((roundedUp.has (.at 1700) "k").1 = true ↔
      (roundedUp.getEntry (.at 1700) "k").1.isSome = true) := by
  decide +kernel

end LayeredStack

end LayerCache.Layered
