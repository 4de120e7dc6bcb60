import LayerCache.Layered.Basic
import Mathlib.Data.List.Nodup

/-! # What a read returns and leaves

A read without a fetcher passes the layers that have nothing live, deletes what it finds expired
there, and stops at the first live entry. That entry goes to the layers before it as it is, and
nothing else changes.
-/

namespace LayerCache.Layered

open Ttl

variable {K V : Type}

namespace Slot

variable {now : Millis} {slot : Option (Slot V)} {stored : Stored V}

theorem getEntry_keeps (h : (getEntry now slot).1 = some stored) :
    (getEntry now slot).2 = slot := by
  cases slot with
  | none => rfl
  | some slot =>
    simp only [getEntry] at h ⊢
    split at h
    · cases h
    · rename_i hexpired
      rw [if_neg hexpired]
      split at h <;> simp_all

theorem getEntry_of_not_expired {slot : Slot V} (hpayload : slot.payload = .stored stored)
    (h : slot.isExpired now = false) : (getEntry now (some slot)).1 = some stored := by
  simp [getEntry, h, hpayload]

end Slot

theorem LayerKind.lt_keepsUntil {now ttl : Millis} (h : 0 < ttl) (kind : LayerKind) :
    now < kind.keepsUntil now ttl := by
  cases kind with
  | memcached =>
    have hceil : 0 < ⌈ttl / 1000⌉ := Int.ceil_pos.mpr (by positivity)
    have hcast : (0 : ℚ) < ⌈ttl / 1000⌉ := by exact_mod_cast hceil
    simp only [keepsUntil]
    linarith
  | memory | redis | disk =>
    simp only [keepsUntil]
    linarith

theorem Layer.isExpired_backfillSlot (layer : Layer) (planned filled : Millis)
    (stored : Stored V) (ttl : Option LayerNumber) (l : ℕ) (resolved : List (Option Millis)) :
    (layer.backfillSlot planned filled stored ttl l resolved).isExpired filled = false := by
  simp only [Slot.isExpired, Layer.backfillSlot, Layer.expiresAt]
  split
  · rfl
  · split
    · rename_i hpos
      simpa using LayerKind.lt_keepsUntil hpos layer.kind
    · rfl

namespace LayeredStack

/-- The entry under a key of a layer that a read can use: the layer is not degraded and answers
with an entry that has not expired. -/
def live (s : LayeredStack K V) (now : Millis) (l : ℕ) (k : K) : Option (Stored V) :=
  if s.degraded l then none
  else (s.answer now l k).filter fun stored =>
    decide ((resolveStoredValue now stored now).state ≠ .expired)

/-- The first layer with a live entry, each layer at the moment when it is asked. -/
structure FirstLive (s : LayeredStack K V) (m : Moments) (k : K) (l : ℕ) (stored : Stored V) :
    Prop where
  lt : l < s.layers.length
  live : s.live (m.asked l) l k = some stored
  before : ∀ l' < l, s.live (m.asked l') l' k = none

variable {s s' : LayeredStack K V} {m : Moments} {k k' : K} {l l' : ℕ} {now : Millis}
  {stored : Stored V} {ttl : Option LayerNumber}

theorem live_eq_some_iff :
    s.live now l k = some stored ↔ s.degraded l = false ∧ s.answer now l k = some stored ∧
      (resolveStoredValue now stored now).state ≠ .expired := by
  cases hd : s.degraded l <;> simp [live, hd, Option.filter_eq_some_iff]

theorem exists_firstLive (h : ∃ l < s.layers.length, s.live (m.asked l) l k ≠ none) :
    ∃ l stored, s.FirstLive m k l stored := by
  classical
  obtain ⟨hlt, hlive⟩ := Nat.find_spec h
  obtain ⟨stored, hstored⟩ := Option.ne_none_iff_exists'.mp hlive
  refine ⟨Nat.find h, stored, hlt, hstored, fun l' hl' => ?_⟩
  by_contra hne
  exact Nat.find_min h hl' ⟨hl'.trans hlt, hne⟩

variable [DecidableEq K]

theorem slots_setSlot_of_ne {slot : Option (Slot V)} (h : k' ≠ k ∨ l' ≠ l) :
    (s.setSlot l k slot).slots l' k' = s.slots l' k' := by
  simp only [setSlot]
  rw [if_neg]
  rintro ⟨rfl, rfl⟩
  exact h.elim (· rfl) (· rfl)

theorem setSlot_self (s : LayeredStack K V) (l : ℕ) (k : K) :
    s.setSlot l k (s.slots l k) = s := by
  simp only [setSlot]
  congr
  funext l' k'
  split
  · rename_i h
    rw [h.1, h.2]
  · rfl

/-- What a read leaves of a layer in which it finds nothing live. -/
def pass (m : Moments) (k : K) (s : LayeredStack K V) (l : ℕ) : LayeredStack K V :=
  if s.degraded l then s
  else
    s.setSlot l k
      (if (s.answer (m.asked l) l k).isSome then none
        else (Slot.getEntry (m.asked l) (s.slots l k)).2)

@[simp] theorem layers_pass (s : LayeredStack K V) (l : ℕ) : (pass m k s l).layers = s.layers := by
  unfold pass
  split <;> rfl

@[simp] theorem degraded_pass (s : LayeredStack K V) (l : ℕ) :
    (pass m k s l).degraded = s.degraded := by
  unfold pass
  split <;> rfl

theorem slots_pass (h : k' ≠ k ∨ l' ≠ l ∨ s.degraded l' = true) :
    (pass m k s l).slots l' k' = s.slots l' k' := by
  unfold pass
  split
  · rfl
  · rename_i hd
    rcases h with hk | hl | hd'
    · exact slots_setSlot_of_ne (Or.inl hk)
    · exact slots_setSlot_of_ne (Or.inr hl)
    · refine slots_setSlot_of_ne (Or.inr ?_)
      rintro rfl
      exact hd hd'

theorem live_pass_of_ne (h : l' ≠ l) : (pass m k s l).live now l' k = s.live now l' k := by
  simp only [live, answer, degraded_pass, slots_pass (Or.inr (Or.inl h))]

theorem readFromLayers_pass (h : s.live (m.asked l) l k = none) (todo : List ℕ) :
    readFromLayers m k ttl (l :: todo) s = readFromLayers m k ttl todo (pass m k s l) := by
  cases hd : s.degraded l with
  | true => simp [readFromLayers, readLayerEntry, pass, hd]
  | false =>
    cases ha : s.answer (m.asked l) l k with
    | none => simp [readFromLayers, readLayerEntry, pass, hd, ha]
    | some stored =>
      have hexpired : (resolveStoredValue (m.asked l) stored (m.asked l)).state = .expired := by
        by_contra hne
        have hlive := live_eq_some_iff.mpr ⟨hd, ha, hne⟩
        rw [h] at hlive
        cases hlive
      have htwice : ∀ a b : Option (Slot V), (s.setSlot l k a).setSlot l k b = s.setSlot l k b := by
        intro a b
        simp only [setSlot]
        congr
        funext l' k'
        split <;> rfl
      simp [readFromLayers, readLayerEntry, pass, hd, ha, hexpired, htwice]

theorem readFromLayers_append {passed : List ℕ} (hnodup : passed.Nodup)
    (h : ∀ l ∈ passed, s.live (m.asked l) l k = none) (todo : List ℕ) :
    readFromLayers m k ttl (passed ++ todo) s =
      readFromLayers m k ttl todo (passed.foldl (pass m k) s) := by
  induction passed generalizing s with
  | nil => rfl
  | cons l passed ih =>
    obtain ⟨hl, hnodup⟩ := List.nodup_cons.mp hnodup
    rw [List.cons_append, readFromLayers_pass (h l List.mem_cons_self), List.foldl_cons]
    refine ih hnodup fun l' hl' => ?_
    rw [live_pass_of_ne (ne_of_mem_of_not_mem hl' hl)]
    exact h l' (List.mem_cons_of_mem _ hl')

@[simp] theorem layers_foldl_pass (passed : List ℕ) (s : LayeredStack K V) :
    (passed.foldl (pass m k) s).layers = s.layers := by
  induction passed generalizing s with
  | nil => rfl
  | cons l passed ih => rw [List.foldl_cons, ih, layers_pass]

@[simp] theorem degraded_foldl_pass (passed : List ℕ) (s : LayeredStack K V) :
    (passed.foldl (pass m k) s).degraded = s.degraded := by
  induction passed generalizing s with
  | nil => rfl
  | cons l passed ih => rw [List.foldl_cons, ih, degraded_pass]

theorem slots_foldl_pass {passed : List ℕ}
    (h : k' ≠ k ∨ l' ∉ passed ∨ s.degraded l' = true) :
    (passed.foldl (pass m k) s).slots l' k' = s.slots l' k' := by
  induction passed generalizing s with
  | nil => rfl
  | cons l passed ih =>
    rw [List.mem_cons, not_or] at h
    rw [List.foldl_cons, ih (by rw [degraded_pass]; tauto), slots_pass (by tauto)]

theorem readFromLayers_of_live (h : s.live (m.asked l) l k = some stored) (todo : List ℕ) :
    readFromLayers m k ttl (l :: todo) s =
      (some ⟨stored, hitValue (m.asked l) stored,
        (resolveStoredValue (m.asked l) stored (m.asked l)).state, l⟩,
        s.backfill m k stored l ttl) := by
  obtain ⟨hd, ha, hne⟩ := live_eq_some_iff.mp h
  have hkeeps : s.setSlot l k (Slot.getEntry (m.asked l) (s.slots l k)).2 = s := by
    rw [Slot.getEntry_keeps ha, setSlot_self]
  simp [readFromLayers, readLayerEntry, hd, ha, hne, hkeeps]

theorem range_split {n : ℕ} (h : l < n) :
    List.range n = List.range l ++ l :: List.range' (l + 1) (n - (l + 1)) := by
  have hn : n = l + (n - (l + 1) + 1) := by omega
  calc List.range n = List.range' 0 (l + (n - (l + 1) + 1)) := by
        rw [List.range_eq_range', ← hn]
    _ = List.range' 0 l ++ List.range' (0 + l) (n - (l + 1) + 1) := List.range'_append_1.symm
    _ = List.range l ++ l :: List.range' (l + 1) (n - (l + 1)) := by
        rw [List.range_eq_range', List.range'_succ, zero_add]

/-- What a read does when some layer has a live entry: it stops at the first. -/
theorem readFromLayers_of_firstLive (h : s.FirstLive m k l stored) :
    readFromLayers m k ttl (List.range s.layers.length) s =
      (some ⟨stored, hitValue (m.asked l) stored,
        (resolveStoredValue (m.asked l) stored (m.asked l)).state, l⟩,
        ((List.range l).foldl (pass m k) s).backfill m k stored l ttl) := by
  have hlive : ((List.range l).foldl (pass m k) s).live (m.asked l) l k = some stored := by
    simp only [live, answer, degraded_foldl_pass]
    rw [slots_foldl_pass (Or.inr (Or.inl (by simp)))]
    exact h.live
  rw [range_split h.lt, readFromLayers_append List.nodup_range fun l' hl' =>
    h.before l' (List.mem_range.mp hl'), readFromLayers_of_live hlive]

theorem readFromLayers_of_no_live
    (h : ∀ l < s.layers.length, s.live (m.asked l) l k = none) :
    readFromLayers m k ttl (List.range s.layers.length) s =
      (none, (List.range s.layers.length).foldl (pass m k) s) := by
  have happend : readFromLayers m k ttl (List.range s.layers.length ++ []) s =
      readFromLayers m k ttl [] ((List.range s.layers.length).foldl (pass m k) s) :=
    readFromLayers_append List.nodup_range (fun l hl => h l (List.mem_range.mp hl)) []
  rw [List.append_nil] at happend
  exact happend

/-- The layers before the one that is read get the entry as it is, deadlines included, and have it
from then on. -/
theorem answer_backfill {layer : Layer} (hlayer : s.layers[l']? = some layer) (hlt : l' < l)
    (hd : s.degraded l' = false) :
    (s.backfill m k stored l ttl).answer (m.filled l') l' k = some stored := by
  have hslot : (s.backfill m k stored l ttl).slots l' k =
      some (layer.backfillSlot m.planned (m.filled l') stored ttl l' (s.resolved l k)) := by
    simp [backfill, hlayer, hlt, hd]
  rw [answer, hslot]
  exact Slot.getEntry_of_not_expired rfl
    (Layer.isExpired_backfillSlot layer m.planned (m.filled l') stored ttl l' (s.resolved l k))

theorem slots_backfill_of_not (h : ¬ (k' = k ∧ l' < l ∧ s.degraded l' = false)) :
    (s.backfill m k stored l ttl).slots l' k' = s.slots l' k' := by
  simp only [backfill]
  split
  · rfl
  · rw [if_neg]
    simpa using h

/-- A read finds the first live entry, hands out its value and gives the layers before it the
entry itself; without a live entry it is `undefined`. Nothing else changes, but for entries under
the key that the read has found expired. -/
theorem getPrepared_spec (s : LayeredStack K V) (m : Moments) (k : K)
    (ttl : Option LayerNumber) :
    (∀ l stored, s.FirstLive m k l stored →
      (s.getPrepared m k ttl).1 = hitValue (m.asked l) stored ∧
      (∀ l' < l, s.degraded l' = false →
        (s.getPrepared m k ttl).2.answer (m.filled l') l' k = some stored) ∧
      ∀ l' k', k' ≠ k ∨ l ≤ l' ∨ s.degraded l' = true →
        (s.getPrepared m k ttl).2.slots l' k' = s.slots l' k') ∧
    ((∀ l < s.layers.length, s.live (m.asked l) l k = none) →
      (s.getPrepared m k ttl).1 = .undefined ∧
      ∀ l' k', k' ≠ k ∨ s.degraded l' = true →
        (s.getPrepared m k ttl).2.slots l' k' = s.slots l' k') := by
  constructor
  · intro l stored h
    rw [getPrepared, readFromLayers_of_firstLive h]
    refine ⟨rfl, fun l' hlt hd => ?_, fun l' k' hne => ?_⟩
    · have hlayer := List.getElem?_eq_getElem (hlt.trans h.lt)
      exact answer_backfill (by rw [layers_foldl_pass]; exact hlayer) hlt
        (by rw [degraded_foldl_pass]; exact hd)
    · dsimp only
      rw [slots_backfill_of_not, slots_foldl_pass]
      · rw [List.mem_range]
        exact hne.imp_right (Or.imp_left not_lt.mpr)
      · rw [degraded_foldl_pass]
        rintro ⟨rfl, hlt, hd⟩
        rcases hne with hk | hle | hd'
        · exact hk rfl
        · exact absurd hlt (not_lt.mpr hle)
        · rw [hd] at hd'
          cases hd'
  · intro h
    rw [getPrepared, readFromLayers_of_no_live h]
    refine ⟨rfl, fun l' k' hne => ?_⟩
    dsimp only
    exact slots_foldl_pass (hne.imp_right Or.inr)

end LayeredStack

end LayerCache.Layered
