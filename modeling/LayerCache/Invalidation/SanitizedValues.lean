import LayerCache.Invalidation.Sanitizer
import LayerCache.Json.Listing

/-! # What the sanitizer lets through

The stripped value is again a value whose objects list their properties in order,
it has no dangerous property at any depth, and stripping it once more changes
nothing. With the limits this settles what sanitizing does to every value.
-/

namespace LayerCache

open Json

/-- No object of the value has a dangerous property, at any depth. -/
inductive Clean : Value → Prop
  | null : Clean .null
  | bool (b : Bool) : Clean (.bool b)
  | number (n : Number) : Clean (.number n)
  | string (s : String) : Clean (.string s)
  | array {items : List Value} (h : ∀ v ∈ items, Clean v) : Clean (.array items)
  | object {members : List (String × Value)} (keys : ∀ m ∈ members, m.1 ∉ dangerousKeys)
      (h : ∀ m ∈ members, Clean m.2) : Clean (.object members)

theorem mem_stripItems {items : List Value} {v : Value} (h : v ∈ stripItems items) :
    ∃ w ∈ items, v = strip w := by
  induction items with
  | nil => exact nomatch h
  | cons w items ih =>
    rw [stripItems] at h
    rcases List.mem_cons.mp h with rfl | h
    · exact ⟨w, List.mem_cons_self, rfl⟩
    · obtain ⟨w', hw', rfl⟩ := ih h
      exact ⟨w', List.mem_cons_of_mem _ hw', rfl⟩

theorem mem_stripMembers {members : List (String × Value)} {m : String × Value}
    (h : m ∈ stripMembers members) :
    m.1 ∉ dangerousKeys ∧ ∃ m' ∈ members, m'.1 = m.1 ∧ m.2 = strip m'.2 := by
  induction members with
  | nil => exact nomatch h
  | cons m' members ih =>
    obtain ⟨k, v⟩ := m'
    have hrest : m ∈ stripMembers members → m.1 ∉ dangerousKeys ∧
        ∃ m' ∈ (k, v) :: members, m'.1 = m.1 ∧ m.2 = strip m'.2 := fun hm => by
      obtain ⟨hk, m', hm', heq⟩ := ih hm
      exact ⟨hk, m', List.mem_cons_of_mem _ hm', heq⟩
    rw [stripMembers] at h
    split at h
    · exact hrest h
    · next hk =>
      rcases List.mem_cons.mp h with rfl | h
      · exact ⟨hk, (k, v), List.mem_cons_self, rfl, rfl⟩
      · exact hrest h

theorem clean_strip (v : Value) : Clean (strip v) := by
  induction v using Value.induction with
  | null => exact .null
  | bool b => exact .bool b
  | number n => exact .number n
  | string s => exact .string s
  | array items ih =>
    rw [strip]
    refine .array fun v hv => ?_
    obtain ⟨w, hw, rfl⟩ := mem_stripItems hv
    exact ih w hw
  | object members ih =>
    rw [strip]
    refine .object (fun m hm => (mem_stripMembers hm).1) fun m hm => ?_
    obtain ⟨-, m', hm', -, heq⟩ := mem_stripMembers hm
    exact heq ▸ ih m' hm'

theorem Clean.strip_eq {v : Value} (h : Clean v) : strip v = v := by
  induction h with
  | null => rfl
  | bool b => rfl
  | number n => rfl
  | string s => rfl
  | array _ ih => rw [strip, stripItems_eq_self ih]
  | object keys _ ih => rw [strip, stripMembers_eq_self keys ih]

theorem sublist_keys_stripMembers (members : List (String × Value)) :
    List.Sublist ((stripMembers members).map (·.1)) (members.map (·.1)) := by
  induction members with
  | nil => exact List.Sublist.slnil
  | cons m members ih =>
    obtain ⟨k, v⟩ := m
    rw [stripMembers]
    split
    · exact ih.cons k
    · exact ih.cons_cons k

theorem listed_iff_keys {ms : List (String × Value)} :
    Listed ms ↔ (ms.map (·.1)).Pairwise fun k k' => listedBefore k' k = false := by
  rw [List.pairwise_map]
  rfl

theorem wellFormed_strip {v : Value} (h : WellFormed v) : WellFormed (strip v) := by
  induction h with
  | null => exact .null
  | bool b => exact .bool b
  | number n => exact .number n
  | string s => exact .string s
  | array _ ih =>
    rw [strip]
    refine .array fun v hv => ?_
    obtain ⟨w, hw, rfl⟩ := mem_stripItems hv
    exact ih w hw
  | @object members _ order ih =>
    rw [strip]
    refine .object (fun m hm => ?_) ?_
    · obtain ⟨-, m', hm', -, heq⟩ := mem_stripMembers hm
      exact heq ▸ ih m' hm'
    · have hsub := sublist_keys_stripMembers members
      have hnodup : (members.map (·.1)).Nodup := order ▸ nodup_keys_ofEntries members
      have hlisted : Listed members := order ▸ listed_ofEntries hnodup
      exact Listed.ofEntries_eq (listed_iff_keys.mpr ((listed_iff_keys.mp hlisted).sublist hsub))
        (hnodup.sublist hsub)

structure SanitizesExactly (options : SanitizeStructuredDataOptions) (v : Value) : Prop where
  throws : (∃ e, sanitizeStructuredData v options = .error e) ↔
    options.maxNodes < nodes (strip v) ∨ options.maxDepth < height (strip v)
  returns : nodes (strip v) ≤ options.maxNodes → height (strip v) ≤ options.maxDepth →
    sanitizeStructuredData v options = .ok (strip v)
  wellFormed : ∀ w, sanitizeStructuredData v options = .ok w → WellFormed v → WellFormed w
  clean : ∀ w, sanitizeStructuredData v options = .ok w → Clean w
  idempotent : ∀ w, sanitizeStructuredData v options = .ok w →
    sanitizeStructuredData w options = .ok w
  identity : Clean v → nodes v ≤ options.maxNodes → height v ≤ options.maxDepth →
    sanitizeStructuredData v options = .ok v

theorem sanitizeStructuredData_eq_ok {options : SanitizeStructuredDataOptions} {v w : Value}
    (h : sanitizeStructuredData v options = .ok w) :
    w = strip v ∧ nodes (strip v) ≤ options.maxNodes ∧ height (strip v) ≤ options.maxDepth := by
  by_cases hfit : nodes (strip v) ≤ options.maxNodes ∧ height (strip v) ≤ options.maxDepth
  · rw [sanitizeStructuredData_ok hfit.1 hfit.2] at h
    exact ⟨(Except.ok.inj h).symm, hfit⟩
  · obtain ⟨e, he⟩ := sanitizeStructuredData_error hfit
    rw [he] at h
    cases h

theorem sanitizes_exactly (options : SanitizeStructuredDataOptions) (v : Value) :
    SanitizesExactly options v where
  throws := by
    constructor
    · rintro ⟨e, he⟩
      by_contra hfit
      push Not at hfit
      rw [sanitizeStructuredData_ok hfit.1 hfit.2] at he
      cases he
    · intro h
      exact sanitizeStructuredData_error (by omega)
  returns := sanitizeStructuredData_ok
  wellFormed := by
    intro w hw hv
    obtain ⟨rfl, -, -⟩ := sanitizeStructuredData_eq_ok hw
    exact wellFormed_strip hv
  clean := by
    intro w hw
    obtain ⟨rfl, -, -⟩ := sanitizeStructuredData_eq_ok hw
    exact clean_strip v
  idempotent := by
    intro w hw
    obtain ⟨rfl, hn, hh⟩ := sanitizeStructuredData_eq_ok hw
    have hstrip := (clean_strip v).strip_eq
    have hok : sanitizeStructuredData (strip v) options = .ok (strip (strip v)) :=
      sanitizeStructuredData_ok (hstrip.symm ▸ hn) (hstrip.symm ▸ hh)
    rwa [hstrip] at hok
  identity := by
    intro hv hn hh
    have hstrip := hv.strip_eq
    have hok : sanitizeStructuredData v options = .ok (strip v) :=
      sanitizeStructuredData_ok (hstrip.symm ▸ hn) (hstrip.symm ▸ hh)
    rwa [hstrip] at hok

end LayerCache
