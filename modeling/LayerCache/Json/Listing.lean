import Mathlib.Data.List.Induction
import LayerCache.Json.Parse

/-! # The order in which an object lists its properties

Filling an object is a stable sort of its properties: array indices come first, in
numeric order. Listing an object that is listed already changes nothing.
-/

namespace Json

def Listed (ms : List (String × Value)) : Prop :=
  ms.Pairwise fun m m' => listedBefore m'.1 m.1 = false

theorem listedBefore_asymm {k k' : String} (h : listedBefore k k' = true) :
    listedBefore k' k = false := by
  unfold listedBefore at *
  cases hk : arrayIndex k <;> cases hk' : arrayIndex k' <;> simp_all
  omega

theorem listedBefore_trans {k k' k'' : String} (h : listedBefore k k' = true)
    (h' : listedBefore k' k'' = true) : listedBefore k k'' = true := by
  unfold listedBefore at *
  cases hk : arrayIndex k <;> cases hk' : arrayIndex k' <;> cases hk'' : arrayIndex k'' <;>
    simp_all
  omega

theorem setProperty_perm {k : String} {v : Value} {ms : List (String × Value)}
    (hne : ∀ m ∈ ms, m.1 ≠ k) : (setProperty k v ms).Perm ((k, v) :: ms) := by
  induction ms with
  | nil => exact List.Perm.refl _
  | cons m ms ih =>
    have hm : k ≠ m.1 := (hne m List.mem_cons_self).symm
    rw [setProperty, if_neg hm]
    split
    · exact List.Perm.refl _
    · have hms := ih fun m' hm' => hne m' (List.mem_cons_of_mem _ hm')
      exact (hms.cons _).trans (List.Perm.swap _ _ _)

theorem Listed.setProperty {k : String} {v : Value} {ms : List (String × Value)}
    (h : Listed ms) (hne : ∀ m ∈ ms, m.1 ≠ k) : Listed (setProperty k v ms) := by
  induction ms with
  | nil => exact List.pairwise_singleton _ _
  | cons m ms ih =>
    have hm : k ≠ m.1 := (hne m List.mem_cons_self).symm
    have hfresh : ms.any (fun m' => m'.1 = k) = false := by
      rw [List.any_eq_false]
      exact fun m' hm' => by simpa using hne m' (List.mem_cons_of_mem _ hm')
    obtain ⟨hhead, htail⟩ := List.pairwise_cons.mp h
    rw [Json.setProperty, if_neg hm, hfresh]
    split
    · next hb =>
      simp only [Bool.not_false, Bool.and_true] at hb
      refine List.pairwise_cons.mpr ⟨fun m' hm' => ?_, h⟩
      rcases List.mem_cons.mp hm' with rfl | hm'
      · exact listedBefore_asymm hb
      · -- what may stand before `k` may stand before the head of the list
        by_contra hc
        have := listedBefore_trans (Bool.not_eq_false _ ▸ hc) hb
        rw [hhead m' hm'] at this
        cases this
    · next hb =>
      simp only [Bool.not_false, Bool.and_true, Bool.not_eq_true] at hb
      have hne' : ∀ m' ∈ ms, m'.1 ≠ k := fun m' hm' => hne m' (List.mem_cons_of_mem _ hm')
      refine List.pairwise_cons.mpr ⟨fun m' hm' => ?_, ih htail hne'⟩
      rcases List.mem_cons.mp ((setProperty_perm hne').mem_iff.mp hm') with rfl | hm'
      · exact hb
      · exact hhead m' hm'

theorem setProperty_last {k : String} {v : Value} {ms : List (String × Value)}
    (hl : ∀ m ∈ ms, listedBefore k m.1 = false) (hne : ∀ m ∈ ms, m.1 ≠ k) :
    setProperty k v ms = ms ++ [(k, v)] := by
  induction ms with
  | nil => rfl
  | cons m ms ih =>
    have hm : k ≠ m.1 := (hne m List.mem_cons_self).symm
    simp [setProperty, hm, hl m List.mem_cons_self,
      ih (fun m' hm' => hl m' (List.mem_cons_of_mem _ hm'))
        fun m' hm' => hne m' (List.mem_cons_of_mem _ hm')]

theorem keys_setProperty (k : String) (v : Value) (ms : List (String × Value)) :
    (∃ m ∈ ms, m.1 = k) ∧ (setProperty k v ms).map (·.1) = ms.map (·.1) ∨
      ∀ m ∈ ms, m.1 ≠ k := by
  induction ms with
  | nil => exact .inr nofun
  | cons m ms ih =>
    by_cases hm : k = m.1
    · exact .inl ⟨⟨m, List.mem_cons_self, hm.symm⟩, by simp [setProperty, hm]⟩
    rcases ih with ⟨⟨m', hm', hk⟩, hkeys⟩ | hne
    · have hany : ms.any (fun m' => m'.1 = k) = true :=
        List.any_eq_true.mpr ⟨m', hm', decide_eq_true hk⟩
      refine .inl ⟨⟨m', List.mem_cons_of_mem _ hm', hk⟩, ?_⟩
      simp [setProperty, hm, hany, hkeys]
    · refine .inr fun m' hm' => ?_
      rcases List.mem_cons.mp hm' with rfl | hm'
      · exact fun h => hm h.symm
      · exact hne m' hm'

theorem nodup_keys_setProperty {k : String} {v : Value} {ms : List (String × Value)}
    (h : (ms.map (·.1)).Nodup) : ((setProperty k v ms).map (·.1)).Nodup := by
  rcases keys_setProperty k v ms with ⟨-, hkeys⟩ | hne
  · rwa [hkeys]
  · rw [((setProperty_perm hne).map _).nodup_iff, List.map_cons, List.nodup_cons]
    refine ⟨fun hk => ?_, h⟩
    obtain ⟨m, hm, hmk⟩ := List.mem_map.mp hk
    exact hne m hm hmk

theorem nodup_keys_ofEntries (entries : List (String × Value)) :
    ((ofEntries entries).map (·.1)).Nodup := by
  induction entries using List.reverseRecOn with
  | nil => exact List.nodup_nil
  | append_singleton done m ih =>
    rw [ofEntries, List.foldl_append]
    exact nodup_keys_setProperty ih

theorem ofEntries_induction {P : List (String × Value) → List (String × Value) → Prop}
    (nil : P [] [])
    (set : ∀ done filled m, P done filled → ((done ++ [m]).map (·.1)).Nodup →
      P (done ++ [m]) (setProperty m.1 m.2 filled)) :
    ∀ entries : List (String × Value), (entries.map (·.1)).Nodup →
      P entries (ofEntries entries) := by
  intro entries
  induction entries using List.reverseRecOn with
  | nil => exact fun _ => nil
  | append_singleton done m ih =>
    intro hnodup
    have hdone : (done.map (·.1)).Nodup := by
      rw [List.map_append] at hnodup
      exact (List.nodup_append.mp hnodup).1
    have hset := set done _ m (ih hdone) hnodup
    simpa [ofEntries, List.foldl_append] using hset

theorem ofEntries_perm {entries : List (String × Value)} (hnodup : (entries.map (·.1)).Nodup) :
    (ofEntries entries).Perm entries := by
  refine ofEntries_induction (P := fun done filled => filled.Perm done) (List.Perm.refl _)
    (fun done filled m hp hn => ?_) entries hnodup
  have hne : ∀ m' ∈ filled, m'.1 ≠ m.1 := fun m' hm' => by
    rw [List.map_append] at hn
    exact (List.nodup_append.mp hn).2.2 _ (List.mem_map_of_mem (hp.mem_iff.mp hm')) _
      List.mem_cons_self
  exact (setProperty_perm hne).trans ((hp.cons _).trans (List.perm_append_singleton _ _).symm)

theorem listed_ofEntries {entries : List (String × Value)} (hnodup : (entries.map (·.1)).Nodup) :
    Listed (ofEntries entries) := by
  refine (ofEntries_induction (P := fun done filled => filled.Perm done ∧ Listed filled)
    ⟨List.Perm.refl _, List.Pairwise.nil⟩ (fun done filled m hp hn => ?_) entries hnodup).2
  have hne : ∀ m' ∈ filled, m'.1 ≠ m.1 := fun m' hm' => by
    rw [List.map_append] at hn
    exact (List.nodup_append.mp hn).2.2 _ (List.mem_map_of_mem (hp.1.mem_iff.mp hm')) _
      List.mem_cons_self
  exact ⟨(setProperty_perm hne).trans ((hp.1.cons _).trans (List.perm_append_singleton _ _).symm),
    hp.2.setProperty hne⟩

theorem Listed.ofEntries_eq {entries : List (String × Value)} (h : Listed entries)
    (hnodup : (entries.map (·.1)).Nodup) : ofEntries entries = entries := by
  induction entries using List.reverseRecOn with
  | nil => rfl
  | append_singleton done m ih =>
    rw [List.map_append] at hnodup
    obtain ⟨hdone, -, hne⟩ := List.nodup_append.mp hnodup
    obtain ⟨hl, -, hlast⟩ := List.pairwise_append.mp h
    rw [ofEntries, List.foldl_append]
    change Json.setProperty m.1 m.2 (ofEntries done) = _
    rw [ih hl hdone]
    exact setProperty_last (fun m' hm' => hlast m' hm' m List.mem_cons_self)
      fun m' hm' => hne _ (List.mem_map_of_mem hm') _ List.mem_cons_self

theorem ofEntries_ofEntries {entries : List (String × Value)}
    (hnodup : (entries.map (·.1)).Nodup) : ofEntries (ofEntries entries) = ofEntries entries :=
  (listed_ofEntries hnodup).ofEntries_eq
    (((ofEntries_perm hnodup).map _).nodup_iff.mpr hnodup)

/-- Texts tell well-formed values apart, also with more text after them. -/
theorem print_append_injective {v w : Value} {rest rest' : List Char} (hv : WellFormed v)
    (hw : WellFormed w) (hr : Follows rest) (hr' : Follows rest')
    (h : print v ++ rest = print w ++ rest') : v = w ∧ rest = rest' := by
  have hread := hv.readsBack ((print v).length + (print w).length) rest (by omega) hr
  rw [h, hw.readsBack _ rest' (by omega) hr'] at hread
  have := Option.some.inj hread
  exact ⟨(Prod.mk.inj this).1.symm, (Prod.mk.inj this).2.symm⟩

end Json
