import LayerCache.Keys.Reading
import LayerCache.Layers.Serializer
import LayerCache.Matching.RedisGlob
import LayerCache.Namespace.Stack

/-! # One pattern in two dialects

The pattern matcher reads a pattern in code units, Redis reads it in bytes. Where the pattern has
no symbol of Redis's own, and no question mark for a character of several bytes, what matches in
code units matches in characters, and what matches in characters matches in bytes.
-/

namespace LayerCache.Dialects

open Namespaced (units wildcards patternMatches)
open Keys (codeUnits)

def charWildcards : Glob.Wildcards Char where
  star := '*'
  any := '?'

theorem codeUnits_head (c : Char) : ∃ u us, codeUnits c = u :: us ∧ (u < 0xDC00 ∨ 0xDFFF < u) := by
  have hvalid : c.toNat < 0xD800 ∨ 0xDFFF < c.toNat ∧ c.toNat < 0x110000 := c.valid
  unfold codeUnits
  split
  · exact ⟨_, _, rfl, by omega⟩
  · exact ⟨_, _, rfl, by omega⟩

/-- The rest of a text in code units begins with a character, or in the middle of one. -/
theorem exists_rest {key : List Char} {us rest : List ℕ}
    (h : key.flatMap codeUnits = us ++ rest) :
    ∃ front back low, key = front ++ back ∧ rest = low ++ back.flatMap codeUnits ∧
      (low = [] ∨ ∃ u, low = [u] ∧ 0xDC00 ≤ u ∧ u ≤ 0xDFFF ∧ ∃ c ∈ key, 0x10000 ≤ c.toNat) := by
  induction key generalizing us with
  | nil =>
    obtain ⟨-, rfl⟩ := List.append_eq_nil_iff.mp h.symm
    exact ⟨[], [], [], rfl, rfl, .inl rfl⟩
  | cons c key ih =>
    have hlater : ∀ {us'}, key.flatMap codeUnits = us' ++ rest → ∃ front back low,
        c :: key = front ++ back ∧ rest = low ++ back.flatMap codeUnits ∧ (low = [] ∨
          ∃ u, low = [u] ∧ 0xDC00 ≤ u ∧ u ≤ 0xDFFF ∧ ∃ c' ∈ c :: key, 0x10000 ≤ c'.toNat) := by
      intro us' h'
      obtain ⟨front, back, low, rfl, hrest, hlow⟩ := ih h'
      refine ⟨c :: front, back, low, rfl, hrest, hlow.imp_right ?_⟩
      rintro ⟨u, hu, hge, hle, d, hd, hlarge⟩
      exact ⟨u, hu, hge, hle, d, List.mem_cons_of_mem _ hd, hlarge⟩
    cases us with
    | nil => exact ⟨[], c :: key, [], rfl, h.symm, .inl rfl⟩
    | cons u us =>
      rw [List.flatMap_cons] at h
      by_cases hsmall : c.toNat < 0x10000
      · rw [codeUnits, if_pos hsmall] at h
        exact hlater (List.cons.inj h).2
      · rw [codeUnits, if_neg hsmall] at h
        obtain ⟨-, h⟩ := List.cons.inj h
        cases us with
        | nil =>
          refine ⟨[c], key, _, rfl, h.symm, .inr ⟨_, rfl, ?_, ?_, c, List.mem_cons_self, ?_⟩⟩
          all_goals omega
        | cons u' us => exact hlater (List.cons.inj h).2

theorem not_mem_codeUnits {c d : Char} (hd : d.toNat < 0xD800) (hne : c ≠ d) :
    d.toNat ∉ codeUnits c := by
  have hvalues : c.toNat ≠ d.toNat := fun h => hne (Char.toNat_inj.mp h)
  unfold codeUnits
  split <;> simp <;> omega

/-- A match in code units never ends in the middle of a character, unless a star or a question
mark takes half of one. -/
theorem matches_chars {pattern key : List Char} {low : List ℕ}
    (hlow : low = [] ∨ ∃ u, low = [u] ∧ 0xDC00 ≤ u ∧ u ≤ 0xDFFF ∧ '?' ∉ pattern)
    (hany : '?' ∈ pattern → ∀ c ∈ key, c.toNat < 0x10000)
    (h : Glob.Matches wildcards (pattern.flatMap codeUnits) (low ++ key.flatMap codeUnits)) :
    Glob.Matches charWildcards pattern key := by
  induction pattern generalizing key low with
  | nil =>
    generalize hvs : low ++ key.flatMap codeUnits = vs at h
    cases h
    obtain ⟨-, hkey⟩ := List.append_eq_nil_iff.mp hvs
    cases key with
    | nil => exact .nil
    | cons c key =>
      obtain ⟨u, us, hunits, -⟩ := codeUnits_head c
      rw [List.flatMap_cons, hunits] at hkey
      cases hkey
  | cons p pattern ih =>
    rw [List.flatMap_cons] at h
    have hany' : '?' ∈ pattern → ∀ c ∈ key, c.toNat < 0x10000 :=
      fun hmem => hany (List.mem_cons_of_mem _ hmem)
    by_cases hstar : p = '*'
    · subst hstar
      obtain ⟨us, rest, hvs, hrest⟩ := Glob.matches_star_iff.mp h
      have hrests : ∀ {us'}, key.flatMap codeUnits = us' ++ rest → ∃ front back low',
          key = front ++ back ∧ rest = low' ++ back.flatMap codeUnits ∧
            (low' = [] ∨ ∃ u, low' = [u] ∧ 0xDC00 ≤ u ∧ u ≤ 0xDFFF ∧ '?' ∉ pattern) := by
        intro us' h'
        obtain ⟨front, back, low', hkey, hrest', hlow'⟩ := exists_rest h'
        refine ⟨front, back, low', hkey, hrest', hlow'.imp_right ?_⟩
        rintro ⟨u, hu, hge, hle, c, hc, hlarge⟩
        exact ⟨u, hu, hge, hle, fun hmem => absurd (hany' hmem c hc) (not_lt.mpr hlarge)⟩
      have hsplit : ∃ front back low', key = front ++ back ∧
          rest = low' ++ back.flatMap codeUnits ∧
            (low' = [] ∨ ∃ u, low' = [u] ∧ 0xDC00 ≤ u ∧ u ≤ 0xDFFF ∧ '?' ∉ pattern) := by
        rcases hlow with rfl | ⟨u, rfl, hge, hle, hnone⟩
        · exact hrests hvs
        · cases us with
          | nil =>
            refine ⟨[], key, [u], rfl, hvs.symm, .inr ⟨u, rfl, hge, hle, ?_⟩⟩
            exact fun hmem => hnone (List.mem_cons_of_mem _ hmem)
          | cons u' us => exact hrests (List.cons.inj hvs).2
      obtain ⟨front, back, low', rfl, rfl, hlow'⟩ := hsplit
      have hback : '?' ∈ pattern → ∀ c ∈ back, c.toNat < 0x10000 :=
        fun hmem c hc => hany' hmem c (List.mem_append_right front hc)
      exact (Glob.Matches.skip (ih hlow' hback hrest)).append_left front
    by_cases hquestion : p = '?'
    · subst hquestion
      obtain rfl : low = [] := by
        rcases hlow with hnil | ⟨u, -, -, -, hnone⟩
        · exact hnil
        · exact absurd List.mem_cons_self hnone
      cases key with
      | nil => cases h
      | cons c key =>
        have hunit : codeUnits c = [c.toNat] :=
          if_pos (hany List.mem_cons_self c List.mem_cons_self)
        have hmark : codeUnits '?' = [wildcards.any] := rfl
        rw [List.nil_append, List.flatMap_cons, hunit, hmark] at h
        cases h with
        | one hp hv h =>
          refine .one (by decide) (.inl rfl) (ih (.inl rfl) ?_ h)
          exact fun hmem d hd => hany' hmem d (List.mem_cons_of_mem _ hd)
    · obtain ⟨rest, hvs, hrest⟩ := h.literal (not_mem_codeUnits (by decide) hstar)
        (not_mem_codeUnits (by decide) hquestion)
      obtain ⟨v, vs, hunits, hv⟩ := codeUnits_head p
      rcases hlow with rfl | ⟨u, rfl, hge, hle, -⟩
      · cases key with
        | nil =>
          rw [hunits] at hvs
          cases hvs
        | cons c key =>
          rw [List.nil_append, List.flatMap_cons] at hvs
          obtain ⟨rfl, rfl⟩ := Keys.codeUnits_append_injective hvs
          refine .one hstar (.inr rfl) (ih (.inl rfl) ?_ hrest)
          exact fun hmem d hd => hany' hmem d (List.mem_cons_of_mem _ hd)
      · rw [hunits] at hvs
        obtain ⟨rfl, -⟩ := List.cons.inj hvs
        omega

theorem utf8_eq (s : String) : utf8 s = s.toList.flatMap String.utf8EncodeChar := by
  have hbytes : ∀ cs : List Char,
      (List.utf8Encode cs).data.toList = cs.flatMap String.utf8EncodeChar := by
    intro cs
    simp [List.utf8Encode]
  rw [utf8, ← hbytes, ← String.toByteArray_ofList, String.ofList_toList]

theorem utf8EncodeChar_ascii {c : Char} (h : c.toNat < 128) :
    String.utf8EncodeChar c = [UInt8.ofNat c.toNat] :=
  if_pos (show c.val.toNat ≤ 0x7f from Nat.le_of_lt_succ h)

theorem special_ofNat {n : ℕ} (h : n % 256 ≠ 42 ∧ n % 256 ≠ 63 ∧ n % 256 ≠ 91 ∧ n % 256 ≠ 92) :
    RedisGlob.special (UInt8.ofNat n) = false := by
  obtain ⟨hstar, hquestion, hopening, hbackslash⟩ := h
  simp only [RedisGlob.special, RedisGlob.star, RedisGlob.question, RedisGlob.opening,
    RedisGlob.backslash, ← UInt8.toNat_inj, UInt8.toNat_ofNat', Bool.or_eq_false_iff,
    decide_eq_false_iff_not]
  exact ⟨⟨⟨hstar, hquestion⟩, hopening⟩, hbackslash⟩

theorem plain_utf8EncodeChar {c : Char} (hstar : c ≠ '*') (hquestion : c ≠ '?')
    (hopening : c ≠ '[') (hbackslash : c ≠ '\\') : RedisGlob.Plain (String.utf8EncodeChar c) := by
  have hvalues : ∀ {d : Char}, c ≠ d → c.val.toNat ≠ d.toNat :=
    fun hne h => hne (Char.toNat_inj.mp h)
  have hne : c.val.toNat ≠ 42 ∧ c.val.toNat ≠ 63 ∧ c.val.toNat ≠ 91 ∧ c.val.toNat ≠ 92 :=
    ⟨hvalues hstar, hvalues hquestion, hvalues hopening, hvalues hbackslash⟩
  intro b hb
  simp only [String.utf8EncodeChar] at hb
  split at hb
  case isTrue =>
    obtain rfl := List.mem_singleton.mp hb
    exact special_ofNat (by omega)
  case isFalse =>
    have hbyte : ∃ n, b = UInt8.ofNat n ∧ 128 ≤ n ∧ n < 256 := by
      split at hb
      case isTrue =>
        rcases List.mem_cons.mp hb with rfl | hb
        · exact ⟨_, rfl, by omega⟩
        · exact ⟨_, List.mem_singleton.mp hb, by omega⟩
      case isFalse =>
        split at hb
        case isTrue =>
          simp only [List.mem_cons, List.not_mem_nil, or_false] at hb
          rcases hb with rfl | rfl | rfl <;> exact ⟨_, rfl, by omega⟩
        case isFalse =>
          simp only [List.mem_cons, List.not_mem_nil, or_false] at hb
          rcases hb with rfl | rfl | rfl | rfl <;> exact ⟨_, rfl, by omega⟩
    obtain ⟨n, rfl, hge, hlt⟩ := hbyte
    exact special_ofNat (by omega)

theorem isMatch_of_matches {pattern key : List Char}
    (hplain : ∀ c ∈ pattern, c ≠ '[' ∧ c ≠ '\\')
    (hany : '?' ∈ pattern → ∀ c ∈ key, c.toNat < 128)
    (h : Glob.Matches charWildcards pattern key) :
    RedisGlob.isMatch (pattern.flatMap String.utf8EncodeChar)
      (key.flatMap String.utf8EncodeChar) = true := by
  have hstar : String.utf8EncodeChar charWildcards.star = [RedisGlob.star] := by decide
  have hmark : String.utf8EncodeChar charWildcards.any = [RedisGlob.question] := by decide
  induction h with
  | nil => rfl
  | skip h ih =>
    rw [List.flatMap_cons, hstar]
    have hrest := ih (fun c hc => hplain c (List.mem_cons_of_mem _ hc))
      fun hmem => hany (List.mem_cons_of_mem _ hmem)
    exact RedisGlob.isMatch_star_cons_iff.mpr ⟨[], _, rfl, hrest⟩
  | @take ps vs v h ih =>
    have hrest := ih hplain fun hmem c hc => hany hmem c (List.mem_cons_of_mem _ hc)
    rw [List.flatMap_cons, hstar, List.singleton_append,
      RedisGlob.isMatch_star_cons_iff] at hrest ⊢
    obtain ⟨u, r, hkey, hr⟩ := hrest
    refine ⟨String.utf8EncodeChar v ++ u, r, ?_, hr⟩
    rw [List.flatMap_cons, hkey, List.append_assoc]
  | @one p v ps vs hp hv h ih =>
    have hrest := ih (fun c hc => hplain c (List.mem_cons_of_mem _ hc))
      fun hmem c hc => hany (List.mem_cons_of_mem _ hmem) c (List.mem_cons_of_mem _ hc)
    rw [List.flatMap_cons, List.flatMap_cons]
    by_cases hquestion : p = '?'
    · subst hquestion
      have hbyte := utf8EncodeChar_ascii (hany List.mem_cons_self v List.mem_cons_self)
      have hmark' : String.utf8EncodeChar '?' = [RedisGlob.question] := hmark
      rw [hbyte, hmark']
      exact RedisGlob.isMatch_question_cons_iff.mpr ⟨_, _, rfl, hrest⟩
    · obtain rfl : p = v := hv.resolve_left hquestion
      obtain ⟨hopening, hbackslash⟩ := hplain p List.mem_cons_self
      exact (RedisGlob.isMatch_append_of_plain
        (plain_utf8EncodeChar hp hquestion hopening hbackslash)).mpr hrest

/-- Where the pattern has only stars and question marks, and question marks meet only characters
of one byte, Redis finds what the pattern matcher matches. -/
theorem isMatch_utf8 {pattern key : String}
    (hplain : ∀ c ∈ pattern.toList, c ≠ '[' ∧ c ≠ '\\')
    (hany : '?' ∈ pattern.toList → ∀ c ∈ key.toList, c.toNat < 128)
    (h : patternMatches pattern key = true) :
    RedisGlob.isMatch (utf8 pattern) (utf8 key) = true := by
  rw [patternMatches, Glob.matchLinear_iff] at h
  have hchars : Glob.Matches charWildcards pattern.toList key.toList :=
    matches_chars (.inl rfl) (fun hmem c hc => (hany hmem c hc).trans (by decide)) h
  rw [utf8_eq, utf8_eq]
  exact isMatch_of_matches hplain hany hchars

end LayerCache.Dialects
