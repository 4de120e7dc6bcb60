import Mathlib.Data.List.TakeWhile
import LayerCache.Invalidation.Bus

/-! # The JSON serializer

Values are stored as UTF-8 JSON text. Writing has no limits; reading has three, on the
bytes of the text and on the nodes and the depth of what it says.
-/

namespace LayerCache

open Json

/-- `Buffer.from(text, 'utf8')` -/
def utf8 (s : String) : Bytes := s.toByteArray.data.toList

/-- `buffer.toString('utf8')`; `lossy` is what the platform makes of bytes that are no UTF-8. -/
def utf8Text (lossy : Bytes → String) (bytes : Bytes) : String :=
  (String.fromUTF8? ⟨bytes.toArray⟩).getD (lossy bytes)

theorem utf8Text_utf8 (lossy : Bytes → String) (s : String) : utf8Text lossy (utf8 s) = s := by
  have harray : (⟨(utf8 s).toArray⟩ : ByteArray) = s.toByteArray := by
    rw [utf8, Array.toArray_toList]
  have hread : String.fromUTF8? s.toByteArray = some s := by
    rw [String.fromUTF8?, dif_pos s.isValidUTF8]
    rfl
  rw [utf8Text, harray, hread]
  rfl

theorem length_utf8 (s : String) : (utf8 s).length = s.utf8ByteSize := rfl

theorem print_first (v : Value) :
    ∃ c cs, print v = c :: cs ∧ c.toNat < 128 ∧ c ≠ 'L' := by
  cases v with
  | null => exact ⟨_, _, rfl, by decide, by decide⟩
  | bool b => cases b <;> exact ⟨_, _, rfl, by decide, by decide⟩
  | string s => exact ⟨_, _, rfl, by decide, by decide⟩
  | array items => cases items <;> exact ⟨_, _, rfl, by decide, by decide⟩
  | object members =>
    rcases members with _ | ⟨⟨k, v⟩, rest⟩ <;> exact ⟨_, _, rfl, by decide, by decide⟩
  | number n =>
    obtain ⟨c, cs, h, hc⟩ := n.chars_cons
    refine ⟨c, cs, h, ?_, ?_⟩
    · simp only [isNumberChar, isDigit, Bool.or_eq_true, Bool.and_eq_true, decide_eq_true_eq] at hc
      rcases hc with ((((⟨-, hc⟩ | rfl) | rfl) | rfl) | rfl) | rfl
      · exact Nat.lt_of_le_of_lt hc (by decide)
      all_goals decide
    · rintro rfl
      revert hc
      decide

theorem utf8_cons {c : Char} (cs : List Char) (hc : c.toNat < 128) :
    utf8 (String.ofList (c :: cs)) = c.val.toUInt8 :: utf8 (String.ofList cs) := by
  have hsize : c.utf8Size = 1 := by
    have : c.val ≤ 0x7f := by
      rw [UInt32.le_iff_toNat_le]
      exact Nat.le_of_lt_succ hc
    simp [Char.utf8Size, this]
  rw [utf8, utf8, String.toByteArray_ofList, String.toByteArray_ofList, List.utf8Encode_cons,
    List.utf8Encode_singleton, String.utf8EncodeChar_eq_singleton hsize]
  simp

/-- JSON text starts with none of the headers that payloads are marked with. -/
theorem utf8_stringify_head (v : Value) {b : UInt8} {rest : Bytes}
    (h : utf8 (stringify v) = b :: rest) : b ≠ 76 := by
  obtain ⟨c, cs, hv, hc, hne⟩ := print_first v
  rw [stringify, hv, utf8_cons cs hc] at h
  rintro rfl
  refine hne (Char.toNat_inj.mp ?_)
  have hb : c.val.toUInt8.toNat = 76 := congrArg UInt8.toNat (List.cons.inj h).1
  rw [UInt32.toNat_toUInt8] at hb
  have : c.toNat = c.val.toNat := rfl
  have h76 : ('L' : Char).toNat = 76 := rfl
  omega

theorem isPrefixOf_stringify (v : Value) (magic : Bytes) :
    (76 :: magic).isPrefixOf (utf8 (stringify v)) = false := by
  cases h : utf8 (stringify v) with
  | nil => rfl
  | cons b rest =>
    have := utf8_stringify_head v h
    simp [List.isPrefixOf, this.symm]

structure JsonSerializer where
  maxBytes : ℕ
  maxDepth : ℕ
  maxNodes : ℕ

/-- The limits that a serializer has unless its options say otherwise. -/
def JsonSerializer.default : JsonSerializer where
  maxBytes := 4 * 1024 * 1024
  maxDepth := 200
  maxNodes := 10000

def JsonSerializer.options (serializer : JsonSerializer) : SanitizeStructuredDataOptions where
  maxDepth := serializer.maxDepth
  maxNodes := serializer.maxNodes
  label := "JSON payload"

def JsonSerializer.deserialize (serializer : JsonSerializer) (lossy : Bytes → String)
    (payload : Bytes) : Except String Value :=
  if payload.length > serializer.maxBytes then
    .error ("JsonSerializer: payload size " ++ toString payload.length ++ " exceeds maxBytes " ++
      toString serializer.maxBytes ++ ".")
  else
    match parse (utf8Text lossy payload) with
    | none => .error "JsonSerializer: failed to parse JSON payload"
    | some parsed => sanitizeStructuredData parsed serializer.options

/-- The text of a value is within the limits of a read. -/
structure JsonSerializer.Reads (serializer : JsonSerializer) (v : Value) : Prop where
  bytes : (stringify v).utf8ByteSize ≤ serializer.maxBytes
  nodes : nodes (strip v) ≤ serializer.maxNodes
  depth : height (strip v) ≤ serializer.maxDepth

theorem deserialize_stringify {serializer : JsonSerializer} {lossy : Bytes → String} {v : Value}
    (hwf : WellFormed v) (h : serializer.Reads v) :
    serializer.deserialize lossy (utf8 (stringify v)) = .ok (strip v) := by
  rw [JsonSerializer.deserialize, if_neg (by rw [length_utf8]; exact Nat.not_lt.mpr h.bytes),
    utf8Text_utf8, parse_stringify hwf]
  exact sanitizeStructuredData_ok h.nodes h.depth

theorem deserialize_stringify_error {serializer : JsonSerializer} {lossy : Bytes → String}
    {v : Value} (hwf : WellFormed v) (h : ¬ serializer.Reads v) :
    ∃ e, serializer.deserialize lossy (utf8 (stringify v)) = .error e := by
  rw [JsonSerializer.deserialize, utf8Text_utf8, parse_stringify hwf, length_utf8]
  split
  · exact ⟨_, rfl⟩
  · next hb =>
    refine sanitizeStructuredData_error fun hs => h ⟨Nat.not_lt.mp hb, hs.1, hs.2⟩

/-- The finite numbers of the language, as JSON writes and reads them. -/
structure Numerals (T : Type*) where
  literal : T → Json.Number
  value : Json.Number → T
  value_literal : ∀ t, value (literal t) = t

def decimal (n : ℕ) : List Char :=
  if n < 10 then [hexDigit n] else decimal (n / 10) ++ [hexDigit (n % 10)]
  termination_by n

def decimalValue (cs : List Char) : ℕ := cs.foldl (fun n c => 10 * n + (c.toNat - 48)) 0

theorem hexDigit_spec : ∀ n < 10, isDigit (hexDigit n) = true ∧ (hexDigit n).toNat - 48 = n ∧
    (hexDigit n = '0' ↔ n = 0) := by
  decide

theorem decimalValue_decimal (n : ℕ) : decimalValue (decimal n) = n := by
  induction n using decimal.induct with
  | case1 n h =>
    rw [decimal, if_pos h]
    simp [decimalValue, (hexDigit_spec n h).2.1]
  | case2 n h ih =>
    rw [decimal, if_neg h, decimalValue, List.foldl_append]
    rw [decimalValue] at ih
    simp only [ih, List.foldl_cons, List.foldl_nil, (hexDigit_spec (n % 10) (by omega)).2.1]
    omega

theorem decimal_digits (n : ℕ) : (decimal n).all isDigit = true := by
  induction n using decimal.induct with
  | case1 n h =>
    rw [decimal, if_pos h]
    simp [(hexDigit_spec n h).1]
  | case2 n h ih =>
    rw [decimal, if_neg h, List.all_append, ih]
    simp [(hexDigit_spec (n % 10) (by omega)).1]

theorem decimal_head (n : ℕ) (hn : 0 < n) :
    ∃ c cs, decimal n = c :: cs ∧ c ≠ '0' := by
  induction n using decimal.induct with
  | case1 n h =>
    refine ⟨hexDigit n, [], by rw [decimal, if_pos h], fun hc => ?_⟩
    have := (hexDigit_spec n h).2.2.mp hc
    omega
  | case2 n h ih =>
    obtain ⟨c, cs, hd, hc⟩ := ih (by omega)
    exact ⟨c, cs ++ [hexDigit (n % 10)], by rw [decimal, if_neg h, hd, List.cons_append], hc⟩

theorem isInteger_decimal (n : ℕ) : isInteger (decimal n) = true := by
  rcases Nat.eq_zero_or_pos n with rfl | hn
  · decide +kernel
  · obtain ⟨c, cs, hd, hc⟩ := decimal_head n hn
    have hall := decimal_digits n
    rw [hd] at hall ⊢
    simp only [List.all_cons, Bool.and_eq_true] at hall
    cases cs with
    | nil => simp [isInteger, hall.1, hc]
    | cons d cs => simpa [isInteger, hc] using hall

def decimalNumber (n : ℕ) : Json.Number where
  chars := decimal n
  literal := by
    have hall : ∀ c ∈ decimal n, isDigit c = true := by simpa using decimal_digits n
    have htake : (decimal n).takeWhile isDigit = decimal n := List.takeWhile_eq_self_iff.mpr hall
    have hdrop : (decimal n).dropWhile isDigit = [] := List.dropWhile_eq_nil_iff.mpr hall
    have hunsigned : isUnsignedNumber (decimal n) = true := by
      rw [isUnsignedNumber, htake, hdrop, isInteger_decimal]
      rfl
    unfold isNumberLiteral
    split
    · next rest h =>
      have hminus := hall '-' (h ▸ List.mem_cons_self)
      exact absurd hminus (by decide)
    · exact hunsigned
  numeric := by
    rw [List.all_eq_true]
    intro c hc
    have := List.all_eq_true.mp (decimal_digits n) c hc
    simp [isNumberChar, this]

def decimals : Numerals ℕ where
  literal := decimalNumber
  value n := decimalValue n.chars
  value_literal n := decimalValue_decimal n

end LayerCache
