import LayerCache.Json.Value
import Mathlib.Data.List.DropRight

/-! # Reading JSON text

A parser of JSON text and its round trip: a well-formed value is what its text
reads back as. The fuel of the parser bounds the nesting it can follow, and the
length of the text is always enough.
-/

namespace Json

def isSpace (c : Char) : Bool := c = ' ' || c = '\n' || c = '\r' || c = '\t'

def skipSpace (s : List Char) : List Char := s.dropWhile isSpace

def hexValue (c : Char) : Option ℕ :=
  if '0' ≤ c ∧ c ≤ '9' then some (c.toNat - 48)
  else if 'a' ≤ c ∧ c ≤ 'f' then some (c.toNat - 87)
  else if 'A' ≤ c ∧ c ≤ 'F' then some (c.toNat - 55)
  else none

/-- The code unit of a `\u` escape. -/
def hex4 (a b c d : Char) : Option ℕ := do
  pure (((16 * (← hexValue a) + (← hexValue b)) * 16 + (← hexValue c)) * 16 + (← hexValue d))

def unescape : Char → Option Char
  | '"' => some '"'
  | '\\' => some '\\'
  | '/' => some '/'
  | 'b' => some '\x08'
  | 'f' => some '\x0c'
  | 'n' => some '\n'
  | 'r' => some '\r'
  | 't' => some '\t'
  | _ => none

/-- The characters of a string literal, from after its opening quote. An escaped code
unit that is half of a surrogate pair has no character of its own and is not read. -/
def parseChars : List Char → Option (List Char × List Char)
  | [] => none
  | '"' :: rest => some ([], rest)
  | '\\' :: 'u' :: a :: b :: c :: d :: rest =>
    match hex4 a b c d with
    | some n =>
      if n.isValidChar then (parseChars rest).map fun (cs, r) => (Char.ofNat n :: cs, r) else none
    | none => none
  | '\\' :: e :: rest =>
    match unescape e with
    | some c => (parseChars rest).map fun (cs, r) => (c :: cs, r)
    | none => none
  | c :: rest =>
    if c.toNat < 32 then none else (parseChars rest).map fun (cs, r) => (c :: cs, r)

def parseNumber (s : List Char) : Option (Value × List Char) :=
  let chars := s.takeWhile isNumberChar
  if h : isNumberLiteral chars = true ∧ chars.all isNumberChar = true then
    some (.number ⟨chars, h.1, h.2⟩, s.dropWhile isNumberChar)
  else none

def parseKey (s : List Char) : Option (String × List Char) :=
  match skipSpace s with
  | '"' :: rest =>
    match parseChars rest with
    | some (k, rest) =>
      match skipSpace rest with
      | ':' :: rest => some (String.ofList k, rest)
      | _ => none
    | none => none
  | _ => none

mutual

def parseValue : ℕ → List Char → Option (Value × List Char)
  | 0, _ => none
  | fuel + 1, s =>
    match skipSpace s with
    | 'n' :: 'u' :: 'l' :: 'l' :: rest => some (.null, rest)
    | 't' :: 'r' :: 'u' :: 'e' :: rest => some (.bool true, rest)
    | 'f' :: 'a' :: 'l' :: 's' :: 'e' :: rest => some (.bool false, rest)
    | '"' :: rest => (parseChars rest).map fun (cs, r) => (.string (String.ofList cs), r)
    | '[' :: rest =>
      match skipSpace rest with
      | ']' :: rest => some (.array [], rest)
      | rest => (parseItems fuel rest).map fun (items, r) => (.array items, r)
    | '{' :: rest =>
      match skipSpace rest with
      | '}' :: rest => some (.object [], rest)
      | rest => (parseMembers fuel rest).map fun (members, r) => (.object (ofEntries members), r)
    | rest => parseNumber rest

def parseItems : ℕ → List Char → Option (List Value × List Char)
  | 0, _ => none
  | fuel + 1, s =>
    match parseValue fuel s with
    | some (v, rest) =>
      match skipSpace rest with
      | ']' :: rest => some ([v], rest)
      | ',' :: rest => (parseItems fuel rest).map fun (items, r) => (v :: items, r)
      | _ => none
    | none => none

def parseMembers : ℕ → List Char → Option (List (String × Value) × List Char)
  | 0, _ => none
  | fuel + 1, s =>
    match parseKey s with
    | some (k, rest) =>
      match parseValue fuel rest with
      | some (v, rest) =>
        match skipSpace rest with
        | '}' :: rest => some ([(k, v)], rest)
        | ',' :: rest => (parseMembers fuel rest).map fun (members, r) => ((k, v) :: members, r)
        | _ => none
      | none => none
    | none => none

end

/-- `JSON.parse`. -/
def parse (s : String) : Option Value :=
  match parseValue (s.toList.length + 1) s.toList with
  | some (v, rest) => if skipSpace rest = [] then some v else none
  | none => none

theorem parseChars_plain {c : Char} {rest : List Char} (hq : c ≠ '"') (hb : c ≠ '\\')
    (hc : ¬ c.toNat < 32) :
    parseChars (c :: rest) = (parseChars rest).map fun (cs, r) => (c :: cs, r) := by
  rw [parseChars]
  · simp [hc]
  · exact hq
  · exact fun _ _ _ _ _ h _ => hb h
  · exact fun _ _ h _ => hb h

theorem hexValue_hexDigit : ∀ n < 16, hexValue (hexDigit n) = some n := by decide

theorem parseChars_control {c : Char} {rest : List Char} (hc : c.toNat < 32) :
    parseChars ('\\' :: 'u' :: '0' :: '0' :: hexDigit (c.toNat / 16) :: hexDigit (c.toNat % 16) ::
      rest) = (parseChars rest).map fun (cs, r) => (c :: cs, r) := by
  have h0 : hexValue '0' = some 0 := by decide
  have hn : hex4 '0' '0' (hexDigit (c.toNat / 16)) (hexDigit (c.toNat % 16)) = some c.toNat := by
    simp only [hex4, h0, hexValue_hexDigit _ (show c.toNat / 16 < 16 by omega),
      hexValue_hexDigit _ (show c.toNat % 16 < 16 by omega)]
    simp
    omega
  have hv : c.toNat.isValidChar := c.valid
  rw [parseChars]
  simp [hn, hv]

theorem parseChars_escape (c : Char) (rest : List Char) :
    parseChars (escape c ++ rest) = (parseChars rest).map fun (cs, r) => (c :: cs, r) := by
  unfold escape
  split_ifs with h1 h2 h3 h4 h5 h6 h7 h8
  · subst h1; rfl
  · subst h2; rfl
  · subst h3; rfl
  · subst h4; rfl
  · subst h5; rfl
  · subst h6; rfl
  · subst h7; rfl
  · exact parseChars_control h8
  · exact parseChars_plain h1 h2 h8

theorem parseChars_quoted (cs rest : List Char) :
    parseChars (cs.flatMap escape ++ '"' :: rest) = some (cs, rest) := by
  induction cs with
  | nil => rw [List.flatMap_nil, List.nil_append, parseChars]
  | cons c cs ih =>
    rw [List.flatMap_cons, List.append_assoc, parseChars_escape, ih]
    rfl

theorem quote_append (s : String) (rest : List Char) :
    quote s ++ rest = '"' :: (s.toList.flatMap escape ++ '"' :: rest) := by
  simp [quote]

theorem parseKey_quote (k : String) (rest : List Char) :
    parseKey (quote k ++ ':' :: rest) = some (k, rest) := by
  simp [parseKey, quote_append, skipSpace, isSpace, parseChars_quoted]

def Follows (rest : List Char) : Prop := ∀ c ∈ rest.head?, isNumberChar c = false

theorem follows_cons {c : Char} {rest : List Char} (h : isNumberChar c = false) :
    Follows (c :: rest) := by
  rintro _ ⟨⟩
  exact h

theorem takeWhile_number (n : Number) {rest : List Char} (h : Follows rest) :
    (n.chars ++ rest).takeWhile isNumberChar = n.chars ∧
      (n.chars ++ rest).dropWhile isNumberChar = rest := by
  have hall : ∀ c ∈ n.chars, isNumberChar c = true := by simpa using n.numeric
  rw [List.takeWhile_append_of_pos hall, List.dropWhile_append_of_pos hall]
  cases rest with
  | nil => simp
  | cons c rest => simp [h c rfl]

theorem parseNumber_chars (n : Number) {rest : List Char} (h : Follows rest) :
    parseNumber (n.chars ++ rest) = some (.number n, rest) := by
  obtain ⟨ht, hd⟩ := takeWhile_number n h
  simp only [parseNumber, ht, hd, n.literal, n.numeric, and_self, dif_pos]

theorem Number.chars_cons (n : Number) : ∃ c cs, n.chars = c :: cs ∧ isNumberChar c = true := by
  have hall := n.numeric
  have hlit := n.literal
  cases h : n.chars with
  | nil => rw [h] at hlit; simp [isNumberLiteral, isUnsignedNumber, isInteger] at hlit
  | cons c cs =>
    rw [h, List.all_cons, Bool.and_eq_true] at hall
    exact ⟨c, cs, rfl, hall.1⟩

theorem print_cons (v : Value) :
    ∃ c cs, print v = c :: cs ∧ isSpace c = false ∧ c ≠ ']' ∧ c ≠ '}' := by
  cases v with
  | null => exact ⟨_, _, rfl, by decide, by decide, by decide⟩
  | bool b => cases b <;> exact ⟨_, _, rfl, by decide, by decide, by decide⟩
  | string s => exact ⟨_, _, rfl, by decide, by decide, by decide⟩
  | array items => cases items <;> exact ⟨_, _, rfl, by decide, by decide, by decide⟩
  | object members =>
    rcases members with _ | ⟨⟨k, v⟩, rest⟩ <;> exact ⟨_, _, rfl, by decide, by decide, by decide⟩
  | number n =>
    obtain ⟨c, cs, h, hc⟩ := n.chars_cons
    refine ⟨c, cs, h, ?_, ?_, ?_⟩
    · by_contra hs
      simp only [isSpace, Bool.or_eq_true, decide_eq_true_eq, Bool.not_eq_false] at hs
      rcases hs with ((rfl | rfl) | rfl) | rfl <;> revert hc <;> decide
    · rintro rfl; revert hc; decide
    · rintro rfl; revert hc; decide

theorem skipSpace_append {ws : List Char} (hws : ∀ c ∈ ws, isSpace c = true) (s : List Char) :
    skipSpace (ws ++ s) = skipSpace s := List.dropWhile_append_of_pos hws

@[simp]
theorem skipSpace_skipSpace (s : List Char) : skipSpace (skipSpace s) = skipSpace s :=
  List.dropWhile_idempotent _ _

theorem parseValue_skipSpace (fuel : ℕ) (s : List Char) :
    parseValue fuel (skipSpace s) = parseValue fuel s := by
  cases fuel with
  | zero => rfl
  | succ fuel => simp only [parseValue, skipSpace_skipSpace]

theorem parseItems_skipSpace (fuel : ℕ) (s : List Char) :
    parseItems fuel (skipSpace s) = parseItems fuel s := by
  cases fuel with
  | zero => rfl
  | succ fuel => simp only [parseItems, parseValue_skipSpace]

theorem parseMembers_skipSpace (fuel : ℕ) (s : List Char) :
    parseMembers fuel (skipSpace s) = parseMembers fuel s := by
  cases fuel with
  | zero => rfl
  | succ fuel => simp only [parseMembers, parseKey, skipSpace_skipSpace]

/-- The parser reads the value from the text, whatever comes after it. -/
def ReadsAs (v : Value) (cs : List Char) : Prop :=
  ∀ fuel rest, cs.length ≤ fuel → Follows rest → parseValue fuel (cs ++ rest) = some (v, rest)

theorem ReadsAs.blank {v : Value} {cs ws : List Char} (h : ReadsAs v cs)
    (hws : ∀ c ∈ ws, isSpace c = true) : ReadsAs v (ws ++ cs) := by
  intro fuel rest hf hr
  rw [List.length_append] at hf
  rw [← parseValue_skipSpace, List.append_assoc, skipSpace_append hws, parseValue_skipSpace]
  exact h fuel rest (by omega) hr

theorem ReadsAs.skipSpace_ne {v : Value} {cs : List Char} (h : ReadsAs v cs) {rest : List Char}
    (hr : Follows rest) (s : List Char) : skipSpace (cs ++ rest) ≠ ']' :: s := by
  intro hs
  have hread := h (cs.length + 1) rest (by omega) hr
  simp only [parseValue, hs] at hread
  cases hread

theorem follows_blank {ws rest : List Char} (hws : ∀ c ∈ ws, isSpace c = true)
    (hr : Follows rest) : Follows (ws ++ rest) := by
  cases ws with
  | nil => exact hr
  | cons c ws =>
    refine follows_cons ?_
    have hc := hws c List.mem_cons_self
    simp only [isSpace, Bool.or_eq_true, decide_eq_true_eq] at hc
    rcases hc with ((rfl | rfl) | rfl) | rfl <;> decide

inductive ItemsText : List Value → List Char → Prop
  | nil {ws : List Char} (hws : ∀ c ∈ ws, isSpace c = true) : ItemsText [] (ws ++ [']'])
  | cons {v : Value} {items : List Value} {cs tail : List Char} (h : ReadsAs v cs)
      (htail : ItemsText items tail) : ItemsText (v :: items) (',' :: (cs ++ tail))

inductive MembersText : List (String × Value) → List Char → Prop
  | nil {ws : List Char} (hws : ∀ c ∈ ws, isSpace c = true) : MembersText [] (ws ++ ['}'])
  | cons {k : String} {v : Value} {members : List (String × Value)} {ws cs tail : List Char}
      (hws : ∀ c ∈ ws, isSpace c = true) (h : ReadsAs v cs) (htail : MembersText members tail) :
      MembersText ((k, v) :: members) (',' :: (ws ++ (quote k ++ ':' :: (cs ++ tail))))

theorem ItemsText.follows {items : List Value} {tail : List Char} (h : ItemsText items tail)
    (rest : List Char) : Follows (tail ++ rest) := by
  cases h with
  | nil hws =>
    rw [List.append_assoc]
    exact follows_blank hws (follows_cons (by decide))
  | cons => exact follows_cons (by decide)

theorem MembersText.follows {members : List (String × Value)} {tail : List Char}
    (h : MembersText members tail) (rest : List Char) : Follows (tail ++ rest) := by
  cases h with
  | nil hws =>
    rw [List.append_assoc]
    exact follows_blank hws (follows_cons (by decide))
  | cons => exact follows_cons (by decide)

theorem parseItems_text {items : List Value} {tail : List Char} (h : ItemsText items tail) :
    ∀ {v : Value} {cs : List Char}, ReadsAs v cs → ∀ fuel rest,
      cs.length + tail.length ≤ fuel →
      parseItems fuel (cs ++ (tail ++ rest)) = some (v :: items, rest) := by
  induction h with
  | @nil ws hws =>
    intro v cs hv fuel rest hf
    simp only [List.length_append, List.length_singleton] at hf
    obtain ⟨fuel, rfl⟩ : ∃ k, fuel = k + 1 := ⟨fuel - 1, by omega⟩
    rw [parseItems, hv fuel _ (by omega) (ItemsText.follows (.nil hws) rest)]
    simp only [List.append_assoc, skipSpace_append hws]
    rfl
  | @cons w items cs' tail hw htail ih =>
    intro v cs hv fuel rest hf
    simp only [List.length_append, List.length_cons] at hf
    obtain ⟨fuel, rfl⟩ : ∃ k, fuel = k + 1 := ⟨fuel - 1, by omega⟩
    have htext := ItemsText.follows (.cons hw htail) rest
    rw [parseItems, hv fuel _ (by omega) htext]
    simp only [List.cons_append, List.append_assoc, skipSpace, isSpace, List.dropWhile_cons]
    simp [ih hw fuel rest (by omega)]

theorem readsAs_array {v : Value} {items : List Value} {cs tail : List Char} (hv : ReadsAs v cs)
    (htail : ItemsText items tail) : ReadsAs (.array (v :: items)) ('[' :: (cs ++ tail)) := by
  intro fuel rest hf _
  simp only [List.length_append, List.length_cons] at hf
  obtain ⟨fuel, rfl⟩ : ∃ k, fuel = k + 1 := ⟨fuel - 1, by omega⟩
  have hne := hv.skipSpace_ne (htail.follows rest)
  have hopen : ∀ s, skipSpace ('[' :: s) = '[' :: s := fun _ => rfl
  rw [List.cons_append, List.append_assoc, parseValue, hopen]
  -- the bracket is not closed at once, so this is the branch of the items
  simp only
  rw [parseItems_skipSpace, parseItems_text htail hv fuel rest (by omega)]
  rfl

theorem parseMembers_text {members : List (String × Value)} {tail : List Char}
    (h : MembersText members tail) :
    ∀ {k : String} {v : Value} {cs : List Char}, ReadsAs v cs → ∀ fuel rest,
      cs.length + tail.length ≤ fuel →
      parseMembers fuel (quote k ++ ':' :: (cs ++ (tail ++ rest))) =
        some ((k, v) :: members, rest) := by
  induction h with
  | @nil ws hws =>
    intro k v cs hv fuel rest hf
    simp only [List.length_append, List.length_singleton] at hf
    obtain ⟨fuel, rfl⟩ : ∃ k, fuel = k + 1 := ⟨fuel - 1, by omega⟩
    rw [parseMembers, parseKey_quote]
    simp only
    rw [hv fuel _ (by omega) (MembersText.follows (.nil hws) rest)]
    simp only [List.append_assoc, skipSpace_append hws]
    rfl
  | @cons k' w members ws cs' tail hws hw htail ih =>
    intro k v cs hv fuel rest hf
    simp only [List.length_append, List.length_cons] at hf
    obtain ⟨fuel, rfl⟩ : ∃ k, fuel = k + 1 := ⟨fuel - 1, by omega⟩
    have htext := (MembersText.cons (k := k') hws hw htail).follows rest
    have hrest : parseMembers fuel (ws ++ (quote k' ++ ':' :: (cs' ++ (tail ++ rest)))) =
        some ((k', w) :: members, rest) := by
      rw [← parseMembers_skipSpace, skipSpace_append hws, parseMembers_skipSpace]
      exact ih hw fuel rest (by omega)
    rw [parseMembers, parseKey_quote]
    simp only
    rw [hv fuel _ (by omega) htext]
    simp only [List.cons_append, List.append_assoc, skipSpace, isSpace, List.dropWhile_cons]
    simp [hrest]

theorem readsAs_object {k : String} {v : Value} {members : List (String × Value)}
    {ws cs tail : List Char} (hws : ∀ c ∈ ws, isSpace c = true) (hv : ReadsAs v cs)
    (htail : MembersText members tail) (order : ofEntries ((k, v) :: members) = (k, v) :: members) :
    ReadsAs (.object ((k, v) :: members)) ('{' :: (ws ++ (quote k ++ ':' :: (cs ++ tail)))) := by
  intro fuel rest hf _
  simp only [List.length_append, List.length_cons] at hf
  obtain ⟨fuel, rfl⟩ : ∃ k, fuel = k + 1 := ⟨fuel - 1, by omega⟩
  have hopen : ∀ s, skipSpace ('{' :: s) = '{' :: s := fun _ => rfl
  have hskip : skipSpace (ws ++ (quote k ++ ':' :: (cs ++ (tail ++ rest)))) =
      quote k ++ ':' :: (cs ++ (tail ++ rest)) := by
    rw [skipSpace_append hws, quote_append]
    rfl
  have hmembers := parseMembers_text htail (k := k) hv fuel rest (by omega)
  simp only [List.cons_append, List.append_assoc]
  rw [parseValue, hopen]
  simp only [hskip]
  rw [quote_append] at hmembers ⊢
  simp [hmembers, order]

def ReadsBack (v : Value) : Prop := ReadsAs v (print v)

theorem readsAs_null : ReadsAs .null ['n', 'u', 'l', 'l'] := by
  intro fuel rest hf _
  obtain ⟨fuel, rfl⟩ : ∃ k, fuel = k + 1 := ⟨fuel - 1, by simp at hf; omega⟩
  rfl

theorem readsAs_bool (b : Bool) : ReadsAs (.bool b) (print (.bool b)) := by
  intro fuel rest hf _
  obtain ⟨fuel, rfl⟩ : ∃ k, fuel = k + 1 := by
    cases b <;> exact ⟨fuel - 1, by simp [print] at hf; omega⟩
  cases b <;> rfl

theorem readsAs_number (n : Number) : ReadsAs (.number n) n.chars := by
  intro fuel rest hf hr
  obtain ⟨c, cs, hcs, hc⟩ := n.chars_cons
  obtain ⟨fuel, rfl⟩ : ∃ k, fuel = k + 1 := by
    cases fuel with
    | zero => simp [hcs] at hf
    | succ k => exact ⟨k, rfl⟩
  have hne : ∀ d, isNumberChar d = false → c ≠ d := by
    rintro d hd rfl
    rw [hc] at hd
    cases hd
  have hskip : skipSpace (n.chars ++ rest) = n.chars ++ rest := by
    have hspace : isSpace c = false := by
      obtain ⟨d, ds, hd, hspace, -⟩ := print_cons (.number n)
      rw [print, hcs] at hd
      rwa [(List.cons.inj hd).1]
    simp [skipSpace, hcs, hspace]
  rw [parseValue, hskip]
  split
  all_goals try (next h => simp only [hcs, List.cons_append, List.cons.injEq] at h
                           exact absurd h.1 (hne _ (by decide)))
  exact parseNumber_chars n hr

theorem readsAs_string (s : String) : ReadsAs (.string s) (quote s) := by
  intro fuel rest hf _
  obtain ⟨fuel, rfl⟩ : ∃ k, fuel = k + 1 := ⟨fuel - 1, by simp [quote] at hf; omega⟩
  simp [quote_append, parseValue, skipSpace, isSpace, parseChars_quoted]

theorem readsAs_empty_array : ReadsAs (.array []) ['[', ']'] := by
  intro fuel rest hf _
  obtain ⟨fuel, rfl⟩ : ∃ k, fuel = k + 1 := ⟨fuel - 1, by simp at hf; omega⟩
  simp [parseValue, skipSpace, isSpace]

theorem readsAs_empty_object : ReadsAs (.object []) ['{', '}'] := by
  intro fuel rest hf _
  obtain ⟨fuel, rfl⟩ : ∃ k, fuel = k + 1 := ⟨fuel - 1, by simp at hf; omega⟩
  simp [parseValue, skipSpace, isSpace]

theorem itemsText_print {items : List Value} (ih : ∀ v ∈ items, ReadsBack v) :
    ItemsText items (printItems items) := by
  induction items with
  | nil => exact .nil (List.forall_mem_nil _)
  | cons v items ihl =>
    rw [printItems]
    exact .cons (ih v List.mem_cons_self) (ihl fun w hw => ih w (List.mem_cons_of_mem _ hw))

theorem membersText_print {members : List (String × Value)} (ih : ∀ m ∈ members, ReadsBack m.2) :
    MembersText members (printMembers members) := by
  induction members with
  | nil => exact .nil (List.forall_mem_nil _)
  | cons m members ihl =>
    rw [printMembers]
    exact .cons (List.forall_mem_nil _) (ih m List.mem_cons_self)
      (ihl fun w hw => ih w (List.mem_cons_of_mem _ hw))

theorem WellFormed.readsBack {v : Value} (h : WellFormed v) : ReadsBack v := by
  induction h with
  | null => exact readsAs_null
  | bool b => exact readsAs_bool b
  | number n =>
    rw [ReadsBack, print]
    exact readsAs_number n
  | string s =>
    rw [ReadsBack, print]
    exact readsAs_string s
  | @array items _ ih =>
    cases items with
    | nil => exact readsAs_empty_array
    | cons v items =>
      rw [ReadsBack, print]
      exact readsAs_array (ih v List.mem_cons_self)
        (itemsText_print fun w hw => ih w (List.mem_cons_of_mem _ hw))
  | @object members _ order ih =>
    cases members with
    | nil => exact readsAs_empty_object
    | cons m members =>
      rw [ReadsBack, print]
      exact readsAs_object (List.forall_mem_nil _) (ih m List.mem_cons_self)
        (membersText_print fun w hw => ih w (List.mem_cons_of_mem _ hw)) order

/-- A text that is read as a value is parsed as that value. -/
theorem ReadsAs.parse {v : Value} {cs : List Char} (h : ReadsAs v cs) :
    parse (String.ofList cs) = some v := by
  have hv := h (cs.length + 1) [] (by omega) (by simp [Follows])
  rw [List.append_nil] at hv
  simp [Json.parse, hv, skipSpace]

theorem parse_stringify {v : Value} (h : WellFormed v) : parse (stringify v) = some v :=
  h.readsBack.parse

end Json
