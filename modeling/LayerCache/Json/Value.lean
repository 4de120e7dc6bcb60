import Mathlib.Algebra.Group.Nat.Defs
import Mathlib.Data.List.Basic

/-! # JSON values and their text

Values as a JavaScript program holds them: the members of an object are listed in
property order. Printing follows `JSON.stringify`, and `ofEntries` is the order in
which an object that is filled key by key lists its properties.
-/

namespace Json

def isDigit (c : Char) : Bool := '0' ≤ c && c ≤ '9'

def isNumberChar (c : Char) : Bool :=
  isDigit c || c = '-' || c = '+' || c = '.' || c = 'e' || c = 'E'

def isInteger : List Char → Bool
  | [] => false
  | ['0'] => true
  | c :: rest => isDigit c && c != '0' && rest.all isDigit

def isExponent : List Char → Bool
  | [] => true
  | 'e' :: '-' :: ds | 'e' :: '+' :: ds | 'E' :: '-' :: ds | 'E' :: '+' :: ds
  | 'e' :: ds | 'E' :: ds => !ds.isEmpty && ds.all isDigit
  | _ => false

def isFractionExponent : List Char → Bool
  | '.' :: rest => !(rest.takeWhile isDigit).isEmpty && isExponent (rest.dropWhile isDigit)
  | rest => isExponent rest

def isUnsignedNumber (s : List Char) : Bool :=
  isInteger (s.takeWhile isDigit) && isFractionExponent (s.dropWhile isDigit)

/-- The number grammar: sign, integer part, fraction, exponent. -/
def isNumberLiteral : List Char → Bool
  | '-' :: rest => isUnsignedNumber rest
  | s => isUnsignedNumber s

/-- A finite number, given by the literal that prints it. -/
structure Number where
  chars : List Char
  literal : isNumberLiteral chars = true
  numeric : chars.all isNumberChar = true

inductive Value
  | null
  | bool (b : Bool)
  | number (n : Number)
  | string (s : String)
  | array (items : List Value)
  | object (members : List (String × Value))

namespace Value

theorem induction {P : Value → Prop} (null : P .null) (bool : ∀ b, P (.bool b))
    (number : ∀ n, P (.number n)) (string : ∀ s, P (.string s))
    (array : ∀ items : List Value, (∀ v ∈ items, P v) → P (.array items))
    (object : ∀ members : List (String × Value), (∀ m ∈ members, P m.2) → P (.object members)) :
    ∀ v, P v
  | .null => null
  | .bool b => bool b
  | .number n => number n
  | .string s => string s
  | .array items => array items fun v _ =>
      induction null bool number string array object v
  | .object members => object members fun m hm =>
      have : sizeOf m.2 < 1 + sizeOf members := by
        have h := List.sizeOf_lt_of_mem hm
        have h' : sizeOf m = 1 + sizeOf m.1 + sizeOf m.2 := rfl
        omega
      induction null bool number string array object m.2

end Value

def hexDigit (n : ℕ) : Char := if n < 10 then Char.ofNat (48 + n) else Char.ofNat (87 + n)

def escape (c : Char) : List Char :=
  if c = '"' then ['\\', '"']
  else if c = '\\' then ['\\', '\\']
  else if c = '\x08' then ['\\', 'b']
  else if c = '\x0c' then ['\\', 'f']
  else if c = '\n' then ['\\', 'n']
  else if c = '\r' then ['\\', 'r']
  else if c = '\t' then ['\\', 't']
  else if c.toNat < 32 then ['\\', 'u', '0', '0', hexDigit (c.toNat / 16), hexDigit (c.toNat % 16)]
  else [c]

def quote (s : String) : List Char := '"' :: (s.toList.flatMap escape ++ ['"'])

mutual

def print : Value → List Char
  | .null => ['n', 'u', 'l', 'l']
  | .bool true => ['t', 'r', 'u', 'e']
  | .bool false => ['f', 'a', 'l', 's', 'e']
  | .number n => n.chars
  | .string s => quote s
  | .array [] => ['[', ']']
  | .array (v :: rest) => '[' :: (print v ++ printItems rest)
  | .object [] => ['{', '}']
  | .object ((k, v) :: rest) => '{' :: (quote k ++ ':' :: (print v ++ printMembers rest))

def printItems : List Value → List Char
  | [] => [']']
  | v :: rest => ',' :: (print v ++ printItems rest)

def printMembers : List (String × Value) → List Char
  | [] => ['}']
  | (k, v) :: rest => ',' :: (quote k ++ ':' :: (print v ++ printMembers rest))

end

/-- `JSON.stringify`. -/
def stringify (v : Value) : String := String.ofList (print v)

/-- The keys that a JavaScript object lists first, in numeric order. -/
def arrayIndex (k : String) : Option ℕ :=
  if isInteger k.toList &&
      decide (k.toList.foldl (fun n c => 10 * n + (c.toNat - 48)) 0 < 2 ^ 32 - 1) then
    some (k.toList.foldl (fun n c => 10 * n + (c.toNat - 48)) 0)
  else none

/-- Whether property `k` is listed before property `k'` that it is added to. -/
def listedBefore (k k' : String) : Bool :=
  match arrayIndex k, arrayIndex k' with
  | some i, some j => decide (i < j)
  | some _, none => true
  | none, _ => false

/-- Setting a property: in place when the object has it, else at its place in the order. -/
def setProperty (k : String) (v : Value) : List (String × Value) → List (String × Value)
  | [] => [(k, v)]
  | (k', v') :: rest =>
    if k = k' then (k, v) :: rest
    else if listedBefore k k' && !(rest.any fun m => m.1 = k) then (k, v) :: (k', v') :: rest
    else (k', v') :: setProperty k v rest

/-- The properties of an object filled with `entries` in turn. -/
def ofEntries (entries : List (String × Value)) : List (String × Value) :=
  entries.foldl (fun ms m => setProperty m.1 m.2 ms) []

theorem setProperty_append {k : String} {v : Value} {ms : List (String × Value)}
    (hk : arrayIndex k = none) (hne : ∀ m ∈ ms, m.1 ≠ k) : setProperty k v ms = ms ++ [(k, v)] := by
  induction ms with
  | nil => rfl
  | cons m ms ih =>
    have hm : k ≠ m.1 := (hne m List.mem_cons_self).symm
    have hl : listedBefore k m.1 = false := by simp [listedBefore, hk]
    simp [setProperty, hm, hl, ih fun m' hm' => hne m' (List.mem_cons_of_mem _ hm')]

theorem ofEntries_eq_self {entries : List (String × Value)}
    (hkeys : ∀ m ∈ entries, arrayIndex m.1 = none) (hnodup : (entries.map (·.1)).Nodup) :
    ofEntries entries = entries := by
  suffices h : ∀ ms : List (String × Value), ((ms ++ entries).map (·.1)).Nodup →
      entries.foldl (fun ms m => setProperty m.1 m.2 ms) ms = ms ++ entries by
    simpa [ofEntries] using h [] hnodup
  clear hnodup
  induction entries with
  | nil => simp
  | cons m entries ih =>
    intro ms hnodup
    have hne : ∀ m' ∈ ms, m'.1 ≠ m.1 := by
      simp only [List.map_append, List.map_cons, List.nodup_append, List.mem_map] at hnodup
      exact fun m' hm' => hnodup.2.2 _ ⟨m', hm', rfl⟩ _ List.mem_cons_self
    rw [List.foldl_cons, setProperty_append (hkeys m List.mem_cons_self) hne,
      ih (fun m' hm' => hkeys m' (List.mem_cons_of_mem _ hm')) _ (by simpa using hnodup)]
    simp

/-- Every object of the value lists its properties as JavaScript does. -/
inductive WellFormed : Value → Prop
  | null : WellFormed .null
  | bool (b : Bool) : WellFormed (.bool b)
  | number (n : Number) : WellFormed (.number n)
  | string (s : String) : WellFormed (.string s)
  | array {items : List Value} (h : ∀ v ∈ items, WellFormed v) : WellFormed (.array items)
  | object {members : List (String × Value)} (h : ∀ m ∈ members, WellFormed m.2)
      (order : ofEntries members = members) : WellFormed (.object members)

/-- Reading a property of a value, absent on anything but an object. -/
def Value.get? (key : String) : Value → Option Value
  | .object members => (members.find? fun m => m.1 = key).map (·.2)
  | _ => none

end Json
