import LayerCache.Json.Listing
import LayerCache.Keys.Date
import Mathlib.Data.List.Lex
import Mathlib.Data.List.Sort

/-! # Canonical keys of wrapped calls

`wrap` derives a cache key from the arguments of a call. Strings, numbers and booleans
become key parts of their own; everything else is normalised to plain data, with a type
tag for dates, URLs, regular expressions, maps and sets, and printed as JSON.
-/

namespace LayerCache.Keys
open Json

inductive Number
  | finite (n : Json.Number)
  | negativeZero
  | nan
  | infinity (negative : Bool)

/-- `String(value)` of a number. -/
def Number.text : Number → List Char
  | .finite n => n.chars
  | .negativeZero => ['0']
  | .nan => "NaN".toList
  | .infinity false => "Infinity".toList
  | .infinity true => "-Infinity".toList

def zero : Json.Number := ⟨['0'], rfl, rfl⟩

def Number.toJson : Number → Value
  | .finite n => .number n
  | .negativeZero => .number zero
  | .nan => .null
  | .infinity _ => .null

/-- What a wrapped function can be called with. `classInstance` is an object of any other
class than `Object`, by the class's name. -/
inductive Arg
  | undefined
  | null
  | bool (b : Bool)
  | number (n : Number)
  | bigint (n : ℤ)
  | string (s : String)
  | function
  | symbol
  | date (d : Option Date)
  | url (href : String)
  | regExp (source flags : String)
  | array (items : List Arg)
  | map (entries : List (Arg × Arg))
  | set (members : List Arg)
  | object (members : List (String × Arg))
  | classInstance (name : Option String)

/-- What `normalizeValue` returns: plain data, as `JSON.stringify` is given it. An object is
held as the assignments that fill it. -/
inductive Normal
  | undefined
  | null
  | bool (b : Bool)
  | number (n : Number)
  | bigint (n : ℤ)
  | string (s : String)
  | array (items : List Normal)
  | object (members : List (String × Normal))

mutual

/-- The value whose text `JSON.stringify` prints, none where it returns `undefined`. -/
def toJson : Normal → Except String (Option Value)
  | .undefined => .ok none
  | .null => .ok (some .null)
  | .bool b => .ok (some (.bool b))
  | .number n => .ok (some n.toJson)
  | .bigint _ => .error "Do not know how to serialize a BigInt"
  | .string s => .ok (some (.string s))
  | .array items => do return some (.array (← toJsonItems items))
  | .object members => do return some (.object (ofEntries (← toJsonMembers members)))

/-- An item without a text of its own is printed as `null`. -/
def toJsonItems : List Normal → Except String (List Value)
  | [] => .ok []
  | n :: rest => do return (← toJson n).getD .null :: (← toJsonItems rest)

def toJsonMembers : List (String × Normal) → Except String (List (String × Value))
  | [] => .ok []
  | (k, n) :: rest => do
    let v ← toJson n
    let vs ← toJsonMembers rest
    return match v with
      | some v => (k, v) :: vs
      | none => vs

end

/-- What the language leaves to its implementation: whether `localeCompare` puts a text before
another or beside it, and whether sorting entries one of whose keys is undefined ever asks
for that key's text first. -/
structure Runtime where
  /-- `a.localeCompare(b) <= 0` -/
  le : String → String → Bool
  le_total : ∀ a b, le a b = true ∨ le b a = true
  le_trans : ∀ a b c, le a b = true → le b c = true → le a c = true
  asks : List (Normal × Normal) → Bool

def Normal.isUndefined : Normal → Bool
  | .undefined => true
  | _ => false

/-- The text that a normalised value is compared by; `undefined` turns into a string. -/
def Normal.text (n : Normal) : String :=
  match toJson n with
  | .ok (some v) => stringify v
  | _ => "undefined"

namespace Runtime
variable (rt : Runtime)

/-- Sorts what a comparison of texts sorts; a single item is not compared. -/
def sortEntries (es : List (Normal × Normal)) : Except String (List (Normal × Normal)) :=
  if es.length < 2 then .ok es
  else do
    let _ ← toJsonItems (es.map (·.1))
    if es.any (fun e => e.1.isUndefined) && rt.asks es then
      .error "Cannot read properties of undefined (reading 'localeCompare')"
    else .ok (es.insertionSort fun e e' => rt.le e.1.text e'.1.text = true)

/-- A sort moves what is undefined to the end and does not compare it. -/
def sortValues (ns : List Normal) : Except String (List Normal) :=
  let defined := ns.filter fun n => !n.isUndefined
  if defined.length < 2 then .ok (defined ++ ns.filter Normal.isUndefined)
  else do
    let _ ← toJsonItems defined
    .ok (defined.insertionSort (fun n n' => rt.le n.text n'.text = true) ++
      ns.filter Normal.isUndefined)

end Runtime

def codeUnits (c : Char) : List ℕ :=
  if c.toNat < 0x10000 then [c.toNat]
  else [0xD800 + (c.toNat - 0x10000) / 0x400, 0xDC00 + (c.toNat - 0x10000) % 0x400]

/-- The order of `Array.prototype.sort` on strings. -/
def unitsLE (k k' : String) : Bool :=
  decide (k.toList.flatMap codeUnits ≤ k'.toList.flatMap codeUnits)

def DANGEROUS_OBJECT_KEYS : List String := ["__proto__", "prototype", "constructor"]

def RESERVED_TYPE_TAGS : List String := ["Date", "URL", "RegExp", "Map", "Set"]

/-- The string that an object has under `$type`. -/
def suppliedType (members : List (String × Arg)) : Option String :=
  match members.find? fun m => m.1 = "$type" with
  | some (_, .string t) => some t
  | _ => none

/-- The first error among the members, else all of them. -/
def settleMembers : List (String × Except String Normal) → Except String (List (String × Normal))
  | [] => .ok []
  | (k, n) :: rest => do return (k, ← n) :: (← settleMembers rest)

mutual

def normalizeValue (rt : Runtime) : Arg → Except String Normal
  | .array items => do return .array (← normalizeItems rt items)
  | .date none => .error "Cannot serialize an invalid Date as a cache key."
  | .date (some d) =>
    .ok (.object [("$type", .string "Date"), ("value", .string (String.ofList d.toISOString))])
  | .url href => .ok (.object [("$type", .string "URL"), ("value", .string href)])
  | .regExp source flags =>
    .ok (.object [("$type", .string "RegExp"), ("source", .string source),
      ("flags", .string flags)])
  | .map entries => do
    let es ← rt.sortEntries (← normalizeEntries rt entries)
    return .object [("$type", .string "Map"),
      ("entries", .array (es.map fun e => .array [e.1, e.2]))]
  | .set members => do
    let ns ← rt.sortValues (← normalizeItems rt members)
    return .object [("$type", .string "Set"), ("values", .array ns)]
  | .classInstance name =>
    .error ("Unsupported cache-key object type: " ++ name.getD "unknown" ++ ".")
  | .object members =>
    match (suppliedType members).filter RESERVED_TYPE_TAGS.contains with
    | some t => .error ("Reserved cache-key type tag: " ++ t ++ ".")
    | none => do
      return .object (← settleMembers
        ((normalizeMembers rt members).insertionSort fun m m' => unitsLE m.1 m'.1 = true))
  | .function => .error "Unsupported cache-key value type: function."
  | .symbol => .error "Unsupported cache-key value type: symbol."
  | .undefined => .ok .undefined
  | .null => .ok .null
  | .bool b => .ok (.bool b)
  | .number n => .ok (.number n)
  | .bigint n => .ok (.bigint n)
  | .string s => .ok (.string s)

def normalizeItems (rt : Runtime) : List Arg → Except String (List Normal)
  | [] => .ok []
  | a :: rest => do return (← normalizeValue rt a) :: (← normalizeItems rt rest)

def normalizeEntries (rt : Runtime) : List (Arg × Arg) → Except String (List (Normal × Normal))
  | [] => .ok []
  | (k, v) :: rest => do
    return (← normalizeValue rt k, ← normalizeValue rt v) :: (← normalizeEntries rt rest)

/-- The members of an object that are normalised at all, each with what comes of it. -/
def normalizeMembers (rt : Runtime) : List (String × Arg) → List (String × Except String Normal)
  | [] => []
  | (k, v) :: rest =>
    if DANGEROUS_OBJECT_KEYS.contains k then normalizeMembers rt rest
    else (k, normalizeValue rt v) :: normalizeMembers rt rest

end

/-- `value.replace(/%/g, '%25').replace(/:/g, '%3A')` -/
def escapePart (s : List Char) : List Char :=
  (s.flatMap fun c => if c = '%' then ['%', '2', '5'] else [c]).flatMap fun c =>
    if c = ':' then ['%', '3', 'A'] else [c]

def templateText : Option Value → List Char
  | some v => print v
  | none => "undefined".toList

def serializeKeyPart (rt : Runtime) : Arg → Except String (List Char)
  | .string s => .ok ('s' :: ':' :: escapePart s.toList)
  | .number n => .ok ('n' :: ':' :: n.text)
  | .bool b => .ok ('b' :: ':' :: (if b then "true" else "false").toList)
  | a => do return 'j' :: '2' :: ':' :: templateText (← toJson (← normalizeValue rt a))

def serializeKeyParts (rt : Runtime) : List Arg → Except String (List (List Char))
  | [] => .ok []
  | a :: rest => do return (← serializeKeyPart rt a) :: (← serializeKeyParts rt rest)

/-- `parts.join(':')` -/
def joinParts (parts : List (List Char)) : List Char := List.intercalate [':'] parts

/-- The key of a call to a function wrapped under `pre` with no key resolver. -/
def wrapKey (rt : Runtime) (pre : String) (args : List Arg) : Except String String := do
  let suffix := joinParts (← serializeKeyParts rt args)
  return if suffix.length > 0 then String.ofList (pre.toList ++ ':' :: suffix) else pre

end LayerCache.Keys
