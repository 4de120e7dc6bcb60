import LayerCache.Keys.Canonical
import Mathlib.Data.List.Forall2

/-! # What a key keeps of a call

Structural equality of arguments, and what the text of a key lets through of it. Inside
another value nothing is kept of `undefined`, `NaN` and the infinities, nor of a property
that is undefined or has one of the dangerous names, and the members of sets and maps
whose texts tie keep the order they were inserted in.
-/

namespace LayerCache.Keys
open Json

namespace Arg

/-- Every object of the argument has each of its properties once. -/
inductive WellFormed : Arg → Prop
  | array {items} (h : ∀ a ∈ items, WellFormed a) : WellFormed (.array items)
  | map {entries : List (Arg × Arg)} (hkeys : ∀ e ∈ entries, WellFormed e.1)
      (hvalues : ∀ e ∈ entries, WellFormed e.2) : WellFormed (.map entries)
  | set {members} (h : ∀ a ∈ members, WellFormed a) : WellFormed (.set members)
  | object {members : List (String × Arg)} (h : ∀ m ∈ members, WellFormed m.2)
      (nodup : (members.map (·.1)).Nodup) : WellFormed (.object members)
  | undefined : WellFormed .undefined
  | null : WellFormed .null
  | bool (b : Bool) : WellFormed (.bool b)
  | number (n : Number) : WellFormed (.number n)
  | bigint (n : ℤ) : WellFormed (.bigint n)
  | string (s : String) : WellFormed (.string s)
  | function : WellFormed .function
  | symbol : WellFormed .symbol
  | date (d : Option Date) : WellFormed (.date d)
  | url (href : String) : WellFormed (.url href)
  | regExp (source flags : String) : WellFormed (.regExp source flags)
  | classInstance (name : Option String) : WellFormed (.classInstance name)

end Arg

def Number.withoutSign : Number → Number
  | .negativeZero => .finite zero
  | n => n

/-- Structural equality of arguments: 0 and -0 are the same, and so are objects, maps and
sets with their properties, entries and members in another order. -/
inductive Same : Arg → Arg → Prop
  | undefined : Same .undefined .undefined
  | null : Same .null .null
  | bool (b : Bool) : Same (.bool b) (.bool b)
  | number {m n : Number} (h : m.withoutSign = n.withoutSign) : Same (.number m) (.number n)
  | string (s : String) : Same (.string s) (.string s)
  | date (d : Option Date) : Same (.date d) (.date d)
  | url (href : String) : Same (.url href) (.url href)
  | regExp (source flags : String) : Same (.regExp source flags) (.regExp source flags)
  | array {xs ys : List Arg} (h : List.Forall₂ Same xs ys) : Same (.array xs) (.array ys)
  | map {es fs gs : List (Arg × Arg)} (hkeys : List.Forall₂ Same (es.map (·.1)) (fs.map (·.1)))
      (hvalues : List.Forall₂ Same (es.map (·.2)) (fs.map (·.2))) (order : fs.Perm gs) :
      Same (.map es) (.map gs)
  | set {xs ys zs : List Arg} (h : List.Forall₂ Same xs ys) (order : ys.Perm zs) :
      Same (.set xs) (.set zs)
  | object {ms ns os : List (String × Arg)} (hkeys : ms.map (·.1) = ns.map (·.1))
      (hvalues : List.Forall₂ Same (ms.map (·.2)) (ns.map (·.2))) (order : ns.Perm os) :
      Same (.object ms) (.object os)

namespace Arg

/-- Inside another value these are all printed as `null`. -/
def isBlank : Arg → Bool
  | .undefined | .null | .number .nan | .number (.infinity _) => true
  | _ => false

def isUndefined : Arg → Bool
  | .undefined => true
  | _ => false

/-- The text that a member of a set or a key of a map is sorted by. -/
def text (rt : Runtime) (a : Arg) : String :=
  match normalizeValue rt a with
  | .ok n => n.text
  | .error _ => ""

end Arg

def arrangeSet (rt : Runtime) (members : List Arg) : List Arg :=
  (members.filter fun a => !a.isUndefined).insertionSort
    (fun a b => rt.le (a.text rt) (b.text rt) = true) ++ members.filter Arg.isUndefined

/-- The entries of a map in the order of the texts of their keys. -/
def arrangeMap (rt : Runtime) (entries : List (Arg × Arg)) : List (Arg × Arg) :=
  entries.insertionSort fun e e' => rt.le (e.1.text rt) (e'.1.text rt) = true

/-- The properties of an object that its key keeps, sorted by name. -/
def keptMembers (members : List (String × Arg)) : List (String × Arg) :=
  ((members.filter fun m => !DANGEROUS_OBJECT_KEYS.contains m.1).insertionSort
    fun m m' => unitsLE m.1 m'.1 = true).filter fun m => !m.2.isUndefined

/-- Two values inside others that differ in nothing their text keeps. -/
inductive Alike (rt : Runtime) : Arg → Arg → Prop
  | blank {a b : Arg} (ha : a.isBlank = true) (hb : b.isBlank = true) : Alike rt a b
  | bool (b : Bool) : Alike rt (.bool b) (.bool b)
  | number {m n : Number} (h : m.withoutSign = n.withoutSign) : Alike rt (.number m) (.number n)
  | string (s : String) : Alike rt (.string s) (.string s)
  | date (d : Date) : Alike rt (.date (some d)) (.date (some d))
  | url (href : String) : Alike rt (.url href) (.url href)
  | regExp (source flags : String) : Alike rt (.regExp source flags) (.regExp source flags)
  | array {xs ys : List Arg} (h : List.Forall₂ (Alike rt) xs ys) : Alike rt (.array xs) (.array ys)
  | map {es fs : List (Arg × Arg)}
      (hkeys : List.Forall₂ (Alike rt) ((arrangeMap rt es).map (·.1))
        ((arrangeMap rt fs).map (·.1)))
      (hvalues : List.Forall₂ (Alike rt) ((arrangeMap rt es).map (·.2))
        ((arrangeMap rt fs).map (·.2))) : Alike rt (.map es) (.map fs)
  | set {xs ys : List Arg} (h : List.Forall₂ (Alike rt) (arrangeSet rt xs) (arrangeSet rt ys)) :
      Alike rt (.set xs) (.set ys)
  | object {ms ns : List (String × Arg)}
      (hkeys : (keptMembers ms).map (·.1) = (keptMembers ns).map (·.1))
      (hvalues : List.Forall₂ (Alike rt) ((keptMembers ms).map (·.2))
        ((keptMembers ns).map (·.2))) :
      Alike rt (.object ms) (.object ns)

/-- Two arguments that differ in nothing their key parts keep. An argument that is `undefined`
or a number is not blank: it has a key part of its own. -/
inductive PartAlike (rt : Runtime) : Arg → Arg → Prop
  | undefined : PartAlike rt .undefined .undefined
  | number {m n : Number} (h : m.withoutSign = n.withoutSign) : PartAlike rt (.number m) (.number n)
  | other {a b : Arg} (ha : a.isBlank = true → a = .null) (hb : b.isBlank = true → b = .null)
      (h : Alike rt a b) : PartAlike rt a b

/-- Two argument lists are the same exactly if they differ in nothing their keys keep. -/
structure KeptApart (rt : Runtime) (args args' : List Arg) : Prop where
  /-- Lists that are not the same differ in something that their keys keep. -/
  apart : List.Forall₂ (PartAlike rt) args args' → List.Forall₂ Same args args'
  /-- Lists that are the same list their sets and maps in the same order, once sorted. -/
  together : List.Forall₂ Same args args' → List.Forall₂ (PartAlike rt) args args'

end LayerCache.Keys
