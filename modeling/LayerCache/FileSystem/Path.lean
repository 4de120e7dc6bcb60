import Mathlib.Data.List.TakeWhile

/-! # Path names

An absolute path without dots is the list of its names. The relative path from one to another goes
up with two dots for each name that only the first has.
-/

namespace Posix

abbrev Path := List String

def Proper (name : String) : Prop :=
  name ≠ "" ∧ name ≠ "." ∧ name ≠ ".." ∧ '/' ∉ name.toList

instance (name : String) : Decidable (Proper name) := by
  unfold Proper
  infer_instance

structure AbsolutePath where
  names : Path
  proper : ∀ name ∈ names, Proper name

/-- What lies between the slashes, after the first part of a name. -/
def components : List Char → List Char → List String
  | name, [] => [String.ofList name.reverse]
  | name, c :: text =>
    if c = '/' then String.ofList name.reverse :: components [] text
    else components (c :: name) text

def enter (path : Path) (name : String) : Path :=
  if name = "" ∨ name = "." then path else if name = ".." then path.dropLast else path ++ [name]

def isAbsolute (text : String) : Bool := "/".toList.isPrefixOf text.toList

/-- The names of `path.resolve`. -/
def resolvedNames (cwd : AbsolutePath) (text : String) : Path :=
  (components [] text.toList).foldl enter (if isAbsolute text then [] else cwd.names)

def joinNames : List String → String
  | [] => ""
  | [name] => name
  | name :: next :: rest => name ++ "/" ++ joinNames (next :: rest)

def pathText (path : Path) : String := "/" ++ joinNames path

def shared : Path → Path → ℕ
  | name :: path, name' :: path' => if name = name' then shared path path' + 1 else 0
  | _, _ => 0

def relative (source target : Path) : String :=
  joinNames (List.replicate (source.length - shared source target) ".." ++
    target.drop (shared source target))

theorem components_plain {name text : List Char} (h : '/' ∉ name) :
    ∀ component ∈ components name text, '/' ∉ component.toList := by
  induction text generalizing name with
  | nil =>
    intro component hcomponent
    rw [components, List.mem_singleton] at hcomponent
    simpa [hcomponent] using h
  | cons c text ih =>
    intro component hcomponent
    rw [components] at hcomponent
    split at hcomponent
    · rcases List.mem_cons.mp hcomponent with rfl | hcomponent
      · simpa using h
      · exact ih List.not_mem_nil component hcomponent
    · rename_i hc
      exact ih (by simpa [eq_comm] using ⟨hc, h⟩) component hcomponent

theorem proper_enter {path : Path} {name : String} (hpath : ∀ n ∈ path, Proper n)
    (hname : '/' ∉ name.toList) : ∀ n ∈ enter path name, Proper n := by
  unfold enter
  split
  · exact hpath
  · rename_i hdot
    split
    · exact fun n hn => hpath n ((List.dropLast_sublist _).subset hn)
    · rename_i hdots
      intro n hn
      rcases List.mem_append.mp hn with hn | hn
      · exact hpath n hn
      · rw [List.mem_singleton.mp hn]
        rw [not_or] at hdot
        exact ⟨hdot.1, hdot.2, hdots, hname⟩

theorem proper_foldl {path : Path} {names : List String} (hpath : ∀ n ∈ path, Proper n)
    (hnames : ∀ name ∈ names, '/' ∉ name.toList) : ∀ n ∈ names.foldl enter path, Proper n := by
  induction names generalizing path with
  | nil => exact hpath
  | cons name names ih =>
    exact ih (proper_enter hpath (hnames name List.mem_cons_self))
      fun n hn => hnames n (List.mem_cons_of_mem _ hn)

theorem proper_resolvedNames (cwd : AbsolutePath) (text : String) :
    ∀ name ∈ resolvedNames cwd text, Proper name := by
  refine proper_foldl ?_ (components_plain List.not_mem_nil)
  split
  · exact fun name hname => absurd hname List.not_mem_nil
  · exact cwd.proper

/-- `path.resolve` -/
def resolve (cwd : AbsolutePath) (text : String) : AbsolutePath :=
  ⟨resolvedNames cwd text, proper_resolvedNames cwd text⟩

section Relative
variable {source target : Path}

theorem shared_le_length : shared source target ≤ source.length := by
  fun_induction shared source target with
  | case1 name path path' ih => simpa using ih
  | case2 => exact Nat.zero_le _
  | case3 => exact Nat.zero_le _

theorem shared_eq_length_iff : shared source target = source.length ↔ source <+: target := by
  fun_induction shared source target with
  | case1 name path path' ih => simp [ih]
  | case2 name path name' path' hne => simp [hne]
  | case3 path path' hcons =>
    cases path with
    | nil => simp
    | cons name path =>
      cases path' with
      | nil => simp
      | cons name' path' => exact absurd rfl (hcons name path name' path' rfl)

theorem relative_of_prefix (h : source <+: target) :
    relative source target = joinNames (target.drop source.length) := by
  rw [relative, shared_eq_length_iff.mpr h, Nat.sub_self]
  rfl

theorem relative_of_not_prefix (h : ¬ source <+: target) :
    ∃ rest, relative source target = joinNames (".." :: rest) := by
  have hlt := Nat.lt_of_le_of_ne shared_le_length fun heq => h (shared_eq_length_iff.mp heq)
  obtain ⟨k, hk⟩ := Nat.exists_eq_succ_of_ne_zero (Nat.sub_ne_zero_of_lt hlt)
  exact ⟨_, by rw [relative, hk, List.replicate_succ, List.cons_append]⟩

theorem takeWhile_joinNames {name : String} (h : '/' ∉ name.toList) (rest : List String) :
    (joinNames (name :: rest)).toList.takeWhile (· ≠ '/') = name.toList := by
  have hall : ∀ c ∈ name.toList, decide (c ≠ '/') = true := fun c hc =>
    decide_eq_true fun heq => h (heq ▸ hc)
  cases rest with
  | nil => exact List.takeWhile_eq_self_iff.mpr hall
  | cons next rest =>
    rw [joinNames, String.toList_append, String.toList_append, List.append_assoc,
      List.takeWhile_append_of_pos hall]
    simp

theorem joinNames_proper {name : String} (h : Proper name) (rest : List String) :
    joinNames (name :: rest) ≠ ".." ∧
      ¬ "../".toList <+: (joinNames (name :: rest)).toList ∧
      isAbsolute (joinNames (name :: rest)) = false := by
  obtain ⟨hempty, -, hdots, hslash⟩ := h
  have hfirst := takeWhile_joinNames hslash rest
  refine ⟨fun htext => ?_, ?_, ?_⟩
  · rw [htext] at hfirst
    exact hdots (String.toList_inj.mp hfirst.symm)
  · rintro ⟨more, htext⟩
    rw [← htext] at hfirst
    exact hdots (String.toList_inj.mp hfirst.symm)
  · rw [isAbsolute, Bool.eq_false_iff, Ne, List.isPrefixOf_iff_prefix]
    rintro ⟨more, htext⟩
    rw [← htext] at hfirst
    exact hempty (String.toList_inj.mp hfirst.symm)

end Relative

end Posix
