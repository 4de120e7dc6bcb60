import LayerCache.FileSystem.Path
import Mathlib.Data.List.Induction
import Mathlib.Logic.Function.Basic

/-! # Trees of files

A tree holds files, directories and symbolic links under their physical paths. A path that a
program names is walked from directory to directory, and a link on the way is replaced by its
target.
-/

namespace Posix

inductive Errno | ENOENT | ENOTDIR | ENOTEMPTY | EEXIST | EISDIR | EINVAL | EBUSY | ELOOP
  deriving DecidableEq

inductive Node (C : Type)
  | file (content : C)
  | directory
  | symlink (isAbsolute : Bool) (target : List String)
  deriving DecidableEq

def Node.isDirectory {C : Type} : Node C → Bool
  | .directory => true
  | _ => false

def Node.isFile {C : Type} : Node C → Bool
  | .file _ => true
  | _ => false

def Node.isSymbolicLink {C : Type} : Node C → Bool
  | .symlink _ _ => true
  | _ => false

structure FileTree (C : Type) where
  node : Path → Option (Node C)
  /-- The names in a directory, among others. -/
  names : Path → List String
  root : node [] = some .directory
  parent : ∀ {path name}, node (path ++ [name]) ≠ none → node path = some .directory
  proper : ∀ {path name}, node (path ++ [name]) ≠ none → Proper name
  listed : ∀ {path name}, node (path ++ [name]) ≠ none → name ∈ names path

namespace FileTree

def bare (C : Type) : FileTree C where
  node path := if path = [] then some .directory else none
  names _ := []
  root := rfl
  parent h := by simp at h
  proper h := by simp at h
  listed h := by simp at h

variable {C : Type} (t : FileTree C)

def isDirectory (path : Path) : Bool := (t.node path).any Node.isDirectory

variable {t} in
theorem isDirectory_iff {path : Path} :
    t.isDirectory path = true ↔ t.node path = some .directory := by
  unfold isDirectory
  cases t.node path with
  | none => simp
  | some node => cases node <;> simp [Node.isDirectory]

/-- The conditions under which a directory entry can change. -/
def Admits (dir : Path) (name : String) : Prop :=
  t.isDirectory dir = true ∧ Proper name ∧ t.isDirectory (dir ++ [name]) = false

instance (dir : Path) (name : String) : Decidable (t.Admits dir name) := by
  unfold Admits
  infer_instance

section Put
variable {t} {dir : Path} {name : String} (node : Option (Node C))

theorem root_update : Function.update t.node (dir ++ [name]) node [] = some .directory := by
  rw [Function.update_of_ne (by simp)]
  exact t.root

theorem parent_update (h : t.Admits dir name) {path : Path} {name' : String}
    (hsome : Function.update t.node (dir ++ [name]) node (path ++ [name']) ≠ none) :
    Function.update t.node (dir ++ [name]) node path = some .directory := by
  have hpath : t.node path = some .directory := by
    by_cases heq : path ++ [name'] = dir ++ [name]
    · rw [(List.append_inj' heq rfl).1]
      exact isDirectory_iff.mp h.1
    · rw [Function.update_of_ne heq] at hsome
      exact t.parent hsome
  have hne : path ≠ dir ++ [name] := by
    rintro rfl
    have hfree := h.2.2
    rw [isDirectory_iff.mpr hpath] at hfree
    cases hfree
  rw [Function.update_of_ne hne]
  exact hpath

theorem proper_update (h : t.Admits dir name) {path : Path} {name' : String}
    (hsome : Function.update t.node (dir ++ [name]) node (path ++ [name']) ≠ none) :
    Proper name' := by
  by_cases heq : path ++ [name'] = dir ++ [name]
  · obtain ⟨-, hname⟩ := List.append_inj' heq rfl
    rw [List.singleton_inj.mp hname]
    exact h.2.1
  · rw [Function.update_of_ne heq] at hsome
    exact t.proper hsome

theorem listed_update {path : Path} {name' : String}
    (hsome : Function.update t.node (dir ++ [name]) node (path ++ [name']) ≠ none) :
    name' ∈ Function.update t.names dir (name :: t.names dir) path := by
  by_cases heq : path ++ [name'] = dir ++ [name]
  · obtain ⟨rfl, hname⟩ := List.append_inj' heq rfl
    rw [Function.update_self, List.singleton_inj.mp hname]
    exact List.mem_cons_self
  · rw [Function.update_of_ne heq] at hsome
    have hlisted := t.listed hsome
    by_cases hpath : path = dir
    · subst hpath
      rw [Function.update_self]
      exact List.mem_cons_of_mem _ hlisted
    · rwa [Function.update_of_ne hpath]

end Put

/-- What the directory holds under the name becomes the node, or nothing. -/
def put (dir : Path) (name : String) (node : Option (Node C)) : FileTree C :=
  if h : t.Admits dir name then
    { node := Function.update t.node (dir ++ [name]) node
      names := Function.update t.names dir (name :: t.names dir)
      root := root_update node
      parent := parent_update node h
      proper := proper_update node h
      listed := listed_update node }
  else t

def movedNode (source target path : Path) : Option (Node C) :=
  if target <+: path then t.node (source ++ path.drop target.length)
  else if source <+: path then none
  else t.node path

/-- The conditions under which something can go to a name of a directory with all below it. -/
def Takes (source dir : Path) (name : String) : Prop :=
  t.isDirectory dir = true ∧ Proper name ∧ ¬ source <+: dir

instance (source dir : Path) (name : String) : Decidable (t.Takes source dir name) := by
  unfold Takes
  infer_instance

section Move
variable {t} {source dir path : Path} {name name' : String}

theorem not_prefix_parent : ¬ dir ++ [name] <+: dir := by
  intro h
  have hlength := h.length_le
  rw [List.length_append, List.length_singleton] at hlength
  omega

theorem movedNode_below {target : Path} (h : target <+: path) :
    t.movedNode source target (path ++ [name]) =
      t.node (source ++ path.drop target.length ++ [name]) := by
  rw [movedNode, if_pos (h.trans (List.prefix_append _ _)), List.drop_append_of_le_length
    h.length_le, List.append_assoc]

theorem movedNode_cases (h : t.movedNode source (dir ++ [name]) (path ++ [name']) ≠ none) :
    path = dir ∧ name' = name ∨
      dir ++ [name] <+: path ∧
        t.node (source ++ path.drop (dir ++ [name]).length ++ [name']) ≠ none ∨
      (¬ dir ++ [name] <+: path ∧ ¬ source <+: path) ∧ t.node (path ++ [name']) ≠ none := by
  by_cases htarget : dir ++ [name] <+: path ++ [name']
  · obtain heq | hbelow := List.prefix_concat_iff.mp htarget
    · obtain ⟨hdir, hname⟩ := List.append_inj' heq rfl
      exact .inl ⟨hdir.symm, (List.singleton_inj.mp hname).symm⟩
    · rw [movedNode_below hbelow] at h
      exact .inr (.inl ⟨hbelow, h⟩)
  · rw [movedNode, if_neg htarget] at h
    split at h
    · exact absurd rfl h
    · rename_i hsource
      exact .inr (.inr ⟨⟨fun hbelow => htarget (hbelow.trans (List.prefix_append _ _)),
        fun hbelow => hsource (hbelow.trans (List.prefix_append _ _))⟩, h⟩)

theorem parent_moved (h : t.Takes source dir name)
    (hsome : t.movedNode source (dir ++ [name]) (path ++ [name']) ≠ none) :
    t.movedNode source (dir ++ [name]) path = some .directory := by
  obtain ⟨rfl, -⟩ | ⟨hbelow, hnode⟩ | ⟨⟨hbelow, hsource⟩, hnode⟩ := movedNode_cases hsome
  · rw [movedNode, if_neg not_prefix_parent, if_neg h.2.2]
    exact isDirectory_iff.mp h.1
  · rw [movedNode, if_pos hbelow]
    exact t.parent hnode
  · rw [movedNode, if_neg hbelow, if_neg hsource]
    exact t.parent hnode

theorem proper_moved (h : t.Takes source dir name)
    (hsome : t.movedNode source (dir ++ [name]) (path ++ [name']) ≠ none) : Proper name' := by
  obtain ⟨-, rfl⟩ | ⟨-, hnode⟩ | ⟨-, hnode⟩ := movedNode_cases hsome
  · exact h.2.1
  · exact t.proper hnode
  · exact t.proper hnode

theorem listed_moved
    (hsome : t.movedNode source (dir ++ [name]) (path ++ [name']) ≠ none) :
    name' ∈ if dir ++ [name] <+: path then t.names (source ++ path.drop (dir ++ [name]).length)
      else name :: t.names path := by
  obtain ⟨rfl, rfl⟩ | ⟨hbelow, hnode⟩ | ⟨⟨hbelow, -⟩, hnode⟩ := movedNode_cases hsome
  · rw [if_neg not_prefix_parent]
    exact List.mem_cons_self
  · rw [if_pos hbelow]
    exact t.listed hnode
  · rw [if_neg hbelow]
    exact List.mem_cons_of_mem _ (t.listed hnode)

end Move

/-- What is at the source, with all below it, goes under a name of the directory. -/
def move (source dir : Path) (name : String) : FileTree C :=
  if h : t.Takes source dir name then
    { node := t.movedNode source (dir ++ [name])
      names := fun path => if dir ++ [name] <+: path then
        t.names (source ++ path.drop (dir ++ [name]).length) else name :: t.names path
      root := by
        have hsource : ¬ source <+: [] := fun hnil => h.2.2 (hnil.trans List.nil_prefix)
        rw [movedNode, if_neg (by simp), if_neg hsource]
        exact t.root
      parent := parent_moved h
      proper := proper_moved h
      listed := listed_moved }
  else t

/-- The walk up to the first link, which the rest of the walk is left to. -/
def follow (onLink : Path → List String → Except Errno Path) :
    Path → List String → Except Errno Path
  | dir, [] => .ok dir
  | dir, name :: rest =>
    if name = "" ∨ name = "." then follow onLink dir rest
    else if name = ".." then follow onLink dir.dropLast rest
    else
      match t.node (dir ++ [name]) with
      | none => .error .ENOENT
      | some (.file _) => if rest = [] then .ok (dir ++ [name]) else .error .ENOTDIR
      | some .directory => follow onLink (dir ++ [name]) rest
      | some (.symlink isAbsolute target) =>
        onLink (if isAbsolute then [] else dir) (target ++ rest)

def walk : ℕ → Path → List String → Except Errno Path
  | 0 => t.follow fun _ _ => .error .ELOOP
  | links + 1 => t.follow (walk links)

def realpath (path : Path) : Except Errno Path := t.walk 40 [] path

def lookup (dir : Path) (name : String) : Except Errno (Node C) :=
  if t.isDirectory dir then (t.node (dir ++ [name])).elim (.error .ENOENT) .ok
  else .error .ENOTDIR

def lstat (path : Path) : Except Errno (Node C) :=
  match path.getLast? with
  | none => .ok .directory
  | some name => do t.lookup (← t.realpath path.dropLast) name

def create (path : Path) (node : Node C) : Except Errno (FileTree C) :=
  match path.getLast? with
  | none => .error .EEXIST
  | some name => do
    let dir ← t.realpath path.dropLast
    match t.lookup dir name with
    | .error .ENOENT => .ok (t.put dir name (some node))
    | .error errno => .error errno
    | .ok _ => .error .EEXIST

def unlink (path : Path) : Except Errno (FileTree C) :=
  match path.getLast? with
  | none => .error .EISDIR
  | some name => do
    let dir ← t.realpath path.dropLast
    if (← t.lookup dir name).isDirectory then .error .EISDIR else .ok (t.put dir name none)

def isEmpty (dir : Path) : Bool := (t.names dir).all fun name => (t.node (dir ++ [name])).isNone

/-- A directory takes the place of nothing or of an empty one, but not below itself. -/
def renameDirectory (source dir : Path) (name : String) : Except Errno (FileTree C) :=
  if source <+: dir then .error .EINVAL
  else
    match t.node (dir ++ [name]) with
    | none => .ok (t.move source dir name)
    | some .directory =>
      if t.isEmpty (dir ++ [name]) then .ok (t.move source dir name) else .error .ENOTEMPTY
    | some _ => .error .ENOTDIR

def rename (source target : Path) : Except Errno (FileTree C) :=
  match source.getLast?, target.getLast? with
  | some name, some name' => do
    let dir ← t.realpath source.dropLast
    let dir' ← t.realpath target.dropLast
    let node ← t.lookup dir name
    if !t.isDirectory dir' then .error .ENOTDIR
    else if dir ++ [name] = dir' ++ [name'] then .ok t
    else if node.isDirectory then t.renameDirectory (dir ++ [name]) dir' name'
    else if t.isDirectory (dir' ++ [name']) then .error .EISDIR
    else .ok ((t.put dir' name' (some node)).put dir name none)
  | _, _ => .error .EBUSY

/-- The directory that a path given from its end names, with those it lies in. -/
def mkdirs (t : FileTree C) : List String → FileTree C × Except Errno Unit
  | [] => (t, .ok ())
  | name :: parents =>
    match t.realpath (name :: parents).reverse with
    | .ok path => (t, if t.isDirectory path then .ok () else .error .EEXIST)
    | .error .ENOENT =>
      match t.mkdirs parents with
      | (t', .ok ()) =>
        match t'.create (name :: parents).reverse .directory with
        | .ok t'' => (t'', .ok ())
        -- a link is in the way that leads nowhere
        | .error .EEXIST => (t', .error .ENOENT)
        | .error errno => (t', .error errno)
      | (t', .error errno) => (t', .error errno)
    | .error errno => (t, .error errno)

/-- `mkdir` with `recursive`. -/
def mkdirp (path : Path) : FileTree C × Except Errno Unit := t.mkdirs path.reverse

/-- The content of the file that a path names, but no link. -/
def read (path : Path) : Except Errno C := do
  match ← t.lstat path with
  | .file content => .ok content
  | .directory => .error .EISDIR
  | .symlink _ _ => .error .ELOOP

section Put
variable {t} {dir : Path} {name : String} {node : Option (Node C)}

theorem node_put (h : t.Admits dir name) :
    (t.put dir name node).node = Function.update t.node (dir ++ [name]) node := by
  rw [put, dif_pos h]

theorem node_put_of_ne {path : Path} (h : path ≠ dir ++ [name]) :
    (t.put dir name node).node path = t.node path := by
  unfold put
  split
  · exact Function.update_of_ne h _ _
  · rfl

theorem directory_put {path : Path} (h : t.node path = some .directory) :
    (t.put dir name node).node path = some .directory := by
  by_cases hadmits : t.Admits dir name
  · rw [node_put hadmits, Function.update_of_ne, h]
    rintro rfl
    have hfree := hadmits.2.2
    rw [isDirectory_iff.mpr h] at hfree
    cases hfree
  · rwa [put, dif_neg hadmits]

theorem node_of_put_none {path : Path} {found : Node C}
    (h : (t.put dir name none).node path = some found) : t.node path = some found := by
  by_cases hadmits : t.Admits dir name
  · rw [node_put hadmits] at h
    by_cases hpath : path = dir ++ [name]
    · rw [hpath, Function.update_self] at h
      cases h
    · rwa [Function.update_of_ne hpath] at h
  · rwa [put, dif_neg hadmits] at h

theorem node_put_self (h : t.Admits dir name) :
    (t.put dir name node).node (dir ++ [name]) = node := by
  rw [node_put h, Function.update_self]

theorem node_put_of_free (hfree : t.node (dir ++ [name]) = none) {path : Path} {found : Node C}
    (h : t.node path = some found) : (t.put dir name node).node path = some found := by
  rw [node_put_of_ne, h]
  rintro rfl
  rw [hfree] at h
  cases h

theorem admits_of_free (hdir : t.node dir = some .directory) (hname : Proper name)
    (hfree : t.node (dir ++ [name]) = none) : t.Admits dir name := by
  refine ⟨isDirectory_iff.mpr hdir, hname, ?_⟩
  rw [isDirectory, hfree]
  rfl

end Put

section Walk
variable {t} {t' : FileTree C} {links : ℕ} {dir path : Path} {name : String} {todo : List String}

theorem directory_of_append {rest : List String} (h : t.node (dir ++ name :: rest) ≠ none) :
    t.node dir = some .directory := by
  induction rest using List.reverseRecOn with
  | nil => exact t.parent h
  | append_singleton rest last ih =>
    rw [← List.cons_append, ← List.append_assoc] at h
    refine ih ?_
    rw [t.parent h]
    simp

theorem node_below_missing (h : t.node (dir ++ [name]) = none) (rest : Path) :
    t.node (dir ++ name :: rest) = none := by
  cases rest with
  | nil => exact h
  | cons next rest =>
    by_contra hsome
    rw [List.append_cons] at hsome
    rw [directory_of_append hsome] at h
    cases h

theorem proper_of_node (h : t.node path ≠ none) : ∀ name ∈ path, Proper name := by
  induction path using List.reverseRecOn with
  | nil => exact fun name hname => absurd hname List.not_mem_nil
  | append_singleton path last ih =>
    intro name hname
    rcases List.mem_append.mp hname with hname | hname
    · exact ih (by rw [t.parent h]; simp) name hname
    · rw [List.mem_singleton.mp hname]
      exact t.proper h

theorem walk_nil : t.walk links dir [] = .ok dir := by
  cases links <;> rfl

/-- A walk goes past a proper name into the directory of that name. -/
theorem walk_directory (hname : Proper name) (hnode : t.node (dir ++ [name]) = some .directory) :
    t.walk links dir (name :: todo) = t.walk links (dir ++ [name]) todo := by
  obtain ⟨hempty, hdot, hdots, -⟩ := hname
  cases links <;> simp [walk, follow, hempty, hdot, hdots, hnode]

theorem walk_missing (hname : Proper name) (hnode : t.node (dir ++ [name]) = none) :
    t.walk links dir (name :: todo) = .error .ENOENT := by
  obtain ⟨hempty, hdot, hdots, -⟩ := hname
  cases links <;> simp [walk, follow, hempty, hdot, hdots, hnode]

theorem walk_file (hname : Proper name) {content : C}
    (hnode : t.node (dir ++ [name]) = some (.file content)) :
    t.walk links dir [name] = .ok (dir ++ [name]) := by
  obtain ⟨hempty, hdot, hdots, -⟩ := hname
  cases links <;> simp [walk, follow, hempty, hdot, hdots, hnode]

/-- A physical path leads to itself. -/
theorem walk_self (h : t.node (dir ++ todo) = some .directory) :
    t.walk links dir todo = .ok (dir ++ todo) := by
  induction todo generalizing dir with
  | nil => rw [walk_nil, List.append_nil]
  | cons name rest ih =>
    have hfirst : t.node (dir ++ [name]) = some .directory := by
      cases rest with
      | nil => exact h
      | cons next rest =>
        rw [List.append_cons] at h
        exact directory_of_append (by rw [h]; simp)
    have hname : Proper name := t.proper (by rw [hfirst]; simp)
    rw [walk_directory hname hfirst, ih (by rwa [List.append_cons] at h), List.append_assoc]
    rfl

theorem realpath_self (h : t.node path = some .directory) : t.realpath path = .ok path :=
  walk_self h

theorem directory_dropLast (h : t.node dir = some .directory) :
    t.node dir.dropLast = some .directory := by
  cases dir using List.reverseRecOn with
  | nil => exact t.root
  | append_singleton dir name =>
    rw [List.dropLast_concat]
    exact t.parent (by rw [h]; simp)

section Follow
variable {onLink : Path → List String → Except Errno Path}

/-- What is walked ends at what is there, if that holds beyond the first link. -/
theorem follow_exists (hlink : ∀ {dir todo path}, t.node dir = some .directory →
      onLink dir todo = .ok path → t.node path ≠ none)
    (hdir : t.node dir = some .directory) (h : t.follow onLink dir todo = .ok path) :
    t.node path ≠ none := by
  induction todo generalizing dir with
  | nil =>
    cases h
    rw [hdir]
    simp
  | cons name rest ih =>
    rw [follow] at h
    split at h
    · exact ih hdir h
    · split at h
      · exact ih (directory_dropLast hdir) h
      · split at h
        · cases h
        · rename_i hnode
          split at h
          · cases h
            rw [hnode]
            simp
          · cases h
        · rename_i hnode
          exact ih hnode h
        · refine hlink ?_ h
          split
          · exact t.root
          · exact hdir

/-- A walk that ends at a directory can go on from there, if that holds beyond the first link. -/
theorem follow_append (hwalk : t.walk links = t.follow onLink)
    (hlink : ∀ {dir todo path}, onLink dir todo = .ok path → t.node path = some .directory →
      ∃ links', ∀ more, onLink dir (todo ++ more) = t.walk links' path more)
    (h : t.follow onLink dir todo = .ok path) (hpath : t.node path = some .directory) :
    ∃ links', ∀ more, t.follow onLink dir (todo ++ more) = t.walk links' path more := by
  induction todo generalizing dir with
  | nil =>
    cases h
    exact ⟨links, fun more => by rw [hwalk, List.nil_append]⟩
  | cons name rest ih =>
    simp only [List.cons_append]
    rw [follow] at h
    simp only [follow]
    split at h
    · rename_i hdot
      simp only [if_pos hdot]
      exact ih h
    · rename_i hdot
      simp only [if_neg hdot]
      split at h
      · rename_i hdots
        simp only [if_pos hdots]
        exact ih h
      · rename_i hdots
        simp only [if_neg hdots]
        split at h
        · cases h
        · rename_i hnode
          split at h
          · cases h
            rw [hnode] at hpath
            cases hpath
          · cases h
        · exact ih h
        · simp only [← List.append_assoc]
          exact hlink h hpath

/-- A walk to a directory goes the same way where no directory and no link has changed. -/
theorem follow_keeps {onLink' : Path → List String → Except Errno Path}
    (hkeeps : ∀ path node, t.node path = some node → node.isFile = false →
      t'.node path = some node)
    (hlink : ∀ {dir todo path}, onLink dir todo = .ok path → t.node path = some .directory →
      onLink' dir todo = .ok path)
    (h : t.follow onLink dir todo = .ok path) (hpath : t.node path = some .directory) :
    t'.follow onLink' dir todo = .ok path := by
  induction todo generalizing dir with
  | nil => exact h
  | cons name rest ih =>
    rw [follow] at h ⊢
    split at h
    · rename_i hdot
      rw [if_pos hdot]
      exact ih h
    · rename_i hdot
      rw [if_neg hdot]
      split at h
      · rename_i hdots
        rw [if_pos hdots]
        exact ih h
      · rename_i hdots
        rw [if_neg hdots]
        split at h
        · cases h
        · rename_i hnode
          split at h
          · cases h
            rw [hnode] at hpath
            cases hpath
          · cases h
        · rename_i hnode
          rw [hkeeps _ _ hnode rfl]
          exact ih h
        · rename_i isAbsolute target hnode
          rw [hkeeps _ _ hnode rfl]
          exact hlink h hpath

end Follow

theorem walk_exists (hdir : t.node dir = some .directory) (h : t.walk links dir todo = .ok path) :
    t.node path ≠ none := by
  induction links generalizing dir todo path with
  | zero => exact follow_exists (fun _ h => by cases h) hdir h
  | succ links ih => exact follow_exists (fun hdir h => ih hdir h) hdir h

theorem realpath_exists (h : t.realpath todo = .ok path) : t.node path ≠ none :=
  walk_exists t.root h

theorem walk_append (h : t.walk links dir todo = .ok path) (hpath : t.node path = some .directory) :
    ∃ links', ∀ more, t.walk links dir (todo ++ more) = t.walk links' path more := by
  induction links generalizing dir todo path with
  | zero => exact follow_append (show t.walk 0 = _ from rfl) (fun h => by cases h) h hpath
  | succ links ih => exact follow_append (show t.walk (links + 1) = _ from rfl) ih h hpath

theorem walk_keeps (hkeeps : ∀ path node, t.node path = some node → node.isFile = false →
      t'.node path = some node)
    (h : t.walk links dir todo = .ok path) (hpath : t.node path = some .directory) :
    t'.walk links dir todo = .ok path := by
  induction links generalizing dir todo path with
  | zero => exact follow_keeps hkeeps (fun h => by cases h) h hpath
  | succ links ih => exact follow_keeps hkeeps (fun h hpath => ih h hpath) h hpath

theorem realpath_put {parents : Path} (h : t.realpath parents = .ok dir)
    (hdir : t.node dir = some .directory) (hname : Proper name)
    (hfree : t.node (dir ++ [name]) = none) :
    (t.put dir name (some .directory)).realpath (parents ++ [name]) = .ok (dir ++ [name]) := by
  have hkept : (t.put dir name (some .directory)).realpath parents = .ok dir :=
    walk_keeps (fun _ _ hnode _ => node_put_of_free hfree hnode) h hdir
  have hnew : (t.put dir name (some .directory)).node (dir ++ [name]) = some .directory :=
    node_put_self (admits_of_free hdir hname hfree)
  obtain ⟨links, hwalk⟩ := walk_append hkept (directory_put hdir)
  rw [realpath, hwalk, walk_directory hname hnew, walk_nil]

end Walk

theorem bind_eq_ok_iff {ε α β : Type} {x : Except ε α} {f : α → Except ε β} {b : β} :
    x >>= f = .ok b ↔ ∃ a, x = .ok a ∧ f a = .ok b := by
  constructor
  · intro h
    cases x with
    | error e => cases h
    | ok a => exact ⟨a, rfl, h⟩
  · rintro ⟨a, rfl, h⟩
    exact h

theorem ok_bind {ε α β : Type} (a : α) (f : α → Except ε β) :
    ((.ok a : Except ε α) >>= f) = f a := rfl

/-- The trees are the same but for what lies under the path. -/
def SameOutside (base : Path) (t t' : FileTree C) : Prop :=
  ∀ path, ¬ base <+: path → t'.node path = t.node path

section Changes
variable {t} {t' t'' : FileTree C} {base dir path : Path} {name : String} {node : Option (Node C)}

theorem SameOutside.refl : SameOutside base t t := fun _ _ => rfl

theorem SameOutside.trans (h : SameOutside base t t') (h' : SameOutside base t' t'') :
    SameOutside base t t'' :=
  fun path hpath => (h' path hpath).trans (h path hpath)

theorem sameOutside_put (h : base <+: dir) : SameOutside base t (t.put dir name node) := by
  intro path hpath
  refine node_put_of_ne ?_
  rintro rfl
  exact hpath (h.trans (List.prefix_append _ _))

theorem lookup_eq_ok_iff {node : Node C} :
    t.lookup dir name = .ok node ↔
      t.node dir = some .directory ∧ t.node (dir ++ [name]) = some node := by
  rw [lookup, ← isDirectory_iff]
  cases t.isDirectory dir <;> cases t.node (dir ++ [name]) <;> simp

theorem lookup_eq_missing_iff :
    t.lookup dir name = .error .ENOENT ↔
      t.node dir = some .directory ∧ t.node (dir ++ [name]) = none := by
  rw [lookup, ← isDirectory_iff]
  cases t.isDirectory dir <;> cases t.node (dir ++ [name]) <;> simp

theorem create_eq_ok {node : Node C} (h : t.create path node = .ok t') :
    ∃ dir name, path.getLast? = some name ∧ t.realpath path.dropLast = .ok dir ∧
      t.lookup dir name = .error .ENOENT ∧ t' = t.put dir name (some node) := by
  unfold create at h
  split at h
  · cases h
  · rename_i name hname
    obtain ⟨dir, hdir, h⟩ := bind_eq_ok_iff.mp h
    split at h
    · rename_i hmissing
      cases h
      exact ⟨dir, name, hname, hdir, hmissing, rfl⟩
    · cases h
    · cases h

theorem directory_create {node : Node C} (h : t.create path node = .ok t')
    (hdir : t.node dir = some .directory) : t'.node dir = some .directory := by
  obtain ⟨parent, name, -, -, -, rfl⟩ := create_eq_ok h
  exact directory_put hdir

theorem unlink_eq_ok (h : t.unlink path = .ok t') :
    ∃ dir name, path.getLast? = some name ∧ t.realpath path.dropLast = .ok dir ∧
      t' = t.put dir name none := by
  unfold unlink at h
  split at h
  · cases h
  · rename_i name hname
    obtain ⟨dir, hdir, h⟩ := bind_eq_ok_iff.mp h
    obtain ⟨node, -, h⟩ := bind_eq_ok_iff.mp h
    split at h
    · cases h
    · cases h
      exact ⟨dir, name, hname, hdir, rfl⟩

theorem node_move_of_not_prefix {source : Path} (hsource : ¬ source <+: path)
    (htarget : ¬ dir ++ [name] <+: path) : (t.move source dir name).node path = t.node path := by
  unfold move
  split
  · change t.movedNode source (dir ++ [name]) path = t.node path
    rw [movedNode, if_neg htarget, if_neg hsource]
  · rfl

theorem sameOutside_move {source : Path} (hsource : base <+: source) (hdir : base <+: dir) :
    SameOutside base t (t.move source dir name) := fun _ hpath =>
  node_move_of_not_prefix (fun h => hpath (hsource.trans h))
    fun h => hpath ((hdir.trans (List.prefix_append _ _)).trans h)

theorem renameDirectory_eq_ok {source : Path} (h : t.renameDirectory source dir name = .ok t') :
    t' = t.move source dir name := by
  unfold renameDirectory at h
  split at h
  · cases h
  · split at h
    · cases h
      rfl
    · split at h
      · cases h
        rfl
      · cases h
    · cases h

/-- A file takes the place of what is under the other path, unless that is a directory, and a
directory goes there with all that is in it. -/
theorem rename_eq_ok {source target : Path} (h : t.rename source target = .ok t') :
    ∃ dir name dir' name' node,
      source.getLast? = some name ∧ target.getLast? = some name' ∧
      t.realpath source.dropLast = .ok dir ∧ t.realpath target.dropLast = .ok dir' ∧
      t.lookup dir name = .ok node ∧
      (dir ++ [name] = dir' ++ [name'] ∧ t' = t ∨
        node.isDirectory = true ∧ t' = t.move (dir ++ [name]) dir' name' ∨
        (node.isDirectory = false ∧ t.isDirectory (dir' ++ [name']) = false) ∧
          t' = (t.put dir' name' (some node)).put dir name none) := by
  unfold rename at h
  split at h
  · rename_i name name' hname hname'
    obtain ⟨dir, hdir, h⟩ := bind_eq_ok_iff.mp h
    obtain ⟨dir', hdir', h⟩ := bind_eq_ok_iff.mp h
    obtain ⟨node, hnode, h⟩ := bind_eq_ok_iff.mp h
    refine ⟨dir, name, dir', name', node, hname, hname', hdir, hdir', hnode, ?_⟩
    split at h
    · cases h
    · split at h
      · rename_i hsame
        cases h
        exact .inl ⟨hsame, rfl⟩
      · split at h
        · rename_i hdirectory
          exact .inr (.inl ⟨hdirectory, renameDirectory_eq_ok h⟩)
        · rename_i hplain
          split at h
          · cases h
          · rename_i hfree
            cases h
            exact .inr (.inr ⟨⟨Bool.not_eq_true _ ▸ hplain, Bool.not_eq_true _ ▸ hfree⟩, rfl⟩)
  · cases h

theorem mkdirp_of_realpath (h : t.realpath path = .ok dir) :
    t.mkdirp path = (t, if t.isDirectory dir then .ok () else .error .EEXIST) := by
  cases path using List.reverseRecOn with
  | nil =>
    cases h
    rw [if_pos (isDirectory_iff.mpr t.root)]
    rfl
  | append_singleton path name =>
    rw [mkdirp, List.reverse_concat, mkdirs, List.reverse_cons, List.reverse_reverse, h]

theorem mkdirp_concat (h : t.realpath (path ++ [name]) = .error .ENOENT) :
    t.mkdirp (path ++ [name]) =
      match t.mkdirp path with
      | (t', .ok ()) =>
        match t'.create (path ++ [name]) .directory with
        | .ok t'' => (t'', .ok ())
        | .error .EEXIST => (t', .error .ENOENT)
        | .error errno => (t', .error errno)
      | (t', .error errno) => (t', .error errno) := by
  rw [mkdirp, List.reverse_concat, mkdirs, List.reverse_cons, List.reverse_reverse, h]
  rfl

theorem lstat_concat {parents : Path} (h : t.realpath parents = .ok dir) :
    t.lstat (parents ++ [name]) = t.lookup dir name := by
  simp only [lstat, List.getLast?_concat, List.dropLast_concat]
  rw [h, ok_bind]

theorem read_of_node {content : C} (h : t.node path = some (.file content)) :
    t.read path = .ok content := by
  cases path using List.reverseRecOn with
  | nil =>
    rw [t.root] at h
    cases h
  | append_singleton dir name =>
    have hdir : t.node dir = some .directory := t.parent (by rw [h]; simp)
    rw [read, lstat_concat (realpath_self hdir), lookup_eq_ok_iff.mpr ⟨hdir, h⟩]
    rfl

theorem node_of_read {content : C} (hnode : t.node path ≠ none) (h : t.read path = .ok content) :
    t.node path = some (.file content) := by
  obtain ⟨node, hstat, h⟩ := bind_eq_ok_iff.mp h
  cases path using List.reverseRecOn with
  | nil =>
    cases hstat
    cases h
  | append_singleton dir name =>
    rw [lstat_concat (realpath_self (t.parent hnode)), lookup_eq_ok_iff] at hstat
    cases node with
    | file found =>
      cases h
      exact hstat.2
    | directory => cases h
    | symlink => cases h

theorem create_of_missing {parents : Path} {node : Node C} (h : t.realpath parents = .ok dir)
    (hmissing : t.lookup dir name = .error .ENOENT) :
    t.create (parents ++ [name]) node = .ok (t.put dir name (some node)) := by
  simp only [create, List.getLast?_concat, List.dropLast_concat]
  rw [h, ok_bind]
  simp only [hmissing]

/-- The second tree has more directories than the first, and nothing else. -/
def Grows (t t' : FileTree C) : Prop :=
  ∀ path, t'.node path = t.node path ∨ t.node path = none ∧ t'.node path = some .directory

theorem Grows.refl : Grows t t := fun _ => .inl rfl

theorem Grows.keeps (h : Grows t t') {path : Path} {node : Node C}
    (hnode : t.node path = some node) : t'.node path = some node := by
  obtain hsame | ⟨hnone, -⟩ := h path
  · rw [hsame, hnode]
  · rw [hnode] at hnone
    cases hnone

/-- The directories that the second tree has more are on the way from one to another. -/
def Adds (t t' : FileTree C) (dir rest : Path) : Prop :=
  ∀ path, t'.node path = t.node path ∨
    (t.node path = none ∧ t'.node path = some .directory) ∧ dir <+: path ∧ path <+: dir ++ rest

theorem Adds.grows {rest : Path} (h : Adds t t' dir rest) : Grows t t' :=
  fun path => (h path).imp_right And.left

theorem Adds.sameOutside {rest : Path} (h : Adds t t' dir rest) (hbase : base <+: dir) :
    SameOutside base t t' := by
  intro path hpath
  obtain hsame | ⟨-, hdir, -⟩ := h path
  · exact hsame
  · exact absurd (hbase.trans hdir) hpath

theorem Adds.mono {rest : Path} (h : Adds t t' dir rest) : Adds t t' dir (rest ++ [name]) := by
  intro path
  obtain hsame | ⟨hnew, hdir, hrest⟩ := h path
  · exact .inl hsame
  · refine .inr ⟨hnew, hdir, hrest.trans ?_⟩
    rw [← List.append_assoc]
    exact List.prefix_append _ _

theorem Adds.free {rest : Path} (h : Adds t t' dir rest)
    (hbelow : t.node (dir ++ rest ++ [name]) = none) : t'.node (dir ++ rest ++ [name]) = none := by
  obtain hsame | ⟨-, -, hlong⟩ := h (dir ++ rest ++ [name])
  · rw [hsame, hbelow]
  · have := hlong.length_le
    simp only [List.length_append, List.length_singleton] at this
    omega

theorem Adds.concat {rest : Path} (h : Adds t t' dir rest)
    (hbelow : t.node (dir ++ rest ++ [name]) = none) (hadmits : t'.Admits (dir ++ rest) name) :
    Adds t (t'.put (dir ++ rest) name (some .directory)) dir (rest ++ [name]) := by
  intro path
  by_cases hpath : path = dir ++ rest ++ [name]
  · subst hpath
    exact .inr ⟨⟨hbelow, node_put_self hadmits⟩, ⟨rest ++ [name], by simp⟩, ⟨[], by simp⟩⟩
  · rw [node_put_of_ne hpath]
    exact h.mono path

/-- The directories that are made lie below what is there, on the way to the one that is named. -/
theorem mkdirp_spec {existing rest : Path} (hexisting : t.realpath existing = .ok dir)
    (hmissing : ∀ name more, rest = name :: more → t.lookup dir name = .error .ENOENT)
    (hproper : ∀ name ∈ rest, Proper name) :
    Adds t (t.mkdirp (existing ++ rest)).1 dir rest ∧
      ((t.mkdirp (existing ++ rest)).2 = .ok () →
        (t.mkdirp (existing ++ rest)).1.realpath (existing ++ rest) = .ok (dir ++ rest) ∧
        (t.mkdirp (existing ++ rest)).1.node (dir ++ rest) = some .directory) := by
  induction rest using List.reverseRecOn with
  | nil =>
    rw [List.append_nil, List.append_nil, mkdirp_of_realpath hexisting]
    refine ⟨fun path => .inl rfl, fun hok => ⟨hexisting, ?_⟩⟩
    dsimp only at hok
    split at hok
    · exact isDirectory_iff.mp ‹_›
    · cases hok
  | append_singleton rest last ih =>
    obtain ⟨first, more, hfirst⟩ : ∃ first more, rest ++ [last] = first :: more :=
      List.exists_cons_of_ne_nil (by simp)
    obtain ⟨hdir, hnone⟩ := lookup_eq_missing_iff.mp (hmissing first more hfirst)
    have hlast : Proper last := hproper last (by simp)
    obtain ⟨links, hwalk⟩ := walk_append hexisting hdir
    have henoent : t.realpath (existing ++ rest ++ [last]) = .error .ENOENT := by
      rw [realpath, List.append_assoc, hwalk, hfirst]
      exact walk_missing (hproper first (by simp [hfirst])) hnone
    have hbelow : t.node (dir ++ rest ++ [last]) = none := by
      rw [List.append_assoc, hfirst]
      exact node_below_missing hnone more
    have hrest : ∀ name more, rest = name :: more → t.lookup dir name = .error .ENOENT := by
      rintro name more rfl
      exact hmissing name (more ++ [last]) rfl
    obtain ⟨hadds, hok⟩ := ih hrest fun name hname => hproper name (by simp [hname])
    simp only [← List.append_assoc]
    rw [mkdirp_concat henoent]
    cases hmade : t.mkdirp (existing ++ rest) with
    | mk made result =>
      rw [hmade] at hadds hok
      cases result with
      | error errno => exact ⟨hadds.mono, fun h => by cases h⟩
      | ok =>
        obtain ⟨hreal, hdirectory⟩ := hok rfl
        have hfree := hadds.free hbelow
        have hadmits : made.Admits (dir ++ rest) last := admits_of_free hdirectory hlast hfree
        dsimp only at hreal hdirectory ⊢
        rw [create_of_missing hreal (lookup_eq_missing_iff.mpr ⟨hdirectory, hfree⟩)]
        exact ⟨hadds.concat hbelow hadmits,
          fun _ => ⟨realpath_put hreal hdirectory hlast hfree, node_put_self hadmits⟩⟩

end Changes

end FileTree

end Posix
