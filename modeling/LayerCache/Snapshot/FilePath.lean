import LayerCache.FileSystem.Tree
import LayerCache.Layers.BoundedReads

/-! # Where snapshots are written

A snapshot is written under a base directory. Its path is resolved and checked against the links
of the tree, the text is written to a temporary file beside the target, and a rename puts it in
place once the directory has been checked again.
-/

namespace LayerCache.SnapshotFile

open Posix

inductive Failure
  | errno (errno : Errno)
  | message (text : String)
  deriving DecidableEq

def Failure.outside (realBaseDir : Path) : Failure :=
  .message ("filePath is outside the allowed snapshot directory: " ++ pathText realBaseDir)

def isWithinSnapshotBase (realBaseDir candidatePath : Path) : Bool :=
  let relative := relative realBaseDir candidatePath
  !(decide (relative = "..") || "../".toList.isPrefixOf relative.toList || isAbsolute relative)

def assertWithin (realBaseDir candidatePath : Path) : Except Failure Unit :=
  if isWithinSnapshotBase realBaseDir candidatePath then .ok () else .error (.outside realBaseDir)

def mapUnderRealBase (resolvedPath logicalBaseDir realBaseDir : Path) : Path :=
  if isWithinSnapshotBase logicalBaseDir resolvedPath then
    realBaseDir ++ resolvedPath.drop logicalBaseDir.length
  else resolvedPath

section Operations
variable (t : FileTree String)

def call {α : Type} (result : Except Errno α) : Except Failure α := result.mapError .errno

/-- The longest part of a path, given from its end, that is there. -/
def findExistingAncestor : List String → Except Failure Path
  | [] => .ok []
  | name :: parents =>
    match t.lstat (name :: parents).reverse with
    | .ok _ => .ok (name :: parents).reverse
    | .error .ENOENT => findExistingAncestor parents
    | .error errno => .error (.errno errno)

/-- The base directory, once the path is known to lie in it as far as it is there. -/
def admitted (baseDir resolved : Path) : Except Failure Path := do
  let realBaseDir ← call (t.realpath baseDir)
  assertWithin realBaseDir (mapUnderRealBase resolved baseDir realBaseDir)
  let existingAncestor ← findExistingAncestor t resolved.dropLast.reverse
  let realExistingAncestor ← call (t.realpath existingAncestor)
  assertWithin realBaseDir realExistingAncestor
  .ok realBaseDir

def located (realBaseDir resolved : Path) : Except Failure Path := do
  let realParentDir ← call (t.realpath resolved.dropLast)
  assertWithin realBaseDir realParentDir
  let targetPath := realParentDir ++ resolved.getLast?.toList
  match t.lstat targetPath with
  | .ok existing =>
    if existing.isSymbolicLink then
      .error (.message "filePath must not point to a symbolic link.")
    else .ok targetPath
  | .error .ENOENT => .ok targetPath
  | .error errno => .error (.errno errno)

def readable (baseDir resolved : Path) : Except Failure Path := do
  let realBaseDir ← call (t.realpath baseDir)
  assertWithin realBaseDir (mapUnderRealBase resolved baseDir realBaseDir)
  let realTarget ← call (t.realpath resolved)
  assertWithin realBaseDir realTarget
  .ok realTarget

inductive Mode | read | write
  deriving DecidableEq

def checkFilePath (filePath : String) : Except Failure Unit :=
  if filePath = "" then .error (.message "filePath must not be empty.")
  else if '\x00' ∈ filePath.toList then
    .error (.message "filePath must not contain null bytes.")
  else .ok ()

/-- The step from one tree to the next, unless it fails. -/
def andThen {α β : Type} (step : FileTree String × Except Failure α)
    (next : FileTree String → α → FileTree String × Except Failure β) :
    FileTree String × Except Failure β :=
  match step with
  | (t, .ok a) => next t a
  | (t, .error failure) => (t, .error failure)

def mkdir (path : Path) : FileTree String × Except Failure Unit :=
  ((t.mkdirp path).1, call (t.mkdirp path).2)

/-- No base directory stands for `false`. -/
def validateSnapshotFilePath (cwd : AbsolutePath) (baseDir : Option AbsolutePath)
    (filePath : String) (mode : Mode) : FileTree String × Except Failure Path :=
  andThen (t, checkFilePath filePath) fun t _ =>
    let resolved := (resolve cwd filePath).names
    match baseDir with
    | none => (t, .ok resolved)
    | some baseDir =>
      andThen (mkdir t baseDir.names) fun t _ =>
        match mode with
        | .read => (t, readable t baseDir.names resolved)
        | .write =>
          andThen (t, admitted t baseDir.names resolved) fun t realBaseDir =>
            andThen (mkdir t resolved.dropLast) fun t _ => (t, located t realBaseDir resolved)

def atomicWriteTempPath (targetPath : Path) (random : String) : Path :=
  targetPath.dropLast ++ [targetPath.getLast?.getD "" ++ ".tmp-" ++ random]

def assertCommitParentInsideSnapshotBase (baseDir : Option AbsolutePath) (targetPath : Path) :
    Except Failure Unit :=
  match baseDir with
  | none => .ok ()
  | some baseDir => do
    let realBaseDir ← call (t.realpath baseDir.names)
    let realParentDir ← call (t.realpath targetPath.dropLast)
    if isWithinSnapshotBase realBaseDir realParentDir then .ok ()
    else .error (.message ("Snapshot target parent is outside the allowed snapshot directory: " ++
      pathText realBaseDir))

def unlinked (path : Path) : FileTree String := (t.unlink path).toOption.getD t

def commitChecks (baseDir : Option AbsolutePath) (targetPath : Path) : Except Failure Unit := do
  let parent ← call (t.lstat targetPath.dropLast)
  if parent.isSymbolicLink then
    .error (.message "Snapshot target parent must not be a symbolic link.")
  else assertCommitParentInsideSnapshotBase t baseDir targetPath

def commitAtomicWrite (baseDir : Option AbsolutePath) (tempPath targetPath : Path) :
    FileTree String × Except Failure Unit :=
  match commitChecks t baseDir targetPath >>= fun _ => call (t.rename tempPath targetPath) with
  | .ok t' => (t', .ok ())
  | .error failure => (unlinked t tempPath, .error failure)

/-- The text of the snapshot, or the error of its export, goes to the file; `between` is what
others do to the tree before the commit. -/
def persistToFile (cwd : AbsolutePath) (baseDir : Option AbsolutePath) (filePath : String)
    (exported : Except Failure String) (random : String)
    (between : FileTree String → FileTree String) :
    FileTree String × Except Failure Unit :=
  andThen (validateSnapshotFilePath t cwd baseDir filePath .write) fun t targetPath =>
    let tempPath := atomicWriteTempPath targetPath random
    match t.create tempPath (.file (exported.toOption.getD "")) with
    | .error errno => (unlinked t tempPath, .error (.errno errno))
    | .ok t =>
      match exported with
      | .error failure => (unlinked t tempPath, .error failure)
      | .ok _ =>
        let t := between t
        match commitAtomicWrite t baseDir tempPath targetPath with
        | (t, .ok ()) => (t, .ok ())
        | (t, .error failure) => (unlinked t tempPath, .error failure)

/-- What was read, unless the file is larger than the limit. -/
def limited (maxBytes : Option ℕ) (text : String) : Except Failure String :=
  if ∃ limit ∈ maxBytes, text.utf8ByteSize > limit then
    .error (.message (snapshotExceeds (maxBytes.getD 0) text.utf8ByteSize))
  else .ok text

def readSnapshot (cwd : AbsolutePath) (baseDir : Option AbsolutePath) (filePath : String)
    (maxBytes : Option ℕ) : FileTree String × Except Failure String :=
  andThen (validateSnapshotFilePath t cwd baseDir filePath .read) fun t path =>
    (t, call (t.read path) >>= limited maxBytes)

end Operations

section Within
variable {t : FileTree String} {base path dir : Path}

/-- A path that goes up begins with two dots, and no other. -/
theorem isWithinSnapshotBase_iff (hproper : ∀ name ∈ path, Proper name) :
    isWithinSnapshotBase base path = true ↔ base <+: path := by
  constructor
  · contrapose
    intro h
    obtain ⟨rest, hrelative⟩ := relative_of_not_prefix h
    rw [isWithinSnapshotBase, hrelative]
    cases rest with
    | nil => decide
    | cons next rest => simp [joinNames]
  · intro h
    rw [isWithinSnapshotBase, relative_of_prefix h]
    cases hrest : path.drop base.length with
    | nil => decide
    | cons name rest =>
      have hname := hproper name (List.mem_of_mem_drop (hrest ▸ List.mem_cons_self))
      obtain ⟨hdots, hup, habsolute⟩ := joinNames_proper hname rest
      rw [← List.isPrefixOf_iff_prefix, Bool.not_eq_true] at hup
      simp only [hdots, hup, habsolute]
      rfl

theorem assertWithin_eq_ok (hproper : ∀ name ∈ path, Proper name)
    (h : assertWithin base path = .ok ()) : base <+: path := by
  unfold assertWithin at h
  split at h
  · rename_i hwithin
    exact (isWithinSnapshotBase_iff hproper).mp hwithin
  · cases h

theorem call_eq_ok {α : Type} {result : Except Errno α} {a : α} (h : call result = .ok a) :
    result = .ok a := by
  cases result with
  | error errno => cases h
  | ok b =>
    cases h
    rfl

/-- Below the ancestor that is found nothing of the path is there. -/
theorem findExistingAncestor_spec {existing : Path} {parents : List String}
    (h : findExistingAncestor t parents = .ok existing) :
    ∃ rest, parents.reverse = existing ++ rest ∧
      ∀ name more, rest = name :: more → t.lstat (existing ++ [name]) = .error .ENOENT := by
  induction parents with
  | nil =>
    cases h
    exact ⟨[], rfl, fun name more hrest => by cases hrest⟩
  | cons name parents ih =>
    rw [findExistingAncestor] at h
    split at h
    · cases h
      exact ⟨[], (List.append_nil _).symm, fun name more hrest => by cases hrest⟩
    · rename_i hmissing
      obtain ⟨rest, hparents, hrest⟩ := ih h
      refine ⟨rest ++ [name], by rw [List.reverse_cons, hparents, List.append_assoc], ?_⟩
      intro first more hfirst
      cases rest with
      | nil =>
        rw [List.reverse_cons, hparents, List.append_nil] at hmissing
        rw [← (List.cons.inj hfirst).1]
        exact hmissing
      | cons next rest =>
        rw [← (List.cons.inj hfirst).1]
        exact hrest next rest rfl
    · cases h

variable {resolved target realBase : Path}

/-- The path is admitted only if what is there of it lies in the base directory. -/
theorem admitted_spec (hproper : ∀ name ∈ resolved, Proper name)
    (hbase : t.realpath base = .ok realBase) (h : admitted t base resolved = .ok path) :
    path = realBase ∧ ∃ existing rest dir, resolved.dropLast = existing ++ rest ∧
      t.realpath existing = .ok dir ∧ realBase <+: dir ∧
      (∀ name more, rest = name :: more → t.lookup dir name = .error .ENOENT) ∧
      ∀ name ∈ rest, Proper name := by
  obtain ⟨realBaseDir, hreal, h⟩ := FileTree.bind_eq_ok_iff.mp h
  obtain rfl : realBase = realBaseDir := Except.ok.inj (hbase.symm.trans (call_eq_ok hreal))
  obtain ⟨-, -, h⟩ := FileTree.bind_eq_ok_iff.mp h
  obtain ⟨existing, hexisting, h⟩ := FileTree.bind_eq_ok_iff.mp h
  obtain ⟨dir, hdir, h⟩ := FileTree.bind_eq_ok_iff.mp h
  obtain ⟨⟨⟩, hwithin, h⟩ := FileTree.bind_eq_ok_iff.mp h
  cases h
  have hdir := call_eq_ok hdir
  obtain ⟨rest, hrest, hmissing⟩ := findExistingAncestor_spec hexisting
  rw [List.reverse_reverse] at hrest
  refine ⟨rfl, existing, rest, dir, hrest, hdir,
    assertWithin_eq_ok (FileTree.proper_of_node (FileTree.realpath_exists hdir)) hwithin, ?_, ?_⟩
  · intro name more hfirst
    rw [← FileTree.lstat_concat hdir]
    exact hmissing name more hfirst
  · intro name hname
    exact hproper name ((List.dropLast_sublist _).subset (hrest ▸ List.mem_append_right _ hname))

/-- The target is no link, in a directory within the base that its path leads to. -/
structure Located (t : FileTree String) (realBase resolved dir target : Path) : Prop where
  within : realBase <+: dir
  directory : t.node dir = some .directory
  leads : t.realpath resolved.dropLast = .ok dir
  target : target = dir ++ resolved.getLast?.toList
  plain : ∀ name node, resolved.getLast? = some name → t.node (dir ++ [name]) = some node →
    node.isSymbolicLink = false

theorem located_spec (hleads : t.realpath resolved.dropLast = .ok dir)
    (hdir : t.node dir = some .directory) (h : located t realBase resolved = .ok target) :
    Located t realBase resolved dir target := by
  obtain ⟨realParentDir, hreal, h⟩ := FileTree.bind_eq_ok_iff.mp h
  obtain rfl : dir = realParentDir := Except.ok.inj (hleads.symm.trans (call_eq_ok hreal))
  obtain ⟨⟨⟩, hwithin, h⟩ := FileTree.bind_eq_ok_iff.mp h
  have hproper := FileTree.proper_of_node (FileTree.realpath_exists hleads)
  have hwithin := assertWithin_eq_ok hproper hwithin
  dsimp only at h
  have hplain : ∀ {node}, t.lstat (dir ++ resolved.getLast?.toList) = .ok node →
      node.isSymbolicLink = false := by
    intro node hnode
    rw [hnode] at h
    dsimp only at h
    split at h
    · cases h
    · rename_i hlink
      exact Bool.not_eq_true _ ▸ hlink
  refine ⟨hwithin, hdir, hleads, ?_, fun name node hname hnode => hplain ?_⟩
  · split at h
    · split at h
      · cases h
      · cases h
        rfl
    · cases h
      rfl
    · cases h
  · rw [hname, Option.toList_some, FileTree.lstat_concat (FileTree.realpath_self hdir),
      FileTree.lookup_eq_ok_iff]
    exact ⟨hdir, hnode⟩

end Within

section Validation
variable {t : FileTree String} {baseDir : AbsolutePath} {realBase : Path}

theorem mkdir_base (hbase : t.realpath baseDir.names = .ok realBase)
    (hdir : t.node realBase = some .directory) : mkdir t baseDir.names = (t, .ok ()) := by
  rw [mkdir, FileTree.mkdirp_of_realpath hbase, if_pos (FileTree.isDirectory_iff.mpr hdir)]
  rfl

/-- What a validation adds are directories within the base, and what it gives back is in one. -/
theorem validate_write (cwd : AbsolutePath) (filePath : String)
    (hbase : t.realpath baseDir.names = .ok realBase)
    (hdir : t.node realBase = some .directory) :
    FileTree.Grows t (validateSnapshotFilePath t cwd (some baseDir) filePath .write).1 ∧
    FileTree.SameOutside realBase t
      (validateSnapshotFilePath t cwd (some baseDir) filePath .write).1 ∧
    ∀ target, (validateSnapshotFilePath t cwd (some baseDir) filePath .write).2 = .ok target →
      ∃ dir, Located (validateSnapshotFilePath t cwd (some baseDir) filePath .write).1 realBase
        (resolve cwd filePath).names dir target := by
  have hsame : ∀ (failure : Failure) {r : FileTree String × Except Failure Path},
      r = (t, .error failure) → FileTree.Grows t r.1 ∧ FileTree.SameOutside realBase t r.1 ∧
        ∀ target, r.2 = .ok target → ∃ dir, Located r.1 realBase (resolve cwd filePath).names
          dir target := by
    rintro failure r rfl
    exact ⟨FileTree.Grows.refl, FileTree.SameOutside.refl, fun target h => by cases h⟩
  cases hcheck : checkFilePath filePath with
  | error failure => exact hsame failure (by rw [validateSnapshotFilePath, hcheck]; rfl)
  | ok =>
    cases hadmitted : admitted t baseDir.names (resolve cwd filePath).names with
    | error failure =>
      refine hsame failure ?_
      simp only [validateSnapshotFilePath, andThen, hcheck, mkdir_base hbase hdir, hadmitted]
    | ok path =>
      obtain ⟨rfl, existing, rest, dir, hresolved, hexisting, hwithin, hmissing, hproper⟩ :=
        admitted_spec (resolve cwd filePath).proper hbase hadmitted
      obtain ⟨hadds, hok⟩ := FileTree.mkdirp_spec hexisting hmissing hproper
      rw [← hresolved] at hadds hok
      have hvalidate : validateSnapshotFilePath t cwd (some baseDir) filePath .write =
          andThen (mkdir t (resolve cwd filePath).names.dropLast) fun t _ =>
            (t, located t path (resolve cwd filePath).names) := by
        simp only [validateSnapshotFilePath, andThen, hcheck, mkdir_base hbase hdir, hadmitted]
      rw [hvalidate, mkdir]
      cases hresult : (t.mkdirp (resolve cwd filePath).names.dropLast).2 with
      | error errno =>
        exact ⟨hadds.grows, hadds.sameOutside hwithin, fun target h => by cases h⟩
      | ok =>
        obtain ⟨hleads, hdirectory⟩ := hok hresult
        exact ⟨hadds.grows, hadds.sameOutside hwithin,
          fun target h => ⟨_, located_spec hleads hdirectory h⟩⟩

end Validation

section Writing
variable {t t' : FileTree String} {base dir path : Path} {tempPath targetPath : Path}

theorem sameOutside_unlinked (h : ∀ dir, t.realpath path.dropLast = .ok dir → base <+: dir) :
    FileTree.SameOutside base t (unlinked t path) := by
  cases hunlink : t.unlink path with
  | error errno =>
    rw [unlinked, hunlink]
    exact FileTree.SameOutside.refl
  | ok t' =>
    obtain ⟨dir, name, -, hdir, rfl⟩ := FileTree.unlink_eq_ok hunlink
    rw [unlinked, hunlink]
    exact FileTree.sameOutside_put (h dir hdir)

theorem directory_unlinked (h : t.node dir = some .directory) :
    (unlinked t path).node dir = some .directory := by
  cases hunlink : t.unlink path with
  | error errno => rwa [unlinked, hunlink]
  | ok t' =>
    obtain ⟨parent, name, -, -, rfl⟩ := FileTree.unlink_eq_ok hunlink
    rw [unlinked, hunlink]
    exact FileTree.directory_put h

theorem node_of_unlinked {p : Path} {node : Node String}
    (h : (unlinked t path).node p = some node) : t.node p = some node := by
  cases hunlink : t.unlink path with
  | error errno => rwa [unlinked, hunlink] at h
  | ok t' =>
    obtain ⟨dir, name, -, -, rfl⟩ := FileTree.unlink_eq_ok hunlink
    rw [unlinked, hunlink] at h
    exact FileTree.node_of_put_none h

theorem node_unlinked_create {node : Node String} (h : t.create path node = .ok t')
    (hplain : node.isDirectory = false) (p : Path) : (unlinked t' path).node p = t.node p := by
  obtain ⟨dir, name, hname, hreal, hmissing, rfl⟩ := FileTree.create_eq_ok h
  obtain ⟨hdir, hnone⟩ := FileTree.lookup_eq_missing_iff.mp hmissing
  by_cases hadmits : t.Admits dir name
  · have hself : (t.put dir name (some node)).node (dir ++ [name]) = some node :=
      FileTree.node_put_self hadmits
    have hreal' : (t.put dir name (some node)).realpath path.dropLast = .ok dir :=
      FileTree.walk_keeps (fun _ _ hfound _ => FileTree.node_put_of_free hnone hfound) hreal hdir
    have hunlink : (t.put dir name (some node)).unlink path =
        .ok ((t.put dir name (some node)).put dir name none) := by
      rw [FileTree.unlink, hname]
      dsimp only
      rw [hreal', FileTree.ok_bind,
        FileTree.lookup_eq_ok_iff.mpr ⟨FileTree.directory_put hdir, hself⟩, FileTree.ok_bind,
        hplain]
      rfl
    rw [unlinked, hunlink]
    change ((t.put dir name (some node)).put dir name none).node p = _
    by_cases hp : p = dir ++ [name]
    · rw [hp, hnone, FileTree.node_put_self]
      refine ⟨FileTree.isDirectory_iff.mpr (FileTree.directory_put hdir), hadmits.2.1, ?_⟩
      rw [FileTree.isDirectory, hself]
      exact hplain
    · rw [FileTree.node_put_of_ne hp, FileTree.node_put_of_ne hp]
  · have hunlink : t.unlink path = .error .ENOENT := by
      rw [FileTree.unlink, hname]
      dsimp only
      rw [hreal, FileTree.ok_bind, hmissing]
      rfl
    rw [FileTree.put, dif_neg hadmits, unlinked, hunlink]
    rfl

/-- There are more directories, and what has the last name of the path may be gone. -/
def Spared (path : Path) (t t' : FileTree String) : Prop :=
  ∀ p, t'.node p = t.node p ∨ (t.node p = none ∧ t'.node p = some .directory) ∨
    p.getLast? = path.getLast? ∧ t'.node p = none

theorem spared_of_grows (h : FileTree.Grows t t') : Spared path t t' :=
  fun p => (h p).imp_right .inl

theorem Spared.unlinked (h : Spared path t t') {target : Path}
    (hlast : target.getLast? = path.getLast?) : Spared path t (unlinked t' target) := by
  cases hunlink : t'.unlink target with
  | error errno => rwa [SnapshotFile.unlinked, hunlink]
  | ok t'' =>
    obtain ⟨dir, name, hname, -, rfl⟩ := FileTree.unlink_eq_ok hunlink
    rw [SnapshotFile.unlinked, hunlink]
    change Spared path t (t'.put dir name none)
    intro p
    by_cases hp : p = dir ++ [name]
    · by_cases hadmits : t'.Admits dir name
      · refine .inr (.inr ⟨?_, by rw [hp, FileTree.node_put_self hadmits]⟩)
        rw [hp, List.getLast?_concat, ← hname, hlast]
      · rw [FileTree.put, dif_neg hadmits]
        exact h p
    · rw [FileTree.node_put_of_ne hp]
      exact h p

theorem Spared.unlinked_create {made opened : FileTree String} {temp : Path} {text : String}
    (h : Spared path t made) (hcreate : made.create temp (.file text) = .ok opened) :
    Spared path t (SnapshotFile.unlinked opened temp) := by
  intro p
  rw [node_unlinked_create hcreate rfl]
  exact h p

theorem sameOutside_create {node : Node String} (h : t.create path node = .ok t')
    (hdir : ∀ dir, t.realpath path.dropLast = .ok dir → base <+: dir) :
    FileTree.SameOutside base t t' := by
  obtain ⟨dir, name, -, hreal, -, rfl⟩ := FileTree.create_eq_ok h
  exact FileTree.sameOutside_put (hdir dir hreal)

theorem sameOutside_rename (h : t.rename tempPath targetPath = .ok t')
    (hparent : tempPath.dropLast = targetPath.dropLast)
    (hdir : ∀ dir, t.realpath targetPath.dropLast = .ok dir → base <+: dir) :
    FileTree.SameOutside base t t' := by
  obtain ⟨dir, name, dir', name', node, -, -, hsource, htarget, -, heq⟩ :=
    FileTree.rename_eq_ok h
  rw [hparent] at hsource
  obtain ⟨-, rfl⟩ | ⟨-, rfl⟩ | ⟨-, rfl⟩ := heq
  · exact FileTree.SameOutside.refl
  · exact FileTree.sameOutside_move ((hdir dir hsource).trans (List.prefix_append _ _))
      (hdir dir' htarget)
  · exact (FileTree.sameOutside_put (hdir dir' htarget)).trans
      (FileTree.sameOutside_put (hdir dir hsource))

variable {baseDir : AbsolutePath}

/-- A commit renames only within what is the base directory then, and one that fails unlinks. -/
theorem commitAtomicWrite_cases (baseDir : AbsolutePath) (tempPath targetPath : Path) :
    (∃ t' realBase, commitAtomicWrite t (some baseDir) tempPath targetPath = (t', .ok ()) ∧
      t.rename tempPath targetPath = .ok t' ∧ t.realpath baseDir.names = .ok realBase ∧
      ∀ dir, t.realpath targetPath.dropLast = .ok dir → realBase <+: dir) ∨
    ∃ failure, commitAtomicWrite t (some baseDir) tempPath targetPath =
      (unlinked t tempPath, .error failure) := by
  cases hresult : commitChecks t (some baseDir) targetPath >>= fun _ =>
      call (t.rename tempPath targetPath) with
  | error failure =>
    right
    exact ⟨failure, by rw [commitAtomicWrite, hresult]⟩
  | ok t' =>
    left
    obtain ⟨⟨⟩, hchecks, hrename⟩ := FileTree.bind_eq_ok_iff.mp hresult
    obtain ⟨parent, -, hchecks⟩ := FileTree.bind_eq_ok_iff.mp hchecks
    split at hchecks
    · cases hchecks
    · obtain ⟨realBase, hbase, hchecks⟩ := FileTree.bind_eq_ok_iff.mp hchecks
      obtain ⟨dir, hdir, hchecks⟩ := FileTree.bind_eq_ok_iff.mp hchecks
      have hdir := call_eq_ok hdir
      split at hchecks
      · rename_i hwithin
        refine ⟨t', realBase, by rw [commitAtomicWrite, hresult], call_eq_ok hrename,
          call_eq_ok hbase, fun dir' hdir' => ?_⟩
        cases hdir.symm.trans hdir'
        have hproper := FileTree.proper_of_node (FileTree.realpath_exists hdir)
        exact (isWithinSnapshotBase_iff hproper).mp hwithin
      · cases hchecks

theorem dropLast_atomicWriteTempPath (targetPath : Path) (random : String) :
    (atomicWriteTempPath targetPath random).dropLast = targetPath.dropLast := by
  rw [atomicWriteTempPath, List.dropLast_concat]

theorem Located.dropLast {realBase resolved target : Path}
    (h : Located t realBase resolved dir target) : target.dropLast = dir := by
  rw [h.target]
  cases hlast : resolved.getLast? with
  | none =>
    have hroot := h.leads
    rw [List.getLast?_eq_none_iff.mp hlast] at hroot
    cases hroot
    rfl
  | some name => rw [Option.toList_some, List.dropLast_concat]

theorem Located.getLast? {realBase resolved target : Path}
    (h : Located t realBase resolved dir target) : target.getLast? = resolved.getLast? := by
  rw [h.target]
  cases hresolved : resolved.getLast? with
  | none =>
    have hroot := h.leads
    rw [List.getLast?_eq_none_iff.mp hresolved] at hroot
    cases hroot
    rfl
  | some last => rw [Option.toList_some, List.getLast?_concat]

theorem Located.getLast?_temp {realBase resolved target : Path}
    (h : Located t realBase resolved dir target) (random : String) :
    (atomicWriteTempPath target random).getLast? =
      (atomicWriteTempPath resolved random).getLast? := by
  rw [atomicWriteTempPath, atomicWriteTempPath, List.getLast?_concat, List.getLast?_concat,
    h.getLast?]

theorem Located.within_temp {realBase resolved target : Path}
    (h : Located t realBase resolved dir target) (random : String) {t' : FileTree String}
    (hdir : t'.node dir = some .directory) {dir' : Path}
    (hdir' : t'.realpath (atomicWriteTempPath target random).dropLast = .ok dir') :
    realBase <+: dir' := by
  rw [dropLast_atomicWriteTempPath, h.dropLast, FileTree.realpath_self hdir] at hdir'
  cases hdir'
  exact h.within

end Writing

section Persist
variable {t t' : FileTree String} {baseDir : AbsolutePath} {realBase : Path} (cwd : AbsolutePath)
  (filePath : String) (exported : Except Failure String) (random : String)
  (between : FileTree String → FileTree String) {result : Except Failure Unit}

/-- Up to the commit a persisted snapshot is within the base directory. -/
theorem persistToFile_cases (hbase : t.realpath baseDir.names = .ok realBase)
    (hdir : t.node realBase = some .directory) :
    (∃ written failure, persistToFile t cwd (some baseDir) filePath exported random between =
        (written, .error failure) ∧ FileTree.SameOutside realBase t written ∧
        Spared (atomicWriteTempPath (resolve cwd filePath).names random) t written) ∨
    ∃ made target dir opened text,
      validateSnapshotFilePath t cwd (some baseDir) filePath .write = (made, .ok target) ∧
      Located made realBase (resolve cwd filePath).names dir target ∧
      FileTree.Grows t made ∧ FileTree.SameOutside realBase t opened ∧ exported = .ok text ∧
      made.create (atomicWriteTempPath target random) (.file text) = .ok opened ∧
      persistToFile t cwd (some baseDir) filePath exported random between =
        match commitAtomicWrite (between opened) (some baseDir)
          (atomicWriteTempPath target random) target with
        | (t, .ok ()) => (t, .ok ())
        | (t, .error failure) =>
          (unlinked t (atomicWriteTempPath target random), .error failure) := by
  obtain ⟨hgrows, hvalidated, hlocated⟩ := validate_write cwd filePath hbase hdir
  cases hvalidate : validateSnapshotFilePath t cwd (some baseDir) filePath .write with
  | mk made validated =>
    rw [hvalidate] at hgrows hvalidated hlocated
    rw [persistToFile, hvalidate]
    cases validated with
    | error failure => exact .inl ⟨made, failure, rfl, hvalidated, spared_of_grows hgrows⟩
    | ok target =>
      obtain ⟨dir, hlocated⟩ := hlocated target rfl
      have hlast := hlocated.getLast?_temp random
      have hwithin : ∀ {t : FileTree String}, t.node dir = some .directory →
          ∀ dir', t.realpath (atomicWriteTempPath target random).dropLast = .ok dir' →
            realBase <+: dir' :=
        fun hdirectory _ hdir' => hlocated.within_temp random hdirectory hdir'
      simp only [andThen]
      cases hcreate : made.create (atomicWriteTempPath target random)
          (.file (exported.toOption.getD "")) with
      | error errno =>
        exact .inl ⟨_, _, rfl,
          hvalidated.trans (sameOutside_unlinked (hwithin hlocated.directory)),
          (spared_of_grows hgrows).unlinked hlast⟩
      | ok opened =>
        have hopened : FileTree.SameOutside realBase t opened :=
          hvalidated.trans (sameOutside_create hcreate (hwithin hlocated.directory))
        cases exported with
        | error failure =>
          exact .inl ⟨_, _, rfl, hopened.trans (sameOutside_unlinked
            (hwithin (FileTree.directory_create hcreate hlocated.directory))),
            (spared_of_grows hgrows).unlinked_create hcreate⟩
        | ok text =>
          exact .inr ⟨made, target, dir, opened, text, rfl, hlocated, hgrows, hopened, rfl,
            hcreate, rfl⟩

variable {cwd filePath exported random between}

/-- Whatever others do to the tree before the commit, a snapshot is written within the base
directory: first within what it is at the beginning, and by the rename within what it is at the
commit. A commit that fails adds nothing. -/
theorem persist_confined (hbase : t.realpath baseDir.names = .ok realBase)
    (hdir : t.node realBase = some .directory)
    (h : persistToFile t cwd (some baseDir) filePath exported random between = (t', result)) :
    ∃ written, FileTree.SameOutside realBase t written ∧
      (t' = written ∧ result ≠ .ok () ∨
        (result = .ok () → ∃ realBase', (between written).realpath baseDir.names = .ok realBase' ∧
          FileTree.SameOutside realBase' (between written) t') ∧
        (result ≠ .ok () → ∀ path node, t'.node path = some node →
          (between written).node path = some node)) := by
  obtain ⟨written, failure, hpersist, hwritten, -⟩ |
    ⟨made, target, dir, opened, text, -, -, -, hopened, -, -, hpersist⟩ :=
      persistToFile_cases cwd filePath exported random between hbase hdir
  · rw [hpersist] at h
    cases h
    exact ⟨_, hwritten, .inl ⟨rfl, fun h => by cases h⟩⟩
  · refine ⟨opened, hopened, .inr ?_⟩
    rw [hpersist] at h
    obtain ⟨committed, realBase', hcommit, hrename, hbase', hwithin'⟩ | ⟨failure, hcommit⟩ :=
      commitAtomicWrite_cases (t := between opened) baseDir
        (atomicWriteTempPath target random) target
    · rw [hcommit] at h
      cases h
      exact ⟨fun _ => ⟨realBase', hbase', sameOutside_rename hrename
        (dropLast_atomicWriteTempPath target random) hwithin'⟩, fun hne => absurd rfl hne⟩
    · rw [hcommit] at h
      cases h
      refine ⟨fun h => ?_, fun _ path node hnode => node_of_unlinked (node_of_unlinked hnode)⟩
      cases h

def snapshotsDir : AbsolutePath := ⟨["snapshots"], by decide⟩

def snapshotsTree : FileTree String := (FileTree.bare String).put [] "snapshots" (some .directory)

def beside (t : FileTree String) : FileTree String := t.put ["snapshots"] "b.json" (some (.file ""))

theorem persist_confined_beside :
    let r := persistToFile snapshotsTree snapshotsDir (some snapshotsDir) "daily/a.json"
      (.ok "[]") "1" beside
    r.2 = .ok () ∧ ∃ written, FileTree.SameOutside ["snapshots"] snapshotsTree written ∧
      (r.1 = written ∧ r.2 ≠ .ok () ∨
        (r.2 = .ok () → ∃ realBase', (beside written).realpath snapshotsDir.names = .ok realBase' ∧
          FileTree.SameOutside realBase' (beside written) r.1) ∧
        (r.2 ≠ .ok () → ∀ path node, r.1.node path = some node →
          (beside written).node path = some node)) :=
  ⟨by decide, persist_confined (by decide) (by decide) (Prod.eta _).symm⟩

end Persist

end LayerCache.SnapshotFile
