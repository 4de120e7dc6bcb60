import LayerCache.Snapshot.FilePath

/-! # Reading a persisted snapshot

While nobody else changes the tree, a path that a snapshot has been written to leads to its text,
and no other file has been touched.
-/

namespace LayerCache.SnapshotFile

open Posix

section Reading
variable {t t' : FileTree String} {baseDir : AbsolutePath} {realBase path : Path}
  {cwd : AbsolutePath} {filePath text : String} {maxBytes : Option ℕ}

theorem checks_of_validate {made : FileTree String} {target : Path}
    (hbase : t.realpath baseDir.names = .ok realBase) (hdir : t.node realBase = some .directory)
    (h : validateSnapshotFilePath t cwd (some baseDir) filePath .write = (made, .ok target)) :
    checkFilePath filePath = .ok () ∧
      assertWithin realBase (mapUnderRealBase (resolve cwd filePath).names baseDir.names realBase) =
        .ok () := by
  cases hcheck : checkFilePath filePath with
  | error failure =>
    rw [validateSnapshotFilePath, hcheck] at h
    cases congrArg Prod.snd h
  | ok =>
    refine ⟨rfl, ?_⟩
    cases hwithin : assertWithin realBase
        (mapUnderRealBase (resolve cwd filePath).names baseDir.names realBase) with
    | ok => rfl
    | error failure =>
      have hadmitted : admitted t baseDir.names (resolve cwd filePath).names = .error failure := by
        rw [admitted, hbase]
        change (assertWithin realBase _ >>= fun _ => _) = _
        rw [hwithin]
        rfl
      simp only [validateSnapshotFilePath, andThen, hcheck, mkdir_base hbase hdir, hadmitted] at h
      cases congrArg Prod.snd h

theorem readable_eq (hbase : t.realpath baseDir.names = .ok realBase)
    {resolved : Path}
    (hwithin : assertWithin realBase (mapUnderRealBase resolved baseDir.names realBase) = .ok ())
    (hpath : t.realpath resolved = .ok path) (hbelow : realBase <+: path) :
    readable t baseDir.names resolved = .ok path := by
  have hinside : assertWithin realBase path = .ok () := by
    rw [assertWithin, if_pos]
    have hproper := FileTree.proper_of_node (FileTree.realpath_exists hpath)
    exact (isWithinSnapshotBase_iff hproper).mpr hbelow
  rw [readable, hbase]
  change (assertWithin realBase _ >>= fun _ => call (t.realpath resolved) >>= fun realTarget =>
    assertWithin realBase realTarget >>= fun _ => .ok realTarget) = _
  rw [hwithin, hpath]
  change (assertWithin realBase path >>= fun _ => .ok path) = _
  rw [hinside]
  rfl

theorem limited_eq_ok {read : String} (h : limited maxBytes read = .ok text) :
    read = text ∧ ∀ limit ∈ maxBytes, text.utf8ByteSize ≤ limit := by
  unfold limited at h
  split at h
  · cases h
  · rename_i hlimit
    cases h
    exact ⟨rfl, fun limit hl => not_lt.mp fun hlt => hlimit ⟨limit, hl, hlt⟩⟩

theorem limited_within (hlimit : ∀ limit ∈ maxBytes, text.utf8ByteSize ≤ limit) :
    limited maxBytes text = .ok text :=
  if_neg fun ⟨limit, hl, hlt⟩ => not_lt.mpr (hlimit limit hl) hlt

theorem readSnapshot_eq (hbase : t.realpath baseDir.names = .ok realBase)
    (hdir : t.node realBase = some .directory) (hcheck : checkFilePath filePath = .ok ()) :
    readSnapshot t cwd (some baseDir) filePath maxBytes =
      andThen (t, readable t baseDir.names (resolve cwd filePath).names) fun t path =>
        (t, call (t.read path) >>= limited maxBytes) := by
  simp only [readSnapshot, validateSnapshotFilePath, andThen, hcheck, mkdir_base hbase hdir]

theorem readable_spec {resolved : Path} (hbase : t.realpath baseDir.names = .ok realBase)
    (h : readable t baseDir.names resolved = .ok path) :
    t.realpath resolved = .ok path ∧ realBase <+: path := by
  obtain ⟨realBaseDir, hreal, h⟩ := FileTree.bind_eq_ok_iff.mp h
  obtain rfl : realBase = realBaseDir := Except.ok.inj (hbase.symm.trans (call_eq_ok hreal))
  obtain ⟨-, -, h⟩ := FileTree.bind_eq_ok_iff.mp h
  obtain ⟨realTarget, htarget, h⟩ := FileTree.bind_eq_ok_iff.mp h
  obtain ⟨⟨⟩, hwithin, h⟩ := FileTree.bind_eq_ok_iff.mp h
  cases h
  have htarget := call_eq_ok htarget
  have hproper := FileTree.proper_of_node (FileTree.realpath_exists htarget)
  exact ⟨htarget, assertWithin_eq_ok hproper hwithin⟩

theorem read_within (hbase : t.realpath baseDir.names = .ok realBase)
    (hdir : t.node realBase = some .directory)
    (h : readSnapshot t cwd (some baseDir) filePath maxBytes = (t', .ok text)) :
    t' = t ∧ (∀ limit ∈ maxBytes, text.utf8ByteSize ≤ limit) ∧
      ∃ path, realBase <+: path ∧ t.node path = some (.file text) := by
  cases hcheck : checkFilePath filePath with
  | error failure =>
    rw [readSnapshot, validateSnapshotFilePath, hcheck] at h
    cases congrArg Prod.snd h
  | ok =>
    rw [readSnapshot_eq hbase hdir hcheck] at h
    cases hreadable : readable t baseDir.names (resolve cwd filePath).names with
    | error failure =>
      rw [hreadable] at h
      cases congrArg Prod.snd h
    | ok path =>
      rw [hreadable] at h
      obtain ⟨rfl, hread⟩ := Prod.mk.inj h
      obtain ⟨hpath, hwithin⟩ := readable_spec hbase hreadable
      obtain ⟨read, hcall, hlimited⟩ := FileTree.bind_eq_ok_iff.mp hread
      obtain ⟨rfl, hlimit⟩ := limited_eq_ok hlimited
      exact ⟨rfl, hlimit, path, hwithin,
        FileTree.node_of_read (FileTree.realpath_exists hpath) (call_eq_ok hcall)⟩

end Reading

section RoundTrip
variable {made opened t' : FileTree String} {resolved dir target realBase : Path}
  {name random text : String}

/-- The name of a temporary file is longer. -/
theorem tempName_ne (name random : String) : name ++ ".tmp-" ++ random ≠ name := by
  intro h
  have hlength := congrArg String.length h
  simp only [String.length_append] at hlength
  have : ".tmp-".length = 5 := rfl
  omega

/-- A rename to the target puts the text there, and changes nothing else. -/
structure Renamed (made t' : FileTree String) (dir : Path) (name text : String) : Prop where
  file : t'.node (dir ++ [name]) = some (.file text)
  others : ∀ path, path ≠ dir ++ [name] → t'.node path = made.node path

theorem renamed_of_rename (hlocated : Located made realBase resolved dir target)
    (hproper : ∀ name ∈ resolved, Proper name)
    (hcreate : made.create (atomicWriteTempPath target random) (.file text) = .ok opened)
    (hrename : opened.rename (atomicWriteTempPath target random) target = .ok t') :
    ∃ name, resolved.getLast? = some name ∧ made.isDirectory (dir ++ [name]) = false ∧
      Renamed made t' dir name text := by
  have hdir := hlocated.directory
  have hopened := FileTree.directory_create hcreate hdir
  obtain ⟨source, tempName, hlast, hsource, hmissing, rfl⟩ := FileTree.create_eq_ok hcreate
  rw [dropLast_atomicWriteTempPath, hlocated.dropLast, FileTree.realpath_self hdir] at hsource
  cases hsource
  obtain ⟨dir', tempName', dir'', name, node, hlast', hname, hsource, htarget, hnode, heq⟩ :=
    FileTree.rename_eq_ok hrename
  rw [hlast] at hlast'
  cases hlast'
  rw [dropLast_atomicWriteTempPath, hlocated.dropLast, FileTree.realpath_self hopened] at hsource
  rw [hlocated.dropLast, FileTree.realpath_self hopened] at htarget
  cases hsource
  cases htarget
  have hresolved := hlocated.getLast?.symm.trans hname
  obtain rfl : name ++ ".tmp-" ++ random = tempName := by
    rw [atomicWriteTempPath, List.getLast?_concat, hname] at hlast
    exact Option.some_inj.mp hlast
  have hadmits : made.Admits dir (name ++ ".tmp-" ++ random) := by
    by_contra hnot
    rw [FileTree.put, dif_neg hnot, hmissing] at hnode
    cases hnode
  have hnode := (FileTree.lookup_eq_ok_iff.mp hnode).2
  rw [FileTree.node_put_self hadmits] at hnode
  obtain rfl := Option.some_inj.mp hnode
  have hne : dir ++ [name] ≠ dir ++ [name ++ ".tmp-" ++ random] := fun heq =>
    tempName_ne name random (List.singleton_inj.mp (List.append_cancel_left heq)).symm
  obtain ⟨hsame, -⟩ | ⟨hdirectory, -⟩ | ⟨⟨-, hplain⟩, rfl⟩ := heq
  · exact absurd hsame.symm hne
  · cases hdirectory
  have hmissing := (FileTree.lookup_eq_missing_iff.mp hmissing).2
  refine ⟨name, hresolved, ?_, ?_, fun path hpath => ?_⟩
  · rwa [FileTree.isDirectory, FileTree.node_put_of_ne hne] at hplain
  · rw [FileTree.node_put_of_ne hne, FileTree.node_put_self]
    have hname := hproper name (List.mem_of_getLast? hresolved)
    exact ⟨FileTree.isDirectory_iff.mpr hopened, hname, hplain⟩
  · by_cases htemp : path = dir ++ [name ++ ".tmp-" ++ random]
    · rw [htemp, hmissing, FileTree.node_put_self]
      refine ⟨FileTree.isDirectory_iff.mpr (FileTree.directory_put hopened), hadmits.2.1, ?_⟩
      rw [FileTree.isDirectory, FileTree.node_put_of_ne hne.symm, FileTree.node_put_self hadmits]
      rfl
    · rw [FileTree.node_put_of_ne htemp, FileTree.node_put_of_ne hpath,
        FileTree.node_put_of_ne htemp]

theorem Renamed.keeps (h : Renamed made t' dir name text)
    (hlocated : Located made realBase resolved dir target) (hname : resolved.getLast? = some name)
    (hplain : made.isDirectory (dir ++ [name]) = false) (path : Path) (node : Node String)
    (hnode : made.node path = some node) (hfile : node.isFile = false) :
    t'.node path = some node := by
  rw [h.others, hnode]
  rintro rfl
  rw [FileTree.isDirectory, hnode] at hplain
  have hlink := hlocated.plain name node hname hnode
  cases node with
  | file => cases hfile
  | directory => cases hplain
  | symlink => cases hlink

end RoundTrip

section Persisted
variable {t t' : FileTree String} {baseDir : AbsolutePath} {realBase : Path} {cwd : AbsolutePath}
  {filePath random : String} {exported : Except Failure String} {result : Except Failure Unit}
  {maxBytes : Option ℕ}

/-- The file at the target is read where links and directories have stayed, up to the limit. -/
theorem reads_target {made : FileTree String} {dir target : Path} {name text : String}
    (hbase : made.realpath baseDir.names = .ok realBase)
    (hdir : made.node realBase = some .directory) (hcheck : checkFilePath filePath = .ok ())
    (hmapped : assertWithin realBase
      (mapUnderRealBase (resolve cwd filePath).names baseDir.names realBase) = .ok ())
    (hlocated : Located made realBase (resolve cwd filePath).names dir target)
    (hname : (resolve cwd filePath).names.getLast? = some name)
    (hkeeps : ∀ path node, made.node path = some node → node.isFile = false →
      t'.node path = some node)
    (hfile : t'.node (dir ++ [name]) = some (.file text)) :
    readSnapshot t' cwd (some baseDir) filePath maxBytes = (t', limited maxBytes text) := by
  have hbase' : t'.realpath baseDir.names = .ok realBase := FileTree.walk_keeps hkeeps hbase hdir
  have hresolved : (resolve cwd filePath).names.dropLast ++ [name] =
      (resolve cwd filePath).names := by
    obtain ⟨parents, hparents⟩ := List.getLast?_eq_some_iff.mp hname
    rw [hparents, List.dropLast_concat]
  have hpath : t'.realpath (resolve cwd filePath).names = .ok (dir ++ [name]) := by
    have hleads := FileTree.walk_keeps hkeeps hlocated.leads hlocated.directory
    obtain ⟨links, hwalk⟩ := FileTree.walk_append hleads (hkeeps _ _ hlocated.directory rfl)
    have hproper := (resolve cwd filePath).proper name (List.mem_of_getLast? hname)
    rw [← hresolved, FileTree.realpath, hwalk]
    exact FileTree.walk_file hproper hfile
  have hwithin := hlocated.within.trans (List.prefix_append dir [name])
  rw [readSnapshot_eq hbase' (hkeeps _ _ hdir rfl) hcheck,
    readable_eq hbase' hmapped hpath hwithin, andThen, FileTree.read_of_node hfile]
  rfl

/-- While nobody else changes the tree, a snapshot that is persisted is what is read from the path
from then on, in a file within the base directory, under any limit that it keeps. Nothing else is
written but directories; where it fails there is no file more, and only what had the name of the
temporary file may be gone. -/
theorem persisted_is_read (hbase : t.realpath baseDir.names = .ok realBase)
    (hdir : t.node realBase = some .directory)
    (h : persistToFile t cwd (some baseDir) filePath exported random id = (t', result)) :
    FileTree.SameOutside realBase t t' ∧
      (result = .ok () → ∃ text path, exported = .ok text ∧ realBase <+: path ∧
        (∀ maxBytes : Option ℕ, (∀ limit ∈ maxBytes, text.utf8ByteSize ≤ limit) →
          readSnapshot t' cwd (some baseDir) filePath maxBytes = (t', .ok text)) ∧
        t'.node path = some (.file text) ∧
        ∀ other, other ≠ path → t'.node other = t.node other ∨
          t.node other = none ∧ t'.node other = some .directory) ∧
      (result ≠ .ok () →
        Spared (atomicWriteTempPath (resolve cwd filePath).names random) t t') := by
  obtain ⟨written, failure, hpersist, hwritten, hspared⟩ |
    ⟨made, target, dir, opened, text, hvalidate, hlocated, hgrows, hopened, rfl, hcreate,
      hpersist⟩ := persistToFile_cases cwd filePath exported random id hbase hdir
  · rw [hpersist] at h
    cases h
    exact ⟨hwritten, (fun h => by cases h), fun _ => hspared⟩
  · rw [hpersist, id] at h
    have hdirectory := FileTree.directory_create hcreate hlocated.directory
    obtain ⟨committed, realBase', hcommit, hrename, -, -⟩ | ⟨failure, hcommit⟩ :=
      commitAtomicWrite_cases (t := opened) baseDir (atomicWriteTempPath target random) target
    · rw [hcommit] at h
      cases h
      have hparent := dropLast_atomicWriteTempPath target random
      refine ⟨hopened.trans (sameOutside_rename hrename hparent fun dir' hdir' => ?_),
        fun _ => ?_, fun hne => absurd rfl hne⟩
      · rw [← hparent] at hdir'
        exact hlocated.within_temp random hdirectory hdir'
      obtain ⟨name, hname, hplain, hrenamed⟩ :=
        renamed_of_rename hlocated (resolve cwd filePath).proper hcreate hrename
      have hkeeps := hrenamed.keeps hlocated hname hplain
      have hmade : made.realpath baseDir.names = .ok realBase :=
        FileTree.walk_keeps (fun _ _ hnode _ => hgrows.keeps hnode) hbase hdir
      obtain ⟨hcheck, hmapped⟩ := checks_of_validate hbase hdir hvalidate
      refine ⟨text, dir ++ [name], rfl, hlocated.within.trans (List.prefix_append dir [name]),
        fun maxBytes hlimit => ?_, hrenamed.file, fun other hother => ?_⟩
      · rw [reads_target hmade (hgrows.keeps hdir) hcheck hmapped hlocated hname hkeeps
          hrenamed.file, limited_within hlimit]
      · rw [hrenamed.others other hother]
        exact hgrows other
    · rw [hcommit] at h
      cases h
      have hremoved : ∀ {t : FileTree String}, t.node dir = some .directory →
          FileTree.SameOutside realBase t (unlinked t (atomicWriteTempPath target random)) :=
        fun hdirectory => sameOutside_unlinked fun _ => hlocated.within_temp random hdirectory
      have hspared := ((spared_of_grows hgrows).unlinked_create hcreate).unlinked
        (hlocated.getLast?_temp random)
      exact ⟨(hopened.trans (hremoved hdirectory)).trans
        (hremoved (directory_unlinked hdirectory)), (fun h => by cases h), fun _ => hspared⟩

theorem persisted_is_read_snapshotsTree :
    let r := persistToFile snapshotsTree snapshotsDir (some snapshotsDir) "daily/a.json"
      (.ok "[]") "1" id
    r.2 = .ok () ∧ FileTree.SameOutside ["snapshots"] snapshotsTree r.1 ∧
      (r.2 = .ok () → ∃ text path, (.ok "[]" : Except Failure String) = .ok text ∧
        ["snapshots"] <+: path ∧
        (∀ maxBytes : Option ℕ, (∀ limit ∈ maxBytes, text.utf8ByteSize ≤ limit) →
          readSnapshot r.1 snapshotsDir (some snapshotsDir) "daily/a.json" maxBytes =
            (r.1, .ok text)) ∧
        r.1.node path = some (.file text) ∧
        ∀ other, other ≠ path → r.1.node other = snapshotsTree.node other ∨
          snapshotsTree.node other = none ∧ r.1.node other = some .directory) ∧
      (r.2 ≠ .ok () → Spared (atomicWriteTempPath
        (resolve snapshotsDir "daily/a.json").names "1") snapshotsTree r.1) :=
  ⟨by decide, persisted_is_read (by decide) (by decide) (Prod.eta _).symm⟩

end Persisted

end LayerCache.SnapshotFile
