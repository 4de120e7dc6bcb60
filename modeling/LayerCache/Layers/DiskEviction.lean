import LayerCache.Layers.DiskFiles

/-! # The files that an eviction keeps

The eviction that ends a `set` goes by the times of the files. While these go up from `set` to
`set`, a file stays until as many others as the limit allows have been renamed after it.
-/

namespace LayerCache.DiskFiles

open StableSort Transition

namespace State

section Definitions
variable {T : Type} [LinearOrder T] [Zero T] (hashName : String → String) (options : Options)
  (s : State T)

def renames : Action T → Finset String
  | .rename true =>
    match s.running with
    | some (.written name _) => {name}
    | _ => ∅
  | _ => ∅

/-- The files that the steps of a run rename others to. -/
def renamedAlong (s : State T) : List (Action T) → Finset String
  | [] => ∅
  | a :: as =>
    s.renames a ∪ match s.step hashName options a with
      | some s' => renamedAlong s' as
      | none => ∅

/-- A file that is written is newer than those that are there. -/
def Ascends : Action T → Prop
  | .writeFile _ mtime _ => 0 < mtime ∧ ∀ file ∈ s.files, s.mtime file < mtime
  | _ => True

instance Ascends.decidable : (a : Action T) → Decidable (s.Ascends a)
  | .writeFile _ mtime _ =>
    inferInstanceAs (Decidable (0 < mtime ∧ ∀ file ∈ s.files, s.mtime file < mtime))
  | .enqueueWrite _ | .start | .fail | .rename _ | .discard _ | .readdir _ | .stat _ _ | .sort
  | .unlink _ _ | .finish | .release | .safeDelete _ => instDecidableTrue

/-- Besides, the step leaves the file alone, unless it evicts, and can read its time. -/
def Spares (name : String) (s : State T) (a : Action T) : Prop :=
  s.Ascends a ∧ match a with
    | .stat file succeeds => file = name → succeeds = true
    | .unlink file _ => s.isEnforcing = false → file ≠ name
    | .safeDelete file => file ≠ name
    | _ => True

instance Spares.decidable (name : String) (s : State T) :
    (a : Action T) → Decidable (Spares name s a)
  | .writeFile unique mtime succeeds =>
    inferInstanceAs (Decidable (s.Ascends (.writeFile unique mtime succeeds) ∧ True))
  | .stat file succeeds =>
    inferInstanceAs (Decidable (True ∧ (file = name → succeeds = true)))
  | .unlink file _ => inferInstanceAs (Decidable (True ∧ (s.isEnforcing = false → file ≠ name)))
  | .safeDelete file => inferInstanceAs (Decidable (True ∧ file ≠ name))
  | .enqueueWrite _ | .start | .fail | .rename _ | .discard _ | .readdir _ | .sort | .finish
  | .release => inferInstanceAs (Decidable (True ∧ True))

/-- The temporary file of a `set` is newer than every other. -/
structure Newest (temp : String) : Prop where
  temporary : isEntry temp = false
  positive : 0 < s.mtime temp
  newer : ∀ file ∈ s.files, file ≠ temp → s.mtime file < s.mtime temp

end Definitions

section Written
variable {T : Type} {s s' : State T} {name temp : String}

theorem mtime_writeFile (mtime : T) :
    (s.writeFile temp mtime).mtime = Function.update s.mtime temp mtime := rfl

theorem mtime_rename :
    (s.rename temp name).mtime = Function.update s.mtime name (s.mtime temp) := rfl

variable [LinearOrder T] [Zero T] {hashName : String → String} {options : Options}
  {a : Action T} {phase : Phase T}

/-- A `set` names an entry, and has written the newest file. -/
def Named (s : State T) : Phase T → Prop
  | .opening name => isEntry name = true
  | .written name temp => isEntry name = true ∧ s.Newest temp
  | .discarding temp => isEntry temp = false
  | _ => True

theorem Newest.mono (h : s.Newest temp) (hmtime : s'.mtime = s.mtime)
    (hfiles : s'.files ⊆ s.files) : s'.Newest temp where
  temporary := h.temporary
  positive := by rw [hmtime]; exact h.positive
  newer file hfile hne := by
    rw [hmtime]
    exact h.newer file (hfiles hfile) hne

theorem Named.mono (h : Named s phase) (hmtime : s'.mtime = s.mtime)
    (hfiles : s'.files ⊆ s.files) : Named s' phase := by
  cases phase with
  | opening => exact h
  | written => exact ⟨h.1, h.2.mono hmtime hfiles⟩
  | discarding => exact h
  | _ => trivial

theorem newest_writeFile {unique : String} {mtime : T}
    (h : s.Ascends (.writeFile unique mtime true)) :
    (s.writeFile (tempName name unique) mtime).Newest (tempName name unique) where
  temporary := isEntry_tempName name unique
  positive := by
    rw [mtime_writeFile, Function.update_self]
    exact h.1
  newer file hfile hne := by
    rw [mtime_writeFile, Function.update_self, Function.update_of_ne hne]
    exact h.2 file (Finset.mem_of_mem_insert_of_ne hfile hne)

theorem Named.act (hnamed : Named s phase) (hascends : s.Ascends a)
    (h : s.act options phase a = some s') :
    ∃ phase', s'.running = some phase' ∧ Named s' phase' := by
  revert h
  fun_cases State.act options s phase a <;> intro h <;> try cases h; done
  case case2 name unique mtime succeeds temp =>
    cases h
    refine ⟨_, rfl, ?_⟩
    cases succeeds with
    | false => exact isEntry_tempName name unique
    | true => exact ⟨hnamed, (newest_writeFile hascends).mono rfl subset_rfl⟩
  case case3 name temp =>
    cases h
    refine ⟨_, rfl, ?_⟩
    unfold renamed
    split <;> trivial
  case case4 name temp =>
    cases h
    exact ⟨_, rfl, hnamed.2.temporary⟩
  case case7 entries hentries =>
    cases h
    refine ⟨_, rfl, ?_⟩
    unfold listed
    split
    · trivial
    · dsimp only
      split <;> trivial
  case case11 lcFiles mtimeMs =>
    obtain ⟨maxFiles, -, rfl⟩ := Option.map_eq_some_iff.mp h
    exact ⟨_, rfl, trivial⟩
  all_goals
    cases h
    exact ⟨_, rfl, trivial⟩

def NamedInv (s : State T) : Prop := ∀ phase ∈ s.running, Named s phase

theorem NamedInv.step (hinv : NamedInv s) (hascends : s.Ascends a)
    (h : s.step hashName options a = some s') : NamedInv s' := by
  intro phase' hphase'
  obtain ⟨hrunning, hmtime, hfiles, -⟩ | ⟨hfiles, hmtime, ⟨-, hnone⟩ | ⟨-, write, hbegun⟩⟩ |
    ⟨phase, hrunning, hact⟩ := step_cases h
  · rw [hrunning] at hphase'
    exact (hinv phase' hphase').mono hmtime hfiles
  · rw [hnone] at hphase'
    cases hphase'
  · obtain rfl : begun hashName write = phase' := Option.some_inj.mp (hbegun.symm.trans hphase')
    cases write with
    | set key => exact isEntry_append (hashName key)
    | _ => trivial
  · obtain ⟨next, hnext, hnamed⟩ := (hinv phase hrunning).act hascends hact
    obtain rfl : next = phase' := Option.some_inj.mp (hnext.symm.trans hphase')
    exact hnamed

end Written

section Survival
variable {T : Type} [LinearOrder T] {options : Options} {s s' : State T} {phase : Phase T}
  {name temp : String} {newer : Finset String} {n : ℕ}

/-- The times that have been read show no file to be newer that is not, and the file is not one of
those to evict. -/
def Kept (name : String) (newer : Finset String) (s : State T) : Phase T → Prop
  | .stating lcFiles todo mtimeMs =>
    lcFiles.Nodup ∧ (∀ file ∈ lcFiles, isEntry file = true) ∧ todo ⊆ lcFiles ∧
      (name ∈ lcFiles → name ∉ todo → mtimeMs name = s.mtime name) ∧
      ∀ file ∈ lcFiles, file ∉ todo → file ≠ name → s.mtime name ≤ mtimeMs file → file ∈ newer
  | .evicting names => name ∉ names
  | _ => True

theorem Kept.mono {newer' : Finset String} (h : Kept name newer s phase)
    (hmtime : s'.mtime = s.mtime) (hnewer : newer ⊆ newer') : Kept name newer' s' phase := by
  cases phase with
  | stating =>
    obtain ⟨hnodup, hentries, htodo, hname, hfiles⟩ := h
    refine ⟨hnodup, hentries, htodo, ?_, ?_⟩ <;> rw [hmtime]
    · exact hname
    · exact fun file hfile hread hne hle => hnewer (hfiles file hfile hread hne hle)
  | evicting => exact h
  | _ => trivial

/-- The file is among the newest that the limit allows. -/
theorem not_mem_toEvict {lcFiles : List String} {mtimeMs : String → T} (hnodup : lcFiles.Nodup)
    (hname : name ∈ lcFiles → mtimeMs name = s.mtime name)
    (hfiles : ∀ file ∈ lcFiles, file ≠ name → s.mtime name ≤ mtimeMs file → file ∈ newer)
    (hfew : (newer.erase name).card < n) : name ∉ toEvict n lcFiles mtimeMs := by
  intro hevict
  let later := (sortBy mtimeMs lcFiles).drop (lcFiles.length - n)
  have hmem : ∀ {file}, file ∈ sortBy mtimeMs lcFiles → file ∈ lcFiles :=
    (mem_sortBy mtimeMs).mp
  have hlength : later.toFinset.card = n := by
    rw [List.toFinset_card_of_nodup ((nodup_sortBy mtimeMs hnodup).sublist
      (List.drop_sublist _ _)), List.length_drop, length_sortBy]
    have : lcFiles.length - n ≠ 0 := fun hzero => by simp [toEvict, hzero] at hevict
    omega
  have hsub : later.toFinset ⊆ newer.erase name := by
    intro file hfile
    rw [List.mem_toFinset] at hfile
    have hne : file ≠ name := by
      rintro rfl
      exact not_mem_drop mtimeMs hnodup hevict hfile
    have hle := le_of_mem_take mtimeMs hevict hfile
    rw [hname (hmem (List.mem_of_mem_take hevict))] at hle
    exact Finset.mem_erase.mpr ⟨hne, hfiles file (hmem (List.mem_of_mem_drop hfile)) hne hle⟩
  have := Finset.card_le_card hsub
  omega

variable [Zero T] {hashName : String → String} {a : Action T}

/-- The file is there, and the entries that are not older are among the given ones. -/
structure Survives (name : String) (newer : Finset String) (s : State T) : Prop where
  present : name ∈ s.files
  positive : 0 < s.mtime name
  among : ∀ file ∈ s.files, isEntry file = true → file ≠ name → s.mtime name ≤ s.mtime file →
    file ∈ newer
  kept : ∀ phase ∈ s.running, Kept name newer s phase

theorem Survives.shrink (h : Survives name newer s) (hmtime : s'.mtime = s.mtime)
    (hfiles : s'.files ⊆ s.files) (hpresent : name ∈ s'.files)
    (hkept : ∀ phase ∈ s'.running, Kept name newer s' phase) : Survives name newer s' where
  present := hpresent
  positive := by rw [hmtime]; exact h.positive
  among file hfile hentry hne := by
    rw [hmtime]
    exact h.among file (hfiles hfile) hentry hne
  kept := hkept

theorem Kept.stat {lcFiles todo : List String} {mtimeMs : String → T} {file : String}
    {succeeds : Bool} (hsurvives : Survives name newer s)
    (h : Kept name newer s (.stating lcFiles todo mtimeMs)) (hfile : file ∈ todo)
    (hreads : file = name → succeeds = true) :
    Kept name newer s (.stating lcFiles (todo.erase file) (Function.update mtimeMs file
      (if succeeds = true ∧ file ∈ s.files then s.mtime file else 0))) := by
  obtain ⟨hnodup, hentries, htodo, hname, hfiles⟩ := h
  have hread : ∀ {other}, other ∉ todo.erase file → other ≠ file → other ∉ todo :=
    fun hother hne hmem => hother ((List.mem_erase_of_ne hne).mpr hmem)
  refine ⟨hnodup, hentries, fun other hother => htodo (List.mem_of_mem_erase hother), ?_, ?_⟩
  · intro hlisted hnot
    by_cases heq : name = file
    · subst heq
      rw [Function.update_self, if_pos ⟨hreads rfl, hsurvives.present⟩]
    · rw [Function.update_of_ne heq]
      exact hname hlisted (hread hnot heq)
  · intro other hlisted hnot hne hle
    by_cases heq : other = file
    · subst heq
      rw [Function.update_self] at hle
      split at hle
      · rename_i hthere
        exact hsurvives.among other hthere.2 (hentries other hlisted) hne hle
      · exact absurd hsurvives.positive (not_lt.mpr hle)
    · rw [Function.update_of_ne heq] at hle
      exact hfiles other hlisted (hread hnot heq) hne hle

theorem Survives.mono {newer' : Finset String} (h : Survives name newer s)
    (hnewer : newer ⊆ newer') : Survives name newer' s where
  present := h.present
  positive := h.positive
  among file hfile hentry hne hle := hnewer (h.among file hfile hentry hne hle)
  kept phase hphase := (h.kept phase hphase).mono rfl hnewer

theorem Survives.become (h : Survives name newer s) (hkept : Kept name newer s phase) :
    Survives name newer (s.become phase) := by
  refine h.shrink rfl subset_rfl h.present fun phase' hphase' => ?_
  obtain rfl : phase = phase' := Option.some_inj.mp hphase'
  exact hkept.mono rfl subset_rfl

theorem Survives.safeDelete {file : String} (h : Survives name newer s) (succeeds : Bool)
    (hne : name ≠ file) (hkept : Kept name newer s phase) :
    Survives name newer ((s.safeDelete file succeeds).become phase) := by
  refine h.shrink rfl ?_ ?_ fun phase' hphase' => ?_
  · exact safeDelete_subset file succeeds
  · cases succeeds with
    | false => exact h.present
    | true => exact Finset.mem_erase.mpr ⟨hne, h.present⟩
  · obtain rfl : phase = phase' := Option.some_inj.mp hphase'
    exact hkept.mono rfl subset_rfl

theorem Survives.writeFile (h : Survives name newer s) (hentry : isEntry name = true)
    (htemp : isEntry temp = false) (mtime : T)
    (hkept : Kept name newer ((s.writeFile temp mtime).become phase) phase) :
    Survives name newer ((s.writeFile temp mtime).become phase) where
  present := Finset.mem_insert_of_mem h.present
  positive := by
    have hne : name ≠ temp := fun heq => by simp [heq, htemp] at hentry
    change 0 < (s.writeFile temp mtime).mtime name
    rw [mtime_writeFile, Function.update_of_ne hne]
    exact h.positive
  among file hfile hentry' hne hle := by
    have hold : file ≠ temp := fun heq => by simp [heq, htemp] at hentry'
    have hname : name ≠ temp := fun heq => by simp [heq, htemp] at hentry
    change (s.writeFile temp mtime).mtime name ≤ (s.writeFile temp mtime).mtime file at hle
    rw [mtime_writeFile, Function.update_of_ne hold, Function.update_of_ne hname] at hle
    exact h.among file (Finset.mem_of_mem_insert_of_ne hfile hold) hentry' hne hle
  kept phase' hphase' := by
    obtain rfl : phase = phase' := Option.some_inj.mp hphase'
    exact hkept

theorem survives_rename {other : String} (hnewest : s.Newest temp)
    (hkept : ∀ newer, Kept name newer ((s.rename temp other).become phase) phase)
    (h : other = name ∨ isEntry name = true ∧ Survives name newer s) :
    Survives name (newer ∪ {other}) ((s.rename temp other).become phase) := by
  have hphase : ∀ phase' ∈ ((s.rename temp other).become phase).running,
      Kept name (newer ∪ {other}) ((s.rename temp other).become phase) phase' := by
    intro phase' hphase'
    obtain rfl : phase = phase' := Option.some_inj.mp hphase'
    exact hkept _
  have hfile : ∀ {file}, file ∈ (s.rename temp other).files → file ≠ other →
      file ∈ s.files ∧ file ≠ temp := fun hmem hne =>
    (Finset.mem_erase.mp (Finset.mem_of_mem_insert_of_ne hmem hne)).symm
  by_cases heq : other = name
  · subst heq
    refine ⟨Finset.mem_insert_self _ _, ?_, fun file hmem _ hne hle => ?_, hphase⟩
    · change 0 < (s.rename temp other).mtime other
      rw [mtime_rename, Function.update_self]
      exact hnewest.positive
    · change (s.rename temp other).mtime other ≤ (s.rename temp other).mtime file at hle
      rw [mtime_rename, Function.update_self, Function.update_of_ne hne] at hle
      obtain ⟨hmem, htemp⟩ := hfile hmem hne
      exact absurd hle (not_le.mpr (hnewest.newer file hmem htemp))
  · obtain ⟨hentry, h⟩ := h.resolve_left heq
    have htemp : name ≠ temp := fun heq => by simp [heq, hnewest.temporary] at hentry
    have hold : name ≠ other := fun h => heq h.symm
    refine ⟨Finset.mem_insert_of_mem (Finset.mem_erase.mpr ⟨htemp, h.present⟩), ?_,
      fun file hmem hentry' hne hle => ?_, hphase⟩
    · change 0 < (s.rename temp other).mtime name
      rw [mtime_rename, Function.update_of_ne hold]
      exact h.positive
    · by_cases hother : file = other
      · exact Finset.mem_union_right _ (Finset.mem_singleton.mpr hother)
      · change (s.rename temp other).mtime name ≤ (s.rename temp other).mtime file at hle
        rw [mtime_rename, Function.update_of_ne hother, Function.update_of_ne hold] at hle
        exact Finset.mem_union_left _ (h.among file (hfile hmem hother).1 hentry' hne hle)

/-- What the running write does leaves the file there, as long as fewer files are newer than the
limit allows. -/
theorem Survives.act (hentry : isEntry name = true) (hmax : options.maxFiles = some n)
    (h : Survives name newer s) (hrunning : s.running = some phase) (hnamed : Named s phase)
    (hspares : s.Spares name a) (hfew : (newer.erase name).card < n)
    (hact : s.act options phase a = some s') : Survives name (newer ∪ s.renames a) s' := by
  have hkept := h.kept phase hrunning
  revert hact
  fun_cases State.act options s phase a <;> intro hact <;> try cases hact; done
  case case3 other temp =>
    cases hact
    rw [show s.renames (.rename true) = {other} by rw [renames, hrunning]]
    refine survives_rename hnamed.2 (fun newer => ?_) (.inr ⟨hentry, h⟩)
    rw [renamed, hmax]
    trivial
  all_goals refine Survives.mono ?_ Finset.subset_union_left
  case case2 file unique mtime succeeds temp =>
    cases hact
    refine h.writeFile hentry (isEntry_tempName file unique) mtime ?_
    cases succeeds <;> trivial
  case case5 temp succeeds =>
    cases hact
    refine h.safeDelete succeeds (fun heq => ?_) trivial
    rw [heq, show isEntry temp = false from hnamed] at hentry
    cases hentry
  case case7 entries hentries =>
    cases hact
    refine h.become ?_
    simp only [listed, hmax]
    split
    · trivial
    · refine ⟨hentries.1.filter _, fun file hfile => (List.mem_filter.mp hfile).2,
        List.Subset.refl _, fun hlisted hnot => absurd hlisted hnot,
        fun file hlisted hnot => absurd hlisted hnot⟩
  case case9 lcFiles todo mtimeMs file succeeds hfile =>
    cases hact
    exact h.become (hkept.stat h hfile hspares.2)
  case case11 lcFiles mtimeMs =>
    obtain ⟨maxFiles, hmax', rfl⟩ := Option.map_eq_some_iff.mp hact
    cases hmax.symm.trans hmax'
    obtain ⟨hnodup, -, -, hname, hfiles⟩ := hkept
    exact h.become (not_mem_toEvict hnodup (fun hlisted => hname hlisted List.not_mem_nil)
      (fun file hlisted => hfiles file hlisted List.not_mem_nil) hfew)
  case case12 names file succeeds hfile =>
    cases hact
    have hnot : name ∉ names := hkept
    refine h.safeDelete succeeds (fun heq => hnot (heq ▸ hfile)) ?_
    exact fun hmem => hnot (List.mem_of_mem_erase hmem)
  case case18 names file succeeds hfile =>
    cases hact
    have hne := hspares.2 (by rw [isEnforcing, hrunning]; rfl)
    exact h.safeDelete succeeds hne.symm trivial
  all_goals
    cases hact
    exact h.become trivial

theorem Survives.step (hentry : isEntry name = true) (hmax : options.maxFiles = some n)
    (h : Survives name newer s) (hnamed : NamedInv s) (hspares : s.Spares name a)
    (hfew : (newer.erase name).card < n) (hstep : s.step hashName options a = some s') :
    Survives name (newer ∪ s.renames a) s' := by
  obtain ⟨hrunning, hmtime, hfiles, hstays⟩ | ⟨hfiles, hmtime, hrunning⟩ |
    ⟨phase, hrunning, hact⟩ := step_cases hstep
  · have hpresent : name ∈ s'.files := by
      refine hstays name h.present fun ha => ?_
      subst ha
      exact hspares.2 rfl
    refine (h.shrink hmtime hfiles hpresent fun phase hphase => ?_).mono Finset.subset_union_left
    rw [hrunning] at hphase
    exact (h.kept phase hphase).mono hmtime subset_rfl
  · refine (h.shrink hmtime hfiles.subset (hfiles ▸ h.present) fun phase hphase => ?_).mono
      Finset.subset_union_left
    obtain ⟨-, hnone⟩ | ⟨-, write, hbegun⟩ := hrunning
    · rw [hnone] at hphase
      cases hphase
    · obtain rfl : begun hashName write = phase := Option.some_inj.mp (hbegun.symm.trans hphase)
      cases write <;> trivial
  · exact h.act hentry hmax hrunning (hnamed phase hrunning) hspares hfew hact

/-- By induction on the run, with the files that are newer growing as it goes. -/
theorem Survives.run (hentry : isEntry name = true) (hmax : options.maxFiles = some n)
    {as : List (Action T)} {t : State T} (h : Survives name newer s) (hnamed : NamedInv s)
    (halong : Along (State.step hashName options) (Spares name) s as)
    (hfew : ((newer ∪ s.renamedAlong hashName options as).erase name).card < n)
    (hrun : Transition.run (State.step hashName options) s as = some t) : name ∈ t.files := by
  induction as generalizing s newer with
  | nil =>
    cases hrun
    exact h.present
  | cons a as ih =>
    rw [Transition.run, Option.bind_eq_some_iff] at hrun
    obtain ⟨s', hstep, hrun⟩ := hrun
    rw [renamedAlong, hstep, ← Finset.union_assoc] at hfew
    have hnow : (newer.erase name).card < n :=
      (Finset.card_le_card (Finset.erase_subset_erase _
        (Finset.subset_union_left.trans Finset.subset_union_left))).trans_lt hfew
    exact ih (h.step hentry hmax hnamed halong.1 hnow hstep)
      (hnamed.step halong.1.1 hstep) (halong.2 s' hstep) hfew hrun

end Survival

end State

open State

/-- In every run of calls, file-system steps and reads in which the times of the files go up, the
file of a `set` is there as long as nothing but an eviction removes files of its name and fewer
other files have been renamed since than the limit allows. -/
theorem newest_survive {T : Type} [LinearOrder T] [Zero T] {hashName : String → String}
    {options : Options} {n : ℕ} (hmax : options.maxFiles = some n) {files : Finset String}
    {mtime : String → T} {s s' t : State T} {name temp : String} {as : List (Action T)}
    (h : Reaches (step hashName options) Ascends (initial files mtime) s)
    (hrunning : s.running = some (.written name temp))
    (hstep : s.step hashName options (.rename true) = some s')
    (halong : Along (step hashName options) (Spares name) s' as)
    (hrun : run (step hashName options) s' as = some t)
    (hfew : ((s'.renamedAlong hashName options as).erase name).card < n) : name ∈ t.files := by
  have hnamed : NamedInv s :=
    h.invariant (fun _ _ _ hnamed hascends hstep => hnamed.step hascends hstep)
      (fun _ hphase => by cases hphase)
  obtain ⟨hentry, hnewest⟩ := hnamed _ hrunning
  have hnamed' : NamedInv s' := hnamed.step (show s.Ascends (.rename true) from trivial) hstep
  have hrenamed : s' = (s.rename temp name).become (renamed options) := by
    obtain ⟨phase, hphase, hact⟩ := Option.bind_eq_some_iff.mp hstep
    cases hrunning.symm.trans hphase
    cases hact
    rfl
  have hsurvives : Survives name (∅ ∪ {name}) s' := by
    rw [hrenamed]
    refine survives_rename hnewest (fun newer => ?_) (.inl rfl)
    rw [renamed, hmax]
    trivial
  refine hsurvives.run hentry hmax hnamed' halong ?_ hrun
  rwa [Finset.empty_union, Finset.erase_union_distrib, Finset.erase_singleton,
    Finset.empty_union]

theorem newest_survive_oneFile :
    ∃ s t, run (step id oneFile) (initial {"old.lc"} fun _ => 0) firstSet = some s ∧
      run (step id oneFile) s keepOne = some t ∧ "a.lc" ∈ t.files := by
  have hbefore : run (step id oneFile) (initial {"old.lc"} fun _ => 0)
      [.enqueueWrite (.set "a"), .start, .writeFile "1" 1 true] = some _ := rfl
  exact ⟨_, _, rfl, rfl, newest_survive rfl (reaches_of_run Ascends hbefore (by decide)) rfl rfl
    (by decide) (show run _ _ keepOne = _ from rfl) (by decide)⟩

end LayerCache.DiskFiles
