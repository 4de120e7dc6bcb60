import LayerCache.Collections.StableSort
import LayerCache.Transition.Run
import Mathlib.Data.Finset.Card
import Mathlib.Tactic.NormNum

/-! # The directory of the disk layer

The files of one layer, its queue of writes and the eviction that ends a `set`. Reads unlink files
beside all of it; nothing else writes to the directory.
-/

namespace LayerCache.DiskFiles

open StableSort Transition

structure Options where
  maxFiles : Option ℕ
  maxWriteQueueDepth : Option ℕ
  maxFiles_pos : ∀ n ∈ maxFiles, 0 < n
  maxWriteQueueDepth_pos : ∀ n ∈ maxWriteQueueDepth, 0 < n

def positiveInteger (number : ℚ) : Option ℕ :=
  if number.den = 1 ∧ 0 < number.num then some number.num.toNat else none

/-- No limit for `Infinity`. -/
def normalizeMaxFiles : Option (WithTop ℚ) → Except String (Option ℕ)
  | none => .ok (some 50000)
  | some none => .ok none
  | some (some number) =>
    match positiveInteger number with
    | some n => .ok (some n)
    | none => .error "DiskLayer.maxFiles must be a positive integer or Infinity."

/-- No limit for `false`. -/
def normalizeMaxWriteQueueDepth : Option (Option ℚ) → Except String (Option ℕ)
  | none => .ok (some 10000)
  | some none => .ok none
  | some (some number) =>
    match positiveInteger number with
    | some n => .ok (some n)
    | none => .error "DiskLayer.maxWriteQueueDepth must be a positive integer or false."

theorem positiveInteger_pos {number : ℚ} {n : ℕ} (h : positiveInteger number = some n) : 0 < n := by
  rw [positiveInteger, Option.ite_none_right_eq_some] at h
  obtain ⟨⟨-, hpos⟩, hn⟩ := h
  cases hn
  omega

theorem normalizeMaxFiles_pos {maxFiles : Option (WithTop ℚ)} {limit : Option ℕ}
    (h : normalizeMaxFiles maxFiles = .ok limit) : ∀ n ∈ limit, 0 < n := by
  unfold normalizeMaxFiles at h
  split at h
  · cases h
    simp
  · cases h
    simp
  · split at h
    · rename_i hn
      cases h
      simpa using positiveInteger_pos hn
    · cases h

theorem normalizeMaxWriteQueueDepth_pos {depth : Option (Option ℚ)} {limit : Option ℕ}
    (h : normalizeMaxWriteQueueDepth depth = .ok limit) : ∀ n ∈ limit, 0 < n := by
  unfold normalizeMaxWriteQueueDepth at h
  split at h
  · cases h
    simp
  · cases h
    simp
  · split at h
    · rename_i hn
      cases h
      simpa using positiveInteger_pos hn
    · cases h

def Options.resolve (maxFiles : Option (WithTop ℚ)) (maxWriteQueueDepth : Option (Option ℚ)) :
    Except String Options :=
  match hfiles : normalizeMaxFiles maxFiles,
    hdepth : normalizeMaxWriteQueueDepth maxWriteQueueDepth with
  | .ok files, .ok depth =>
    .ok ⟨files, depth, normalizeMaxFiles_pos hfiles, normalizeMaxWriteQueueDepth_pos hdepth⟩
  | .error error, _ => .error error
  | _, .error error => .error error

def isEntry (name : String) : Bool := ".lc".toList.isSuffixOf name.toList

/-- The temporary file of a `set`, by the process, the time and random bytes. -/
def tempName (name unique : String) : String := name ++ "." ++ unique ++ ".tmp"

theorem isEntry_append (hash : String) : isEntry (hash ++ ".lc") = true := by
  simp [isEntry, List.isSuffixOf_iff_suffix]

theorem isEntry_tempName (name unique : String) : isEntry (tempName name unique) = false := by
  rw [Bool.eq_false_iff, Ne, isEntry, List.isSuffixOf_iff_suffix]
  rintro ⟨rest, h⟩
  have hlast := congrArg List.getLast? h
  simp [tempName, List.getLast?_cons] at hlast

inductive Write
  | set (key : String)
  | delete (keys : List String)
  | clear
  deriving DecidableEq

inductive Phase (T : Type)
  | opening (name : String)
  | written (name temp : String)
  | discarding (temp : String)
  | listing
  | stating (lcFiles todo : List String) (mtimeMs : String → T)
  | evicting (toEvict : List String)
  | clearing
  | deleting (names : List String)
  | settled

/-- The phases of `enforceMaxFiles`. -/
def Phase.isEnforcing {T : Type} : Phase T → Bool
  | .listing | .stating _ _ _ | .evicting _ => true
  | _ => false

/-- An error of a file-system call is one that does not succeed, and a listing that fails lists
nothing. -/
inductive Action (T : Type)
  | enqueueWrite (write : Write)
  | start
  | fail
  | writeFile (unique : String) (mtime : T) (succeeds : Bool)
  | rename (succeeds : Bool)
  | discard (succeeds : Bool)
  | readdir (entries : Option (List String))
  | stat (name : String) (succeeds : Bool)
  | sort
  | unlink (name : String) (succeeds : Bool)
  | finish
  | release
  | safeDelete (name : String)

structure State (T : Type) where
  files : Finset String
  mtime : String → T
  writeQueue : List Write
  writeQueueDepth : ℕ
  running : Option (Phase T)

/-- Without the oldest files there are no more than the limit. -/
def toEvict {T : Type} [LinearOrder T] (maxFiles : ℕ) (lcFiles : List String)
    (mtimeMs : String → T) : List String :=
  (sortBy mtimeMs lcFiles).take (lcFiles.length - maxFiles)

namespace State

section Steps
variable {T : Type} [LinearOrder T] [Zero T] (hashName : String → String) (options : Options)
  (s : State T)

/-- The write joins the queue, unless the queue is full. -/
def enqueueWrite (write : Write) : Except String (State T) :=
  match options.maxWriteQueueDepth.filter fun limit => decide (limit ≤ s.writeQueueDepth) with
  | some limit => .error ("DiskLayer write queue limit (" ++ toString limit ++ ") exceeded.")
  | none =>
    .ok { s with
      writeQueue := s.writeQueue ++ [write]
      writeQueueDepth := s.writeQueueDepth + 1 }

def begun : Write → Phase T
  | .set key => .opening (hashName key ++ ".lc")
  | .delete keys => .deleting (keys.map fun key => hashName key ++ ".lc")
  | .clear => .clearing

/-- After its rename a `set` has to keep the limit, if there is one. -/
def renamed : Phase T := if options.maxFiles.isSome then .listing else .settled

/-- What a listing of the directory leads to; it may still name what a read has removed. -/
def listed (entries : List String) : Phase T :=
  let lcFiles := entries.filter isEntry
  match options.maxFiles with
  | none => .settled
  | some maxFiles =>
    if lcFiles.length ≤ maxFiles then .settled else .stating lcFiles lcFiles fun _ => 0

def become (phase : Phase T) : State T := { s with running := some phase }

def writeFile (temp : String) (mtime : T) : State T :=
  { s with files := insert temp s.files, mtime := Function.update s.mtime temp mtime }

def rename (temp name : String) : State T :=
  { s with
    files := insert name (s.files.erase temp)
    mtime := Function.update s.mtime name (s.mtime temp) }

def safeDelete (name : String) (succeeds : Bool) : State T :=
  { s with files := if succeeds then s.files.erase name else s.files }

def act : Phase T → Action T → Option (State T)
  | .opening _, .fail => some (s.become .settled)
  | .opening name, .writeFile unique mtime succeeds =>
    let temp := tempName name unique
    some ((s.writeFile temp mtime).become
      (if succeeds then .written name temp else .discarding temp))
  | .written name temp, .rename true =>
    some ((s.rename temp name).become (renamed options))
  | .written _ temp, .rename false => some (s.become (.discarding temp))
  | .discarding temp, .discard succeeds => some ((s.safeDelete temp succeeds).become .settled)
  | .listing, .readdir none => some (s.become .settled)
  | .listing, .readdir (some entries) =>
    if entries.Nodup ∧ ∀ name ∈ s.files, name ∈ entries then
      some (s.become (listed options entries))
    else none
  | .stating lcFiles todo mtimeMs, .stat name succeeds =>
    if name ∈ todo then
      some (s.become (.stating lcFiles (todo.erase name) (Function.update mtimeMs name
        (if succeeds = true ∧ name ∈ s.files then s.mtime name else 0))))
    else none
  | .stating lcFiles [] mtimeMs, .sort =>
    options.maxFiles.map fun maxFiles => s.become (.evicting (toEvict maxFiles lcFiles mtimeMs))
  | .evicting names, .unlink name succeeds =>
    if name ∈ names then
      some ((s.safeDelete name succeeds).become (.evicting (names.erase name)))
    else none
  | .evicting [], .finish => some (s.become .settled)
  | .clearing, .readdir none => some (s.become .settled)
  | .clearing, .readdir (some entries) =>
    if entries.Nodup ∧ ∀ name ∈ s.files, name ∈ entries then
      some (s.become (.deleting (entries.filter isEntry)))
    else none
  | .deleting names, .unlink name succeeds =>
    if name ∈ names then
      some ((s.safeDelete name succeeds).become (.deleting (names.erase name)))
    else none
  | .deleting [], .finish => some (s.become .settled)
  | _, _ => none

/-- The next write starts once the last one has left the queue. -/
def step : Action T → Option (State T)
  | .enqueueWrite write => some ((s.enqueueWrite options write).toOption.getD s)
  | .start =>
    match s.running, s.writeQueue with
    | none, write :: rest =>
      some { s with writeQueue := rest, running := some (begun hashName write) }
    | _, _ => none
  | .release =>
    match s.running with
    | some .settled =>
      some { s with writeQueueDepth := s.writeQueueDepth - 1, running := none }
    | _ => none
  | .safeDelete name => if isEntry name then some (s.safeDelete name true) else none
  | a => s.running.bind fun phase => s.act options phase a

/-- What the directory holds at first, and no call has begun. -/
def initial (files : Finset String) (mtime : String → T) : State T where
  files
  mtime
  writeQueue := []
  writeQueueDepth := 0
  running := none

def entries : Finset String := s.files.filter fun name => isEntry name

/-- A `set` has renamed its file and still has to keep the limit. -/
def isEnforcing : Bool := s.running.any Phase.isEnforcing

/-- The writes that have been accepted and have not returned. -/
def pending : ℕ := s.writeQueue.length + if s.running.isSome then 1 else 0

/-- The eviction can list the directory and unlink what is still there. -/
def Works : Action T → Prop
  | .readdir none => s.isEnforcing = false
  | .unlink name succeeds => s.isEnforcing = true → succeeds = false → name ∉ s.files
  | _ => True

instance Works.decidable : (a : Action T) → Decidable (s.Works a) := fun a => by
  cases a with
  | readdir entries => cases entries <;> unfold Works <;> infer_instance
  | _ => unfold Works; infer_instance

/-- One file too many is there only until the `set` that has added it returns. -/
def Bounded (maxFiles : ℕ) : Prop :=
  s.entries.card ≤ maxFiles + if s.isEnforcing then 1 else 0

end Steps

section Queue
variable {T : Type} {options : Options} {s s' : State T}

structure Queued (options : Options) (s : State T) : Prop where
  depth : s.writeQueueDepth = s.pending
  limit : ∀ limit ∈ options.maxWriteQueueDepth, s.pending ≤ limit

theorem enqueueWrite_isOk_iff (write : Write) :
    (∃ s', s.enqueueWrite options write = .ok s') ↔
      ∀ limit ∈ options.maxWriteQueueDepth, s.writeQueueDepth < limit := by
  cases hmax : options.maxWriteQueueDepth with
  | none => simp [enqueueWrite, hmax]
  | some limit =>
    by_cases hlimit : limit ≤ s.writeQueueDepth
    · simp [enqueueWrite, hmax, Option.filter_some, hlimit]
    · simp [enqueueWrite, hmax, Option.filter_some, hlimit, Nat.lt_of_not_le hlimit]

theorem enqueueWrite_eq {write : Write} (h : s.enqueueWrite options write = .ok s') :
    s' = { s with
      writeQueue := s.writeQueue ++ [write]
      writeQueueDepth := s.writeQueueDepth + 1 } := by
  unfold enqueueWrite at h
  split at h
  · cases h
  · cases h
    rfl

theorem queued_initial {files : Finset String} {mtime : String → T} :
    Queued options (initial files mtime) :=
  ⟨rfl, fun _ _ => Nat.zero_le _⟩

variable [LinearOrder T] [Zero T] {hashName : String → String} {a : Action T}

theorem act_queue {phase : Phase T} (hrunning : s.running = some phase)
    (h : s.act options phase a = some s') :
    s'.writeQueueDepth = s.writeQueueDepth ∧ s'.pending = s.pending := by
  revert h
  fun_cases act options s phase a <;> intro h
  case case11 lcFiles mtimeMs =>
    obtain ⟨maxFiles, -, rfl⟩ := Option.map_eq_some_iff.mp h
    simp [become, pending, hrunning]
  all_goals
    cases h <;> simp [become, writeFile, rename, safeDelete, pending, hrunning]

theorem Queued.step (hqueued : Queued options s) (h : s.step hashName options a = some s') :
    Queued options s' := by
  obtain ⟨hdepth, hlimit⟩ := hqueued
  have hsame : s'.writeQueueDepth = s.writeQueueDepth → s'.pending = s.pending →
      Queued options s' :=
    fun hdepth' hpending => ⟨by rw [hdepth', hpending, hdepth], by rwa [hpending]⟩
  cases a with
  | enqueueWrite write =>
    rw [State.step, Option.some_inj] at h
    cases hwrite : s.enqueueWrite options write with
    | error error =>
      obtain rfl : s = s' := by rwa [hwrite] at h
      exact ⟨hdepth, hlimit⟩
    | ok t =>
      obtain rfl : t = s' := by rwa [hwrite] at h
      have hroom := (enqueueWrite_isOk_iff write).mp ⟨t, hwrite⟩
      obtain rfl := enqueueWrite_eq hwrite
      have hpending : pending { s with
          writeQueue := s.writeQueue ++ [write]
          writeQueueDepth := s.writeQueueDepth + 1 } = s.pending + 1 := by
        simp only [pending, List.length_append, List.length_singleton]
        omega
      refine ⟨by rw [hpending, ← hdepth], fun limit hmax => ?_⟩
      rw [hpending, ← hdepth]
      exact hroom limit hmax
  | start =>
    simp only [State.step] at h
    split at h
    · rename_i hrunning hqueue
      cases h
      exact hsame rfl (by simp [pending, hrunning, hqueue])
    · cases h
  | release =>
    simp only [State.step] at h
    split at h
    · rename_i hrunning
      cases h
      have hbefore : s.pending = s.writeQueue.length + 1 := by simp [pending, hrunning]
      have hafter : pending { s with writeQueueDepth := s.writeQueueDepth - 1, running := none } =
          s.writeQueue.length := rfl
      refine ⟨by rw [hafter, hdepth, hbefore, Nat.add_sub_cancel], fun limit hmax => ?_⟩
      have := hlimit limit hmax
      omega
    · cases h
  | safeDelete name =>
    simp only [State.step] at h
    split at h
    · cases h
      exact hsame rfl rfl
    · cases h
  | _ =>
    obtain ⟨phase, hrunning, hact⟩ := Option.bind_eq_some_iff.mp h
    obtain ⟨hdepth', hpending⟩ := act_queue hrunning hact
    exact hsame hdepth' hpending

end Queue

section StepCases
variable {T : Type} [LinearOrder T] [Zero T] {hashName : String → String} {options : Options}
  {s s' : State T} {a : Action T}

/-- Besides what the running write does, a step starts or releases a write, or a read removes a
file. -/
theorem step_cases (h : s.step hashName options a = some s') :
    (s'.running = s.running ∧ s'.mtime = s.mtime ∧ s'.files ⊆ s.files ∧
      ∀ file ∈ s.files, a ≠ .safeDelete file → file ∈ s'.files) ∨
    (s'.files = s.files ∧ s'.mtime = s.mtime ∧
      (s.running = some .settled ∧ s'.running = none ∨
        s.running = none ∧ ∃ write, s'.running = some (begun hashName write))) ∨
    ∃ phase, s.running = some phase ∧ s.act options phase a = some s' := by
  cases a with
  | enqueueWrite write =>
    rw [State.step, Option.some_inj] at h
    left
    cases hwrite : s.enqueueWrite options write with
    | error error =>
      obtain rfl : s = s' := by rwa [hwrite] at h
      exact ⟨rfl, rfl, subset_rfl, fun file hfile _ => hfile⟩
    | ok t =>
      obtain rfl : t = s' := by rwa [hwrite] at h
      obtain rfl := enqueueWrite_eq hwrite
      exact ⟨rfl, rfl, subset_rfl, fun file hfile _ => hfile⟩
  | start =>
    simp only [State.step] at h
    split at h
    · rename_i hrunning hqueue
      cases h
      exact .inr (.inl ⟨rfl, rfl, .inr ⟨hrunning, _, rfl⟩⟩)
    · cases h
  | release =>
    simp only [State.step] at h
    split at h
    · rename_i hrunning
      cases h
      exact .inr (.inl ⟨rfl, rfl, .inl ⟨hrunning, rfl⟩⟩)
    · cases h
  | safeDelete name =>
    simp only [State.step] at h
    split at h
    · cases h
      refine .inl ⟨rfl, rfl, Finset.erase_subset _ _, fun file hfile hne => ?_⟩
      exact Finset.mem_erase.mpr ⟨fun heq => hne (by rw [heq]), hfile⟩
    · cases h
  | _ => exact .inr (.inr (Option.bind_eq_some_iff.mp h))

end StepCases

section Bound
variable {T : Type} {s s' : State T} {n : ℕ} {phase : Phase T}

/-- What a phase knows about the entries: from the listing on they are in it, and once the oldest
are chosen what is kept is within the limit. -/
def Placed (n : ℕ) (entries : Finset String) : Phase T → Prop
  | .written _ temp => isEntry temp = false
  | .stating lcFiles _ _ => entries ⊆ lcFiles.toFinset
  | .evicting names => ∃ kept : Finset String, kept.card ≤ n ∧ entries ⊆ kept ∪ names.toFinset
  | _ => True

theorem Placed.mono {entries entries' : Finset String} (h : Placed n entries phase)
    (hsub : entries' ⊆ entries) : Placed n entries' phase := by
  cases phase with
  | stating => exact hsub.trans h
  | evicting =>
    obtain ⟨kept, hkept, hnames⟩ := h
    exact ⟨kept, hkept, hsub.trans hnames⟩
  | written => exact h
  | _ => trivial

theorem safeDelete_subset (name : String) (succeeds : Bool) :
    (s.safeDelete name succeeds).files ⊆ s.files := by
  unfold safeDelete
  split
  · exact Finset.erase_subset _ _
  · exact subset_rfl

theorem entries_safeDelete (name : String) (succeeds : Bool) :
    (s.safeDelete name succeeds).entries ⊆ s.entries :=
  Finset.filter_subset_filter _ (safeDelete_subset name succeeds)

theorem entries_writeFile {temp : String} {mtime : T} (h : isEntry temp = false) :
    (s.writeFile temp mtime).entries = s.entries := by
  rw [entries, writeFile, Finset.filter_insert, h]
  rfl

theorem entries_rename (temp name : String) :
    (s.rename temp name).entries ⊆ insert name s.entries := by
  intro file hfile
  simp only [entries, rename, Finset.mem_filter, Finset.mem_insert, Finset.mem_erase] at hfile ⊢
  obtain ⟨rfl | ⟨-, hfile⟩, hentry⟩ := hfile
  · exact .inl rfl
  · exact .inr ⟨hfile, hentry⟩

def Inv (n : ℕ) (s : State T) : Prop := ∀ phase ∈ s.running, Placed n s.entries phase

theorem inv_initial {files : Finset String} {mtime : String → T} : Inv n (initial files mtime) :=
  fun _ h => by cases h

theorem Placed.unlink {names : List String} {name : String} {succeeds : Bool}
    (h : Placed n s.entries (.evicting names : Phase T))
    (hworks : succeeds = false → name ∉ s.files) :
    Placed n (s.safeDelete name succeeds).entries (.evicting (names.erase name) : Phase T) := by
  obtain ⟨kept, hkept, hnames⟩ := h
  have hgone : name ∉ (s.safeDelete name succeeds).files := by
    cases succeeds with
    | false => exact hworks rfl
    | true => exact Finset.notMem_erase _ _
  refine ⟨kept, hkept, fun file hfile => ?_⟩
  have hne : file ≠ name := by
    rintro rfl
    exact hgone (Finset.mem_filter.mp hfile).1
  have := hnames (entries_safeDelete name succeeds hfile)
  rw [Finset.mem_union, List.mem_toFinset] at this ⊢
  exact this.imp_right fun hmem => (List.mem_erase_of_ne hne).mpr hmem

variable [LinearOrder T]

theorem placed_toEvict {lcFiles : List String} {mtimeMs : String → T}
    {entries : Finset String} (hentries : entries ⊆ lcFiles.toFinset) :
    Placed n entries (.evicting (toEvict n lcFiles mtimeMs) : Phase T) := by
  let kept := (sortBy mtimeMs lcFiles).drop (lcFiles.length - n)
  refine ⟨kept.toFinset, ?_, fun file hfile => ?_⟩
  · calc kept.toFinset.card ≤ kept.length := List.toFinset_card_le _
      _ = lcFiles.length - (lcFiles.length - n) := by
        rw [List.length_drop, length_sortBy]
      _ ≤ n := by omega
  · have hmem := (mem_sortBy mtimeMs).mpr (List.mem_toFinset.mp (hentries hfile))
    rw [← List.take_append_drop (lcFiles.length - n) (sortBy mtimeMs lcFiles),
      List.mem_append] at hmem
    rw [Finset.mem_union, List.mem_toFinset, List.mem_toFinset]
    exact hmem.symm

variable [Zero T] {hashName : String → String} {options : Options} {a : Action T}

/-- What a phase knows holds of the next one. -/
theorem Placed.act (hmax : options.maxFiles = some n) (hrunning : s.running = some phase)
    (hplaced : Placed n s.entries phase) (hworks : s.Works a)
    (h : s.act options phase a = some s') :
    ∃ phase', s'.running = some phase' ∧ Placed n s'.entries phase' := by
  revert h
  fun_cases State.act options s phase a <;> intro h <;> try cases h; done
  case case2 name unique mtime succeeds temp =>
    cases h
    refine ⟨_, rfl, ?_⟩
    cases succeeds with
    | false => trivial
    | true => exact isEntry_tempName name unique
  case case3 name temp =>
    cases h
    refine ⟨_, rfl, ?_⟩
    rw [renamed, hmax]
    trivial
  case case7 entries hentries =>
    cases h
    refine ⟨_, rfl, ?_⟩
    simp only [listed, hmax]
    split
    · trivial
    · intro file hfile
      obtain ⟨hfile, hentry⟩ := Finset.mem_filter.mp hfile
      exact List.mem_toFinset.mpr (List.mem_filter.mpr ⟨hentries.2 file hfile, hentry⟩)
  case case9 lcFiles todo mtimeMs name succeeds hmem =>
    cases h
    exact ⟨_, rfl, hplaced⟩
  case case11 lcFiles mtimeMs =>
    obtain ⟨maxFiles, hmax', rfl⟩ := Option.map_eq_some_iff.mp h
    cases hmax.symm.trans hmax'
    exact ⟨_, rfl, placed_toEvict hplaced⟩
  case case12 names name succeeds hmem =>
    cases h
    refine ⟨_, rfl, hplaced.unlink (hworks ?_)⟩
    rw [isEnforcing, hrunning]
    rfl
  all_goals
    cases h
    exact ⟨_, rfl, trivial⟩

theorem act_entries (hplaced : Placed n s.entries phase) (h : s.act options phase a = some s') :
    s'.entries ⊆ s.entries ∨
      ∃ name temp, phase = .written name temp ∧
        s' = (s.rename temp name).become (renamed options) := by
  revert h
  fun_cases State.act options s phase a <;> intro h <;> try cases h; done
  case case2 name unique mtime succeeds temp =>
    have hsame : (s.writeFile temp mtime).entries = s.entries :=
      entries_writeFile (isEntry_tempName name unique)
    cases h
    exact .inl hsame.subset
  case case3 name temp =>
    cases h
    exact .inr ⟨name, temp, rfl, rfl⟩
  case case11 lcFiles mtimeMs =>
    obtain ⟨maxFiles, -, rfl⟩ := Option.map_eq_some_iff.mp h
    exact .inl subset_rfl
  all_goals
    cases h
    first
    | exact .inl subset_rfl
    | exact .inl (entries_safeDelete _ _)

/-- Keeping the limit ends with no more files than it allows. -/
theorem Placed.ends (hmax : options.maxFiles = some n) (hrunning : s.running = some phase)
    (hplaced : Placed n s.entries phase) (hworks : s.Works a)
    (h : s.act options phase a = some s') (hphase : phase.isEnforcing = true)
    (hends : s'.isEnforcing = false) : s'.entries.card ≤ n := by
  have henforcing : s.isEnforcing = true := by
    rw [isEnforcing, hrunning]
    exact hphase
  revert h
  fun_cases State.act options s phase a <;> intro h <;> try cases h; done
  case case6 =>
    exact absurd hworks (by simp [Works, henforcing])
  case case7 entries hentries =>
    cases h
    simp only [isEnforcing, become, listed, hmax] at hends
    split at hends
    · rename_i hlength
      refine le_trans ?_ hlength
      refine (Finset.card_le_card fun file hfile => ?_).trans (List.toFinset_card_le _)
      obtain ⟨hfile, hentry⟩ := Finset.mem_filter.mp hfile
      exact List.mem_toFinset.mpr (List.mem_filter.mpr ⟨hentries.2 file hfile, hentry⟩)
    · cases hends
  case case14 =>
    cases h
    obtain ⟨kept, hkept, hnames⟩ := hplaced
    simp only [List.toFinset_nil, Finset.union_empty] at hnames
    exact (Finset.card_le_card hnames).trans hkept
  case case11 lcFiles mtimeMs =>
    obtain ⟨maxFiles, -, rfl⟩ := Option.map_eq_some_iff.mp h
    cases hends
  all_goals
    cases h
    first
    | cases hphase; done
    | cases hends

theorem Inv.step (hmax : options.maxFiles = some n) (hinv : Inv n s) (hworks : s.Works a)
    (h : s.step hashName options a = some s') : Inv n s' := by
  intro phase' hphase'
  obtain ⟨hrunning, -, hfiles, -⟩ | ⟨-, -, ⟨-, hnone⟩ | ⟨-, write, hbegun⟩⟩ |
    ⟨phase, hrunning, hact⟩ := step_cases h
  · rw [hrunning] at hphase'
    exact (hinv phase' hphase').mono (Finset.filter_subset_filter _ hfiles)
  · rw [hnone] at hphase'
    cases hphase'
  · obtain rfl : begun hashName write = phase' := Option.some_inj.mp (hbegun.symm.trans hphase')
    cases write <;> trivial
  · obtain ⟨next, hnext, hplaced⟩ := (hinv phase hrunning).act hmax hrunning hworks hact
    obtain rfl : next = phase' := Option.some_inj.mp (hnext.symm.trans hphase')
    exact hplaced

theorem Bounded.of_enforced (hmax : options.maxFiles = some n) (hinv : Inv n s)
    (hworks : s.Works a) (h : s.step hashName options a = some s')
    (henforcing : s.isEnforcing = true) (hends : s'.isEnforcing = false) : s'.Bounded n := by
  obtain ⟨hrunning, -⟩ | ⟨-, -, ⟨hrunning, -⟩ | ⟨hrunning, -⟩⟩ | ⟨phase, hrunning, hact⟩ :=
    step_cases h
  · rw [isEnforcing, hrunning] at hends
    exact absurd henforcing (by simp [isEnforcing, hends])
  · simp [isEnforcing, hrunning, Phase.isEnforcing] at henforcing
  · simp [isEnforcing, hrunning] at henforcing
  · have hphase : phase.isEnforcing = true := by
      rwa [isEnforcing, hrunning, Option.any_some] at henforcing
    exact ((hinv phase hrunning).ends hmax hrunning hworks hact hphase hends).trans
      (Nat.le_add_right _ _)

theorem Bounded.step (hmax : options.maxFiles = some n) (hinv : Inv n s) (hbounded : s.Bounded n)
    (hworks : s.Works a) (h : s.step hashName options a = some s') : s'.Bounded n := by
  by_cases hends : s.isEnforcing = true ∧ s'.isEnforcing = false
  · exact Bounded.of_enforced hmax hinv hworks h hends.1 hends.2
  -- otherwise a step that adds no entry keeps the bound as it is
  have hshrink : s'.entries ⊆ s.entries → s'.Bounded n := by
    intro hsub
    refine (Finset.card_le_card hsub).trans (hbounded.trans ?_)
    cases hs : s.isEnforcing <;> cases hs' : s'.isEnforcing <;> simp_all
  obtain ⟨-, -, hfiles, -⟩ | ⟨hfiles, -⟩ | ⟨phase, hrunning, hact⟩ := step_cases h
  · exact hshrink (Finset.filter_subset_filter _ hfiles)
  · exact hshrink (Finset.filter_subset_filter _ hfiles.subset)
  · obtain hsub | ⟨name, temp, rfl, rfl⟩ := act_entries (hinv phase hrunning) hact
    · exact hshrink hsub
    · have hbefore : s.entries.card ≤ n := by
        simpa [Bounded, isEnforcing, hrunning, Phase.isEnforcing] using hbounded
      have hafter : ((s.rename temp name).become (renamed options)).isEnforcing = true := by
        simp [isEnforcing, become, renamed, hmax, Phase.isEnforcing]
      rw [Bounded, hafter]
      calc (s.rename temp name).entries.card ≤ (insert name s.entries).card :=
            Finset.card_le_card (entries_rename temp name)
        _ ≤ s.entries.card + 1 := Finset.card_insert_le _ _
        _ ≤ n + 1 := Nat.succ_le_succ hbefore

variable {t : State T}

theorem inv_of_reaches (hmax : options.maxFiles = some n)
    (h : Reaches (step hashName options) Works s t) (hs : Inv n s) : Inv n t :=
  h.invariant (fun _ _ _ hinv hworks hstep => hinv.step hmax hworks hstep) hs

theorem bounded_of_reaches (hmax : options.maxFiles = some n)
    (h : Reaches (step hashName options) Works s t) (hs : Inv n s) (hbounded : s.Bounded n) :
    t.Bounded n := by
  have hboth : Inv n t ∧ t.Bounded n := by
    refine h.invariant (P := fun s => Inv n s ∧ s.Bounded n) ?_ ⟨hs, hbounded⟩
    rintro s a s' ⟨hinv, hbounded⟩ hworks hstep
    exact ⟨hinv.step hmax hworks hstep, hbounded.step hmax hinv hworks hstep⟩
  exact hboth.2

end Bound

end State

open State

/-- In every run of calls, file-system steps and reads, what is pending stays within the limit of
the queue, and a call is refused exactly when it is reached; and as soon as one `set` has kept the
limit of the files, or from the start if the directory does, at most one more is ever there, and
none once the `set` that has added it returns. -/
theorem directory_bounded {T : Type} [LinearOrder T] [Zero T] {hashName : String → String}
    {options : Options} {n : ℕ} (hmax : options.maxFiles = some n) {files : Finset String}
    {mtime : String → T} {s : State T}
    (h : Reaches (step hashName options) Works (initial files mtime) s) :
    (∀ limit ∈ options.maxWriteQueueDepth, s.pending ≤ limit ∧
      ∀ write, (∃ s', s.enqueueWrite options write = .ok s') ↔ s.pending < limit) ∧
    ((initial files mtime).Bounded n → s.Bounded n) ∧
    ∀ a s', s.Works a → s.step hashName options a = some s' →
      s.isEnforcing = true → s'.isEnforcing = false →
        ∀ t, Reaches (step hashName options) Works s' t → t.Bounded n := by
  have hinv := inv_of_reaches hmax h inv_initial
  have hqueued : Queued options s :=
    h.invariant (fun _ _ _ hqueued _ hstep => hqueued.step hstep) queued_initial
  refine ⟨fun limit hlimit => ⟨hqueued.limit limit hlimit, fun write => ?_⟩,
    fun hfiles => bounded_of_reaches hmax h inv_initial hfiles,
    fun a s' hworks hstep henforcing hends t ht => ?_⟩
  · rw [enqueueWrite_isOk_iff, hqueued.depth]
    exact ⟨fun hall => hall limit hlimit, fun hlt limit' hlimit' => by
      cases hlimit.symm.trans hlimit'
      exact hlt⟩
  · exact bounded_of_reaches hmax ht (hinv.step hmax hworks hstep)
      (Bounded.of_enforced hmax hinv hworks hstep henforcing hends)

def oneFile : Options := ⟨some 1, none, fun _ h => by cases h; decide, fun _ h => by cases h⟩

/-- After the rename to `a.lc` the old file has to go. -/
def keepOne : List (Action ℕ) :=
  [.readdir (some ["old.lc", "a.lc"]), .stat "a.lc" true, .stat "old.lc" true, .sort,
    .unlink "old.lc" true]

def firstSet : List (Action ℕ) :=
  [.enqueueWrite (.set "a"), .start, .writeFile "1" 1 true, .rename true]

theorem directory_bounded_oneFile :
    ∃ s, run (step id oneFile) (initial {"old.lc"} fun _ => 0) (firstSet ++ keepOne) = some s ∧
      ∃ t, s.step id oneFile .finish = some t ∧ t.Bounded 1 := by
  have hrun : run (step id oneFile) (initial {"old.lc"} fun _ => 0) (firstSet ++ keepOne) =
      some _ := rfl
  have hafter := (directory_bounded rfl (reaches_of_run Works hrun (by decide))).2.2
    .finish _ trivial rfl rfl rfl
  exact ⟨_, rfl, _, rfl, hafter _ .refl⟩

end LayerCache.DiskFiles
