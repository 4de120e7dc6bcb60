import LayerCache.Layers.Disk

/-! # Reading a file up to a limit

Files are read in chunks, each asked for into a buffer of what is left of the limit and one
byte more, so that a file beyond the limit gives itself away. A read may give fewer bytes
than it is asked for, and only at the end of the file gives none. However short the reads
are, the loop ends, with the whole content of a file within the limit.
-/

namespace LayerCache

/-- An open file. What a read gives may depend on how many reads there were before. -/
structure FileHandle where
  content : Bytes
  /-- The size that `stat` reports. -/
  size : ℕ
  /-- How many bytes a read gives of `length` asked for at `position`. -/
  bytesRead (reads length position : ℕ) : ℕ
  size_le : size ≤ content.length
  bytesRead_le : ∀ reads length position,
    bytesRead reads length position ≤ min length (content.length - position)
  bytesRead_pos : ∀ reads length position, 0 < length → position < content.length →
    0 < bytesRead reads length position

namespace FileHandle
variable (handle : FileHandle)

def read (reads length position : ℕ) : Bytes :=
  (handle.content.drop position).take (handle.bytesRead reads length position)

def byBytes (content : Bytes) : FileHandle where
  content := content
  size := content.length
  bytesRead _ length position := min 1 (min length (content.length - position))
  size_le := le_rfl
  bytesRead_le _ _ _ := Nat.min_le_right _ _
  bytesRead_pos _ _ _ hlength hposition := by omega

theorem length_read (reads length position : ℕ) :
    (handle.read reads length position).length = handle.bytesRead reads length position := by
  have := handle.bytesRead_le reads length position
  rw [read, List.length_take, List.length_drop]
  omega

end FileHandle

/-- The variables of the loop, and the length of every buffer that a read was issued with. -/
structure ReadLoop where
  chunks : List Bytes
  totalBytes : ℕ
  position : ℕ
  issued : List ℤ

def ReadLoop.start : ReadLoop := ⟨[], 0, 0, []⟩

section Loop
variable (byteLimit : ℕ) (exceeds : ℕ → String) (handle : FileHandle)

/-- A turn of the loop, with the result if it leaves the loop. -/
def ReadLoop.turn (s : ReadLoop) : ReadLoop × Option (Except String Bytes) :=
  let byteLength : ℤ := min (64 * 1024) (byteLimit - s.totalBytes + 1)
  let bytes := handle.read s.issued.length byteLength.toNat s.position
  let s := { s with issued := s.issued ++ [byteLength] }
  if bytes.length = 0 then (s, some (.ok s.chunks.flatten))
  else
    let totalBytes := s.totalBytes + bytes.length
    if totalBytes > byteLimit then (s, some (.error (exceeds totalBytes)))
    else
      ({ s with
        chunks := s.chunks ++ [bytes]
        totalBytes := totalBytes
        position := s.position + bytes.length }, none)

/-- The result and the buffer lengths, if the loop is left within the given number of turns. -/
def readLoop : ℕ → ReadLoop → Option (Except String Bytes × List ℤ)
  | 0, _ => none
  | turns + 1, s =>
    match s.turn byteLimit exceeds handle with
    | (s, some result) => some (result, s.issued)
    | (s, none) => readLoop turns s

end Loop

def entryExceeds (limit total : ℕ) : String :=
  "DiskLayer entry exceeds maxEntryBytes limit (" ++ toString total ++ " bytes > " ++
    toString limit ++ " bytes)."

def snapshotExceeds (limit total : ℕ) : String :=
  "Snapshot file exceeds snapshotMaxBytes limit (" ++ toString total ++ " bytes > " ++
    toString limit ++ " bytes)."

/-- Reads an entry of the disk layer; `none` for `false`, no limit. -/
def readHandleWithLimit (maxEntryBytes : Option ℕ) (handle : FileHandle) (turns : ℕ) :
    Option (Except String Bytes × List ℤ) :=
  match maxEntryBytes with
  | none => some (.ok handle.content, [])
  | some maxEntryBytes =>
    if handle.size > maxEntryBytes then some (.error (entryExceeds maxEntryBytes handle.size), [])
    else readLoop maxEntryBytes (entryExceeds maxEntryBytes) handle turns .start

def readUtf8HandleWithLimit (lossy : Bytes → String) (byteLimit : Option ℕ) (handle : FileHandle)
    (turns : ℕ) : Option (Except String String × List ℤ) :=
  match byteLimit with
  | none => some (.ok (utf8Text lossy handle.content), [])
  | some byteLimit =>
    (readLoop byteLimit (snapshotExceeds byteLimit) handle turns .start).map fun r =>
      (r.1.map (utf8Text lossy), r.2)

variable {byteLimit : ℕ} (exceeds : ℕ → String) {handle : FileHandle} {s : ReadLoop}

/-- The chunks are the file up to the position, and the limit still leaves room for a byte
that gives the file away. -/
structure ReadLoop.Consumed (byteLimit : ℕ) (handle : FileHandle) (s : ReadLoop) : Prop where
  chunks : s.chunks.flatten = handle.content.take s.position
  totalBytes : s.totalBytes = s.position
  within : s.position ≤ byteLimit
  position_le : s.position ≤ handle.content.length
  issued : ∀ length ∈ s.issued, 0 < length

theorem ReadLoop.consumed_start : ReadLoop.start.Consumed byteLimit handle where
  chunks := rfl
  totalBytes := rfl
  within := Nat.zero_le _
  position_le := Nat.zero_le _
  issued := nofun

/-- What a turn comes to: the loop is left at the end of the file, or at the first byte
beyond the limit, or the position moves on. -/
theorem ReadLoop.turn_spec (h : s.Consumed byteLimit handle) :
    ∃ s', (∀ length ∈ s'.issued, 0 < length) ∧
      (handle.content.length ≤ byteLimit ∧
          s.turn byteLimit exceeds handle = (s', some (.ok handle.content)) ∨
        byteLimit < handle.content.length ∧
          s.turn byteLimit exceeds handle = (s', some (.error (exceeds (byteLimit + 1)))) ∨
        s.turn byteLimit exceeds handle = (s', none) ∧ s'.Consumed byteLimit handle ∧
          s.position < s'.position) := by
  obtain ⟨hchunks, htotal, hwithin, hle, hissued⟩ := h
  set byteLength : ℤ := min (64 * 1024) (byteLimit - s.totalBytes + 1) with hlength
  set bytes := handle.read s.issued.length byteLength.toNat s.position with hbytes
  have hpos : 0 < byteLength := by omega
  have hissued' : ∀ length ∈ s.issued ++ [byteLength], 0 < length := by
    intro length hmem
    rcases List.mem_append.mp hmem with hmem | hmem
    · exact hissued length hmem
    · exact List.mem_singleton.mp hmem ▸ hpos
  have hread := handle.length_read s.issued.length byteLength.toNat s.position
  have hmax := handle.bytesRead_le s.issued.length byteLength.toNat s.position
  have hsome := handle.bytesRead_pos s.issued.length byteLength.toNat s.position (by omega)
  rw [← hread, ← hbytes] at hmax hsome
  simp only [ReadLoop.turn, ← hlength, ← hbytes]
  by_cases hend : bytes.length = 0
  · -- an empty read of a buffer that is not empty is the end of the file
    have hposition : s.position = handle.content.length := by
      by_contra hne
      exact absurd hend (hsome (by omega)).ne'
    refine ⟨{ s with issued := s.issued ++ [byteLength] }, hissued', .inl ⟨by omega, ?_⟩⟩
    rw [if_pos hend, hchunks, hposition, List.take_length]
  rw [if_neg hend]
  by_cases hexceeds : s.totalBytes + bytes.length > byteLimit
  · have hone : s.totalBytes + bytes.length = byteLimit + 1 := by omega
    refine ⟨{ s with issued := s.issued ++ [byteLength] }, hissued', .inr (.inl ⟨by omega, ?_⟩)⟩
    rw [if_pos hexceeds, hone]
  · rw [if_neg hexceeds]
    refine ⟨_, hissued', .inr (.inr ⟨rfl, ?_, Nat.lt_add_of_pos_right (by omega)⟩)⟩
    constructor
    case chunks =>
      have htake : bytes = (handle.content.drop s.position).take bytes.length := by
        rw [hread]
        rfl
      rw [List.flatten_append, hchunks, List.flatten_singleton, List.take_add, ← htake]
    case totalBytes => exact congrArg (· + bytes.length) htotal
    case within => exact htotal ▸ Nat.le_of_not_lt hexceeds
    case position_le =>
      change s.position + bytes.length ≤ handle.content.length
      omega
    case issued => exact hissued'

/-- Every turn but the last moves the position on, so the loop is left. -/
theorem readLoop_spec {turns : ℕ} (h : s.Consumed byteLimit handle)
    (hturns : handle.content.length - s.position < turns) :
    ∃ issued : List ℤ, (∀ length ∈ issued, 0 < length) ∧
      ∀ more, turns ≤ more → readLoop byteLimit exceeds handle more s =
        some (if handle.content.length ≤ byteLimit then .ok handle.content
          else .error (exceeds (byteLimit + 1)), issued) := by
  induction turns generalizing s with
  | zero => omega
  | succ turns ih =>
    obtain ⟨s', hissued, ⟨hfits, hturn⟩ | ⟨hexceeds, hturn⟩ | ⟨hturn, h', hlt⟩⟩ :=
      ReadLoop.turn_spec exceeds h
    · refine ⟨s'.issued, hissued, fun more hmore => ?_⟩
      obtain ⟨more, rfl⟩ := Nat.exists_eq_add_of_lt (Nat.lt_of_lt_of_le (Nat.succ_pos _) hmore)
      rw [Nat.zero_add, readLoop, hturn, if_pos hfits]
    · refine ⟨s'.issued, hissued, fun more hmore => ?_⟩
      obtain ⟨more, rfl⟩ := Nat.exists_eq_add_of_lt (Nat.lt_of_lt_of_le (Nat.succ_pos _) hmore)
      rw [Nat.zero_add, readLoop, hturn, if_neg (Nat.not_le.mpr hexceeds)]
    · have hle := h'.position_le
      obtain ⟨issued, hpos, hrest⟩ := ih h' (by omega)
      refine ⟨issued, hpos, fun more hmore => ?_⟩
      obtain ⟨more, rfl⟩ := Nat.exists_eq_add_of_lt (Nat.lt_of_lt_of_le (Nat.succ_pos _) hmore)
      rw [Nat.zero_add, readLoop, hturn]
      exact hrest more (by omega)

/-- A reader of a file comes to an end, whatever the reads give, asks for no empty read, and
returns the whole of a file within the limit and throws on any other. -/
def ReadsWithin {α : Type} (reader : ℕ → Option (Except String α × List ℤ)) (handle : FileHandle)
    (byteLimit : ℕ) (whole : α) : Prop :=
  ∃ outcome issued,
    (∀ turns, handle.content.length < turns → reader turns = some (outcome, issued)) ∧
    (∀ length ∈ issued, 0 < length) ∧
    (handle.content.length ≤ byteLimit → outcome = .ok whole) ∧
    (byteLimit < handle.content.length → ∃ e, outcome = .error e)

theorem readsWithin_loop (byteLimit : ℕ) (exceeds : ℕ → String) (handle : FileHandle) :
    ReadsWithin (fun turns => readLoop byteLimit exceeds handle turns .start) handle byteLimit
      handle.content := by
  obtain ⟨issued, hissued, h⟩ := readLoop_spec exceeds
    (ReadLoop.consumed_start : ReadLoop.start.Consumed byteLimit handle) (Nat.lt_succ_self _)
  refine ⟨_, issued, fun turns hturns => h turns hturns, hissued, fun hfits => if_pos hfits, ?_⟩
  exact fun hlt => ⟨_, if_neg (Nat.not_le.mpr hlt)⟩

theorem readsWithin_limit (byteLimit : ℕ) (lossy : Bytes → String) (handle : FileHandle) :
    ReadsWithin (readHandleWithLimit (some byteLimit) handle) handle byteLimit handle.content ∧
      ReadsWithin (readUtf8HandleWithLimit lossy (some byteLimit) handle) handle byteLimit
        (utf8Text lossy handle.content) := by
  constructor
  · by_cases hsize : handle.size > byteLimit
    · -- the reported size is no larger than the file, so the file is too large
      have hlt := Nat.lt_of_lt_of_le hsize handle.size_le
      refine ⟨_, [], fun turns _ => by rw [readHandleWithLimit, if_pos hsize], nofun,
        fun hfits => absurd hfits (Nat.not_le.mpr hlt), fun _ => ⟨_, rfl⟩⟩
    · obtain ⟨outcome, issued, h⟩ := readsWithin_loop byteLimit (entryExceeds byteLimit) handle
      refine ⟨outcome, issued, fun turns hturns => ?_, h.2⟩
      rw [readHandleWithLimit, if_neg hsize]
      exact h.1 turns hturns
  · obtain ⟨outcome, issued, hread, hissued, hok, herror⟩ :=
      readsWithin_loop byteLimit (snapshotExceeds byteLimit) handle
    refine ⟨outcome.map (utf8Text lossy), issued, fun turns hturns => ?_, hissued,
      fun hfits => ?_, fun hlt => ?_⟩
    · have hloop : readLoop byteLimit (snapshotExceeds byteLimit) handle turns .start =
          some (outcome, issued) := hread turns hturns
      rw [readUtf8HandleWithLimit, hloop]
      rfl
    · rw [hok hfits]
      rfl
    · obtain ⟨e, he⟩ := herror hlt
      exact ⟨e, by rw [he]; rfl⟩

example : readHandleWithLimit (some 2) (.byBytes [1, 2]) 3 = some (.ok [1, 2], [3, 2, 1]) := rfl

theorem readUtf8HandleWithLimit_eq (lossy : Bytes → String) (byteLimit : Option ℕ)
    (handle : FileHandle) {turns : ℕ} (hturns : handle.content.length < turns) :
    (readUtf8HandleWithLimit lossy byteLimit handle turns).map (·.1) =
      some (if ∃ limit ∈ byteLimit, handle.content.length > limit then
          .error (snapshotExceeds (byteLimit.getD 0) (byteLimit.getD 0 + 1))
        else .ok (utf8Text lossy handle.content)) := by
  cases byteLimit with
  | none => simp [readUtf8HandleWithLimit]
  | some byteLimit =>
    obtain ⟨issued, -, hloop⟩ := readLoop_spec (snapshotExceeds byteLimit)
      (ReadLoop.consumed_start : ReadLoop.start.Consumed byteLimit handle) (Nat.lt_succ_self _)
    rw [readUtf8HandleWithLimit, hloop turns hturns]
    by_cases hfits : handle.content.length ≤ byteLimit
    · simp [hfits, Except.map]
    · simp [hfits, Nat.lt_of_not_le hfits, Except.map]

end LayerCache
