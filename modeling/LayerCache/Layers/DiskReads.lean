import LayerCache.Layers.KeyBinding
import LayerCache.Transition.Run

/-! # Reads of the disk layer beside its writes

The file-system steps of one disk layer. Writes wait in a queue and run one after the other:
a `set` fills a temporary file and renames it over the file of the key, a deletion unlinks
files. Reads run beside them, and a read that finds no file, or one it has to clean up,
unlinks the path it has opened.
-/

namespace LayerCache.DiskReads

open Json Transition

/-- The reads: `getEntry` and `has`; `ttl`, which leaves expired files alone; and the scans of
`keys` and `size`, which read every file they list. -/
inductive ReadKind
  | getEntry
  | ttl
  | scan
  deriving DecidableEq

inductive Write (T : Type)
  | set (key : String) (value : Value) (ttl : Option T) (iv : Iv)
  | delete (keys : List String)
  | clear

inductive Running (T : Type)
  /-- The temporary file is there and has to be renamed. -/
  | renaming (entry : DiskEntry T) (iv : Iv)
  | unlinking (paths : List String)

/-- Where a read is. `renames` is how often a `set` had renamed a file to the path when the
read opened it. -/
inductive Reader
  | idle
  | opened (kind : ReadKind) (path : String) (raw : Bytes) (renames : ℕ)
  | cleaning (path : String) (renames : ℕ)
  deriving DecidableEq

/-- An error of `open` or `read` is a read that does not succeed. -/
inductive Action (ι T : Type)
  | tick (now : T)
  | enqueueWrite (write : Write T)
  | start (names : List String)
  | rename
  | fail
  | unlink (path : String)
  | finish
  | open (i : ι) (kind : ReadKind) (path : String) (succeeds : Bool)
  | read (i : ι) (succeeds : Bool)
  | safeDelete (i : ι)

structure State (ι T : Type) where
  now : T
  files : String → Option Bytes
  writeQueue : List (Write T)
  running : Option (Running T)
  readers : ι → Reader
  /-- How often a `set` has renamed a file to the path. -/
  renames : String → ℕ
  /-- What the last write to the path has stored, if it was a `set`. -/
  last : String → Option (DiskEntry T × Iv)

section Steps
variable {ι T : Type} [DecidableEq ι] [LinearOrder T] [Zero T] [Add T] (layer : DiskLayer)
  (platform : DiskPlatform T)

/-- A read of the kind cleans a file with these bytes up. -/
def cleansUp (kind : ReadKind) (now : T) (raw : Bytes) : Bool :=
  match layer.readEntryFile (some raw) with
  | none => true
  | some raw =>
    match layer.deserializeEntry platform raw with
    | .error _ => true
    | .ok entry => decide (kind ≠ .ttl) && decide (∃ t ∈ entry.expiresAt, t ≤ now)

namespace State
variable (s : State ι T)

def become (i : ι) (reader : Reader) : State ι T :=
  { s with readers := Function.update s.readers i reader }

def unlinkFile (path : String) : State ι T :=
  { s with files := Function.update s.files path none }

/-- What a write does first: a `set` writes its temporary file, `clear` lists the directory. -/
def begun (names : List String) : Write T → Running T
  | .set key value ttl iv => .renaming ⟨key, value, deadline s.now ttl⟩ iv
  | .delete keys => .unlinking (keys.map (layer.keyToPath platform))
  | .clear => .unlinking names

def renamed (entry : DiskEntry T) (iv : Iv) : State ι T :=
  let path := layer.keyToPath platform entry.key
  { s with
    files := Function.update s.files path (some (layer.file platform entry iv))
    running := none
    renames := Function.update s.renames path (s.renames path + 1)
    last := Function.update s.last path (some (entry, iv)) }

def step : Action ι T → Option (State ι T)
  | .tick now => if s.now ≤ now then some { s with now } else none
  | .enqueueWrite write => some { s with writeQueue := s.writeQueue ++ [write] }
  | .start names =>
    match s.running, s.writeQueue with
    | none, write :: rest =>
      some { s with writeQueue := rest, running := some (s.begun layer platform names write) }
    | _, _ => none
  | .rename =>
    match s.running with
    | some (.renaming entry iv) => some (s.renamed layer platform entry iv)
    | _ => none
  | .fail =>
    match s.running with
    | some (.renaming _ _) => some { s with running := none }
    | _ => none
  | .unlink path =>
    match s.running with
    | some (.unlinking paths) =>
      if path ∈ paths then
        some { s.unlinkFile path with
          running := some (.unlinking (paths.erase path))
          last := Function.update s.last path none }
      else none
    | _ => none
  | .finish =>
    match s.running with
    | some (.unlinking []) => some { s with running := none }
    | _ => none
  | .open i kind path succeeds =>
    match s.readers i with
    | .idle =>
      some (s.become i (match (s.files path).filter fun _ => succeeds with
        | some raw => .opened kind path raw (s.renames path)
        | none => .cleaning path (s.renames path)))
    | _ => none
  | .read i succeeds =>
    match s.readers i with
    | .opened kind path raw renames =>
      some (s.become i
        (if succeeds = false ∨ cleansUp layer platform kind s.now raw = true
          then .cleaning path renames else .idle))
    | _ => none
  | .safeDelete i =>
    match s.readers i with
    | .cleaning path _ => some ((s.unlinkFile path).become i .idle)
    | _ => none

/-- What the directory holds at first, and no call has begun. -/
def initial (files : String → Option Bytes) (now : T) : State ι T where
  now
  files
  writeQueue := []
  running := none
  readers _ := .idle
  renames _ := 0
  last _ := none

def Settled : Prop := s.writeQueue = [] ∧ s.running = none ∧ ∀ i, s.readers i = .idle

/-- A read now finds what the last write to the file of a key has stored, unless it has
expired. -/
def Preserved : Prop :=
  ∀ key entry iv, s.last (layer.keyToPath platform key) = some (entry, iv) →
    (∀ t ∈ entry.expiresAt, s.now < t) →
      (layer.getEntry platform (s.files (layer.keyToPath platform key)) s.now).1 = some entry.value

/-- The step keeps files: a value that is set is within the limits of a read, only a file that
is not there fails to open, and no read cleans a path up to which a `set` has renamed since
the read opened it. -/
def KeepsFiles (s : State ι T) : Action ι T → Prop
  | .start _ => ∀ key value ttl iv rest, s.writeQueue = .set key value ttl iv :: rest →
      WellFormed value ∧ strip value = value ∧ layer.Reads platform ⟨key, value, deadline s.now ttl⟩
  | .open _ _ path succeeds => succeeds = false → s.files path = none
  | .read _ succeeds => succeeds = true
  | .safeDelete i => ∀ path renames, s.readers i = .cleaning path renames → s.renames path = renames
  | _ => True

end State

end Steps

section CleansUp
variable {T : Type} [LinearOrder T] {layer : DiskLayer}
  {platform : DiskPlatform T} {now : T} {raw : Bytes} {entry : DiskEntry T}

theorem cleansUp_iff :
    cleansUp layer platform .getEntry now raw = true ↔
      layer.getEntry platform (some raw) now = (none, none) := by
  unfold cleansUp DiskLayer.getEntry
  cases layer.readEntryFile (some raw) with
  | none => simp
  | some raw =>
    cases hentry : layer.deserializeEntry platform raw with
    | error => simp [hentry]
    | ok entry =>
      cases hexpiry : entry.expiresAt with
      | none => simp [hentry, hexpiry]
      | some t => by_cases ht : t ≤ now <;> simp [hentry, hexpiry, ht]

theorem cleansUp_getEntry {kind : ReadKind} (h : cleansUp layer platform kind now raw = true) :
    cleansUp layer platform .getEntry now raw = true := by
  unfold cleansUp at h ⊢
  cases hfile : layer.readEntryFile (some raw) with
  | none => rfl
  | some raw =>
    cases hentry : layer.deserializeEntry platform raw with
    | error => simp [hentry]
    | ok entry =>
      simp only [hfile, hentry, Bool.and_eq_true, decide_eq_true_eq] at h ⊢
      exact ⟨by decide, h.2⟩

structure Readable (layer : DiskLayer) (platform : DiskPlatform T) (entry : DiskEntry T) :
    Prop where
  wellFormed : WellFormed entry.value
  plain : strip entry.value = entry.value
  reads : layer.Reads platform entry

theorem Readable.getEntry (h : Readable layer platform entry) {iv : Iv}
    (hlive : ∀ t ∈ entry.expiresAt, now < t) :
    layer.getEntry platform (some (layer.file platform entry iv)) now =
      (some entry.value, some (layer.file platform entry iv)) := by
  rw [getEntry_of_reads iv h.wellFormed h.reads hlive, h.plain]

def Expired (entry : DiskEntry T) (now : T) : Prop := ¬ ∀ t ∈ entry.expiresAt, now < t

theorem Expired.mono {later : T} (h : Expired entry now) (hle : now ≤ later) :
    Expired entry later :=
  fun hlive => h fun t ht => hle.trans_lt (hlive t ht)

theorem Readable.expired (h : Readable layer platform entry) {iv : Iv} {kind : ReadKind}
    (hclean : cleansUp layer platform kind now (layer.file platform entry iv) = true) :
    Expired entry now := by
  intro hlive
  have hnone := cleansUp_iff.mp (cleansUp_getEntry hclean)
  rw [h.getEntry hlive] at hnone
  cases hnone

end CleansUp

section Invariant
variable {ι T : Type} [LinearOrder T] {layer : DiskLayer}
  {platform : DiskPlatform T} {s s' : State ι T}

/-- The file of the last `set` is there until it expires, and a read that has opened the path
since has its bytes, or cleans it up only because it has expired. -/
structure Inv (layer : DiskLayer) (platform : DiskPlatform T) (s : State ι T) : Prop where
  running : ∀ entry iv, s.running = some (.renaming entry iv) → Readable layer platform entry
  readable : ∀ path entry iv, s.last path = some (entry, iv) → Readable layer platform entry
  file : ∀ path entry iv, s.last path = some (entry, iv) →
    s.files path = some (layer.file platform entry iv) ∨ Expired entry s.now
  opened : ∀ i kind path raw renames, s.readers i = .opened kind path raw renames →
    renames ≤ s.renames path ∧ (s.renames path = renames →
      ∀ entry iv, s.last path = some (entry, iv) →
        raw = layer.file platform entry iv ∨ Expired entry s.now)
  cleaning : ∀ i path renames, s.readers i = .cleaning path renames →
    renames ≤ s.renames path ∧ (s.renames path = renames →
      ∀ entry iv, s.last path = some (entry, iv) → Expired entry s.now)

theorem inv_initial (files : String → Option Bytes) (now : T) :
    Inv layer platform (State.initial files now : State ι T) := by
  constructor <;> intros <;> contradiction

theorem Inv.preserved (h : Inv layer platform s) : s.Preserved layer platform := by
  intro key entry iv hlast hlive
  rcases h.file _ entry iv hlast with hfile | hexpired
  · rw [hfile, (h.readable _ entry iv hlast).getEntry hlive]
  · exact absurd hlive hexpired

theorem Inv.tick (h : Inv layer platform s) {now : T} (hle : s.now ≤ now) :
    Inv layer platform { s with now } where
  running := h.running
  readable := h.readable
  file path entry iv hlast := (h.file path entry iv hlast).imp_right fun hexpired =>
    hexpired.mono hle
  opened i kind path raw renames hreader := by
    obtain ⟨hle', hopened⟩ := h.opened i kind path raw renames hreader
    exact ⟨hle', fun hsame entry iv hlast =>
      (hopened hsame entry iv hlast).imp_right fun hexpired => hexpired.mono hle⟩
  cleaning i path renames hreader := by
    obtain ⟨hle', hcleaning⟩ := h.cleaning i path renames hreader
    exact ⟨hle', fun hsame entry iv hlast => (hcleaning hsame entry iv hlast).mono hle⟩

theorem Inv.withRunning (h : Inv layer platform s) {running : Option (Running T)}
    {writeQueue : List (Write T)}
    (hrunning : ∀ entry iv, running = some (.renaming entry iv) → Readable layer platform entry) :
    Inv layer platform { s with running, writeQueue } where
  running := hrunning
  readable := h.readable
  file := h.file
  opened := h.opened
  cleaning := h.cleaning

theorem Inv.unlinkFile (h : Inv layer platform s) {path : String}
    (hpath : ∀ entry iv, s.last path = some (entry, iv) → Expired entry s.now) :
    Inv layer platform (s.unlinkFile path) where
  running := h.running
  readable := h.readable
  file p entry iv hlast := by
    by_cases hp : p = path
    · subst hp
      exact Or.inr (hpath entry iv hlast)
    · simp only [State.unlinkFile, Function.update_of_ne hp]
      exact h.file p entry iv hlast
  opened := h.opened
  cleaning := h.cleaning

theorem Inv.forget (h : Inv layer platform s) {path : String} :
    Inv layer platform { s with last := Function.update s.last path none } := by
  have hlast : ∀ {p : String} {entry : DiskEntry T} {iv : Iv},
      Function.update s.last path none p = some (entry, iv) → s.last p = some (entry, iv) := by
    intro p entry iv hlast
    by_cases hp : p = path
    · subst hp
      rw [Function.update_self] at hlast
      cases hlast
    · rwa [Function.update_of_ne hp] at hlast
  constructor
  · exact h.running
  · exact fun p entry iv hp => h.readable p entry iv (hlast hp)
  · exact fun p entry iv hp => h.file p entry iv (hlast hp)
  · intro i kind p raw renames hreader
    obtain ⟨hle, hopened⟩ := h.opened i kind p raw renames hreader
    exact ⟨hle, fun hsame entry iv hp => hopened hsame entry iv (hlast hp)⟩
  · intro i p renames hreader
    obtain ⟨hle, hcleaning⟩ := h.cleaning i p renames hreader
    exact ⟨hle, fun hsame entry iv hp => hcleaning hsame entry iv (hlast hp)⟩

/-- A rename makes every read that has opened the path before one of an older file. -/
theorem Inv.renamed (h : Inv layer platform s) {entry : DiskEntry T} {iv : Iv}
    (hreadable : Readable layer platform entry) :
    Inv layer platform (s.renamed layer platform entry iv) := by
  constructor
  · intro entry' iv' hrunning
    cases hrunning
  · intro p entry' iv' hlast
    by_cases hp : p = layer.keyToPath platform entry.key
    · subst hp
      simp only [State.renamed, Function.update_self] at hlast
      cases hlast
      exact hreadable
    · simp only [State.renamed, Function.update_of_ne hp] at hlast
      exact h.readable p entry' iv' hlast
  · intro p entry' iv' hlast
    by_cases hp : p = layer.keyToPath platform entry.key
    · subst hp
      simp only [State.renamed, Function.update_self] at hlast ⊢
      cases hlast
      exact Or.inl rfl
    · simp only [State.renamed, Function.update_of_ne hp] at hlast ⊢
      exact h.file p entry' iv' hlast
  · intro i kind p raw renames hreader
    obtain ⟨hle, hopened⟩ := h.opened i kind p raw renames hreader
    by_cases hp : p = layer.keyToPath platform entry.key
    · subst hp
      simp only [State.renamed, Function.update_self]
      exact ⟨Nat.le_succ_of_le hle, fun hsame => by omega⟩
    · simp only [State.renamed, Function.update_of_ne hp]
      exact ⟨hle, hopened⟩
  · intro i p renames hreader
    obtain ⟨hle, hcleaning⟩ := h.cleaning i p renames hreader
    by_cases hp : p = layer.keyToPath platform entry.key
    · subst hp
      simp only [State.renamed, Function.update_self]
      exact ⟨Nat.le_succ_of_le hle, fun hsame => by omega⟩
    · simp only [State.renamed, Function.update_of_ne hp]
      exact ⟨hle, hcleaning⟩

variable [DecidableEq ι]

theorem Inv.become (h : Inv layer platform s) {i : ι} {reader : Reader}
    (hopened : ∀ kind path raw renames, reader = .opened kind path raw renames →
      renames ≤ s.renames path ∧ (s.renames path = renames →
        ∀ entry iv, s.last path = some (entry, iv) →
          raw = layer.file platform entry iv ∨ Expired entry s.now))
    (hcleaning : ∀ path renames, reader = .cleaning path renames →
      renames ≤ s.renames path ∧ (s.renames path = renames →
        ∀ entry iv, s.last path = some (entry, iv) → Expired entry s.now)) :
    Inv layer platform (s.become i reader) := by
  have hreaders : ∀ j, (s.become i reader).readers j = if j = i then reader else s.readers j :=
    fun j => Function.update_apply _ _ _ _
  refine ⟨h.running, h.readable, h.file, ?_, ?_⟩
  · intro j kind path raw renames hreader
    rw [hreaders] at hreader
    split at hreader
    · exact hopened kind path raw renames hreader
    · exact h.opened j kind path raw renames hreader
  · intro j path renames hreader
    rw [hreaders] at hreader
    split at hreader
    · exact hcleaning path renames hreader
    · exact h.cleaning j path renames hreader

theorem Inv.open (h : Inv layer platform s) {i : ι} {kind : ReadKind} {path : String}
    {succeeds : Bool} (hok : succeeds = false → s.files path = none) :
    Inv layer platform (s.become i (match (s.files path).filter fun _ => succeeds with
      | some raw => .opened kind path raw (s.renames path)
      | none => .cleaning path (s.renames path))) := by
  cases hfound : (s.files path).filter fun _ => succeeds with
  | some raw =>
    have hfile : s.files path = some raw := (Option.filter_eq_some_iff.mp hfound).1
    apply h.become
    · rintro _ _ _ _ ⟨⟩
      refine ⟨le_rfl, fun _ entry iv hlast => (h.file path entry iv hlast).imp_left fun hsame => ?_⟩
      rw [hfile] at hsame
      exact Option.some.inj hsame
    · rintro _ _ ⟨⟩
  | none =>
    have hfile : s.files path = none := by
      cases succeeds with
      | false => exact hok rfl
      | true => simpa [Option.eq_none_iff_forall_ne_some] using hfound
    apply h.become
    · rintro _ _ _ _ ⟨⟩
    · rintro _ _ ⟨⟩
      refine ⟨le_rfl, fun _ entry iv hlast => (h.file path entry iv hlast).resolve_left ?_⟩
      rw [hfile]
      exact (Option.some_ne_none _).symm

variable [Zero T] [Add T]

theorem Inv.step (h : Inv layer platform s) {a : Action ι T} (hok : s.KeepsFiles layer platform a)
    (hstep : s.step layer platform a = some s') : Inv layer platform s' := by
  cases a with
  | tick now =>
    unfold State.step at hstep
    simp only at hstep
    split at hstep
    · cases hstep
      exact h.tick ‹_›
    · cases hstep
  | enqueueWrite write =>
    cases hstep
    exact h.withRunning h.running
  | start names =>
    unfold State.step at hstep
    simp only at hstep
    split at hstep
    · rename_i write rest _ hqueue
      cases hstep
      apply h.withRunning
      intro entry iv hrunning
      cases write with
      | set key value ttl iv' =>
        cases hrunning
        obtain ⟨hwf, hplain, hreads⟩ := hok key value ttl iv rest hqueue
        exact ⟨hwf, hplain, hreads⟩
      | delete keys => cases hrunning
      | clear => cases hrunning
    · cases hstep
  | rename =>
    unfold State.step at hstep
    simp only at hstep
    split at hstep
    · rename_i entry iv hrunning
      cases hstep
      exact h.renamed (h.running entry iv hrunning)
    · cases hstep
  | fail =>
    unfold State.step at hstep
    simp only at hstep
    split at hstep
    · cases hstep
      exact h.withRunning fun _ _ hrunning => by cases hrunning
    · cases hstep
  | unlink path =>
    unfold State.step at hstep
    simp only at hstep
    split at hstep
    · split at hstep
      · cases hstep
        have hforget : Inv layer platform { s with last := Function.update s.last path none } :=
          h.forget
        refine (hforget.unlinkFile ?_).withRunning fun _ _ hrunning => by cases hrunning
        intro entry iv hlast
        simp only [Function.update_self] at hlast
        cases hlast
      · cases hstep
    · cases hstep
  | finish =>
    unfold State.step at hstep
    simp only at hstep
    split at hstep
    · cases hstep
      exact h.withRunning fun _ _ hrunning => by cases hrunning
    · cases hstep
  | «open» i kind path succeeds =>
    unfold State.step at hstep
    simp only at hstep
    split at hstep
    · cases hstep
      exact h.open hok
    · cases hstep
  | read i succeeds =>
    unfold State.step at hstep
    simp only at hstep
    split at hstep
    · rename_i kind path raw renames hreader
      cases hstep
      obtain ⟨hle, hopened⟩ := h.opened i kind path raw renames hreader
      have hsucceeds : succeeds = true := hok
      apply h.become
      · rintro _ _ _ _ hreader'
        split at hreader' <;> cases hreader'
      · intro path' renames' hreader'
        split at hreader'
        · rename_i hclean
          cases hreader'
          have hbytes := hclean.resolve_left (by simp [hsucceeds])
          refine ⟨hle, fun hsame entry iv hlast => ?_⟩
          rcases hopened hsame entry iv hlast with rfl | hexpired
          · exact (h.readable path entry iv hlast).expired hbytes
          · exact hexpired
        · cases hreader'
    · cases hstep
  | safeDelete i =>
    unfold State.step at hstep
    simp only at hstep
    split at hstep
    · rename_i path renames hreader
      cases hstep
      have hcleaning := (h.cleaning i path renames hreader).2 (hok path renames hreader)
      apply (h.unlinkFile hcleaning).become
      · rintro _ _ _ _ ⟨⟩
      · rintro _ _ ⟨⟩
    · cases hstep

/-- Reads undo no write in a run whose reads clean up nothing that has been renamed to the path
since they opened it. -/
theorem preserved_of_reaches (files : String → Option Bytes) (now : T)
    (h : Reaches (fun s a => State.step layer platform s a) (State.KeepsFiles layer platform)
      (State.initial files now : State ι T) s) : s.Preserved layer platform := by
  have hinv : Inv layer platform s :=
    h.invariant (fun _ _ _ hs hok hstep => Inv.step hs hok hstep) (inv_initial files now)
  exact hinv.preserved

end Invariant

abbrev start : State Unit ℕ := State.initial (fun _ => none) 0

abbrev stepAlice : State Unit ℕ → Action Unit ℕ → Option (State Unit ℕ) :=
  fun s a => State.step signingLayer .transparent s a

def alicesPath : String := signingLayer.keyToPath .transparent "alice"

def setAlice : Write ℕ := .set alicesWrite.key alicesWrite.value alicesWrite.ttl alicesWrite.iv

/-- A read misses and cleans up before the rename, and another one reads the file after it. -/
def readsAround : List (Action Unit ℕ) :=
  [.enqueueWrite setAlice, .start [], .open () .getEntry alicesPath true, .safeDelete (), .rename,
    .open () .getEntry alicesPath true, .read () true]

theorem preserved_readsAround : ∃ s, run stepAlice start readsAround = some s ∧
    s.last alicesPath = some (alicesWrite.entry, alicesWrite.iv) ∧
    s.Preserved signingLayer .transparent := by
  have hkeeps : Along stepAlice (State.KeepsFiles signingLayer .transparent) start readsAround := by
    refine ⟨trivial, ?_⟩
    rintro s ⟨⟩
    constructor
    · rintro key value ttl iv rest ⟨⟩
      exact ⟨alicesWrite.wellFormed, rfl, alicesWrite_reads⟩
    rintro s ⟨⟩
    constructor
    · rintro ⟨⟩
    rintro s ⟨⟩
    constructor
    · rintro path renames ⟨⟩
      rfl
    rintro s ⟨⟩
    refine ⟨trivial, ?_⟩
    rintro s ⟨⟩
    constructor
    · rintro ⟨⟩
    rintro s hopen
    exact ⟨rfl, fun _ _ => trivial⟩
  have hreaches := reaches_of_run _ rfl hkeeps
  refine ⟨_, rfl, ?_, preserved_of_reaches (fun _ => none) 0 hreaches⟩
  simp [State.renamed, State.become, alicesPath, alicesWrite, DiskWrite.entry, deadline]

/-- A read misses, Alice's value is set, and the read then removes what it takes for missing. -/
theorem not_preserved_missing : ¬ ∀ s, Reaches stepAlice (fun _ _ => True) start s →
    s.Settled → s.Preserved signingLayer .transparent := by
  intro h
  have hall : Along stepAlice (fun _ _ => True) start
      [.open () .getEntry alicesPath true, .enqueueWrite setAlice, .start [], .rename,
        .safeDelete ()] :=
    ⟨trivial, fun _ _ => ⟨trivial, fun _ _ => ⟨trivial, fun _ _ => ⟨trivial, fun _ _ =>
      ⟨trivial, fun _ _ => trivial⟩⟩⟩⟩⟩
  have hreach : Reaches stepAlice (fun _ _ => True) start _ :=
    reaches_of_run (fun _ _ => True) rfl hall
  have hread := h _ hreach ⟨rfl, rfl, fun _ => rfl⟩ "alice" alicesWrite.entry alicesWrite.iv
    (by simp [State.renamed, State.unlinkFile, State.become, alicesWrite, DiskWrite.entry,
      deadline])
    (fun t ht => nomatch ht)
  have hmissing : ∀ now, (signingLayer.getEntry .transparent none now).1 ≠
      some alicesWrite.entry.value := fun _ hnone => by cases hnone
  exact hmissing _ (by simpa [State.unlinkFile, State.become, alicesPath] using hread)

end LayerCache.DiskReads
