import LayerCache.Stack.Effect
import LayerCache.Store.Fencing

/-! # From stack steps to store steps

Every fence that an operation of the stack holds is one that was current when it was
captured. Hence every step of the stack makes one of the changes to the store that the
store's invariants are kept by.
-/

namespace LayerCache

open Store

variable {K V T : Type} {cfg : Config} {s s' : Stack K V T} {n captured : ℕ} {k : K} {f : Fence}

theorem update_eq_some {α : Type*} {table : ℕ → Option α} {i j : ℕ} {x y : α}
    (h : Function.update table i (some x) j = some y) :
    (j = i ∧ y = x) ∨ (j ≠ i ∧ table j = some y) := by
  by_cases hj : j = i
  · subst hj
    simp only [Function.update_self, Option.some.injEq] at h
    exact .inl ⟨rfl, h.symm⟩
  · rw [Function.update_of_ne hj] at h
    exact .inr ⟨hj, h⟩

/-- A write-behind operation has not begun, writes its own keys, and its cleanup covers all it
writes. -/
structure Deferred.Planned (d : Deferred K V) : Prop where
  phase : d.strand.phase = .planned
  keys : ∀ p ∈ d.strand.puts, p.key ∈ d.keys
  sweep : ∀ p ∈ d.strand.puts, p.layer ∈ d.strand.sweep

theorem Reader.next_same (reader : Reader K V) (layers : ℕ) :
    (reader.next layers).key = reader.key ∧ (reader.next layers).fence = reader.fence ∧
      (reader.next layers).captured = reader.captured := by
  rcases reader.next_cases layers with ⟨-, h⟩ | ⟨-, -, h⟩ | ⟨-, -, h⟩ <;> simp [h]

theorem Reader.Resumes.same {layers : ℕ} {now : Millis} {reader reader' : Reader K V}
    (h : reader.Resumes layers now reader') :
    reader'.key = reader.key ∧ reader'.fence = reader.fence ∧
      reader'.captured = reader.captured := by
  cases h with
  | empty => exact Reader.next_same reader layers
  | unfresh => exact Reader.next_same { reader with sawRetainableValue := true } layers
  | expired | hit => exact ⟨rfl, rfl, rfl⟩

namespace Stack

/-- The write-behind operations that a writer, the queue or a flush holds. -/
inductive Carries (s : Stack K V T) : Deferred K V → Prop
  | writer {w : ℕ} {writer : Writer K V T} (h : s.writers w = some writer) {d : Deferred K V}
      (hd : d ∈ writer.deferred) : Carries s d
  | queue {d : Deferred K V} (hd : d ∈ s.writeBehindQueue) : Carries s d
  | flushing {batch : List (Deferred K V)} {running : Option ℕ}
      (h : s.flushing = some (batch, running)) {d : Deferred K V} (hd : d ∈ batch) : Carries s d

/-- The fences that the records of a stack hold, each with its key and the step of its capture. -/
inductive Caught (s : Stack K V T) : K → Fence → ℕ → Prop
  | reader {r : ℕ} {reader : Reader K V} (h : s.readers r = some reader) :
      Caught s reader.key reader.fence reader.captured
  | get {g : ℕ} {get : Get K V} (h : s.gets g = some get) : Caught s get.key get.fence g
  | task {i : ℕ} {task : Task K V} (h : s.tasks i = some task) :
      Caught s task.key task.fence task.captured
  | writer {w : ℕ} {writer : Writer K V T} (h : s.writers w = some writer) (k : K) :
      Caught s k (writer.fence k) w
  | deferred {d : Deferred K V} (hd : s.Carries d) {k : K} (hk : k ∈ d.keys) :
      Caught s k (d.fence k) d.captured

/-- A write-behind operation with a fence that is caught, or just being captured. -/
structure Defers (s : Stack K V T) [DecidableEq K] (d : Deferred K V) : Prop where
  planned : d.Planned
  captured : (∃ k f, s.Caught k f d.captured) ∨ d.captured = s.clock
  fence : ∀ k ∈ d.keys, s.Caught k (d.fence k) d.captured ∨
    (d.fence k = s.store.epochs.fence k ∧ d.captured = s.clock)

/-- Everything that holds a fence after the step held it before, or has just captured it. -/
structure Inherits (s s' : Stack K V T) [DecidableEq K] : Prop where
  reader : ∀ r reader, s'.readers r = some reader →
    s.Caught reader.key reader.fence reader.captured ∨
      (reader.fence = s.store.epochs.fence reader.key ∧ reader.captured = s.clock)
  get : ∀ g get, s'.gets g = some get → s.Caught get.key get.fence g ∨
    (get.fence = s.store.epochs.fence get.key ∧ g = s.clock)
  task : ∀ i task, s'.tasks i = some task → s.Caught task.key task.fence task.captured ∨
    (task.fence = s.store.epochs.fence task.key ∧ task.captured = s.clock)
  writer : ∀ w writer, s'.writers w = some writer → (∀ k, s.Caught k (writer.fence k) w) ∨
    (writer.fence = s.store.epochs.fence ∧ w = s.clock)
  carries : ∀ d, s'.Carries d → s.Carries d ∨ s.Defers d

variable [DecidableEq K]

theorem Inherits.caught (h : s.Inherits s') (hc : s'.Caught k f captured) :
    s.Caught k f captured ∨ (f = s.store.epochs.fence k ∧ captured = s.clock) := by
  cases hc with
  | reader hr => exact h.reader _ _ hr
  | get hg => exact h.get _ _ hg
  | task hi => exact h.task _ _ hi
  | writer hw k =>
    rcases h.writer _ _ hw with h | ⟨hf, hw⟩
    · exact .inl (h k)
    · exact .inr ⟨by rw [hf], hw⟩
  | deferred hd hk =>
    rcases h.carries _ hd with hd | hd
    · exact .inl (Caught.deferred (s := s) hd hk)
    · exact hd.fence _ hk

theorem Inherits.refl (s : Stack K V T) : s.Inherits s where
  reader _ _ h := .inl (.reader h)
  get _ _ h := .inl (.get h)
  task _ _ h := .inl (.task h)
  writer _ _ h := .inl fun k => Caught.writer (s := s) h k
  carries _ h := .inl h

variable {s₁ : Stack K V T}

theorem Inherits.congr (h : s.Inherits s₁) (hr : s'.readers = s₁.readers) (hg : s'.gets = s₁.gets)
    (ht : s'.tasks = s₁.tasks) (hw : s'.writers = s₁.writers)
    (hd : ∀ d, s'.Carries d → s₁.Carries d) : s.Inherits s' where
  reader := hr ▸ h.reader
  get := hg ▸ h.get
  task := ht ▸ h.task
  writer := hw ▸ h.writer
  carries d hc := h.carries d (hd d hc)

omit [DecidableEq K] in
theorem Carries.congr {d : Deferred K V} (h : s'.Carries d) (hw : s'.writers = s.writers)
    (hq : ∀ d ∈ s'.writeBehindQueue, d ∈ s.writeBehindQueue) (hf : s'.flushing = s.flushing) :
    s.Carries d := by
  cases h with
  | writer h hd => exact .writer (hw ▸ h) hd
  | queue hd => exact .queue (hq _ hd)
  | flushing h hd => exact .flushing (hf ▸ h) hd

theorem Inherits.putReader (h : s.Inherits s₁) {r : ℕ} {reader : Reader K V}
    (hr : s.Caught reader.key reader.fence reader.captured ∨
      (reader.fence = s.store.epochs.fence reader.key ∧ reader.captured = s.clock)) :
    s.Inherits (s₁.putReader r reader) where
  __ := h
  reader r' reader' hr' := by
    rcases update_eq_some hr' with ⟨-, rfl⟩ | ⟨-, hr'⟩
    · exact hr
    · exact h.reader r' reader' hr'
  carries d hd := h.carries d (hd.congr rfl (fun _ => id) rfl)

theorem Inherits.putGet (h : s.Inherits s₁) {g : ℕ} {get : Get K V}
    (hg : s.Caught get.key get.fence g ∨
      (get.fence = s.store.epochs.fence get.key ∧ g = s.clock)) :
    s.Inherits (s₁.putGet g get) where
  __ := h
  get g' get' hg' := by
    rcases update_eq_some hg' with ⟨rfl, rfl⟩ | ⟨-, hg'⟩
    · exact hg
    · exact h.get g' get' hg'
  carries d hd := h.carries d (hd.congr rfl (fun _ => id) rfl)

theorem Inherits.putTask (h : s.Inherits s₁) {i : ℕ} {task : Task K V}
    (hi : s.Caught task.key task.fence task.captured ∨
      (task.fence = s.store.epochs.fence task.key ∧ task.captured = s.clock)) :
    s.Inherits (s₁.putTask i task) where
  __ := h
  task i' task' hi' := by
    rcases update_eq_some hi' with ⟨-, rfl⟩ | ⟨-, hi'⟩
    · exact hi
    · exact h.task i' task' hi'
  carries d hd := h.carries d (hd.congr rfl (fun _ => id) rfl)

theorem Inherits.putWriter (h : s.Inherits s₁) {w : ℕ} {writer : Writer K V T}
    (hw : (∀ k, s.Caught k (writer.fence k) w) ∨
      (writer.fence = s.store.epochs.fence ∧ w = s.clock))
    (hd : ∀ d ∈ writer.deferred, s.Carries d ∨ s.Defers d) :
    s.Inherits (s₁.putWriter w writer) where
  __ := h
  writer w' writer' hw' := by
    rcases update_eq_some hw' with ⟨rfl, rfl⟩ | ⟨-, hw'⟩
    · exact hw
    · exact h.writer w' writer' hw'
  carries d hc := by
    cases hc with
    | writer hw' hmem =>
      rcases update_eq_some hw' with ⟨rfl, rfl⟩ | ⟨-, hw'⟩
      · exact hd d hmem
      · exact h.carries d (.writer hw' hmem)
    | queue hmem => exact h.carries d (.queue hmem)
    | flushing hf hmem => exact h.carries d (.flushing (s := s₁) hf hmem)

theorem Inherits.writerPhase {w : ℕ} {writer : Writer K V T} (hw : s.writers w = some writer)
    (phase : WritePhase K T) : s.Inherits (s.putWriter w { writer with phase }) :=
  (Inherits.refl s).putWriter (.inl fun k => Caught.writer (s := s) hw k)
    fun _ hd => .inl (.writer hw hd)

section Steps

theorem Inherits.keepReader {r : ℕ} {reader reader' : Reader K V} (hr : s.readers r = some reader)
    (hkey : reader'.key = reader.key) (hfence : reader'.fence = reader.fence)
    (hcap : reader'.captured = reader.captured) : s.Inherits (s.putReader r reader') :=
  (Inherits.refl s).putReader (.inl (by rw [hkey, hfence, hcap]; exact .reader hr))

theorem inherits_openReader (s : Stack K V T) (key : K) (mode : ReadMode) :
    s.Inherits (s.openReader key mode) :=
  (Inherits.refl s).putReader (.inr ⟨rfl, rfl⟩)

theorem inherits_readStep [DecidableEq T] {a : ReadAction K} (h : s.readStep cfg a = some s') :
    s.Inherits s' := by
  cases a with
  | read key =>
    cases h
    exact inherits_openReader s key .allowStale
  | load r =>
    obtain ⟨reader, hr, -, rfl⟩ := load_spec h
    exact .keepReader hr rfl rfl rfl
  | resume r =>
    obtain ⟨reader, reader', index, hr, hres, -, rfl⟩ := resume_spec h
    obtain ⟨hk, hf, hc⟩ := hres.same
    exact (Inherits.keepReader hr hk hf hc).congr rfl rfl rfl rfl fun _ hd =>
      hd.congr rfl (fun _ => id) rfl
  | purge r =>
    obtain ⟨reader, hr, -, rfl⟩ := purge_spec h
    obtain ⟨hk, hf, hc⟩ := Reader.next_same reader cfg.layers
    exact (Inherits.keepReader hr hk hf hc).congr rfl rfl rfl rfl fun _ hd =>
      hd.congr rfl (fun _ => id) rfl
  | backfill r ttls =>
    obtain ⟨reader, hit, hr, -, ⟨-, rfl⟩ | ⟨-, rfl⟩⟩ := backfill_spec h
    · exact .keepReader hr rfl rfl rfl
    · have hkeep : s.Inherits (s.putReader r { reader with phase := .backfilling hit s.clock }) :=
        .keepReader hr rfl rfl rfl
      exact hkeep.congr rfl rfl rfl rfl fun _ hd => hd.congr rfl (fun _ => id) rfl
  | refuse r =>
    obtain ⟨reader, hit, hr, -, rfl⟩ := refuse_spec h
    exact .keepReader hr rfl rfl rfl
  | backfilled r =>
    obtain ⟨reader, hit, order, hr, -, -, rfl⟩ := backfilled_spec h
    exact .keepReader hr rfl rfl rfl
  | unindex r =>
    obtain ⟨reader, hr, -, rfl⟩ := unindex_spec h
    have hkeep : s.Inherits (s.putReader r { reader with phase := .done none }) :=
      .keepReader hr rfl rfl rfl
    exact hkeep.congr rfl rfl rfl rfl fun _ hd => hd.congr rfl (fun _ => id) rfl

theorem inherits_storeEntry (s : Stack K V T) (key : K) (write : WriteValue V)
    (tags : Option (List T)) {fence : Fence} {born : ℕ}
    (hf : s.Caught key fence captured ∨
      (fence = s.store.epochs.fence key ∧ captured = s.clock)) :
    s.Inherits (s.storeEntry cfg key write tags fence captured born) := by
  refine Inherits.congr ((Inherits.refl s).putWriter (.inr ⟨rfl, rfl⟩) ?_) rfl rfl rfl rfl
    fun _ hd => hd.congr rfl (fun _ => id) rfl
  intro d hd
  obtain ⟨l, -, rfl⟩ := List.mem_map.mp hd
  refine .inr ⟨⟨rfl, by simp [Strand.plan, buildLayerSetEntry],
    by simp [Strand.plan, buildLayerSetEntry]⟩, hf.imp (fun hc => ⟨_, _, hc⟩) (·.2),
    fun k hk => ?_⟩
  obtain rfl := List.mem_singleton.mp hk
  exact hf

theorem inherits_writeStep [DecidableEq T] {a : WriteAction K V T}
    (h : s.writeStep cfg a = some s') : s.Inherits s' := by
  cases a with
  | set key write tags =>
    cases h
    exact inherits_storeEntry s key write tags (.inr ⟨rfl, rfl⟩)
  | mset entries =>
    cases h
    refine Inherits.congr ((Inherits.refl s).putWriter (.inr ⟨rfl, rfl⟩) ?_) rfl rfl rfl rfl
      fun _ hd => hd.congr rfl (fun _ => id) rfl
    intro d hd
    obtain ⟨l, -, rfl⟩ := List.mem_map.mp hd
    refine .inr ⟨⟨rfl, ?_, ?_⟩, .inr rfl, fun k hk => .inr ⟨rfl, rfl⟩⟩
    · intro p hp
      obtain ⟨e, he, rfl⟩ := List.mem_map.mp hp
      exact List.mem_map.mpr ⟨e, he, rfl⟩
    · intro p hp
      obtain ⟨e, he, rfl⟩ := List.mem_map.mp hp
      exact List.mem_singleton_self l
  | enqueue w =>
    obtain ⟨writer, hw, -, -, rfl⟩ := enqueue_spec h
    refine { Inherits.writerPhase hw .enqueued with carries := fun d hd => ?_ }
    cases hd with
    | writer hw' hmem =>
      exact (Inherits.writerPhase hw .enqueued).carries d
        (Carries.writer (s := s.putWriter w _) hw' hmem)
    | queue hmem =>
      rcases List.mem_append.mp hmem with hmem | hmem
      · exact .inl (.queue hmem)
      · exact .inl (.writer hw hmem)
    | flushing hf hmem => exact .inl (Carries.flushing (s := s) hf hmem)
  | verify w =>
    obtain ⟨writer, order, phase, hw, -, -, -, -, rfl⟩ := verify_spec h
    exact .writerPhase hw phase
  | track w =>
    obtain ⟨writer, hw, ⟨-, rfl⟩ | ⟨entry, rest, -, -, rfl⟩ | ⟨entry, rest, -, -, rfl⟩⟩ :=
      track_spec h
    · exact .writerPhase hw _
    · exact .writerPhase hw _
    · exact (Inherits.writerPhase hw (.tracking rest)).congr rfl rfl rfl rfl fun _ hd =>
        hd.congr rfl (fun _ => id) rfl
  | announce w =>
    obtain ⟨writer, outbox, hw, -, -, rfl⟩ := announce_spec h
    exact (Inherits.writerPhase hw .done).congr rfl rfl rfl rfl fun _ hd =>
      hd.congr rfl (fun _ => id) rfl
  | flush =>
    obtain ⟨-, rfl⟩ := flush_spec h
    refine { Inherits.refl s with carries := fun d hd => .inl ?_ }
    cases hd with
    | writer hw hmem => exact Carries.writer (s := s) hw hmem
    | queue hmem => exact .queue (List.mem_of_mem_drop hmem)
    | flushing hf hmem =>
      cases hf
      exact .queue (List.mem_of_mem_take hmem)
  | flushNext =>
    obtain ⟨batch, running, hf, -, ⟨-, rfl⟩ | ⟨d, rest, rfl, rfl⟩⟩ := flushNext_spec h
    · refine { Inherits.refl s with carries := fun d hd => .inl ?_ }
      cases hd with
      | writer hw hmem => exact Carries.writer (s := s) hw hmem
      | queue hmem => exact .queue hmem
      | flushing hf' hmem => cases hf'
    · refine { Inherits.refl s with carries := fun d hd => .inl ?_ }
      cases hd with
      | writer hw hmem => exact Carries.writer (s := s) hw hmem
      | queue hmem => exact .queue hmem
      | flushing hf' hmem =>
        cases hf'
        exact Carries.flushing (s := s) hf (List.mem_cons_of_mem _ hmem)

theorem inherits_invalidateStep [DecidableEq T] {a : InvalidateAction K}
    (h : s.invalidateStep cfg a = some s') : s.Inherits s' := by
  have hcongr : ∀ {s' : Stack K V T}, s'.readers = s.readers → s'.gets = s.gets →
      s'.tasks = s.tasks → s'.writers = s.writers →
      (∀ d ∈ s'.writeBehindQueue, d ∈ s.writeBehindQueue) → s'.flushing = s.flushing →
      s.Inherits s' := fun hr hg ht hw hq hf =>
    (Inherits.refl s).congr hr hg ht hw fun _ hd => hd.congr hw hq hf
  cases a with
  | delete keys operation => cases h; exact hcongr rfl rfl rfl rfl (fun _ => id) rfl
  | clear => cases h; exact hcongr rfl rfl rfl rfl (fun _ => id) rfl
  | handle message => cases h; exact hcongr rfl rfl rfl rfl (fun _ => id) rfl
  | bump d =>
    obtain ⟨inv, queue, -, -, hq, rfl⟩ := bump_spec h
    refine hcongr rfl rfl rfl rfl (fun d hd => ?_) rfl
    rcases hq with ⟨-, -, rfl⟩ | ⟨-, rfl⟩
    · exact hd
    · cases hd
  | removed d =>
    obtain ⟨inv, b, r, -, -, -, -, rfl⟩ := removed_spec h
    exact hcongr rfl rfl rfl rfl (fun _ => id) rfl
  | forget d =>
    obtain ⟨inv, -, ⟨-, rfl⟩ | ⟨key, rest, -, rfl⟩ | ⟨-, rfl⟩⟩ := forget_spec h <;>
      exact hcongr rfl rfl rfl rfl (fun _ => id) rfl
  | publish d =>
    obtain ⟨inv, outbox, -, -, -, rfl⟩ := publish_spec h
    exact hcongr rfl rfl rfl rfl (fun _ => id) rfl

theorem Inherits.scheduleBackgroundRefresh (h : s.Inherits s₁) (hstore : s₁.store = s.store)
    (hclock : s₁.clock = s.clock) (key : K) (options : GetOptions) :
    s.Inherits (s₁.scheduleBackgroundRefresh key options) := by
  rcases scheduleBackgroundRefresh_cases s₁ key options with he | ⟨-, he⟩
  · rw [he]
    exact h
  · rw [he]
    exact (h.putGet (.inr ⟨by rw [hstore], hclock⟩)).congr rfl rfl rfl rfl fun _ hd =>
      hd.congr rfl (fun _ => id) rfl

theorem Inherits.getPhase {g : ℕ} {get : Get K V} (hg : s.gets g = some get)
    (phase : GetPhase V) (h : s.Inherits s₁) : s.Inherits (s₁.putGet g { get with phase }) := by
  have hc : s.Caught get.key get.fence g := .get hg
  exact h.putGet (.inl hc)

theorem Inherits.keepTask {i : ℕ} {task task' : Task K V} (hi : s.tasks i = some task)
    (hkey : task'.key = task.key) (hfence : task'.fence = task.fence)
    (hcap : task'.captured = task.captured) (h : s.Inherits s₁) :
    s.Inherits (s₁.putTask i task') :=
  h.putTask (.inl (by rw [hkey, hfence, hcap]; exact .task hi))

theorem inherits_getStep [DecidableEq T] {a : GetAction K V T} (h : s.getStep cfg a = some s') :
    s.Inherits s' := by
  cases a with
  | get key options =>
    cases h
    exact (inherits_openReader s key .allowStale).putGet (.inr ⟨rfl, rfl⟩)
  | conclude g =>
    obtain ⟨get, reader, hg, -, -, hconcl⟩ := conclude_spec h
    cases hconcl with
    | refresh hit hr hstate =>
      exact (Inherits.getPhase hg _ (.refl s)).scheduleBackgroundRefresh rfl rfl _ _
    | failed | miss | absent | fresh | stale | staleIfError | fallback =>
      exact .getPhase hg _ (.refl s)
  | slide g =>
    obtain ⟨get, answer, todo, stored, ttl, ahead, hg, -, ⟨-, rfl | ⟨-, rfl⟩⟩ |
      ⟨l, rest, -, rfl | rfl⟩⟩ := slide_spec h
    · exact .getPhase hg _ (.refl s)
    · exact (Inherits.getPhase hg _ (.refl s)).scheduleBackgroundRefresh rfl rfl _ _
    · exact .getPhase hg _ (.refl s)
    · exact (Inherits.getPhase hg (.sliding answer rest stored ttl ahead) (.refl s)).congr
        rfl rfl rfl rfl
        fun _ hd => hd.congr rfl (fun _ => id) rfl
  | enter g =>
    obtain ⟨get, fallback, hg, -, ⟨i, joined, -, -, hi, rfl⟩ | ⟨inFlight, -, rfl⟩⟩ :=
      enter_spec h
    · exact .keepTask hi rfl rfl rfl (.getPhase hg _ (.refl s))
    · have hc : s.Caught get.key get.fence g := .get hg
      exact ((Inherits.getPhase hg (.waiting s.clock fallback) (.refl s)).putTask (.inl hc)).congr
        rfl rfl rfl rfl fun _ hd => hd.congr rfl (fun _ => id) rfl
  | leave g =>
    obtain ⟨get, i, fallback, task, result, phase, inFlight, refreshes, hg, -, hi, -, -, -,
      rfl⟩ := leave_spec h
    have htask : s.Inherits (s.putTask i { task with references := task.references - 1 }) :=
      .keepTask hi rfl rfl rfl (.refl s)
    exact (Inherits.getPhase hg phase htask).congr rfl rfl rfl rfl fun _ hd =>
      hd.congr rfl (fun _ => id) rfl
  | recheck i =>
    obtain ⟨task, missed, hi, -, -, rfl⟩ := recheck_spec h
    exact .keepTask hi rfl rfl rfl (inherits_openReader s task.key .freshOnly)
  | rechecked i =>
    obtain ⟨task, r, reader, phase, hi, -, -, -, rfl⟩ := rechecked_spec h
    exact .keepTask hi rfl rfl rfl (.refl s)
  | fetch i =>
    obtain ⟨task, missed, hi, -, -, rfl⟩ := fetch_spec h
    exact .keepTask hi rfl rfl rfl (.refl s)
  | fetched i outcome =>
    obtain ⟨task, born, hi, -, ⟨result, -, -, rfl⟩ | ⟨write, tags, -, -, rfl⟩⟩ := fetched_spec h
    · exact .keepTask hi rfl rfl rfl (.refl s)
    · exact .keepTask hi rfl rfl rfl (inherits_storeEntry s task.key write tags
        (.inl (.task hi)))
  | stored i =>
    obtain ⟨task, w, answer, writer, hi, -, -, -, rfl⟩ := stored_spec h
    exact .keepTask hi rfl rfl rfl (.refl s)
  | giveUp i =>
    obtain ⟨task, missed, hi, -, rfl⟩ := giveUp_spec h
    exact .keepTask hi rfl rfl rfl (.refl s)
  | settle i =>
    obtain ⟨task, result, inFlight, hi, -, -, -, rfl⟩ := settleTask_spec h
    have htask : s.Inherits (s.putTask i { task with settled := true }) :=
      .keepTask hi rfl rfl rfl (.refl s)
    exact htask.congr rfl rfl rfl rfl fun _ hd => hd.congr rfl (fun _ => id) rfl

theorem inherits_faultStep {a : FaultAction} (h : s.faultStep a = some s') : s.Inherits s' := by
  cases a with
  | degrade l | recover l =>
    cases h
    exact (Inherits.refl s).congr rfl rfl rfl rfl fun _ hd => hd.congr rfl (fun _ => id) rfl
  | landFail t m i | wipeFail t m i | eraseFail b i =>
    simp only [faultStep, Option.map_eq_some_iff] at h
    obtain ⟨store, -, rfl⟩ := h
    exact (Inherits.refl s).congr rfl rfl rfl rfl fun _ hd => hd.congr rfl (fun _ => id) rfl
  | loadFail r =>
    obtain ⟨reader, hr, -, rfl⟩ := loadFail_spec h
    exact .keepReader hr rfl rfl rfl
  | failRead r =>
    obtain ⟨reader, hr, -, rfl⟩ := failRead_spec h
    exact .keepReader hr rfl rfl rfl
  | slideFail g =>
    obtain ⟨get, answer, l, rest, stored, ttl, ahead, hg, -, rfl⟩ := slideFail_spec h
    exact .getPhase hg _ (.refl s)

/-- Whatever the step, what holds a fence afterwards inherited or captured it. -/
theorem inherits_act [DecidableEq T] {a : Action K V T} (h : s.act cfg a = some s') :
    s.Inherits s' := by
  cases a with
  | store a =>
    obtain ⟨store, -, rfl⟩ := storeStep_spec h
    exact (Inherits.refl s).congr rfl rfl rfl rfl fun _ hd => hd.congr rfl (fun _ => id) rfl
  | fault a => exact inherits_faultStep h
  | read a => exact inherits_readStep h
  | write a => exact inherits_writeStep h
  | invalidate a => exact inherits_invalidateStep h
  | get a => exact inherits_getStep h

end Steps

/-- What the invariants of a stack rest on: its store is well formed, every fence it holds is
one it knows, and the write-behind operations have not begun. -/
structure Sound (s : Stack K V T) : Prop where
  wf : s.store.Wf s.clock
  lt : ∀ k f captured, s.Caught k f captured → captured < s.clock
  knows : ∀ k f captured, s.Caught k f captured → s.store.Knows k f captured
  carries : ∀ d, s.Carries d → d.Planned ∧ d.captured < s.clock

def Faulty (s : Stack K V T) : Action K V T → Prop
  | .fault _ => True
  | _ => ∃ l, s.degraded l = true

/-- The order of a set or of a fetched value is one that the store admits. -/
theorem step_setOrder {key : K} (write : WriteValue V) {fence : Fence} {born : ℕ}
    (hcap : captured ≤ s.clock) (hf : s.store.Knows key fence captured) {faults : Prop}
    (hfaults : (∃ l, s.degraded l = true) → faults) :
    s.store.Step faults s.clock
      (s.store.enlist s.clock (s.setOrder cfg key write fence captured born)) := by
  refine .enlist _ (by simp [setOrder, Strand.plan]) ?_ ?_ hcap (by simpa [setOrder] using hf)
  · simp only [setOrder, Strand.plan, List.mem_singleton, forall_eq, List.mem_map]
    rintro p ⟨l, -, rfl⟩
    rfl
  · by_cases hdeg : ∃ l, s.degraded l = true
    · exact .inl (hfaults hdeg)
    · have hdeg' : ∀ l, s.degraded l = false := by simpa using hdeg
      right
      simp only [setOrder, Strand.plan, List.mem_singleton, forall_eq, List.mem_map]
      rintro p ⟨l, hl, rfl⟩
      exact List.mem_filter.mpr ⟨hl, by simp [hdeg', buildLayerSetEntry]⟩

theorem Sound.store_enlist (h : s.Sound) {a : Action K V T} {o : Order K V}
    (ho : s.Admits cfg a o) : s.store.Step (s.Faulty a) s.clock (s.store.enlist s.clock o) := by
  cases ho with
  | @backfill r ttls reader hit hr hphase hl =>
    have hc : s.Caught reader.key reader.fence reader.captured := .reader hr
    refine .enlist _ (by simp [backfillOrder, Strand.plan]) ?_ (.inr ?_) (h.lt _ _ _ hc).le
      (by simpa [backfillOrder] using h.knows _ _ _ hc)
    · simp only [backfillOrder, Strand.plan, List.mem_singleton, forall_eq, List.mem_map]
      rintro p ⟨l, -, rfl⟩
      rfl
    · simp only [backfillOrder, Strand.plan, List.mem_singleton, forall_eq, List.mem_map]
      rintro p ⟨l, hl, rfl⟩
      exact (List.mem_filter.mp hl).1
  | set key write tags =>
    exact step_setOrder write le_rfl (.of_current s.store key h.wf.removals_lt) id
  | mset entries =>
    refine .enlist _ ?_ ?_ (.inr ?_) le_rfl fun k _ => .of_current s.store k h.wf.removals_lt
    · intro st hst
      obtain ⟨l, -, rfl⟩ := List.mem_map.mp hst
      rfl
    · intro st hst p hp
      obtain ⟨l, -, rfl⟩ := List.mem_map.mp hst
      obtain ⟨e, he, rfl⟩ := List.mem_map.mp hp
      exact List.mem_map.mpr ⟨e, he, rfl⟩
    · intro st hst p hp
      obtain ⟨l, -, rfl⟩ := List.mem_map.mp hst
      obtain ⟨e, he, rfl⟩ := List.mem_map.mp hp
      exact List.mem_singleton_self l
  | @flush d rest running hf =>
    have hd : s.Carries d := .flushing hf List.mem_cons_self
    obtain ⟨⟨hphase, hkeys, hsweep⟩, hlt⟩ := h.carries d hd
    have hc : ∀ k ∈ d.keys, s.Caught k (d.fence k) d.captured := fun k hk => .deferred hd hk
    exact .enlist _ (by simpa using hphase) (by simpa using hkeys)
      (.inr (by simpa using hsweep)) hlt.le fun k hk => h.knows _ _ _ (hc k hk)
  | @fetched i task born write tags hi hphase =>
    have hc : s.Caught task.key task.fence task.captured := .task hi
    exact step_setOrder write (h.lt _ _ _ hc).le (h.knows _ _ _ hc) id

/-- Every step of a sound stack makes one of the changes that the store admits. -/
theorem Sound.store_act [DecidableEq T] (h : s.Sound) {a : Action K V T}
    (hs : s.act cfg a = some s') : s.store.Step (s.Faulty a) s.clock s'.store := by
  have heffect := effect_act hs
  generalize s'.store = c at heffect
  cases heffect with
  | same => exact .idle
  | store a ha =>
    cases a with
    | tick d =>
      simp only [storeChange, Option.ite_none_right_eq_some, Option.some.injEq] at ha
      obtain ⟨hd, rfl⟩ := ha
      exact .tick d hd
    | start t => exact .start s.degraded t ha
    | land t m i => exact .land t m i ha
    | check t m => exact .check t m ha
    | wipe t m i => exact .wipe t m i ha
    | settle t => exact .settle t ha
    | erase b i => exact .erase b i ha
  | landFail t m i ha => exact .landFail trivial t m i ha
  | wipeFail t m i ha => exact .wipeFail trivial t m i ha
  | eraseFail b i ha => exact .eraseFail trivial b i ha
  | purge r hr hphase => exact .purge _ _
  | enlist ho => exact h.store_enlist ho
  | bump d hd hphase => exact .bump _ _
  | slide g hg hphase => exact .rewrite _

theorem Sound.of_inherits (h : s.Sound) {faults : Prop}
    (hstore : s.store.Step faults s.clock s'.store) (hinherits : s.Inherits s')
    (hclock : s'.clock = s.clock + 1) : s'.Sound := by
  refine ⟨hclock ▸ h.wf.step hstore, ?_, ?_, ?_⟩
  · intro k f captured hc
    rw [hclock]
    rcases hinherits.caught hc with hc | ⟨-, rfl⟩
    · exact (h.lt _ _ _ hc).trans (Nat.lt_succ_self _)
    · exact Nat.lt_succ_self _
  · intro k f captured hc
    refine Knows.step h.wf hstore ?_
    rcases hinherits.caught hc with hc | ⟨rfl, rfl⟩
    · exact h.knows _ _ _ hc
    · exact .of_current s.store k h.wf.removals_lt
  · intro d hd
    rw [hclock]
    rcases hinherits.carries d hd with hd | hd
    · exact (h.carries d hd).imp_right fun hlt => hlt.trans (Nat.lt_succ_self _)
    · refine ⟨hd.planned, ?_⟩
      rcases hd.captured with ⟨k, f, hc⟩ | hc
      · exact (h.lt _ _ _ hc).trans (Nat.lt_succ_self _)
      · exact hc ▸ Nat.lt_succ_self _

theorem Sound.step [DecidableEq T] (h : s.Sound) {a : Action K V T}
    (hs : s.step cfg a = some s') : s'.Sound := by
  simp only [Stack.step, Option.map_eq_some_iff] at hs
  obtain ⟨s₁, hact, rfl⟩ := hs
  have hinherits : s.Inherits { s₁ with clock := s.clock + 1 } :=
    (inherits_act hact).congr rfl rfl rfl rfl fun d hd => hd.congr rfl (fun _ => id) rfl
  have hstore := h.store_act hact
  exact h.of_inherits hstore hinherits rfl

theorem sound_initial (now : Millis) (contents : ℕ → K → Option (Stored V × Option Millis)) :
    (initial now contents : Stack K V T).Sound := by
  have hcarries : ∀ d, ¬ (initial now contents : Stack K V T).Carries d := by
    rintro d (⟨h, hd⟩ | hd | ⟨h, hd⟩)
    · cases h
    · cases hd
    · cases h
  have hcaught : ∀ k f captured, ¬ (initial now contents : Stack K V T).Caught k f captured := by
    rintro k f captured (h | h | h | h | ⟨hd, hk⟩)
    · cases h
    · cases h
    · cases h
    · cases h
    · exact hcarries _ hd
  exact ⟨wf_initial now contents, fun k f captured hc => absurd hc (hcaught k f captured),
    fun k f captured hc => absurd hc (hcaught k f captured),
    fun d hd => absurd hd (hcarries d)⟩

end Stack

end LayerCache
