import LayerCache.Invalidation.RedisTagIndex
import LayerCache.Transition.Run

/-! # Clients of the tag index in Redis

Operations of any number of clients send their commands one by one, in any order between them.
An operation on a key reads the tags of the key and computes its commands from what it has read.
The relation of keys and tags stays two-sided as long as no other operation on the key
reads in between.
-/

namespace LayerCache.TwoSided

open Transition

inductive OperationKind
  | track (tags : List String)
  | remove
  deriving DecidableEq

/-- An operation has its read before it, or the rest of its commands. -/
inductive OperationPhase
  | reading
  | sending (commands : List RedisCommand)
  deriving DecidableEq

structure Operation where
  key : String
  kind : OperationKind
  phase : OperationPhase
  deriving DecidableEq

/-- Operations are numbered, and gone when their last command has run. -/
structure State where
  db : RedisSets
  nextOperation : ℕ
  operations : ℕ → Option Operation

inductive Action
  | start (key : String) (kind : OperationKind)
  | read (i : ℕ)
  | send (i : ℕ)

namespace State

def initial : State := ⟨fun _ => [], 0, fun _ => none⟩

def start (s : State) (key : String) (kind : OperationKind) : State :=
  { s with
    nextOperation := s.nextOperation + 1
    operations := Function.update s.operations s.nextOperation (some ⟨key, kind, .reading⟩) }

variable (index : RedisTagIndex)

def pipeline (operation : Operation) (existingTags : List String) : List RedisCommand :=
  match operation.kind with
  | .track tags => index.trackCommands operation.key existingTags tags
  | .remove => index.removeCommands operation.key existingTags

/-- `smembers` -/
def read (s : State) (i : ℕ) : Option State :=
  match s.operations i with
  | some operation =>
    match operation.phase with
    | .reading =>
      let commands := pipeline index operation (s.db (.keyTags operation.key))
      some { s with
        operations := Function.update s.operations i (some { operation with
          phase := .sending commands }) }
    | .sending _ => none
  | none => none

def send (s : State) (i : ℕ) : Option State :=
  match s.operations i with
  | some operation =>
    match operation.phase with
    | .sending (command :: commands) =>
      some { s with
        db := command.exec s.db
        operations := Function.update s.operations i
          (if commands = [] then none else some { operation with phase := .sending commands }) }
    | _ => none
  | none => none

def step (s : State) : Action → Option State
  | .start key kind => some (s.start key kind)
  | .read i => s.read index i
  | .send i => s.send i

def Quiet (s : State) : Prop := ∀ i, s.operations i = none

end State

def TwoSidedAt (db : RedisSets) (key : String) : Prop :=
  ∀ tag, key ∈ db (.tagKeys tag) ↔ tag ∈ db (.keyTags key)

/-- An operation does not read while another one on its key is between its read and its last
command. -/
def State.ReadsAlone (s : State) : Action → Prop
  | .read i => ∀ operation ∈ s.operations i, ∀ j < s.nextOperation, ∀ other ∈ s.operations j,
      other.key = operation.key → other.phase = .reading
  | _ => True

instance State.ReadsAlone.decidable (s : State) : (a : Action) → Decidable (s.ReadsAlone a)
  | .start _ _ | .send _ => isTrue trivial
  | .read i => inferInstanceAs (Decidable (∀ operation ∈ s.operations i, ∀ j < s.nextOperation,
      ∀ other ∈ s.operations j, other.key = operation.key → other.phase = .reading))

/-- The command changes nothing that other keys have to do with. -/
def Concerns (key : String) : RedisCommand → Prop
  | .sadd (.keyTags k) _ => k = key
  | .sadd (.tagKeys _) members => members = [key]
  | .sadd _ _ => True
  | .srem (.keyTags k) _ => k = key
  | .srem (.tagKeys _) member => member = key
  | .srem _ _ => True
  | .del (.keyTags k) => k = key
  | .del (.tagKeys _) => False
  | .del _ => True

/-- The databases have the same tags for the key, and the key for the same tags. -/
structure SameAt (key : String) (db db' : RedisSets) : Prop where
  keyTags : ∀ tag, tag ∈ db (.keyTags key) ↔ tag ∈ db' (.keyTags key)
  tagKeys : ∀ tag, key ∈ db (.tagKeys tag) ↔ key ∈ db' (.tagKeys tag)

variable {db db' : RedisSets} {key k : String} {command : RedisCommand}
  {commands : List RedisCommand}

theorem SameAt.twoSidedAt (h : SameAt key db db') (htwo : TwoSidedAt db key) :
    TwoSidedAt db' key :=
  fun tag => ((h.tagKeys tag).symm.trans (htwo tag)).trans (h.keyTags tag)

theorem SameAt.exec (h : SameAt key db db') (command : RedisCommand) :
    SameAt key (command.exec db) (command.exec db') := by
  constructor
  · intro tag
    rw [RedisCommand.mem_exec, RedisCommand.mem_exec, h.keyTags]
  · intro tag
    rw [RedisCommand.mem_exec, RedisCommand.mem_exec, h.tagKeys]

theorem SameAt.execAll (h : SameAt key db db') (commands : List RedisCommand) :
    SameAt key (execAll db commands) (execAll db' commands) := by
  induction commands generalizing db db' with
  | nil => exact h
  | cons command commands ih => exact ih (h.exec command)

theorem Concerns.sameAt (h : Concerns key command) (hk : k ≠ key) (db : RedisSets) :
    SameAt k db (command.exec db) := by
  constructor
  · intro tag
    rw [RedisCommand.mem_exec]
    cases command with
    | sadd set members =>
      cases set with
      | keyTags k' =>
        cases h
        simp [hk]
      | _ => simp
    | srem set member =>
      cases set with
      | keyTags k' =>
        cases h
        simp [hk]
      | _ => simp
    | del set =>
      cases set with
      | keyTags k' =>
        cases h
        simp [hk]
      | _ => simp
  · intro tag
    rw [RedisCommand.mem_exec]
    cases command with
    | sadd set members =>
      cases set with
      | tagKeys tag' =>
        cases h
        simp [hk]
      | _ => simp
    | srem set member =>
      cases set with
      | tagKeys tag' =>
        cases h
        simp [hk]
      | _ => simp
    | del set =>
      cases set with
      | tagKeys tag' => cases h
      | _ => simp

namespace State

variable {index : RedisTagIndex} {s s' : State} {operation : Operation}

theorem concerns_knownKeysKeyFor (index : RedisTagIndex) (key : String) (member : String) :
    Concerns key (.sadd (index.knownKeysKeyFor member) [member]) ∧
      Concerns key (.srem (index.knownKeysKeyFor member) member) := by
  rcases index.knownKeysKeyFor_cases member with h | ⟨shard, h⟩
  · rw [h]
    exact ⟨trivial, trivial⟩
  · rw [h]
    exact ⟨trivial, trivial⟩

theorem concerns_pipeline (existingTags : List String) :
    ∀ command ∈ pipeline index operation existingTags, Concerns operation.key command := by
  obtain ⟨hsadd, hsrem⟩ := concerns_knownKeysKeyFor index operation.key operation.key
  intro command hcommand
  unfold pipeline at hcommand
  cases hkind : operation.kind with
  | track tags =>
    simp only [hkind, RedisTagIndex.trackCommands] at hcommand
    rcases List.mem_append.mp hcommand with hcommand | hcommand
    · rcases List.mem_cons.mp hcommand with rfl | hcommand
      · exact hsadd
      · obtain ⟨tag, -, rfl⟩ := List.mem_map.mp hcommand
        exact rfl
    · rcases List.mem_cons.mp hcommand with rfl | hcommand
      · exact rfl
      · split at hcommand
        · cases hcommand
        · rcases List.mem_cons.mp hcommand with rfl | hcommand
          · exact rfl
          · obtain ⟨tag, -, rfl⟩ := List.mem_map.mp hcommand
            exact rfl
  | remove =>
    simp only [hkind, RedisTagIndex.removeCommands] at hcommand
    rcases List.mem_append.mp hcommand with hcommand | hcommand
    · rcases List.mem_cons.mp hcommand with rfl | hcommand
      · exact hsrem
      · split at hcommand
        · cases List.mem_singleton.mp hcommand
          trivial
        · cases hcommand
    · rcases List.mem_cons.mp hcommand with rfl | hcommand
      · exact rfl
      · obtain ⟨tag, -, rfl⟩ := List.mem_map.mp hcommand
        exact rfl

theorem twoSidedAt_pipeline (h : TwoSidedAt db operation.key) :
    TwoSidedAt (execAll db (pipeline index operation (db (.keyTags operation.key))))
      operation.key := by
  intro tag
  unfold pipeline
  cases operation.kind with
  | track tags =>
    simp only [RedisTagIndex.mem_tagKeys_track, RedisTagIndex.mem_keyTags_track, if_true, h tag]
    tauto
  | remove =>
    simp only [RedisTagIndex.mem_tagKeys_remove, RedisTagIndex.mem_keyTags_remove, h tag]
    tauto

/-- Numbers that have not been given have no operation. -/
def Numbered (s : State) : Prop := ∀ i, s.operations i ≠ none → i < s.nextOperation

theorem operations_update {i j : ℕ} {after : Option Operation} {other : Operation}
    (h : Function.update s.operations i after j = some other) :
    j = i ∧ after = some other ∨ j ≠ i ∧ s.operations j = some other := by
  by_cases hj : j = i
  · subst hj
    rw [Function.update_self] at h
    exact .inl ⟨rfl, h⟩
  · rw [Function.update_of_ne hj] at h
    exact .inr ⟨hj, h⟩

theorem Numbered.start (h : s.Numbered) (key : String) (kind : OperationKind) :
    (s.start key kind).Numbered := by
  intro i hi
  by_cases hnew : i = s.nextOperation
  · exact hnew ▸ Nat.lt_succ_self _
  · simp only [State.start, Function.update_of_ne hnew] at hi
    exact Nat.lt_succ_of_lt (h i hi)

theorem Numbered.update {i : ℕ} {after : Option Operation} {db : RedisSets} (h : s.Numbered)
    (hi : i < s.nextOperation) :
    Numbered ⟨db, s.nextOperation, Function.update s.operations i after⟩ := by
  intro j hj
  obtain ⟨other, hother⟩ := Option.ne_none_iff_exists'.mp hj
  rcases operations_update hother with ⟨rfl, -⟩ | ⟨-, hold⟩
  · exact hi
  · exact h j (by simp [hold])

theorem Numbered.step {a : Action} (h : s.Numbered) (hs : s.step index a = some s') :
    s'.Numbered := by
  cases a with
  | start key kind =>
    cases hs
    exact h.start key kind
  | read i =>
    simp only [State.step, State.read] at hs
    split at hs
    · rename_i operation hi
      split at hs
      · cases hs
        exact h.update (h i (by simp [hi]))
      · cases hs
    · cases hs
  | send i =>
    simp only [State.step, State.send] at hs
    split at hs
    · rename_i operation hi
      split at hs
      · cases hs
        exact h.update (h i (by simp [hi]))
      · cases hs
    · cases hs

/-- After a run, the operations that have been started are the ones to look at. -/
theorem quiet_of_run {as : List Action} (hrun : run (step index) initial as = some s)
    (h : ∀ i < s.nextOperation, s.operations i = none) : s.Quiet := by
  have hnumbered : s.Numbered := by
    have hreaches : Reaches (step index) (fun _ _ => True) initial s :=
      reaches_of_run _ hrun (along_of_forall fun _ _ _ => trivial)
    exact hreaches.invariant (fun _ _ _ h _ hs => h.step hs) fun _ h => absurd rfl h
  intro i
  by_contra hi
  exact hi (h i (hnumbered i hi))

/-- Keys that no operation is changing are two-sided, and the others will be: of each, only one
operation is past its read. -/
structure Inv (s : State) : Prop where
  numbered : s.Numbered
  resting : ∀ key, (∀ i operation, s.operations i = some operation → operation.key = key →
    operation.phase = .reading) → TwoSidedAt s.db key
  sending : ∀ i operation commands, s.operations i = some operation →
    operation.phase = .sending commands →
    (∀ command ∈ commands, Concerns operation.key command) ∧
      TwoSidedAt (execAll s.db commands) operation.key
  alone : ∀ i j operation other, s.operations i = some operation → s.operations j = some other →
    operation.key = other.key → operation.phase ≠ .reading → other.phase ≠ .reading → i = j

theorem inv_initial : initial.Inv where
  numbered _ h := absurd rfl h
  resting _ _ _ := by simp [initial]
  sending _ _ _ h := nomatch h
  alone _ _ _ _ h := nomatch h

theorem Inv.start (h : s.Inv) (key : String) (kind : OperationKind) : (s.start key kind).Inv := by
  have hfresh : s.operations s.nextOperation = none := by
    by_contra hne
    exact absurd (h.numbered _ hne) (Nat.lt_irrefl _)
  constructor
  · exact h.numbered.start key kind
  · intro k hk
    apply h.resting k
    intro i operation hi hkey
    apply hk i operation ?_ hkey
    have hne : i ≠ s.nextOperation := by
      rintro rfl
      rw [hfresh] at hi
      cases hi
    simpa only [State.start, Function.update_of_ne hne] using hi
  · intro i operation commands hi hphase
    rcases operations_update hi with ⟨-, hnew⟩ | ⟨-, hi⟩
    · cases hnew
      cases hphase
    · exact h.sending i operation commands hi hphase
  · intro i j operation other hi hj hkey hsends hsends'
    rcases operations_update hi with ⟨-, hnew⟩ | ⟨-, hi⟩
    · cases hnew
      exact absurd rfl hsends
    · rcases operations_update hj with ⟨-, hnew⟩ | ⟨-, hj⟩
      · cases hnew
        exact absurd rfl hsends'
      · exact h.alone i j operation other hi hj hkey hsends hsends'

theorem Inv.read {i : ℕ} (h : s.Inv) (halone : s.ReadsAlone (.read i))
    (hs : s.read index i = some s') : s'.Inv := by
  unfold State.read at hs
  cases hi : s.operations i with
  | none =>
    rw [hi] at hs
    cases hs
  | some operation =>
    rw [hi] at hs
    obtain ⟨key, kind, phase⟩ := operation
    cases phase with
    | sending commands => cases hs
    | reading =>
      cases hs
      have hothers : ∀ j other, s.operations j = some other → other.key = key →
          other.phase = .reading :=
        fun j other hj hkey => halone _ hi j (h.numbered j (by simp [hj])) other hj hkey
      have htwo : TwoSidedAt s.db key := h.resting key hothers
      constructor
      · exact h.numbered.update (h.numbered i (by simp [hi]))
      · intro k hk
        by_cases hkey : k = key
        · exact hkey ▸ htwo
        · apply h.resting k
          intro j other hj hother
          have hji : j ≠ i := by
            rintro rfl
            cases hi.symm.trans hj
            exact hkey hother.symm
          apply hk j other ?_ hother
          simpa only [Function.update_of_ne hji] using hj
      · intro j other commands hj hphase
        rcases operations_update hj with ⟨-, hnew⟩ | ⟨-, hj⟩
        · cases hnew
          cases hphase
          exact ⟨concerns_pipeline _, twoSidedAt_pipeline htwo⟩
        · exact h.sending j other commands hj hphase
      · intro j j' other other' hj hj' hkey hsends hsends'
        rcases operations_update hj with ⟨rfl, hnew⟩ | ⟨-, hold⟩
        · rcases operations_update hj' with ⟨rfl, -⟩ | ⟨-, hold'⟩
          · rfl
          · cases hnew
            exact absurd (hothers j' other' hold' hkey.symm) hsends'
        · rcases operations_update hj' with ⟨rfl, hnew⟩ | ⟨-, hold'⟩
          · cases hnew
            exact absurd (hothers j other hold hkey) hsends
          · exact h.alone j j' other other' hold hold' hkey hsends hsends'

/-- A command changes its own key only, and brings it nearer to what its operation leaves. -/
theorem Inv.send {i : ℕ} (h : s.Inv) (hs : s.send i = some s') : s'.Inv := by
  unfold State.send at hs
  cases hi : s.operations i with
  | none =>
    rw [hi] at hs
    cases hs
  | some operation =>
    rw [hi] at hs
    obtain ⟨key, kind, phase⟩ := operation
    cases phase with
    | reading => cases hs
    | sending commands =>
      cases commands with
      | nil => cases hs
      | cons command commands =>
        cases hs
        obtain ⟨hconcerns, htwo⟩ := h.sending i _ _ hi rfl
        have hcommand := hconcerns command List.mem_cons_self
        have hother : ∀ j other, j ≠ i → s.operations j = some other → other.phase ≠ .reading →
            other.key ≠ key := by
          rintro j other hji hj hsends rfl
          exact hji (h.alone j i other _ hj hi rfl hsends nofun)
        have hafter : ∀ {j other}, Function.update s.operations i
            (if commands = [] then none
              else some ⟨key, kind, .sending commands⟩) j = some other →
            (j = i ∧ commands ≠ [] ∧ other = ⟨key, kind, .sending commands⟩) ∨
              j ≠ i ∧ s.operations j = some other := by
          intro j other hj
          rcases operations_update hj with ⟨rfl, hnew⟩ | hold
          · split at hnew
            · cases hnew
            · rename_i hne
              exact .inl ⟨rfl, hne, (Option.some.inj hnew).symm⟩
          · exact .inr hold
        constructor
        · exact h.numbered.update (h.numbered i (by simp [hi]))
        · intro k hk
          by_cases hkey : k = key
          · subst hkey
            by_cases hnil : commands = []
            · subst hnil
              exact htwo
            · have hi' := hk i ⟨k, kind, .sending commands⟩ (by simp [hnil]) rfl
              cases hi'
          · apply (hcommand.sameAt hkey s.db).twoSidedAt
            apply h.resting k
            intro j other hj hother
            have hji : j ≠ i := by
              rintro rfl
              cases hi.symm.trans hj
              exact hkey hother.symm
            apply hk j other ?_ hother
            simpa only [Function.update_of_ne hji] using hj
        · intro j other rest hj hphase
          rcases hafter hj with ⟨rfl, -, rfl⟩ | ⟨hji, hold⟩
          · cases hphase
            exact ⟨fun c hc => hconcerns c (List.mem_cons_of_mem _ hc), htwo⟩
          · obtain ⟨hrest, hrest'⟩ := h.sending j other rest hold hphase
            have hkey := hother j other hji hold (by simp [hphase])
            exact ⟨hrest, ((hcommand.sameAt hkey s.db).execAll rest).twoSidedAt hrest'⟩
        · intro j j' other other' hj hj' hkey hsends hsends'
          rcases hafter hj with ⟨rfl, -, rfl⟩ | ⟨hji, hold⟩
          · rcases hafter hj' with ⟨rfl, -, -⟩ | ⟨hji', hold'⟩
            · rfl
            · exact absurd hkey.symm (hother j' other' hji' hold' hsends')
          · rcases hafter hj' with ⟨rfl, -, rfl⟩ | ⟨hji', hold'⟩
            · exact absurd hkey (hother j other hji hold hsends)
            · exact h.alone j j' other other' hold hold' hkey hsends hsends'

theorem Inv.step {a : Action} (h : s.Inv) (halone : s.ReadsAlone a)
    (hs : s.step index a = some s') : s'.Inv := by
  cases a with
  | start key kind =>
    cases hs
    exact h.start key kind
  | read i => exact h.read halone hs
  | send i => exact h.send hs

/-- Where no operation reads into another one on its key, the index is two-sided whenever no
operation is in flight. -/
theorem twoSided (hrun : Reaches (step index) ReadsAlone initial s) (hquiet : s.Quiet)
    (key : String) : TwoSidedAt s.db key := by
  have hinv : s.Inv := hrun.invariant (fun _ _ _ h halone hs => h.step halone hs) inv_initial
  apply hinv.resting key
  intro i operation hi
  rw [hquiet i] at hi
  cases hi

def oneShard : RedisTagIndex := ⟨1, Nat.one_pos⟩

/-- The key gets the tag `a`, and then `b` instead. -/
def oneByOne : List Action :=
  [.start "k" (.track ["a"]), .read 0, .send 0, .send 0, .send 0, .send 0,
    .start "k" (.track ["b"]), .read 1, .send 1, .send 1, .send 1, .send 1, .send 1]

theorem twoSided_oneByOne :
    ∃ s, run (step oneShard) initial oneByOne = some s ∧
      s.db (.keyTags "k") = ["b"] ∧ TwoSidedAt s.db "k" := by
  have hrun : (run (step oneShard) initial oneByOne).map (fun s =>
      (s.db (.keyTags "k"), decide (∀ i < s.nextOperation, s.operations i = none))) =
      some (["b"], true) := by
    decide +kernel
  obtain ⟨s, hs, hafter⟩ := Option.map_eq_some_iff.mp hrun
  simp only [Prod.mk.injEq, decide_eq_true_eq] at hafter
  have halone : Along (step oneShard) ReadsAlone initial oneByOne := by decide +kernel
  exact ⟨s, hs, hafter.1,
    twoSided (reaches_of_run _ hs halone) (quiet_of_run hs hafter.2) "k"⟩

def atOnce : List Action :=
  [.start "k" (.track ["a"]), .start "k" (.track ["b"]), .read 0, .read 1, .send 0, .send 0,
    .send 0, .send 0, .send 1, .send 1, .send 1, .send 1]

theorem not_twoSided :
    ∃ s, run (step oneShard) initial atOnce = some s ∧ s.Quiet ∧ ¬ TwoSidedAt s.db "k" := by
  have hrun : (run (step oneShard) initial atOnce).map (fun s =>
      (s.db (.tagKeys "a"), s.db (.keyTags "k"),
        decide (∀ i < s.nextOperation, s.operations i = none))) =
      some (["k"], ["b"], true) := by
    decide +kernel
  obtain ⟨s, hs, hafter⟩ := Option.map_eq_some_iff.mp hrun
  simp only [Prod.mk.injEq, decide_eq_true_eq] at hafter
  obtain ⟨hkeys, htags, hdone⟩ := hafter
  have hone : ¬ TwoSidedAt s.db "k" := by
    intro htwo
    have := htwo "a"
    rw [hkeys, htags] at this
    simp at this
  exact ⟨s, hs, quiet_of_run hs hdone, hone⟩

end State

end LayerCache.TwoSided
