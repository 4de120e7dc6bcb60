import LayerCache.Invalidation.PatternLookup
import LayerCache.Transition.Run

/-! # The migration of the legacy set of known keys

A client moves the known keys of the legacy set into their shards, page by page, and drops the set
at the end. Other clients touch, track, remove and look up keys while it runs. No key that is not
removed gets lost on the way, and no lookup misses it.
-/

namespace LayerCache.LegacyMigration

open Transition

inductive Request
  | touch (key : String)
  | track (key : String) (tags : List String)
  | remove (key : String)
  | migrateLegacyKnownKeys
  | keysForPrefix (pre : String)

/-- Where an operation stands. An iteration over a set has what Redis owes it: the members that
have been in the set since the iteration began and have not been returned. -/
inductive Operation
  | reading (key : String) (tags : Option (List String))
  | sending (commands : List RedisCommand)
  | scanning (owed : Option (List String)) (migratedKeys : ℕ)
  | moving (commands : List RedisCommand) (owed : Option (List String)) (migratedKeys : ℕ)
  | dropping (migratedKeys : ℕ)
  | migrated (migratedKeys : ℕ)
  | checking (pre : String)
  | looking (pre : String) (set : IndexKey) (sets : List IndexKey) (owed : Option (List String))
      (found : List String)
  | answered (pre : String) (found : List String)
  deriving DecidableEq

/-- A page of `SSCAN` has members of the set, and the last one all that is still owed. -/
def returned (members : List String) (owed : Option (List String)) (keys : List String)
    (last : Bool) : Option (List String) :=
  let owed := owed.getD members
  if keys ⊆ members ∧ (last = true → owed ⊆ keys) then some (owed.filter (· ∉ keys)) else none

namespace Operation

def finish (migratedKeys : ℕ) : Operation :=
  if 0 < migratedKeys then .dropping migratedKeys else .migrated migratedKeys

/-- After the commands of a page, where the last page is not owed anything. -/
def turn (migratedKeys : ℕ) : Option (List String) → Operation
  | none => finish migratedKeys
  | some owed => .scanning (some owed) migratedKeys

def visit (pre : String) (found : List String) : List IndexKey → Operation
  | [] => .answered pre found
  | set :: sets => .looking pre set sets none found

def collect (pre : String) (found keys : List String) : List String :=
  keys.foldl (fun found key =>
    if RedisTagIndex.startsWith key pre ∧ key ∉ found then found ++ [key] else found) found

def keep (db : RedisSets) : Operation → Operation
  | .scanning owed migratedKeys =>
    .scanning (owed.map (·.filter (· ∈ db .legacyKnownKeys))) migratedKeys
  | .moving commands owed migratedKeys =>
    .moving commands (owed.map (·.filter (· ∈ db .legacyKnownKeys))) migratedKeys
  | .looking pre set sets owed found =>
    .looking pre set sets (owed.map (·.filter (· ∈ db set))) found
  | operation => operation

variable (index : RedisTagIndex) (db : RedisSets)

def start : Request → Operation
  | .touch key => .sending (index.touchCommands key)
  | .track key tags => .reading key (some tags)
  | .remove key => .reading key none
  | .migrateLegacyKnownKeys =>
    if index.knownKeysShards = 1 then .migrated 0 else .scanning none 0
  | .keysForPrefix pre =>
    if index.knownKeysShards = 1 then .looking pre .legacyKnownKeys [] none [] else .checking pre

/-- `SMEMBERS` of the tags of a key, or `EXISTS` of the legacy set. -/
def read : Operation → Option Operation
  | .reading key (some tags) =>
    some (.sending (index.trackCommands key (db (.keyTags key)) tags))
  | .reading key none => some (.sending (index.removeCommands key (db (.keyTags key))))
  | .checking pre => some (visit pre [] (index.knownKeysKeysForRead db))
  | _ => none

/-- The command that is next, and the operation after it. -/
def send : Operation → Option (RedisCommand × Operation)
  | .sending (command :: commands) => some (command, .sending commands)
  | .moving [command] owed migratedKeys => some (command, turn migratedKeys owed)
  | .moving (command :: commands) owed migratedKeys =>
    some (command, .moving commands owed migratedKeys)
  | .dropping migratedKeys => some (.del .legacyKnownKeys, .migrated migratedKeys)
  | _ => none

def page (keys : List String) (last : Bool) : Operation → Option Operation
  | .scanning owed migratedKeys =>
    (returned (db .legacyKnownKeys) owed keys last).map fun owed =>
      let owed := if last then none else some owed
      if keys = [] then turn migratedKeys owed
      else .moving (keys.map fun key => .sadd (index.knownKeysKeyFor key) [key]) owed
        (migratedKeys + keys.length)
  | .looking pre set sets owed found =>
    (returned (db set) owed keys last).map fun owed =>
      let found := collect pre found keys
      if last then visit pre found sets else .looking pre set sets (some owed) found
  | _ => none

end Operation

structure State where
  db : RedisSets
  nextOperation : ℕ
  operations : ℕ → Option Operation

inductive Action
  | start (request : Request)
  | read (i : ℕ)
  | send (i : ℕ)
  | page (i : ℕ) (keys : List String) (last : Bool)

namespace State

def initial (db : RedisSets) : State := ⟨db, 0, fun _ => none⟩

def become (s : State) (i : ℕ) (operation : Operation) : State :=
  { s with operations := Function.update s.operations i (some operation) }

/-- A command runs, and the iterations of all clients are owed what it leaves. -/
def exec (s : State) (i : ℕ) (command : RedisCommand) (operation : Operation) : State where
  db := command.exec s.db
  nextOperation := s.nextOperation
  operations j := ((s.become i operation).operations j).map (Operation.keep (command.exec s.db))

variable (index : RedisTagIndex)

def step (s : State) : Action → Option State
  | .start request => some { s.become s.nextOperation (.start index request) with
      nextOperation := s.nextOperation + 1 }
  | .read i => (s.operations i).bind fun operation =>
      (operation.read index s.db).map (s.become i)
  | .send i => (s.operations i).bind fun operation =>
      operation.send.map fun (command, operation) => s.exec i command operation
  | .page i keys last => (s.operations i).bind fun operation =>
      (operation.page index s.db keys last).map (s.become i)

end State

def Request.Spares (key : String) : Request → Prop
  | .remove k => k ≠ key
  | _ => True

def Action.Spares (key : String) : Action → Prop
  | .start request => request.Spares key
  | _ => True

variable {index : RedisTagIndex} {key k : String} {db db' : RedisSets} {s s' : State}
  {operation operation' other : Operation} {command : RedisCommand} {keys : List String}
  {last : Bool}

theorem returned_eq_some_iff {members owed' : List String} {owed : Option (List String)} :
    returned members owed keys last = some owed' ↔
      keys ⊆ members ∧ (last = true → owed.getD members ⊆ keys) ∧
        (owed.getD members).filter (· ∉ keys) = owed' := by
  simp only [returned, Option.ite_none_right_eq_some, Option.some.injEq, and_assoc]

theorem Operation.mem_collect {pre : String} {found : List String} :
    k ∈ collect pre found keys ↔
      k ∈ found ∨ k ∈ keys ∧ RedisTagIndex.startsWith k pre = true := by
  induction keys generalizing found with
  | nil => simp [collect]
  | cons key keys ih =>
    rw [collect, List.foldl_cons, ← collect, ih]
    split
    · rename_i hkey
      rw [List.mem_append, List.mem_singleton, List.mem_cons]
      constructor
      · rintro ((h | rfl) | h)
        · exact .inl h
        · exact .inr ⟨.inl rfl, hkey.1⟩
        · exact .inr ⟨.inr h.1, h.2⟩
      · rintro (h | ⟨rfl | h, hpre⟩)
        · exact .inl (.inl h)
        · exact .inl (.inr rfl)
        · exact .inr ⟨h, hpre⟩
    · rename_i hkey
      rw [List.mem_cons]
      constructor
      · rintro (h | h)
        · exact .inl h
        · exact .inr ⟨.inr h.1, h.2⟩
      · rintro (h | ⟨rfl | h, hpre⟩)
        · exact .inl h
        · exact .inl (not_not.mp fun hnot => hkey ⟨hpre, hnot⟩)
        · exact .inr ⟨h, hpre⟩

theorem Operation.send_cases (h : operation.send = some (command, operation')) :
    (∃ commands, operation = .sending (command :: commands) ∧ operation' = .sending commands) ∨
      (∃ commands owed migratedKeys, operation = .moving (command :: commands) owed migratedKeys ∧
        operation' = if commands = [] then .turn migratedKeys owed
          else .moving commands owed migratedKeys) ∨
      ∃ migratedKeys, operation = .dropping migratedKeys ∧ command = .del .legacyKnownKeys ∧
        operation' = .migrated migratedKeys := by
  cases operation with
  | sending commands =>
    cases commands with
    | nil => cases h
    | cons first commands =>
      cases h
      exact .inl ⟨commands, rfl, rfl⟩
  | moving commands owed migratedKeys =>
    cases commands with
    | nil => cases h
    | cons first commands =>
      right
      left
      cases commands with
      | nil =>
        cases h
        exact ⟨[], owed, migratedKeys, rfl, (if_pos rfl).symm⟩
      | cons second commands =>
        cases h
        exact ⟨second :: commands, owed, migratedKeys, rfl, (if_neg (List.cons_ne_nil _ _)).symm⟩
  | dropping migratedKeys =>
    cases h
    exact .inr (.inr ⟨migratedKeys, rfl, rfl, rfl⟩)
  | _ => cases h

theorem State.step_cases {a : Action} (h : s.step index a = some s') :
    (∃ request, a = .start request ∧ s' = { s.become s.nextOperation (.start index request) with
        nextOperation := s.nextOperation + 1 }) ∨
      (∃ i operation operation', s.operations i = some operation ∧
        (operation.read index s.db = some operation' ∨
          ∃ keys last, operation.page index s.db keys last = some operation') ∧
        s' = s.become i operation') ∨
      ∃ i operation command operation', s.operations i = some operation ∧
        operation.send = some (command, operation') ∧ s' = s.exec i command operation' := by
  cases a with
  | start request =>
    cases h
    exact .inl ⟨request, rfl, rfl⟩
  | read i =>
    rw [step, Option.bind_eq_some_iff] at h
    obtain ⟨operation, hi, h⟩ := h
    obtain ⟨operation', hread, rfl⟩ := Option.map_eq_some_iff.mp h
    exact .inr (.inl ⟨i, operation, operation', hi, .inl hread, rfl⟩)
  | send i =>
    rw [step, Option.bind_eq_some_iff] at h
    obtain ⟨operation, hi, h⟩ := h
    obtain ⟨⟨command, operation'⟩, hsend, rfl⟩ := Option.map_eq_some_iff.mp h
    exact .inr (.inr ⟨i, operation, command, operation', hi, hsend, rfl⟩)
  | page i keys last =>
    rw [step, Option.bind_eq_some_iff] at h
    obtain ⟨operation, hi, h⟩ := h
    obtain ⟨operation', hpage, rfl⟩ := Option.map_eq_some_iff.mp h
    exact .inr (.inl ⟨i, operation, operation', hi, .inr ⟨keys, last, hpage⟩, rfl⟩)

theorem State.operations_become {i j : ℕ} (h : (s.become i operation).operations j = some other) :
    j = i ∧ other = operation ∨ j ≠ i ∧ s.operations j = some other := by
  by_cases hj : j = i
  · subst hj
    simp only [become, Function.update_self, Option.some.injEq] at h
    exact .inl ⟨rfl, h.symm⟩
  · simp only [become, Function.update_of_ne hj] at h
    exact .inr ⟨hj, h⟩

theorem State.operations_exec {i j : ℕ}
    (h : (s.exec i command operation).operations j = some other) :
    j = i ∧ other = operation.keep (command.exec s.db) ∨
      j ≠ i ∧ ∃ before, s.operations j = some before ∧ other = before.keep (command.exec s.db) := by
  obtain ⟨before, hbefore, rfl⟩ := Option.map_eq_some_iff.mp h
  rcases operations_become hbefore with ⟨rfl, rfl⟩ | ⟨hj, hold⟩
  · exact .inl ⟨rfl, rfl⟩
  · exact .inr ⟨hj, before, hold, rfl⟩

def State.All (P : RedisSets → Operation → Prop) (s : State) : Prop :=
  ∀ i operation, s.operations i = some operation → P s.db operation

/-- A condition that operations keep, each for itself and for the others. -/
structure Kept (index : RedisTagIndex) (admits : Request → Prop)
    (P : RedisSets → Operation → Prop) : Prop where
  start : ∀ db request, admits request → P db (.start index request)
  read : ∀ {db operation operation'}, P db operation →
    operation.read index db = some operation' → P db operation'
  page : ∀ {db operation operation' keys last}, P db operation →
    operation.page index db keys last = some operation' → P db operation'
  send : ∀ {db operation command operation'}, P db operation →
    operation.send = some (command, operation') →
    P (command.exec db) (operation'.keep (command.exec db))
  other : ∀ {db operation command operation' other}, P db operation →
    operation.send = some (command, operation') → P db other →
    P (command.exec db) (other.keep (command.exec db))

theorem Kept.step {admits : Request → Prop} {P : RedisSets → Operation → Prop}
    (h : Kept index admits P) {a : Action} (ha : ∀ request, a = .start request → admits request)
    (hs : s.step index a = some s') (hall : s.All P) : s'.All P := by
  obtain ⟨request, rfl, rfl⟩ | ⟨i, operation, operation', hi, hmove, rfl⟩ |
    ⟨i, operation, command, operation', hi, hsend, rfl⟩ := State.step_cases hs
  · intro j other hj
    rcases State.operations_become hj with ⟨-, rfl⟩ | ⟨-, hold⟩
    · exact h.start s.db request (ha request rfl)
    · exact hall j other hold
  · intro j other hj
    rcases State.operations_become hj with ⟨-, rfl⟩ | ⟨-, hold⟩
    · rcases hmove with hread | ⟨keys, last, hpage⟩
      · exact h.read (hall i operation hi) hread
      · exact h.page (hall i operation hi) hpage
    · exact hall j other hold
  · intro j other hj
    rcases State.operations_exec hj with ⟨-, rfl⟩ | ⟨-, before, hold, rfl⟩
    · exact h.send (hall i operation hi) hsend
    · exact h.other (hall i operation hi) hsend (hall j before hold)

/-- The command does not put anything into the legacy set. -/
def Sharded : RedisCommand → Prop
  | .sadd set _ => set ≠ .legacyKnownKeys
  | _ => True

theorem Sharded.subset (h : Sharded command) :
    command.exec db .legacyKnownKeys ⊆ db .legacyKnownKeys := by
  intro x hx
  rw [RedisCommand.mem_exec] at hx
  cases command with
  | sadd set members => exact hx.resolve_right fun hset => h hset.1.symm
  | srem set member => exact hx.1
  | del set => exact hx.1

theorem knownKeysKeyFor_of_ne (hshards : index.knownKeysShards ≠ 1) (key : String) :
    index.knownKeysKeyFor key = .knownKeys (simpleHash key % index.knownKeysShards) :=
  if_neg hshards

theorem sharded_sadd (hshards : index.knownKeysShards ≠ 1) (key : String) (members : List String) :
    Sharded (.sadd (index.knownKeysKeyFor key) members) := by
  rw [knownKeysKeyFor_of_ne hshards]
  exact IndexKey.noConfusion

theorem mem_trackCommands {existingTags tags : List String}
    (h : command ∈ index.trackCommands key existingTags tags) :
    command = .sadd (index.knownKeysKeyFor key) [key] ∨
      (∃ tag, command = .srem (.tagKeys tag) key) ∨ command = .del (.keyTags key) ∨
      command = .sadd (.keyTags key) tags ∨ ∃ tag, command = .sadd (.tagKeys tag) [key] := by
  simp only [RedisTagIndex.trackCommands, List.cons_append, List.mem_cons, List.mem_append,
    List.mem_map] at h
  rcases h with h | ⟨tag, -, h⟩ | h | h
  · exact .inl h
  · exact .inr (.inl ⟨tag, h.symm⟩)
  · exact .inr (.inr (.inl h))
  · split at h
    · cases h
    · rcases List.mem_cons.mp h with h | h
      · exact .inr (.inr (.inr (.inl h)))
      · obtain ⟨tag, -, h⟩ := List.mem_map.mp h
        exact .inr (.inr (.inr (.inr ⟨tag, h.symm⟩)))

theorem mem_removeCommands {existingTags : List String}
    (h : command ∈ index.removeCommands key existingTags) :
    (∃ set, command = .srem set key) ∨ command = .del (.keyTags key) := by
  simp only [RedisTagIndex.removeCommands, List.cons_append, List.mem_cons, List.mem_append,
    List.mem_map] at h
  rcases h with h | h | h | ⟨tag, -, h⟩
  · exact .inl ⟨_, h⟩
  · split at h
    · exact .inl ⟨_, List.mem_singleton.mp h⟩
    · cases h
  · exact .inr h
  · exact .inl ⟨_, h.symm⟩

/-- A migration that has moved nothing is owed the whole legacy set, and one that is done has left
nothing there. -/
def Empties (db : RedisSets) : Operation → Prop
  | .sending commands => ∀ command ∈ commands, Sharded command
  | .scanning owed migratedKeys =>
    migratedKeys = 0 → ∀ keys ∈ owed, db .legacyKnownKeys ⊆ keys
  | .moving commands _ migratedKeys => 0 < migratedKeys ∧ ∀ command ∈ commands, Sharded command
  | .migrated _ => db .legacyKnownKeys = []
  | _ => True

theorem Empties.sharded (h : Empties db operation)
    (hsend : operation.send = some (command, operation')) : Sharded command := by
  obtain ⟨commands, rfl, -⟩ | ⟨commands, owed, migratedKeys, rfl, -⟩ |
    ⟨migratedKeys, rfl, rfl, -⟩ := Operation.send_cases hsend
  · exact h command List.mem_cons_self
  · exact h.2 command List.mem_cons_self
  · trivial

theorem Empties.keep (h : Empties db operation)
    (hsub : db' .legacyKnownKeys ⊆ db .legacyKnownKeys) : Empties db' (operation.keep db') := by
  cases operation with
  | scanning owed migratedKeys =>
    intro hzero keys hkeys x hx
    obtain ⟨owed, howed, rfl⟩ := Option.mem_map.mp hkeys
    exact List.mem_filter.mpr ⟨h hzero owed howed (hsub hx), decide_eq_true hx⟩
  | migrated migratedKeys => exact List.subset_nil.mp (h ▸ hsub)
  | _ => exact h

theorem Empties.turn {migratedKeys : ℕ} (hpos : 0 < migratedKeys) (owed : Option (List String)) :
    Empties db (.turn migratedKeys owed) := by
  cases owed with
  | none =>
    rw [Operation.turn, Operation.finish, if_pos hpos]
    trivial
  | some owed => exact fun hzero => absurd hzero hpos.ne'

theorem Empties.page (hshards : index.knownKeysShards ≠ 1) (h : Empties db operation)
    (hpage : operation.page index db keys last = some operation') : Empties db operation' := by
  cases operation with
  | scanning owed migratedKeys =>
    obtain ⟨owed', hreturned, rfl⟩ := Option.map_eq_some_iff.mp hpage
    obtain ⟨hkeys, hlast, rfl⟩ := returned_eq_some_iff.mp hreturned
    rcases eq_or_ne keys [] with rfl | hne
    · rw [if_pos rfl]
      rcases Nat.eq_zero_or_pos migratedKeys with rfl | hpos
      · have howed : db .legacyKnownKeys ⊆ owed.getD (db .legacyKnownKeys) := by
          cases owed with
          | none => exact List.Subset.refl _
          | some owed => exact h rfl owed rfl
        cases last with
        | true => exact List.subset_nil.mp (List.Subset.trans howed (hlast rfl))
        | false =>
          intro _ owed' howed'
          obtain rfl := Option.some.inj howed'
          simpa using howed
      · exact Empties.turn hpos _
    · rw [if_neg hne]
      refine ⟨Nat.add_pos_right _ (List.length_pos_of_ne_nil hne), ?_⟩
      intro command hcommand
      obtain ⟨key, -, rfl⟩ := List.mem_map.mp hcommand
      exact sharded_sadd hshards key [key]
  | looking pre set sets owed found =>
    obtain ⟨owed', -, rfl⟩ := Option.map_eq_some_iff.mp hpage
    dsimp only
    split
    · cases sets <;> trivial
    · trivial
  | _ => cases hpage

theorem Empties.read (hshards : index.knownKeysShards ≠ 1)
    (hread : operation.read index db = some operation') : Empties db operation' := by
  cases operation with
  | reading key tags =>
    cases tags with
    | some tags =>
      cases hread
      intro command hcommand
      rcases mem_trackCommands hcommand with rfl | ⟨tag, rfl⟩ | rfl | rfl | ⟨tag, rfl⟩
      · exact sharded_sadd hshards key [key]
      · trivial
      · trivial
      · exact IndexKey.noConfusion
      · exact IndexKey.noConfusion
    | none =>
      cases hread
      intro command hcommand
      rcases mem_removeCommands hcommand with ⟨set, rfl⟩ | rfl
      · trivial
      · trivial
  | checking pre =>
    cases hread
    cases index.knownKeysKeysForRead db <;> trivial
  | _ => cases hread

theorem Empties.send (h : Empties db operation)
    (hsend : operation.send = some (command, operation')) :
    Empties (command.exec db) operation' := by
  obtain ⟨commands, rfl, rfl⟩ | ⟨commands, owed, migratedKeys, rfl, rfl⟩ |
    ⟨migratedKeys, rfl, rfl, rfl⟩ := Operation.send_cases hsend
  · exact fun command' hcommand => h command' (List.mem_cons_of_mem _ hcommand)
  · split
    · exact Empties.turn h.1 owed
    · exact ⟨h.1, fun command' hcommand => h.2 command' (List.mem_cons_of_mem _ hcommand)⟩
  · simp [Empties, RedisCommand.exec]

theorem kept_empties (hshards : index.knownKeysShards ≠ 1) :
    Kept index (fun _ => True) Empties where
  start db request _ := by
    cases request with
    | touch key =>
      intro command hcommand
      cases List.mem_singleton.mp hcommand
      exact sharded_sadd hshards key [key]
    | track key tags => trivial
    | remove key => trivial
    | migrateLegacyKnownKeys =>
      rw [Operation.start, if_neg hshards]
      rintro - owed ⟨⟩
    | keysForPrefix pre =>
      rw [Operation.start, if_neg hshards]
      trivial
  read _ hread := Empties.read hshards hread
  page h hpage := h.page hshards hpage
  send h hsend := (h.send hsend).keep (List.Subset.refl _)
  other h hsend hother := hother.keep (h.sharded hsend).subset

/-- The command does not take the key out of a set of known keys, and puts none into the legacy
set. -/
def Harmless (key : String) : RedisCommand → Prop
  | .sadd set _ => set ≠ .legacyKnownKeys
  | .srem set member => (∃ tag, set = .tagKeys tag) ∨ member ≠ key
  | .del set => ∃ k, set = .keyTags k

/-- The key is where it was, or has come into its shard. -/
structure Keeps (index : RedisTagIndex) (key : String) (db db' : RedisSets) : Prop where
  legacy : key ∈ db' .legacyKnownKeys → key ∈ db .legacyKnownKeys
  moved : key ∈ db .legacyKnownKeys →
    key ∈ db' .legacyKnownKeys ∨ key ∈ db' (index.knownKeysKeyFor key)
  shards : ∀ shard, key ∈ db (.knownKeys shard) → key ∈ db' (.knownKeys shard)

theorem Harmless.keeps (h : Harmless key command) : Keeps index key db (command.exec db) := by
  constructor
  · intro hkey
    rw [RedisCommand.mem_exec] at hkey
    cases command with
    | sadd set members => exact hkey.resolve_right fun hset => h hset.1.symm
    | srem set member => exact hkey.1
    | del set => exact hkey.1
  · intro hkey
    left
    rw [RedisCommand.mem_exec]
    cases command with
    | sadd set members => exact .inl hkey
    | srem set member =>
      refine ⟨hkey, ?_⟩
      rintro ⟨rfl, rfl⟩
      rcases h with ⟨tag, h⟩ | h
      · cases h
      · exact h rfl
    | del set =>
      refine ⟨hkey, ?_⟩
      rintro rfl
      obtain ⟨k, h⟩ := h
      cases h
  · intro shard hkey
    rw [RedisCommand.mem_exec]
    cases command with
    | sadd set members => exact .inl hkey
    | srem set member =>
      refine ⟨hkey, ?_⟩
      rintro ⟨rfl, rfl⟩
      rcases h with ⟨tag, h⟩ | h
      · cases h
      · exact h rfl
    | del set =>
      refine ⟨hkey, ?_⟩
      rintro rfl
      obtain ⟨k, h⟩ := h
      cases h

theorem Keeps.refl (db : RedisSets) : Keeps index key db db := ⟨id, .inl, fun _ => id⟩

/-- What a migration has yet to do about a key of the legacy set: the key is owed to it, or among
the commands of the page, unless it is in its shard. -/
def Safe (index : RedisTagIndex) (key : String) (db : RedisSets) : Operation → Prop
  | .reading k tags => tags = none → k ≠ key
  | .sending commands => ∀ command ∈ commands, Harmless key command
  | .scanning owed _ => key ∈ db .legacyKnownKeys →
      key ∈ db (index.knownKeysKeyFor key) ∨ ∀ keys ∈ owed, key ∈ keys
  | .moving commands owed _ =>
      (∀ command ∈ commands, ∃ k, command = .sadd (index.knownKeysKeyFor k) [k]) ∧
        (key ∈ db .legacyKnownKeys → key ∈ db (index.knownKeysKeyFor key) ∨
          .sadd (index.knownKeysKeyFor key) [key] ∈ commands ∨ ∃ keys ∈ owed, key ∈ keys)
  | .dropping _ => key ∈ db .legacyKnownKeys → key ∈ db (index.knownKeysKeyFor key)
  | _ => True

theorem Keeps.own (hshards : index.knownKeysShards ≠ 1) (h : Keeps index key db db')
    (hkey : key ∈ db (index.knownKeysKeyFor key)) : key ∈ db' (index.knownKeysKeyFor key) := by
  rw [knownKeysKeyFor_of_ne hshards] at hkey ⊢
  exact h.shards _ hkey

theorem harmless_sadd (hshards : index.knownKeysShards ≠ 1) (k : String) (members : List String) :
    Harmless key (.sadd (index.knownKeysKeyFor k) members) :=
  sharded_sadd hshards k members

theorem Safe.turn {owed : Option (List String)} (migratedKeys : ℕ)
    (h : key ∈ db .legacyKnownKeys →
      key ∈ db (index.knownKeysKeyFor key) ∨ ∃ keys ∈ owed, key ∈ keys) :
    Safe index key db (.turn migratedKeys owed) := by
  cases owed with
  | none =>
    have hown : key ∈ db .legacyKnownKeys → key ∈ db (index.knownKeysKeyFor key) := by
      intro hkey
      rcases h hkey with hown | ⟨keys, hkeys, -⟩
      · exact hown
      · cases hkeys
    rw [Operation.turn, Operation.finish]
    split
    · exact hown
    · trivial
  | some owed =>
    intro hkey
    rcases h hkey with hown | ⟨keys, hkeys, hmem⟩
    · exact .inl hown
    · obtain rfl := Option.some.inj hkeys
      right
      intro keys hkeys
      obtain rfl := Option.some.inj hkeys
      exact hmem

theorem Safe.keeps (hshards : index.knownKeysShards ≠ 1) (h : Safe index key db operation)
    (hsend : operation.send = some (command, operation')) :
    Keeps index key db (command.exec db) := by
  obtain ⟨commands, rfl, -⟩ | ⟨commands, owed, migratedKeys, rfl, -⟩ |
    ⟨migratedKeys, rfl, rfl, -⟩ := Operation.send_cases hsend
  · exact (h command List.mem_cons_self).keeps
  · obtain ⟨k, rfl⟩ := h.1 command List.mem_cons_self
    exact (harmless_sadd hshards k [k]).keeps
  · constructor
    · intro hkey
      simp [RedisCommand.exec] at hkey
    · intro hkey
      right
      rw [knownKeysKeyFor_of_ne hshards, RedisCommand.mem_exec]
      exact ⟨knownKeysKeyFor_of_ne hshards key ▸ h hkey, IndexKey.noConfusion⟩
    · intro shard hkey
      rw [RedisCommand.mem_exec]
      exact ⟨hkey, IndexKey.noConfusion⟩

theorem Safe.keep (hshards : index.knownKeysShards ≠ 1) (h : Safe index key db operation)
    (hkeeps : Keeps index key db db') : Safe index key db' (operation.keep db') := by
  cases operation with
  | scanning owed migratedKeys =>
    intro hkey
    rcases h (hkeeps.legacy hkey) with hown | howed
    · exact .inl (hkeeps.own hshards hown)
    · right
      intro keys hkeys
      obtain ⟨owed, hmem, rfl⟩ := Option.mem_map.mp hkeys
      exact List.mem_filter.mpr ⟨howed owed hmem, decide_eq_true hkey⟩
  | moving commands owed migratedKeys =>
    refine ⟨h.1, fun hkey => ?_⟩
    rcases h.2 (hkeeps.legacy hkey) with hown | hcommand | ⟨keys, hkeys, hmem⟩
    · exact .inl (hkeeps.own hshards hown)
    · exact .inr (.inl hcommand)
    · exact .inr (.inr ⟨_, Option.mem_map_of_mem _ hkeys,
        List.mem_filter.mpr ⟨hmem, decide_eq_true hkey⟩⟩)
  | dropping migratedKeys => exact fun hkey => hkeeps.own hshards (h (hkeeps.legacy hkey))
  | _ => exact h

theorem Safe.send (hshards : index.knownKeysShards ≠ 1) (h : Safe index key db operation)
    (hsend : operation.send = some (command, operation')) :
    Safe index key (command.exec db) operation' := by
  have hkeeps : Keeps index key db (command.exec db) := h.keeps hshards hsend
  obtain ⟨commands, rfl, rfl⟩ | ⟨commands, owed, migratedKeys, rfl, rfl⟩ |
    ⟨migratedKeys, rfl, rfl, rfl⟩ := Operation.send_cases hsend
  · exact fun command' hcommand => h command' (List.mem_cons_of_mem _ hcommand)
  · -- Once its command has run, the key is in its shard.
    have hrest : key ∈ command.exec db .legacyKnownKeys →
        key ∈ command.exec db (index.knownKeysKeyFor key) ∨
          .sadd (index.knownKeysKeyFor key) [key] ∈ commands ∨ ∃ keys ∈ owed, key ∈ keys := by
      intro hkey
      rcases h.2 (hkeeps.legacy hkey) with hown | hcommand | howed
      · exact .inl (hkeeps.own hshards hown)
      · rcases List.mem_cons.mp hcommand with rfl | hcommand
        · left
          rw [RedisCommand.mem_exec]
          exact .inr ⟨rfl, List.mem_cons_self⟩
        · exact .inr (.inl hcommand)
      · exact .inr (.inr howed)
    split
    · rename_i hnil
      subst hnil
      apply Safe.turn
      intro hkey
      exact (hrest hkey).imp_right fun h => h.resolve_left List.not_mem_nil
    · exact ⟨fun command' hcommand => h.1 command' (List.mem_cons_of_mem _ hcommand), hrest⟩
  · trivial

theorem Safe.page (h : Safe index key db operation)
    (hpage : operation.page index db keys last = some operation') :
    Safe index key db operation' := by
  cases operation with
  | scanning owed migratedKeys =>
    obtain ⟨owed', hreturned, rfl⟩ := Option.map_eq_some_iff.mp hpage
    obtain ⟨-, hlast, rfl⟩ := returned_eq_some_iff.mp hreturned
    have howed : key ∈ db .legacyKnownKeys → key ∈ db (index.knownKeysKeyFor key) ∨
        key ∈ owed.getD (db .legacyKnownKeys) := by
      intro hkey
      rcases h hkey with hown | howed
      · exact .inl hown
      · cases owed with
        | none => exact .inr hkey
        | some owed => exact .inr (howed owed rfl)
    have hleft : key ∈ owed.getD (db .legacyKnownKeys) → key ∈ keys ∨
        ∃ owed' ∈ (if last then none
          else some ((owed.getD (db .legacyKnownKeys)).filter (· ∉ keys))), key ∈ owed' := by
      intro hmem
      by_cases hkey : key ∈ keys
      · exact .inl hkey
      · cases last with
        | true => exact absurd (hlast rfl hmem) hkey
        | false => exact .inr ⟨_, rfl, List.mem_filter.mpr ⟨hmem, decide_eq_true hkey⟩⟩
    rcases eq_or_ne keys [] with rfl | hne
    · rw [if_pos rfl]
      apply Safe.turn
      intro hkey
      exact (howed hkey).imp_right fun hmem => (hleft hmem).resolve_left List.not_mem_nil
    · rw [if_neg hne]
      constructor
      · intro command hcommand
        obtain ⟨k, -, rfl⟩ := List.mem_map.mp hcommand
        exact ⟨k, rfl⟩
      · intro hkey
        refine (howed hkey).imp_right fun hmem => (hleft hmem).imp_left fun hkeys => ?_
        exact List.mem_map_of_mem hkeys
  | looking pre set sets owed found =>
    obtain ⟨owed', -, rfl⟩ := Option.map_eq_some_iff.mp hpage
    dsimp only
    split
    · cases sets <;> trivial
    · trivial
  | _ => cases hpage

theorem Safe.read (hshards : index.knownKeysShards ≠ 1) (h : Safe index key db operation)
    (hread : operation.read index db = some operation') : Safe index key db operation' := by
  cases operation with
  | reading k tags =>
    cases tags with
    | some tags =>
      cases hread
      intro command hcommand
      rcases mem_trackCommands hcommand with rfl | ⟨tag, rfl⟩ | rfl | rfl | ⟨tag, rfl⟩
      · exact harmless_sadd hshards k [k]
      · exact .inl ⟨tag, rfl⟩
      · exact ⟨k, rfl⟩
      · exact IndexKey.noConfusion
      · exact IndexKey.noConfusion
    | none =>
      cases hread
      intro command hcommand
      rcases mem_removeCommands hcommand with ⟨set, rfl⟩ | rfl
      · exact .inr (h rfl)
      · exact ⟨k, rfl⟩
  | checking pre =>
    cases hread
    cases index.knownKeysKeysForRead db <;> trivial
  | _ => cases hread

theorem kept_safe (hshards : index.knownKeysShards ≠ 1) (key : String) :
    Kept index (Request.Spares key) (Safe index key) where
  start db request hspares := by
    cases request with
    | touch k =>
      intro command hcommand
      cases List.mem_singleton.mp hcommand
      exact harmless_sadd hshards k [k]
    | track k tags => exact fun h => nomatch h
    | remove k => exact fun _ => hspares
    | migrateLegacyKnownKeys =>
      rw [Operation.start, if_neg hshards]
      intro hkey
      right
      rintro keys ⟨⟩
    | keysForPrefix pre =>
      rw [Operation.start, if_neg hshards]
      trivial
  read h hread := h.read hshards hread
  page h hpage := h.page hpage
  send h hsend := (h.send hshards hsend).keep hshards (Keeps.refl _)
  other h hsend hother := hother.keep hshards (h.keeps hshards hsend)

theorem mem_knownKeysKeys (hshards : index.knownKeysShards ≠ 1) {set : IndexKey} :
    set ∈ index.knownKeysKeys ↔ ∃ shard < index.knownKeysShards, set = .knownKeys shard := by
  rw [RedisTagIndex.knownKeysKeys, if_neg hshards, List.mem_map]
  constructor
  · rintro ⟨shard, hshard, rfl⟩
    exact ⟨shard, List.mem_range.mp hshard, rfl⟩
  · rintro ⟨shard, hshard, rfl⟩
    exact ⟨shard, List.mem_range.mpr hshard, rfl⟩

theorem own_mem_knownKeysKeys (hshards : index.knownKeysShards ≠ 1) (key : String) :
    index.knownKeysKeyFor key ∈ index.knownKeysKeys := by
  rw [mem_knownKeysKeys hshards, knownKeysKeyFor_of_ne hshards]
  exact ⟨_, Nat.mod_lt _ index.knownKeysShards_pos, rfl⟩

theorem known_iff (hshards : index.knownKeysShards ≠ 1) :
    index.Known db key ↔ key ∈ db .legacyKnownKeys ∨ ∃ set ∈ index.knownKeysKeys, key ∈ db set := by
  rw [RedisTagIndex.Known]
  apply or_congr_right
  constructor
  · rintro ⟨-, shard, hshard, hkey⟩
    exact ⟨_, (mem_knownKeysKeys hshards).mpr ⟨shard, hshard, rfl⟩, hkey⟩
  · rintro ⟨set, hset, hkey⟩
    obtain ⟨shard, hshard, rfl⟩ := (mem_knownKeysKeys hshards).mp hset
    exact ⟨hshards, shard, hshard, hkey⟩

theorem Keeps.known (hshards : index.knownKeysShards ≠ 1) (h : Keeps index key db db')
    (hkey : index.Known db key) : index.Known db' key := by
  rw [known_iff hshards] at hkey ⊢
  rcases hkey with hlegacy | ⟨set, hset, hkey⟩
  · exact (h.moved hlegacy).imp_right fun hown => ⟨_, own_mem_knownKeysKeys hshards key, hown⟩
  · obtain ⟨shard, -, rfl⟩ := (mem_knownKeysKeys hshards).mp hset
    exact .inr ⟨_, hset, h.shards shard hkey⟩

/-- A lookup has found the key, or is going to: it is owed the key, or the key is in a set that it
has not come to. The legacy set comes before the shards, so a key that moves is not missed. -/
def Finds (index : RedisTagIndex) (key : String) (db : RedisSets) : Operation → Prop
  | .looking pre set sets owed found =>
      (∀ set' ∈ sets, set' ∈ index.knownKeysKeys) ∧
        (set ∈ index.knownKeysKeys ∨ set = .legacyKnownKeys ∧ sets = index.knownKeysKeys) ∧
        (RedisTagIndex.startsWith key pre = true → key ∈ found ∨
          (key ∈ db set ∧ ∀ keys ∈ owed, key ∈ keys) ∨ ∃ set' ∈ sets, key ∈ db set')
  | .answered pre found => RedisTagIndex.startsWith key pre = true → key ∈ found
  | _ => True

theorem Finds.visit {pre : String} {found : List String} {sets : List IndexKey}
    (hsets : ∀ set ∈ sets, set ∈ index.knownKeysKeys)
    (h : RedisTagIndex.startsWith key pre = true → key ∈ found ∨ ∃ set ∈ sets, key ∈ db set) :
    Finds index key db (.visit pre found sets) := by
  cases sets with
  | nil =>
    intro hpre
    rcases h hpre with hfound | ⟨set, hset, -⟩
    · exact hfound
    · cases hset
  | cons set sets =>
    refine ⟨fun set' hset' => hsets set' (List.mem_cons_of_mem _ hset'),
      .inl (hsets set List.mem_cons_self), fun hpre => ?_⟩
    rcases h hpre with hfound | ⟨set', hset', hkey⟩
    · exact .inl hfound
    · rcases List.mem_cons.mp hset' with rfl | hset'
      · refine .inr (.inl ⟨hkey, ?_⟩)
        rintro keys ⟨⟩
      · exact .inr (.inr ⟨set', hset', hkey⟩)

theorem Finds.keep (hshards : index.knownKeysShards ≠ 1) (h : Finds index key db operation)
    (hkeeps : Keeps index key db db') : Finds index key db' (operation.keep db') := by
  have hshard : ∀ set ∈ index.knownKeysKeys, key ∈ db set → key ∈ db' set := by
    intro set hset hkey
    obtain ⟨shard, -, rfl⟩ := (mem_knownKeysKeys hshards).mp hset
    exact hkeeps.shards shard hkey
  cases operation with
  | looking pre set sets owed found =>
    obtain ⟨hsets, hset, hfinds⟩ := h
    refine ⟨hsets, hset, fun hpre => ?_⟩
    have howed : (∀ keys ∈ owed, key ∈ keys) → key ∈ db' set →
        ∀ keys ∈ owed.map (·.filter (· ∈ db' set)), key ∈ keys := by
      intro howed hkey keys hkeys
      obtain ⟨owed, hmem, rfl⟩ := Option.mem_map.mp hkeys
      exact List.mem_filter.mpr ⟨howed owed hmem, decide_eq_true hkey⟩
    rcases hfinds hpre with hfound | ⟨hkey, hmem⟩ | ⟨set', hset', hkey⟩
    · exact .inl hfound
    · right
      rcases hset with hset | ⟨rfl, rfl⟩
      · exact .inl ⟨hshard set hset hkey, howed hmem (hshard set hset hkey)⟩
      · rcases hkeeps.moved hkey with hlegacy | hown
        · exact .inl ⟨hlegacy, howed hmem hlegacy⟩
        · exact .inr ⟨_, own_mem_knownKeysKeys hshards key, hown⟩
    · exact .inr (.inr ⟨set', hset', hshard set' (hsets set' hset') hkey⟩)
  | _ => exact h

theorem Finds.read (hshards : index.knownKeysShards ≠ 1) (hknown : index.Known db key)
    (hread : operation.read index db = some operation') : Finds index key db operation' := by
  cases operation with
  | reading k tags =>
    cases tags <;> cases hread <;> trivial
  | checking pre =>
    cases hread
    rw [known_iff hshards] at hknown
    rw [RedisTagIndex.knownKeysKeysForRead, if_neg hshards]
    split
    · rename_i hempty
      rw [hempty] at hknown
      exact Finds.visit (fun _ => id) fun _ => .inr (hknown.resolve_left List.not_mem_nil)
    · refine ⟨fun _ => id, .inr ⟨rfl, rfl⟩, fun _ => .inr ?_⟩
      refine hknown.imp_left fun hlegacy => ⟨hlegacy, ?_⟩
      rintro keys ⟨⟩
  | _ => cases hread

theorem Finds.page (h : Finds index key db operation)
    (hpage : operation.page index db keys last = some operation') :
    Finds index key db operation' := by
  cases operation with
  | scanning owed migratedKeys =>
    obtain ⟨owed', -, rfl⟩ := Option.map_eq_some_iff.mp hpage
    rcases eq_or_ne keys [] with rfl | hne
    · rw [if_pos rfl]
      cases last with
      | true =>
        rw [if_pos rfl, Operation.turn, Operation.finish]
        split <;> trivial
      | false => trivial
    · rw [if_neg hne]
      trivial
  | looking pre set sets owed found =>
    obtain ⟨hsets, hset, hfinds⟩ := h
    obtain ⟨owed', hreturned, rfl⟩ := Option.map_eq_some_iff.mp hpage
    obtain ⟨-, hlast, rfl⟩ := returned_eq_some_iff.mp hreturned
    have howed : key ∈ db set ∧ (∀ keys ∈ owed, key ∈ keys) → key ∈ owed.getD (db set) := by
      rintro ⟨hkey, hmem⟩
      cases owed with
      | none => exact hkey
      | some owed => exact hmem owed rfl
    cases last with
    | true =>
      rw [if_pos rfl]
      refine Finds.visit hsets fun hpre => ?_
      rcases hfinds hpre with hfound | hkey | hahead
      · exact .inl (Operation.mem_collect.mpr (.inl hfound))
      · exact .inl (Operation.mem_collect.mpr (.inr ⟨hlast rfl (howed hkey), hpre⟩))
      · exact .inr hahead
    | false =>
      refine ⟨hsets, hset, fun hpre => ?_⟩
      rcases hfinds hpre with hfound | hkey | hahead
      · exact .inl (Operation.mem_collect.mpr (.inl hfound))
      · by_cases hmem : key ∈ keys
        · exact .inl (Operation.mem_collect.mpr (.inr ⟨hmem, hpre⟩))
        · refine .inr (.inl ⟨hkey.1, fun owed' howed' => ?_⟩)
          obtain rfl := Option.some.inj howed'
          exact List.mem_filter.mpr ⟨howed hkey, decide_eq_true hmem⟩
      · exact .inr (.inr hahead)
  | _ => cases hpage

theorem Finds.send (hsend : operation.send = some (command, operation')) :
    Finds index key db operation' := by
  obtain ⟨commands, -, rfl⟩ | ⟨commands, owed, migratedKeys, -, rfl⟩ | ⟨migratedKeys, -, -, rfl⟩ :=
    Operation.send_cases hsend
  · trivial
  · split
    · cases owed with
      | none =>
        rw [Operation.turn, Operation.finish]
        split <;> trivial
      | some owed => trivial
    · trivial
  · trivial

/-- The key is known, and the lookups that start from some number on find it. -/
structure Inv (index : RedisTagIndex) (key : String) (first : ℕ) (s : State) : Prop where
  safe : s.All (Safe index key)
  known : index.Known s.db key
  finds : ∀ i ≥ first, ∀ operation, s.operations i = some operation → Finds index key s.db operation

theorem Inv.step (hshards : index.knownKeysShards ≠ 1) {first : ℕ} (h : Inv index key first s)
    {a : Action} (ha : a.Spares key) (hs : s.step index a = some s') : Inv index key first s' := by
  have hsafe : s'.All (Safe index key) :=
    (kept_safe hshards key).step (fun request hrequest => by subst hrequest; exact ha) hs h.safe
  obtain ⟨request, rfl, rfl⟩ | ⟨i, operation, operation', hi, hmove, rfl⟩ |
    ⟨i, operation, command, operation', hi, hsend, rfl⟩ := State.step_cases hs
  · refine ⟨hsafe, h.known, fun j hj other hother => ?_⟩
    rcases State.operations_become hother with ⟨-, rfl⟩ | ⟨-, hold⟩
    · cases request with
      | migrateLegacyKnownKeys =>
        rw [Operation.start, if_neg hshards]
        trivial
      | keysForPrefix pre =>
        rw [Operation.start, if_neg hshards]
        trivial
      | _ => trivial
    · exact h.finds j hj other hold
  · refine ⟨hsafe, h.known, fun j hj other hother => ?_⟩
    rcases State.operations_become hother with ⟨rfl, rfl⟩ | ⟨-, hold⟩
    · rcases hmove with hread | ⟨keys, last, hpage⟩
      · exact Finds.read hshards h.known hread
      · exact (h.finds j hj operation hi).page hpage
    · exact h.finds j hj other hold
  · have hkeeps : Keeps index key s.db (command.exec s.db) :=
      (h.safe i operation hi).keeps hshards hsend
    refine ⟨hsafe, hkeeps.known hshards h.known, fun j hj other hother => ?_⟩
    rcases State.operations_exec hother with ⟨-, rfl⟩ | ⟨-, before, hold, rfl⟩
    · exact (Finds.send hsend).keep hshards (Keeps.refl _)
    · exact (h.finds j hj before hold).keep hshards hkeeps

def Housed (index : RedisTagIndex) (key : String) (db : RedisSets) : Prop :=
  key ∈ db .legacyKnownKeys ∨ key ∈ db (index.knownKeysKeyFor key)

theorem housed_step (hshards : index.knownKeysShards ≠ 1) (hsafe : s.All (Safe index key))
    (h : Housed index key s.db) {a : Action} (hs : s.step index a = some s') :
    Housed index key s'.db := by
  obtain ⟨request, -, rfl⟩ | ⟨i, operation, operation', -, -, rfl⟩ |
    ⟨i, operation, command, operation', hi, hsend, rfl⟩ := State.step_cases hs
  · exact h
  · exact h
  · have hkeeps : Keeps index key s.db (command.exec s.db) :=
      (hsafe i operation hi).keeps hshards hsend
    rcases h with hlegacy | hown
    · exact hkeeps.moved hlegacy
    · exact .inr (hkeeps.own hshards hown)

/-- Numbers that have not been given have no operation. -/
def State.Numbered (s : State) : Prop := ∀ i, s.operations i ≠ none → i < s.nextOperation

theorem State.Numbered.step (h : s.Numbered) {a : Action} (hs : s.step index a = some s') :
    s'.Numbered := by
  have hupdate : ∀ {i operation}, i < s.nextOperation → ∀ j,
      (s.become i operation).operations j ≠ none → j < s.nextOperation := by
    intro i operation hi j hj
    obtain ⟨other, hother⟩ := Option.ne_none_iff_exists'.mp hj
    rcases operations_become hother with ⟨rfl, -⟩ | ⟨-, hold⟩
    · exact hi
    · exact h j (by simp [hold])
  obtain ⟨request, -, rfl⟩ | ⟨i, operation, operation', hi, -, rfl⟩ |
    ⟨i, operation, command, operation', hi, -, rfl⟩ := step_cases hs
  · intro j hj
    obtain ⟨other, hother⟩ := Option.ne_none_iff_exists'.mp hj
    rcases operations_become hother with ⟨rfl, -⟩ | ⟨-, hold⟩
    · exact Nat.lt_succ_self _
    · exact Nat.lt_succ_of_lt (h j (by simp [hold]))
  · exact hupdate (h i (by simp [hi]))
  · intro j hj
    have hbecome : (s.become i operation').operations j ≠ none := by
      intro hnone
      exact hj (by simp only [exec, hnone, Option.map_none])
    exact hupdate (h i (by simp [hi])) j hbecome

theorem all_initial {P : RedisSets → Operation → Prop} (db : RedisSets) :
    (State.initial db).All P := by
  rintro i operation ⟨⟩

/-- Whatever clients do between a migration's commands: a known key that none of them removes stays
known, a lookup that starts from then on finds it, and once a migration is done, the legacy set is
gone and the key that was there is in its shard. -/
theorem migration_keeps_known (index : RedisTagIndex) (hshards : index.knownKeysShards ≠ 1)
    (db : RedisSets) (key : String)
    (hbefore : Reaches (State.step index) (fun _ a => a.Spares key) (.initial db) s)
    (hknown : index.Known s.db key)
    (hafter : Reaches (State.step index) (fun _ a => a.Spares key) s s') :
    index.Known s'.db key ∧
      (∀ i ≥ s.nextOperation, ∀ pre found, s'.operations i = some (.answered pre found) →
        RedisTagIndex.startsWith key pre = true → key ∈ found) ∧
      ∀ i migratedKeys, s'.operations i = some (.migrated migratedKeys) →
        s'.db .legacyKnownKeys = [] ∧
          (key ∈ s.db .legacyKnownKeys → key ∈ s'.db (index.knownKeysKeyFor key)) := by
  have hsafe : s.All (Safe index key) := hbefore.invariant
    (fun t a t' h ha hs => (kept_safe hshards key).step (fun _ ha' => by subst ha'; exact ha) hs h)
    (all_initial db)
  have hnumbered : s.Numbered :=
    hbefore.invariant (fun _ _ _ h _ hs => h.step hs) fun _ h => absurd rfl h
  have hinv : Inv index key s.nextOperation s' := by
    apply hafter.invariant fun _ _ _ h ha hs => h.step hshards ha hs
    refine ⟨hsafe, hknown, fun i hi operation hoperation => ?_⟩
    exact absurd (hnumbered i (by simp [hoperation])) (Nat.not_lt.mpr hi)
  have hempties : s'.All Empties := Reaches.invariant (hbefore.trans hafter)
    (fun t a t' h _ hs => (kept_empties hshards).step (fun _ _ => trivial) hs h) (all_initial db)
  refine ⟨hinv.known, fun i hi pre found hfound => hinv.finds i hi _ hfound, ?_⟩
  intro i migratedKeys hi
  have hempty : s'.db .legacyKnownKeys = [] := hempties i _ hi
  refine ⟨hempty, fun hlegacy => ?_⟩
  have hhoused : s'.All (Safe index key) ∧ Housed index key s'.db := by
    apply hafter.invariant (P := fun t => t.All (Safe index key) ∧ Housed index key t.db) ?_
      ⟨hsafe, .inl hlegacy⟩
    intro t a t' h ha hs
    exact ⟨(kept_safe hshards key).step (fun _ ha' => by subst ha'; exact ha) hs h.1,
      housed_step hshards h.1 h.2 hs⟩
  rcases hhoused.2 with hstill | hown
  · rw [hempty] at hstill
    cases hstill
  · exact hown

def twoShards : RedisTagIndex := ⟨2, by decide⟩

def legacyOnly : RedisSets := Function.update (fun _ => []) .legacyKnownKeys ["a"]

/-- A lookup that starts while the set is there and reads on when it is gone. -/
def overtaken : List Action :=
  [.start .migrateLegacyKnownKeys, .page 0 ["a"] true, .start (.keysForPrefix "a"), .read 1,
    .send 0, .send 0, .page 1 [] true, .page 1 [] true, .page 1 ["a"] true]

theorem migration_keeps_known_overtaken : ∃ s', run (State.step twoShards) (.initial legacyOnly)
    overtaken = some s' ∧ s'.operations 1 = some (.answered "a" ["a"]) ∧ "a" ∈ ["a"] ∧
      s'.db .legacyKnownKeys = [] ∧ "a" ∈ s'.db (.knownKeys 1) := by
  have hresult : (run (State.step twoShards) (.initial legacyOnly) overtaken).map (fun s' =>
      (s'.operations 0, s'.operations 1)) =
        some (some (.migrated 1), some (.answered "a" ["a"])) := by decide
  obtain ⟨s', hrun, hops⟩ := Option.map_eq_some_iff.mp hresult
  obtain ⟨hmigration, hlookup⟩ := Prod.mk.inj hops
  have hspares : Along (State.step twoShards) (fun _ a => a.Spares "a") (.initial legacyOnly)
      overtaken := by
    apply along_of_forall
    intro s a ha
    simp only [overtaken, List.mem_cons, List.not_mem_nil, or_false] at ha
    rcases ha with rfl | rfl | rfl | rfl | rfl | rfl | rfl | rfl | rfl <;> trivial
  obtain ⟨-, hfound, hmigrated⟩ := migration_keeps_known twoShards (by decide) legacyOnly "a" .refl
    (.inl List.mem_cons_self) (reaches_of_run _ hrun hspares)
  obtain ⟨hempty, hmoved⟩ := hmigrated 0 1 hmigration
  exact ⟨s', hrun, hlookup, hfound 1 (Nat.zero_le 1) "a" ["a"] hlookup (by decide), hempty,
    hmoved List.mem_cons_self⟩

end LayerCache.LegacyMigration
