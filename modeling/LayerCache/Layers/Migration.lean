import LayerCache.Transition.Run
import Mathlib.Data.Int.Notation
import Mathlib.Data.Nat.Notation
import Mathlib.Logic.Function.Basic

/-! # Migration to the primary serializer

A read that decodes an entry with another serializer of the chain than the first writes the
value back with the first one: it asks for the remaining time to live and then sets the key.
The commands of readers and of other clients interleave on the server, and time passes.
-/

namespace LayerCache.Migration

open Transition

/-- A serializer; where `deserialize` throws there is no value. -/
structure CacheSerializer (P V : Type) where
  serialize : V → P
  deserialize : P → Option V

structure RedisLayer (P V : Type) where
  primarySerializer : CacheSerializer P V
  fallbacks : List (CacheSerializer P V)
  encodePayload : P → P
  decodePayload : P → Option P

inductive Decoded (V : Type)
  | primary (value : V)
  | fallback (value : V)
  | corrupt
  deriving DecidableEq

/-- Which serializer of the chain has read the payload, if any has. -/
def RedisLayer.deserialize {P V : Type} (layer : RedisLayer P V) (payload : P) : Decoded V :=
  match layer.decodePayload payload with
  | none => .corrupt
  | some decodedPayload =>
    match layer.primarySerializer.deserialize decodedPayload with
    | some value => .primary value
    | none =>
      match layer.fallbacks.findSome? fun serializer => serializer.deserialize decodedPayload with
      | some value => .fallback value
      | none => .corrupt

/-- A key as the server holds it. `write` is the number of the write its value comes from; a
migration keeps it. -/
structure Entry (P : Type) where
  payload : P
  expiresAt : Option ℕ
  write : ℕ
  deriving DecidableEq

def Entry.Live {P : Type} (entry : Entry P) (now : ℕ) : Prop := ∀ t ∈ entry.expiresAt, now ≤ t

instance {P : Type} (entry : Entry P) (now : ℕ) : Decidable (entry.Live now) :=
  inferInstanceAs (Decidable (∀ t ∈ entry.expiresAt, now ≤ t))

inductive Reader (K V : Type)
  | idle
  /-- Another serializer than the first has decoded the value. -/
  | decoded (key : K) (value : V) (write : ℕ)
  /-- The remaining time to live is known, and the key is to be set. -/
  | timed (key : K) (value : V) (write : ℕ) (ttl : ℤ)
  /-- No serializer could decode the payload, and the key is to be deleted. -/
  | corrupt (key : K)
  deriving DecidableEq

inductive Command (K P : Type)
  | set (key : K) (payload : P) (px : Option ℕ)
  | del (keys : List K)
  | pexpire (key : K) (ms : ℕ)
  | persist (key : K)

inductive Action (ι K P : Type)
  | tick (ms : ℕ)
  | client (command : Command K P)
  | get (i : ι) (key : K)
  | pttl (i : ι)
  | rewrite (i : ι)
  | deleteCorrupted (i : ι)
  /-- A command of the reader fails, which ends its migration or its clean-up. -/
  | fail (i : ι)

structure State (ι K P V : Type) where
  now : ℕ
  entries : K → Option (Entry P)
  writes : ℕ
  readers : ι → Reader K V

namespace State
variable {ι K P V : Type} [DecidableEq ι] [DecidableEq K] (s : State ι K P V)

/-- The entry of a key that exists and has not expired. -/
def lookup (key : K) : Option (Entry P) :=
  (s.entries key).filter fun entry => decide (entry.Live s.now)

/-- The answer to `PTTL`. -/
def pttl (key : K) : ℤ :=
  match s.lookup key with
  | none => -2
  | some entry =>
    match entry.expiresAt with
    | none => -1
    | some t => t - s.now

def elapse (ms : ℕ) : State ι K P V := { s with now := s.now + ms }

def become (i : ι) (reader : Reader K V) : State ι K P V :=
  { s with readers := Function.update s.readers i reader }

def put (key : K) (entry : Option (Entry P)) : State ι K P V :=
  { s with entries := Function.update s.entries key entry }

def remove (keys : List K) : State ι K P V :=
  { s with entries := fun key => if key ∈ keys then none else s.entries key }

def execute : Command K P → State ι K P V
  | .set key payload px =>
    { s.put key (some ⟨payload, px.map (s.now + ·), s.writes⟩) with writes := s.writes + 1 }
  | .del keys => s.remove keys
  | .pexpire key ms =>
    if ms = 0 then s.remove [key]
    else s.put key ((s.lookup key).map fun entry => { entry with expiresAt := some (s.now + ms) })
  | .persist key => s.put key ((s.lookup key).map fun entry => { entry with expiresAt := none })

/-- What a reader goes on with after `GET`. -/
def received (layer : RedisLayer P V) (key : K) : Reader K V :=
  match s.lookup key with
  | none => .idle
  | some entry =>
    match layer.deserialize entry.payload with
    | .primary _ => .idle
    | .fallback value => .decoded key value entry.write
    | .corrupt => .corrupt key

/-- The entry `rewriteWithPrimarySerializer` sets. -/
def rewritten (layer : RedisLayer P V) (value : V) (write : ℕ) (ttl : ℤ) : Entry P where
  payload := layer.encodePayload (layer.primarySerializer.serialize value)
  expiresAt := if 0 < ttl then some (s.now + ttl.toNat) else none
  write := write

def step (layers : ι → RedisLayer P V) : Action ι K P → Option (State ι K P V)
  | .tick ms => some (s.elapse ms)
  | .client command => some (s.execute command)
  | .get i key =>
    match s.readers i with
    | .idle => some (s.become i (s.received (layers i) key))
    | _ => none
  | .pttl i =>
    match s.readers i with
    | .decoded key value write => some (s.become i (.timed key value write (s.pttl key)))
    | _ => none
  | .rewrite i =>
    match s.readers i with
    | .timed key value write ttl =>
      some ((s.put key (some (s.rewritten (layers i) value write ttl))).become i .idle)
    | _ => none
  | .deleteCorrupted i =>
    match s.readers i with
    | .corrupt key => some ((s.remove [key]).become i .idle)
    | _ => none
  | .fail i => some (s.become i .idle)

/-- What the server holds at first, and no reader has begun. -/
def initial (entries : K → Option (Entry P)) (writes now : ℕ) : State ι K P V :=
  ⟨now, entries, writes, fun _ => .idle⟩

/-- The `SET` of a pending migration hits the entry that has been read, or one written before
it, and leaves no entry without expiry that has one. -/
def Transparent : Prop :=
  ∀ i key value write ttl, s.readers i = .timed key value write ttl →
    ∃ entry, s.lookup key = some entry ∧ entry.write ≤ write ∧
      (entry.expiresAt.isSome → 0 < ttl)

/-- The reader has read the key for a migration and not yet set it. -/
def Reads (i : ι) (key : K) (value : V) (write : ℕ) : Prop :=
  s.readers i = .decoded key value write ∨ ∃ ttl, s.readers i = .timed key value write ttl

def Migrates (key : K) : Prop := ∃ i value write, s.Reads i key value write

/-- Every migration that is about to set the key has found an expiry. -/
def FoundExpiry (key : K) : Prop :=
  ∀ i value write ttl, s.readers i = .timed key value write ttl → 0 < ttl

/-- The step leaves keys alone that are being migrated: nobody sets or deletes them and they
do not expire, `PTTL` is not asked in the very last millisecond, and no key gets an expiry
once a migration has found it without. -/
def KeepsMigrated (s : State ι K P V) : Action ι K P → Prop
  | .tick ms => ∀ key, s.Migrates key → ∀ entry ∈ s.lookup key, entry.Live (s.now + ms)
  | .client (.set key _ _) => ¬ s.Migrates key
  | .client (.del keys) => ∀ key ∈ keys, ¬ s.Migrates key
  | .client (.pexpire key ms) => if ms = 0 then ¬ s.Migrates key else s.FoundExpiry key
  | .client (.persist _) => True
  | .get _ _ => True
  | .pttl i => ∀ key value write, s.readers i = .decoded key value write → s.pttl key ≠ 0
  | .rewrite i => ∀ key value write ttl, s.readers i = .timed key value write ttl → 0 < ttl →
      s.FoundExpiry key
  | .deleteCorrupted i => ∀ key, s.readers i = .corrupt key → ¬ s.Migrates key
  | .fail _ => True

end State

section Server
variable {ι K P V : Type} {s : State ι K P V} {key k : K} {entry : Entry P}

theorem lookup_eq_some_iff :
    s.lookup key = some entry ↔
      s.entries key = some entry ∧ entry.Live s.now := by
  rw [State.lookup, Option.filter_eq_some_iff, decide_eq_true_eq]

theorem pttl_pos (hentry : s.lookup key = some entry) (hexpiry : entry.expiresAt.isSome)
    (hne : s.pttl key ≠ 0) : 0 < s.pttl key := by
  obtain ⟨t, ht⟩ := Option.isSome_iff_exists.mp hexpiry
  have hlive := (lookup_eq_some_iff.mp hentry).2 t ht
  simp only [State.pttl, hentry, ht] at hne ⊢
  omega

variable [DecidableEq K]

theorem lookup_put_of_ne {e : Option (Entry P)} (h : k ≠ key) :
    (s.put key e).lookup k = s.lookup k := by
  unfold State.lookup State.put
  simp only
  rw [Function.update_of_ne h]

theorem lookup_put_self {e : Option (Entry P)} :
    (s.put key e).lookup key = some entry ↔ e = some entry ∧ entry.Live s.now := by
  rw [lookup_eq_some_iff, State.put]
  simp only [Function.update_self]

theorem lookup_remove {keys : List K} :
    (s.remove keys).lookup key = if key ∈ keys then none else s.lookup key := by
  unfold State.lookup State.remove
  simp only
  split <;> rfl

end Server

section Invariant
variable {ι K P V : Type} {s s' : State ι K P V}

/-- A key that is being migrated still has the value that was read, and if it has an expiry,
then no `PTTL` has missed it. -/
structure Inv (s : State ι K P V) : Prop where
  held : ∀ i key value write, s.Reads i key value write →
    ∃ entry, s.lookup key = some entry ∧ entry.write = write
  expiry : ∀ key entry, s.lookup key = some entry → entry.expiresAt.isSome → s.FoundExpiry key

theorem foundExpiry_of_not_migrates {key : K} (h : ¬ s.Migrates key) : s.FoundExpiry key :=
  fun i value write ttl hi => absurd ⟨i, value, write, Or.inr ⟨ttl, hi⟩⟩ h

/-- What happens on the server keeps the invariant if it keeps the keys that are being
migrated. -/
theorem Inv.server (h : Inv s) (hreaders : s'.readers = s.readers)
    (hheld : ∀ key entry, s.Migrates key → s.lookup key = some entry →
      ∃ entry', s'.lookup key = some entry' ∧ entry'.write = entry.write)
    (hexpiry : ∀ key entry', s'.lookup key = some entry' → entry'.expiresAt.isSome →
      s.FoundExpiry key) : Inv s' := by
  constructor
  · intro i key value write hreads
    simp only [State.Reads, hreaders] at hreads
    obtain ⟨entry, hentry, rfl⟩ := h.held i key value write hreads
    exact hheld key entry ⟨i, value, _, hreads⟩ hentry
  · intro key entry hentry hsome
    simp only [State.FoundExpiry, hreaders]
    exact hexpiry key entry hentry hsome

theorem Inv.tick (h : Inv s) {ms : ℕ} (hok : s.KeepsMigrated (.tick ms)) :
    Inv (s.elapse ms) := by
  have hlookup : ∀ key entry, (s.elapse ms).lookup key = some entry ↔
      s.lookup key = some entry ∧ entry.Live (s.now + ms) := by
    intro key entry
    rw [lookup_eq_some_iff, lookup_eq_some_iff]
    constructor
    · rintro ⟨hentry, hlive⟩
      exact ⟨⟨hentry, fun t ht => Nat.le_trans (Nat.le_add_right _ _) (hlive t ht)⟩, hlive⟩
    · rintro ⟨⟨hentry, -⟩, hlive⟩
      exact ⟨hentry, hlive⟩
  refine h.server rfl ?_ ?_
  · intro key entry hmigrates hentry
    exact ⟨entry, (hlookup key entry).mpr ⟨hentry, hok key hmigrates entry hentry⟩, rfl⟩
  · intro key entry' hentry' hsome
    exact h.expiry key entry' ((hlookup key entry').mp hentry').1 hsome

theorem Inv.transparent (h : Inv s) : s.Transparent := by
  intro i key value write ttl hreader
  obtain ⟨entry, hentry, hwrite⟩ := h.held i key value write (Or.inr ⟨ttl, hreader⟩)
  exact ⟨entry, hentry, Nat.le_of_eq hwrite, fun hsome =>
    h.expiry key entry hentry hsome i value write ttl hreader⟩

theorem inv_initial (entries : K → Option (Entry P)) (writes now : ℕ) :
    Inv (State.initial entries writes now : State ι K P V) := by
  constructor
  · rintro i key value write (hreader | ⟨ttl, hreader⟩) <;> cases hreader
  · intro key entry _ _ i value write ttl hreader
    cases hreader

section Commands
variable [DecidableEq K]

theorem Inv.remove (h : Inv s) {keys : List K} (hkeys : ∀ key ∈ keys, ¬ s.Migrates key) :
    Inv (s.remove keys) := by
  refine h.server rfl ?_ ?_
  · intro key entry hmigrates hentry
    rw [lookup_remove, if_neg fun hmem => hkeys key hmem hmigrates]
    exact ⟨entry, hentry, rfl⟩
  · intro key entry' hentry' hsome
    rw [lookup_remove] at hentry'
    split at hentry'
    · cases hentry'
    · exact h.expiry key entry' hentry' hsome

/-- An entry that takes the place of another keeps the value that is being migrated and brings
no expiry that a migration does not know. -/
theorem Inv.put (h : Inv s) {key : K} {e : Option (Entry P)}
    (hheld : ∀ entry, s.Migrates key → s.lookup key = some entry →
      ∃ entry', e = some entry' ∧ entry'.Live s.now ∧ entry'.write = entry.write)
    (hexpiry : ∀ entry', e = some entry' → entry'.expiresAt.isSome → s.FoundExpiry key) :
    Inv (s.put key e) := by
  refine h.server rfl ?_ ?_
  · intro k entry hmigrates hentry
    by_cases hk : k = key
    · subst hk
      obtain ⟨entry', rfl, hlive, hwrite⟩ := hheld entry hmigrates hentry
      exact ⟨entry', lookup_put_self.mpr ⟨rfl, hlive⟩, hwrite⟩
    · rw [lookup_put_of_ne hk]
      exact ⟨entry, hentry, rfl⟩
  · intro k entry' hentry' hsome
    by_cases hk : k = key
    · subst hk
      exact hexpiry entry' (lookup_put_self.mp hentry').1 hsome
    · rw [lookup_put_of_ne hk] at hentry'
      exact h.expiry k entry' hentry' hsome

theorem Inv.execute (h : Inv s) {command : Command K P}
    (hok : s.KeepsMigrated (.client command)) : Inv (s.execute command) := by
  cases command with
  | set key payload px =>
    have hnot : ¬ s.Migrates key := hok
    have hput : Inv (s.put key (some ⟨payload, px.map (s.now + ·), s.writes⟩)) :=
      h.put (fun entry hmigrates => absurd hmigrates hnot)
        fun _ _ _ => foundExpiry_of_not_migrates hnot
    exact ⟨hput.held, hput.expiry⟩
  | del keys => exact h.remove hok
  | pexpire key ms =>
    unfold State.KeepsMigrated at hok
    unfold State.execute
    simp only at hok ⊢
    split
    · rename_i hms
      rw [if_pos hms] at hok
      apply h.remove
      intro k hk
      rwa [List.mem_singleton.mp hk]
    · rename_i hms
      rw [if_neg hms] at hok
      apply h.put
      · intro entry _ hentry
        refine ⟨{ entry with expiresAt := some (s.now + ms) }, by rw [hentry]; rfl, ?_, rfl⟩
        rintro t ⟨⟩
        exact Nat.le_add_right _ _
      · exact fun _ _ _ => hok
  | persist key =>
    apply h.put
    · intro entry _ hentry
      exact ⟨{ entry with expiresAt := none }, by rw [hentry]; rfl, fun t ht => (nomatch ht), rfl⟩
    · intro entry' hentry' hsome
      obtain ⟨entry, -, rfl⟩ := Option.map_eq_some_iff.mp hentry'
      cases hsome

end Commands

section Readers
variable [DecidableEq ι]

theorem Inv.become (h : Inv s) {i : ι} {reader : Reader K V}
    (hheld : ∀ key value write, reader = .decoded key value write ∨
      (∃ ttl, reader = .timed key value write ttl) →
        ∃ entry, s.lookup key = some entry ∧ entry.write = write)
    (hexpiry : ∀ key value write ttl, reader = .timed key value write ttl →
      ∀ entry, s.lookup key = some entry → entry.expiresAt.isSome → 0 < ttl) :
    Inv (s.become i reader) := by
  constructor
  · intro j key value write hreads
    simp only [State.Reads, State.become] at hreads
    by_cases hj : j = i
    · subst hj
      simp only [Function.update_self] at hreads
      exact hheld key value write hreads
    · simp only [Function.update_of_ne hj] at hreads
      exact h.held j key value write hreads
  · intro key entry hentry hsome j value write ttl hreader
    by_cases hj : j = i
    · subst hj
      simp only [State.become, Function.update_self] at hreader
      exact hexpiry key value write ttl hreader entry hentry hsome
    · simp only [State.become, Function.update_of_ne hj] at hreader
      exact h.expiry key entry hentry hsome j value write ttl hreader

theorem Inv.become_idle (h : Inv s) {i : ι} {reader : Reader K V}
    (hreader : reader = .idle ∨ ∃ key, reader = .corrupt key) : Inv (s.become i reader) := by
  apply h.become
  · rintro key value write (rfl | ⟨ttl, rfl⟩) <;> simp at hreader
  · rintro key value write ttl rfl
    simp at hreader

theorem Inv.received (h : Inv s) {i : ι} {key : K} {layer : RedisLayer P V} :
    Inv (s.become i (s.received layer key)) := by
  unfold State.received
  cases hentry : s.lookup key with
  | none => exact h.become_idle (Or.inl rfl)
  | some entry =>
    simp only
    split
    · exact h.become_idle (Or.inl rfl)
    · apply h.become
      · rintro k value write (hreads | ⟨ttl, hreads⟩)
        · cases hreads
          exact ⟨entry, hentry, rfl⟩
        · cases hreads
      · intro k value write ttl hreads
        cases hreads
    · exact h.become_idle (Or.inr ⟨key, rfl⟩)

variable [DecidableEq K]

theorem Inv.step (h : Inv s) {layers : ι → RedisLayer P V} {a : Action ι K P}
    (hok : s.KeepsMigrated a)
    (hstep : s.step layers a = some s') : Inv s' := by
  cases a with
  | tick ms =>
    cases hstep
    exact h.tick hok
  | client command =>
    cases hstep
    exact h.execute hok
  | get i key =>
    unfold State.step at hstep
    simp only at hstep
    split at hstep
    · cases hstep
      exact h.received
    · cases hstep
  | pttl i =>
    unfold State.step at hstep
    simp only at hstep
    split at hstep
    · rename_i key value write hreader
      cases hstep
      obtain ⟨entry, hentry, hwrite⟩ := h.held i key value write (Or.inl hreader)
      apply h.become
      · rintro k v w (hreads | ⟨ttl, hreads⟩)
        · cases hreads
        · cases hreads
          exact ⟨entry, hentry, hwrite⟩
      · rintro k v w ttl hreads entry' hentry' hsome
        cases hreads
        exact pttl_pos hentry' hsome (hok key value write hreader)
    · cases hstep
  | rewrite i =>
    unfold State.step at hstep
    simp only at hstep
    split at hstep
    · rename_i key value write ttl hreader
      cases hstep
      refine Inv.become_idle ?_ (Or.inl rfl)
      obtain ⟨entry, hentry, rfl⟩ := h.held i key value write (Or.inr ⟨ttl, hreader⟩)
      apply h.put
      · intro entry' _ hentry'
        rw [hentry] at hentry'
        cases hentry'
        refine ⟨_, rfl, ?_, rfl⟩
        intro t ht
        unfold State.rewritten at ht
        simp only at ht
        split at ht
        · cases ht
          exact Nat.le_add_right _ _
        · cases ht
      · intro entry' hentry' hsome
        cases hentry'
        unfold State.rewritten at hsome
        simp only at hsome
        split at hsome
        · exact hok key value entry.write ttl hreader ‹_›
        · cases hsome
    · cases hstep
  | deleteCorrupted i =>
    unfold State.step at hstep
    simp only at hstep
    split at hstep
    · rename_i key hreader
      cases hstep
      refine Inv.become_idle (h.remove ?_) (Or.inl rfl)
      intro k hk
      rw [List.mem_singleton.mp hk]
      exact hok key hreader
    · cases hstep
  | fail i =>
    cases hstep
    exact h.become_idle (Or.inl rfl)

/-- Migrations replace no newer value, bring no key back and leave no key without its expiry,
in every run that leaves the keys alone while they are being migrated. -/
theorem transparent_of_reaches {layers : ι → RedisLayer P V} (entries : K → Option (Entry P))
    (writes now : ℕ)
    (h : Reaches (fun s a => State.step s layers a) State.KeepsMigrated
      (State.initial entries writes now : State ι K P V) s) : s.Transparent := by
  have hinv : Inv s :=
    h.invariant (fun _ _ _ hs hok hstep => Inv.step hs hok hstep) (inv_initial entries writes now)
  exact hinv.transparent

end Readers

end Invariant

/-- Payloads in the format of the first serializer or of another. -/
def formatSerializer (first : Bool) : CacheSerializer (Bool × ℕ) ℕ where
  serialize value := (first, value)
  deserialize payload := if payload.1 = first then some payload.2 else none

def chain : RedisLayer (Bool × ℕ) ℕ where
  primarySerializer := formatSerializer true
  fallbacks := [formatSerializer false]
  encodePayload := id
  decodePayload := some

def stored : String → Option (Entry (Bool × ℕ)) :=
  Function.update (fun _ => none) "user" (some ⟨(false, 1), some 500, 0⟩)

abbrev start : State Unit String (Bool × ℕ) ℕ := State.initial stored 1 0

theorem transparent_user : ∃ s, run (fun s a => State.step s (fun _ => chain) a) start
      [.get () "user", .tick 100, .pttl ()] = some s ∧
    s.readers () = .timed "user" 1 0 400 ∧ s.Transparent := by
  have hlive : ∀ key entry, stored key = some entry → entry.Live 100 := by
    intro key entry hentry
    by_cases hkey : key = "user"
    · subst hkey
      rw [stored, Function.update_self] at hentry
      cases hentry
      decide
    · rw [stored, Function.update_of_ne hkey] at hentry
      cases hentry
  have hkeeps : Along (fun s a => State.step s (fun _ => chain) a) State.KeepsMigrated start
      [.get () "user", .tick 100, .pttl ()] := by
    refine ⟨trivial, ?_⟩
    rintro s ⟨⟩
    constructor
    · intro key _ entry hentry
      exact hlive key entry (lookup_eq_some_iff.mp hentry).1
    · rintro s ⟨⟩
      refine ⟨?_, fun _ _ => trivial⟩
      rintro key value write ⟨⟩
      decide
  exact ⟨_, rfl, rfl, transparent_of_reaches stored 1 0 (reaches_of_run _ rfl hkeeps)⟩

/-- Another client sets the key after `PTTL`, and the migration puts the old value back. -/
theorem not_transparent_set : ¬ ∀ s, Reaches (fun s a => State.step s (fun _ => chain) a)
    (fun _ _ => True) start s → s.Transparent := by
  intro h
  have hall : Along (fun s a => State.step s (fun _ => chain) a) (fun _ _ => True) start
      [.get () "user", .pttl (), .client (.set "user" (true, 2) (some 500))] :=
    ⟨trivial, fun _ _ => ⟨trivial, fun _ _ => ⟨trivial, fun _ _ => trivial⟩⟩⟩
  have hreach : Reaches (fun s a => State.step s (fun _ => chain) a) (fun _ _ => True) start _ :=
    reaches_of_run (fun _ _ => True) rfl hall
  obtain ⟨entry, hentry, hwrite, -⟩ := h _ hreach () "user" 1 0 500 rfl
  have hnew : entry = ⟨(true, 2), some 500, 1⟩ := (Option.some.inj hentry).symm
  subst hnew
  exact absurd hwrite (by decide)

end LayerCache.Migration
