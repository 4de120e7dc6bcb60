import LayerCache.Transition.Run
import Mathlib.Algebra.GroupWithZero.Nat
import Mathlib.Data.List.TakeWhile
import Mathlib.Data.Rat.Lemmas
import Mathlib.Logic.Function.Basic
import Mathlib.Order.Lattice

/-! # The generation in Redis

Instances of a deployment keep their generation in one Redis key. They initialize it with
`SET NX` and `GET`, read it and bump it with `INCR`, and their commands come in any order. What has
been read never goes back, no two bumps come to the same generation, and no call fails before the
generations run out.
-/

namespace LayerCache.GenerationStore

open Transition

def MAX_SAFE_INTEGER : ℕ := 2 ^ 53 - 1

/-- What `parseInt` skips at the front. -/
def isWhiteSpace (c : Char) : Bool :=
  [0x9, 0xA, 0xB, 0xC, 0xD, 0x20, 0xA0, 0x1680, 0x2028, 0x2029, 0x202F, 0x205F, 0x3000,
    0xFEFF].contains c.toNat || decide (0x2000 ≤ c.toNat ∧ c.toNat ≤ 0x200A)

/-- `Number.parseInt(value, 10)`, `none` for NaN. Past the safe integers the number would be
rounded; no generation is read from there. -/
def parseInt (value : String) : Option ℤ :=
  let unsigned (text : List Char) : Option ℕ :=
    let digits := text.takeWhile Char.isDigit
    if digits = [] then none else some (Nat.ofDigitChars 10 digits 0)
  match value.toList.dropWhile isWhiteSpace with
  | '-' :: text => (unsigned text).map fun n => -(n : ℤ)
  | '+' :: text => (unsigned text).map fun n => (n : ℤ)
  | text => (unsigned text).map fun n => (n : ℤ)

/-- `Number.isSafeInteger(value) && value >= 0` -/
def isGeneration (value : ℚ) : Bool :=
  decide (value.den = 1 ∧ 0 ≤ value.num ∧ value.num ≤ MAX_SAFE_INTEGER)

def assertGeneration (value : ℚ) : Except String ℕ :=
  if isGeneration value then .ok value.num.toNat
  else .error "RedisGenerationStore generation must be a non-negative safe integer."

/-- What `INCR` takes for an integer. -/
def readInteger (value : String) : Option ℤ :=
  (parseInt value).filter fun n =>
    decide (toString n = value ∧ -(2 : ℤ) ^ 63 ≤ n ∧ n < (2 : ℤ) ^ 63)

/-- `INCR`: what it replies, and what the key holds after it. -/
def incr (stored : Option String) : Except String ℤ × Option String :=
  match readInteger (stored.getD "0") with
  | none => (.error "ERR value is not an integer or out of range", stored)
  | some n =>
    if n + 1 < (2 : ℤ) ^ 63 then (.ok (n + 1), some (toString (n + 1)))
    else (.error "ERR increment or decrement would overflow", stored)

structure RedisGenerationStore where
  key : String

inductive Request
  | get
  | getOrInitialize (initialGeneration : ℚ)
  | set (generation : ℚ)
  | bump
  deriving DecidableEq

/-- Where a call stands: before one of its commands, or settled. -/
inductive Phase
  | initializing (generation : ℕ)
  | reading (initialized : Bool)
  | setting (generation : ℕ)
  | bumping
  | done (result : Except String (Option ℕ))

def RedisGenerationStore.parseGeneration (store : RedisGenerationStore) (value : String) :
    Except String ℕ :=
  match (parseInt value).filter fun n : ℤ => decide (toString n = value) && isGeneration n with
  | none => .error ("RedisGenerationStore found invalid persisted generation value for key \"" ++
      store.key ++ "\".")
  | some generation => .ok generation.toNat

def Request.start : Request → Phase
  | .get => .reading false
  | .getOrInitialize initialGeneration =>
    match assertGeneration initialGeneration with
    | .ok generation => .initializing generation
    | .error error => .done (.error error)
  | .set generation =>
    match assertGeneration generation with
    | .ok generation => .setting generation
    | .error error => .done (.error error)
  | .bump => .bumping

/-- The next command of a call: where the call stands after the reply, and what the key holds. -/
def RedisGenerationStore.exec (store : RedisGenerationStore) (stored : Option String) :
    Phase → Option (Phase × Option String)
  | .initializing generation => some (.reading true, stored.or (some (toString generation)))
  | .reading initialized =>
    let result := match stored with
      | some value => some <$> store.parseGeneration value
      | none =>
        if initialized then .error ("RedisGenerationStore failed to initialize generation key \"" ++
          store.key ++ "\".")
        else .ok none
    some (.done result, stored)
  | .setting generation => some (.done (.ok none), some (toString generation))
  | .bumping =>
    let (reply, stored) := incr stored
    some (.done (some <$> do assertGeneration (← reply)), stored)
  | .done _ => none

structure Call where
  request : Request
  phase : Phase

structure State where
  stored : Option String
  nextCall : ℕ
  calls : ℕ → Option Call

inductive Action
  | start (request : Request)
  | exec (i : ℕ)

namespace State

def initial (stored : Option String) : State := ⟨stored, 0, fun _ => none⟩

variable (store : RedisGenerationStore) (s : State)

def step : Action → Option State
  | .start request => some { s with
      nextCall := s.nextCall + 1
      calls := Function.update s.calls s.nextCall (some ⟨request, request.start⟩) }
  | .exec i =>
    (s.calls i).bind fun call =>
      (store.exec s.stored call.phase).map fun (phase, stored) => { s with
        stored
        calls := Function.update s.calls i (some { call with phase }) }

def Resolved (i : ℕ) (request : Request) (generation : Option ℕ) : Prop :=
  s.calls i = some ⟨request, .done (.ok generation)⟩

def Rejected (i : ℕ) (request : Request) : Prop :=
  ∃ error, s.calls i = some ⟨request, .done (.error error)⟩

end State

def NoSet (_ : State) : Action → Prop
  | .start (.set _) => False
  | _ => True

def Request.Valid : Request → Prop
  | .getOrInitialize generation | .set generation => isGeneration generation = true
  | _ => True

variable {store : RedisGenerationStore} {s s' : State} {n : ℕ}

theorem toList_toString (n : ℕ) : (toString n).toList = Nat.toDigits 10 n := Nat.toList_repr

theorem parseInt_toString (n : ℕ) : parseInt (toString n) = some (n : ℤ) := by
  have hdigit : ∀ c ∈ Nat.toDigits 10 n, c.isDigit = true := fun c hc =>
    Nat.isDigit_of_mem_toDigits (by decide) le_rfl hc
  have htake : (Nat.toDigits 10 n).takeWhile Char.isDigit = Nat.toDigits 10 n :=
    List.takeWhile_eq_self_iff.mpr hdigit
  obtain ⟨c, cs, hcs⟩ := List.exists_cons_of_ne_nil (Nat.toDigits_ne_nil (n := n) (b := 10))
  have hc : c.isDigit = true := hdigit c (hcs ▸ List.mem_cons_self)
  have hrange : 48 ≤ c.toNat ∧ c.toNat ≤ 57 := by
    simpa [Char.isDigit, UInt32.le_iff_toNat_le] using hc
  have hspace : isWhiteSpace c = false := by
    simp only [isWhiteSpace, Bool.or_eq_false_iff, decide_eq_false_iff_not]
    constructor
    · rw [← Bool.not_eq_true, List.contains_iff_mem]
      simp only [List.mem_cons, List.not_mem_nil, or_false]
      omega
    · omega
  have hdrop : (toString n).toList.dropWhile isWhiteSpace = Nat.toDigits 10 n := by
    rw [toList_toString, hcs, List.dropWhile_cons_of_neg (by simp [hspace])]
  have hminus : c ≠ '-' := by
    rintro rfl
    simp at hc
  have hplus : c ≠ '+' := by
    rintro rfl
    simp at hc
  rw [parseInt, hdrop]
  split
  · rename_i text htext
    exact absurd (List.cons.inj (hcs.symm.trans htext)).1 hminus
  · rename_i text htext
    exact absurd (List.cons.inj (hcs.symm.trans htext)).1 hplus
  · simp [htake, Nat.toDigits_ne_nil]

theorem toString_natCast (n : ℕ) : toString (n : ℤ) = toString n := rfl

theorem isGeneration_natCast (n : ℕ) :
    isGeneration ((n : ℤ) : ℚ) = decide (n ≤ MAX_SAFE_INTEGER) := by
  rw [isGeneration]
  congr 1
  simp

theorem assertGeneration_natCast (n : ℕ) : assertGeneration ((n : ℤ) : ℚ) =
    if n ≤ MAX_SAFE_INTEGER then .ok n
    else .error "RedisGenerationStore generation must be a non-negative safe integer." := by
  rw [assertGeneration, isGeneration_natCast]
  simp

theorem parseGeneration_eq_ok_iff {value : String} :
    store.parseGeneration value = .ok n ↔ value = toString n ∧ n ≤ MAX_SAFE_INTEGER := by
  rw [RedisGenerationStore.parseGeneration]
  constructor
  · intro h
    split at h
    · cases h
    · rename_i generation hgeneration
      obtain ⟨-, hgeneration⟩ := Option.filter_eq_some_iff.mp hgeneration
      rw [Bool.and_eq_true, decide_eq_true_eq] at hgeneration
      obtain ⟨rfl, hsafe⟩ := hgeneration
      obtain ⟨m, rfl⟩ := Int.eq_ofNat_of_zero_le
        (show 0 ≤ generation by simpa [isGeneration] using (of_decide_eq_true hsafe).2.1)
      rw [isGeneration_natCast, decide_eq_true_eq] at hsafe
      cases h
      exact ⟨rfl, hsafe⟩
  · rintro ⟨rfl, hsafe⟩
    have hsome : (parseInt (toString n)).filter
        (fun m : ℤ => decide (toString m = toString n) && isGeneration m) = some (n : ℤ) := by
      rw [parseInt_toString, Option.filter_eq_some_iff, Bool.and_eq_true, isGeneration_natCast,
        decide_eq_true_eq, decide_eq_true_eq]
      exact ⟨rfl, rfl, hsafe⟩
    rw [hsome]
    rfl

theorem toString_injective {m : ℕ} (h : toString m = toString n) : m = n := by
  have hparse := congrArg parseInt h
  rw [parseInt_toString, parseInt_toString] at hparse
  exact Int.ofNat.inj (Option.some.inj hparse)

theorem parseGeneration_toString (store : RedisGenerationStore) (hover : MAX_SAFE_INTEGER < n) :
    ∃ error, store.parseGeneration (toString n) = .error error := by
  cases h : store.parseGeneration (toString n) with
  | error error => exact ⟨error, rfl⟩
  | ok m =>
    obtain ⟨hm, hsafe⟩ := parseGeneration_eq_ok_iff.mp h
    have := toString_injective hm
    omega

theorem readInteger_toString (n : ℕ) :
    readInteger (toString n) = if n < 2 ^ 63 then some (n : ℤ) else none := by
  rw [readInteger, parseInt_toString, Option.filter_some]
  have hiff : (decide (toString (n : ℤ) = toString n ∧ -(2 : ℤ) ^ 63 ≤ n ∧ (n : ℤ) < (2 : ℤ) ^ 63) =
      true) ↔ n < 2 ^ 63 := by
    rw [decide_eq_true_eq, toString_natCast]
    constructor
    · rintro ⟨-, -, h⟩
      omega
    · intro h
      exact ⟨rfl, by omega, by omega⟩
  by_cases h : n < 2 ^ 63
  · rw [if_pos (hiff.mpr h), if_pos h]
  · rw [if_neg (fun h' => h (hiff.mp h')), if_neg h]

/-- The generation that the key holds, or none, as the key holds it. -/
def Holds (stored : Option String) (level : Option ℕ) : Prop := stored = level.map toString

theorem incr_of_holds {stored : Option String} {level : Option ℕ} (h : Holds stored level) :
    incr stored = (.ok ((level.getD 0 + 1 : ℕ) : ℤ), some (toString (level.getD 0 + 1))) ∨
      ∃ n ∈ level, MAX_SAFE_INTEGER < n ∧ ∃ error, incr stored = (.error error, stored) := by
  have hread : readInteger (stored.getD "0") =
      if level.getD 0 < 2 ^ 63 then some ((level.getD 0 : ℕ) : ℤ) else none := by
    rw [h]
    cases level with
    | none => exact readInteger_toString 0
    | some n => exact readInteger_toString n
  by_cases hroom : level.getD 0 + 1 < 2 ^ 63
  · left
    rw [incr, hread, if_pos (by omega)]
    dsimp only
    rw [if_pos (by omega)]
    rfl
  · right
    cases level with
    | none => exact absurd (by decide) hroom
    | some n =>
      rw [Option.getD_some] at hroom hread
      refine ⟨n, rfl, by rw [MAX_SAFE_INTEGER]; omega, ?_⟩
      rw [incr, hread]
      by_cases hlt : n < 2 ^ 63
      · rw [if_pos hlt]
        dsimp only
        rw [if_neg (by omega)]
        exact ⟨_, rfl⟩
      · rw [if_neg hlt]
        exact ⟨_, rfl⟩

/-- The moves of a call on a counter that may not have been set: it initializes the counter where
it has no value, it reads it or it adds one. A call fails only past the safe integers, or where
the counter that it has initialized has no value. -/
inductive Moves (level : Option ℕ) : Phase → Phase → Option ℕ → Prop
  | setIfAbsent (generation : ℕ) :
      Moves level (.initializing generation) (.reading true) (some (level.getD generation))
  | read (initialized : Bool) (n : ℕ) : level = some n →
      Moves level (.reading initialized) (.done (.ok (some n))) level
  | unset : level = none → Moves level (.reading false) (.done (.ok none)) level
  | unreadable (initialized : Bool) (error : String) :
      (initialized = true ∧ level = none ∨ ∃ n ∈ level, MAX_SAFE_INTEGER < n) →
      Moves level (.reading initialized) (.done (.error error)) level
  | bump : Moves level .bumping (.done (.ok (some (level.getD 0 + 1)))) (some (level.getD 0 + 1))
  | exhausted (error : String) (level' : Option ℕ) :
      (∀ n ∈ level, ∃ n' ∈ level', n ≤ n') → (∃ n ∈ level', MAX_SAFE_INTEGER < n) →
      Moves level .bumping (.done (.error error)) level'

/-- The commands of the store make the moves of the counter. -/
theorem moves_of_exec {stored stored' : Option String} {level : Option ℕ} {phase phase' : Phase}
    (hholds : Holds stored level) (hset : ∀ generation, phase ≠ .setting generation)
    (h : store.exec stored phase = some (phase', stored')) :
    ∃ level', Holds stored' level' ∧ Moves level phase phase' level' := by
  cases phase with
  | initializing generation =>
    cases h
    refine ⟨_, ?_, .setIfAbsent generation⟩
    rw [Holds, hholds]
    cases level <;> rfl
  | reading initialized =>
    cases h
    refine ⟨level, hholds, ?_⟩
    rw [hholds]
    cases level with
    | none =>
      cases initialized with
      | false => exact .unset rfl
      | true => exact .unreadable true _ (.inl ⟨rfl, rfl⟩)
    | some n =>
      dsimp only [Option.map_some]
      by_cases hsafe : n ≤ MAX_SAFE_INTEGER
      · rw [parseGeneration_eq_ok_iff.mpr ⟨rfl, hsafe⟩]
        exact .read initialized n rfl
      · obtain ⟨error, herror⟩ := parseGeneration_toString store (not_le.mp hsafe)
        rw [herror]
        exact .unreadable initialized error (.inr ⟨n, rfl, not_le.mp hsafe⟩)
  | setting generation => exact absurd rfl (hset generation)
  | bumping =>
    rcases incr_of_holds hholds with hincr | ⟨n, hn, hover, error, hincr⟩
    · rw [RedisGenerationStore.exec, hincr] at h
      cases h
      refine ⟨some (level.getD 0 + 1), rfl, ?_⟩
      have hbind : ∀ reply : ℤ, (do assertGeneration (← (Except.ok reply : Except String ℤ))) =
          assertGeneration reply := fun _ => rfl
      rw [hbind, assertGeneration_natCast]
      split
      · exact .bump
      · rename_i hover
        refine .exhausted _ _ (fun n hn => ⟨_, rfl, ?_⟩) ⟨_, rfl, not_le.mp hover⟩
        cases hn
        exact Nat.le_succ n
    · rw [RedisGenerationStore.exec, hincr] at h
      cases h
      exact ⟨level, hholds, .exhausted error level (fun n hn => ⟨n, hn, le_rfl⟩) ⟨n, hn, hover⟩⟩
  | done result => cases h

namespace State

variable {i j first : ℕ} {level level' : Option ℕ} {request : Request}

def Fine (level : Option ℕ) (call : Call) : Prop :=
  match call.phase with
  | .setting _ => False
  | .initializing _ => call.request ≠ .bump
  | .bumping => call.request = .bump
  | .reading initialized => call.request ≠ .bump ∧ (initialized = true → level ≠ none)
  | .done (.ok none) => call.request ≠ .bump
  | .done (.ok (some generation)) => ∃ n ∈ level, generation ≤ n
  | .done (.error _) => call.request.Valid → ∃ n ∈ level, MAX_SAFE_INTEGER < n

structure Inv (s : State) (level : Option ℕ) : Prop where
  holds : Holds s.stored level
  numbered : ∀ i, s.calls i ≠ none → i < s.nextCall
  fine : ∀ i call, s.calls i = some call → Fine level call
  bumps : ∀ i j generation, s.Resolved i .bump (some generation) →
    s.Resolved j .bump (some generation) → i = j

def Below (level level' : Option ℕ) : Prop := ∀ n ∈ level, ∃ n' ∈ level', n ≤ n'

theorem Below.refl : Below level level := fun n hn => ⟨n, hn, le_rfl⟩

theorem below_of_moves {phase phase' : Phase} (h : Moves level phase phase' level') :
    Below level level' := by
  cases h with
  | setIfAbsent generation =>
    intro n hn
    cases hn
    exact ⟨n, rfl, le_rfl⟩
  | bump =>
    intro n hn
    cases hn
    exact ⟨n + 1, rfl, Nat.le_succ n⟩
  | exhausted error level' hbelow hover => exact hbelow
  | _ => exact Below.refl

theorem Fine.mono {call : Call} (h : Fine level call) (hle : Below level level') :
    Fine level' call := by
  obtain ⟨request, phase⟩ := call
  cases phase with
  | reading initialized =>
    refine ⟨h.1, fun hinit hnone => ?_⟩
    obtain ⟨n, hn⟩ := Option.ne_none_iff_exists'.mp (h.2 hinit)
    obtain ⟨n', hn', -⟩ := hle n hn
    rw [hnone] at hn'
    cases hn'
  | done result =>
    cases result with
    | error error =>
      intro hvalid
      obtain ⟨n, hn, hover⟩ := h hvalid
      obtain ⟨n', hn', hle⟩ := hle n hn
      exact ⟨n', hn', hover.trans_le hle⟩
    | ok result =>
      cases result with
      | none => exact h
      | some generation =>
        obtain ⟨n, hn, hbelow⟩ := h
        obtain ⟨n', hn', hle⟩ := hle n hn
        exact ⟨n', hn', hbelow.trans hle⟩
  | _ => exact h

theorem Fine.moves {phase' : Phase} {call : Call} (h : Fine level call)
    (hmoves : Moves level call.phase phase' level') :
    Fine level' { call with phase := phase' } := by
  obtain ⟨request, phase⟩ := call
  cases hmoves with
  | setIfAbsent generation => exact ⟨h, fun _ => Option.some_ne_none _⟩
  | read initialized n hn => exact ⟨n, hn, le_rfl⟩
  | unset hnone => exact h.1
  | unreadable initialized error hcause =>
    intro _
    exact hcause.resolve_left fun hnone => h.2 hnone.1 hnone.2
  | bump => exact ⟨_, rfl, le_rfl⟩
  | exhausted error level' hbelow hover => exact fun _ => hover

theorem fine_start (hset : ∀ generation, request ≠ .set generation) :
    Fine level ⟨request, request.start⟩ := by
  cases request with
  | get => exact ⟨Request.noConfusion, fun h => Bool.noConfusion h⟩
  | getOrInitialize initialGeneration =>
    rw [Request.start, assertGeneration]
    by_cases hvalid : isGeneration initialGeneration = true
    · rw [if_pos hvalid]
      exact Request.noConfusion
    · rw [if_neg hvalid]
      exact fun h => absurd h hvalid
  | set generation => exact absurd rfl (hset generation)
  | bump => exact rfl

theorem calls_update {i j : ℕ} {call other : Call}
    (h : Function.update s.calls i (some call) j = some other) :
    j = i ∧ other = call ∨ j ≠ i ∧ s.calls j = some other := by
  by_cases hj : j = i
  · subst hj
    rw [Function.update_self] at h
    exact .inl ⟨rfl, (Option.some.inj h).symm⟩
  · rw [Function.update_of_ne hj] at h
    exact .inr ⟨hj, h⟩

theorem Inv.step_cases (h : s.Inv level) {a : Action} (hset : NoSet s a)
    (hs : s.step store a = some s') :
    (∃ request, (∀ generation, request ≠ .set generation) ∧ s' = { s with
        nextCall := s.nextCall + 1
        calls := Function.update s.calls s.nextCall (some ⟨request, request.start⟩) }) ∨
      ∃ i call phase' stored' level', s.calls i = some call ∧ Holds stored' level' ∧
        Moves level call.phase phase' level' ∧ s' = { s with
          stored := stored'
          calls := Function.update s.calls i (some { call with phase := phase' }) } := by
  cases a with
  | start request =>
    cases hs
    refine .inl ⟨request, ?_, rfl⟩
    rintro generation rfl
    exact hset
  | exec i =>
    rw [step, Option.bind_eq_some_iff] at hs
    obtain ⟨call, hcall, hs⟩ := hs
    obtain ⟨⟨phase', stored'⟩, hexec, rfl⟩ := Option.map_eq_some_iff.mp hs
    have hsetting : ∀ generation, call.phase ≠ .setting generation := by
      intro generation hphase
      have hfine := h.fine i call hcall
      rw [Fine, hphase] at hfine
      exact hfine
    obtain ⟨level', hholds, hmoves⟩ := moves_of_exec h.holds hsetting hexec
    exact .inr ⟨i, call, phase', stored', level', hcall, hholds, hmoves, rfl⟩

theorem Inv.moves (h : s.Inv level) {i : ℕ} {call : Call} {phase' : Phase}
    {stored' : Option String} (hcall : s.calls i = some call) (hholds : Holds stored' level')
    (hmoves : Moves level call.phase phase' level') :
    Inv { s with
      stored := stored'
      calls := Function.update s.calls i (some { call with phase := phase' }) } level' := by
  have hle : Below level level' := below_of_moves hmoves
  have hfine : Fine level call := h.fine i call hcall
  have hnew : ∀ {j generation}, j ≠ i → s.Resolved j .bump (some generation) →
      phase' = .done (.ok (some generation)) → call.request ≠ .bump := by
    rintro j generation hj hresolved rfl hbump
    obtain ⟨n, hn, hbelow⟩ := h.fine j _ hresolved
    obtain ⟨request, phase⟩ := call
    cases hmoves with
    | read initialized n hn => exact hfine.1 hbump
    | bump =>
      rw [hn, Option.getD_some] at hbelow
      exact absurd hbelow (Nat.not_succ_le_self n)
  constructor
  · exact hholds
  · intro j hj
    by_cases hji : j = i
    · subst hji
      exact h.numbered j (by simp [hcall])
    · simp only [Function.update_of_ne hji] at hj
      exact h.numbered j hj
  · intro j other hj
    rcases calls_update hj with ⟨-, rfl⟩ | ⟨-, hold⟩
    · exact hfine.moves hmoves
    · exact (h.fine j other hold).mono hle
  · intro j j' generation hj hj'
    rcases calls_update hj with ⟨rfl, hcallj⟩ | ⟨hji, hold⟩
    · rcases calls_update hj' with ⟨rfl, -⟩ | ⟨hji', hold'⟩
      · rfl
      · injection hcallj with hrequest hphase
        exact absurd hrequest.symm (hnew hji' hold' hphase.symm)
    · rcases calls_update hj' with ⟨rfl, hcallj'⟩ | ⟨-, hold'⟩
      · injection hcallj' with hrequest hphase
        exact absurd hrequest.symm (hnew hji hold hphase.symm)
      · exact h.bumps j j' generation hold hold'

theorem ne_start {other : Request} {result : Option ℕ} (request : Request) :
    (⟨other, .done (.ok result)⟩ : Call) ≠ ⟨request, request.start⟩ := by
  intro h
  injection h with _ hphase
  cases request with
  | getOrInitialize generation =>
    rw [Request.start] at hphase
    split at hphase <;> cases hphase
  | set generation =>
    rw [Request.start] at hphase
    split at hphase <;> cases hphase
  | _ => cases hphase

theorem Inv.start (h : s.Inv level) (hset : ∀ generation, request ≠ .set generation) :
    Inv { s with
      nextCall := s.nextCall + 1
      calls := Function.update s.calls s.nextCall (some ⟨request, request.start⟩) } level := by
  constructor
  · exact h.holds
  · intro j hj
    by_cases hjn : j = s.nextCall
    · exact hjn ▸ Nat.lt_succ_self _
    · simp only [Function.update_of_ne hjn] at hj
      exact Nat.lt_succ_of_lt (h.numbered j hj)
  · intro j other hj
    rcases calls_update hj with ⟨-, rfl⟩ | ⟨-, hold⟩
    · exact fine_start hset
    · exact h.fine j other hold
  · intro j j' generation hj hj'
    rcases calls_update hj with ⟨-, hcallj⟩ | ⟨-, hold⟩
    · exact absurd hcallj (ne_start request)
    · rcases calls_update hj' with ⟨-, hcallj'⟩ | ⟨-, hold'⟩
      · exact absurd hcallj' (ne_start request)
      · exact h.bumps j j' generation hold hold'

theorem Inv.step (h : s.Inv level) {a : Action} (hset : NoSet s a)
    (hs : s.step store a = some s') : ∃ level', s'.Inv level' ∧ Below level level' := by
  obtain ⟨request, hrequest, rfl⟩ |
    ⟨i, call, phase', stored', level', hcall, hholds, hmoves, rfl⟩ := h.step_cases hset hs
  · exact ⟨level, h.start hrequest, Below.refl⟩
  · exact ⟨level', h.moves hcall hholds hmoves, below_of_moves hmoves⟩

/-- Calls from some number on come to what the counter had by then, or past it. -/
structure Later (first generation : ℕ) (s : State) (level : Option ℕ) : Prop where
  inv : s.Inv level
  reached : ∃ n ∈ level, generation ≤ n
  later : ∀ j ≥ first, ∀ request result, s.Resolved j request result →
    ∃ g ∈ result, generation ≤ g ∧ (request = .bump → generation < g)

theorem Later.step {generation : ℕ} (h : Later first generation s level) {a : Action}
    (hset : NoSet s a) (hs : s.step store a = some s') :
    ∃ level', Later first generation s' level' := by
  obtain ⟨n, hn, hreached⟩ := h.reached
  obtain ⟨request, hrequest, rfl⟩ |
    ⟨i, call, phase', stored', level', hcall, hholds, hmoves, rfl⟩ := h.inv.step_cases hset hs
  · refine ⟨level, h.inv.start hrequest, h.reached, fun j hj other result hresult => ?_⟩
    rcases calls_update hresult with ⟨-, hcall⟩ | ⟨-, hold⟩
    · exact absurd hcall (ne_start request)
    · exact h.later j hj other result hold
  · obtain ⟨n', hn', hle⟩ := below_of_moves hmoves n hn
    refine ⟨level', h.inv.moves hcall hholds hmoves, ⟨n', hn', hreached.trans hle⟩, ?_⟩
    intro j hj other result hresult
    rcases calls_update hresult with ⟨rfl, hnew⟩ | ⟨-, hold⟩
    · injection hnew with hother hphase
      have hfine := h.inv.fine j call hcall
      obtain ⟨request, phase⟩ := call
      subst hother
      subst hphase
      cases hmoves with
      | read initialized m hm =>
        obtain rfl : n = m := Option.some.inj (hn.symm.trans hm)
        exact ⟨n, rfl, hreached, fun hbump => absurd hbump hfine.1⟩
      | unset hnone =>
        rw [hnone] at hn
        cases hn
      | bump =>
        rw [hn, Option.getD_some]
        exact ⟨n + 1, rfl, by omega, fun _ => by omega⟩
    · exact h.later j hj other result hold

theorem inv_initial (level : Option ℕ) : (initial (level.map toString)).Inv level where
  holds := rfl
  numbered _ h := absurd rfl h
  fine := by rintro i call ⟨⟩
  bumps := by rintro i j generation ⟨⟩

theorem Inv.reaches (h : s.Inv level) (hreaches : Reaches (State.step store) NoSet s s') :
    ∃ level', s'.Inv level' := by
  apply hreaches.invariant (P := fun t => ∃ level', t.Inv level') ?_ ⟨level, h⟩
  rintro t a t' ⟨level', ht⟩ hset hs
  obtain ⟨level'', ht', -⟩ := ht.step hset hs
  exact ⟨level'', ht'⟩

theorem Inv.later (h : s.Inv level) {i generation : ℕ}
    (hresolved : s.Resolved i request (some generation))
    (hreaches : Reaches (State.step store) NoSet s s') :
    ∃ level', Later s.nextCall generation s' level' := by
  apply hreaches.invariant (P := fun t => ∃ level', Later s.nextCall generation t level') ?_
  · refine ⟨level, h, h.fine i _ hresolved, fun j hj other result hresult => ?_⟩
    have hcall : s.calls j = some ⟨other, .done (.ok result)⟩ := hresult
    exact absurd (h.numbered j (by simp [hcall])) (Nat.not_lt.mpr hj)
  · rintro t a t' ⟨level', ht⟩ hset hs
    exact ht.step hset hs

end State

/-- Whatever the order of the commands, as long as no instance sets the generation: a call that
starts after another has come to a generation does not come to an earlier one, and a bump comes
past it; no two bumps come to the same generation; a call that names a generation where it has to
is rejected only once the generations are past the safe integers. -/
theorem generations_never_go_back (store : RedisGenerationStore) (level : Option ℕ)
    (hbefore : Reaches (State.step store) NoSet (.initial (level.map toString)) s)
    (hafter : Reaches (State.step store) NoSet s s') :
    (∀ i request generation, s.Resolved i request (some generation) →
      ∀ j ≥ s.nextCall, ∀ request' result, s'.Resolved j request' result →
        ∃ g ∈ result, generation ≤ g ∧ (request' = .bump → generation < g)) ∧
      (∀ i j generation, s'.Resolved i .bump (some generation) →
        s'.Resolved j .bump (some generation) → i = j) ∧
      ∀ i request, request.Valid → s'.Rejected i request →
        ∃ n : ℕ, s'.stored = some (toString n) ∧ MAX_SAFE_INTEGER < n := by
  obtain ⟨level', hinv⟩ := (State.inv_initial level).reaches hbefore
  obtain ⟨level'', hinv'⟩ := hinv.reaches hafter
  refine ⟨?_, hinv'.bumps, ?_⟩
  · intro i request generation hresolved
    obtain ⟨_, hlater⟩ := hinv.later hresolved hafter
    exact hlater.later
  · rintro i request hvalid ⟨error, hrejected⟩
    obtain ⟨n, hn, hover⟩ := hinv'.fine i _ hrejected hvalid
    refine ⟨n, ?_, hover⟩
    rw [hinv'.holds, hn]
    rfl

def defaultStore : RedisGenerationStore := ⟨"layercache:generation"⟩

/-- One instance bumps between the two commands of another that initializes. -/
def bumpedBetween : List Action :=
  [.start (.getOrInitialize 5), .start .bump, .exec 0, .exec 1, .exec 0]

theorem generations_never_go_back_bumpedBetween : ∃ s s',
    run (State.step defaultStore) (.initial none) bumpedBetween = some s ∧
      run (State.step defaultStore) s [.start .bump, .exec 2] = some s' ∧
      s.Resolved 0 (.getOrInitialize 5) (some 6) ∧ s'.Resolved 2 .bump (some 7) ∧ 6 < 7 := by
  have hruns : ∃ s s', run (State.step defaultStore) (.initial none) bumpedBetween = some s ∧
      run (State.step defaultStore) s [.start .bump, .exec 2] = some s' ∧
      s.Resolved 0 (.getOrInitialize 5) (some 6) ∧ s'.Resolved 2 .bump (some 7) ∧
      s.nextCall = 2 := ⟨_, _, rfl, rfl, rfl, rfl, rfl⟩
  obtain ⟨s, s', hrun, hrun', hinitialized, hbumped, hnext⟩ := hruns
  have hset : ∀ s, ∀ a ∈ bumpedBetween, NoSet s a := by
    intro s a ha
    simp only [bumpedBetween, List.mem_cons, List.not_mem_nil, or_false] at ha
    rcases ha with rfl | rfl | rfl | rfl | rfl <;> trivial
  have hset' : ∀ s, ∀ a ∈ [Action.start .bump, .exec 2], NoSet s a := by
    intro s a ha
    simp only [List.mem_cons, List.not_mem_nil, or_false] at ha
    rcases ha with rfl | rfl <;> trivial
  obtain ⟨hlater, -, -⟩ := generations_never_go_back defaultStore none
    (reaches_of_run NoSet hrun (along_of_forall hset))
    (reaches_of_run NoSet hrun' (along_of_forall hset'))
  obtain ⟨g, hg, -, hlt⟩ := hlater 0 _ 6 hinitialized 2 hnext.le .bump (some 7) hbumped
  cases hg
  exact ⟨s, s', hrun, hrun', hinitialized, hbumped, hlt rfl⟩

end LayerCache.GenerationStore
