import Mathlib.Data.List.Dedup
import Mathlib.Logic.Function.Basic
import Mathlib.Logic.Relation

/-! # Tail chains

Work on several keys is serialized by one tail per key: a new ticket waits for the
tails of its keys and becomes the tail of each. Two tickets that share a key never
run at the same time, and they run in the order of their admission.
-/

namespace TailChain

inductive Phase
  | queued
  | running
  | settled
deriving DecidableEq

structure Ticket (K : Type*) where
  keys : List K
  waits : List ℕ
  phase : Phase
deriving DecidableEq

structure Chain (K : Type*) where
  tails : K → Option ℕ
  tickets : ℕ → Option (Ticket K)

namespace Chain

variable {K : Type*} {c c' : Chain K} {n id i j : ℕ} {k : K}

def empty : Chain K := ⟨fun _ => none, fun _ => none⟩

def settledAt (c : Chain K) (i : ℕ) : Bool :=
  match c.tickets i with
  | some t => t.phase = .settled
  | none => true

/-- A queued ticket starts once all the tails it waits for have settled. -/
def start (c : Chain K) (id : ℕ) : Option (Chain K) :=
  (c.tickets id).bind fun t =>
    if t.phase = .queued ∧ ∀ i ∈ t.waits, c.settledAt i then
      some { c with tickets := Function.update c.tickets id (some { t with phase := .running }) }
    else none

def settle (c : Chain K) (id : ℕ) : Option (Chain K) :=
  (c.tickets id).bind fun t =>
    if t.phase = .running then
      some {
        tails k := if c.tails k = some id then none else c.tails k
        tickets := Function.update c.tickets id (some { t with phase := .settled }) }
    else none

def enlist [DecidableEq K] (c : Chain K) (id : ℕ) (keys : List K) : Chain K where
  tails k := if k ∈ keys then some id else c.tails k
  tickets := Function.update c.tickets id
    (some ⟨keys.dedup, (keys.dedup.filterMap c.tails).dedup, .queued⟩)

/-- A ticket for `k` that has not settled. -/
def Open (c : Chain K) (i : ℕ) (k : K) : Prop :=
  ∃ t, c.tickets i = some t ∧ k ∈ t.keys ∧ t.phase ≠ .settled

/-- Tickets are numbered below `n`. -/
def Below (c : Chain K) (n : ℕ) : Prop := ∀ i, n ≤ i → c.tickets i = none

/-- Ticket `i` is to wait for ticket `m`. -/
def WaitsFor (c : Chain K) (i m : ℕ) : Prop := ∃ t, c.tickets i = some t ∧ m ∈ t.waits

/-- Tails are the last open tickets of their keys, tickets wait for earlier ones, and a ticket
behind an open one is queued and waits for an open ticket at or after it. -/
structure Valid (c : Chain K) : Prop where
  earlier : ∀ i m, c.WaitsFor i m → m < i
  tail_open : ∀ k i, c.tails k = some i → c.Open i k
  tail_last : ∀ k i, c.Open i k → ∃ j, c.tails k = some j ∧ i ≤ j
  behind : ∀ k i j t, c.Open i k → i < j → c.tickets j = some t → k ∈ t.keys →
    t.phase = .queued ∧ ∃ m ∈ t.waits, i ≤ m ∧ m < j ∧ c.Open m k

theorem valid_empty : (empty : Chain K).Valid where
  earlier _ _ h := by simp [WaitsFor, empty] at h
  tail_open _ _ h := by simp [empty] at h
  tail_last _ _ h := by simp [Open, empty] at h
  behind _ _ _ _ h := by simp [Open, empty] at h

/-- Starting takes a queued ticket behind settled ones to running. -/
theorem start_spec (h : c.start id = some c') :
    ∃ t, c.tickets id = some t ∧ t.phase = .queued ∧ (∀ i ∈ t.waits, c.settledAt i = true) ∧
      c' = ⟨c.tails, Function.update c.tickets id (some { t with phase := .running })⟩ := by
  simp only [start, Option.bind_eq_some_iff, Option.ite_none_right_eq_some] at h
  obtain ⟨t, ht, ⟨hq, hw⟩, hc⟩ := h
  exact ⟨t, ht, hq, hw, by simpa using hc.symm⟩

theorem settle_spec (h : c.settle id = some c') :
    ∃ t, c.tickets id = some t ∧ t.phase = .running ∧
      c' = ⟨fun k => if c.tails k = some id then none else c.tails k,
        Function.update c.tickets id (some { t with phase := .settled })⟩ := by
  simp only [settle, Option.bind_eq_some_iff, Option.ite_none_right_eq_some] at h
  obtain ⟨t, ht, hr, hc⟩ := h
  exact ⟨t, ht, hr, by simpa using hc.symm⟩

theorem Open.not_settledAt (h : c.Open i k) : c.settledAt i = false := by
  obtain ⟨t, ht, -, hne⟩ := h
  simp [settledAt, ht, hne]

theorem Open.lt (h : c.Open i k) (hb : c.Below n) : i < n := by
  obtain ⟨t, ht, -⟩ := h
  by_contra hn
  rw [hb i (by omega)] at ht
  cases ht

theorem Valid.queued_behind (hv : c.Valid) (hi : c.Open i k) (hij : i < j) {t : Ticket K}
    (hj : c.tickets j = some t) (hk : k ∈ t.keys) : t.phase = .queued :=
  (hv.behind k i j t hi hij hj hk).1

theorem Valid.exclusive (hv : c.Valid) {t u : Ticket K} (hi : c.tickets i = some t)
    (hj : c.tickets j = some u) (hit : t.phase = .running) (hju : u.phase = .running)
    (hkt : k ∈ t.keys) (hku : k ∈ u.keys) : i = j := by
  by_contra hne
  rcases Nat.lt_or_gt_of_ne hne with h | h
  · have := hv.queued_behind ⟨t, hi, hkt, by simp [hit]⟩ h hj hku
    simp [hju] at this
  · have := hv.queued_behind ⟨u, hj, hku, by simp [hju]⟩ h hi hkt
    simp [hit] at this

theorem Valid.first_of_start (hv : c.Valid) (h : c.start j = some c') {t : Ticket K}
    (hj : c.tickets j = some t) (hk : k ∈ t.keys) (hi : c.Open i k) : ¬ i < j := by
  intro hij
  obtain ⟨u, hu, -, hw, -⟩ := start_spec h
  rw [hj] at hu
  cases hu
  obtain ⟨-, m, hm, -, -, hopen⟩ := hv.behind k i j t hi hij hj hk
  exact absurd hopen.not_settledAt (by simp [hw m hm])

/-- An open ticket waits, if for anything, for one that is running or can start. -/
theorem Valid.front (hv : c.Valid) (hi : c.settledAt i = false) :
    ∃ j, Relation.ReflTransGen c.WaitsFor i j ∧
      ((∃ t, c.tickets j = some t ∧ t.phase = .running) ∨ (c.start j).isSome = true) := by
  induction i using Nat.strongRecOn with
  | ind i ih =>
    unfold settledAt at hi
    cases ht : c.tickets i with
    | none => simp [ht] at hi
    | some t =>
      cases hphase : t.phase with
      | settled => simp [ht, hphase] at hi
      | running => exact ⟨i, .refl, .inl ⟨t, ht, hphase⟩⟩
      | queued =>
        by_cases hw : ∀ m ∈ t.waits, c.settledAt m = true
        · exact ⟨i, .refl, .inr (by simpa [start, ht, hphase] using hw)⟩
        · push Not at hw
          obtain ⟨m, hm, hopen⟩ := hw
          have him : c.WaitsFor i m := ⟨t, ht, hm⟩
          obtain ⟨j, hj, hfront⟩ := ih m (hv.earlier i m him) (by simpa using hopen)
          exact ⟨j, .head him hj, hfront⟩

theorem open_start (h : c.start id = some c') : c'.Open i k ↔ c.Open i k := by
  obtain ⟨t, ht, hq, -, rfl⟩ := start_spec h
  by_cases hi : i = id
  · subst hi
    simp [Open, ht, hq]
  · simp [Open, hi]

theorem open_settle (h : c.settle id = some c') : c'.Open i k ↔ c.Open i k ∧ i ≠ id := by
  obtain ⟨t, ht, hr, rfl⟩ := settle_spec h
  by_cases hi : i = id
  · subst hi
    simp [Open]
  · simp [Open, hi]

theorem below_start (hb : c.Below n) (h : c.start id = some c') : c'.Below n := by
  obtain ⟨t, ht, -, -, rfl⟩ := start_spec h
  intro i hi
  by_cases hid : i = id
  · subst hid
    rw [hb i hi] at ht
    cases ht
  · simpa [hid] using hb i hi

theorem below_settle (hb : c.Below n) (h : c.settle id = some c') : c'.Below n := by
  obtain ⟨t, ht, -, rfl⟩ := settle_spec h
  intro i hi
  by_cases hid : i = id
  · subst hid
    rw [hb i hi] at ht
    cases ht
  · simpa [hid] using hb i hi

theorem waitsFor_update {t t' : Ticket K} (ht : c.tickets id = some t) {tails : K → Option ℕ}
    {m : ℕ} (h : WaitsFor ⟨tails, Function.update c.tickets id (some t')⟩ i m)
    (hwaits : t'.waits = t.waits) : c.WaitsFor i m := by
  obtain ⟨u, hu, hm⟩ := h
  by_cases hi : i = id
  · subst hi
    simp only [Function.update_self, Option.some.injEq] at hu
    subst hu
    exact ⟨t, ht, hwaits ▸ hm⟩
  · exact ⟨u, by simpa [hi] using hu, hm⟩

theorem Valid.start (hv : c.Valid) (h : c.start id = some c') : c'.Valid := by
  have hopen := fun i k => open_start (i := i) (k := k) h
  obtain ⟨t, ht, hq, hw, rfl⟩ := start_spec h
  refine ⟨fun i m hi => hv.earlier i m (waitsFor_update ht hi rfl),
    fun k i hi => (hopen i k).mpr (hv.tail_open k i hi),
    fun k i hi => hv.tail_last k i ((hopen i k).mp hi), ?_⟩
  intro k i j u hi hij hu hk
  have hi' := (hopen i k).mp hi
  by_cases hj : j = id
  · subst hj
    simp only [Function.update_self, Option.some.injEq] at hu
    subst hu
    exact absurd hij (hv.first_of_start h ht hk hi')
  · simp only [Function.update_of_ne hj] at hu
    obtain ⟨hqueued, m, hm, him, hmj, ho⟩ := hv.behind k i j u hi' hij hu hk
    exact ⟨hqueued, m, hm, him, hmj, (hopen m k).mpr ho⟩

theorem Valid.settle (hv : c.Valid) (h : c.settle id = some c') : c'.Valid := by
  have hopen := fun i k => open_settle (i := i) (k := k) h
  obtain ⟨t, ht, hr, rfl⟩ := settle_spec h
  refine ⟨fun i m hi => hv.earlier i m (waitsFor_update ht hi rfl), ?_, ?_, ?_⟩
  · intro k i hi
    simp only at hi
    split at hi
    · cases hi
    · rename_i hne
      exact (hopen i k).mpr ⟨hv.tail_open k i hi, fun hid => hne (hid ▸ hi)⟩
  · intro k i hi
    obtain ⟨hi', hne⟩ := (hopen i k).mp hi
    obtain ⟨j, hj, hij⟩ := hv.tail_last k i hi'
    refine ⟨j, ?_, hij⟩
    -- an open ticket cannot be behind the running one that settles
    have hjd : j ≠ id := by
      rintro rfl
      obtain ⟨u, hu, hku, -⟩ := hv.tail_open k j hj
      rw [ht] at hu
      cases hu
      have := hv.queued_behind hi' (by omega) ht hku
      simp [hr] at this
    simp [hj, hjd]
  · intro k i j u hi hij hu hk
    obtain ⟨hi', hne⟩ := (hopen i k).mp hi
    by_cases hj : j = id
    · subst hj
      simp only [Function.update_self, Option.some.injEq] at hu
      subst hu
      have := hv.queued_behind hi' hij ht hk
      simp [hr] at this
    · simp only [Function.update_of_ne hj] at hu
      obtain ⟨hqueued, m, hm, him, hmj, ho⟩ := hv.behind k i j u hi' hij hu hk
      refine ⟨hqueued, m, hm, him, hmj, (hopen m k).mpr ⟨ho, ?_⟩⟩
      rintro rfl
      obtain ⟨w, hw, hkw, -⟩ := ho
      rw [ht] at hw
      cases hw
      have := hv.queued_behind hi' (by omega) ht hkw
      simp [hr] at this

section Admit

variable [DecidableEq K] {keys : List K}

theorem tickets_enlist_of_ne (h : i ≠ id) : (c.enlist id keys).tickets i = c.tickets i := by
  simp [enlist, h]

theorem open_enlist_of_ne (h : i ≠ id) : (c.enlist id keys).Open i k ↔ c.Open i k := by
  simp only [Open, tickets_enlist_of_ne h]

theorem open_enlist_self : (c.enlist id keys).Open id k ↔ k ∈ keys := by
  simp [Open, enlist]

theorem below_enlist (hb : c.Below n) : (c.enlist n keys).Below (n + 1) := by
  intro i hi
  rw [tickets_enlist_of_ne (by omega)]
  exact hb i (by omega)

theorem Valid.enlist (hv : c.Valid) (hb : c.Below n) (keys : List K) : (c.enlist n keys).Valid := by
  have hold : ∀ {i k}, c.Open i k → (c.enlist n keys).Open i k := fun ho =>
    (open_enlist_of_ne (Nat.ne_of_lt (ho.lt hb))).mpr ho
  refine ⟨?_, ?_, ?_, ?_⟩
  · rintro i m ⟨t, ht, hm⟩
    by_cases hin : i = n
    · subst hin
      simp only [Chain.enlist, Function.update_self, Option.some.injEq] at ht
      subst ht
      simp only [List.mem_dedup, List.mem_filterMap] at hm
      obtain ⟨k, -, hk⟩ := hm
      exact (hv.tail_open k m hk).lt hb
    · rw [tickets_enlist_of_ne hin] at ht
      exact hv.earlier i m ⟨t, ht, hm⟩
  · intro k i hi
    simp only [Chain.enlist] at hi
    split at hi
    · rename_i hk
      cases hi
      exact open_enlist_self.mpr hk
    · exact hold (hv.tail_open k i hi)
  · intro k i hi
    by_cases hin : i = n
    · subst hin
      exact ⟨i, by simp [Chain.enlist, open_enlist_self.mp hi], Nat.le_refl _⟩
    · rw [open_enlist_of_ne hin] at hi
      have hlt := hi.lt hb
      by_cases hk : k ∈ keys
      · exact ⟨n, by simp [Chain.enlist, hk], by omega⟩
      · obtain ⟨j, hj, hij⟩ := hv.tail_last k i hi
        exact ⟨j, by simp [Chain.enlist, hk, hj], hij⟩
  · intro k i j t hi hij ht hk
    by_cases hjn : j = n
    · subst hjn
      rw [open_enlist_of_ne (by omega)] at hi
      simp only [Chain.enlist, Function.update_self, Option.some.injEq] at ht
      subst ht
      obtain ⟨m, hm, him⟩ := hv.tail_last k i hi
      have ho := hv.tail_open k m hm
      refine ⟨rfl, m, ?_, him, ho.lt hb, hold ho⟩
      simp only [List.mem_dedup, List.mem_filterMap] at hk ⊢
      exact ⟨k, hk, hm⟩
    · rw [tickets_enlist_of_ne hjn] at ht
      have hjlt : j < n := by
        by_contra hn
        rw [hb j (by omega)] at ht
        cases ht
      rw [open_enlist_of_ne (by omega)] at hi
      obtain ⟨hqueued, m, hm, him, hmj, ho⟩ := hv.behind k i j t hi hij ht hk
      exact ⟨hqueued, m, hm, him, hmj, hold ho⟩

end Admit

end Chain

end TailChain
