import Mathlib.Data.Finset.Card
import Mathlib.Data.List.Induction
import LayerCache.Maintenance.Fences

/-! # The size of the epoch table

A call bumps any number of keys and then prunes once, by a tenth of the table. So the
table is within its bound after a call exactly when the keys it held and the keys of the
call are few enough for one tenth to make up for them. The fences do not depend on it:
every bumped key is past the fences it has had.
-/

namespace LayerCache

/-- What the stack asks of the epochs: allocating and pruning are parts of a bump. -/
inductive EpochCall (K : Type*)
  | bumpKeyEpochs (keys : List K)
  | beginClearEpoch
deriving DecidableEq, Repr

def EpochCall.step {K : Type*} : EpochCall K → EpochStep K
  | bumpKeyEpochs keys => .bumpKeyEpochs keys
  | beginClearEpoch => .beginClearEpoch

namespace Epochs

variable {K : Type*} {e : Epochs K}

/-- Where the counter stands after `n` bumps. -/
def counterAfter (e : Epochs K) (n : ℕ) : ℕ :=
  if e.nextKeyEpoch + n ≤ maxSafeInteger then e.nextKeyEpoch + n
  else (e.nextKeyEpoch + n - 1) % maxSafeInteger + 1

/-- The keys that compete for the table in a call: what it holds and what is bumped, or,
when the counter starts again on the way, what is bumped since then. -/
def competing (e : Epochs K) (keys : List K) : List K :=
  if e.nextKeyEpoch + keys.length ≤ maxSafeInteger then e.keyEpochs.map (·.1) ++ keys
  else keys.drop (keys.length - e.counterAfter keys.length)

theorem counterAfter_succ (e : Epochs K) (n : ℕ) :
    e.counterAfter (n + 1) =
      if e.counterAfter n ≥ maxSafeInteger then 1 else e.counterAfter n + 1 := by
  unfold counterAfter
  split_ifs <;> unfold maxSafeInteger at * <;> omega

theorem counterAfter_le (n : ℕ) : e.counterAfter n ≤ maxSafeInteger := by
  unfold counterAfter
  split_ifs <;> unfold maxSafeInteger at * <;> omega

/-- The counter counts the bumps since it started again. -/
theorem counterAfter_le_of_lt {n : ℕ} (h : e.nextKeyEpoch ≤ maxSafeInteger)
    (hlt : maxSafeInteger < e.nextKeyEpoch + n) : e.counterAfter n ≤ n := by
  rw [counterAfter, if_neg (Nat.not_le.mpr hlt)]
  unfold maxSafeInteger at *
  omega

theorem competing_concat (h : e.nextKeyEpoch ≤ maxSafeInteger) (keys : List K) (k : K) :
    e.competing (keys ++ [k]) =
      if e.counterAfter keys.length ≥ maxSafeInteger then [k] else e.competing keys ++ [k] := by
  have hsucc := e.counterAfter_succ keys.length
  have hle := fun hlt => counterAfter_le_of_lt (n := keys.length) h hlt
  simp only [competing, List.length_append, List.length_singleton, ← Nat.add_assoc]
  by_cases hroll : e.counterAfter keys.length ≥ maxSafeInteger
  · rw [if_pos hroll] at hsucc
    have hlt : ¬ e.nextKeyEpoch + keys.length + 1 ≤ maxSafeInteger := by
      intro hfits
      rw [counterAfter, if_pos (by omega)] at hroll
      omega
    rw [if_pos hroll, if_neg hlt, hsucc, Nat.add_sub_cancel, List.drop_left]
  · rw [if_neg hroll] at hsucc ⊢
    by_cases hfits : e.nextKeyEpoch + keys.length ≤ maxSafeInteger
    · have hnext : e.nextKeyEpoch + keys.length + 1 ≤ maxSafeInteger := by
        rw [counterAfter, if_pos hfits] at hroll
        omega
      rw [if_pos hnext, if_pos hfits, List.append_assoc]
    · have hdrop : keys.length + 1 - e.counterAfter (keys.length + 1) =
          keys.length - e.counterAfter keys.length := by omega
      rw [if_neg (by omega), if_neg hfits, hdrop, List.drop_append_of_le_length (by omega)]

theorem nextKeyEpoch_le_pruneKeyEpochsIfNeeded (h : e.nextKeyEpoch ≤ maxSafeInteger) :
    e.pruneKeyEpochsIfNeeded.nextKeyEpoch ≤ maxSafeInteger := by
  rw [pruneKeyEpochsIfNeeded_eq]
  split_ifs with hfits hmax
  · exact h
  · change 1 ≤ maxSafeInteger
    decide
  · exact Nat.lt_of_not_le hmax

variable [DecidableEq K]

def callAll (e : Epochs K) (calls : List (EpochCall K)) : Epochs K :=
  e.performAll (calls.map EpochCall.step)

/-- Nine tenths of the competing keys fit in the table, or else pruning starts the counter
again, which empties it. -/
def HasRoom (e : Epochs K) (keys : List K) : Prop :=
  (e.competing keys).toFinset.card * 9 / 10 ≤ maxKeyEpochs ∨
    e.counterAfter keys.length = maxSafeInteger

/-- What is promised along the calls: the table stays within its bound, and the keys of a
bump are past every fence that was captured before it. -/
structure TableBounded (calls : List (EpochCall K)) : Prop where
  bound : ∀ past, past <+: calls → (initial.callAll past).keyEpochs.length ≤ maxKeyEpochs
  fenced : ∀ past keys, past ++ [.bumpKeyEpochs keys] <+: calls → ∀ k ∈ keys,
    ∀ earlier, earlier <+: past →
      (initial.callAll (past ++ [.bumpKeyEpochs keys])).isWriteOutdated k
        ((initial.callAll earlier).fence k) = true

variable {k : K} {keys : List K}

/-- What the bumps of a call leave in the table, and where they leave the counter. -/
theorem foldl_bumpKeyEpoch_spec (h : e.nextKeyEpoch ≤ maxSafeInteger) (keys : List K) :
    (keys.foldl bumpKeyEpoch e).nextKeyEpoch = e.counterAfter keys.length ∧
      ∀ k, k ∈ (keys.foldl bumpKeyEpoch e).keyEpochs.map (·.1) ↔ k ∈ e.competing keys := by
  induction keys using List.reverseRecOn with
  | nil =>
    constructor
    · rw [List.length_nil, counterAfter, Nat.add_zero, if_pos h]
      rfl
    · intro k
      rw [competing, List.length_nil, Nat.add_zero, if_pos h, List.append_nil]
      rfl
  | append_singleton keys key ih =>
    obtain ⟨hcounter, hkeys⟩ := ih
    rw [List.foldl_append, List.foldl_cons, List.foldl_nil, competing_concat h,
      List.length_append, List.length_singleton, e.counterAfter_succ, bumpKeyEpoch_eq, hcounter]
    split
    · exact ⟨rfl, fun k => Iff.rfl⟩
    · refine ⟨rfl, fun k => ?_⟩
      rw [List.mem_append, ← hkeys, List.map_append, List.mem_append]
      by_cases hk : k = key
      · simp [hk]
      · simp [hk]

theorem length_foldl_bumpKeyEpoch (hv : e.Valid) (h : e.nextKeyEpoch ≤ maxSafeInteger)
    (keys : List K) :
    (keys.foldl bumpKeyEpoch e).keyEpochs.length = (e.competing keys).toFinset.card := by
  rw [← List.length_map (f := (·.1)), ←
    List.toFinset_card_of_nodup (hv.foldl_bumpKeyEpoch keys).nodup]
  congr 1
  ext k
  rw [List.mem_toFinset, List.mem_toFinset]
  exact (foldl_bumpKeyEpoch_spec h keys).2 k

theorem length_bumpKeyEpochs_le_iff (hv : e.Valid) (h : e.nextKeyEpoch ≤ maxSafeInteger)
    (keys : List K) :
    (e.bumpKeyEpochs keys).keyEpochs.length ≤ maxKeyEpochs ↔ e.HasRoom keys := by
  have hlength := length_foldl_bumpKeyEpoch hv h keys
  have hcounter := (foldl_bumpKeyEpoch_spec h keys).1
  have hle := e.counterAfter_le keys.length
  rw [bumpKeyEpochs, pruneKeyEpochsIfNeeded_eq, HasRoom, ← hlength, ← hcounter]
  rw [← hcounter] at hle
  split_ifs with hfits hmax
  · exact iff_of_true hfits (.inl (by omega))
  · exact iff_of_true (Nat.zero_le _) (.inr (le_antisymm hle hmax))
  · rw [List.length_drop]
    constructor
    · exact fun hdrop => .inl (by omega)
    · rintro (hnine | heq)
      · omega
      · exact absurd heq.ge hmax

theorem nextKeyEpoch_le_perform (h : e.nextKeyEpoch ≤ maxSafeInteger) (call : EpochCall K) :
    (e.perform call.step).nextKeyEpoch ≤ maxSafeInteger := by
  cases call with
  | bumpKeyEpochs keys =>
    apply nextKeyEpoch_le_pruneKeyEpochsIfNeeded
    rw [(foldl_bumpKeyEpoch_spec h keys).1]
    exact e.counterAfter_le _
  | beginClearEpoch => exact h

theorem callAll_concat (calls : List (EpochCall K)) (call : EpochCall K) :
    e.callAll (calls ++ [call]) = (e.callAll calls).perform call.step := by
  rw [callAll, callAll, performAll, performAll, List.map_append, List.foldl_append]
  rfl

theorem callAll_append (calls more : List (EpochCall K)) :
    e.callAll (calls ++ more) = (e.callAll calls).callAll more := by
  rw [callAll, callAll, callAll, performAll, performAll, performAll, List.map_append,
    List.foldl_append]

theorem Valid.callAll (hv : e.Valid) (calls : List (EpochCall K)) : (e.callAll calls).Valid :=
  hv.performAll _

theorem nextKeyEpoch_le_callAll (h : e.nextKeyEpoch ≤ maxSafeInteger) (calls : List (EpochCall K)) :
    (e.callAll calls).nextKeyEpoch ≤ maxSafeInteger := by
  induction calls using List.reverseRecOn with
  | nil => exact h
  | append_singleton calls call ih =>
    rw [callAll_concat]
    exact nextKeyEpoch_le_perform ih call

/-- A fence captured before a bump of its key is outdated by it. -/
theorem isWriteOutdated_bump {past earlier : List (EpochCall K)} (hearlier : earlier <+: past)
    (hk : k ∈ keys) : (initial.callAll (past ++ [.bumpKeyEpochs keys])).isWriteOutdated k
      ((initial.callAll earlier).fence k) = true := by
  obtain ⟨between, rfl⟩ := hearlier
  have hv : (initial.callAll earlier : Epochs K).Valid := valid_initial.callAll earlier
  rw [callAll_concat, callAll_append, isWriteOutdated_iff]
  have hle := hv.fence_le_performAll (between.map EpochCall.step) k
  have hlt := (hv.callAll between).fence_lt_bumpKeyEpochs hk
  exact (hle.trans_lt hlt).ne

/-- The table is bounded along the calls exactly when every bump finds room. -/
theorem tableBounded_iff (calls : List (EpochCall K)) :
    TableBounded calls ↔
      ∀ past keys, past ++ [.bumpKeyEpochs keys] <+: calls →
        (initial.callAll past).HasRoom keys := by
  have hroom : ∀ (past : List (EpochCall K)) (keys : List K),
      (initial.callAll (past ++ [.bumpKeyEpochs keys])).keyEpochs.length ≤ maxKeyEpochs ↔
        (initial.callAll past).HasRoom keys := by
    intro past keys
    rw [callAll_concat]
    exact length_bumpKeyEpochs_le_iff (valid_initial.callAll past)
      (nextKeyEpoch_le_callAll (Nat.zero_le _) past) keys
  constructor
  · exact fun h past keys hpast => (hroom past keys).mp (h.bound _ hpast)
  · intro h
    constructor
    case bound =>
      intro past hpast
      cases past using List.reverseRecOn with
      | nil => exact Nat.zero_le _
      | append_singleton past call =>
        cases call with
        | bumpKeyEpochs keys => exact (hroom past keys).mpr (h past keys hpast)
        | beginClearEpoch =>
          rw [callAll_concat]
          exact Nat.zero_le _
    case fenced => exact fun past keys _ k hk earlier hearlier => isWriteOutdated_bump hearlier hk

/-- A first call with distinct keys finds room for nine tenths of them. -/
theorem hasRoom_initial {n : ℕ} (hn : n ≤ maxSafeInteger) :
    (initial : Epochs ℕ).HasRoom (List.range n) ↔
      n * 9 / 10 ≤ maxKeyEpochs ∨ n = maxSafeInteger := by
  have hfits : (initial : Epochs ℕ).nextKeyEpoch + (List.range n).length ≤ maxSafeInteger := by
    rw [List.length_range]
    exact (Nat.zero_add n).symm ▸ hn
  rw [HasRoom, competing, counterAfter, if_pos hfits, if_pos hfits]
  change (List.range n).toFinset.card * 9 / 10 ≤ _ ∨ 0 + (List.range n).length = _ ↔ _
  rw [List.toFinset_card_of_nodup List.nodup_range, List.length_range, Nat.zero_add]

theorem not_tableBounded_range {n : ℕ} (hn : n ≤ maxSafeInteger)
    (hmany : ¬ (n * 9 / 10 ≤ maxKeyEpochs ∨ n = maxSafeInteger)) :
    ¬ TableBounded [EpochCall.bumpKeyEpochs (List.range n)] := fun h =>
  hmany ((hasRoom_initial hn).mp ((length_bumpKeyEpochs_le_iff valid_initial (Nat.zero_le _) _).mp
    (h.bound _ (List.prefix_refl _))))

/-- One call with 55,557 keys leaves 50,001 of them in the table. -/
theorem not_tableBounded_oneCall : ¬ TableBounded [EpochCall.bumpKeyEpochs (List.range 55557)] :=
  not_tableBounded_range (by decide) (by decide)

end Epochs

end LayerCache
