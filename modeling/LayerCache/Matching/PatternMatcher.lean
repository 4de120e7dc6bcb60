import LayerCache.Namespace.Stack

/-! # The loop of the pattern matcher

The matcher walks two indices over the code units of the pattern and of the value and
remembers one star. Turn by turn it does what the matcher on the rests of the two does, so
it comes to an end and decides the relation.
-/

namespace LayerCache.PatternMatcher

open Namespaced (units wildcards patternMatches)

/-- The variables of the loop, with `none` for a star index of -1. -/
structure Cursor where
  patternIndex : ℕ
  valueIndex : ℕ
  starIndex : Option ℕ
  backtrackValueIndex : ℕ
deriving DecidableEq, Repr

def Cursor.start : Cursor := ⟨0, 0, none, 0⟩

inductive Turn
  | next (cursor : Cursor)
  | done (result : Bool)
deriving DecidableEq, Repr

def skipStars (pattern : List ℕ) (patternIndex : ℕ) : ℕ :=
  if patternIndex < pattern.length ∧ pattern[patternIndex]? = some wildcards.star then
    skipStars pattern (patternIndex + 1)
  else patternIndex
termination_by pattern.length - patternIndex

def Cursor.goBack (c : Cursor) : Turn :=
  match c.starIndex with
  | some starIndex =>
    .next { c with
      patternIndex := starIndex + 1
      backtrackValueIndex := c.backtrackValueIndex + 1
      valueIndex := c.backtrackValueIndex + 1 }
  | none => .done false

def turn (pattern value : List ℕ) (c : Cursor) : Turn :=
  if c.valueIndex < value.length then
    let patternChar := pattern[c.patternIndex]?
    let valueChar := value[c.valueIndex]?
    if patternChar = some wildcards.star ∧ c.patternIndex < pattern.length then
      .next { c with
        starIndex := some c.patternIndex
        patternIndex := c.patternIndex + 1
        backtrackValueIndex := c.valueIndex }
    else if patternChar = some wildcards.any ∨ patternChar = valueChar then
      .next { c with patternIndex := c.patternIndex + 1, valueIndex := c.valueIndex + 1 }
    else c.goBack
  else .done (skipStars pattern c.patternIndex = pattern.length)

/-- The result of the loop, if it returns within the given number of turns. -/
def loop (pattern value : List ℕ) : ℕ → Cursor → Option Bool
  | 0, _ => none
  | turns + 1, c =>
    match turn pattern value c with
    | .next c => loop pattern value turns c
    | .done result => some result

def matchLinear (pattern value : List ℕ) (turns : ℕ) : Option Bool :=
  loop pattern value turns .start

variable {pattern value : List ℕ} {c : Cursor}

def Cursor.star (pattern value : List ℕ) (c : Cursor) : Option (List ℕ × List ℕ) :=
  c.starIndex.map fun i => (pattern.drop (i + 1), value.drop c.backtrackValueIndex)

/-- The indices stay within the texts, and behind the place where the star was tried. -/
structure Cursor.Within (pattern value : List ℕ) (c : Cursor) : Prop where
  patternIndex_le : c.patternIndex ≤ pattern.length
  valueIndex_le : c.valueIndex ≤ value.length
  starIndex_lt : ∀ i, c.starIndex = some i → i < pattern.length
  backtrack_le : c.starIndex.isSome → c.backtrackValueIndex ≤ c.valueIndex

def Cursor.retries (value : List ℕ) (c : Cursor) : ℕ :=
  if c.starIndex.isSome then value.length - c.backtrackValueIndex else value.length + 1

def Cursor.measure (pattern value : List ℕ) (c : Cursor) : ℕ :=
  c.retries value * (pattern.length + value.length + 1) +
    ((pattern.length - c.patternIndex) + (value.length - c.valueIndex))

theorem skipStars_eq_length {patternIndex : ℕ} (h : patternIndex ≤ pattern.length) :
    skipStars pattern patternIndex = pattern.length ↔
      (pattern.drop patternIndex).all (· = wildcards.star) = true := by
  induction patternIndex using skipStars.induct pattern with
  | case1 i hi ih =>
    obtain ⟨hlt, hstar⟩ := id hi
    rw [List.getElem?_eq_getElem hlt, Option.some.injEq] at hstar
    rw [skipStars, if_pos hi, ih hlt, List.drop_eq_getElem_cons hlt, hstar, List.all_cons]
    simp
  | case2 i hi =>
    rw [skipStars, if_neg hi]
    by_cases hlt : i < pattern.length
    · have hne : pattern[i] ≠ wildcards.star := fun heq => hi ⟨hlt, by simp [hlt, heq]⟩
      rw [List.drop_eq_getElem_cons hlt, List.all_cons]
      simp only [hlt.ne, hne, decide_false, Bool.false_and, Bool.false_eq_true]
    · simp [le_antisymm h (Nat.le_of_not_lt hlt)]

def rest (pattern value : List ℕ) (fuel : ℕ) (c : Cursor) : Bool :=
  Glob.matchLoop wildcards fuel (pattern.drop c.patternIndex) (value.drop c.valueIndex)
    (c.star pattern value)

theorem goBack_rest (hwithin : c.Within pattern value) (hvalue : c.valueIndex < value.length)
    (fuel : ℕ) :
    Glob.goBack (Glob.matchLoop wildcards fuel) (c.star pattern value) =
      match c.goBack with
      | .next c => rest pattern value fuel c
      | .done result => result := by
  cases hstar : c.starIndex with
  | none => simp only [Cursor.goBack, Cursor.star, hstar, Option.map_none, Glob.goBack]
  | some i =>
    have hback : c.backtrackValueIndex < value.length :=
      (hwithin.backtrack_le (by simp [hstar])).trans_lt hvalue
    simp only [Cursor.goBack, Cursor.star, hstar, Option.map_some,
      List.drop_eq_getElem_cons hback, Glob.goBack, rest]

theorem rest_succ (hwithin : c.Within pattern value) (fuel : ℕ) :
    rest pattern value (fuel + 1) c =
      match turn pattern value c with
      | .next c => rest pattern value fuel c
      | .done result => result := by
  rw [turn, rest]
  by_cases hvalue : c.valueIndex < value.length
  · rw [if_pos hvalue, List.drop_eq_getElem_cons hvalue, List.getElem?_eq_getElem hvalue]
    by_cases hpattern : c.patternIndex < pattern.length
    · rw [List.drop_eq_getElem_cons hpattern, List.getElem?_eq_getElem hpattern, Glob.matchLoop]
      simp only [Option.some.injEq, hpattern, and_true]
      split_ifs with hstar hany
      · simp only [rest, Cursor.star, Option.map_some, ← List.drop_eq_getElem_cons hvalue]
      · rfl
      · exact goBack_rest hwithin hvalue fuel
    · have hle := Nat.le_of_not_lt hpattern
      rw [List.drop_eq_nil_of_le hle, List.getElem?_eq_none hle, Glob.matchLoop]
      simp only [reduceCtorEq, false_and, if_false, false_or]
      exact goBack_rest hwithin hvalue fuel
  · rw [if_neg hvalue, List.drop_eq_nil_of_le (Nat.le_of_not_lt hvalue), Glob.matchLoop]
    apply Bool.eq_iff_iff.mpr
    simp only [skipStars_eq_length hwithin.patternIndex_le, decide_eq_true_eq]

/-- What a turn that goes on does. -/
theorem turn_eq_next {c' : Cursor} (h : turn pattern value c = .next c') :
    c.valueIndex < value.length ∧
      ((c.patternIndex < pattern.length ∧
          c' = ⟨c.patternIndex + 1, c.valueIndex, some c.patternIndex, c.valueIndex⟩) ∨
        (c.patternIndex < pattern.length ∧ c' =
          ⟨c.patternIndex + 1, c.valueIndex + 1, c.starIndex, c.backtrackValueIndex⟩) ∨
        ∃ i, c.starIndex = some i ∧
          c' = ⟨i + 1, c.backtrackValueIndex + 1, some i, c.backtrackValueIndex + 1⟩) := by
  simp only [turn] at h
  split at h
  case isFalse => cases h
  case isTrue hvalue =>
    refine ⟨hvalue, ?_⟩
    split at h
    case isTrue hs =>
      cases h
      exact Or.inl ⟨hs.2, rfl⟩
    case isFalse =>
      split at h
      case isTrue hany =>
        cases h
        refine Or.inr (Or.inl ⟨?_, rfl⟩)
        by_contra hle
        rw [List.getElem?_eq_none (Nat.le_of_not_lt hle), List.getElem?_eq_getElem hvalue] at hany
        simp at hany
      case isFalse =>
        rw [Cursor.goBack] at h
        split at h
        case h_1 i hi =>
          cases h
          exact Or.inr (Or.inr ⟨i, hi, by rw [hi]⟩)
        case h_2 => cases h

theorem Cursor.Within.next {c' : Cursor} (hwithin : c.Within pattern value)
    (h : turn pattern value c = .next c') : c'.Within pattern value := by
  obtain ⟨hp, hv, hstar, hback⟩ := hwithin
  obtain ⟨hvalue, ⟨hlt, rfl⟩ | ⟨hlt, rfl⟩ | ⟨i, hi, rfl⟩⟩ := turn_eq_next h
  · exact ⟨hlt, hv, fun i hi => Option.some.inj hi ▸ hlt, fun _ => le_rfl⟩
  · exact ⟨hlt, hvalue, hstar, fun hsome => (hback hsome).trans (Nat.le_succ _)⟩
  · have hle := hback (by simp [hi])
    exact ⟨hstar i hi, Nat.succ_le_of_lt (hle.trans_lt hvalue),
      fun j hj => Option.some.inj hj ▸ hstar i hi, fun _ => le_rfl⟩

/-- Going back costs a retry, which outweighs the indices. -/
theorem Cursor.Within.measure_lt {c' : Cursor} (hwithin : c.Within pattern value)
    (h : turn pattern value c = .next c') :
    c'.measure pattern value < c.measure pattern value := by
  obtain ⟨hp, hv, hstar, hback⟩ := hwithin
  obtain ⟨hvalue, ⟨hlt, rfl⟩ | ⟨hlt, rfl⟩ | ⟨i, hi, rfl⟩⟩ := turn_eq_next h
  · have hretries : value.length - c.valueIndex ≤ c.retries value := by
      rw [retries]
      split
      case isTrue hsome => exact Nat.sub_le_sub_left (hback hsome) _
      case isFalse => omega
    have hmul := Nat.mul_le_mul_right (pattern.length + value.length + 1) hretries
    simp only [measure, retries, Option.isSome_some, if_true]
    rw [retries] at hmul
    omega
  · simp only [measure, retries]
    omega
  · have hle := hback (by simp [hi])
    have hretries : c.retries value = value.length - (c.backtrackValueIndex + 1) + 1 := by
      rw [retries, if_pos (by simp [hi])]
      omega
    rw [measure, measure, hretries, Nat.add_mul, Nat.one_mul]
    simp only [retries, Option.isSome_some, if_true]
    omega

/-- With enough turns the loop returns what the matcher on the rests does. -/
theorem loop_eq {turns : ℕ} (hwithin : c.Within pattern value)
    (hturns : c.measure pattern value < turns) :
    loop pattern value turns c = some (rest pattern value turns c) := by
  induction turns generalizing c with
  | zero => exact absurd hturns (Nat.not_lt_zero _)
  | succ turns ih =>
    rw [loop, rest_succ hwithin]
    cases hturn : turn pattern value c with
    | next c' =>
      have hlt := hwithin.measure_lt hturn
      exact ih (hwithin.next hturn) (by omega)
    | done result => rfl

theorem within_start : Cursor.start.Within pattern value where
  patternIndex_le := Nat.zero_le _
  valueIndex_le := Nat.zero_le _
  starIndex_lt := nofun
  backtrack_le := nofun

/-- The bound on the turns is that of `Glob.matchLinear` on its calls. -/
theorem matchLinear_eq {turns : ℕ}
    (hturns : (value.length + 2) * (pattern.length + value.length + 1) ≤ turns) :
    matchLinear pattern value turns = some (Glob.matchLinear wildcards pattern value) := by
  have hmeasure : Cursor.start.measure pattern value =
      (value.length + 1) * (pattern.length + value.length + 1) +
        (pattern.length + value.length) := rfl
  rw [Nat.add_mul value.length 2] at hturns
  rw [Nat.add_mul value.length 1] at hmeasure
  have hloop : matchLinear pattern value turns =
      some (Glob.matchLoop wildcards turns pattern value none) :=
    loop_eq within_start (by omega)
  have hdecides : Glob.Decides wildcards (Glob.matchLoop wildcards turns) pattern value none := by
    refine Glob.matchLoop_iff (pattern.length + value.length) value.length _ le_rfl le_rfl
      trivial ?_
    rw [Glob.retries, Nat.add_mul value.length 1]
    omega
  rw [Glob.Decides] at hdecides
  rw [hloop, Option.some.injEq, Bool.eq_iff_iff, Glob.matchLinear_iff, hdecides]
  simp

/-- The loop returns for every pattern and every value, `true` where the pattern matches. -/
theorem matchLinear_returns (pattern value : List ℕ) :
    ∃ result, (∃ bound, ∀ turns ≥ bound, matchLinear pattern value turns = some result) ∧
      (result = true ↔ Glob.Matches wildcards pattern value) :=
  ⟨Glob.matchLinear wildcards pattern value, ⟨_, fun _ hturns => matchLinear_eq hturns⟩,
    Glob.matchLinear_iff⟩

end LayerCache.PatternMatcher
