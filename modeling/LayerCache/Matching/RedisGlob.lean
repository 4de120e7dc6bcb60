import Mathlib.Data.List.Infix
import Mathlib.Data.UInt
import Mathlib.Tactic.Linarith

/-! # Redis globs

The patterns that Redis takes for `MATCH`, over bytes: a star for anything, a question mark for one
byte, a class in brackets for one of its bytes, and a backslash before a byte that stands for
itself. A text followed by a star finds what starts with the text exactly if the text has no symbol
with a meaning of its own.
-/

namespace RedisGlob

def star : UInt8 := 42
def question : UInt8 := 63
def opening : UInt8 := 91
def closing : UInt8 := 93
def caret : UInt8 := 94
def dash : UInt8 := 45
def backslash : UInt8 := 92

inductive Token
  | any
  | one
  | symbol (c : UInt8)
  | set (negated : Bool) (ranges : List (UInt8 × UInt8))
  deriving DecidableEq

/-- Where the reading of a pattern is: in a class, what is known of the class comes with it. -/
inductive Mode
  | outside
  | escape
  | opened
  | inside (negated : Bool) (ranges : List (UInt8 × UInt8))
  | classEscape (negated : Bool) (ranges : List (UInt8 × UInt8))
  | pending (negated : Bool) (ranges : List (UInt8 × UInt8)) (c : UInt8)
  | ranging (negated : Bool) (ranges : List (UInt8 × UInt8)) (c : UInt8)
  deriving DecidableEq

/-- The next byte of a class, which may turn out to begin a range. -/
def enter (negated : Bool) (ranges : List (UInt8 × UInt8)) (d : UInt8) : Mode × List Token :=
  if d = backslash then (.classEscape negated ranges, [])
  else if d = closing then (.outside, [.set negated ranges])
  else (.pending negated ranges d, [])

def next : Mode → UInt8 → Mode × List Token
  | .outside, d =>
    if d = star then (.outside, [.any])
    else if d = question then (.outside, [.one])
    else if d = opening then (.opened, [])
    else if d = backslash then (.escape, [])
    else (.outside, [.symbol d])
  | .escape, d => (.outside, [.symbol d])
  | .opened, d => if d = caret then (.inside true [], []) else enter false [] d
  | .inside negated ranges, d => enter negated ranges d
  | .classEscape negated ranges, d => (.inside negated ((d, d) :: ranges), [])
  | .pending negated ranges c, d =>
    if d = dash then (.ranging negated ranges c, []) else enter negated ((c, c) :: ranges) d
  | .ranging negated ranges c, d => (.inside negated ((min c d, max c d) :: ranges), [])

def finish : Mode → List Token
  | .outside => []
  | .escape => [.symbol backslash]
  | .opened => [.set false []]
  | .inside negated ranges => [.set negated ranges]
  | .classEscape negated ranges => [.set negated ((backslash, backslash) :: ranges)]
  | .pending negated ranges c => [.set negated ((c, c) :: ranges)]
  | .ranging negated ranges c => [.set negated ((dash, dash) :: (c, c) :: ranges)]

def tokens (m : Mode) : List UInt8 → List Token
  | [] => finish m
  | c :: p => (next m c).2 ++ tokens (next m c).1 p

def Token.admits (c : UInt8) : Token → Bool
  | .any | .one => true
  | .symbol d => d = c
  | .set negated ranges => negated ^^ ranges.any fun range => range.1 ≤ c && c ≤ range.2

def matchTokens : List Token → List UInt8 → Bool
  | [], s => s.isEmpty
  | .any :: ts, s => s.tails.any (matchTokens ts)
  | t :: ts, c :: s => t.admits c && matchTokens ts s
  | _ :: _, [] => false

def isMatch (pattern s : List UInt8) : Bool := matchTokens (tokens .outside pattern) s

variable {t : Token} {ts : List Token} {c : UInt8} {p s : List UInt8}

theorem matchTokens_any_iff :
    matchTokens (.any :: ts) s = true ↔ ∃ u r, s = u ++ r ∧ matchTokens ts r = true := by
  rw [matchTokens, List.any_eq_true]
  constructor
  · rintro ⟨r, hr, hmatch⟩
    obtain ⟨u, rfl⟩ := (List.mem_tails _ _).mp hr
    exact ⟨u, r, rfl, hmatch⟩
  · rintro ⟨u, r, rfl, hmatch⟩
    exact ⟨r, (List.mem_tails _ _).mpr (List.suffix_append u r), hmatch⟩

theorem matchTokens_cons_iff (ht : t ≠ .any) :
    matchTokens (t :: ts) s = true ↔
      ∃ c r, s = c :: r ∧ t.admits c = true ∧ matchTokens ts r = true := by
  cases s with
  | nil =>
    cases t with
    | any => exact absurd rfl ht
    | _ => simp [matchTokens]
  | cons c r =>
    cases t with
    | any => exact absurd rfl ht
    | _ => simp [matchTokens]

def least (ts : List Token) : ℕ := ts.countP fun t => t ≠ .any

theorem least_append (ts us : List Token) : least (ts ++ us) = least ts + least us :=
  List.countP_append

@[simp]
theorem least_nil : least [] = 0 := rfl

@[simp]
theorem least_any (ts : List Token) : least (.any :: ts) = least ts := by simp [least]

theorem least_cons (ht : t ≠ .any) (ts : List Token) : least (t :: ts) = least ts + 1 := by
  simp [least, ht]

/-- What matches anything matches something that is no longer than it has to be. -/
theorem exists_short (h : matchTokens ts s = true) :
    ∃ r, matchTokens ts r = true ∧ r.length ≤ least ts := by
  induction ts generalizing s with
  | nil => exact ⟨[], rfl, Nat.le_refl _⟩
  | cons t ts ih =>
    by_cases ht : t = .any
    · subst ht
      obtain ⟨u, r, -, hr⟩ := matchTokens_any_iff.mp h
      obtain ⟨r', hr', hle⟩ := ih hr
      exact ⟨r', matchTokens_any_iff.mpr ⟨[], r', rfl, hr'⟩, by simpa using hle⟩
    · obtain ⟨c, r, -, hc, hr⟩ := (matchTokens_cons_iff ht).mp h
      obtain ⟨r', hr', hle⟩ := ih hr
      refine ⟨c :: r', (matchTokens_cons_iff ht).mpr ⟨c, r', rfl, hc, hr'⟩, ?_⟩
      rw [least_cons ht, List.length_cons]
      omega

theorem enter_cases (negated : Bool) (ranges : List (UInt8 × UInt8)) (d : UInt8) :
    (enter negated ranges d).1 = .outside ∧ least (enter negated ranges d).2 ≤ 1 ∨
      (enter negated ranges d).1 ≠ .outside ∧ (enter negated ranges d).2 = [] := by
  unfold enter
  split
  · simp
  · split
    · simp [least]
    · simp

theorem next_cases (m : Mode) (d : UInt8) :
    (next m d).1 = .outside ∧ least (next m d).2 ≤ 1 ∨
      (next m d).1 ≠ .outside ∧ (next m d).2 = [] := by
  cases m with
  | outside =>
    simp only [next]
    split
    · simp
    · split
      · simp [least]
      · split
        · simp
        · split <;> simp [least]
  | escape => simp [next, least]
  | opened =>
    simp only [next]
    split
    · simp
    · exact enter_cases _ _ _
  | inside negated ranges => exact enter_cases _ _ _
  | classEscape negated ranges => simp [next]
  | pending negated ranges c =>
    simp only [next]
    split
    · simp
    · exact enter_cases _ _ _
  | ranging negated ranges c => simp [next]

theorem least_finish_le (m : Mode) : least (finish m) ≤ 1 := by cases m <;> simp [finish, least]

/-- The star at the end takes no byte, unless it is taken into something that has begun. -/
theorem least_tokens_le (m : Mode) (p : List UInt8) :
    least (tokens m (p ++ [star])) ≤ if m = .outside then p.length else max 1 p.length := by
  induction p generalizing m with
  | nil =>
    split
    · rename_i hout
      rw [hout]
      simp [tokens, next, finish]
    · rw [List.nil_append, tokens, tokens, least_append]
      have hfinish := least_finish_le (next m star).1
      rcases next_cases m star with ⟨hout, hle⟩ | ⟨-, hnil⟩
      · rw [hout]
        simpa [finish, least] using hle
      · rw [hnil]
        simpa [least] using hfinish
  | cons c p ih =>
    rw [List.cons_append, tokens, least_append]
    have hp := ih (next m c).1
    rcases next_cases m c with ⟨hout, hle⟩ | ⟨hout, hnil⟩
    · rw [hout, if_pos rfl] at hp
      rw [hout]
      split
      · simp only [List.length_cons]
        omega
      · simp only [List.length_cons]
        omega
    · rw [if_neg hout] at hp
      rw [hnil]
      simp only [List.length_cons, least, List.countP_nil]
      unfold least at hp
      split
      · omega
      · omega

/-- The symbols that stand for something else outside of a class. -/
def special (c : UInt8) : Bool := c = star || c = question || c = opening || c = backslash

def Plain (p : List UInt8) : Prop := ∀ c ∈ p, special c = false

instance (p : List UInt8) : Decidable (Plain p) := inferInstanceAs (Decidable (∀ c ∈ p, _))

theorem tokens_cons_of_not_special (hc : special c = false) (p : List UInt8) :
    tokens .outside (c :: p) = .symbol c :: tokens .outside p := by
  simp only [special, Bool.or_eq_false_iff, decide_eq_false_iff_not] at hc
  obtain ⟨⟨⟨hstar, hquestion⟩, hopening⟩, hbackslash⟩ := hc
  simp [tokens, next, hstar, hquestion, hopening, hbackslash]

theorem matchTokens_symbol_iff {d : UInt8} :
    matchTokens (.symbol c :: ts) (d :: s) = true ↔ c = d ∧ matchTokens ts s = true := by
  simp [matchTokens, Token.admits]

theorem isMatch_cons_iff {d : UInt8} (hc : special c = false) :
    isMatch (c :: p) (d :: s) = true ↔ c = d ∧ isMatch p s = true := by
  rw [isMatch, tokens_cons_of_not_special hc, matchTokens_symbol_iff]
  rfl

theorem isMatch_star_cons_iff :
    isMatch (star :: p) s = true ↔ ∃ u r, s = u ++ r ∧ isMatch p r = true := matchTokens_any_iff

theorem isMatch_question_cons_iff :
    isMatch (question :: p) s = true ↔ ∃ c r, s = c :: r ∧ isMatch p r = true := by
  have hone : isMatch (question :: p) s = true ↔
      ∃ c r, s = c :: r ∧ Token.one.admits c = true ∧ isMatch p r = true :=
    matchTokens_cons_iff nofun
  simpa [Token.admits] using hone

theorem isMatch_append_of_plain {front : List UInt8} (h : Plain front) :
    isMatch (front ++ p) (front ++ s) = true ↔ isMatch p s = true := by
  induction front with
  | nil => exact Iff.rfl
  | cons c front ih =>
    rw [List.cons_append, List.cons_append, isMatch_cons_iff (h c List.mem_cons_self),
      ih fun d hd => h d (List.mem_cons_of_mem _ hd)]
    exact and_iff_right rfl

theorem not_isMatch_cons_nil (hc : special c = false) : isMatch (c :: p) [] = false := by
  rw [isMatch, tokens_cons_of_not_special hc]
  simp [matchTokens]

theorem isMatch_prefix_of_plain (h : Plain p) (s : List UInt8) :
    isMatch (p ++ [star]) s = true ↔ p <+: s := by
  induction p generalizing s with
  | nil =>
    simp only [List.nil_append, List.nil_prefix, iff_true]
    exact matchTokens_any_iff.mpr ⟨s, [], (List.append_nil s).symm, rfl⟩
  | cons c p ih =>
    have hc := h c List.mem_cons_self
    cases s with
    | nil => simp [not_isMatch_cons_nil hc]
    | cons d s =>
      rw [List.cons_append, isMatch_cons_iff hc, List.cons_prefix_cons,
        ih (fun d hd => h d (List.mem_cons_of_mem _ hd))]

theorem exists_shorter {m : Mode} (hm : m ≠ .outside) (hp : p ≠ [])
    (h : matchTokens (tokens m (p ++ [star])) s = true) :
    ∃ r, matchTokens (tokens m (p ++ [star])) r = true ∧ r.length ≤ p.length := by
  obtain ⟨r, hr, hle⟩ := exists_short h
  have hleast := least_tokens_le m p
  rw [if_neg hm] at hleast
  have hpos := List.length_pos_iff.mpr hp
  exact ⟨r, hr, by omega⟩

theorem exists_mismatch (h : ¬ Plain p) : ∃ s, ¬ (isMatch (p ++ [star]) s = true ↔ p <+: s) := by
  induction p with
  | nil => exact absurd (fun c hc => nomatch hc) h
  | cons c p ih =>
    by_contra hexact
    have hexact : ∀ s, isMatch (c :: p ++ [star]) s = true ↔ c :: p <+: s :=
      fun s => not_not.mp (not_exists.mp hexact s)
    have hself := (hexact (c :: p)).mpr (List.prefix_refl _)
    by_cases hc : special c = false
    · have hp : ¬ Plain p := by
        intro hp
        apply h
        intro d hd
        rcases List.mem_cons.mp hd with rfl | hd
        · exact hc
        · exact hp d hd
      obtain ⟨s, hs⟩ := ih hp
      apply hs
      have hcons := hexact (c :: s)
      rw [List.cons_append, isMatch_cons_iff hc, List.cons_prefix_cons] at hcons
      simpa using hcons
    · have hbegun : ∀ {m : Mode}, next .outside c = (m, []) → m ≠ .outside → p ≠ [] → False := by
        intro m hm hout hp
        have hmatch : isMatch (c :: p ++ [star]) = matchTokens (tokens m (p ++ [star])) := by
          funext s
          rw [isMatch, List.cons_append, tokens, hm]
          rfl
        rw [hmatch] at hself
        obtain ⟨r, hr, hle⟩ := exists_shorter hout hp hself
        rw [← hmatch] at hr
        have hlength := ((hexact r).mp hr).length_le
        simp only [List.length_cons] at hlength
        omega
      simp only [special, Bool.or_eq_false_iff, decide_eq_false_iff_not, not_and_or, not_not] at hc
      rcases hc with ((hc | hc) | hc) | hc
      · subst hc
        obtain ⟨-, r, -, hr⟩ := isMatch_star_cons_iff.mp hself
        have hzero : isMatch (star :: p ++ [star]) (0 :: r) = true :=
          isMatch_star_cons_iff.mpr ⟨[0], r, rfl, hr⟩
        exact absurd ((hexact (0 :: r)).mp hzero) (by simp [star])
      · subst hc
        obtain ⟨-, r, -, hr⟩ := isMatch_question_cons_iff.mp hself
        have hzero : isMatch (question :: p ++ [star]) (0 :: r) = true :=
          isMatch_question_cons_iff.mpr ⟨0, r, rfl, hr⟩
        exact absurd ((hexact (0 :: r)).mp hzero) (by simp [question])
      · subst hc
        cases p with
        | nil => exact absurd hself (by decide)
        | cons d p => exact hbegun (m := .opened) rfl nofun nofun
      · subst hc
        cases p with
        | nil => exact absurd hself (by decide)
        | cons d p => exact hbegun (m := .escape) rfl nofun nofun

end RedisGlob
