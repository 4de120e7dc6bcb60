import Mathlib.Data.List.Basic
import Mathlib.Tactic.Linarith
import Mathlib.Tactic.Ring

/-! # Glob patterns

Patterns with a symbol for any text and a symbol for any one symbol, and the matcher that
goes back to the last star only. It decides the relation.
-/

namespace Glob

structure Wildcards (α : Type*) where
  star : α
  any : α

variable {α : Type*} (w : Wildcards α)

inductive Matches : List α → List α → Prop
  | nil : Matches [] []
  | skip {ps vs : List α} (h : Matches ps vs) : Matches (w.star :: ps) vs
  | take {ps vs : List α} {v : α} (h : Matches (w.star :: ps) vs) :
      Matches (w.star :: ps) (v :: vs)
  | one {p v : α} {ps vs : List α} (hp : p ≠ w.star) (hv : p = w.any ∨ p = v)
      (h : Matches ps vs) : Matches (p :: ps) (v :: vs)

variable {w} {ps vs : List α}

theorem Matches.append_left (h : Matches w (w.star :: ps) vs) (us : List α) :
    Matches w (w.star :: ps) (us ++ vs) := by
  induction us with
  | nil => exact h
  | cons u us ih => exact .take ih

theorem matches_star_cons {v : α} :
    Matches w (w.star :: ps) (v :: vs) ↔
      Matches w ps (v :: vs) ∨ Matches w (w.star :: ps) vs := by
  constructor
  · intro h
    cases h with
    | skip h => exact Or.inl h
    | take h => exact Or.inr h
    | one hp => exact absurd rfl hp
  · rintro (h | h)
    · exact .skip h
    · exact .take h

theorem matches_star_iff :
    Matches w (w.star :: ps) vs ↔ ∃ us rest, vs = us ++ rest ∧ Matches w ps rest := by
  constructor
  · intro h
    induction vs with
    | nil =>
      cases h with
      | skip h => exact ⟨[], [], rfl, h⟩
    | cons v vs ih =>
      rcases matches_star_cons.mp h with h | h
      · exact ⟨[], v :: vs, rfl, h⟩
      · obtain ⟨us, rest, rfl, hrest⟩ := ih h
        exact ⟨v :: us, rest, rfl, hrest⟩
  · rintro ⟨us, rest, rfl, h⟩
    exact (Matches.skip h).append_left us

theorem matches_cons_cons {p v : α} (hp : p ≠ w.star) :
    Matches w (p :: ps) (v :: vs) ↔ (p = w.any ∨ p = v) ∧ Matches w ps vs := by
  constructor
  · intro h
    cases h with
    | skip h => exact absurd rfl hp
    | take h => exact absurd rfl hp
    | one _ hv h => exact ⟨hv, h⟩
  · rintro ⟨hv, h⟩
    exact .one hp hv h

theorem matches_nil_right : Matches w ps [] ↔ ∀ p ∈ ps, p = w.star := by
  induction ps with
  | nil => exact ⟨fun _ => List.forall_mem_nil _, fun _ => .nil⟩
  | cons p ps ih =>
    rw [List.forall_mem_cons, ← ih]
    constructor
    · intro h
      cases h with
      | skip h => exact ⟨rfl, h⟩
    · rintro ⟨rfl, h⟩
      exact .skip h

theorem matches_append {seg : List α} (hseg : w.star ∉ seg) :
    Matches w (seg ++ ps) vs → ∃ us rest, vs = us ++ rest ∧ us.length = seg.length ∧
      Matches w ps rest := by
  induction seg generalizing vs with
  | nil => exact fun h => ⟨[], vs, rfl, rfl, h⟩
  | cons p seg ih =>
    rw [List.mem_cons, not_or] at hseg
    intro h
    cases vs with
    | nil => exact absurd (matches_nil_right.mp h p List.mem_cons_self) (Ne.symm hseg.1)
    | cons v vs =>
      obtain ⟨us, rest, rfl, hlength, h⟩ :=
        ih hseg.2 ((matches_cons_cons (Ne.symm hseg.1)).mp h).2
      exact ⟨v :: us, rest, rfl, congrArg Nat.succ hlength, h⟩

theorem Matches.append {ps' vs' : List α} (h : Matches w ps vs) (h' : Matches w ps' vs') :
    Matches w (ps ++ ps') (vs ++ vs') := by
  induction h with
  | nil => exact h'
  | skip _ ih => exact .skip ih
  | take _ ih => exact .take ih
  | one hp hv _ ih => exact .one hp hv ih

/-- A star can take a star. -/
theorem Matches.refl (us : List α) : Matches w us us := by
  induction us with
  | nil => exact .nil
  | cons u us ih =>
    by_cases hu : u = w.star
    · subst hu
      exact .take (.skip ih)
    · exact .one hu (Or.inr rfl) ih

theorem Matches.literal {us : List α} (hstar : w.star ∉ us) (hany : w.any ∉ us)
    (h : Matches w (us ++ ps) vs) : ∃ rest, vs = us ++ rest ∧ Matches w ps rest := by
  induction us generalizing vs with
  | nil => exact ⟨vs, rfl, h⟩
  | cons u us ih =>
    rw [List.mem_cons, not_or] at hstar hany
    cases vs with
    | nil => exact absurd (matches_nil_right.mp h u List.mem_cons_self) (Ne.symm hstar.1)
    | cons v vs =>
      obtain ⟨hv, hrest⟩ := (matches_cons_cons (Ne.symm hstar.1)).mp h
      obtain rfl := hv.resolve_left (Ne.symm hany.1)
      obtain ⟨rest, rfl, hmatch⟩ := ih hstar.2 hany.2 hrest
      exact ⟨rest, rfl, hmatch⟩

theorem Matches.front {us : List α} (hstar : w.star ∉ us) (hany : w.any ∉ us)
    (h : Matches w (us ++ ps) vs) : us <+: vs := by
  obtain ⟨rest, rfl, -⟩ := h.literal hstar hany
  exact List.prefix_append us rest

/-- Goes back to the last star, which takes one more symbol. -/
def goBack (loop : List α → List α → Option (List α × List α) → Bool) :
    Option (List α × List α) → Bool
  | some (pattern, _ :: rest) => loop pattern rest (some (pattern, rest))
  | _ => false

/-- What the loop has taken since the last star is a part of the pattern without stars and
a part of the text of the same length. The bounds are those of the first round. -/
def Since (w : Wildcards α) (L N : ℕ) (ps vs : List α) : Option (List α × List α) → Prop
  | none => True
  | some (sp, sv) => ∃ seg used, sp = seg ++ ps ∧ sv = used ++ vs ∧ seg.length = used.length ∧
      w.star ∉ seg ∧ sp.length + sv.length ≤ L ∧ sv.length ≤ N

def retries (N : ℕ) : Option (List α × List α) → ℕ
  | none => N + 1
  | some (_, sv) => sv.length

/-- An earlier star is not needed once a later one is reached: what it could still give to
the text in between, the later one can take. -/
theorem matches_of_since {L N : ℕ} {sp sv : List α} {x v : α}
    (hsince : Since w L N (w.star :: ps) (v :: vs) (some (sp, x :: sv)))
    (h : Matches w (w.star :: sp) sv) : Matches w (w.star :: ps) (v :: vs) := by
  obtain ⟨seg, used, rfl, hsv, hlength, hseg, -⟩ := hsince
  obtain ⟨us, _, rfl, hpart⟩ := matches_star_iff.mp h
  obtain ⟨us', rest', rfl, hlength', hrest⟩ := matches_append hseg hpart
  have hdrop := congrArg (List.drop (used.length + (us.length + 1))) hsv
  have hleft : (x :: (us ++ (us' ++ rest'))).drop (used.length + (us.length + 1)) = rest' := by
    have hall : used.length + (us.length + 1) = (x :: (us ++ us')).length := by
      simp only [List.length_cons, List.length_append]
      omega
    rw [hall, ← List.append_assoc, ← List.cons_append]
    exact List.drop_left
  rw [hleft, List.drop_append, Nat.add_sub_cancel_left,
    List.drop_eq_nil_of_le (by omega), List.nil_append] at hdrop
  rw [hdrop] at hrest
  rw [← List.take_append_drop (us.length + 1) (v :: vs)]
  exact hrest.append_left _

/-- Where the text is used up, going back to a star leaves too little text. -/
theorem not_matches_of_since {L N : ℕ} {sp sv : List α} {x : α}
    (hsince : Since w L N ps [] (some (sp, x :: sv))) : ¬ Matches w (w.star :: sp) sv := by
  obtain ⟨seg, used, rfl, hsv, hlength, hseg, -⟩ := hsince
  intro h
  obtain ⟨us, _, rfl, hpart⟩ := matches_star_iff.mp h
  obtain ⟨us', rest', rfl, hlength', -⟩ := matches_append hseg hpart
  have := congrArg List.length hsv
  simp only [List.length_cons, List.length_append, List.append_nil] at this
  omega

/-- The loop decides whether the rest of the pattern matches the rest of the text, or would
after going back. -/
def Decides (w : Wildcards α) (loop : List α → List α → Option (List α × List α) → Bool)
    (ps vs : List α) (star : Option (List α × List α)) : Prop :=
  loop ps vs star = true ↔ Matches w ps vs ∨
    ∃ sp x sv, star = some (sp, x :: sv) ∧ Matches w (w.star :: sp) sv

/-- Going back is right where the current attempt has failed. -/
theorem goBack_iff {loop : List α → List α → Option (List α × List α) → Bool}
    {star : Option (List α × List α)} (hno : ¬ Matches w ps vs)
    (h : ∀ sp x sv, star = some (sp, x :: sv) → Decides w loop sp sv (some (sp, sv))) :
    goBack loop star = true ↔ Matches w ps vs ∨
      ∃ sp x sv, star = some (sp, x :: sv) ∧ Matches w (w.star :: sp) sv := by
  rw [or_iff_right hno]
  rcases star with _ | ⟨sp, _ | ⟨x, sv⟩⟩
  · simp [goBack]
  · simp [goBack]
  · have hloop : loop sp sv (some (sp, sv)) = true ↔ _ := h sp x sv rfl
    rw [goBack, hloop]
    constructor
    · rintro (hmatch | ⟨_, y, sv', heq, hmatch⟩)
      · exact ⟨sp, x, sv, rfl, .skip hmatch⟩
      · obtain ⟨rfl, rfl⟩ := Prod.mk.inj (Option.some.inj heq)
        exact ⟨sp, x, _, rfl, .take hmatch⟩
    · rintro ⟨_, _, _, ⟨⟩, hmatch⟩
      cases sv with
      | nil =>
        left
        rw [matches_nil_right] at hmatch ⊢
        exact (List.forall_mem_cons.mp hmatch).2
      | cons y sv =>
        refine (matches_star_cons.mp hmatch).imp_right fun hrest => ?_
        exact ⟨sp, y, sv, rfl, hrest⟩

theorem Since.step {L N : ℕ} {p v : α} {star : Option (List α × List α)} (hp : p ≠ w.star)
    (h : Since w L N (p :: ps) (v :: vs) star) : Since w L N ps vs star := by
  rcases star with _ | ⟨sp, sv⟩
  · trivial
  · obtain ⟨seg, used, rfl, rfl, hlength, hseg, hbounds⟩ := h
    refine ⟨seg ++ [p], used ++ [v], by simp, by simp, by simp [hlength], ?_, hbounds⟩
    simp [hseg, Ne.symm hp]

theorem Since.length_le {L N : ℕ} {star : Option (List α × List α)} (hN : vs.length ≤ N)
    (h : Since w L N ps vs star) : vs.length ≤ retries N star := by
  rcases star with _ | ⟨sp, sv⟩
  · exact Nat.le_succ_of_le hN
  · obtain ⟨seg, used, rfl, rfl, -⟩ := h
    simp [retries]

variable [DecidableEq α]

variable (w) in
/-- The loop of the matcher, with what is left of the pattern and of the text, and what came
after the last star and the text it was last tried on. -/
def matchLoop : ℕ → List α → List α → Option (List α × List α) → Bool
  | 0, _, _, _ => false
  | _ + 1, pattern, [], _ => pattern.all (· = w.star)
  | fuel + 1, [], _ :: _, star => goBack (matchLoop fuel) star
  | fuel + 1, p :: ps, v :: vs, star =>
    if p = w.star then matchLoop fuel ps (v :: vs) (some (ps, v :: vs))
    else if p = w.any ∨ p = v then matchLoop fuel ps vs star
    else goBack (matchLoop fuel) star

variable (w) in
def matchLinear (pattern value : List α) : Bool :=
  matchLoop w ((value.length + 2) * (pattern.length + value.length + 1)) pattern value none

theorem matchLoop_iff (L N : ℕ) : ∀ (fuel : ℕ) {ps vs : List α}
    {star : Option (List α × List α)}, ps.length + vs.length ≤ L → vs.length ≤ N →
    Since w L N ps vs star → retries N star * (L + 1) + (ps.length + vs.length) < fuel →
    Decides w (matchLoop w fuel) ps vs star
  | 0, _, _, _, _, _, _, hfuel => absurd hfuel (Nat.not_lt_zero _)
  | fuel + 1, ps, [], star, _, _, hsince, _ => by
    have hstar : ¬ ∃ sp x sv, star = some (sp, x :: sv) ∧ Matches w (w.star :: sp) sv := by
      rintro ⟨sp, x, sv, rfl, h⟩
      exact not_matches_of_since hsince h
    rw [Decides, matchLoop, or_iff_left hstar, matches_nil_right]
    simp
  | fuel + 1, ps, v :: vs, star, hL, hN, hsince, hfuel => by
    have hback : ∀ sp x sv, star = some (sp, x :: sv) →
        Decides w (matchLoop w fuel) sp sv (some (sp, sv)) := by
      rintro sp x sv rfl
      obtain ⟨-, -, -, -, -, -, hsum, hsize⟩ := hsince
      rw [List.length_cons] at hsum hsize
      rw [retries, List.length_cons, Nat.add_mul, Nat.one_mul] at hfuel
      refine matchLoop_iff L N fuel (by omega) (by omega) ?_ (by rw [retries]; omega)
      exact ⟨[], [], rfl, rfl, rfl, List.not_mem_nil, by omega, by omega⟩
    cases ps with
    | nil =>
      rw [Decides, matchLoop]
      exact goBack_iff (fun h => by cases h) hback
    | cons p ps =>
      rw [Decides, matchLoop]
      rw [List.length_cons] at hL hfuel
      split
      case isTrue hp =>
        subst hp
        have hle := Nat.mul_le_mul_right (L + 1) (hsince.length_le hN)
        have hloop : Decides w (matchLoop w fuel) ps (v :: vs) (some (ps, v :: vs)) :=
          matchLoop_iff L N fuel (by omega) hN
            ⟨[], [], rfl, rfl, rfl, List.not_mem_nil, by omega, hN⟩ (by rw [retries]; omega)
        rw [Decides] at hloop
        rw [hloop]
        constructor
        · rintro (h | ⟨_, _, _, ⟨⟩, h⟩)
          · exact Or.inl (.skip h)
          · exact Or.inl (.take h)
        · rintro (h | ⟨sp, x, sv, rfl, h⟩)
          · exact (matches_star_cons.mp h).imp_right fun h => ⟨ps, v, vs, rfl, h⟩
          · exact (matches_star_cons.mp (matches_of_since hsince h)).imp_right
              fun h => ⟨ps, v, vs, rfl, h⟩
      case isFalse hp =>
        rw [List.length_cons] at hL hN hfuel
        split
        case isTrue hv =>
          rw [matches_cons_cons hp, and_iff_right hv]
          exact matchLoop_iff L N fuel (by omega) (by omega) (hsince.step hp) (by omega)
        case isFalse hv => exact goBack_iff (fun h => hv ((matches_cons_cons hp).mp h).1) hback

/-- The matcher decides the relation. -/
theorem matchLinear_iff {pattern value : List α} :
    matchLinear w pattern value = true ↔ Matches w pattern value := by
  have h : Decides w (matchLoop w ((value.length + 2) * (pattern.length + value.length + 1)))
      pattern value none := by
    refine matchLoop_iff (pattern.length + value.length) value.length _ le_rfl le_rfl trivial ?_
    rw [retries, Nat.add_mul (value.length + 1) 1]
    omega
  rw [Decides] at h
  rw [matchLinear, h]
  simp

end Glob
