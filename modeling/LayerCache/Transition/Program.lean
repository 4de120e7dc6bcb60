import Mathlib.Logic.Basic
import Mathlib.Tactic.TypeStar

/-! # Programs that act on a state and may reject

What has been done to the state stays done when a program rejects. A triple gives one
postcondition for a program that returns and one for a program that rejects.
-/

abbrev Program (ε σ α : Type) : Type := ExceptT ε (StateM σ) α

namespace Program

variable {ε σ α β : Type}

/-- What the program comes to from a state, and the state it leaves. -/
def outcome (p : Program ε σ α) (s : σ) : Except ε α × σ := p s

/-- A step of the surroundings, which change as they answer. -/
def ask (answer : σ → α × σ) : Program ε σ α := fun s =>
  ((.ok (answer s).1 : Except ε α), (answer s).2)

def attempt (p : Program ε σ α) : Program ε σ (Except ε α) := fun s =>
  ((.ok (p.outcome s).1 : Except ε (Except ε α)), (p.outcome s).2)

def recover (p : Program ε σ α) (handler : ε → Program ε σ α) : Program ε σ α := do
  match ← p.attempt with
  | .ok a => pure a
  | .error e => handler e

/-- All programs run to their ends, and then the first rejection counts. -/
def all : List (Program ε σ α) → Program ε σ (List α)
  | [] => pure []
  | p :: ps => do
    let first ← p.attempt
    let rest ← (all ps).attempt
    match first, rest with
    | .ok a, .ok as => pure (a :: as)
    | .error e, _ => throw e
    | .ok _, .error e => throw e

@[simp] theorem outcome_pure (a : α) (s : σ) : (pure a : Program ε σ α).outcome s = (.ok a, s) :=
  rfl

@[simp] theorem outcome_throw (e : ε) (s : σ) :
    (throw e : Program ε σ α).outcome s = (.error e, s) := rfl

@[simp] theorem outcome_ask (answer : σ → α × σ) (s : σ) :
    (ask answer : Program ε σ α).outcome s = (.ok (answer s).1, (answer s).2) := rfl

@[simp] theorem outcome_attempt (p : Program ε σ α) (s : σ) :
    p.attempt.outcome s = (.ok (p.outcome s).1, (p.outcome s).2) := rfl

theorem outcome_bind (p : Program ε σ α) (f : α → Program ε σ β) (s : σ) :
    (p >>= f).outcome s = match p.outcome s with
      | (.ok a, s') => (f a).outcome s'
      | (.error e, s') => (.error e, s') := by
  have hbind : (p >>= f).outcome s =
      (match (p s).1 with | .ok a => f a | .error e => fun s' => (.error e, s')) (p s).2 := by
    rfl
  rw [hbind, outcome]
  match p s with
  | (.ok a, s') => rfl
  | (.error e, s') => rfl

/-- From the precondition the program returns with one postcondition or rejects with the other. -/
def Triple (P : σ → Prop) (p : Program ε σ α) (Q : α → σ → Prop) (E : ε → σ → Prop) : Prop :=
  ∀ s, P s → match p.outcome s with
    | (.ok a, s') => Q a s'
    | (.error e, s') => E e s'

variable {P P' : σ → Prop} {Q Q' : α → σ → Prop} {R : β → σ → Prop} {E E' : ε → σ → Prop}
  {p : Program ε σ α} {f : α → Program ε σ β}

namespace Triple

theorem pure {a : α} (h : ∀ s, P s → Q a s) : Triple P (pure a : Program ε σ α) Q E := h

theorem throw {e : ε} (h : ∀ s, P s → E e s) : Triple P (throw e : Program ε σ α) Q E := h

theorem ask {answer : σ → α × σ} (h : ∀ s, P s → Q (answer s).1 (answer s).2) :
    Triple P (ask answer : Program ε σ α) Q E := h

theorem mono (h : Triple P p Q E) (hP : ∀ s, P' s → P s) (hQ : ∀ a s, Q a s → Q' a s)
    (hE : ∀ e s, E e s → E' e s) : Triple P' p Q' E' := by
  intro s hs
  have hp := h s (hP s hs)
  match houtcome : p.outcome s with
  | (.ok a, s') =>
    rw [houtcome] at hp
    exact hQ a s' hp
  | (.error e, s') =>
    rw [houtcome] at hp
    exact hE e s' hp

theorem bind (h : Triple P p Q E) (hf : ∀ a, Triple (Q a) (f a) R E) :
    Triple P (p >>= f) R E := by
  intro s hs
  have hp := h s hs
  rw [outcome_bind]
  match houtcome : p.outcome s with
  | (.ok a, s') =>
    rw [houtcome] at hp
    exact hf a s' hp
  | (.error e, s') =>
    rw [houtcome] at hp
    exact hp

theorem attempt (h : Triple P p Q E) :
    Triple P p.attempt
      (fun r s => match r with | .ok a => Q a s | .error e => E e s) E' := by
  intro s hs
  have hp := h s hs
  rw [outcome_attempt]
  match houtcome : p.outcome s with
  | (.ok a, s') =>
    rw [houtcome] at hp
    exact hp
  | (.error e, s') =>
    rw [houtcome] at hp
    exact hp

theorem recover {handler : ε → Program ε σ α} (h : Triple P p Q E)
    (hhandler : ∀ e, Triple (E e) (handler e) Q E') : Triple P (p.recover handler) Q E' := by
  apply h.attempt.bind
  intro r
  cases r with
  | ok a => exact pure fun _ hs => hs
  | error e => exact hhandler e

theorem ite {c : Prop} [Decidable c] {q : Program ε σ α} (hp : c → Triple P p Q E)
    (hq : ¬ c → Triple P q Q E) : Triple P (if c then p else q) Q E := by
  split
  case isTrue h => exact hp h
  case isFalse h => exact hq h

end Triple

end Program
