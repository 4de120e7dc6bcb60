import Mathlib.Logic.Relation

/-! # Runs of a transition system

A system is an executable step function on states and actions. A condition on the
steps cuts the runs down to those whose every step meets it, and an invariant of
the single step holds wherever such a run leads.
-/

namespace Transition

variable {σ α : Type*} {step : σ → α → Option σ} {ok ok' : σ → α → Prop} {s s' : σ}

def Next (step : σ → α → Option σ) (ok : σ → α → Prop) (s s' : σ) : Prop :=
  ∃ a, ok s a ∧ step s a = some s'

/-- What the runs whose every step meets the condition reach. -/
abbrev Reaches (step : σ → α → Option σ) (ok : σ → α → Prop) : σ → σ → Prop :=
  Relation.ReflTransGen (Next step ok)

theorem Reaches.invariant {P : σ → Prop} (h : Reaches step ok s s')
    (hstep : ∀ s a s', P s → ok s a → step s a = some s' → P s') (hs : P s) : P s' := by
  induction h with
  | refl => exact hs
  | tail _ hnext ih =>
    obtain ⟨a, hok, ha⟩ := hnext
    exact hstep _ a _ ih hok ha

def run (step : σ → α → Option σ) (s : σ) : List α → Option σ
  | [] => some s
  | a :: as => (step s a).bind fun s' => run step s' as

theorem run_append (as as' : List α) :
    run step s (as ++ as') = (run step s as).bind fun s' => run step s' as' := by
  induction as generalizing s with
  | nil => rfl
  | cons a as ih =>
    rw [List.cons_append, run, run, Option.bind_assoc]
    congr 1
    funext s'
    exact ih

theorem run_concat (as : List α) (a : α) :
    run step s (as ++ [a]) = (run step s as).bind fun s' => step s' a := by
  rw [run_append]
  congr 1
  funext s'
  exact Option.bind_fun_some _

/-- Every step of the run of a list of actions meets the condition. -/
def Along (step : σ → α → Option σ) (ok : σ → α → Prop) (s : σ) : List α → Prop
  | [] => True
  | a :: as => ok s a ∧ ∀ s' ∈ step s a, Along step ok s' as

instance Along.decidable (step : σ → α → Option σ) (ok : σ → α → Prop)
    [∀ s a, Decidable (ok s a)] (s : σ) : (as : List α) → Decidable (Along step ok s as)
  | [] => isTrue trivial
  | a :: as =>
    match h : step s a with
    | none => decidable_of_iff (ok s a) (by simp [Along, h])
    | some s' =>
      have := Along.decidable step ok s' as
      decidable_of_iff (ok s a ∧ Along step ok s' as) (by simp [Along, h])

theorem along_of_forall {as : List α} (h : ∀ s, ∀ a ∈ as, ok s a) : Along step ok s as := by
  induction as generalizing s with
  | nil => trivial
  | cons a as ih =>
    exact ⟨h s a List.mem_cons_self, fun s' _ => ih fun t b hb => h t b (List.mem_cons_of_mem _ hb)⟩

/-- Each step of a run starts where the steps before it lead. -/
theorem Along.of_append {as as' : List α} {a : α} (h : Along step ok s (as ++ a :: as'))
    (hrun : run step s as = some s') : ok s' a := by
  induction as generalizing s with
  | nil =>
    cases hrun
    exact h.1
  | cons b as ih =>
    rw [run, Option.bind_eq_some_iff] at hrun
    obtain ⟨t, ht, hrun⟩ := hrun
    exact ih (h.2 t ht) hrun

/-- Two conditions agree along a run if they agree wherever an invariant of its steps holds. -/
theorem along_congr {P : σ → Prop} (hok : ∀ s a, P s → (ok s a ↔ ok' s a))
    (hstep : ∀ s a s', P s → ok' s a → step s a = some s' → P s') (hs : P s) (as : List α) :
    Along step ok s as ↔ Along step ok' s as := by
  induction as generalizing s with
  | nil => exact Iff.rfl
  | cons a as ih =>
    simp only [Along]
    constructor
    · rintro ⟨ha, hrest⟩
      have ha' := (hok s a hs).mp ha
      exact ⟨ha', fun s' h => (ih (hstep s a s' hs ha' h)).mp (hrest s' h)⟩
    · rintro ⟨ha', hrest⟩
      exact ⟨(hok s a hs).mpr ha', fun s' h => (ih (hstep s a s' hs ha' h)).mpr (hrest s' h)⟩

theorem reaches_of_run (ok : σ → α → Prop) {as : List α} (h : run step s as = some s')
    (hok : Along step ok s as) : Reaches step ok s s' := by
  induction as generalizing s with
  | nil => cases h; exact .refl
  | cons a as ih =>
    rw [run, Option.bind_eq_some_iff] at h
    obtain ⟨t, ht, h⟩ := h
    exact .head ⟨a, hok.1, ht⟩ (ih h (hok.2 t ht))

end Transition
