import LayerCache.Json.Parse

/-! # Indented text

`JSON.stringify` with an indent of two puts every item and member on a line of its own.
-/

namespace Json

def newline (indent : ℕ) : List Char := '\n' :: List.replicate indent ' '

mutual

def layout (indent : ℕ) : Value → List Char
  | .array (v :: rest) =>
    '[' :: ((newline (indent + 2) ++ layout (indent + 2) v) ++ layoutItems indent rest)
  | .object ((k, v) :: rest) =>
    '{' :: (newline (indent + 2) ++
      (quote k ++ ':' :: (' ' :: layout (indent + 2) v ++ layoutMembers indent rest)))
  | v => print v

def layoutItems (indent : ℕ) : List Value → List Char
  | [] => newline indent ++ [']']
  | v :: rest => ',' :: ((newline (indent + 2) ++ layout (indent + 2) v) ++ layoutItems indent rest)

def layoutMembers (indent : ℕ) : List (String × Value) → List Char
  | [] => newline indent ++ ['}']
  | (k, v) :: rest =>
    ',' :: (newline (indent + 2) ++
      (quote k ++ ':' :: (' ' :: layout (indent + 2) v ++ layoutMembers indent rest)))

end

theorem newline_blank (indent : ℕ) : ∀ c ∈ newline indent, isSpace c = true := by
  intro c hc
  rcases List.mem_cons.mp hc with rfl | hc
  · decide
  · obtain ⟨-, rfl⟩ := List.mem_replicate.mp hc
    decide

theorem ReadsAs.newline {v : Value} {cs : List Char} (h : ReadsAs v cs) (indent : ℕ) :
    ReadsAs v (newline indent ++ cs) := h.blank (newline_blank indent)

end Json
