import Mathlib.Algebra.GroupWithZero.Nat
import Mathlib.Algebra.Order.BigOperators.Group.List
import Mathlib.Algebra.Order.Group.Nat
import Mathlib.Data.List.Count
import Mathlib.Data.List.Infix
import Mathlib.Data.List.Nodup
import Mathlib.Data.Set.Insert
import Mathlib.Logic.Function.Basic
import Mathlib.Order.BooleanAlgebra.Set

/-! # Tries

A node of a trie is named by the way from it up to the root, so that its children have one more
symbol in front. Nodes that have been taken out have no children and end no word, and a walk that
has them on its stack goes on.
-/

structure Trie (α : Type*) where
  terminal : List α → Bool
  /-- In the order in which they were made. -/
  children : List α → List α

namespace Trie

variable {α : Type*}

def empty : Trie α := ⟨fun _ => false, fun _ => []⟩

variable [DecidableEq α]

def setTerminal (t : Trie α) (node : List α) (terminal : Bool) : Trie α :=
  { t with terminal := Function.update t.terminal node terminal }

def setChildren (t : Trie α) (node symbols : List α) : Trie α :=
  { t with children := Function.update t.children node symbols }

def addChild (t : Trie α) (node : List α) (a : α) : Trie α :=
  if a ∈ t.children node then t else t.setChildren node (t.children node ++ [a])

/-- Walks down from a node, makes the nodes that are missing, and ends a word. -/
def insertFrom (t : Trie α) (node : List α) : List α → Trie α
  | [] => t.setTerminal node true
  | a :: word => (t.addChild node a).insertFrom (a :: node) word

def insert (t : Trie α) (word : List α) : Trie α := t.insertFrom [] word

def find (t : Trie α) (node : List α) : List α → Option (List α)
  | [] => some node
  | a :: word => if a ∈ t.children node then t.find (a :: node) word else none

/-- Takes out nodes that are empty, from a node up to the first that is not. -/
def prune (t : Trie α) : List α → Trie α
  | [] => t
  | a :: node =>
    if a ∉ t.children node ∨ t.terminal (a :: node) ∨ t.children (a :: node) ≠ [] then t
    else (t.setChildren node ((t.children node).filter (· ≠ a))).prune node

def erase (t : Trie α) (word : List α) : Trie α :=
  match t.find [] word with
  | none => t
  | some node => (t.setTerminal node false).prune node

/-- Visits the words below the nodes of the stack. The visitor may change the trie, and the
children of a node are looked up when it has been visited. -/
def visitFromNode {σ ε : Type*} (trie : σ → Trie α) (visitor : List α → σ → Except ε σ) :
    ℕ → List (List α) → σ → Option (Except ε σ)
  | _, [], s => some (.ok s)
  | 0, _ :: _, _ => none
  | fuel + 1, node :: stack, s =>
    match if (trie s).terminal node then visitor node s else .ok s with
    | .error e => some (.error e)
    | .ok s => visitFromNode trie visitor fuel
        (((trie s).children node).map (· :: node) ++ stack) s

omit [DecidableEq α] in
theorem not_cons_suffix {a : α} {x : List α} : ¬ a :: x <:+ x := fun h =>
  Nat.not_succ_le_self _ h.length_le

/-- The trie has the nodes that end a word, and those above them. -/
structure Holds (t : Trie α) (ends : Set (List α)) : Prop where
  terminal : ∀ node, t.terminal node = true ↔ node ∈ ends
  children : ∀ node a, a ∈ t.children node ↔ ∃ w ∈ ends, a :: node <:+ w
  nodup : ∀ node, (t.children node).Nodup

variable {t : Trie α} {ends : Set (List α)} {node x symbols word : List α} {a b : α}

omit [DecidableEq α] in
theorem holds_empty : (empty : Trie α).Holds ∅ where
  terminal _ := by simp [empty]
  children _ _ := by simp [empty]
  nodup _ := List.nodup_nil

@[simp]
theorem terminal_setChildren : (t.setChildren node symbols).terminal = t.terminal := rfl

@[simp]
theorem children_setTerminal {terminal : Bool} :
    (t.setTerminal node terminal).children = t.children := rfl

@[simp]
theorem terminal_setTerminal_self {terminal : Bool} :
    (t.setTerminal node terminal).terminal node = terminal := Function.update_self ..

theorem terminal_setTerminal_of_ne {terminal : Bool} (h : x ≠ node) :
    (t.setTerminal node terminal).terminal x = t.terminal x := Function.update_of_ne h ..

@[simp]
theorem children_setChildren_self : (t.setChildren node symbols).children node = symbols :=
  Function.update_self ..

theorem children_setChildren_of_ne (h : x ≠ node) :
    (t.setChildren node symbols).children x = t.children x := Function.update_of_ne h ..

theorem nodup_setChildren (h : ∀ x, (t.children x).Nodup) (hsymbols : symbols.Nodup)
    (x : List α) : ((t.setChildren node symbols).children x).Nodup := by
  by_cases hx : x = node
  · subst hx
    rwa [children_setChildren_self]
  · rw [children_setChildren_of_ne hx]
    exact h x

theorem terminal_addChild : (t.addChild node a).terminal = t.terminal := by
  unfold addChild
  split <;> rfl

theorem mem_children_addChild :
    b ∈ (t.addChild node a).children x ↔ b ∈ t.children x ∨ b = a ∧ x = node := by
  unfold addChild
  by_cases hx : x = node
  · subst hx
    split
    · rename_i hmem
      constructor
      · exact .inl
      · rintro (h | ⟨rfl, -⟩)
        · exact h
        · exact hmem
    · simp
  · split <;> simp [hx, children_setChildren_of_ne]

theorem nodup_addChild (h : ∀ x, (t.children x).Nodup) (x : List α) :
    ((t.addChild node a).children x).Nodup := by
  unfold addChild
  split
  · exact h x
  · rename_i hmem
    exact nodup_setChildren h ((h node).append (List.nodup_singleton a) (by simpa using hmem)) x

theorem terminal_insertFrom :
    (t.insertFrom node word).terminal x = true ↔
      x = word.reverse ++ node ∨ t.terminal x = true := by
  induction word generalizing t node with
  | nil =>
    rw [insertFrom]
    by_cases hx : x = node
    · simp [hx]
    · simp [hx, terminal_setTerminal_of_ne]
  | cons a word ih => rw [insertFrom, ih, terminal_addChild, List.reverse_cons, List.append_assoc,
      List.singleton_append]

theorem mem_children_insertFrom :
    b ∈ (t.insertFrom node word).children x ↔
      b ∈ t.children x ∨ b :: x <:+ word.reverse ++ node ∧ node <:+ x := by
  induction word generalizing t node with
  | nil =>
    simp only [insertFrom, List.reverse_nil, List.nil_append]
    constructor
    · exact .inl
    · rintro (h | ⟨h, h'⟩)
      · exact h
      · exact absurd (h.trans h') not_cons_suffix
  | cons a word ih =>
    rw [insertFrom, ih, mem_children_addChild, List.reverse_cons, List.append_assoc,
      List.singleton_append, or_assoc]
    apply or_congr Iff.rfl
    constructor
    · rintro (⟨rfl, rfl⟩ | ⟨h, h'⟩)
      · exact ⟨List.suffix_append _ _, List.suffix_rfl⟩
      · exact ⟨h, (List.suffix_cons a node).trans h'⟩
    · rintro ⟨h, h'⟩
      -- both nodes are on the way of the word, and the longer is the lower
      have hlength : (a :: node).length ≤ (b :: x).length := by simpa using h'.length_le
      have hbelow : a :: node <:+ b :: x :=
        List.suffix_of_suffix_length_le (List.suffix_append _ _) h hlength
      rcases List.suffix_cons_iff.mp hbelow with heq | hbelow
      · cases heq
        exact .inl ⟨rfl, rfl⟩
      · exact .inr ⟨h, hbelow⟩

theorem nodup_insertFrom (h : ∀ x, (t.children x).Nodup) (x : List α) :
    ((t.insertFrom node word).children x).Nodup := by
  induction word generalizing t node with
  | nil => exact h x
  | cons a word ih => exact ih (nodup_addChild h)

theorem Holds.insert (h : t.Holds ends) (word : List α) :
    (t.insert word).Holds (Insert.insert word.reverse ends) where
  terminal node := by
    rw [Trie.insert, terminal_insertFrom, List.append_nil, h.terminal, Set.mem_insert_iff]
  children node a := by
    rw [Trie.insert, mem_children_insertFrom, h.children, List.append_nil]
    simp only [List.nil_suffix, and_true, Set.mem_insert_iff, exists_eq_or_imp]
    exact or_comm
  nodup := nodup_insertFrom h.nodup

theorem eq_of_find (h : t.find node word = some x) : x = word.reverse ++ node := by
  induction word generalizing node with
  | nil => exact (Option.some.inj h).symm
  | cons a word ih =>
    rw [find] at h
    split at h
    · simpa using ih h
    · cases h

/-- The nodes on the way to one that is found are there. -/
theorem mem_children_of_find {n : List α} (h : t.find node word = some n)
    (hbelow : node <:+ x) (hway : a :: x <:+ word.reverse ++ node) : a ∈ t.children x := by
  induction word generalizing node with
  | nil => exact absurd (hway.trans hbelow) not_cons_suffix
  | cons b word ih =>
    rw [find] at h
    split at h
    · rename_i hmem
      rw [List.reverse_cons, List.append_assoc, List.singleton_append] at hway
      have hlength : (b :: node).length ≤ (a :: x).length := by simpa using hbelow.length_le
      have hlower : b :: node <:+ a :: x :=
        List.suffix_of_suffix_length_le (List.suffix_append _ _) hway hlength
      rcases List.suffix_cons_iff.mp hlower with heq | hlower
      · cases heq
        exact hmem
      · exact ih h hlower hway
    · cases h

theorem Holds.of_find_none (h : t.Holds ends) (hfind : t.find node word = none) {w : List α}
    (hw : w ∈ ends) : ¬ word.reverse ++ node <:+ w := by
  induction word generalizing node with
  | nil => cases hfind
  | cons a word ih =>
    rw [List.reverse_cons, List.append_assoc, List.singleton_append]
    rw [find] at hfind
    split at hfind
    · exact ih hfind
    · rename_i hmem
      intro hbelow
      exact hmem ((h.children node a).mpr ⟨w, hw, (List.suffix_append _ _).trans hbelow⟩)

/-- The nodes on the way to one node are there, whether they are needed or not. -/
structure HoldsTo (t : Trie α) (ends : Set (List α)) (node : List α) : Prop where
  terminal : ∀ x, t.terminal x = true ↔ x ∈ ends
  children : ∀ x a, a ∈ t.children x ↔ (∃ w ∈ ends, a :: x <:+ w) ∨ a :: x <:+ node
  nodup : ∀ x, (t.children x).Nodup

omit [DecidableEq α] in
/-- The way to a node that is needed is needed. -/
theorem HoldsTo.holds (h : t.HoldsTo ends node) {w : List α} (hw : w ∈ ends) (hnode : node <:+ w) :
    t.Holds ends where
  terminal := h.terminal
  children x a := by
    rw [h.children]
    constructor
    · rintro (hneeded | hway)
      · exact hneeded
      · exact ⟨w, hw, hway.trans hnode⟩
    · exact .inl
  nodup := h.nodup

theorem HoldsTo.prune (h : t.HoldsTo ends node) : (t.prune node).Holds ends := by
  induction node generalizing t with
  | nil =>
    refine ⟨h.terminal, fun x a => ?_, h.nodup⟩
    rw [Trie.prune, h.children]
    simp
  | cons a node ih =>
    have hmem : a ∈ t.children node := (h.children node a).mpr (.inr List.suffix_rfl)
    rw [Trie.prune]
    split
    · rename_i hneeded
      rcases hneeded with hnot | hterminal | hchildren
      · exact absurd hmem hnot
      · exact h.holds ((h.terminal _).mp hterminal) List.suffix_rfl
      · obtain ⟨c, hc⟩ := List.exists_mem_of_ne_nil _ hchildren
        rcases (h.children _ c).mp hc with ⟨w, hw, hbelow⟩ | hway
        · exact h.holds hw ((List.suffix_cons c _).trans hbelow)
        · exact absurd hway not_cons_suffix
    · rename_i hempty
      push Not at hempty
      obtain ⟨-, hterminal, hchildren⟩ := hempty
      -- no word is at the node or below it
      have hunneeded : ¬ ∃ w ∈ ends, a :: node <:+ w := by
        rintro ⟨w, hw, hbelow⟩
        obtain ⟨front, rfl⟩ := hbelow
        rcases List.eq_nil_or_concat front with rfl | ⟨front, c, rfl⟩
        · exact hterminal ((h.terminal _).mpr hw)
        · have hc : c ∈ t.children (a :: node) :=
            (h.children _ c).mpr (.inl ⟨_, hw, front, by simp⟩)
          rw [hchildren] at hc
          cases hc
      apply ih
      refine ⟨h.terminal, fun x b => ?_, nodup_setChildren h.nodup ((h.nodup node).filter _)⟩
      by_cases hx : x = node
      · subst hx
        rw [children_setChildren_self, List.mem_filter, h.children]
        simp only [decide_eq_true_eq, not_cons_suffix, or_false]
        constructor
        · rintro ⟨hneeded | hway, hb⟩
          · exact hneeded
          · cases hway.eq_of_length (by simp)
            exact absurd rfl hb
        · intro hneeded
          refine ⟨.inl hneeded, ?_⟩
          rintro rfl
          exact hunneeded hneeded
      · rw [children_setChildren_of_ne hx, h.children, List.suffix_cons_iff]
        have hne : b :: x ≠ a :: node := by
          rintro ⟨⟩
          exact hx rfl
        simp only [hne, false_or]

theorem Holds.erase (h : t.Holds ends) (word : List α) :
    (t.erase word).Holds (ends \ {word.reverse}) := by
  unfold Trie.erase
  cases hfind : t.find [] word with
  | none =>
    have hnot : word.reverse ∉ ends := fun hmem => h.of_find_none hfind hmem (by simp)
    rwa [Set.sdiff_singleton_eq_self hnot]
  | some node =>
    have hnode : node = word.reverse := by simpa using eq_of_find hfind
    subst hnode
    apply HoldsTo.prune
    refine ⟨fun x => ?_, fun x a => ?_, h.nodup⟩
    · by_cases hx : x = word.reverse
      · simp [hx]
      · simp [hx, h.terminal, terminal_setTerminal_of_ne]
    · rw [children_setTerminal, h.children]
      constructor
      · rintro ⟨w, hw, hbelow⟩
        by_cases heq : w = word.reverse
        · exact .inr (heq ▸ hbelow)
        · exact .inl ⟨w, ⟨hw, heq⟩, hbelow⟩
      · rintro (⟨w, ⟨hw, -⟩, hbelow⟩ | hway)
        · exact ⟨w, hw, hbelow⟩
        · apply (h.children x a).mp
          exact mem_children_of_find hfind List.nil_suffix (by simpa using hway)

variable {start : List α} {visited stack : List (List α)}

/-- The walk is past the visited words and has the others below its stack, each once. -/
structure Walk (ends : Set (List α)) (start : List α) (visited stack : List (List α)) : Prop where
  once : ∀ w ∈ ends, start <:+ w → visited.count w + stack.countP (· <:+ w) = 1
  visited : ∀ x ∈ visited, x ∈ ends ∧ start <:+ x
  stack : ∀ n ∈ stack, start <:+ n

theorem Walk.initial (ends : Set (List α)) (start : List α) : Walk ends start [] [start] where
  once w _ hbelow := by simp [hbelow]
  visited _ h := nomatch h
  stack _ h := List.mem_singleton.mp h ▸ List.suffix_rfl

theorem Walk.nodup (h : Walk ends start visited stack) : visited.Nodup := by
  apply List.nodup_iff_count_le_one.mpr
  intro x
  by_cases hx : x ∈ visited
  · have := h.once x (h.visited x hx).1 (h.visited x hx).2
    omega
  · rw [List.count_eq_zero_of_not_mem hx]
    exact Nat.zero_le 1

theorem Walk.mem_visited (h : Walk ends start visited []) :
    x ∈ visited ↔ x ∈ ends ∧ start <:+ x := by
  constructor
  · exact h.visited x
  · rintro ⟨hx, hbelow⟩
    have := h.once x hx hbelow
    apply List.count_pos_iff.mp
    simp only [List.countP_nil] at this
    omega

omit [DecidableEq α] in
theorem cons_suffix_iff {front : List α} :
    a :: node <:+ front ++ b :: node ↔ a = b := by
  constructor
  · intro h
    have heq : a :: node = b :: node :=
      (List.suffix_of_suffix_length_le h (List.suffix_append _ _) (by simp)).eq_of_length (by simp)
    exact (List.cons.inj heq).1
  · rintro rfl
    exact List.suffix_append _ _

theorem exists_child {w : List α} (hbelow : node <:+ w) (hne : w ≠ node) :
    ∃ c, c :: node <:+ w ∧ ∀ symbols : List α,
      (symbols.map (· :: node)).countP (· <:+ w) = symbols.count c := by
  obtain ⟨front, rfl⟩ := hbelow
  rcases List.eq_nil_or_concat' front with rfl | ⟨front, c, rfl⟩
  · exact absurd rfl hne
  · rw [List.append_assoc, List.singleton_append]
    refine ⟨c, List.suffix_append _ _, fun symbols => ?_⟩
    rw [List.countP_map, List.count]
    apply List.countP_congr
    intro a _
    simp [cons_suffix_iff]

theorem countP_children_of_not_below {w : List α} (h : node <:+ w → w = node)
    (symbols : List α) : (symbols.map (· :: node)).countP (· <:+ w) = 0 := by
  rw [List.countP_eq_zero]
  simp only [List.mem_map, forall_exists_index, and_imp, forall_apply_eq_imp_iff₂,
    decide_eq_true_eq]
  intro c _ hbelow
  cases h ((List.suffix_cons c node).trans hbelow)
  exact not_cons_suffix hbelow

/-- The next node of the stack ends no word that is still to be visited. -/
theorem Walk.not_visited (h : Walk ends start visited (node :: stack)) (hnode : node ∈ ends) :
    node ∉ visited := by
  intro hmem
  have hcount := h.once node hnode (h.visited node hmem).2
  have := List.count_pos_iff.mpr hmem
  rw [List.countP_cons_of_pos (by simp)] at hcount
  omega

theorem Walk.visit (h : Walk ends start visited (node :: stack)) (hnode : node ∈ ends) :
    ∀ x ∈ visited ++ [node], x ∈ ends ∧ start <:+ x := by
  intro x hx
  rcases List.mem_append.mp hx with hx | hx
  · exact h.visited x hx
  · cases List.mem_singleton.mp hx
    exact ⟨hnode, h.stack node List.mem_cons_self⟩

/-- A node is replaced by its children once it has been visited. The trie may have lost words that
have been visited. -/
theorem Walk.next {gone : Set (List α)} {visited' : List (List α)}
    (h : Walk ends start visited (node :: stack)) (ht : t.Holds (ends \ gone))
    (hgone : ∀ x ∈ gone, x ∈ visited')
    (hvisited : node ∈ ends ∧ visited' = visited ++ [node] ∨ node ∉ ends ∧ visited' = visited) :
    Walk ends start visited' ((t.children node).map (· :: node) ++ stack) where
  once w hw hbelow := by
    have hcount := h.once w hw hbelow
    rw [List.countP_append]
    by_cases hlower : node <:+ w
    · rw [List.countP_cons_of_pos (by simpa using hlower)] at hcount
      have hnot : w ∉ visited := fun hmem => by
        have := List.count_pos_iff.mpr hmem
        omega
      by_cases heq : w = node
      · subst heq
        rw [countP_children_of_not_below fun _ => rfl]
        rcases hvisited with ⟨-, rfl⟩ | ⟨hends, -⟩
        · rw [List.count_append, List.count_singleton_self]
          omega
        · exact absurd hw hends
      · -- the word has not gone, so that the way down to it is there
        have hnot' : w ∉ visited' := by
          rcases hvisited with ⟨-, rfl⟩ | ⟨-, rfl⟩
          · simp [hnot, heq]
          · exact hnot
        obtain ⟨c, hc, hchildren⟩ := exists_child hlower heq
        have hmem : c ∈ t.children node :=
          (ht.children node c).mpr ⟨w, ⟨hw, fun hmem => hnot' (hgone w hmem)⟩, hc⟩
        rw [hchildren, List.count_eq_one_of_mem (ht.nodup node) hmem,
          List.count_eq_zero_of_not_mem hnot']
        omega
    · rw [List.countP_cons_of_neg (by simpa using hlower)] at hcount
      rw [countP_children_of_not_below fun hbelow => absurd hbelow hlower]
      rcases hvisited with ⟨-, rfl⟩ | ⟨-, rfl⟩
      · have hne : node ≠ w := by
          rintro rfl
          exact hlower List.suffix_rfl
        rw [List.count_append, List.count_singleton, if_neg (by simpa using hne)]
        omega
      · omega
  visited := by
    rcases hvisited with ⟨hnode, rfl⟩ | ⟨-, rfl⟩
    · exact h.visit hnode
    · exact h.visited
  stack n hn := by
    rcases List.mem_append.mp hn with hn | hn
    · obtain ⟨c, -, rfl⟩ := List.mem_map.mp hn
      exact (h.stack node List.mem_cons_self).trans (List.suffix_cons c node)
    · exact h.stack n (List.mem_cons_of_mem _ hn)

/-- The nodes, each perhaps more than once, that a walk can meet. -/
def nodes (start : List α) (words : List (List α)) : List (List α) :=
  start :: words.flatMap List.tails

def below (all : List (List α)) (node : List α) : ℕ :=
  (all.map fun m => if node <:+ m then 1 else 0).sum

theorem sum_below (all stack : List (List α)) :
    (stack.map (below all)).sum = (all.map fun m => stack.countP (· <:+ m)).sum := by
  induction stack with
  | nil => simp
  | cons node stack ih =>
    rw [List.map_cons, List.sum_cons, ih, below, ← List.sum_map_add]
    congr 1
    apply List.map_congr_left
    intro m _
    rw [List.countP_cons, Nat.add_comm]
    simp

theorem sum_below_lt {all : List (List α)} (hnodup : symbols.Nodup) (hnode : node ∈ all) :
    ((symbols.map (· :: node)).map (below all)).sum < below all node := by
  have hone : below all node = (all.map fun m => [node].countP (· <:+ m)).sum := by
    rw [← sum_below, List.map_singleton, List.sum_singleton]
  rw [sum_below, hone]
  have hle : ∀ m ∈ all, (symbols.map (· :: node)).countP (· <:+ m) ≤ [node].countP (· <:+ m) := by
    intro m _
    by_cases hlower : node <:+ m
    · rw [List.countP_singleton, if_pos (by simpa using hlower)]
      by_cases heq : m = node
      · rw [countP_children_of_not_below fun _ => heq]
        exact Nat.zero_le 1
      · obtain ⟨c, -, hchildren⟩ := exists_child hlower heq
        rw [hchildren]
        exact List.nodup_iff_count_le_one.mp hnodup c
    · rw [countP_children_of_not_below fun hbelow => absurd hbelow hlower]
      exact Nat.zero_le _
  apply List.sum_lt_sum _ _ hle
  refine ⟨node, hnode, ?_⟩
  rw [countP_children_of_not_below fun _ => rfl]
  simp

theorem below_le_length (all : List (List α)) (node : List α) : below all node ≤ all.length := by
  unfold below
  induction all with
  | nil => exact Nat.le_refl 0
  | cons m all ih =>
    rw [List.map_cons, List.sum_cons, List.length_cons]
    split <;> omega

omit [DecidableEq α] in
theorem Walk.stack_nodes {gone : Set (List α)} {words : List (List α)}
    (hwords : ∀ w ∈ ends, w ∈ words) (ht : t.Holds (ends \ gone))
    (hstack : ∀ n ∈ stack, n ∈ nodes start words) :
    ∀ n ∈ (t.children node).map (· :: node) ++ stack, n ∈ nodes start words := by
  intro n hn
  rcases List.mem_append.mp hn with hn | hn
  · obtain ⟨c, hc, rfl⟩ := List.mem_map.mp hn
    obtain ⟨w, hw, hbelow⟩ := (ht.children node c).mp hc
    apply List.mem_cons_of_mem
    exact List.mem_flatMap.mpr ⟨w, hwords w hw.1, (List.mem_tails _ _).mpr hbelow⟩
  · exact hstack n hn

/-- All words below the start have been visited, each once, or the visits have ended early. -/
def Visited {σ ε : Type*} (ends : Set (List α)) (start : List α)
    (P : List (List α) → σ → Prop) (Q : ε → Prop) : Except ε σ → Prop
  | .ok s => ∃ visited, P visited s ∧ visited.Nodup ∧ ∀ x, x ∈ visited ↔ x ∈ ends ∧ start <:+ x
  | .error e => Q e

/-- Visits that take out no other words than those visited are of each word once, and end. The fuel
that they need is bounded by the words. -/
theorem visitFromNode_rule {σ ε : Type*} {trie : σ → Trie α} {visitor : List α → σ → Except ε σ}
    {words : List (List α)} (hwords : ∀ w ∈ ends, w ∈ words)
    {P : List (List α) → σ → Prop} {Q : ε → Prop}
    (htrie : ∀ visited s, P visited s →
      ∃ gone, (trie s).Holds (ends \ gone) ∧ ∀ x ∈ gone, x ∈ visited)
    (hvisit : ∀ visited x s, P visited s → (visited ++ [x]).Nodup →
      (∀ y ∈ visited ++ [x], y ∈ ends ∧ start <:+ y) →
      match visitor x s with
      | .ok s' => P (visited ++ [x]) s'
      | .error e => Q e)
    {s : σ} (hs : P [] s) {fuel : ℕ} (hfuel : (nodes start words).length ≤ fuel) :
    ∃ r, visitFromNode trie visitor fuel [start] s = some r ∧ Visited ends start P Q r := by
  suffices hwalk : ∀ fuel visited stack s, Walk ends start visited stack → P visited s →
      (∀ n ∈ stack, n ∈ nodes start words) →
      (stack.map (below (nodes start words))).sum ≤ fuel →
      ∃ r, visitFromNode trie visitor fuel stack s = some r ∧ Visited ends start P Q r by
    apply hwalk fuel [] [start] s (Walk.initial ends start) hs
    · intro n hn
      exact List.mem_singleton.mp hn ▸ List.mem_cons_self
    · simpa using (below_le_length _ _).trans hfuel
  intro fuel
  induction fuel with
  | zero =>
    intro visited stack s hwalk hs hnodes hsum
    cases stack with
    | nil => exact ⟨_, rfl, visited, hs, hwalk.nodup, fun x => hwalk.mem_visited⟩
    | cons node stack =>
      have : (([] : List α).map (below (nodes start words) <| · :: node)).sum <
          below (nodes start words) node :=
        sum_below_lt List.nodup_nil (hnodes node List.mem_cons_self)
      simp only [List.map_cons, List.sum_cons] at hsum
      omega
  | succ fuel ih =>
    intro visited stack s hwalk hs hnodes hsum
    cases stack with
    | nil => exact ⟨_, rfl, visited, hs, hwalk.nodup, fun x => hwalk.mem_visited⟩
    | cons node stack =>
      rw [List.map_cons, List.sum_cons] at hsum
      have hnode := hnodes node List.mem_cons_self
      obtain ⟨gone, ht, hgone⟩ := htrie visited s hs
      have hterminal : (trie s).terminal node = true ↔ node ∈ ends := by
        rw [ht.terminal]
        constructor
        · exact And.left
        · exact fun hends => ⟨hends, fun hmem => hwalk.not_visited hends (hgone node hmem)⟩
      have hnext : ∀ visited' s', P visited' s' →
          (node ∈ ends ∧ visited' = visited ++ [node] ∨ node ∉ ends ∧ visited' = visited) →
          ∃ r, visitFromNode trie visitor fuel
            (((trie s').children node).map (· :: node) ++ stack) s' = some r ∧
              Visited ends start P Q r := by
        intro visited' s' hs' hvisited
        obtain ⟨gone', ht', hgone'⟩ := htrie visited' s' hs'
        apply ih visited' _ s' (hwalk.next ht' hgone' hvisited) hs'
        · exact Walk.stack_nodes hwords ht' fun n hn => hnodes n (List.mem_cons_of_mem _ hn)
        · have := sum_below_lt (ht'.nodup node) hnode
          rw [List.map_append, List.sum_append]
          omega
      rw [visitFromNode]
      by_cases hends : node ∈ ends
      · rw [if_pos (hterminal.mpr hends)]
        have hnodup : (visited ++ [node]).Nodup :=
          hwalk.nodup.append (List.nodup_singleton node)
            (by simpa using hwalk.not_visited hends)
        have hafter := hvisit visited node s hs hnodup (hwalk.visit hends)
        cases hvisitor : visitor node s with
        | error e =>
          rw [hvisitor] at hafter
          exact ⟨_, rfl, hafter⟩
        | ok s' =>
          rw [hvisitor] at hafter
          exact hnext _ s' hafter (.inl ⟨hends, rfl⟩)
      · rw [if_neg fun h => hends (hterminal.mp h)]
        exact hnext visited s hs (.inr ⟨hends, rfl⟩)

end Trie
