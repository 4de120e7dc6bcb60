import LayerCache.Collections.OrderedMap
import LayerCache.Collections.Trie
import LayerCache.Keys.Reading
import LayerCache.Namespace.Isolation

/-! # The known keys of the in-process tag index

The keys that the index has seen are kept in a map, by the time of their last touch, and in a trie
of their characters. Lists of keys come from the trie.
-/

namespace LayerCache

open Namespaced (units units_append mem_units startsWith startsWith_iff patternMatches)

structure TagIndexOptions where
  maxKnownKeys : ℚ
  /-- A tenth of the bound, rounded up in floating point. -/
  toRemove : ℕ
  touchRefreshIntervalMs : Millis

def keyNode (key : String) : List Char := key.toList.reverse

/-- `[...current.prefix]` -/
def nodeKey (node : List Char) : String := String.ofList node.reverse

@[simp]
theorem keyNode_nodeKey (node : List Char) : keyNode (nodeKey node) = node := by
  simp [keyNode, nodeKey]

@[simp]
theorem nodeKey_keyNode (key : String) : nodeKey (keyNode key) = key := by
  simp [keyNode, nodeKey]

theorem nodeKey_injective : Function.Injective nodeKey :=
  Function.LeftInverse.injective keyNode_nodeKey

theorem nodeKey_eq_iff {node : List Char} {key : String} :
    nodeKey node = key ↔ node = keyNode key := by
  constructor
  · rintro rfl
    exact (keyNode_nodeKey node).symm
  · rintro rfl
    exact nodeKey_keyNode key

def endsOf (keys : List String) : Set (List Char) := {node | nodeKey node ∈ keys}

theorem endsOf_insert {keys keys' : List String} {key : String}
    (h : ∀ k, k ∈ keys' ↔ k = key ∨ k ∈ keys) :
    endsOf keys' = insert key.toList.reverse (endsOf keys) := by
  ext node
  rw [Set.mem_insert_iff]
  exact (h _).trans (or_congr nodeKey_eq_iff Iff.rfl)

theorem endsOf_delete {keys keys' : List String} {key : String}
    (h : ∀ k, k ∈ keys' ↔ k ≠ key ∧ k ∈ keys) :
    endsOf keys' = endsOf keys \ {key.toList.reverse} := by
  ext node
  rw [Set.mem_sdiff, Set.mem_singleton_iff, and_comm]
  exact (h _).trans (and_congr (not_congr nodeKey_eq_iff) Iff.rfl)

structure KnownKeys where
  knownKeys : OrderedMap String Millis
  root : Trie Char
  holds : root.Holds (endsOf knownKeys.keys)

namespace KnownKeys

def empty : KnownKeys where
  knownKeys := .empty
  root := .empty
  holds := by simpa [endsOf, OrderedMap.keys, OrderedMap.empty] using Trie.holds_empty

/-- A key that is known is only touched again after the interval. -/
def insertKnownKey (known : KnownKeys) (options : TagIndexOptions) (now : Millis) (key : String) :
    Bool × KnownKeys :=
  match h : known.knownKeys.get key with
  | some previousTouch =>
    if now - previousTouch < options.touchRefreshIntervalMs then (false, known)
    else (true, ⟨(known.knownKeys.delete key).set key now, known.root, by
      have hmem : key ∈ known.knownKeys.keys := OrderedMap.get_isSome_iff.mp (by simp [h])
      have hkeys : ∀ k, k ∈ ((known.knownKeys.delete key).set key now).keys ↔
          k ∈ known.knownKeys.keys := by
        intro k
        rw [OrderedMap.mem_keys_set, OrderedMap.mem_keys_delete]
        by_cases hk : k = key <;> simp [hk, hmem]
      simpa only [endsOf, hkeys] using known.holds⟩)
  | none => (true, ⟨known.knownKeys.set key now, known.root.insert key.toList, by
      rw [endsOf_insert fun k => OrderedMap.mem_keys_set]
      exact known.holds.insert key.toList⟩)

def removeKnownKey (known : KnownKeys) (key : String) : KnownKeys :=
  if key ∈ known.knownKeys.keys then
    ⟨known.knownKeys.delete key, known.root.erase key.toList, by
      rw [endsOf_delete fun k => OrderedMap.mem_keys_delete]
      exact known.holds.erase key.toList⟩
  else known

def removeOldest (known : KnownKeys) : ℕ → KnownKeys
  | 0 => known
  | n + 1 =>
    match known.knownKeys.keys with
    | [] => known
    | oldestKey :: _ => (known.removeKnownKey oldestKey).removeOldest n

def pruneKnownKeysIfNeeded (known : KnownKeys) (options : TagIndexOptions) : KnownKeys :=
  if known.knownKeys.size ≤ options.maxKnownKeys then known else known.removeOldest options.toRemove

/-- Fuel for a walk from a node: no walk meets more nodes than these. -/
def fuel (known : KnownKeys) (node : List Char) : ℕ :=
  (Trie.nodes node (known.knownKeys.keys.map keyNode)).length

def collectFromNode (known : KnownKeys) (node : List Char) : Option (List String) :=
  match Trie.visitFromNode (fun _ => known.root)
    (fun node matches' => (.ok (matches' ++ [nodeKey node]) : Except Empty (List String)))
    (known.fuel node) [node] [] with
  | some (.ok matches') => some matches'
  | _ => none

/-- What is found below the node of the characters, if that is there. -/
def collectBelow (known : KnownKeys) (cs : List Char) : Option (List String) :=
  match known.root.find [] cs with
  | none => some []
  | some node => known.collectFromNode node

def keysForPrefix (known : KnownKeys) (pre : String) : Option (List String) :=
  known.collectBelow pre.toList

def literalPrefix (pattern : String) : List Char :=
  pattern.toList.takeWhile fun c => c ≠ '*' && c ≠ '?'

def matchPattern (known : KnownKeys) (pattern : String) : Option (List String) :=
  (known.collectBelow (literalPrefix pattern)).map (·.filter (patternMatches pattern))

/-- Visits the keys that start with the prefix. The visitor may take keys out of the index. -/
def forEachKeyForPrefix {σ ε : Type*} (known : σ → KnownKeys)
    (visitor : String → σ → Except ε σ) (pre : String) (s : σ) : Option (Except ε σ) :=
  match (known s).root.find [] pre.toList with
  | none => some (.ok s)
  | some node => Trie.visitFromNode (fun s => (known s).root)
      (fun node => visitor (nodeKey node)) ((known s).fuel node) [node] s

variable {known : KnownKeys} {options : TagIndexOptions} {now : Millis} {key k : String}

theorem mem_keys_insertKnownKey :
    k ∈ (known.insertKnownKey options now key).2.knownKeys.keys ↔
      k = key ∨ k ∈ known.knownKeys.keys := by
  unfold insertKnownKey
  split
  · rename_i previousTouch h
    have hmem : key ∈ known.knownKeys.keys := OrderedMap.get_isSome_iff.mp (by simp [h])
    split
    · by_cases hk : k = key <;> simp [hk, hmem]
    · rw [OrderedMap.mem_keys_set, OrderedMap.mem_keys_delete]
      by_cases hk : k = key <;> simp [hk]
  · exact OrderedMap.mem_keys_set

theorem mem_keys_removeKnownKey :
    k ∈ (known.removeKnownKey key).knownKeys.keys ↔ k ≠ key ∧ k ∈ known.knownKeys.keys := by
  unfold removeKnownKey
  split
  · exact OrderedMap.mem_keys_delete
  · rename_i hnot
    constructor
    · intro hk
      refine ⟨?_, hk⟩
      rintro rfl
      exact hnot hk
    · exact And.right

/-- The walk ends, with the keys at or below the node, each once. -/
theorem collectFromNode_spec (known : KnownKeys) (node : List Char) :
    ∃ keys, known.collectFromNode node = some keys ∧ keys.Nodup ∧
      ∀ k, k ∈ keys ↔ k ∈ known.knownKeys.keys ∧ node <:+ keyNode k := by
  have hwords : ∀ w ∈ endsOf known.knownKeys.keys, w ∈ known.knownKeys.keys.map keyNode := by
    intro w hw
    exact List.mem_map.mpr ⟨nodeKey w, hw, keyNode_nodeKey w⟩
  have hwalk : ∃ r, Trie.visitFromNode (fun _ => known.root)
      (fun node matches' => (.ok (matches' ++ [nodeKey node]) : Except Empty (List String)))
      (known.fuel node) [node] [] = some r ∧ Trie.Visited (endsOf known.knownKeys.keys) node
        (fun visited matches' => matches' = visited.map nodeKey) (fun _ => True) r := by
    apply Trie.visitFromNode_rule hwords
    · exact fun _ _ _ => ⟨∅, by simpa using known.holds, by simp⟩
    · intro visited x s hs _ _
      simp [hs]
    · rfl
    · exact le_rfl
  obtain ⟨r, hr, hvisited⟩ := hwalk
  unfold collectFromNode
  rw [hr]
  match r, hvisited with
  | .ok keys, ⟨visited, hkeys, hnodup, hmem⟩ =>
    subst hkeys
    refine ⟨_, rfl, hnodup.map nodeKey_injective, fun k => ?_⟩
    rw [List.mem_map]
    constructor
    · rintro ⟨x, hx, rfl⟩
      obtain ⟨hends, hbelow⟩ := (hmem x).mp hx
      exact ⟨hends, by rwa [keyNode_nodeKey]⟩
    · rintro ⟨hk, hbelow⟩
      refine ⟨keyNode k, (hmem _).mpr ⟨?_, hbelow⟩, nodeKey_keyNode k⟩
      rwa [endsOf, Set.mem_ofPred_eq, nodeKey_keyNode]

theorem collectBelow_spec (known : KnownKeys) (cs : List Char) :
    ∃ keys, known.collectBelow cs = some keys ∧ keys.Nodup ∧
      ∀ k, k ∈ keys ↔ k ∈ known.knownKeys.keys ∧ cs <+: k.toList := by
  unfold collectBelow
  cases hfind : known.root.find [] cs with
  | none =>
    refine ⟨[], rfl, List.nodup_nil, fun k => ?_⟩
    constructor
    · exact fun h => nomatch h
    · rintro ⟨hk, hprefix⟩
      have hends : keyNode k ∈ endsOf known.knownKeys.keys := by
        rwa [endsOf, Set.mem_ofPred_eq, nodeKey_keyNode]
      have hnot := known.holds.of_find_none hfind hends
      rw [List.append_nil, keyNode, List.reverse_suffix] at hnot
      exact absurd hprefix hnot
  | some node =>
    obtain ⟨keys, hkeys, hnodup, hmem⟩ := known.collectFromNode_spec node
    have hnode : node = cs.reverse := by simpa using Trie.eq_of_find hfind
    refine ⟨keys, hkeys, hnodup, fun k => ?_⟩
    rw [hmem, hnode, keyNode, List.reverse_suffix]

theorem codeUnits_prefix_iff {cs ds : List Char} :
    cs.flatMap Keys.codeUnits <+: ds.flatMap Keys.codeUnits ↔ cs <+: ds := by
  constructor
  · intro h
    induction cs generalizing ds with
    | nil => exact List.nil_prefix
    | cons c cs ih =>
      cases ds with
      | nil =>
        have hunits := List.prefix_nil.mp h
        rw [List.flatMap_cons, List.append_eq_nil_iff] at hunits
        unfold Keys.codeUnits at hunits
        split at hunits <;> simp at hunits
      | cons d ds =>
        obtain ⟨rest, hrest⟩ := h
        rw [List.flatMap_cons, List.flatMap_cons, List.append_assoc] at hrest
        obtain ⟨rfl, hunits⟩ := Keys.codeUnits_append_injective hrest
        exact (List.prefix_cons_inj c).mpr (ih ⟨rest, hunits⟩)
  · rintro ⟨rest, rfl⟩
    rw [List.flatMap_append]
    exact List.prefix_append _ _

theorem startsWith_iff_toList {key pre : String} :
    startsWith key pre = true ↔ pre.toList <+: key.toList :=
  startsWith_iff.trans codeUnits_prefix_iff

/-- All keys with the prefix have been visited, each once, or the visits have ended early. -/
def Visited {σ ε : Type*} (known : KnownKeys) (pre : String) (P : List String → σ → Prop)
    (Q : ε → Prop) : Except ε σ → Prop
  | .ok s => ∃ visited, P visited s ∧ visited.Nodup ∧
      ∀ k, k ∈ visited ↔ k ∈ known.knownKeys.keys ∧ startsWith k pre = true
  | .error e => Q e

/-- The visits end, and are of each key once, if the visitor takes no other keys out of the index
than those visited. -/
theorem forEachKeyForPrefix_rule {σ ε : Type*} {known : σ → KnownKeys}
    {visitor : String → σ → Except ε σ} {pre : String} {s : σ}
    {P : List String → σ → Prop} {Q : ε → Prop}
    (hknown : ∀ visited s', P visited s' → ∀ k ∈ (known s).knownKeys.keys,
      k ∉ visited → k ∈ (known s').knownKeys.keys)
    (hnew : ∀ visited s', P visited s' → ∀ k ∈ (known s').knownKeys.keys,
      k ∈ (known s).knownKeys.keys)
    (hvisit : ∀ visited k s', P visited s' → (visited ++ [k]).Nodup →
      (∀ x ∈ visited ++ [k], x ∈ (known s).knownKeys.keys ∧ startsWith x pre = true) →
      match visitor k s' with
      | .ok s'' => P (visited ++ [k]) s''
      | .error e => Q e)
    (hs : P [] s) :
    ∃ r, forEachKeyForPrefix known visitor pre s = some r ∧ (known s).Visited pre P Q r := by
  have hends : ∀ k, k ∈ (known s).knownKeys.keys ↔ keyNode k ∈ endsOf (known s).knownKeys.keys := by
    intro k
    rw [endsOf, Set.mem_ofPred_eq, nodeKey_keyNode]
  unfold forEachKeyForPrefix
  cases hfind : (known s).root.find [] pre.toList with
  | none =>
    refine ⟨_, rfl, [], hs, List.nodup_nil, fun k => ?_⟩
    simp only [List.not_mem_nil, false_iff, not_and]
    intro hk hstarts
    have hnot := (known s).holds.of_find_none hfind ((hends k).mp hk)
    rw [List.append_nil, keyNode, List.reverse_suffix, ← startsWith_iff_toList] at hnot
    exact hnot hstarts
  | some node =>
    have hnode : node = pre.toList.reverse := by simpa using Trie.eq_of_find hfind
    have hbelow : ∀ x, node <:+ x ↔ startsWith (nodeKey x) pre = true := by
      intro x
      rw [hnode, startsWith_iff_toList, nodeKey, String.toList_ofList, ← List.reverse_suffix,
        List.reverse_reverse]
    have hwalk : ∃ r, Trie.visitFromNode (fun s => (known s).root)
        (fun node => visitor (nodeKey node)) ((known s).fuel node) [node] s = some r ∧
        Trie.Visited (endsOf (known s).knownKeys.keys) node
          (fun visited s' => P (visited.map nodeKey) s') Q r := by
      apply Trie.visitFromNode_rule
      · exact fun w hw => List.mem_map.mpr ⟨nodeKey w, hw, keyNode_nodeKey w⟩
      · intro visited s' hs'
        refine ⟨endsOf (known s).knownKeys.keys \ endsOf (known s').knownKeys.keys, ?_, ?_⟩
        · have hsubset : endsOf (known s').knownKeys.keys ⊆ endsOf (known s).knownKeys.keys :=
            fun x hx => hnew _ s' hs' _ hx
          rw [Set.sdiff_sdiff_cancel_left hsubset]
          exact (known s').holds
        · rintro x ⟨hx, hgone⟩
          by_contra hnot
          exact hgone (hknown _ s' hs' _ hx fun hmem =>
            hnot ((List.mem_map_of_injective nodeKey_injective).mp hmem))
      · intro visited x s' hs' hnodup hmem
        have hafter := hvisit (visited.map nodeKey) (nodeKey x) s' hs'
        rw [← List.map_singleton, ← List.map_append] at hafter
        apply hafter (hnodup.map nodeKey_injective)
        intro k hk
        obtain ⟨y, hy, rfl⟩ := List.mem_map.mp hk
        exact ⟨(hmem y hy).1, (hbelow y).mp (hmem y hy).2⟩
      · exact hs
      · exact le_rfl
    obtain ⟨r, hr, hvisited⟩ := hwalk
    refine ⟨r, hr, ?_⟩
    match r, hvisited with
    | .ok s', ⟨visited, hs', hnodup, hmem⟩ =>
      refine ⟨_, hs', hnodup.map nodeKey_injective, fun k => ?_⟩
      rw [List.mem_map, hends]
      constructor
      · rintro ⟨x, hx, rfl⟩
        rw [keyNode_nodeKey, ← hbelow]
        exact (hmem x).mp hx
      · rintro ⟨hk, hstarts⟩
        refine ⟨keyNode k, (hmem _).mpr ⟨hk, ?_⟩, nodeKey_keyNode k⟩
        rwa [hbelow, nodeKey_keyNode]
    | .error e, he => exact he

theorem keysForPrefix_spec (known : KnownKeys) (pre : String) :
    ∃ keys, known.keysForPrefix pre = some keys ∧ keys.Nodup ∧
      ∀ k, k ∈ keys ↔ k ∈ known.knownKeys.keys ∧ startsWith k pre = true := by
  simp only [startsWith_iff_toList]
  exact known.collectBelow_spec pre.toList

theorem literalPrefix_prefix {pattern : String} (h : patternMatches pattern k = true) :
    literalPrefix pattern <+: k.toList := by
  have hsplit : pattern = String.ofList (literalPrefix pattern) ++
      String.ofList (pattern.toList.dropWhile fun c => c ≠ '*' && c ≠ '?') := by
    apply String.toList_inj.mp
    rw [String.toList_append, String.toList_ofList, String.toList_ofList]
    exact (List.takeWhile_append_dropWhile ..).symm
  have hliteral : ∀ c ∈ literalPrefix pattern, c ≠ '*' ∧ c ≠ '?' := by
    intro c hc
    simpa using List.mem_takeWhile_imp hc
  have hnot : ∀ c : Char, c = '*' ∨ c = '?' →
      c.toNat ∉ units (String.ofList (literalPrefix pattern)) := by
    rintro c hc hmem
    have hsmall : c.toNat < 0xD800 := by rcases hc with rfl | rfl <;> decide
    rw [mem_units hsmall, String.toList_ofList] at hmem
    rcases hc with rfl | rfl
    · exact (hliteral _ hmem).1 rfl
    · exact (hliteral _ hmem).2 rfl
  rw [patternMatches, Glob.matchLinear_iff, hsplit, units_append] at h
  have hfront := h.front (hnot '*' (.inl rfl)) (hnot '?' (.inr rfl))
  rwa [units, String.toList_ofList, units, codeUnits_prefix_iff] at hfront

theorem matchPattern_spec (known : KnownKeys) (pattern : String) :
    ∃ keys, known.matchPattern pattern = some keys ∧ keys.Nodup ∧
      ∀ k, k ∈ keys ↔ k ∈ known.knownKeys.keys ∧ patternMatches pattern k = true := by
  obtain ⟨keys, hkeys, hnodup, hmem⟩ := known.collectBelow_spec (literalPrefix pattern)
  refine ⟨keys.filter (patternMatches pattern), by rw [matchPattern, hkeys]; rfl,
    hnodup.filter _, fun k => ?_⟩
  rw [List.mem_filter, hmem]
  constructor
  · rintro ⟨⟨hk, -⟩, hmatch⟩
    exact ⟨hk, hmatch⟩
  · rintro ⟨hk, hmatch⟩
    exact ⟨⟨hk, literalPrefix_prefix hmatch⟩, hmatch⟩

end KnownKeys

end LayerCache
