import LayerCache.Json.Value

/-! # The structured-data sanitizer

Sanitizing walks a value depth first, drops the properties that could reach a
prototype, and gives up at the first node beyond the node or the depth limit.
It succeeds exactly when what remains of the value is within both limits, and
then returns just that.
-/

namespace LayerCache

open Json

def dangerousKeys : List String := ["__proto__", "prototype", "constructor"]

structure SanitizeStructuredDataOptions where
  maxDepth : ℕ
  maxNodes : ℕ
  label : String

mutual

/-- One node: `count` is the number of nodes visited before it. -/
def sanitizeValue (options : SanitizeStructuredDataOptions) (value : Value) (depth count : ℕ) :
    Except String (Value × ℕ) :=
  if count + 1 > options.maxNodes then
    .error (options.label ++ " exceeds max node count of " ++ toString options.maxNodes ++ ".")
  else if depth > options.maxDepth then
    .error (options.label ++ " exceeds max depth of " ++ toString options.maxDepth ++ ".")
  else
    match value with
    | .array items => do
      let (items, count) ← sanitizeItems options items depth (count + 1)
      pure (.array items, count)
    | .object members => do
      let (members, count) ← sanitizeMembers options members depth (count + 1)
      pure (.object members, count)
    | value => pure (value, count + 1)

def sanitizeItems (options : SanitizeStructuredDataOptions) (items : List Value)
    (depth count : ℕ) : Except String (List Value × ℕ) :=
  match items with
  | [] => pure ([], count)
  | entry :: rest => do
    let (entry, count) ← sanitizeValue options entry (depth + 1) count
    let (rest, count) ← sanitizeItems options rest depth count
    pure (entry :: rest, count)

/-- The members in property order, so that the sanitized object lists them as they come. -/
def sanitizeMembers (options : SanitizeStructuredDataOptions) (members : List (String × Value))
    (depth count : ℕ) : Except String (List (String × Value) × ℕ) :=
  match members with
  | [] => pure ([], count)
  | (key, entry) :: rest =>
    if key ∈ dangerousKeys then sanitizeMembers options rest depth count
    else do
      let (entry, count) ← sanitizeValue options entry (depth + 1) count
      let (rest, count) ← sanitizeMembers options rest depth count
      pure ((key, entry) :: rest, count)

end

def sanitizeStructuredData (value : Value) (options : SanitizeStructuredDataOptions) :
    Except String Value :=
  Prod.fst <$> sanitizeValue options value 0 0

mutual

/-- The value without its dangerous properties, at every depth. -/
def strip : Value → Value
  | .array items => .array (stripItems items)
  | .object members => .object (stripMembers members)
  | value => value

def stripItems : List Value → List Value
  | [] => []
  | v :: rest => strip v :: stripItems rest

def stripMembers : List (String × Value) → List (String × Value)
  | [] => []
  | (k, v) :: rest =>
    if k ∈ dangerousKeys then stripMembers rest else (k, strip v) :: stripMembers rest

end

theorem stripItems_eq_self {items : List Value} (h : ∀ v ∈ items, strip v = v) :
    stripItems items = items := by
  induction items with
  | nil => rfl
  | cons v items ih =>
    rw [stripItems, h v List.mem_cons_self, ih fun w hw => h w (List.mem_cons_of_mem _ hw)]

theorem stripMembers_eq_self {members : List (String × Value)}
    (hkeys : ∀ m ∈ members, m.1 ∉ dangerousKeys) (h : ∀ m ∈ members, strip m.2 = m.2) :
    stripMembers members = members := by
  induction members with
  | nil => rfl
  | cons m members ih =>
    obtain ⟨k, v⟩ := m
    rw [List.forall_mem_cons] at hkeys h
    rw [stripMembers, if_neg hkeys.1, h.1, ih hkeys.2 h.2]

mutual

def nodes : Value → ℕ
  | .array items => 1 + nodesItems items
  | .object members => 1 + nodesMembers members
  | _ => 1

def nodesItems : List Value → ℕ
  | [] => 0
  | v :: rest => nodes v + nodesItems rest

def nodesMembers : List (String × Value) → ℕ
  | [] => 0
  | (_, v) :: rest => nodes v + nodesMembers rest

end

mutual

def height : Value → ℕ
  | .array items => heightItems items
  | .object members => heightMembers members
  | _ => 0

def heightItems : List Value → ℕ
  | [] => 0
  | v :: rest => max (height v + 1) (heightItems rest)

def heightMembers : List (String × Value) → ℕ
  | [] => 0
  | (_, v) :: rest => max (height v + 1) (heightMembers rest)

end

theorem Except.bind_ok {ε α β : Type} (a : α) (f : α → Except ε β) :
    ((Except.ok a : Except ε α) >>= f) = f a := rfl

theorem Except.bind_error {ε α β : Type} (e : ε) (f : α → Except ε β) :
    ((Except.error e : Except ε α) >>= f) = .error e := rfl

theorem pure_eq_ok {ε α : Type} (a : α) : (pure a : Except ε α) = .ok a := rfl

variable {options : SanitizeStructuredDataOptions}

/-- A tree of `nodes` nodes and the given height, started at a depth and a count, stays
within the limits. -/
def Fits (options : SanitizeStructuredDataOptions) (nodes height depth count : ℕ) : Prop :=
  count + nodes ≤ options.maxNodes ∧ depth + height ≤ options.maxDepth

theorem fits_cons_iff {n m h h' depth count : ℕ} :
    Fits options (n + m) (max (h + 1) h') depth count ↔
      Fits options n h (depth + 1) count ∧ Fits options m h' depth (count + n) := by
  unfold Fits
  constructor
  · rintro ⟨hnodes, hdepth⟩
    exact ⟨⟨by omega, by omega⟩, by omega, by omega⟩
  · rintro ⟨⟨-, hdepth⟩, hnodes, hdepth'⟩
    exact ⟨by omega, by omega⟩

/-- The sanitizer's outcome on a value, from any depth and count. -/
def Sanitizes (options : SanitizeStructuredDataOptions) (v : Value) : Prop :=
  ∀ depth count,
    (Fits options (nodes (strip v)) (height (strip v)) depth count →
      sanitizeValue options v depth count = .ok (strip v, count + nodes (strip v))) ∧
    (¬ Fits options (nodes (strip v)) (height (strip v)) depth count →
      ∃ e, sanitizeValue options v depth count = .error e)

theorem sanitizes_leaf {v : Value} (hs : strip v = v) (hn : nodes v = 1) (hh : height v = 0)
    (h : ∀ depth count, sanitizeValue options v depth count =
      if count + 1 > options.maxNodes then
        .error (options.label ++ " exceeds max node count of " ++ toString options.maxNodes ++ ".")
      else if depth > options.maxDepth then
        .error (options.label ++ " exceeds max depth of " ++ toString options.maxDepth ++ ".")
      else .ok (v, count + 1)) : Sanitizes options v := by
  intro depth count
  rw [hs, hn, hh, h depth count]
  simp only [Fits]
  constructor
  · rintro ⟨hc, hd⟩
    rw [if_neg (by omega), if_neg (by omega)]
  · intro hf
    split_ifs with h1 h2
    · exact ⟨_, rfl⟩
    · exact ⟨_, rfl⟩
    · exact absurd ⟨by omega, by omega⟩ hf

theorem sanitizeItems_spec {items : List Value} (ih : ∀ v ∈ items, Sanitizes options v)
    {depth : ℕ} (hd : depth ≤ options.maxDepth) : ∀ count, count ≤ options.maxNodes →
    (Fits options (nodesItems (stripItems items)) (heightItems (stripItems items)) depth count →
      sanitizeItems options items depth count =
        .ok (stripItems items, count + nodesItems (stripItems items))) ∧
    (¬ Fits options (nodesItems (stripItems items)) (heightItems (stripItems items)) depth count →
      ∃ e, sanitizeItems options items depth count = .error e) := by
  induction items with
  | nil =>
    intro count hc
    simp [sanitizeItems, stripItems, nodesItems, heightItems, Fits, hc, hd, pure_eq_ok]
  | cons v items ihl =>
    intro count hc
    have hv := ih v List.mem_cons_self (depth + 1) count
    have hrest := ihl fun w hw => ih w (List.mem_cons_of_mem _ hw)
    simp only [stripItems, nodesItems, heightItems, sanitizeItems]
    rw [fits_cons_iff]
    by_cases hfit : Fits options (nodes (strip v)) (height (strip v)) (depth + 1) count
    · have hr := hrest (count + nodes (strip v)) hfit.1
      simp only [hv.1 hfit, Except.bind_ok]
      constructor
      · rintro ⟨-, hrestfits⟩
        simp only [hr.1 hrestfits, Except.bind_ok, pure_eq_ok, Nat.add_assoc]
      · intro hf
        obtain ⟨e, he⟩ := hr.2 fun hrestfits => hf ⟨hfit, hrestfits⟩
        exact ⟨e, by simp only [he, Except.bind_error]⟩
    · obtain ⟨e, he⟩ := hv.2 hfit
      constructor
      · rintro ⟨hfits, -⟩
        exact absurd hfits hfit
      · exact fun _ => ⟨e, by simp only [he, Except.bind_error]⟩

theorem sanitizeMembers_spec {members : List (String × Value)}
    (ih : ∀ m ∈ members, Sanitizes options m.2) {depth : ℕ} (hd : depth ≤ options.maxDepth) :
    ∀ count, count ≤ options.maxNodes →
    (Fits options (nodesMembers (stripMembers members)) (heightMembers (stripMembers members))
        depth count →
      sanitizeMembers options members depth count =
        .ok (stripMembers members, count + nodesMembers (stripMembers members))) ∧
    (¬ Fits options (nodesMembers (stripMembers members)) (heightMembers (stripMembers members))
        depth count →
      ∃ e, sanitizeMembers options members depth count = .error e) := by
  induction members with
  | nil =>
    intro count hc
    simp [sanitizeMembers, stripMembers, nodesMembers, heightMembers, Fits, hc, hd, pure_eq_ok]
  | cons m members ihl =>
    obtain ⟨k, v⟩ := m
    intro count hc
    have hrest := ihl fun w hw => ih w (List.mem_cons_of_mem _ hw)
    by_cases hk : k ∈ dangerousKeys
    · simpa only [stripMembers, sanitizeMembers, hk, if_true] using hrest count hc
    have hv : Sanitizes options v := ih (k, v) List.mem_cons_self
    simp only [stripMembers, sanitizeMembers, hk, if_false, nodesMembers, heightMembers]
    rw [fits_cons_iff]
    by_cases hfit : Fits options (nodes (strip v)) (height (strip v)) (depth + 1) count
    · have hr := hrest (count + nodes (strip v)) hfit.1
      simp only [(hv _ _).1 hfit, Except.bind_ok]
      constructor
      · rintro ⟨-, hrestfits⟩
        simp only [hr.1 hrestfits, Except.bind_ok, pure_eq_ok, Nat.add_assoc]
      · intro hf
        obtain ⟨e, he⟩ := hr.2 fun hrestfits => hf ⟨hfit, hrestfits⟩
        exact ⟨e, by simp only [he, Except.bind_error]⟩
    · obtain ⟨e, he⟩ := (hv _ _).2 hfit
      constructor
      · rintro ⟨hfits, -⟩
        exact absurd hfits hfit
      · exact fun _ => ⟨e, by simp only [he, Except.bind_error]⟩

theorem sanitizes (v : Value) : Sanitizes options v := by
  induction v using Value.induction with
  | null => exact sanitizes_leaf rfl rfl rfl fun _ _ => by simp [sanitizeValue, pure_eq_ok]
  | bool b => exact sanitizes_leaf rfl rfl rfl fun _ _ => by simp [sanitizeValue, pure_eq_ok]
  | number n => exact sanitizes_leaf rfl rfl rfl fun _ _ => by simp [sanitizeValue, pure_eq_ok]
  | string s => exact sanitizes_leaf rfl rfl rfl fun _ _ => by simp [sanitizeValue, pure_eq_ok]
  | array items ih =>
    intro depth count
    rw [sanitizeValue]
    simp only [strip, nodes, height]
    split_ifs with hc hd
    · exact ⟨fun h => absurd h.1 (by omega), fun _ => ⟨_, rfl⟩⟩
    · exact ⟨fun h => absurd h.2 (by omega), fun _ => ⟨_, rfl⟩⟩
    obtain ⟨hok, herr⟩ := sanitizeItems_spec ih (show depth ≤ options.maxDepth by omega) (count + 1)
      (by omega)
    constructor
    · rintro ⟨h1, h2⟩
      simp only [hok ⟨by omega, h2⟩, Except.bind_ok, pure_eq_ok, Except.ok.injEq,
        Prod.mk.injEq, true_and]
      omega
    · intro hf
      obtain ⟨e, he⟩ := herr fun h => hf ⟨by have := h.1; omega, h.2⟩
      exact ⟨e, by simp only [he, Except.bind_error]⟩
  | object members ih =>
    intro depth count
    rw [sanitizeValue]
    simp only [strip, nodes, height]
    split_ifs with hc hd
    · exact ⟨fun h => absurd h.1 (by omega), fun _ => ⟨_, rfl⟩⟩
    · exact ⟨fun h => absurd h.2 (by omega), fun _ => ⟨_, rfl⟩⟩
    obtain ⟨hok, herr⟩ := sanitizeMembers_spec ih (show depth ≤ options.maxDepth by omega)
      (count + 1)
      (by omega)
    constructor
    · rintro ⟨h1, h2⟩
      simp only [hok ⟨by omega, h2⟩, Except.bind_ok, pure_eq_ok, Except.ok.injEq,
        Prod.mk.injEq, true_and]
      omega
    · intro hf
      obtain ⟨e, he⟩ := herr fun h => hf ⟨by have := h.1; omega, h.2⟩
      exact ⟨e, by simp only [he, Except.bind_error]⟩

theorem sanitizeStructuredData_ok {v : Value} (hn : nodes (strip v) ≤ options.maxNodes)
    (hh : height (strip v) ≤ options.maxDepth) :
    sanitizeStructuredData v options = .ok (strip v) := by
  have h := ((sanitizes v : Sanitizes options v) 0 0).1 ⟨by omega, by omega⟩
  simp [sanitizeStructuredData, h]

theorem sanitizeStructuredData_error {v : Value}
    (h : ¬ (nodes (strip v) ≤ options.maxNodes ∧ height (strip v) ≤ options.maxDepth)) :
    ∃ e, sanitizeStructuredData v options = .error e := by
  obtain ⟨e, he⟩ := ((sanitizes v : Sanitizes options v) 0 0).2 fun hf =>
    h ⟨by have := hf.1; omega, by have := hf.2; omega⟩
  exact ⟨e, by simp [sanitizeStructuredData, he]⟩

end LayerCache
