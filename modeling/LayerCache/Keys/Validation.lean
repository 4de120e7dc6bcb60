import LayerCache.Layers.Redis

/-! # Checks on keys, patterns and namespace prefixes

Each is a text within a length, without control characters and, but for patterns,
without characters outside the basic plane, whose code units are surrogates.
-/

namespace LayerCache

def MAX_CACHE_KEY_LENGTH : ℕ := 1024
def MAX_PATTERN_LENGTH : ℕ := 1024

def isControl (c : Char) : Bool := decide (c.toNat ≤ 0x1F) || c.toNat == 0x7F

def hasSurrogates (text : String) : Bool := text.toList.any fun c => decide (0x10000 ≤ c.toNat)

/-- The checks they share, with the name and the length bound of each. -/
def validateText (name length : String) (maxLength : ℕ) (text : String) : Except String Unit :=
  if jsLength text = 0 then .error (name ++ " must not be empty.")
  else if jsLength text > maxLength then
    .error (name ++ length ++ " must be at most " ++ toString maxLength ++ " characters.")
  else if text.toList.any isControl then
    .error (name ++ " contains unsupported control characters.")
  else .ok ()

def validateCacheKey (key : String) : Except String Unit := do
  validateText "Cache key" " length" MAX_CACHE_KEY_LENGTH key
  if hasSurrogates key then .error "Cache key contains unsupported surrogate code points."

def validateTag (tag : String) : Except String Unit := do
  validateText "Cache tag" " length" MAX_CACHE_KEY_LENGTH tag
  if hasSurrogates tag then .error "Cache tag contains unsupported surrogate code points."

def validatePattern (pattern : String) : Except String Unit :=
  validateText "Pattern" " length" MAX_PATTERN_LENGTH pattern

def validateNamespaceKey (key : String) : Except String Unit := do
  validateText "Namespace prefix" "" 256 key
  if hasSurrogates key then
    .error "Namespace prefix contains unsupported surrogate code points."

end LayerCache
