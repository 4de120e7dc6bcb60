import LayerCache.Collections.StableSort
import LayerCache.Invalidation.KnownKeys

/-! # Keys of HTTP responses

Where no resolver is given, a response is cached under the method and the normalised URL of its
request. Requests that carry credentials have no key, and two that have the same key ask for the
same path with the same values of each parameter.
-/

namespace LayerCache.HttpCache

open Namespaced (units)
open StableSort (sortBy ofKey)

/-- What is used of `URL` and of the case mappings of strings. -/
structure Platform where
  /-- The path and the query of `new URL(url, 'http://localhost')`, where the URL is accepted. -/
  parse : String → Option (String × List (String × String))
  /-- The text of a query in a URL. -/
  search : List (String × String) → String
  toLowerCase : String → String
  toUpperCase : String → String

/-- A path ends where a query begins, and a query can be read back from its text. -/
structure Platform.Lawful (platform : Platform) : Prop where
  path : ∀ url path query, platform.parse url = some (path, query) → '?' ∉ path.toList
  search : ∀ query, platform.search query = "" ∨ ∃ rest, platform.search query = "?" ++ rest
  injective : Function.Injective platform.search

def SENSITIVE_QUERY_PARAMETERS : List String :=
  ["access_token", "api_key", "apikey", "auth", "authorization", "client_assertion",
    "client_assertion_type", "client_secret", "code", "credentials", "id_token", "jwt", "password",
    "private_key", "refresh_token", "secret", "session", "sessionid", "session_id", "token"]

def SENSITIVE_HEADERS : List String :=
  ["authorization", "cookie", "set-cookie", "x-api-key", "x-session-id", "x-auth-token",
    "x-forwarded-user"]

structure InspectedUrl where
  normalizedUrl : String
  hasSensitiveQuery : Bool

section Urls
variable (platform : Platform)

def isSensitive (name : String) : Bool :=
  decide (platform.toLowerCase name ∈ SENSITIVE_QUERY_PARAMETERS)

def visitName (found : List (String × String) × Bool) (name : String) :
    List (String × String) × Bool :=
  if isSensitive platform name then (found.1.filter (·.1 ≠ name), true) else found

/-- Goes through the names of the query as it was given. -/
def withoutSensitive (query : List (String × String)) : List (String × String) × Bool :=
  (query.map Prod.fst).foldl (visitName platform) (query, false)

/-- `searchParams.sort()` compares the code units of the names. -/
def inspectHttpCacheUrl (url : String) : InspectedUrl :=
  match platform.parse url with
  | none => ⟨url, true⟩
  | some parsed =>
    let found := withoutSensitive platform parsed.2
    ⟨parsed.1 ++ platform.search (sortBy (fun item => units item.1) found.1), found.2⟩

def normalizeHttpCacheUrl (url : String) : String :=
  (inspectHttpCacheUrl platform url).normalizedUrl

def hasSensitiveHttpCacheQuery (url : String) : Bool :=
  (inspectHttpCacheUrl platform url).hasSensitiveQuery

/-- The URLs have the same path, and each parameter has the same values in the same order. -/
def SameResource (url url' : String) : Prop :=
  ∃ path query query', platform.parse url = some (path, query) ∧
    platform.parse url' = some (path, query') ∧
    ∀ name, query.filter (·.1 = name) = query'.filter (·.1 = name)

variable {platform}

theorem withoutSensitive_eq (query : List (String × String)) :
    withoutSensitive platform query =
      (query.filter fun item => !isSensitive platform item.1,
        query.any fun item => isSensitive platform item.1) := by
  have hfold : ∀ (names : List String) (found : List (String × String) × Bool),
      names.foldl (visitName platform) found =
        (found.1.filter fun item => !(decide (item.1 ∈ names) && isSensitive platform item.1),
          found.2 || names.any (isSensitive platform)) := by
    intro names
    induction names with
    | nil => simp
    | cons name names ih =>
      intro found
      rw [List.foldl_cons, ih, visitName]
      by_cases hname : isSensitive platform name = true
      · rw [if_pos hname, List.filter_filter]
        congr 1
        · refine List.filter_congr fun item _ => ?_
          by_cases h : item.1 = name
          · simp [h, hname]
          · simp [h]
        · simp [hname]
      · rw [if_neg hname]
        congr 1
        · refine List.filter_congr fun item _ => ?_
          by_cases h : item.1 = name
          · simp [h, hname]
          · simp [h]
        · simp [hname]
  rw [withoutSensitive, hfold, Bool.false_or, List.any_map]
  congr 1
  refine List.filter_congr fun item hitem => ?_
  simp [List.mem_map_of_mem hitem]

theorem hasSensitiveHttpCacheQuery_eq_false_iff {url : String} :
    hasSensitiveHttpCacheQuery platform url = false ↔
      ∃ path query, platform.parse url = some (path, query) ∧
        ∀ item ∈ query, isSensitive platform item.1 = false := by
  unfold hasSensitiveHttpCacheQuery inspectHttpCacheUrl
  cases hparse : platform.parse url with
  | none => simp
  | some parsed =>
    obtain ⟨path, query⟩ := parsed
    dsimp only
    rw [withoutSensitive_eq]
    simp

theorem normalizeHttpCacheUrl_eq {url path : String} {query : List (String × String)}
    (hparse : platform.parse url = some (path, query))
    (h : ∀ item ∈ query, isSensitive platform item.1 = false) :
    normalizeHttpCacheUrl platform url =
      path ++ platform.search (sortBy (fun item => units item.1) query) := by
  rw [normalizeHttpCacheUrl, inspectHttpCacheUrl, hparse]
  dsimp only
  rw [withoutSensitive_eq, List.filter_eq_self.mpr fun item hitem => by rw [h item hitem]; rfl]

theorem units_injective : Function.Injective units := by
  intro s t h
  have hst : units s <+: units t := h ▸ List.prefix_rfl
  have hts : units t <+: units s := h ▸ List.prefix_rfl
  replace hst := KnownKeys.codeUnits_prefix_iff.mp hst
  replace hts := KnownKeys.codeUnits_prefix_iff.mp hts
  exact String.toList_inj.mp (hst.eq_of_length (hst.length_le.antisymm hts.length_le))

theorem ofKey_units_iff {query query' : List (String × String)} :
    (∀ name, ofKey (fun item : String × String => units item.1) name query =
        ofKey (fun item : String × String => units item.1) name query') ↔
      ∀ name, query.filter (·.1 = name) = query'.filter (·.1 = name) := by
  have hname : ∀ (name : String) (query : List (String × String)),
      ofKey (fun item : String × String => units item.1) (units name) query =
        query.filter (·.1 = name) := by
    intro name query
    exact List.filter_congr fun item _ => decide_eq_decide.mpr units_injective.eq_iff
  constructor
  · intro h name
    rw [← hname, ← hname, h]
  · intro h k
    by_cases hk : ∃ name, units name = k
    · obtain ⟨name, rfl⟩ := hk
      rw [hname, hname, h]
    · have hnone : ∀ query : List (String × String),
          ofKey (fun item : String × String => units item.1) k query = [] := by
        intro query
        rw [List.eq_nil_iff_forall_not_mem]
        rintro item hitem
        exact hk ⟨item.1, ((StableSort.mem_ofKey _).mp hitem).2⟩
      rw [hnone, hnone]

theorem append_inj_of_delimiter {c : Char} {a a' b b' : String} (ha : c ∉ a.toList)
    (ha' : c ∉ a'.toList) (hb : b.toList = [] ∨ ∃ rest, b.toList = c :: rest)
    (hb' : b'.toList = [] ∨ ∃ rest, b'.toList = c :: rest) (h : a ++ b = a' ++ b') :
    a = a' ∧ b = b' := by
  have hbefore : ∀ {a b : String}, c ∉ a.toList → (b.toList = [] ∨ ∃ rest, b.toList = c :: rest) →
      (a ++ b).toList.takeWhile (· ≠ c) = a.toList := by
    intro a b ha hb
    have hall : ∀ d ∈ a.toList, decide (d ≠ c) = true := fun d hd =>
      decide_eq_true fun heq => ha (heq ▸ hd)
    rw [String.toList_append, List.takeWhile_append_of_pos hall]
    rcases hb with hb | ⟨rest, hb⟩
    · rw [hb, List.takeWhile_nil, List.append_nil]
    · rw [hb, List.takeWhile_cons_of_neg (by simp), List.append_nil]
  have hlists : a.toList = a'.toList := by rw [← hbefore ha hb, h, hbefore ha' hb']
  obtain rfl := String.toList_inj.mp hlists
  have hrest := congrArg String.toList h
  rw [String.toList_append, String.toList_append, List.append_cancel_left_eq] at hrest
  exact ⟨rfl, String.toList_inj.mp hrest⟩

theorem Platform.Lawful.search_cases (hlawful : platform.Lawful) (query : List (String × String)) :
    (platform.search query).toList = [] ∨ ∃ rest, (platform.search query).toList = '?' :: rest := by
  rcases hlawful.search query with hempty | ⟨rest, hrest⟩
  · exact .inl (congrArg String.toList hempty)
  · refine .inr ⟨rest.toList, ?_⟩
    rw [hrest, String.toList_append]
    rfl

/-- Normal forms are the same exactly for the same resource. -/
theorem normalizeHttpCacheUrl_eq_iff (hlawful : platform.Lawful) {url url' : String}
    (h : hasSensitiveHttpCacheQuery platform url = false)
    (h' : hasSensitiveHttpCacheQuery platform url' = false) :
    normalizeHttpCacheUrl platform url = normalizeHttpCacheUrl platform url' ↔
      SameResource platform url url' := by
  obtain ⟨path, query, hparse, hquery⟩ := hasSensitiveHttpCacheQuery_eq_false_iff.mp h
  obtain ⟨path', query', hparse', hquery'⟩ := hasSensitiveHttpCacheQuery_eq_false_iff.mp h'
  rw [normalizeHttpCacheUrl_eq hparse hquery, normalizeHttpCacheUrl_eq hparse' hquery']
  constructor
  · intro heq
    obtain ⟨rfl, hsearch⟩ := append_inj_of_delimiter (hlawful.path _ _ _ hparse)
      (hlawful.path _ _ _ hparse') (hlawful.search_cases _) (hlawful.search_cases _) heq
    exact ⟨path, query, query', hparse, hparse',
      ofKey_units_iff.mp ((StableSort.sortBy_eq_iff _).mp (hlawful.injective hsearch))⟩
  · rintro ⟨p, q, q', hp, hp', hsame⟩
    obtain ⟨rfl, rfl⟩ := Prod.mk.inj (Option.some.inj (hparse.symm.trans hp))
    obtain ⟨rfl, rfl⟩ := Prod.mk.inj (Option.some.inj (hparse'.symm.trans hp'))
    rw [(StableSort.sortBy_eq_iff _).mpr (ofKey_units_iff.mpr hsame)]

end Urls

inductive HeaderRecord
  /-- It has a `get` or a `header` method. -/
  | accessor (read : String → Option String)
  /-- Its entries in their order, of which some are no strings. -/
  | entries (entries : List (String × Option String))

structure Request where
  method : Option String
  url : Option String
  originalUrl : Option String
  path : Option String
  /-- The request itself. -/
  record : HeaderRecord
  headers : Option HeaderRecord

inductive Framework
  | express
  | hono

def rawUrl (request : Request) : Framework → String
  | .express => (request.originalUrl.or request.url).getD "/"
  | .hono => (request.url.or request.path).getD "/"

structure CacheMiddleware where
  framework : Framework
  methods : Option (List String)
  /-- `none` stands for a resolver that throws. -/
  keyResolver : Option (Request → Option String)
  allowPrivateCaching : Bool

section Requests
variable (platform : Platform)

def readHeader (record : HeaderRecord) (name : String) : Option String :=
  match record with
  | .accessor read => read name
  | .entries entries => entries.findSome? fun (key, value) =>
    value.filter fun text => decide (platform.toLowerCase key = name ∧ text ≠ "")

def hasHeader (record : HeaderRecord) (name : String) : Bool :=
  (readHeader platform record name).any fun text => decide (text ≠ "")

def hasSensitiveHttpCacheHeaders (request : Request) : Bool :=
  SENSITIVE_HEADERS.any (hasHeader platform request.record) ||
    request.headers.any fun headers => SENSITIVE_HEADERS.any (hasHeader platform headers)

def methodOf (request : Request) : String := platform.toUpperCase (request.method.getD "GET")

def CacheMiddleware.cacheKey (middleware : CacheMiddleware) (request : Request) : Option String :=
  let method := methodOf platform request
  if method ∉ (middleware.methods.getD ["GET"]).map platform.toUpperCase then none
  else
    match middleware.keyResolver with
    | some keyResolver => keyResolver request
    | none =>
      let rawUrl := rawUrl request middleware.framework
      if middleware.allowPrivateCaching = false then none
      else if hasSensitiveHttpCacheQuery platform rawUrl then none
      else if hasSensitiveHttpCacheHeaders platform request then none
      else some (method ++ ":" ++ normalizeHttpCacheUrl platform rawUrl)

def CacheMiddleware.Plain (middleware : CacheMiddleware) : Prop :=
  ∀ method ∈ (middleware.methods.getD ["GET"]).map platform.toUpperCase, ':' ∉ method.toList

/-- The request carries no credentials that the functions look for. -/
def Anonymous (framework : Framework) (request : Request) : Prop :=
  hasSensitiveHttpCacheQuery platform (rawUrl request framework) = false ∧
    hasSensitiveHttpCacheHeaders platform request = false

variable {platform} {middleware middleware' : CacheMiddleware} {request request' : Request}
  {key : String}

theorem cacheKey_implicit (hresolver : middleware.keyResolver = none)
    (h : middleware.cacheKey platform request = some key) :
    methodOf platform request ∈ (middleware.methods.getD ["GET"]).map platform.toUpperCase ∧
      Anonymous platform middleware.framework request ∧
      key = methodOf platform request ++
        (":" ++ normalizeHttpCacheUrl platform (rawUrl request middleware.framework)) := by
  rw [CacheMiddleware.cacheKey, hresolver] at h
  dsimp only at h
  split at h
  · cases h
  · rename_i hmethod
    split at h
    · cases h
    · split at h
      · cases h
      · rename_i hquery
        split at h
        · cases h
        · rename_i hheaders
          cases h
          rw [String.append_assoc]
          exact ⟨not_not.mp hmethod,
            ⟨eq_false_of_ne_true hquery, eq_false_of_ne_true hheaders⟩, rfl⟩

theorem cacheKey_eq_iff (hlawful : platform.Lawful) (hplain : middleware.Plain platform)
    (hplain' : middleware'.Plain platform) (hresolver : middleware.keyResolver = none)
    (hresolver' : middleware'.keyResolver = none) {key' : String}
    (h : middleware.cacheKey platform request = some key)
    (h' : middleware'.cacheKey platform request' = some key') :
    key = key' ↔ methodOf platform request = methodOf platform request' ∧
      SameResource platform (rawUrl request middleware.framework)
        (rawUrl request' middleware'.framework) := by
  obtain ⟨hmethod, hanonymous, rfl⟩ := cacheKey_implicit hresolver h
  obtain ⟨hmethod', hanonymous', rfl⟩ := cacheKey_implicit hresolver' h'
  have hcolon : ∀ text : String,
      (":" ++ text).toList = [] ∨ ∃ rest, (":" ++ text).toList = ':' :: rest :=
    fun text => .inr ⟨text.toList, String.toList_append⟩
  rw [← normalizeHttpCacheUrl_eq_iff hlawful hanonymous.1 hanonymous'.1]
  constructor
  · intro heq
    obtain ⟨hmethods, hrest⟩ := append_inj_of_delimiter (hplain _ hmethod) (hplain' _ hmethod')
      (hcolon _) (hcolon _) heq
    have hlists := congrArg String.toList hrest
    rw [String.toList_append, String.toList_append, List.append_cancel_left_eq] at hlists
    exact ⟨hmethods, String.toList_inj.mp hlists⟩
  · rintro ⟨hmethods, hnormal⟩
    rw [hmethods, hnormal]

end Requests

end LayerCache.HttpCache
