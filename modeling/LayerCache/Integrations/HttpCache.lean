import LayerCache.Integrations.HttpCacheKeys
import LayerCache.Transition.Run

/-! # The HTTP caching middleware

Any number of requests is handled at once over one cache. A lookup is answered, a handler responds,
once or more, and what it has sent is stored later or never; other code may store, replace or delete
any entry at any time. What is served from the cache was sent to a request with the same key, with
success, or other code has stored it under this key.
-/

namespace LayerCache.HttpCache

open Transition (Reaches)

variable {ι B : Type}

def isSuccessfulStatus : Option ℕ → Bool
  | none => true
  | some statusCode => decide (200 ≤ statusCode ∧ statusCode < 300)

inductive Phase
  | idle
  | looking (middleware : CacheMiddleware) (request : Request) (key : String)
      (statusCode : Option ℕ)
  | handling (middleware : CacheMiddleware) (request : Request) (key : Option String)
      (statusCode : Option ℕ)
  | done

inductive Record (B : Type)
  | answered (middleware : CacheMiddleware) (request : Request) (status : Option ℕ) (body : B)
  | hit (middleware : CacheMiddleware) (request : Request) (key : String) (body : B)
  | outside (key : String) (body : B)

inductive Action (ι B : Type)
  | arrive (i : ι) (middleware : CacheMiddleware) (request : Request) (statusCode : Option ℕ)
  | found (i : ι)
  | getFails (i : ι)
  | status (i : ι) (statusCode : ℕ)
  | json (i : ι) (body : B) (status : Option ℕ)
  | stored (n : ℕ)
  | setFails (n : ℕ)
  | outside (key : String) (value : Option B)

structure State (ι B : Type) where
  entries : String → Option B
  phases : ι → Phase
  /-- The calls of `cache.set` that are not through. -/
  sets : List (String × B)
  log : List (Record B)

/-- The status that the middleware knows when the lookup has found nothing. With Hono it only learns
of those that are set from then on. -/
def statusAfterLookup : Framework → Option ℕ → Option ℕ
  | .express, statusCode => statusCode
  | .hono, _ => none

def statusOf : Framework → Option ℕ → Option ℕ → Option ℕ
  | .express, statusCode, _ => statusCode
  | .hono, currentStatus, status => status.or currentStatus

namespace State
variable [DecidableEq ι] (s : State ι B)

def become (i : ι) (phase : Phase) : State ι B :=
  { s with phases := Function.update s.phases i phase }

def record (r : Record B) : State ι B := { s with log := s.log ++ [r] }

def put (key : String) (value : Option B) : State ι B :=
  { s with entries := Function.update s.entries key value }

end State

section Steps
variable (platform : Platform)

def step [DecidableEq ι] (s : State ι B) : Action ι B → Option (State ι B)
  | .arrive i middleware request statusCode =>
    match s.phases i with
    | .idle =>
      match middleware.cacheKey platform request with
      | none => some (s.become i (.handling middleware request none statusCode))
      | some key => some (s.become i (.looking middleware request key statusCode))
    | _ => none
  | .found i =>
    match s.phases i with
    | .looking middleware request key statusCode =>
      match s.entries key with
      | some body => some ((s.record (.hit middleware request key body)).become i .done)
      | none => some (s.become i (.handling middleware request (some key)
          (statusAfterLookup middleware.framework statusCode)))
    | _ => none
  | .getFails i =>
    match s.phases i with
    | .looking _ _ _ _ => some (s.become i .done)
    | _ => none
  | .status i statusCode =>
    match s.phases i with
    | .looking middleware request key _ =>
      some (s.become i (.looking middleware request key (some statusCode)))
    | .handling middleware request key _ =>
      some (s.become i (.handling middleware request key (some statusCode)))
    | _ => none
  | .json i body status =>
    match s.phases i with
    | .handling middleware request key statusCode =>
      let status := statusOf middleware.framework statusCode status
      let s := s.record (.answered middleware request status body)
      match key with
      | none => some s
      | some key =>
        if isSuccessfulStatus status then some { s with sets := s.sets ++ [(key, body)] }
        else some s
    | _ => none
  | .stored n =>
    match s.sets[n]? with
    | some (key, body) => some ({ s with sets := s.sets.eraseIdx n }.put key (some body))
    | none => none
  | .setFails n => some { s with sets := s.sets.eraseIdx n }
  | .outside key none => some (s.put key none)
  | .outside key (some body) => some ((s.record (.outside key body)).put key (some body))

def start : State ι B where
  entries _ := none
  phases _ := .idle
  sets := []
  log := []

/-- The body was sent to a request with the key, with success, or other code has stored it. -/
def Stored (log : List (Record B)) (key : String) (body : B) : Prop :=
  (∃ middleware request status, .answered middleware request status body ∈ log ∧
    middleware.cacheKey platform request = some key ∧ isSuccessfulStatus status = true) ∨
    .outside key body ∈ log

def HitsStored (log : List (Record B)) : Prop :=
  ∀ before middleware request key body after,
    log = before ++ .hit middleware request key body :: after →
    middleware.cacheKey platform request = some key ∧ Stored platform before key body

def Phase.Keyed : Phase → Prop
  | .looking middleware request key _ => middleware.cacheKey platform request = some key
  | .handling middleware request (some key) _ => middleware.cacheKey platform request = some key
  | _ => True

structure Inv (s : State ι B) : Prop where
  entries : ∀ key body, s.entries key = some body → Stored platform s.log key body
  sets : ∀ set ∈ s.sets, Stored platform s.log set.1 set.2
  phases : ∀ i, (s.phases i).Keyed platform
  hits : HitsStored platform s.log

variable {platform} {s s' : State ι B} {log : List (Record B)} {key : String} {body : B}
  {r : Record B}

theorem Stored.append (h : Stored platform log key body) (r : Record B) :
    Stored platform (log ++ [r]) key body := by
  rcases h with ⟨middleware, request, status, hmem, hkey⟩ | hmem
  · exact .inl ⟨middleware, request, status, List.mem_append_left _ hmem, hkey⟩
  · exact .inr (List.mem_append_left _ hmem)

theorem HitsStored.append (h : HitsStored platform log)
    (hr : ∀ middleware request key body, r = .hit middleware request key body →
      middleware.cacheKey platform request = some key ∧ Stored platform log key body) :
    HitsStored platform (log ++ [r]) := by
  intro before middleware request key body after hlog
  rcases List.eq_nil_or_concat after with rfl | ⟨after, last, rfl⟩
  · obtain ⟨rfl, hlast⟩ := List.append_inj' hlog rfl
    exact hr middleware request key body (List.cons.inj hlast).1
  · rw [List.concat_eq_append, ← List.cons_append, ← List.append_assoc] at hlog
    exact h before middleware request key body after (List.append_inj' hlog rfl).1

theorem inv_start : Inv platform (start : State ι B) where
  entries _ _ h := by cases h
  sets _ h := by cases h
  phases _ := trivial
  hits before middleware request key body after h := by
    cases before <;> cases h

theorem Inv.become [DecidableEq ι] (h : Inv platform s) {i : ι} {phase : Phase}
    (hphase : phase.Keyed platform) :
    Inv platform (s.become i phase) where
  entries := h.entries
  sets := h.sets
  phases j := by
    rw [State.become]
    dsimp only
    by_cases hj : j = i
    · subst hj
      rw [Function.update_self]
      exact hphase
    · rw [Function.update_of_ne hj]
      exact h.phases j
  hits := h.hits

theorem Inv.record (h : Inv platform s)
    (hr : ∀ middleware request key body, r = .hit middleware request key body →
      middleware.cacheKey platform request = some key ∧ Stored platform s.log key body) :
    Inv platform (s.record r) where
  entries key body hbody := (h.entries key body hbody).append r
  sets set hset := (h.sets set hset).append r
  phases := h.phases
  hits := h.hits.append hr

theorem Inv.withSets (h : Inv platform s) {sets : List (String × B)}
    (hsets : ∀ set ∈ sets, Stored platform s.log set.1 set.2) :
    Inv platform { s with sets := sets } :=
  ⟨h.entries, hsets, h.phases, h.hits⟩

theorem Inv.put (h : Inv platform s) {value : Option B}
    (hvalue : ∀ body ∈ value, Stored platform s.log key body) :
    Inv platform (s.put key value) where
  entries k body hbody := by
    rw [State.put] at hbody
    dsimp only at hbody
    by_cases hk : k = key
    · subst hk
      rw [Function.update_self] at hbody
      exact hvalue body hbody
    · rw [Function.update_of_ne hk] at hbody
      exact h.entries k body hbody
  sets := h.sets
  phases := h.phases
  hits := h.hits

theorem Inv.eraseIdx (h : Inv platform s) (n : ℕ) :
    Inv platform { s with sets := s.sets.eraseIdx n } :=
  h.withSets fun set hset => h.sets set (List.mem_of_mem_eraseIdx hset)

theorem Inv.step [DecidableEq ι] (h : Inv platform s) {a : Action ι B}
    (hs : step platform s a = some s') : Inv platform s' := by
  cases a with
  | arrive i middleware request statusCode =>
    rw [HttpCache.step] at hs
    split at hs
    · split at hs
      · cases hs
        exact h.become trivial
      · rename_i key hkey
        cases hs
        exact h.become hkey
    · cases hs
  | found i =>
    rw [HttpCache.step] at hs
    split at hs
    · rename_i middleware request key statusCode hphase
      have hkey : middleware.cacheKey platform request = some key := by
        have hkeyed := h.phases i
        rwa [hphase] at hkeyed
      split at hs
      · rename_i body hbody
        cases hs
        refine Inv.become (h.record ?_) trivial
        intro middleware request key body hr
        cases hr
        exact ⟨hkey, h.entries _ _ hbody⟩
      · cases hs
        exact h.become hkey
    · cases hs
  | getFails i =>
    rw [HttpCache.step] at hs
    split at hs
    · cases hs
      exact h.become trivial
    · cases hs
  | status i statusCode =>
    have hkeyed := h.phases i
    rw [HttpCache.step] at hs
    split at hs
    · rename_i hphase
      cases hs
      rw [hphase] at hkeyed
      exact h.become hkeyed
    · rename_i key _ hphase
      cases hs
      rw [hphase] at hkeyed
      refine h.become ?_
      cases key <;> exact hkeyed
    · cases hs
  | json i body status =>
    have hkeyed := h.phases i
    rw [HttpCache.step] at hs
    split at hs
    · rename_i middleware request key statusCode hphase
      rw [hphase] at hkeyed
      set status := statusOf middleware.framework statusCode status
      have hrecord : Inv platform (s.record (.answered middleware request status body)) :=
        h.record fun _ _ _ _ hr => by cases hr
      dsimp only at hs
      split at hs
      · cases hs
        exact hrecord
      · rename_i key
        split at hs
        · rename_i hstatus
          cases hs
          refine hrecord.withSets fun set hset => ?_
          rcases List.mem_append.mp hset with hset | hset
          · exact hrecord.sets set hset
          · obtain rfl := List.mem_singleton.mp hset
            exact .inl ⟨middleware, request, status, by simp [State.record], hkeyed, hstatus⟩
        · cases hs
          exact hrecord
    · cases hs
  | stored n =>
    rw [HttpCache.step] at hs
    split at hs
    · rename_i key body hset
      cases hs
      refine (h.eraseIdx n).put fun body' hbody' => ?_
      cases hbody'
      exact h.sets _ (List.mem_of_getElem? hset)
    · cases hs
  | setFails n =>
    cases hs
    exact h.eraseIdx n
  | outside key value =>
    cases value with
    | none =>
      cases hs
      exact h.put fun _ hbody => by cases hbody
    | some body =>
      cases hs
      have hrecord : Inv platform (s.record (.outside key body)) :=
        h.record fun _ _ _ _ hr => by cases hr
      refine hrecord.put fun body' hbody' => ?_
      cases hbody'
      exact .inr (by simp [State.record])

/-- What a request is served from the cache was sent before, with success, to a request with the
same key, or other code has stored it. Where no resolver has made these keys, neither request
carries credentials, and they are of the same method and ask for the same path with the same values
of each parameter. -/
theorem served_alike [DecidableEq ι] (hlawful : platform.Lawful)
    (hreach : Reaches (step platform) (fun _ _ => True) start s) {before after : List (Record B)}
    {middleware : CacheMiddleware} {request : Request}
    (hhit : s.log = before ++ .hit middleware request key body :: after) :
    middleware.cacheKey platform request = some key ∧
      ((∃ middleware' request' status,
        .answered middleware' request' status body ∈ before ∧ isSuccessfulStatus status = true ∧
          middleware'.cacheKey platform request' = some key ∧
          (middleware.keyResolver = none → middleware'.keyResolver = none →
            middleware.Plain platform → middleware'.Plain platform →
            Anonymous platform middleware.framework request ∧
              Anonymous platform middleware'.framework request' ∧
              methodOf platform request = methodOf platform request' ∧
              SameResource platform (rawUrl request middleware.framework)
                (rawUrl request' middleware'.framework))) ∨
        .outside key body ∈ before) := by
  have hinv : Inv platform s :=
    hreach.invariant (fun _ _ _ h _ hs => h.step hs) inv_start
  obtain ⟨hkey, hstored⟩ := hinv.hits _ _ _ _ _ _ hhit
  refine ⟨hkey, hstored.imp_left ?_⟩
  rintro ⟨middleware', request', status, hmem, hkey', hstatus⟩
  refine ⟨middleware', request', status, hmem, hstatus, hkey', ?_⟩
  intro hresolver hresolver' hplain hplain'
  obtain ⟨hmethods, hresource⟩ :=
    (cacheKey_eq_iff hlawful hplain hplain' hresolver hresolver' hkey hkey').mp rfl
  exact ⟨(cacheKey_implicit hresolver hkey).2.1, (cacheKey_implicit hresolver' hkey').2.1,
    hmethods, hresource⟩

end Steps

def escaped (text : List Char) : List Char := text.flatMap fun c => ['%', c]

def queryText : List (String × String) → List Char
  | [] => []
  | item :: query =>
    '?' :: (escaped item.1.toList ++ '=' :: (escaped item.2.toList ++ queryText query))

theorem escaped_append_inj {text text' rest rest' : List Char} (hrest : rest.head? ≠ some '%')
    (hrest' : rest'.head? ≠ some '%') (h : escaped text ++ rest = escaped text' ++ rest') :
    text = text' ∧ rest = rest' := by
  induction text generalizing text' with
  | nil =>
    cases text' with
    | nil => exact ⟨rfl, h⟩
    | cons c text' =>
      obtain rfl : rest = _ := h
      exact absurd rfl hrest
  | cons c text ih =>
    cases text' with
    | nil =>
      obtain rfl : _ = rest' := h
      exact absurd rfl hrest'
    | cons d text' =>
      have hcons : '%' :: c :: (escaped text ++ rest) = '%' :: d :: (escaped text' ++ rest') := h
      obtain ⟨rfl, htexts⟩ := List.cons.inj (List.cons.inj hcons).2
      obtain ⟨rfl, hrests⟩ := ih htexts
      exact ⟨rfl, hrests⟩

theorem head_queryText (query : List (String × String)) : (queryText query).head? ≠ some '%' := by
  cases query with
  | nil => simp [queryText]
  | cons item query => simp [queryText]

theorem queryText_injective : Function.Injective queryText := by
  intro query
  induction query with
  | nil =>
    intro query' h
    cases query' with
    | nil => rfl
    | cons item query' => cases h
  | cons item query ih =>
    intro query' h
    cases query' with
    | nil => cases h
    | cons item' query' =>
      obtain ⟨-, h⟩ := List.cons.inj h
      obtain ⟨hname, h⟩ := escaped_append_inj (by simp) (by simp) h
      obtain ⟨-, h⟩ := List.cons.inj h
      obtain ⟨hvalue, h⟩ := escaped_append_inj (head_queryText query) (head_queryText query') h
      rw [ih h, Prod.ext (String.toList_inj.mp hname) (String.toList_inj.mp hvalue)]

def pathsOnly : Platform where
  parse url := if '?' ∈ url.toList then none else some (url, [])
  search query := String.ofList (queryText query)
  toLowerCase := id
  toUpperCase := id

theorem lawful_pathsOnly : pathsOnly.Lawful where
  path url path query h := by
    rw [pathsOnly] at h
    dsimp only at h
    split at h
    · cases h
    · rename_i hurl
      cases h
      exact hurl
  search query := by
    cases query with
    | nil => exact .inl rfl
    | cons item query => exact .inr ⟨_, String.ofList_cons ..⟩
  injective query query' h := queryText_injective (String.ofList_inj.mp h)

def cachePages : CacheMiddleware := ⟨.express, none, none, true⟩

def page : Request := ⟨some "GET", some "/page", none, none, .entries [], some (.entries [])⟩

/-- The first answer is stored, and the second request is served with it. -/
def askedTwice : List (Action ℕ ℕ) :=
  [.arrive 0 cachePages page (some 200), .found 0, .json 0 7 none, .stored 0,
    .arrive 1 cachePages page (some 200), .found 1]

theorem served_alike_askedTwice : ∃ s, Transition.run (step pathsOnly) start askedTwice = some s ∧
    ∃ middleware request status, .answered middleware request status 7 ∈ s.log ∧
      isSuccessfulStatus status = true := by
  obtain ⟨s, hrun, hlog⟩ : ∃ s, Transition.run (step pathsOnly) start askedTwice = some s ∧
      s.log = [.answered cachePages page (some 200) 7] ++
        .hit cachePages page "GET:/page" 7 :: [] := ⟨_, rfl, rfl⟩
  have hreach : Reaches (step pathsOnly) (fun _ _ => True) start s :=
    Transition.reaches_of_run _ hrun (Transition.along_of_forall fun _ _ _ => trivial)
  obtain ⟨-, ⟨middleware, request, status, hmem, hstatus, -⟩ | hmem⟩ :=
    served_alike lawful_pathsOnly hreach hlog
  · exact ⟨s, hrun, middleware, request, status, hlog ▸ List.mem_append_left _ hmem, hstatus⟩
  · cases hmem with
    | tail _ h => cases h

end LayerCache.HttpCache
