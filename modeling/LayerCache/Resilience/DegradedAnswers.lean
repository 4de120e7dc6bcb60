import LayerCache.Resilience.DegradedSearch

/-! # Reads that degrade

With the calls of the layers caught, each read answers with what the layers have that answer, or
the fetcher decides.
-/

namespace LayerCache.Degradation

variable {σ V α β : Type} {config : Config} {env : Surroundings σ V} {known log : List (Event V)}
  {p : Action σ V α} {f : α → Action σ V β} {layer : ℕ} {key : String}

theorem safe_writeLayer (h : Sturdy config env) :
    Safe known (writeLayer config env key layer) fun _ _ => True := by
  apply safe_call.andThen
  intro outdated log _
  apply Safe.ite
  · exact fun _ => .pure fun _ _ => trivial
  intro _
  apply ((safe_shouldSkipLayer layer).mono fun _ _ _ _ => trivial).andThen
  intro skip log _
  apply Safe.ite
  · exact fun _ => .pure fun _ _ => trivial
  · exact fun _ => safe_setLayer h

theorem safe_storeEntry (h : Sturdy config env) :
    Safe known (storeEntry config env key) fun _ _ => True := by
  have hwrite : Safe known (writeAcrossLayers config env key) fun _ _ => True := by
    apply (safe_activeLayers _).bind
    intro immediate log _ _
    apply (safe_runFencedWrite (fun _ => safe_runAll fun layer _ _ => safe_writeLayer h)
      fun _ => safe_runAll fun layer _ _ => safe_recover_handle h).andThen
    intro committed log _
    apply (safe_check .queue).andThen
    exact fun _ _ _ => .pure fun _ _ => trivial
  apply hwrite.andThen
  intro committed log _
  apply Safe.ite
  · intro _
    apply safe_call.andThen
    intro outdated log _
    apply Safe.ite
    · exact fun _ => .pure fun _ _ => trivial
    · exact fun _ => (safe_check .index).andThen fun _ _ _ => safe_check .bus
  · exact fun _ => .pure fun _ _ => trivial

theorem safe_storeIf (h : Sturdy config env) (question : Question) :
    Safe known (storeIf config env question key) fun _ _ => True := by
  apply safe_call.andThen
  intro asked log _
  apply Safe.ite
  · intro _
    apply safe_call.andThen
    intro outdated log _
    apply Safe.ite
    · exact fun _ => .pure fun _ _ => trivial
    · exact fun _ => safe_storeEntry h
  · exact fun _ => .pure fun _ _ => trivial

theorem safe_callFetcher : Safe known (callFetcher env key)
    fun fetched log => .fetched fetched ∈ log := by
  apply safe_call.andThen
  intro answer log _
  cases answer with
  | ok fetched =>
    apply safe_note.bind
    exact fun _ _ _ hfetched => .pure fun _ hlog => hlog hfetched
  | error reason => exact .throw

theorem FromFetch.mono {value : Js V} (h : FromFetch log key value) {log' : List (Event V)}
    (hlog : log ⊆ log') : FromFetch log' key value := by
  rcases h with ⟨layer, stored, now, hfound, hfresh⟩ | ⟨fetched, hfetched, hvalue⟩
  · exact .inl ⟨layer, stored, now, hlog hfound, hfresh⟩
  · exact .inr ⟨fetched, hlog hfetched, hvalue⟩

theorem safe_fetchAndPopulate (h : Sturdy config env) :
    Safe known (fetchAndPopulate config env key) fun value log => FromFetch log key value := by
  apply (safe_check .breaker).andThen
  intro _ log _
  apply (safe_check .limiter).andThen
  intro _ log _
  apply safe_callFetcher.bind
  intro fetched log _ hfetched
  apply safe_call.andThen
  intro cacheNullValues log' hlog
  apply Safe.ite
  · intro hnothing
    apply (safe_storeIf h _).andThen
    intro _ log'' hlog'
    refine .pure fun last hlast => .inr ⟨fetched, hlast (hlog' (hlog hfetched)), .inr ⟨rfl, ?_⟩⟩
    rintro v rfl
    cases hnothing
  · intro _
    apply (safe_storeIf h _).andThen
    exact fun _ log'' hlog' => .pure fun last hlast =>
      .inr ⟨fetched, hlast (hlog' (hlog hfetched)), .inl rfl⟩

theorem safe_lookForFresh (h : Sturdy config env) : Safe known
    (readFromLayers config env key .freshOnly (List.range config.layers) false)
    fun search log => ∀ hit ∈ search, FromFetch log key hit.value := by
  apply (safe_readFromLayers h .freshOnly List.pairwise_lt_range
    (fun _ hlayer => List.mem_range.mp hlayer) false).mono
  intro search log _ hfound hit hhit
  obtain ⟨hmem, hfresh⟩ := hfound hit hhit
  exact .inl ⟨hit.layerIndex, hit.stored, hit.now, hmem, hfresh, rfl⟩

theorem safe_fetchTask (h : Sturdy config env) (initialMissConfirmed : Bool) :
    Safe known (fetchTask config env key initialMissConfirmed)
      fun value log => FromFetch log key value := by
  apply Safe.ite
  · exact fun _ => safe_fetchAndPopulate h
  · intro _
    apply (safe_lookForFresh h).bind
    intro search log _ hfresh
    cases search with
    | none => exact safe_fetchAndPopulate h
    | some hit => exact .pure fun _ hlog => (hfresh hit rfl).mono hlog

theorem safe_execute {worker waiter : Action σ V (Js V)}
    (hworker : ∀ known, Safe known worker fun value log => FromFetch log key value)
    (hwaiter : ∀ known, Safe known waiter fun value log => FromFetch log key value) :
    Safe known (execute env key worker waiter) fun value log => FromFetch log key value := by
  apply (safe_check .coordinator).andThen
  intro _ log _
  apply safe_call.andThen
  intro role log _
  cases role with
  | worker =>
    apply (hworker log).bind
    intro value log' _ hvalue
    apply (safe_check .coordinator).andThen
    exact fun _ _ hlog => .pure fun _ hlog' => hvalue.mono (List.Subset.trans hlog hlog')
  | waiter => exact hwaiter log

theorem safe_poll (h : Sturdy config env) (polls : ℕ) : Safe known (poll config env key polls)
    fun found log => ∀ value ∈ found, FromFetch log key value := by
  induction polls generalizing known with
  | zero => exact .pure fun _ _ value hvalue => nomatch hvalue
  | succ polls ih =>
    apply (safe_lookForFresh h).bind
    intro search log _ hfresh
    cases search with
    | none => exact ih
    | some hit =>
      refine .pure fun _ hlog value hvalue => ?_
      cases hvalue
      exact (hfresh hit rfl).mono hlog

theorem safe_waitForFreshValue (h : Sturdy config env) (retries : ℕ) :
    Safe known (waitForFreshValue config env key retries)
      fun value log => FromFetch log key value := by
  induction retries generalizing known with
  | zero =>
    apply safe_call.andThen
    intro polls log _
    apply (safe_poll h polls).bind
    intro found log _ hfound
    cases found with
    | none => exact .throw
    | some value => exact .pure fun _ hlog => (hfound value rfl).mono hlog
  | succ retries ih =>
    apply safe_call.andThen
    intro polls log _
    apply (safe_poll h polls).bind
    intro found log _ hfound
    cases found with
    | none => exact safe_execute (fun _ => safe_fetchAndPopulate h) fun _ => ih
    | some value => exact .pure fun _ hlog => (hfound value rfl).mono hlog

theorem safe_singleFlightTask (h : Sturdy config env) (initialMissConfirmed : Bool) :
    Safe known (singleFlightTask config env key initialMissConfirmed)
      fun value log => FromFetch log key value := by
  apply Safe.ite
  · intro _
    apply Safe.recover (E := fun _ _ => True)
    · apply Program.Triple.mono (safe_execute (fun _ => safe_fetchTask h initialMissConfirmed)
        fun _ => safe_waitForFreshValue h 1) (fun _ hs => hs) (fun _ _ hrun => hrun)
      exact fun _ _ hrun => ⟨hrun.1, trivial⟩
    · intro e log _ _
      rw [if_pos h.graceful]
      exact safe_fetchTask h initialMissConfirmed
  · exact fun _ => safe_fetchTask h initialMissConfirmed

theorem safe_fetchWithGuards (h : Sturdy config env) (initialMissConfirmed : Bool) :
    Safe known (fetchWithGuards config env key initialMissConfirmed)
      fun value log => FromFetch log key value := by
  apply Safe.ite
  · intro _
    apply (safe_check .guard).andThen
    intro _ log _
    apply (safe_singleFlightTask h initialMissConfirmed).attempt.bind
    intro outcome log _ houtcome
    apply (safe_check .guard).andThen
    intro _ log' hlog
    cases outcome with
    | ok value => exact .pure fun _ hlog' => houtcome.mono (List.Subset.trans hlog hlog')
    | error e =>
      obtain ⟨reason, rfl⟩ := houtcome
      exact .throw
  · exact fun _ => safe_singleFlightTask h initialMissConfirmed

theorem Searched.mono {layers : ℕ} {search : Option (Reading V)}
    (h : Searched layers log key search) {log' : List (Event V)} (hlog : log ⊆ log') :
    Searched layers log' key search := by
  cases search with
  | none => exact fun layer hlayer => (h layer hlayer).mono hlog
  | some hit =>
    obtain ⟨hlt, hfound, hstate, hmissed⟩ := h
    exact ⟨hlt, hlog hfound, hstate, fun layer hlayer => (hmissed layer hlayer).mono hlog⟩

theorem Decided.mono {layers : ℕ} {hasFetcher : Bool} {value : Js V}
    (h : Decided layers log key hasFetcher value) {log' : List (Event V)} (hlog : log ⊆ log') :
    Decided layers log' key hasFetcher value := by
  obtain ⟨search, hsearch, hvalue⟩ := h
  refine ⟨search, hsearch.mono hlog, ?_⟩
  cases search with
  | some hit =>
    exact hvalue.imp_right fun ⟨hstate, hhas, hfetch⟩ => ⟨hstate, hhas, hfetch.mono hlog⟩
  | none =>
    cases hasFetcher with
    | false => exact hvalue
    | true => exact FromFetch.mono hvalue hlog

theorem safe_slideLayers (h : Sturdy config env) (layers : List ℕ) :
    Safe known (slideLayers config env key layers) fun _ _ => True := by
  induction layers generalizing known with
  | nil => exact .pure fun _ _ => trivial
  | cons layer layers ih =>
    apply ((safe_shouldSkipLayer layer).mono fun _ _ _ _ => trivial).andThen
    intro skip log _
    apply Safe.ite
    · exact fun _ => ih
    · exact fun _ => (safe_setLayer h).andThen fun _ _ _ => ih

theorem safe_applyFreshReadPolicies (h : Sturdy config env) (hit : Reading V) :
    Safe known (applyFreshReadPolicies config env key hit) fun _ _ => True := by
  apply safe_call.andThen
  intro slides log _
  apply Safe.ite
  · exact fun _ => safe_slideLayers h _
  · exact fun _ => .pure fun _ _ => trivial

theorem safe_search (h : Sturdy config env) : Safe known
    (readFromLayers config env key .allowStale (List.range config.layers) false)
    fun search log => Searched config.layers log key search :=
  (safe_readFromLayers h .allowStale List.pairwise_lt_range
    (fun _ hlayer => List.mem_range.mp hlayer) false).mono fun _ _ _ => SearchedIn.range

theorem safe_getPrepared (h : Sturdy config env) (hasFetcher : Bool) :
    Safe known (getPrepared config env key hasFetcher)
      fun value log => Decided config.layers log key hasFetcher value := by
  apply (safe_search h).bind
  intro search log _ hsearch
  cases search with
  | none =>
    apply Safe.ite
    · rintro rfl
      apply (safe_fetchWithGuards h true).mono
      exact fun value _ hlog hfetch => ⟨none, hsearch.mono hlog, hfetch⟩
    · intro hnone
      rw [Bool.not_eq_true] at hnone
      subst hnone
      exact .pure fun _ hlog => ⟨none, hsearch.mono hlog, rfl⟩
  | some hit =>
    have hserve : ∀ log', log ⊆ log' → Decided config.layers log' key hasFetcher hit.value :=
      fun log' hlog => ⟨some hit, hsearch.mono hlog, .inl rfl⟩
    apply Safe.ite
    · intro _
      apply (safe_applyFreshReadPolicies h hit).andThen
      exact fun _ _ hlog => .pure fun _ hlog' => hserve _ (List.Subset.trans hlog hlog')
    intro hfresh
    apply Safe.ite
    · exact fun _ => .pure fun _ hlog => hserve _ hlog
    intro hstale
    obtain ⟨hnot, hhas⟩ := not_or.mp hstale
    have hstate : hit.state = .staleIfError := by
      have hexpired := hsearch.2.2.1
      cases hcase : hit.state with
      | fresh => exact absurd hcase hfresh
      | staleWhileRevalidate => exact absurd hcase hnot
      | staleIfError => rfl
      | expired => exact absurd hcase hexpired
    apply Safe.recover (E := fun _ _ => True)
    · have hfetch : Safe log (fetchWithGuards config env key false)
          fun value log => FromFetch log key value := safe_fetchWithGuards h false
      apply Program.Triple.mono hfetch (fun _ hs => hs)
      · intro value run hrun
        refine ⟨hrun.1, some hit, hsearch.mono hrun.1, .inr ⟨hstate, ?_, hrun.2⟩⟩
        simpa using hhas
      · exact fun _ _ hrun => ⟨hrun.1, trivial⟩
    · exact fun _ _ hlog _ => .pure fun _ hlog' => hserve _ (List.Subset.trans hlog hlog')

variable {entries : List MGetEntry}

theorem safe_noteMissing (answers : List (String × Option (Stored V))) :
    Safe known (noteMissing layer answers : Action σ V Unit)
      fun _ log => ∀ key, (key, none) ∈ answers → .missing layer key ∈ log := by
  induction answers generalizing known with
  | nil => exact .pure fun _ _ key hkey => nomatch hkey
  | cons answer answers ih =>
    obtain ⟨k, stored⟩ := answer
    cases stored with
    | none =>
      apply safe_note.bind
      intro _ log _ hmissing
      apply ih.mono
      intro _ log' hlog hrest key hkey
      rcases List.mem_cons.mp hkey with heq | hkey
      · cases heq
        exact hlog hmissing
      · exact hrest key hkey
    | some stored =>
      apply ih.mono
      intro _ log' _ hrest key hkey
      rcases List.mem_cons.mp hkey with heq | hkey
      · cases heq
      · exact hrest key hkey

/-- The answers of a layer for the pending keys; without one, the layer has missed the key. -/
def AnswersFor (layer : ℕ) (keys : List String) (log : List (Event V))
    (answers : List (String × Option (Stored V))) : Prop :=
  List.Forall₂ (fun key answer => answer.1 = key ∧ (answer.2 = none → Missed log key layer))
    keys answers

theorem safe_readMany (h : Sturdy config env) (hlayer : layer < config.layers)
    (keys : List String) : Safe known (readMany config env layer keys)
      fun answers log => AnswersFor layer keys log answers := by
  apply Safe.ite
  · intro hmany
    have hanswers : ∀ s, (env.getMany layer keys s).1 ≠ none := by
      intro s hnone
      have hsome := h.getMany layer hlayer hmany keys s
      rw [hnone] at hsome
      cases hsome
    apply (safe_callLayer hanswers).andThen
    intro answer log _
    apply (safe_noteMissing _).bind
    intro _ log' _ hmissing
    refine .pure fun last hlast => ?_
    rw [AnswersFor, List.forall₂_map_right_iff, List.forall₂_same]
    refine fun key hkey => ⟨rfl, fun hnone => .inr (.inr (.inl (hlast (hmissing key ?_))))⟩
    exact List.mem_map.mpr ⟨key, hkey, by rw [← hnone]⟩
  · intro _
    have hread : ∀ key ∈ keys, ∀ known, Safe known
        (do
          let stored ← readLayerEntry config env layer key
          pure (key, stored) : Action σ V (String × Option (Stored V)))
        fun answer log => answer.1 = key ∧ (answer.2 = none → Missed log key layer) := by
      intro key _ known
      apply (safe_readLayerEntry h).bind
      exact fun stored log _ hmissing => .pure fun _ hlog =>
        ⟨rfl, fun hnone => (hmissing hnone).mono hlog⟩
    exact safe_all (fun key answer log log' hlog hanswer =>
      ⟨hanswer.1, fun hnone => (hanswer.2 hnone).mono hlog⟩) hread

/-- The keys have been found in the layers, or they have been missed by all of them. -/
def ScannedIn (todo : List ℕ) (keys : List String) (log : List (Event V))
    (results : List (String × Js V)) : Prop :=
  (∀ key value, (key, value) ∈ results → key ∈ keys ∧ ∃ hit, SearchedIn todo log key (some hit) ∧
    value = hit.value) ∧
  ∀ key ∈ keys, key ∉ results.map Prod.fst → SearchedIn todo log key none

/-- One layer leaves a key pending that it has missed, and has found the others. -/
structure TakenFrom (layer : ℕ) (keys : List String) (log : List (Event V))
    (taken : List String × List (String × Js V)) : Prop where
  pending : ∀ key ∈ taken.1, key ∈ keys ∧ Missed log key layer
  results : ∀ key value, (key, value) ∈ taken.2 → key ∈ keys ∧ ∃ hit : Reading V,
    hit.layerIndex = layer ∧ .found layer key hit.stored hit.now ∈ log ∧
      hit.state ≠ .expired ∧ value = hit.value
  all : ∀ key ∈ keys, key ∈ taken.1 ∨ key ∈ taken.2.map Prod.fst

theorem AnswersFor.mono {keys : List String} {answers : List (String × Option (Stored V))}
    (h : AnswersFor layer keys log answers) {log' : List (Event V)} (hlog : log ⊆ log') :
    AnswersFor layer keys log' answers :=
  h.imp fun _ _ hanswer => ⟨hanswer.1, fun hnone => (hanswer.2 hnone).mono hlog⟩

theorem TakenFrom.mono {keys : List String} {taken : List String × List (String × Js V)}
    (h : TakenFrom layer keys log taken) {log' : List (Event V)} (hlog : log ⊆ log') :
    TakenFrom layer keys log' taken where
  pending := fun key hkey => (h.pending key hkey).imp_right fun hmissed => hmissed.mono hlog
  results := fun key value hkey => by
    obtain ⟨hmem, hit, hindex, hfound, hstate⟩ := h.results key value hkey
    exact ⟨hmem, hit, hindex, hlog hfound, hstate⟩
  all := h.all

/-- The key of the first answer stays pending. -/
theorem TakenFrom.leave {keys : List String} {taken : List String × List (String × Js V)}
    (h : TakenFrom layer keys log taken) (hmissed : Missed log key layer) :
    TakenFrom layer (key :: keys) log (key :: taken.1, taken.2) := by
  constructor
  · intro k hk
    rcases List.mem_cons.mp hk with rfl | hk
    · exact ⟨List.mem_cons_self, hmissed⟩
    · exact (h.pending k hk).imp_left (List.mem_cons_of_mem _)
  · exact fun k value hk => (h.results k value hk).imp_left (List.mem_cons_of_mem _)
  · intro k hk
    rcases List.mem_cons.mp hk with rfl | hk
    · exact .inl List.mem_cons_self
    · exact (h.all k hk).imp_left (List.mem_cons_of_mem _)

theorem TakenFrom.take {keys : List String} {taken : List String × List (String × Js V)}
    (h : TakenFrom layer keys log taken) {hit : Reading V} (hindex : hit.layerIndex = layer)
    (hfound : .found layer key hit.stored hit.now ∈ log) (hstate : hit.state ≠ .expired) :
    TakenFrom layer (key :: keys) log (taken.1, (key, hit.value) :: taken.2) := by
  constructor
  · exact fun k hk => (h.pending k hk).imp_left (List.mem_cons_of_mem _)
  · intro k value hk
    rcases List.mem_cons.mp hk with heq | hk
    · cases heq
      exact ⟨List.mem_cons_self, hit, hindex, hfound, hstate, rfl⟩
    · exact (h.results k value hk).imp_left (List.mem_cons_of_mem _)
  · intro k hk
    rcases List.mem_cons.mp hk with rfl | hk
    · exact .inr List.mem_cons_self
    · exact (h.all k hk).imp_right (List.mem_cons_of_mem _)

theorem safe_takeAnswers (h : Sturdy config env) (hlayer : layer < config.layers)
    {keys : List String} {answers : List (String × Option (Stored V))}
    (hanswers : AnswersFor layer keys known answers) :
    Safe known (takeAnswers config env layer answers)
      fun taken log => TakenFrom layer keys log taken := by
  induction answers generalizing known keys with
  | nil =>
    cases hanswers
    refine .pure fun _ _ => ⟨?_, ?_, ?_⟩
    · exact fun key hkey => nomatch hkey
    · exact fun key value hkey => nomatch hkey
    · exact fun key hkey => nomatch hkey
  | cons answer answers ih =>
    obtain ⟨k, stored⟩ := answer
    obtain ⟨⟩ | ⟨⟨rfl, hmissing⟩, hrest⟩ := hanswers
    rename_i keys
    have hanswers : AnswersFor layer keys known answers := hrest
    cases stored with
    | none =>
      apply (ih hanswers).bind
      intro taken log hlog htaken
      refine .pure fun last hlast => ?_
      exact (htaken.mono hlast).leave ((hmissing rfl).mono (List.Subset.trans hlog hlast))
    | some stored =>
      apply safe_resolve.bind
      rintro hit log hlog ⟨hindex, hfound⟩
      apply Safe.ite
      · intro hexpired
        apply (safe_deleteFrom h hlayer).andThen
        intro _ log' hlog'
        apply (ih (hanswers.mono (List.Subset.trans hlog hlog'))).bind
        intro taken log'' hlog'' htaken
        refine .pure fun last hlast => (htaken.mono hlast).leave ?_
        exact missed_of_expired (hlast (hlog'' (hlog' hfound))) hexpired
      · intro hexpired
        apply (safe_check .index).andThen
        intro _ log' hlog'
        apply (safe_backfill h hlayer.le).andThen
        intro _ log'' hlog''
        have hmore := List.Subset.trans hlog (List.Subset.trans hlog' hlog'')
        apply (ih (hanswers.mono hmore)).bind
        intro taken later hlater htaken
        refine .pure fun last hlast => (htaken.mono hlast).take hindex ?_ hexpired
        exact hlast (hlater (hlog'' (hlog' hfound)))

theorem ScannedIn.mono {todo : List ℕ} {keys : List String} {results : List (String × Js V)}
    (h : ScannedIn todo keys log results) {log' : List (Event V)} (hlog : log ⊆ log') :
    ScannedIn todo keys log' results := by
  refine ⟨fun key value hkey => ?_, fun key hkey hnot => (h.2 key hkey hnot).mono hlog⟩
  obtain ⟨hmem, hit, hsearch, hvalue⟩ := h.1 key value hkey
  exact ⟨hmem, hit, hsearch.mono hlog, hvalue⟩

theorem ScannedIn.cons {todo : List ℕ} {keys : List String}
    {taken : List String × List (String × Js V)} {more : List (String × Js V)}
    (hsorted : (layer :: todo).Pairwise (· < ·)) (htaken : TakenFrom layer keys log taken)
    (h : ScannedIn todo taken.1 log more) :
    ScannedIn (layer :: todo) keys log (taken.2 ++ more) := by
  constructor
  · intro key value hkey
    rcases List.mem_append.mp hkey with hkey | hkey
    · obtain ⟨hmem, hit, hindex, hfound, hstate, hvalue⟩ := htaken.results key value hkey
      exact ⟨hmem, hit, SearchedIn.first hsorted hindex hfound hstate, hvalue⟩
    · obtain ⟨hpending, hit, hsearch, hvalue⟩ := h.1 key value hkey
      obtain ⟨hmem, hmissed⟩ := htaken.pending key hpending
      exact ⟨hmem, hit, hsearch.cons hmissed, hvalue⟩
  · intro key hkey hnot
    rw [List.map_append, List.mem_append, not_or] at hnot
    have hpending : key ∈ taken.1 := (htaken.all key hkey).resolve_right hnot.1
    exact (h.2 key hpending hnot.2).cons (htaken.pending key hpending).2

/-- A layer that has missed all keys. -/
theorem ScannedIn.skip {todo : List ℕ} {keys : List String} {results : List (String × Js V)}
    (h : ScannedIn todo keys log results) (hmissed : ∀ key, Missed log key layer) :
    ScannedIn (layer :: todo) keys log results := by
  constructor
  · intro key value hkey
    obtain ⟨hmem, hit, hsearch, hvalue⟩ := h.1 key value hkey
    exact ⟨hmem, hit, hsearch.cons (hmissed key), hvalue⟩
  · exact fun key hkey hnot => (h.2 key hkey hnot).cons (hmissed key)

theorem safe_forget (keys : List String) : Safe known (forget env keys) fun _ _ => True := by
  induction keys generalizing known with
  | nil => exact .pure fun _ _ => trivial
  | cons key keys ih => exact (safe_check .index).andThen fun _ _ _ => ih

theorem safe_scanLayers (h : Sturdy config env) {todo : List ℕ} (hsorted : todo.Pairwise (· < ·))
    (htodo : ∀ layer ∈ todo, layer < config.layers) (keys : List String) :
    Safe known (scanLayers config env todo keys)
      fun results log => ScannedIn todo keys log results := by
  induction todo generalizing known keys with
  | nil =>
    apply (safe_forget keys).andThen
    intro _ log _
    refine .pure fun _ _ => ⟨fun key value hkey => (nomatch hkey), fun key _ _ => ?_⟩
    exact fun layer hlayer => nomatch hlayer
  | cons layer todo ih =>
    have hlayer : layer < config.layers := htodo layer List.mem_cons_self
    have hrest : ∀ l ∈ todo, l < config.layers := fun l hl =>
      htodo l (List.mem_cons_of_mem _ hl)
    have hnext := fun {known : List (Event V)} => @ih known hsorted.of_cons hrest
    apply (safe_shouldSkipLayer layer).bind
    intro skip log _ hskipped
    apply Safe.ite
    · intro hskip
      apply (hnext keys).mono
      exact fun results log' hlog hscanned =>
        hscanned.skip fun _ => .inl (hlog (hskipped hskip))
    intro _
    apply Safe.ite
    · intro hnone
      obtain rfl := List.isEmpty_iff.mp hnone
      exact .pure fun _ _ => ⟨fun key value hkey => (nomatch hkey), fun key hkey => nomatch hkey⟩
    intro _
    apply (safe_readMany h hlayer keys).bind
    intro answers log _ hanswers
    apply (safe_takeAnswers h hlayer hanswers).bind
    intro taken log' _ htaken
    apply (hnext taken.1).bind
    intro more log'' hlog hmore
    refine .pure fun last hlast => ?_
    exact ScannedIn.cons hsorted (htaken.mono (List.Subset.trans hlog hlast)) (hmore.mono hlast)

theorem decided_of_searchedIn {search : Option (Reading V)}
    (h : SearchedIn (List.range config.layers) log key search) :
    Decided config.layers log key false (search.elim .undefined Reading.value) := by
  refine ⟨search, h.range, ?_⟩
  cases search with
  | none => rfl
  | some hit => exact .inl rfl

/-- What the batched path looks up for a key. -/
theorem ScannedIn.decided {keys : List String} {results : List (String × Js V)}
    (h : ScannedIn (List.range config.layers) keys log results) (hkey : key ∈ keys) :
    Decided config.layers log key false ((results.lookup key).getD .undefined) := by
  cases hlookup : results.lookup key with
  | none =>
    have hnot : key ∉ results.map Prod.fst := by
      intro hmem
      obtain ⟨result, hresult, rfl⟩ := List.mem_map.mp hmem
      simpa using List.lookup_eq_none_iff.mp hlookup result hresult
    exact decided_of_searchedIn (h.2 key hkey hnot)
  | some value =>
    obtain ⟨front, back, hresults, -⟩ := List.lookup_eq_some_iff.mp hlookup
    have hmem : (key, value) ∈ results := by simp [hresults]
    obtain ⟨-, hit, hsearch, rfl⟩ := h.1 key value hmem
    exact decided_of_searchedIn hsearch

/-- Side by side, each entry has its own `get`; entries of one key are the same. -/
theorem lookup_decided {results : List (String × Js V)} {started : List MGetEntry}
    (h : List.Forall₂ (fun entry result => result.1 = entry.key ∧
      Decided config.layers log entry.key entry.fetch.isSome result.2) started results)
    (hagree : ∀ other ∈ started, ∀ entry ∈ started, other.key = entry.key → other = entry)
    {entry : MGetEntry} (hentry : entry ∈ started) :
    Decided config.layers log entry.key entry.fetch.isSome
      ((results.lookup entry.key).getD .undefined) := by
  induction h with
  | nil => cases hentry
  | @cons other result started results hresult _ ih =>
    obtain ⟨k, value⟩ := result
    obtain ⟨rfl, hdecided⟩ := hresult
    by_cases hkey : entry.key = other.key
    · obtain rfl : other = entry := hagree other List.mem_cons_self entry hentry hkey.symm
      simpa using hdecided
    · rw [List.lookup_cons, beq_false_of_ne hkey]
      rcases List.mem_cons.mp hentry with rfl | hentry
      · exact absurd rfl hkey
      · exact ih (fun o ho e he => hagree o (List.mem_cons_of_mem _ ho) e
          (List.mem_cons_of_mem _ he)) hentry

theorem eq_of_not_conflict (h : ¬ conflict entries = true) {entry other : MGetEntry}
    (hentry : entry ∈ entries) (hother : other ∈ entries) (hkey : entry.key = other.key) :
    entry = other := by
  by_contra hne
  apply h
  rw [conflict, List.any_eq_true]
  refine ⟨entry, hentry, List.any_eq_true.mpr ⟨other, hother, ?_⟩⟩
  simp [hkey, hne]

theorem safe_mget (h : Sturdy config env) (entries : List MGetEntry) :
    Safe known (mget config env entries) fun values log => List.Forall₂
      (fun entry value => Decided config.layers log entry.key entry.fetch.isSome value)
      entries values := by
  apply (safe_check .startup).andThen
  intro _ log _
  apply Safe.ite
  · intro hnone
    obtain rfl := List.isEmpty_iff.mp hnone
    exact .pure fun _ _ => .nil
  intro _
  apply Safe.ite
  · intro hfast
    apply (safe_scanLayers h List.pairwise_lt_range (fun _ hlayer => List.mem_range.mp hlayer)
      _).bind
    intro results log' _ hscanned
    refine .pure fun last hlast => ?_
    rw [List.forall₂_map_right_iff, List.forall₂_same]
    intro entry hentry
    have hsimple := List.all_eq_true.mp hfast entry hentry
    obtain ⟨hfetch, -⟩ := Bool.and_eq_true_iff.mp hsimple
    have hmem : entry.key ∈ (entries.map fun entry => entry.key).dedup :=
      List.mem_dedup.mpr (List.mem_map_of_mem hentry)
    rw [Option.isNone_iff_eq_none.mp hfetch]
    exact (hscanned.decided hmem).mono hlast
  intro _
  apply Safe.ite
  · exact fun _ => .throw
  intro hagree
  have hget : ∀ entry ∈ entries.dedup, ∀ known, Safe known
      (do
        let value ← getPrepared config env entry.key entry.fetch.isSome
        pure (entry.key, value) : Action σ V (String × Js V))
      fun result log => result.1 = entry.key ∧
        Decided config.layers log entry.key entry.fetch.isSome result.2 := by
    intro entry _ known
    apply (safe_getPrepared h _).bind
    exact fun value log _ hvalue => .pure fun _ hlog => ⟨rfl, hvalue.mono hlog⟩
  apply (safe_all (fun entry result log log' hlog hresult =>
    ⟨hresult.1, hresult.2.mono hlog⟩) hget).bind
  intro results log' _ hresults
  refine .pure fun last hlast => ?_
  rw [List.forall₂_map_right_iff, List.forall₂_same]
  intro entry hentry
  refine (lookup_decided hresults ?_ (List.mem_dedup.mpr hentry)).mono hlast
  exact fun other hother entry hentry => eq_of_not_conflict hagree (List.mem_dedup.mp hother)
    (List.mem_dedup.mp hentry)

theorem HasIn.decided {found : Bool} (h : HasIn (List.range config.layers) log key found) :
    HasDecided config.layers log key found := by
  cases found with
  | true =>
    obtain ⟨layer, hlayer, hpresent⟩ := h
    exact ⟨layer, List.mem_range.mp hlayer, hpresent⟩
  | false => exact fun layer hlayer => h layer (List.mem_range.mpr hlayer)

theorem safe_perform (h : Sturdy config env) (read : Read) :
    Safe known (perform config env read)
      fun answer log => Answered config.layers log read answer := by
  cases read with
  | get key hasFetcher =>
    apply (safe_check .startup).andThen
    intro _ log _
    apply (safe_getPrepared h hasFetcher).bind
    exact fun value _ _ hvalue => .pure fun _ hlog => Decided.mono hvalue hlog
  | getEntry key =>
    apply (safe_check .startup).andThen
    intro _ log _
    apply (safe_getEntry h List.pairwise_lt_range (fun _ hlayer => List.mem_range.mp hlayer)
      false).bind
    exact fun hit _ _ hhit => .pure fun _ hlog => hhit.range.mono hlog
  | has key =>
    apply (safe_check .startup).andThen
    intro _ log _
    apply (safe_has h _).bind
    exact fun found _ _ hfound => .pure fun _ hlog => (hfound.mono hlog).decided
  | mget entries =>
    apply (safe_mget h entries).bind
    exact fun values _ _ hvalues => .pure fun _ hlog =>
      hvalues.imp fun _ _ hvalue => hvalue.mono hlog

end LayerCache.Degradation
