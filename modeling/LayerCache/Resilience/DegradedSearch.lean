import LayerCache.Resilience.DegradedReads

/-! # Searches over layers that fail

What a search over the layers finds where every call of a layer that may reject is caught: the
first layer that has an entry, past those that are skipped, reject or have nothing.
-/

namespace LayerCache.Degradation

variable {σ V : Type}

structure Surroundings.RejectsOnly (env : Surroundings σ V) (fails : ℕ → LayerOperation → Prop) :
    Prop where
  read : ∀ layer operation key s, (env.read layer operation key s).1 = none →
    fails layer operation
  getMany : ∀ layer keys s, (env.getMany layer keys s).1.isNone = true → fails layer .getMany
  has : ∀ layer key s, (env.has layer key s).1 = none → fails layer .has
  set : ∀ layer key s, (env.set layer key s).1 = none → fails layer .set
  delete : ∀ layer key s, (env.delete layer key s).1 = none → fails layer .delete

/-- The layer was skipped, it rejected, or it had nothing under the key that had not expired. -/
def Missed (log : List (Event V)) (key : String) (layer : ℕ) : Prop :=
  .skipped layer ∈ log ∨
    (∃ operation ∈ [LayerOperation.get, .getEntry, .getMany], .rejected layer operation ∈ log) ∨
    .missing layer key ∈ log ∨
    ∃ stored now, .found layer key stored now ∈ log ∧
      (resolveStoredValue now stored now).state = .expired

/-- The first layer that has an entry has been found, or there is none. -/
def Searched (layers : ℕ) (log : List (Event V)) (key : String) : Option (Reading V) → Prop
  | some hit => hit.layerIndex < layers ∧
      .found hit.layerIndex key hit.stored hit.now ∈ log ∧ hit.state ≠ .expired ∧
      ∀ layer < hit.layerIndex, Missed log key layer
  | none => ∀ layer < layers, Missed log key layer

/-- A value that stems from the fetcher, or is fresh in a layer by the time of the fetch. -/
def FromFetch (log : List (Event V)) (key : String) (value : Js V) : Prop :=
  (∃ layer stored now, .found layer key stored now ∈ log ∧
    (resolveStoredValue now stored now).state = .fresh ∧ value = hitValue now stored) ∨
  ∃ fetched, .fetched fetched ∈ log ∧
    (value = .ofFetched fetched ∨ value = .undefined ∧ ∀ v, fetched ≠ some (some v))

/-- What has been found is returned; otherwise the fetcher decides, or there is nothing. -/
def Decided (layers : ℕ) (log : List (Event V)) (key : String) (hasFetcher : Bool)
    (value : Js V) : Prop :=
  ∃ search, Searched layers log key search ∧
    match search with
    | some hit => value = hit.value ∨
        hit.state = .staleIfError ∧ hasFetcher = true ∧ FromFetch log key value
    | none => if hasFetcher then FromFetch log key value else value = .undefined

/-- A layer that was asked if it has the key did not have it, or did not answer. -/
def NotPresent (log : List (Event V)) (key : String) (layer : ℕ) : Prop :=
  .skipped layer ∈ log ∨
    (∃ operation ∈ [LayerOperation.has, .get], .rejected layer operation ∈ log) ∨
    .present layer key false ∈ log

def HasDecided (layers : ℕ) (log : List (Event V)) (key : String) : Bool → Prop
  | true => ∃ layer < layers, .present layer key true ∈ log
  | false => ∀ layer < layers, NotPresent log key layer

def Answered (layers : ℕ) (log : List (Event V)) : Read → Answer V → Prop
  | .get key hasFetcher, .get value => Decided layers log key hasFetcher value
  | .getEntry key, .getEntry hit => Searched layers log key hit
  | .has key, .has found => HasDecided layers log key found
  | .mget entries, .mget values => List.Forall₂
      (fun entry value => Decided layers log entry.key entry.fetch.isSome value) entries values
  | _, _ => False

/-- Whatever rejects among these operations, and whenever, no read rejects because of it, and each
answers with what the other layers have or the fetcher decides. -/
def DegradesFully (V : Type) (config : Config) (fails : ℕ → LayerOperation → Prop) : Prop :=
  ∀ (σ : Type) (env : Surroundings σ V), env.RejectsOnly fails → ∀ (read : Read) (s : σ),
    match (perform config env read).outcome ⟨s, []⟩ with
    | (.ok answer, run) => Answered config.layers run.log read answer
    | (.error error, _) => ∃ reason, error = .other reason

variable {α β : Type} {config : Config} {env : Surroundings σ V} {known log : List (Event V)}
  {p : Action σ V α} {f : α → Action σ V β} {Q Q' : α → List (Event V) → Prop}
  {R : β → List (Event V) → Prop}

/-- What is known from the log stays known, and no layer's rejection comes through. -/
def Safe (known : List (Event V)) (p : Action σ V α) (Q : α → List (Event V) → Prop) : Prop :=
  Program.Triple (fun run => known ⊆ run.log) p (fun a run => known ⊆ run.log ∧ Q a run.log)
    fun error run => known ⊆ run.log ∧ ∃ reason, error = .other reason

namespace Safe

theorem pure {a : α} (h : ∀ log, known ⊆ log → Q a log) :
    Safe known (pure a : Action σ V α) Q :=
  Program.Triple.pure fun run hknown => ⟨hknown, h run.log hknown⟩

theorem throw {reason : String} : Safe known (throw (.other reason) : Action σ V α) Q :=
  Program.Triple.throw fun _ hknown => ⟨hknown, reason, rfl⟩

theorem mono (h : Safe known p Q) (hQ : ∀ a log, known ⊆ log → Q a log → Q' a log) :
    Safe known p Q' :=
  Program.Triple.mono h (fun _ hs => hs) (fun a _ ⟨hknown, ha⟩ => ⟨hknown, hQ a _ hknown ha⟩)
    fun _ _ he => he

theorem weaken (h : Safe log p Q) (hknown : known ⊆ log) :
    Program.Triple (fun run => log ⊆ run.log) p (fun a run => known ⊆ run.log ∧ Q a run.log)
      fun error run => known ⊆ run.log ∧ ∃ reason, error = .other reason :=
  Program.Triple.mono h (fun _ hs => hs)
    (fun _ _ ⟨hlog, ha⟩ => ⟨List.Subset.trans hknown hlog, ha⟩)
    fun _ _ ⟨hlog, he⟩ => ⟨List.Subset.trans hknown hlog, he⟩

theorem bind (h : Safe known p Q)
    (hf : ∀ a log, known ⊆ log → Q a log → Safe log (f a) R) : Safe known (p >>= f) R := by
  apply Program.Triple.bind h
  rintro a run ⟨hknown, ha⟩
  exact (hf a run.log hknown ha).weaken hknown run (List.Subset.refl _)

theorem andThen (h : Safe known p fun _ _ => True)
    (hf : ∀ a log, known ⊆ log → Safe log (f a) R) : Safe known (p >>= f) R :=
  h.bind fun a log hknown _ => hf a log hknown

theorem ite {c : Prop} [Decidable c] {q : Action σ V α} (hp : c → Safe known p Q)
    (hq : ¬ c → Safe known q Q) : Safe known (if c then p else q) Q := by
  split
  case isTrue h => exact hp h
  case isFalse h => exact hq h

theorem attempt (h : Safe known p Q) :
    Safe known p.attempt fun r log => match r with
      | .ok a => Q a log
      | .error error => ∃ reason, error = .other reason := by
  apply Program.Triple.mono (Program.Triple.attempt h) (fun _ hs => hs) ?_ fun _ _ he => he
  intro r run hr
  cases r with
  | ok a => exact hr
  | error e => exact hr

theorem recover {E : Rejection → List (Event V) → Prop} {handler : Rejection → Action σ V α}
    (h : Program.Triple (fun run => known ⊆ run.log) p
      (fun a run => known ⊆ run.log ∧ Q a run.log) fun e run => known ⊆ run.log ∧ E e run.log)
    (hhandler : ∀ e log, known ⊆ log → E e log → Safe log (handler e) Q) :
    Safe known (p.recover handler) Q := by
  apply Program.Triple.recover h
  rintro e run ⟨hknown, he⟩
  exact (hhandler e run.log hknown he).weaken hknown run (List.Subset.refl _)

end Safe

theorem safe_call {answer : σ → α × σ} :
    Safe known (call answer : Action σ V α) fun _ _ => True :=
  Program.Triple.ask fun _ hknown => ⟨hknown, trivial⟩

theorem safe_note {event : Event V} :
    Safe known (note event : Action σ V Unit) fun _ log => event ∈ log :=
  Program.Triple.ask fun _ hknown =>
    ⟨fun _ h => List.mem_append_left _ (hknown h),
      List.mem_append_right _ (List.mem_singleton_self _)⟩

theorem safe_now : Safe known (now env) fun _ _ => True :=
  Program.Triple.ask fun _ hknown => ⟨hknown, trivial⟩

theorem safe_check (checkpoint : Checkpoint) :
    Safe known (check env checkpoint) fun _ _ => True := by
  apply safe_call.andThen
  intro refused log _
  cases refused with
  | none => exact .pure fun _ _ => trivial
  | some reason => exact .throw

theorem triple_callLayer {layer : ℕ} {operation : LayerOperation} {answer : σ → Option α × σ} :
    Program.Triple (fun run => known ⊆ run.log)
      (callLayer layer operation answer : Action σ V α)
      (fun a run => known ⊆ run.log ∧ ∃ s, (answer s).1 = some a)
      fun error run => known ⊆ run.log ∧ error = .layer layer operation ∧
        .rejected layer operation ∈ run.log ∧ ∃ s, (answer s).1 = none := by
  apply Program.Triple.bind (Q := fun r run => known ⊆ run.log ∧ ∃ s, (answer s).1 = r)
  · exact Program.Triple.ask fun run hknown => ⟨hknown, run.state, rfl⟩
  · intro r
    cases r with
    | none =>
      apply Program.Triple.bind (Q := fun _ run => known ⊆ run.log ∧
        .rejected layer operation ∈ run.log ∧ ∃ s, (answer s).1 = none)
      · exact Program.Triple.ask fun run hrun => ⟨fun _ h => List.mem_append_left _ (hrun.1 h),
          List.mem_append_right _ (List.mem_singleton_self _), hrun.2⟩
      · exact fun _ => Program.Triple.throw fun run hrun => ⟨hrun.1, rfl, hrun.2⟩
    | some a => exact Program.Triple.pure fun run hrun => hrun

theorem safe_callLayer {layer : ℕ} {operation : LayerOperation} {answer : σ → Option α × σ}
    (h : ∀ s, (answer s).1 ≠ none) :
    Safe known (callLayer layer operation answer : Action σ V α) fun _ _ => True := by
  apply Program.Triple.mono triple_callLayer (fun _ hs => hs)
  · exact fun _ _ hrun => ⟨hrun.1, trivial⟩
  · rintro error run ⟨-, -, -, s, hs⟩
    exact absurd hs (h s)

theorem safe_shouldSkipLayer (layer : ℕ) : Safe known (shouldSkipLayer env layer)
    fun skip log => skip = true → .skipped layer ∈ log := by
  apply safe_call.andThen
  intro skip log _
  apply Safe.ite
  · intro _
    apply safe_note.bind
    intro _ log' _ hskipped
    exact .pure fun log'' hlog _ => hlog hskipped
  · exact fun _ => .pure fun _ _ h => nomatch h

/-- The stack degrades, and its layers reject nothing that is not caught. -/
structure Sturdy (config : Config) (env : Surroundings σ V) : Prop where
  graceful : config.gracefulDegradation = true
  delete : ∀ layer < config.layers, ∀ key s, (env.delete layer key s).1 ≠ none
  getMany : ∀ layer < config.layers, config.implements layer .getMany = true →
    ∀ keys s, (env.getMany layer keys s).1.isNone = false

variable {layer : ℕ} {key : String} {mode : ReadMode}

theorem safe_handleLayerFailure (h : Sturdy config env) (error : Rejection) :
    Safe known (handleLayerFailure config env layer error) fun _ _ => True := by
  unfold handleLayerFailure
  rw [if_pos h.graceful]
  exact safe_call

/-- What a layer rejects is caught and degrades it. -/
theorem safe_recover_handle (h : Sturdy config env) {operation : LayerOperation}
    {answer : σ → Option Unit × σ} :
    Safe known ((callLayer layer operation answer).recover (handleLayerFailure config env layer))
      fun _ _ => True := by
  apply Safe.recover (E := fun _ _ => True)
  · apply Program.Triple.mono triple_callLayer (fun _ hs => hs)
    · exact fun _ _ hrun => ⟨hrun.1, trivial⟩
    · exact fun _ _ hrun => ⟨hrun.1, trivial⟩
  · exact fun e log _ _ => safe_handleLayerFailure h e

theorem safe_deleteFrom (h : Sturdy config env) (hlayer : layer < config.layers) :
    Safe known (deleteFrom env layer key) fun _ _ => True :=
  safe_callLayer (h.delete layer hlayer key)

theorem Missed.mono (h : Missed log key layer) {log' : List (Event V)} (hlog : log ⊆ log') :
    Missed log' key layer := by
  rcases h with hskipped | ⟨operation, hoperation, hrejected⟩ | hmissing |
    ⟨stored, now, hfound, hexpired⟩
  · exact .inl (hlog hskipped)
  · exact .inr (.inl ⟨operation, hoperation, hlog hrejected⟩)
  · exact .inr (.inr (.inl (hlog hmissing)))
  · exact .inr (.inr (.inr ⟨stored, now, hlog hfound, hexpired⟩))

theorem triple_callRead : Program.Triple (fun run => known ⊆ run.log)
    (callRead config env layer key)
    (fun r run => known ⊆ run.log ∧ (r = none → .missing layer key ∈ run.log))
    fun _ run => known ⊆ run.log ∧ ∃ operation ∈ [LayerOperation.get, .getEntry, .getMany],
      .rejected layer operation ∈ run.log := by
  unfold callRead
  apply Program.Triple.bind (Q := fun _ run => known ⊆ run.log)
  · apply Program.Triple.mono triple_callLayer (fun _ hs => hs)
    · exact fun _ _ hrun => hrun.1
    · rintro error run ⟨hknown, -, hrejected, -⟩
      refine ⟨hknown, _, ?_, hrejected⟩
      split <;> simp
  · intro r
    cases r with
    | none =>
      apply Program.Triple.bind (Q := fun _ run => known ⊆ run.log ∧ .missing layer key ∈ run.log)
      · exact Program.Triple.ask fun run hrun => ⟨fun _ h => List.mem_append_left _ (hrun h),
          List.mem_append_right _ (List.mem_singleton_self _)⟩
      · exact fun _ => Program.Triple.pure fun run hrun => ⟨hrun.1, fun _ => hrun.2⟩
    | some stored => exact Program.Triple.pure fun run hrun => ⟨hrun, fun h => nomatch h⟩

theorem safe_readLayerEntry (h : Sturdy config env) : Safe known
    (readLayerEntry config env layer key) fun r log => r = none → Missed log key layer := by
  apply (safe_shouldSkipLayer layer).bind
  intro skip log _ hskipped
  apply Safe.ite
  · exact fun hskip => .pure fun log' hlog _ => .inl (hlog (hskipped hskip))
  · intro _
    apply Safe.recover (E := fun _ log => ∃ operation ∈ [LayerOperation.get, .getEntry, .getMany],
      .rejected layer operation ∈ log)
    · apply Program.Triple.mono triple_callRead (fun _ hs => hs)
      · exact fun r run hrun => ⟨hrun.1, fun hr => .inr (.inr (.inl (hrun.2 hr)))⟩
      · exact fun _ _ hrun => hrun
    · rintro e log' hlog ⟨operation, hoperation, hrejected⟩
      apply (safe_handleLayerFailure h e).andThen
      exact fun _ log'' hlog' => .pure fun _ hmore _ =>
        .inr (.inl ⟨operation, hoperation, hmore (hlog' hrejected)⟩)

theorem safe_resolve {stored : Stored V} : Safe known (resolve env layer key stored)
    fun hit log => hit.layerIndex = layer ∧ .found layer key hit.stored hit.now ∈ log := by
  apply safe_now.andThen
  intro now log _
  apply safe_note.bind
  exact fun _ log' _ hfound => .pure fun _ hlog => ⟨rfl, hlog hfound⟩

theorem safe_all {ι : Type} {items : List ι} {action : ι → Action σ V α}
    {S : ι → α → List (Event V) → Prop}
    (hmono : ∀ i a log log', log ⊆ log' → S i a log → S i a log')
    (h : ∀ i ∈ items, ∀ known, Safe known (action i) (S i)) :
    Safe known (Program.all (items.map action))
      fun as log => List.Forall₂ (fun i a => S i a log) items as := by
  induction items generalizing known with
  | nil => exact .pure fun _ _ => .nil
  | cons i items ih =>
    apply (h i List.mem_cons_self known).attempt.bind
    intro first log _ hfirst
    apply (ih fun i hi => h i (List.mem_cons_of_mem _ hi)).attempt.bind
    intro rest log' hlog hrest
    cases first with
    | error e =>
      obtain ⟨reason, rfl⟩ := hfirst
      exact .throw
    | ok a =>
      cases rest with
      | error e =>
        obtain ⟨reason, rfl⟩ := hrest
        exact .throw
      | ok as =>
        refine .pure fun log'' hlog' => .cons ?_ ?_
        · exact hmono i a log log'' (List.Subset.trans hlog hlog') hfirst
        · exact hrest.imp fun i a => hmono i a log' log'' hlog'

theorem safe_all_unit {ι : Type} {items : List ι} {action : ι → Action σ V Unit}
    (h : ∀ i ∈ items, ∀ known, Safe known (action i) fun _ _ => True) :
    Safe known (Program.all (items.map action)) fun _ _ => True :=
  (safe_all (fun _ _ _ _ _ _ => trivial) h).mono fun _ _ _ _ => trivial

theorem safe_activeLayers (layers : List ℕ) :
    Safe known (activeLayers env layers) fun active _ => active ⊆ layers := by
  induction layers generalizing known with
  | nil => exact .pure fun _ _ => List.Subset.refl _
  | cons layer layers ih =>
    apply (safe_shouldSkipLayer layer).bind
    intro skip log _ _
    apply Safe.ite
    · exact fun _ => ih.mono fun _ _ _ h => List.subset_cons_of_subset layer h
    · intro _
      apply ih.bind
      exact fun active _ _ hactive => .pure fun _ _ => List.cons_subset_cons layer hactive

theorem safe_setLayer (h : Sturdy config env) :
    Safe known (setLayer config env layer key) fun _ _ => True :=
  safe_recover_handle h

theorem safe_runAll {ι : Type} {items : List ι} {action : ι → Action σ V Unit}
    (h : ∀ i ∈ items, ∀ known, Safe known (action i) fun _ _ => True) :
    Safe known (runAll (items.map action)) fun _ _ => True := by
  apply (safe_all_unit h).andThen
  exact fun _ _ _ => .pure fun _ _ => trivial

theorem safe_runFencedWrite {operation cleanup : Action σ V Unit}
    (hoperation : ∀ known, Safe known operation fun _ _ => True)
    (hcleanup : ∀ known, Safe known cleanup fun _ _ => True) :
    Safe known (runFencedWrite env key operation cleanup) fun _ _ => True := by
  apply (safe_check .admission).andThen
  intro _ log _
  apply safe_call.andThen
  intro outdated log _
  apply Safe.ite
  · exact fun _ => .pure fun _ _ => trivial
  intro _
  apply (hoperation log).andThen
  intro _ log _
  apply safe_call.andThen
  intro outdated log _
  apply Safe.ite
  · exact fun _ => (hcleanup log).andThen fun _ _ _ => .pure fun _ _ => trivial
  · exact fun _ => .pure fun _ _ => trivial

theorem safe_backfill (h : Sturdy config env) {upTo : ℕ} (hupTo : upTo ≤ config.layers) :
    Safe known (backfill config env key upTo) fun _ _ => True := by
  apply Safe.ite
  · exact fun _ => .pure fun _ _ => trivial
  intro _
  apply (safe_activeLayers _).bind
  intro active log _ _
  have hset : ∀ layer ∈ active, ∀ known,
      Safe known (setLayer config env layer key) fun _ _ => True := fun _ _ _ => safe_setLayer h
  have hdelete : ∀ layer ∈ List.range upTo, ∀ known,
      Safe known (deleteFrom env layer key) fun _ _ => True := fun layer hlayer _ =>
    safe_deleteFrom h ((List.mem_range.mp hlayer).trans_le hupTo)
  apply (safe_runFencedWrite (fun _ => safe_runAll hset) fun _ => safe_runAll hdelete).andThen
  exact fun _ _ _ => .pure fun _ _ => trivial

/-- The search has found the first of the layers that has an entry, or none has. -/
def SearchedIn (todo : List ℕ) (log : List (Event V)) (key : String) :
    Option (Reading V) → Prop
  | some hit => hit.layerIndex ∈ todo ∧
      .found hit.layerIndex key hit.stored hit.now ∈ log ∧ hit.state ≠ .expired ∧
      ∀ layer ∈ todo, layer < hit.layerIndex → Missed log key layer
  | none => ∀ layer ∈ todo, Missed log key layer

theorem SearchedIn.range {layers : ℕ} {search : Option (Reading V)}
    (h : SearchedIn (List.range layers) log key search) : Searched layers log key search := by
  cases search with
  | none => exact fun layer hlayer => h layer (List.mem_range.mpr hlayer)
  | some hit =>
    obtain ⟨hmem, hfound, hstate, hmissed⟩ := h
    have hlt := List.mem_range.mp hmem
    exact ⟨hlt, hfound, hstate, fun layer hlayer =>
      hmissed layer (List.mem_range.mpr (hlayer.trans hlt)) hlayer⟩

/-- A layer that has nothing is passed over. -/
theorem SearchedIn.cons {todo : List ℕ} {search : Option (Reading V)}
    (h : SearchedIn todo log key search) (hmissed : Missed log key layer) :
    SearchedIn (layer :: todo) log key search := by
  cases search with
  | none =>
    intro l hl
    rcases List.mem_cons.mp hl with rfl | hl
    · exact hmissed
    · exact h l hl
  | some hit =>
    obtain ⟨hmem, hfound, hstate, hrest⟩ := h
    refine ⟨List.mem_cons_of_mem _ hmem, hfound, hstate, fun l hl hlt => ?_⟩
    rcases List.mem_cons.mp hl with rfl | hl
    · exact hmissed
    · exact hrest l hl hlt

theorem SearchedIn.mono {todo : List ℕ} {search : Option (Reading V)}
    (h : SearchedIn todo log key search) {log' : List (Event V)} (hlog : log ⊆ log') :
    SearchedIn todo log' key search := by
  cases search with
  | none => exact fun layer hlayer => (h layer hlayer).mono hlog
  | some hit =>
    obtain ⟨hmem, hfound, hstate, hmissed⟩ := h
    exact ⟨hmem, hlog hfound, hstate, fun layer hlayer hlt => (hmissed layer hlayer hlt).mono hlog⟩

theorem SearchedIn.first {todo : List ℕ} {hit : Reading V}
    (hsorted : (layer :: todo).Pairwise (· < ·)) (hlayer : hit.layerIndex = layer)
    (hfound : .found layer key hit.stored hit.now ∈ log) (hstate : hit.state ≠ .expired) :
    SearchedIn (layer :: todo) log key (some hit) := by
  subst hlayer
  refine ⟨List.mem_cons_self, hfound, hstate, fun l hl hlt => ?_⟩
  rcases List.mem_cons.mp hl with rfl | hl
  · exact absurd hlt (lt_irrefl _)
  · exact absurd hlt (List.rel_of_pairwise_cons hsorted hl).not_gt

/-- What a search is to have found, for fresh entries only or for any. -/
def FoundIn (mode : ReadMode) (todo : List ℕ) (log : List (Event V)) (key : String)
    (search : Option (Reading V)) : Prop :=
  match mode with
  | .allowStale => SearchedIn todo log key search
  | .freshOnly => ∀ hit ∈ search, .found hit.layerIndex key hit.stored hit.now ∈ log ∧
      hit.state = .fresh

theorem FoundIn.cons {todo : List ℕ} {search : Option (Reading V)}
    (h : FoundIn mode todo log key search) (hmissed : Missed log key layer) :
    FoundIn mode (layer :: todo) log key search := by
  cases mode with
  | allowStale => exact SearchedIn.cons h hmissed
  | freshOnly => exact h

theorem missed_of_expired {hit : Reading V}
    (hfound : .found layer key hit.stored hit.now ∈ log) (hexpired : hit.state = .expired) :
    Missed log key layer :=
  .inr (.inr (.inr ⟨hit.stored, hit.now, hfound, hexpired⟩))

theorem safe_readFromLayers (h : Sturdy config env) (mode : ReadMode) {todo : List ℕ}
    (hsorted : todo.Pairwise (· < ·)) (htodo : ∀ layer ∈ todo, layer < config.layers)
    (sawRetainableValue : Bool) :
    Safe known (readFromLayers config env key mode todo sawRetainableValue)
      fun search log => FoundIn mode todo log key search := by
  induction todo generalizing known sawRetainableValue with
  | nil =>
    have hnone : ∀ log : List (Event V), FoundIn mode [] log key none := by
      intro log
      cases mode with
      | allowStale => exact fun layer hlayer => nomatch hlayer
      | freshOnly => exact fun hit hhit => nomatch hhit
    apply Safe.ite
    · exact fun _ => .pure fun log _ => hnone log
    · intro _
      apply (safe_check .index).andThen
      exact fun _ _ _ => .pure fun log _ => hnone log
  | cons layer todo ih =>
    have hlayer : layer < config.layers := htodo layer List.mem_cons_self
    have hrest : ∀ l ∈ todo, l < config.layers := fun l hl =>
      htodo l (List.mem_cons_of_mem _ hl)
    have hnext := fun {known : List (Event V)} => @ih known hsorted.of_cons hrest
    apply (safe_readLayerEntry h).bind
    intro stored log _ hmissing
    cases stored with
    | none =>
      apply (hnext sawRetainableValue).mono
      exact fun search log' hlog hfound => hfound.cons ((hmissing rfl).mono hlog)
    | some stored =>
      apply safe_resolve.bind
      rintro hit log' - ⟨hindex, hfound⟩
      apply Safe.ite
      · intro hexpired
        apply (safe_deleteFrom h hlayer).andThen
        intro _ log'' hlog
        apply (hnext sawRetainableValue).mono
        exact fun search last hlast hnext =>
          hnext.cons (missed_of_expired (hlast (hlog hfound)) hexpired)
      intro hexpired
      apply Safe.ite
      · rintro ⟨rfl, -⟩
        exact (hnext true).mono fun _ _ _ hnext => hnext
      intro hfresh
      apply (safe_check .index).andThen
      intro _ log'' hlog
      apply (safe_backfill h hlayer.le).andThen
      intro _ later hlater
      refine .pure fun last hlast => ?_
      have hmem : .found layer key hit.stored hit.now ∈ last := hlast (hlater (hlog hfound))
      cases mode with
      | allowStale => exact SearchedIn.first hsorted hindex hmem hexpired
      | freshOnly =>
        intro other hother
        cases hother
        refine ⟨hindex ▸ hmem, ?_⟩
        by_contra hstale
        exact hfresh ⟨rfl, hstale⟩

theorem safe_getEntry (h : Sturdy config env) {todo : List ℕ} (hsorted : todo.Pairwise (· < ·))
    (htodo : ∀ layer ∈ todo, layer < config.layers) (sawRetainableValue : Bool) :
    Safe known (getEntry config env key todo sawRetainableValue)
      fun search log => SearchedIn todo log key search := by
  induction todo generalizing known sawRetainableValue with
  | nil =>
    have hnone : ∀ log : List (Event V), SearchedIn [] log key none :=
      fun _ layer hlayer => nomatch hlayer
    apply Safe.ite
    · exact fun _ => .pure fun log _ => hnone log
    · intro _
      apply (safe_check .index).andThen
      exact fun _ _ _ => .pure fun log _ => hnone log
  | cons layer todo ih =>
    have hlayer : layer < config.layers := htodo layer List.mem_cons_self
    have hrest : ∀ l ∈ todo, l < config.layers := fun l hl =>
      htodo l (List.mem_cons_of_mem _ hl)
    have hnext := fun {known : List (Event V)} => @ih known hsorted.of_cons hrest
    apply (safe_shouldSkipLayer layer).bind
    intro skip log _ hskipped
    apply Safe.ite
    · intro hskip
      apply (hnext sawRetainableValue).mono
      exact fun search log' hlog hnext => hnext.cons (.inl (hlog (hskipped hskip)))
    intro _
    apply (safe_readLayerEntry h).bind
    intro stored log _ hmissing
    cases stored with
    | none =>
      apply (hnext sawRetainableValue).mono
      exact fun search log' hlog hnext => hnext.cons ((hmissing rfl).mono hlog)
    | some stored =>
      apply safe_resolve.bind
      rintro hit log' - ⟨hindex, hfound⟩
      apply Safe.ite
      · intro hexpired
        apply (safe_deleteFrom h hlayer).andThen
        intro _ log'' hlog
        apply (hnext sawRetainableValue).mono
        exact fun search last hlast hnext =>
          hnext.cons (missed_of_expired (hlast (hlog hfound)) hexpired)
      · intro hexpired
        apply (safe_check .index).andThen
        intro _ log'' hlog
        apply (safe_backfill h hlayer.le).andThen
        intro _ later hlater
        exact .pure fun last hlast =>
          SearchedIn.first hsorted hindex (hlast (hlater (hlog hfound))) hexpired

theorem triple_callHas : Program.Triple (fun run => known ⊆ run.log)
    (callHas config env layer key)
    (fun found run => known ⊆ run.log ∧ .present layer key found ∈ run.log)
    fun _ run => known ⊆ run.log ∧
      ∃ operation ∈ [LayerOperation.has, .get], .rejected layer operation ∈ run.log := by
  have hnoted : ∀ operation ∈ [LayerOperation.has, .get], ∀ {α : Type} (answer : σ → Option α × σ),
      Program.Triple (fun run => known ⊆ run.log)
        (callLayer layer operation answer : Action σ V α) (fun _ run => known ⊆ run.log)
        fun _ run => known ⊆ run.log ∧
          ∃ operation ∈ [LayerOperation.has, .get], .rejected layer operation ∈ run.log := by
    intro operation hoperation α answer
    apply Program.Triple.mono triple_callLayer (fun _ hs => hs)
    · exact fun _ _ hrun => hrun.1
    · exact fun _ _ hrun => ⟨hrun.1, operation, hoperation, hrun.2.2.1⟩
  have hanswer : Program.Triple (fun run => known ⊆ run.log)
      (askHas config env layer key) (fun _ run => known ⊆ run.log)
      fun _ run => known ⊆ run.log ∧
        ∃ operation ∈ [LayerOperation.has, .get], .rejected layer operation ∈ run.log := by
    apply Program.Triple.ite
    · exact fun _ => hnoted .has (by simp) _
    · exact fun _ => (hnoted .get (by simp) _).bind fun _ => Program.Triple.pure fun _ hs => hs
  apply hanswer.bind
  intro found
  apply Program.Triple.bind (Q := fun _ run => known ⊆ run.log ∧
    .present layer key found ∈ run.log)
  · exact Program.Triple.ask fun run hrun => ⟨fun _ h => List.mem_append_left _ (hrun h),
      List.mem_append_right _ (List.mem_singleton_self _)⟩
  · exact fun _ => Program.Triple.pure fun _ hrun => hrun

theorem NotPresent.mono (h : NotPresent log key layer) {log' : List (Event V)}
    (hlog : log ⊆ log') : NotPresent log' key layer := by
  rcases h with hskipped | ⟨operation, hoperation, hrejected⟩ | habsent
  · exact .inl (hlog hskipped)
  · exact .inr (.inl ⟨operation, hoperation, hlog hrejected⟩)
  · exact .inr (.inr (hlog habsent))

def HasIn (todo : List ℕ) (log : List (Event V)) (key : String) : Bool → Prop
  | true => ∃ layer ∈ todo, .present layer key true ∈ log
  | false => ∀ layer ∈ todo, NotPresent log key layer

theorem HasIn.mono {todo : List ℕ} {found : Bool} (h : HasIn todo log key found)
    {log' : List (Event V)} (hlog : log ⊆ log') : HasIn todo log' key found := by
  cases found with
  | true =>
    obtain ⟨layer, hlayer, hpresent⟩ := h
    exact ⟨layer, hlayer, hlog hpresent⟩
  | false => exact fun layer hlayer => (h layer hlayer).mono hlog

theorem HasIn.cons {todo : List ℕ} {found : Bool} (h : HasIn todo log key found)
    (habsent : NotPresent log key layer) : HasIn (layer :: todo) log key found := by
  cases found with
  | true =>
    obtain ⟨l, hl, hpresent⟩ := h
    exact ⟨l, List.mem_cons_of_mem _ hl, hpresent⟩
  | false =>
    intro l hl
    rcases List.mem_cons.mp hl with rfl | hl
    · exact habsent
    · exact h l hl

theorem safe_has (h : Sturdy config env) (todo : List ℕ) :
    Safe known (has config env key todo) fun found log => HasIn todo log key found := by
  induction todo generalizing known with
  | nil => exact .pure fun _ _ layer hlayer => nomatch hlayer
  | cons layer todo ih =>
    apply (safe_shouldSkipLayer layer).bind
    intro skip log _ hskipped
    apply Safe.ite
    · exact fun hskip => ih.mono fun _ _ hlog hnext => hnext.cons (.inl (hlog (hskipped hskip)))
    intro _
    have hanswer : Safe log ((callHas config env layer key).recover fun error => do
        reportRecoverableLayerFailure config env layer error
        pure false) fun found log => if found = true then .present layer key true ∈ log
          else NotPresent log key layer := by
      apply Safe.recover (E := fun _ log =>
        ∃ operation ∈ [LayerOperation.has, .get], .rejected layer operation ∈ log)
      · apply Program.Triple.mono triple_callHas (fun _ hs => hs)
        · rintro found run ⟨hknown, hpresent⟩
          cases found with
          | true => exact ⟨hknown, hpresent⟩
          | false => exact ⟨hknown, .inr (.inr hpresent)⟩
        · exact fun _ _ hrun => hrun
      · rintro error log' - ⟨operation, hoperation, hrejected⟩
        unfold reportRecoverableLayerFailure
        rw [if_pos h.graceful]
        apply (safe_handleLayerFailure h error).andThen
        exact fun _ log'' hlog => .pure fun _ hmore =>
          .inr (.inl ⟨operation, hoperation, hmore (hlog hrejected)⟩)
    apply hanswer.bind
    intro found log' _ hfound
    cases found with
    | true => exact .pure fun _ hlog => ⟨layer, List.mem_cons_self, hlog hfound⟩
    | false => exact ih.mono fun _ _ hlog hnext => hnext.cons (NotPresent.mono hfound hlog)

end LayerCache.Degradation
