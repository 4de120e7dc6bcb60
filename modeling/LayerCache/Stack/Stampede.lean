import LayerCache.Stack.Waiting
import LayerCache.StoredValue.Renewal

/-! # Stampedes

Any number of `get` calls for one key, which no layer holds at first, while nothing is
invalidated and only fetches write the key. `fetches` records the steps at which a fetcher
of the key began, and `yielded` what the first of them stored; they decide nothing. Every
entry of the key, in a layer or on its way into one, is then a copy of that value.
-/

namespace LayerCache

open Store Transition

variable {K V T : Type} {cfg : Config} {key : K} {until' now : Millis}

/-- In every layer the value stays fresh; before the last one it may also run out, if it is never
stale there. -/
def WriteValue.StaysFresh (write : WriteValue V) (layers : ℕ) (now until' : Millis) : Prop :=
  ∀ l < layers, (write.windows l).FreshUntil now until' ∨
    (l + 1 < layers ∧ (write.windows l).NoStale)

/-- Every layer is handed an envelope that readers recognise. -/
def WriteValue.Recognisable (write : WriteValue V) (layers : ℕ) : Prop :=
  ∀ l < layers, (write.windows l).Recognisable

instance (write : WriteValue V) (layers : ℕ) (now until' : Millis) :
    Decidable (write.StaysFresh layers now until') := by
  unfold WriteValue.StaysFresh
  infer_instance

instance (write : WriteValue V) (layers : ℕ) : Decidable (write.Recognisable layers) := by
  unfold WriteValue.Recognisable
  infer_instance

theorem WriteValue.lasting_staysFresh (layers : ℕ) :
    (lasting : WriteValue V).StaysFresh layers now until' :=
  fun _ _ => .inl (by simp [Windows.FreshUntil, lasting, normalizePositiveMs])

theorem WriteValue.lasting_recognisable (layers : ℕ) :
    (lasting : WriteValue V).Recognisable layers :=
  fun _ _ => ⟨by simp [lasting, normalizePositiveMs], by simp [lasting, normalizePositiveMs],
    by simp [lasting, normalizePositiveMs]⟩

/-- The step at which the fetcher began that the task is running. -/
def TaskPhase.fetchedAt : TaskPhase V → Option ℕ
  | .fetching born => some born
  | _ => none

/-- A layer that is handed this expiry now keeps the entry until after the time. -/
def Lasts (until' now : Millis) (ttl : Option Millis) : Prop :=
  ∀ x ∈ ttl, 0 < x → until' < now + x

structure StampedeStack (K V T : Type) where
  stack : Stack K V T
  fetches : List ℕ
  yielded : Option (WriteValue V)

namespace Stack

/-- No layer fails, no invalidation begins, the key's reads and tasks meet no limit, the time stays
within the run, and only fetches write the key. -/
def Undisturbed [DecidableEq K] (key : K) (until' : Millis) (s : Stack K V T) :
    Action K V T → Prop
  | .fault _ | .invalidate _ => False
  | .store (.tick d) => s.store.now + d ≤ until'
  | .read (.refuse r) => ∀ reader ∈ s.readers r, reader.key ≠ key
  | .get (.giveUp i) => ∀ task ∈ s.tasks i, task.key ≠ key
  | .write (.set k _ _) => k ≠ key
  | .write (.mset entries) => ∀ e ∈ entries, e.1.key ≠ key
  | _ => True

instance [DecidableEq K] (s : Stack K V T) : DecidablePred (s.Undisturbed key until') := fun a => by
  induction a using Action.casesOn with
  | store a => induction a using StoreAction.casesOn <;> (unfold Undisturbed; infer_instance)
  | read a => induction a using ReadAction.casesOn <;> (unfold Undisturbed; infer_instance)
  | write a => induction a using WriteAction.casesOn <;> (unfold Undisturbed; infer_instance)
  | get a => induction a using GetAction.casesOn <;> (unfold Undisturbed; infer_instance)
  | _ => exact isFalse id

theorem Serves.undisturbed [DecidableEq K] {s : Stack K V T} {g : ℕ} {get : Get K V}
    {a : Action K V T} (h : s.Serves g get a) : s.Undisturbed key until' a := by
  cases h with
  | @caller a ha => cases a <;> trivial
  | @task a i fallback hwaiting ha => cases a <;> trivial
  | @reader a r hr ha => cases a <;> trivial
  | @writer a w hw ha => cases a <;> trivial
  | @order a t u ht hbehind ha => cases a <;> trivial

theorem Undisturbed.keeping [DecidableEq K] {s : Stack K V T} {a : Action K V T}
    (h : s.Undisturbed key until' a) : s.Keeping a := by
  cases a with
  | fault a | invalidate a => cases h
  | store a | read a | write a | get a => trivial

end Stack

namespace StampedeStack

def initial (now : Millis) (contents : ℕ → K → Option (Stored V × Option Millis)) :
    StampedeStack K V T where
  stack := .initial now contents
  fetches := []
  yielded := none

variable [DecidableEq K]

def firstFetch (key : K) (s : StampedeStack K V T) (i : ℕ) : Bool :=
  (s.stack.tasks i).any fun task =>
    task.key = key && task.phase.fetchedAt.isSome && task.phase.fetchedAt = s.fetches.head?

def observe (key : K) (s : StampedeStack K V T) : Action K V T → StampedeStack K V T
  | .get (.fetch i) =>
    if (s.stack.tasks i).any fun task => task.key = key then
      { s with fetches := s.fetches ++ [s.stack.clock] }
    else s
  | .get (.fetched i (.store write _)) =>
    if s.firstFetch key i then { s with yielded := some write } else s
  | _ => s

variable [DecidableEq T]

def step (cfg : Config) (key : K) (s : StampedeStack K V T) (a : Action K V T) :
    Option (StampedeStack K V T) :=
  (s.stack.step cfg a).map fun stack => { s.observe key a with stack }

omit [DecidableEq T] in
/-- The first fetch of the key yields a value that is cached and stays fresh. -/
def YieldsFresh (cfg : Config) (key : K) (until' : Millis) (s : StampedeStack K V T) :
    Action K V T → Prop
  | .get (.fetched i outcome) => s.firstFetch key i = true →
    match outcome with
    | .store write _ => write.StaysFresh cfg.layers s.stack.store.now until'
    | _ => False
  | _ => True

omit [DecidableEq T] in
/-- What the first fetch of the key yields is handed to the layers in recognisable envelopes. -/
def YieldsRecognisable (cfg : Config) (key : K) (s : StampedeStack K V T) : Action K V T → Prop
  | .get (.fetched i (.store write _)) =>
    s.firstFetch key i = true → write.Recognisable cfg.layers
  | _ => True

structure StaysCached (cfg : Config) (key : K) (until' : Millis) (s : StampedeStack K V T)
    (a : Action K V T) : Prop where
  undisturbed : s.stack.Undisturbed key until' a
  fresh : s.YieldsFresh cfg key until' a

structure StaysReadable (cfg : Config) (key : K) (until' : Millis) (s : StampedeStack K V T)
    (a : Action K V T) : Prop extends s.StaysCached cfg key until' a where
  recognisable : s.YieldsRecognisable cfg key a

/-- The fetcher has run at most once, no caller has failed, those that are through have what it
yielded, and those that are not wait for a step that such a run can take. -/
structure Protected (cfg : Config) (key : K) (until' : Millis) (s : StampedeStack K V T) :
    Prop where
  once : s.fetches.length ≤ 1
  served : ∀ g get, s.stack.gets g = some get → get.key = key → get.Calls →
    get.phase ≠ .failed ∧ ∀ answer, get.phase = .done answer →
      ∃ write ∈ s.yielded, answer.value = write.answer
  awaited : ∀ g get, s.stack.gets g = some get → get.key = key → get.Calls →
    (∀ answer, get.phase ≠ .done answer) → ∃ a, s.stack.Serves g get a ∧
      s.StaysReadable cfg key until' a ∧ (s.step cfg key a).isSome = true

omit [DecidableEq T] in
instance (s : StampedeStack K V T) : DecidablePred (s.YieldsFresh cfg key until') := fun a => by
  induction a using Action.casesOn with
  | get a =>
    induction a using GetAction.casesOn with
    | fetched i outcome =>
      refine @instDecidableForall _ _ _ ?_
      induction outcome using Outcome.casesOn <;> infer_instance
    | _ => exact isTrue trivial
  | _ => exact isTrue trivial

omit [DecidableEq T] in
instance (s : StampedeStack K V T) : DecidablePred (s.YieldsRecognisable cfg key) := fun a => by
  induction a using Action.casesOn with
  | get a =>
    induction a using GetAction.casesOn with
    | fetched i outcome =>
      induction outcome using Outcome.casesOn <;> (unfold YieldsRecognisable; infer_instance)
    | _ => exact isTrue trivial
  | _ => exact isTrue trivial

omit [DecidableEq T] in
instance (s : StampedeStack K V T) : DecidablePred (s.StaysCached cfg key until') := fun a =>
  decidable_of_iff (s.stack.Undisturbed key until' a ∧ s.YieldsFresh cfg key until' a)
    ⟨fun ⟨hu, hf⟩ => ⟨hu, hf⟩, fun ⟨hu, hf⟩ => ⟨hu, hf⟩⟩

omit [DecidableEq T] in
instance (s : StampedeStack K V T) : DecidablePred (s.StaysReadable cfg key until') := fun a =>
  decidable_of_iff (s.StaysCached cfg key until' a ∧ s.YieldsRecognisable cfg key a)
    ⟨fun ⟨hc, hr⟩ => ⟨hc, hr⟩, fun ⟨hc, hr⟩ => ⟨hc, hr⟩⟩

/-- A recognised envelope of the value, which layer `l` keeps fresh or at least not stale. -/
def IsCopy (cfg : Config) (until' : Millis) (s : StampedeStack K V T) (l : ℕ)
    (stored : Stored V) : Prop :=
  ∃ write ∈ s.yielded, ∃ (w : Windows) (t : Millis), w.Recognisable ∧ t ≤ s.stack.store.now ∧
    (w.FreshUntil t until' ∨ (l + 1 < cfg.layers ∧ w.NoStale)) ∧
    stored = .envelope (createStoredValueEnvelope write.kind write.value w t)

def IsAnswer (s : StampedeStack K V T) (value : Js V) : Prop :=
  ∃ write ∈ s.yielded, value = write.answer

structure IsHit (cfg : Config) (until' : Millis) (s : StampedeStack K V T) (hit : Hit V) :
    Prop where
  copy : s.IsCopy cfg until' hit.layerIndex hit.item.stored
  answer : s.IsAnswer hit.value
  fresh : hit.state = .fresh
  layer : hit.layerIndex < cfg.layers

/-- A write of a copy, which the last layer keeps until after the run. -/
structure Delivers (cfg : Config) (until' : Millis) (s : StampedeStack K V T) (l : ℕ)
    (stored : Stored V) (ttl : Option Millis) : Prop where
  copy : s.IsCopy cfg until' l stored
  lasts : ¬ l + 1 < cfg.layers → Lasts until' s.stack.store.now ttl

/-- A read has copies in hand, and it finds an expired one before the last layer only. -/
def ReadsCopies (cfg : Config) (until' : Millis) (s : StampedeStack K V T) (reader : Reader K V) :
    Prop :=
  match reader.phase with
  | .loaded (some item) => s.IsCopy cfg until' reader.index item.stored
  | .purging => reader.index + 1 < cfg.layers
  | .touched hit | .backfilling hit _ | .done (some hit) => s.IsHit cfg until' hit
  | .failed => False
  | _ => True

/-- A `get` is never left with a stale value, and returns the one of the first fetch. -/
def GetsCopies (cfg : Config) (until' : Millis) (s : StampedeStack K V T) (get : Get K V) : Prop :=
  match get.phase with
  | .sliding answer todo stored ttl _ =>
    s.IsAnswer answer.value ∧ ∀ l ∈ todo, s.Delivers cfg until' l stored.stored ttl
  | .entering fallback | .waiting _ fallback => fallback = none
  | .done answer => get.options.hasFetcher = true → s.IsAnswer answer.value
  | .reading => True
  | .failed => False

def YieldsCopies (s : StampedeStack K V T) (task : Task K V) : Prop :=
  match task.phase with
  | .storing _ answer => s.IsAnswer answer.value
  | .resolved result => ∃ answer ∈ result, s.IsAnswer answer.value
  | _ => True

/-- All there is of the key stems from the first fetch. -/
structure Copies (cfg : Config) (key : K) (until' : Millis) (s : StampedeStack K V T) : Prop where
  now : s.stack.store.now ≤ until'
  cells : ∀ l < cfg.layers, ∀ item, s.stack.store.visible l key = some item →
    s.IsCopy cfg until' l item.stored
  readers : ∀ r reader, s.stack.readers r = some reader → reader.key = key →
    s.ReadsCopies cfg until' reader
  gets : ∀ g get, s.stack.gets g = some get → get.key = key → s.GetsCopies cfg until' get
  tasks : ∀ i task, s.stack.tasks i = some task → task.key = key → s.YieldsCopies task
  orders : ∀ t o p, s.stack.store.orders t = some o → o.Writes p → p.key = key →
    s.Delivers cfg until' p.layer p.item.stored p.ttl

/-- Time has passed, and what has been yielded has been yielded. -/
structure Later (s s' : StampedeStack K V T) : Prop where
  now : s.stack.store.now ≤ s'.stack.store.now
  yielded : ∀ write ∈ s.yielded, write ∈ s'.yielded

variable {s s' : StampedeStack K V T} {l : ℕ} {stored : Stored V} {ttl : Option Millis}
  {hit : Hit V} {reader reader' : Reader K V} {get : Get K V} {task : Task K V} {value : Js V}

section

omit [DecidableEq K] [DecidableEq T]

theorem IsCopy.later (h : s.IsCopy cfg until' l stored) (hlater : s.Later s') :
    s'.IsCopy cfg until' l stored := by
  obtain ⟨write, hwrite, w, t, hw, ht, hfresh, rfl⟩ := h
  exact ⟨write, hlater.yielded write hwrite, w, t, hw, ht.trans hlater.now, hfresh, rfl⟩

theorem IsAnswer.later (h : s.IsAnswer value) (hlater : s.Later s') : s'.IsAnswer value := by
  obtain ⟨write, hwrite, rfl⟩ := h
  exact ⟨write, hlater.yielded write hwrite, rfl⟩

theorem IsHit.later (h : s.IsHit cfg until' hit) (hlater : s.Later s') :
    s'.IsHit cfg until' hit where
  copy := h.copy.later hlater
  answer := h.answer.later hlater
  fresh := h.fresh
  layer := h.layer

theorem Delivers.later (h : s.Delivers cfg until' l stored ttl) (hlater : s.Later s') :
    s'.Delivers cfg until' l stored ttl where
  copy := h.copy.later hlater
  lasts hl x hx hpos := by
    have := h.lasts hl x hx hpos
    have := hlater.now
    linarith

theorem ReadsCopies.later (h : s.ReadsCopies cfg until' reader) (hlater : s.Later s') :
    s'.ReadsCopies cfg until' reader := by
  unfold ReadsCopies at h ⊢
  split at h
  · exact h.later hlater
  · exact h
  · exact h.later hlater
  · exact h.later hlater
  · exact h.later hlater
  · exact h
  · trivial

theorem GetsCopies.later (h : s.GetsCopies cfg until' get) (hlater : s.Later s') :
    s'.GetsCopies cfg until' get := by
  unfold GetsCopies at h ⊢
  split at h
  · exact ⟨h.1.later hlater, fun l hl => (h.2 l hl).later hlater⟩
  · exact h
  · exact h
  · exact fun hfetcher => (h hfetcher).later hlater
  · trivial
  · exact h

theorem YieldsCopies.later (h : s.YieldsCopies task) (hlater : s.Later s') :
    s'.YieldsCopies task := by
  unfold YieldsCopies at h ⊢
  split at h
  · exact h.later hlater
  · obtain ⟨answer, hanswer, h⟩ := h
    exact ⟨answer, hanswer, h.later hlater⟩
  · trivial

theorem IsCopy.down (h : s.IsCopy cfg until' l stored) {l' : ℕ} (hl : l' ≤ l) :
    s.IsCopy cfg until' l' stored := by
  obtain ⟨write, hwrite, w, t, hw, ht, hfresh, rfl⟩ := h
  exact ⟨write, hwrite, w, t, hw, ht, hfresh.imp_right (And.imp_left (by omega)), rfl⟩

theorem IsCopy.state (h : s.IsCopy cfg until' l stored) (hnow : s.stack.store.now ≤ until') :
    (resolveStoredValue s.stack.store.now stored s.stack.store.now).state = .fresh ∨
      ((resolveStoredValue s.stack.store.now stored s.stack.store.now).state = .expired ∧
        l + 1 < cfg.layers) := by
  obtain ⟨write, -, w, t, hw, ht, hfresh | ⟨hl, hstale⟩, rfl⟩ := h
  · exact .inl (hw.state_fresh ht hfresh hnow)
  · exact (hstale.state hw ht).imp_right fun hexpired => ⟨hexpired, hl⟩

/-- A fresh copy is handed out as the value it is a copy of. -/
theorem IsCopy.hitValue (h : s.IsCopy cfg until' l stored)
    (hstate : (resolveStoredValue s.stack.store.now stored s.stack.store.now).state = .fresh) :
    s.IsAnswer (hitValue s.stack.store.now stored) := by
  obtain ⟨write, hwrite, w, t, hw, ht, -, rfl⟩ := h
  refine ⟨write, hwrite, ?_⟩
  have hrec := hw.recognised write.kind write.value ht
  have hvalue := hw.resolve_fresh ht hstate
  simp only [LayerCache.hitValue, hrec, Bool.true_and, decide_eq_true_eq, hvalue]
  cases hkind : write.kind with
  | value => simp [createStoredValueEnvelope, hkind, WriteValue.answer]
  | empty => simp [createStoredValueEnvelope, hkind, WriteValue.answer]

theorem IsCopy.renewed (h : s.IsCopy cfg until' l stored) (hnow : s.stack.store.now ≤ until')
    {item item' : Item V} {slidingTtl : Bool} (hitem : item.stored = stored)
    (hrefreshed : refreshedStored s.stack.store.now item slidingTtl = some (item', ttl)) :
    s.Delivers cfg until' l item'.stored ttl := by
  obtain ⟨write, hwrite, w, t, hw, ht, hfresh, rfl⟩ := h
  have hstored : item'.stored =
      .envelope (createStoredValueEnvelope write.kind write.value w s.stack.store.now) ∧
      ttl = remainingStoredTtlMs s.stack.store.now
        (.envelope (createStoredValueEnvelope write.kind write.value w s.stack.store.now))
        s.stack.store.now := by
    simp only [refreshedStored, hitem, hw.refresh ht, Option.ite_none_right_eq_some,
      Option.some.injEq, Prod.mk.injEq] at hrefreshed
    obtain ⟨-, rfl, rfl⟩ := hrefreshed
    exact ⟨rfl, rfl⟩
  obtain ⟨he, rfl⟩ := hstored
  have hlater : w.FreshUntil t until' → w.FreshUntil s.stack.store.now until' :=
    fun hf => hf.later ht
  refine ⟨⟨write, hwrite, w, _, hw, le_refl _, hfresh.imp_left hlater, he⟩, fun hl x hx hpos => ?_⟩
  have hf := hlater (hfresh.resolve_right fun h => hl h.1)
  refine hw.until_lt write.kind write.value hnow hf ?_ hpos
  rw [Option.mem_def] at hx ⊢
  rw [hx, Option.some_or]

end

omit [DecidableEq T] in
theorem firstFetch_iff {i : ℕ} : s.firstFetch key i = true ↔ ∃ task born,
    s.stack.tasks i = some task ∧ task.key = key ∧ task.phase = .fetching born ∧
      s.fetches.head? = some born := by
  simp only [firstFetch, Option.any_eq_true, Bool.and_eq_true, decide_eq_true_eq]
  constructor
  · rintro ⟨task, hi, ⟨hk, hsome⟩, hhead⟩
    cases hphase : task.phase with
    | fetching born =>
      rw [hphase] at hhead
      exact ⟨task, born, hi, hk, hphase, hhead.symm⟩
    | idle | rechecking | storing | resolved => simp [hphase, TaskPhase.fetchedAt] at hsome
  · rintro ⟨task, born, hi, hk, hphase, hhead⟩
    exact ⟨task, hi, ⟨hk, by simp [hphase, TaskPhase.fetchedAt]⟩,
      by simp [hphase, TaskPhase.fetchedAt, hhead]⟩

/-- A task that fetches for the key runs the only fetch, which has not yielded anything yet. -/
def FetchesOnce (key : K) (s : StampedeStack K V T) : Prop :=
  ∀ i task born, s.stack.tasks i = some task → task.key = key → task.phase = .fetching born →
    s.fetches = [born] ∧ s.yielded = none

omit [DecidableEq T] in
theorem FetchesOnce.first (h : s.FetchesOnce key) {i born : ℕ} (hi : s.stack.tasks i = some task)
    (hk : task.key = key) (hphase : task.phase = .fetching born) : s.firstFetch key i = true :=
  firstFetch_iff.mpr ⟨task, born, hi, hk, hphase, by simp [(h i task born hi hk hphase).1]⟩

/-- The stack is what the action makes of it, and so is what has been yielded. -/
structure Goes (cfg : Config) (key : K) (s : StampedeStack K V T) (a : Action K V T)
    (s' : StampedeStack K V T) : Prop where
  stack : s.stack.act cfg a = some s'.stack
  later : s.Later s'
  yields : ∀ i write tags, a = .get (.fetched i (.store write tags)) →
    s.firstFetch key i = true → write ∈ s'.yielded

variable {a : Action K V T}

omit [DecidableEq T] in
theorem observe_yielded (key : K) (s : StampedeStack K V T) (a : Action K V T) :
    (s.observe key a).yielded = s.yielded ∨ ∃ i write tags,
    a = .get (.fetched i (.store write tags)) ∧ s.firstFetch key i = true ∧
      (s.observe key a).yielded = some write := by
  unfold observe
  split
  · split <;> exact .inl rfl
  · split
    · exact .inr ⟨_, _, _, rfl, ‹_›, rfl⟩
    · exact .inl rfl
  · exact .inl rfl

/-- The fetched value of a key that is in the run goes into the layers. -/
theorem goes_act (hcalm : s.stack.Calm) (hfetches : s.FetchesOnce key)
    (hok : s.stack.Keeping a) {stack : Stack K V T} (hs : s.stack.act cfg a = some stack) :
    s.Goes cfg key a { s.observe key a with stack } := by
  refine ⟨hs, ⟨?_, fun write hwrite => ?_⟩, ?_⟩
  · rcases hcalm.now_act hok hs with he | ⟨d, -, hd, he⟩
    · exact he.ge
    · exact (le_add_of_nonneg_right hd).trans he.ge
  · rcases observe_yielded key s a with he | ⟨i, write', tags, -, hfirst, -⟩
    · exact he ▸ hwrite
    · obtain ⟨task, born, hi, hk, hphase, -⟩ := firstFetch_iff.mp hfirst
      rw [(hfetches i task born hi hk hphase).2] at hwrite
      cases hwrite
  · rintro i write tags rfl hfirst
    simp [observe, hfirst]

omit [DecidableEq K] [DecidableEq T] in
/-- What is on its way into a layer is a copy. -/
theorem Copies.delivers (h : s.Copies cfg key until') {p : Put K V} (hp : s.stack.Brings p)
    (hk : p.key = key) : s.Delivers cfg until' p.layer p.item.stored p.ttl := by
  cases hp with
  | order ho hp => exact h.orders _ _ p ho hp hk
  | renewal hg hkey hphase =>
    have hgets := h.gets _ _ hg (hkey.trans hk)
    simp only [GetsCopies, hphase] at hgets
    exact hgets.2 _ List.mem_cons_self

theorem Copies.cells_act (h : s.Copies cfg key until') (hcalm : s.stack.Calm)
    (hwf : s.stack.store.Wf s.stack.clock) (hok : s.stack.Keeping a) (hgoes : s.Goes cfg key a s')
    (hl : l < cfg.layers) {item : Item V} (hitem : s'.stack.store.visible l key = some item) :
    s'.IsCopy cfg until' l item.stored := by
  simp only [visible, Option.bind_eq_some_iff, Option.ite_none_right_eq_some,
    Option.some.injEq] at hitem
  obtain ⟨cell, hcell, halive, rfl⟩ := hitem
  cases hcalm.cell_act hwf hok hgoes.stack l key with
  | same he =>
    refine (h.cells l hl cell.item ?_).later hgoes.later
    have halive₀ : (cell.expiresAt.all fun e => decide (s.stack.store.now < e)) = true := by
      rw [Option.all_eq_true] at halive ⊢
      intro e hmem
      have := halive e hmem
      rw [decide_eq_true_eq] at this ⊢
      exact hgoes.later.now.trans_lt this
    simp [visible, ← he, hcell, halive₀]
  | placed p writer hp hpl hpk he =>
    rw [hcell] at he
    obtain rfl := Option.some.inj he
    subst hpl
    exact (h.delivers hp hpk).copy.later hgoes.later
  | purged hr hphase hrl hrk he =>
    rw [hcell] at he
    cases he

omit [DecidableEq K] [DecidableEq T] in
theorem readsCopies_next (s : StampedeStack K V T) (reader : Reader K V) :
    s.ReadsCopies cfg until' (reader.next cfg.layers) := by
  unfold ReadsCopies
  rcases reader.next_cases cfg.layers with ⟨-, he⟩ | ⟨-, -, he⟩ | ⟨-, -, he⟩ <;> rw [he] <;> trivial

theorem Copies.readers_act (h : s.Copies cfg key until') (hintact : s.stack.Intact cfg)
    (hlinked : s.stack.Linked cfg s.stack.clock) (hlayers : 0 < cfg.layers)
    (hok : s.stack.Undisturbed key until' a) (hgoes : s.Goes cfg key a s') {r : ℕ}
    (hr : s'.stack.readers r = some reader') (hk : reader'.key = key) :
    s'.ReadsCopies cfg until' reader' := by
  rcases Stack.readers_act hok.keeping.healthy hgoes.stack hr with
    hr | ⟨-, hphase⟩ | ⟨reader, hr₀, hread⟩
  · exact (h.readers r reader' hr hk).later hgoes.later
  · simp [ReadsCopies, hphase]
  have hkey : reader.key = key := hread.key.symm.trans hk
  have hreads := h.readers r reader hr₀ hkey
  have hindex := hlinked.index hlayers r reader hr₀
  apply ReadsCopies.later (s := s) _ hgoes.later
  cases hread with
  | load hphase =>
    unfold ReadsCopies
    split
    · rename_i item hitem
      simp only [hintact.working, Bool.false_eq_true, if_false, ReadPhase.loaded.injEq] at hitem
      exact h.cells reader.index hindex item (hkey ▸ hitem)
    all_goals simp_all
  | resume hres =>
    cases hres with
    | empty hphase => exact readsCopies_next s reader
    | expired item hphase hstate =>
      simp only [ReadsCopies, hphase] at hreads ⊢
      rcases hreads.state h.now with hfresh | ⟨-, hl⟩
      · rw [hstate] at hfresh
        cases hfresh
      · exact hl
    | unfresh item hphase hstate hmode hfresh =>
      simp only [ReadsCopies, hphase] at hreads
      rcases hreads.state h.now with hfresh' | ⟨hexpired, -⟩
      · exact absurd hfresh' hfresh
      · exact absurd hexpired hstate
    | hit item hphase hstate hmode =>
      simp only [ReadsCopies, hphase] at hreads ⊢
      have hfresh := (hreads.state h.now).resolve_right fun hexpired => hstate hexpired.1
      exact ⟨hreads, hreads.hitValue hfresh, hfresh, hindex⟩
  | purge hphase => exact readsCopies_next s reader
  | backfill ttls hphase => simpa [ReadsCopies, hphase] using hreads
  | refuse hphase => exact absurd hkey (hok reader hr₀)
  | hit b hphase =>
    rcases hphase with hphase | ⟨order, hphase⟩
    · simpa [ReadsCopies, hphase] using hreads
    · simpa [ReadsCopies, hphase] using hreads
  | unindex hphase => simp [ReadsCopies]

omit [DecidableEq K] [DecidableEq T] in
theorem ReadsCopies.found (h : s.ReadsCopies cfg until' reader)
    (hphase : reader.phase = .done (some hit)) : s.IsHit cfg until' hit := by
  simpa [ReadsCopies, hphase] using h

theorem Copies.gets_act (h : s.Copies cfg key until')
    (hlinked : s.stack.Linked cfg s.stack.clock) (hok : s.stack.Undisturbed key until' a)
    (hgoes : s.Goes cfg key a s') {g : ℕ} {get' : Get K V} (hg : s'.stack.gets g = some get')
    (hk : get'.key = key) : s'.GetsCopies cfg until' get' := by
  rcases Stack.gets_act hok.keeping.healthy hgoes.stack hg with
    hg | ⟨-, hphase | hphase⟩ | ⟨get, phase, hg₀, rfl, hget⟩
  · exact (h.gets g get' hg hk).later hgoes.later
  · simp [GetsCopies, hphase]
  · simp [GetsCopies, hphase]
  have hgets := h.gets g get hg₀ hk
  have hreads : ∀ {reader : Reader K V}, get.phase = .reading → s.stack.readers g = some reader →
      s.ReadsCopies cfg until' reader := by
    intro reader hphase hr
    obtain ⟨reader', hr', hkey⟩ := hlinked.reading g get hg₀ hphase
    obtain rfl := Option.some.inj (hr.symm.trans hr')
    exact h.readers g reader hr (hkey.trans hk)
  apply GetsCopies.later (s := s) _ hgoes.later
  cases hget with
  | failed hphase hr hfailed =>
    have := hreads hphase hr
    simp [ReadsCopies, hfailed] at this
  | miss hphase hr hdone hfetcher => simp [GetsCopies]
  | absent hphase hr hdone hfetcher => simp [GetsCopies, hfetcher]
  | fresh hphase hr hit hdone hstate todo stored ttl ahead htodo =>
    have hhit := (hreads hphase hr).found hdone
    refine ⟨hhit.answer, fun l hl => ?_⟩
    rcases htodo with rfl | ⟨hrefreshed, rfl⟩
    · cases hl
    · have hle : l ≤ hit.layerIndex := Nat.lt_succ_iff.mp (List.mem_range.mp hl)
      exact (hhit.copy.down hle).renewed h.now rfl hrefreshed
  | stale hphase hr hit hdone hstate => exact absurd ((hreads hphase hr).found hdone).fresh hstate
  | slid hphase =>
    simp only [GetsCopies, hphase] at hgets ⊢
    exact fun _ => hgets.1
  | slide hphase =>
    simp only [GetsCopies, hphase] at hgets ⊢
    exact ⟨hgets.1, fun l hl => hgets.2 l (List.mem_cons_of_mem _ hl)⟩
  | enter i hphase => simpa [GetsCopies, hphase] using hgets
  | leave hphase hi hresult hanswer =>
    obtain ⟨task, hi', hkey⟩ := hlinked.waiting g get _ _ hg₀ hphase
    obtain rfl := Option.some.inj (hi.symm.trans hi')
    have htask := h.tasks _ _ hi (hkey.trans hk)
    simp only [YieldsCopies, hresult] at htask
    obtain ⟨answer, rfl, hvalue⟩ := htask
    rw [hanswer answer rfl]
    exact fun _ => hvalue

theorem Copies.tasks_act (h : s.Copies cfg key until') (hcalm : s.stack.Calm)
    (hlinked : s.stack.Linked cfg s.stack.clock) (hfetches : s.FetchesOnce key)
    (hok : s.StaysCached cfg key until' a) (hgoes : s.Goes cfg key a s') {i : ℕ}
    {task' : Task K V} (hi : s'.stack.tasks i = some task') (hk : task'.key = key) :
    s'.YieldsCopies task' := by
  rcases (Stack.tasksGo_act hok.undisturbed.keeping.healthy hgoes.stack).back hi with
    hi | ⟨-, get, g, rfl⟩ | ⟨task, hi₀, htask⟩
  · exact (h.tasks i task' hi hk).later hgoes.later
  · trivial
  have hkey : task.key = key := htask.key.symm.trans hk
  have hyields := h.tasks i task hi₀ hkey
  have hreads : ∀ {r : ℕ} {reader : Reader K V}, task.phase = .rechecking r →
      s.stack.readers r = some reader → s.ReadsCopies cfg until' reader := by
    intro r reader hphase hr
    obtain ⟨reader', hr', hrkey, -⟩ := hlinked.rechecking i task r hi₀ hphase
    obtain rfl := Option.some.inj (hr.symm.trans hr')
    exact h.readers r reader hr (hrkey.trans hkey)
  cases htask with
  | join g | left g => exact hyields.later hgoes.later
  | settle hphase => exact hyields.later hgoes.later
  | recheck | missed | fetch => trivial
  | found hphase hr hdone =>
    exact ⟨_, rfl, ((hreads hphase hr).found hdone).answer.later hgoes.later⟩
  | failed hphase hr hfailed =>
    have := hreads hphase hr
    simp [ReadsCopies, hfailed] at this
  | fetched outcome result hphase houtdated =>
    have hfresh := hok.fresh (hfetches.first hi₀ hkey hphase)
    split at hfresh
    · rename_i write tags
      have hout := houtdated write tags rfl
      rw [hcalm.current hi₀] at hout
      cases hout
    · exact hfresh.elim
  | store write tags hphase =>
    exact ⟨write, hgoes.yields i write tags rfl (hfetches.first hi₀ hkey hphase), rfl⟩
  | stored hphase hw hdone =>
    simp only [YieldsCopies, hphase] at hyields
    exact ⟨_, rfl, hyields.later hgoes.later⟩
  | giveUp hphase => exact absurd hkey (hok.undisturbed task hi₀)

theorem Copies.orders_act (h : s.Copies cfg key until') (hcalm : s.stack.Calm)
    (hfetches : s.FetchesOnce key) (hok : s.StaysReadable cfg key until' a)
    (hgoes : s.Goes cfg key a s') {t : ℕ} {o : Order K V} {p : Put K V}
    (ho : s'.stack.store.orders t = some o) (hp : o.Writes p) (hk : p.key = key) :
    s'.Delivers cfg until' p.layer p.item.stored p.ttl := by
  rcases Stack.orders_act hgoes.stack ho with ⟨o₀, ho₀, hsame⟩ | ⟨-, hadmits⟩
  · exact (h.orders t o₀ p ho₀ (hsame.writes_iff.mp hp) hk).later hgoes.later
  obtain ⟨st, hst, hp⟩ := hp
  cases hadmits with
  | backfill r ttls hr hphase hl =>
    obtain rfl := List.mem_singleton.mp hst
    obtain ⟨l, hl', rfl⟩ := List.mem_map.mp hp
    have hlt := List.mem_range.mp (List.mem_filter.mp hl').1
    have hreads := h.readers r _ hr hk
    simp only [ReadsCopies, hphase] at hreads
    have hlayer := hreads.layer
    have hcopy := hreads.copy.down hlt.le
    have hbefore : l + 1 < cfg.layers := by omega
    exact ⟨hcopy.later hgoes.later, fun hlast => absurd hbefore hlast⟩
  | set k write tags =>
    obtain rfl := List.mem_singleton.mp hst
    obtain ⟨l, -, rfl⟩ := List.mem_map.mp hp
    exact absurd hk hok.undisturbed
  | mset entries =>
    obtain ⟨l, -, rfl⟩ := List.mem_map.mp hst
    obtain ⟨e, he, rfl⟩ := List.mem_map.mp hp
    exact absurd hk (hok.undisturbed e he)
  | flush hf => exact absurd (Stack.Carries.flushing hf List.mem_cons_self) (hcalm.immediate _)
  | @fetched i task born write tags hi hphase =>
    obtain rfl := List.mem_singleton.mp hst
    obtain ⟨l, hl, rfl⟩ := List.mem_map.mp hp
    have hlt := List.mem_range.mp (List.mem_filter.mp hl).1
    have hfirst := hfetches.first hi hk hphase
    have hfresh := hok.fresh hfirst l hlt
    have hrec := hok.recognisable hfirst l hlt
    refine ⟨⟨write, hgoes.yields i write tags rfl hfirst, write.windows l, _, hrec,
      hgoes.later.now, hfresh, rfl⟩, fun hlast x hx hpos => ?_⟩
    have hfresh' := hfresh.resolve_right fun hl => hlast hl.1
    have hlasts := hrec.until_lt write.kind write.value h.now hfresh' hx hpos
    have hlater := hgoes.later.now
    linarith

theorem Copies.now_act (h : s.Copies cfg key until') (hcalm : s.stack.Calm)
    (hok : s.stack.Undisturbed key until' a) (hgoes : s.Goes cfg key a s') :
    s'.stack.store.now ≤ until' := by
  rcases hcalm.now_act hok.keeping hgoes.stack with he | ⟨d, rfl, -, he⟩
  · exact he.trans_le h.now
  · exact he.trans_le hok

theorem Copies.act (h : s.Copies cfg key until') (hcalm : s.stack.Calm)
    (hintact : s.stack.Intact cfg) (hlinked : s.stack.Linked cfg s.stack.clock)
    (hlayers : 0 < cfg.layers) (hfetches : s.FetchesOnce key)
    (hok : s.StaysReadable cfg key until' a) (hgoes : s.Goes cfg key a s') :
    s'.Copies cfg key until' where
  now := h.now_act hcalm hok.undisturbed hgoes
  cells _ hl _ := h.cells_act hcalm hintact.sound.wf hok.undisturbed.keeping hgoes hl
  readers _ _ := h.readers_act hintact hlinked hlayers hok.undisturbed hgoes
  gets _ _ := h.gets_act hlinked hok.undisturbed hgoes
  tasks _ _ := h.tasks_act hcalm hlinked hfetches hok.toStaysCached hgoes
  orders _ _ _ := h.orders_act hcalm hfetches hok hgoes

omit [DecidableEq K] [DecidableEq T] in
theorem Copies.congr (h : s.Copies cfg key until') (hyielded : s'.yielded = s.yielded)
    (hstore : s'.stack.store = s.stack.store) (hr : s'.stack.readers = s.stack.readers)
    (hg : s'.stack.gets = s.stack.gets) (hi : s'.stack.tasks = s.stack.tasks) :
    s'.Copies cfg key until' := by
  have hlater : s.Later s' := ⟨(congrArg Store.now hstore).ge, fun write hw => hyielded ▸ hw⟩
  constructor
  · exact hstore ▸ h.now
  · intro l hl item hitem
    exact (h.cells l hl item (hstore ▸ hitem)).later hlater
  · intro r reader hreader hk
    exact (h.readers r reader (hr ▸ hreader) hk).later hlater
  · intro g get hget hk
    exact (h.gets g get (hg ▸ hget) hk).later hlater
  · intro i task htask hk
    exact (h.tasks i task (hi ▸ htask) hk).later hlater
  · intro t o p ho hp hk
    exact (h.orders t o p (hstore ▸ ho) hp hk).later hlater

omit [DecidableEq K] [DecidableEq T] in
theorem copies_initial {contents : ℕ → K → Option (Stored V × Option Millis)}
    (hnow : now ≤ until')
    (habsent : ∀ l < cfg.layers, (Store.initial now contents).visible l key = none) :
    (initial now contents : StampedeStack K V T).Copies cfg key until' := by
  refine ⟨hnow, fun l hl item hitem => ?_, ?_, ?_, ?_, ?_⟩
  · have hnone : (initial now contents : StampedeStack K V T).stack.store.visible l key = none :=
      habsent l hl
    rw [hnone] at hitem
    cases hitem
  all_goals simp [initial, Stack.initial]

end StampedeStack

end LayerCache
