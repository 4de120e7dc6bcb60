import LayerCache.Resilience.DegradedAnswers

/-! # Graceful degradation

A stack that degrades catches what its layers reject, and reads on. Two kinds of calls on the way
of a read are not caught: the deletions of what is found expired or backfilled too late, and the
`getMany` of a batched read.
-/

namespace LayerCache.Degradation

variable {σ V α β : Type} {config : Config} {env : Surroundings σ V} {p : Action σ V α}
  {f : α → Action σ V β} {layer : ℕ} {key : String}

def Answers (p : Action σ V α) (a : α) : Prop :=
  Program.Triple (fun _ => True) p (fun answer _ => answer = a) fun _ _ => False

def Rejects (p : Action σ V α) (rejection : Rejection) : Prop :=
  Program.Triple (fun _ => True) p (fun _ _ => False) fun error _ => error = rejection

theorem Answers.bind {a : α} {Q : β → Run σ V → Prop} {E : Rejection → Run σ V → Prop}
    (h : Answers p a) (hf : Program.Triple (fun _ => True) (f a) Q E) :
    Program.Triple (fun _ => True) (p >>= f) Q E := by
  apply Program.Triple.bind (Program.Triple.mono h (fun _ hs => hs) (fun _ _ ha => ha)
    fun _ _ he => he.elim)
  intro answer run hanswer
  rw [hanswer]
  exact hf run trivial

theorem Rejects.bind {rejection : Rejection} (h : Rejects p rejection) :
    Rejects (p >>= f) rejection :=
  Program.Triple.bind h fun _ _ hs => hs.elim

theorem answers_pure (a : α) : Answers (pure a : Action σ V α) a :=
  Program.Triple.pure fun _ _ => rfl

theorem answers_call {answer : σ → α × σ} {a : α} (h : ∀ s, (answer s).1 = a) :
    Answers (call answer : Action σ V α) a :=
  Program.Triple.ask fun run _ => h run.state

theorem answers_note (event : Event V) : Answers (note event : Action σ V Unit) () :=
  Program.Triple.ask fun _ _ => rfl

theorem answers_callLayer {operation : LayerOperation} {answer : σ → Option α × σ} {a : α}
    (h : ∀ s, (answer s).1 = some a) :
    Answers (callLayer layer operation answer : Action σ V α) a :=
  (answers_call h).bind (answers_pure a)

theorem rejects_callLayer {operation : LayerOperation} {answer : σ → Option α × σ}
    (h : ∀ s, (answer s).1 = none) :
    Rejects (callLayer layer operation answer : Action σ V α) (.layer layer operation) :=
  (answers_call h).bind ((answers_note _).bind (Program.Triple.throw fun _ _ => rfl))

/-- Nothing is stored, nothing skipped, and nothing rejects. -/
def quiet : Surroundings Unit V where
  now := fun _ => 0
  holds := fun _ s => (false, s)
  refuses := fun _ s => (none, s)
  degrade := fun _ s => s
  read := fun _ _ _ s => (some none, s)
  getMany := fun _ _ s => (some fun _ => none, s)
  has := fun _ _ s => (some false, s)
  set := fun _ _ s => (some (), s)
  delete := fun _ _ s => (some (), s)
  fetch := fun _ s => (.ok none, s)
  role := fun _ s => (.worker, s)
  polls := fun s => (0, s)

def expiredEntry : Stored V :=
  .envelope (createStoredValueEnvelope .empty none ⟨some 1, none, none⟩ (-1))

/-- The layer has an expired entry that it does not delete. -/
def rejectingDelete (layer : ℕ) : Surroundings Unit V :=
  { quiet with
    read := fun l _ _ s => (some (if l = layer then some expiredEntry else none), s)
    delete := fun l _ s => (if l = layer then none else some (), s) }

def rejectingGetMany (layer : ℕ) : Surroundings Unit V :=
  { quiet with getMany := fun l _ s => (if l = layer then none else some fun _ => none, s) }

theorem answers_shouldSkipLayer (h : ∀ s, (env.holds (.shouldSkipLayer layer) s).1 = false) :
    Answers (shouldSkipLayer env layer) false :=
  (answers_call h).bind (answers_pure false)

theorem answers_check {checkpoint : Checkpoint} (h : ∀ s, (env.refuses checkpoint s).1 = none) :
    Answers (check env checkpoint) () :=
  (answers_call h).bind (answers_pure ())

theorem answers_readLayerEntry {stored : Option (Stored V)}
    (hskip : ∀ s, (env.holds (.shouldSkipLayer layer) s).1 = false)
    (hread : ∀ operation s, (env.read layer operation key s).1 = some stored) :
    Answers (readLayerEntry config env layer key) stored := by
  have hcall : Answers (callRead config env layer key) stored := by
    apply (answers_callLayer (hread _)).bind
    cases stored with
    | none => exact (answers_note _).bind (answers_pure none)
    | some stored => exact answers_pure (some stored)
  apply (answers_shouldSkipLayer hskip).bind
  exact Program.Triple.recover hcall fun _ _ he => he.elim

theorem Answers.attempt {a : α} (h : Answers p a) : Answers p.attempt (.ok a) := by
  apply Program.Triple.mono (Program.Triple.attempt h) (fun _ hs => hs) ?_ fun _ _ he => he
  intro outcome _ houtcome
  cases outcome with
  | ok answer => exact congrArg Except.ok houtcome
  | error e => exact houtcome.elim

theorem answers_all_singleton {a : α} (h : Answers p a) : Answers (Program.all [p]) [a] := by
  apply h.attempt.bind
  exact (Answers.attempt (answers_pure [])).bind (answers_pure [a])

theorem state_expiredEntry :
    (resolveStoredValue 0 (expiredEntry : Stored V) 0).state = .expired := by
  have hcreated : createStoredValueEnvelope .empty (none : Option V) ⟨some 1, none, none⟩ (-1) =
      ⟨.empty, none, some 0, none, none, some 1, none, none⟩ := by
    simp [createStoredValueEnvelope, normalizePositiveMs, staleDeadline]
  have hvalid : isStoredValueEnvelope 0 (.envelope
      (⟨.empty, none, some 0, none, none, some 1, none, none⟩ : StoredValueEnvelope V)) = true := by
    simp [isStoredValueEnvelope, Exceeds, Precedes, isValidEnvelopeTtlMs]
    norm_num [maxTtlMs]
  rw [expiredEntry, hcreated, resolveStoredValue, hvalid]
  simp [Ahead]

theorem rejects_getEntry {todo : List ℕ} (hmem : layer ∈ todo) (sawRetainableValue : Bool) :
    Rejects (getEntry config (rejectingDelete layer : Surroundings Unit V) key todo
      sawRetainableValue) (.layer layer .delete) := by
  induction todo generalizing sawRetainableValue with
  | nil => cases hmem
  | cons l todo ih =>
    apply (answers_shouldSkipLayer fun _ => rfl).bind
    apply (answers_readLayerEntry (fun _ => rfl) fun _ _ => rfl).bind
    by_cases hl : l = layer
    · subst hl
      rw [if_pos rfl]
      have hresolve : Answers (resolve (rejectingDelete l) l key (expiredEntry : Stored V))
          ⟨expiredEntry, 0, l⟩ := by
        have hnow : Answers (now (rejectingDelete l : Surroundings Unit V)) 0 :=
          Program.Triple.ask fun _ _ => rfl
        exact hnow.bind ((answers_note _).bind (answers_pure _))
      apply hresolve.bind
      apply Program.Triple.ite
      · exact fun _ => (rejects_callLayer fun _ => if_pos rfl).bind
      · exact fun hstate => absurd state_expiredEntry hstate
    · rw [if_neg hl]
      exact ih ((List.mem_cons.mp hmem).resolve_left (Ne.symm hl)) sawRetainableValue

theorem answers_takeAnswers (keys : List String) :
    Answers (takeAnswers config env layer (keys.map fun key => (key, none))) (keys, []) := by
  induction keys with
  | nil => exact answers_pure _
  | cons key keys ih => exact ih.bind (answers_pure _)

theorem answers_noteMissing (keys : List String) :
    Answers (noteMissing layer (keys.map fun key => (key, (none : Option (Stored V)))) :
      Action σ V Unit) () := by
  induction keys with
  | nil => exact answers_pure _
  | cons key keys ih => exact (answers_note _).bind ih

theorem rejects_scanLayers {todo : List ℕ} (hmem : layer ∈ todo)
    (hmany : config.implements layer .getMany = true) :
    Rejects (scanLayers config (rejectingGetMany layer : Surroundings Unit V) todo [key])
      (.layer layer .getMany) := by
  induction todo with
  | nil => cases hmem
  | cons l todo ih =>
    apply (answers_shouldSkipLayer fun _ => rfl).bind
    by_cases hl : l = layer
    · subst hl
      have hread : Rejects (readMany config (rejectingGetMany l : Surroundings Unit V) l [key])
          (.layer l .getMany) := by
        unfold readMany
        rw [if_pos hmany]
        exact (rejects_callLayer fun _ => if_pos rfl).bind
      exact hread.bind
    · have hread : Answers (readMany config (rejectingGetMany layer : Surroundings Unit V) l [key])
          ([key].map fun key => (key, none)) := by
        apply Program.Triple.ite
        · intro _
          apply (answers_callLayer fun _ => if_neg hl).bind
          exact (answers_noteMissing [key]).bind (answers_pure _)
        · intro _
          have hone : Answers (do
              let stored ← readLayerEntry config (rejectingGetMany layer) l key
              pure (key, stored) : Action Unit V (String × Option (Stored V))) (key, none) :=
            (answers_readLayerEntry (fun _ => rfl) fun _ _ => rfl).bind (answers_pure _)
          exact answers_all_singleton hone
      apply hread.bind
      apply (answers_takeAnswers [key]).bind
      have hmore := ih ((List.mem_cons.mp hmem).resolve_left (Ne.symm hl))
      exact Rejects.bind hmore

theorem rejectsOnly_rejectingDelete {fails : ℕ → LayerOperation → Prop}
    (h : fails layer .delete) :
    (rejectingDelete layer : Surroundings Unit V).RejectsOnly fails where
  read _ _ _ _ hread := nomatch hread
  getMany _ _ _ hmany := nomatch hmany
  has _ _ _ hhas := nomatch hhas
  set _ _ _ hset := nomatch hset
  delete l _ _ hdelete := by
    have hl : l = layer := by
      by_contra hl
      simp [rejectingDelete, hl] at hdelete
    exact hl ▸ h

theorem rejectsOnly_rejectingGetMany {fails : ℕ → LayerOperation → Prop}
    (h : fails layer .getMany) :
    (rejectingGetMany layer : Surroundings Unit V).RejectsOnly fails where
  read _ _ _ _ hread := nomatch hread
  getMany l _ _ hmany := by
    have hl : l = layer := by
      by_contra hl
      simp [rejectingGetMany, hl] at hmany
    exact hl ▸ h
  has _ _ _ hhas := nomatch hhas
  set _ _ _ hset := nomatch hset
  delete _ _ _ hdelete := nomatch hdelete

theorem sturdy_of_rejectsOnly {fails : ℕ → LayerOperation → Prop}
    (hgraceful : config.gracefulDegradation = true) (henv : env.RejectsOnly fails)
    (h : ∀ layer < config.layers, ¬ fails layer .delete ∧
      (config.implements layer .getMany = true → ¬ fails layer .getMany)) :
    Sturdy config env where
  graceful := hgraceful
  delete layer hlayer key s hdelete := (h layer hlayer).1 (henv.delete layer key s hdelete)
  getMany layer hlayer hmany keys s := by
    apply Bool.eq_false_iff.mpr
    exact fun hnone => (h layer hlayer).2 hmany (henv.getMany layer keys s hnone)

theorem not_degradesFully_of_rejects {fails : ℕ → LayerOperation → Prop}
    {env : Surroundings Unit V} {operation : LayerOperation} (henv : env.RejectsOnly fails)
    (read : Read) (h : Rejects (perform config env read) (.layer layer operation)) :
    ¬ DegradesFully V config fails := by
  intro hfully
  have hread := hfully Unit env henv read ()
  have hrejects := h ⟨(), []⟩ trivial
  match houtcome : (perform config env read).outcome ⟨(), []⟩ with
  | (.ok answer, run) =>
    rw [houtcome] at hrejects
    exact hrejects
  | (.error error, run) =>
    rw [houtcome] at hread hrejects
    obtain ⟨reason, rfl⟩ := hread
    cases hrejects

theorem not_degradesFully_delete {fails : ℕ → LayerOperation → Prop}
    (hlayer : layer < config.layers) (h : fails layer .delete) :
    ¬ DegradesFully V config fails := by
  apply not_degradesFully_of_rejects (rejectsOnly_rejectingDelete h) (.getEntry "key")
  apply (answers_check fun _ => rfl).bind
  exact Rejects.bind (rejects_getEntry (List.mem_range.mpr hlayer) false)

theorem not_degradesFully_getMany {fails : ℕ → LayerOperation → Prop}
    (hlayer : layer < config.layers) (hmany : config.implements layer .getMany = true)
    (h : fails layer .getMany) : ¬ DegradesFully V config fails := by
  apply not_degradesFully_of_rejects (rejectsOnly_rejectingGetMany h) (.mget [⟨"key", none, none⟩])
  have hscan : Rejects (scanLayers config (rejectingGetMany layer : Surroundings Unit V)
      (List.range config.layers) ["key"]) (.layer layer .getMany) :=
    rejects_scanLayers (List.mem_range.mpr hlayer) hmany
  have hmget : Rejects (mget config (rejectingGetMany layer : Surroundings Unit V)
      [⟨"key", none, none⟩]) (.layer layer .getMany) := by
    apply (answers_check fun _ => rfl).bind
    exact hscan.bind
  exact hmget.bind

/-- A stack that degrades does so for every read, if no layer rejects a deletion and none rejects a
`getMany` that it has; it does for no more. -/
theorem degradesFully_iff (V : Type) (config : Config) (fails : ℕ → LayerOperation → Prop)
    (hgraceful : config.gracefulDegradation = true) :
    DegradesFully V config fails ↔ ∀ layer < config.layers, ¬ fails layer .delete ∧
      (config.implements layer .getMany = true → ¬ fails layer .getMany) := by
  constructor
  · intro hfully layer hlayer
    constructor
    · exact fun hdelete => not_degradesFully_delete hlayer hdelete hfully
    · exact fun hmany hgetMany => not_degradesFully_getMany hlayer hmany hgetMany hfully
  · intro h σ env henv read s
    have hperform : Safe [] (perform config env read)
        fun answer log => Answered config.layers log read answer :=
      safe_perform (sturdy_of_rejectsOnly hgraceful henv h) read
    have hsafe := hperform ⟨s, []⟩ (List.Subset.refl _)
    match houtcome : (perform config env read).outcome ⟨s, []⟩ with
    | (.ok answer, run) =>
      rw [houtcome] at hsafe
      exact hsafe.2
    | (.error error, run) =>
      rw [houtcome] at hsafe
      exact hsafe.2

/-- A memory layer over a remote one, in a stack that degrades. -/
def twoLayers : Config where
  layers := 2
  implements layer operation := layer = 0 ∨ operation ≠ .getMany
  writeBehind _ := false
  gracefulDegradation := true
  stampedePrevention := true
  singleFlightCoordinator := false

theorem twoLayers_degradesFully :
    DegradesFully ℕ twoLayers (fun layer operation => layer = 1 ∧ operation ≠ .delete) :=
  (degradesFully_iff ℕ twoLayers _ rfl).mpr fun layer _ => by
    refine ⟨fun h => h.2 rfl, fun hmany h => ?_⟩
    simp [twoLayers, h.1] at hmany

/-- The remote layer's deletions reject. It has an expired entry, and `getEntry` rejects. -/
theorem not_degradesFully_remote_delete :
    twoLayers.gracefulDegradation = true ∧
      ¬ DegradesFully ℕ twoLayers (fun layer operation => layer = 1 ∧ operation = .delete) := by
  have hlayer : 1 < twoLayers.layers := by decide
  exact ⟨rfl, not_degradesFully_delete hlayer ⟨rfl, rfl⟩⟩

end LayerCache.Degradation
