import LayerCache.Stack.Links
import LayerCache.Stack.Revival

/-! # Renewing a sliding TTL

A `get` that hits a fresh entry writes the renewed entry to the layers up to the hit, with
the value it has read, outside of the chain and without a fence. Its writes may come after
a deletion has gone through a layer, or after another value has been placed there.
`readAt`, `placedAt`, `renewedBy` and `rewrites` record when a reader was last answered,
when a cell was last written, by which renewal, and what the renewals replaced; they
decide nothing.
-/

namespace LayerCache

open Store Transition

variable {K V T : Type} {l : ℕ} {k : K}

/-- A write of a renewal: what it wrote, and what was there. -/
structure SlidingWrite (V : Type*) where
  item : Item V
  readAt : ℕ
  replaced : Option (Item V)
  placedAt : ℕ
deriving DecidableEq

/-- The write replaced a copy of its value, or what had been there when the read was answered. -/
def SlidingWrite.Sound (w : SlidingWrite V) : Prop :=
  ∀ item ∈ w.replaced, item.born = w.item.born ∨ w.placedAt < w.readAt

structure SlidingStack (K V T : Type) where
  stack : Stack K V T
  readAt : ℕ → ℕ
  placedAt : ℕ → K → ℕ
  renewedBy : ℕ → K → Option ℕ
  rewrites : List (SlidingWrite V)

/-- What a `get` may yet write back, and the layers that are left. -/
structure Renewal (K V : Type*) where
  key : K
  item : Item V
  layers : List ℕ
deriving DecidableEq

structure Renewal.Continues (w w' : Renewal K V) : Prop where
  key : w'.key = w.key
  born : w'.item.born = w.item.born
  layers : w'.layers ⊆ w.layers

def Stored.isEnvelope : Stored V → Bool
  | .plain _ => false
  | .envelope _ => true

/-- The fresh envelope that a read has in hand, with its layer. -/
def Reader.renewable (reader : Reader K V) (now : Millis) : Option (Item V × ℕ) :=
  match reader.phase with
  | .loaded (some item) =>
    if item.stored.isEnvelope ∧ (resolveStoredValue now item.stored now).state = .fresh then
      some (item, reader.index)
    else none
  | .touched hit | .backfilling hit _ | .done (some hit) =>
    if hit.item.stored.isEnvelope ∧ hit.state = .fresh then some (hit.item, hit.layerIndex)
    else none
  | _ => none

namespace Stack

/-- What the `get` is going to write back, as far as one can tell: it has read a fresh entry for a
sliding TTL, or it is at its writes. -/
def renewal (s : Stack K V T) (g : ℕ) : Option (Renewal K V) := do
  let get ← s.gets g
  match get.phase with
  | .sliding _ (l :: rest) stored _ _ => some ⟨get.key, stored, l :: rest⟩
  | .reading =>
    if get.options.slidingTtl then do
      let reader ← s.readers g
      let (item, layer) ← reader.renewable s.store.now
      some ⟨get.key, item, List.range (layer + 1)⟩
    else none
  | _ => none

def placing (s : Stack K V T) : Action K V T → Option (Put K V)
  | .store (.land t m i) => (s.store.landing t m i).map Prod.snd
  | .get (.slide g) => do
    let get ← s.gets g
    match get.phase with
    | .sliding _ (l :: _) stored ttl _ =>
      if s.degraded l then none else some ⟨l, get.key, stored, ttl⟩
    | _ => none
  | _ => none

variable [DecidableEq K]

/-- A renewal writes an entry from before a deletion to a layer that the deletion has gone through,
and the `get` was there when the deletion was not over. -/
def RenewsDeleted (s : Stack K V T) : Action K V T → Prop
  | .get (.slide g) => ∃ p ∈ s.placing (.get (.slide g)), ∃ d < s.clock, ∃ inv ∈ s.invalidations d,
      ∃ b ∈ inv.bumped, inv.localOnly = false ∧ s.store.Reached b p.layer p.key ∧
        p.item.born < d ∧
          match inv.phase with
          | .resolved q => g < q
          | _ => True
  | _ => False

/-- A write places a value in a layer to which a `get` is yet to write another one back. -/
def Supersedes (s : Stack K V T) (a : Action K V T) : Prop :=
  ∃ p ∈ s.placing a, ∃ g < s.clock, ∃ w ∈ s.renewal g,
    w.key = p.key ∧ p.layer ∈ w.layers ∧ w.item.born ≠ p.item.born

/-- Working layers in which no renewal is overtaken by a deletion or by a write. -/
structure RenewsSafely (s : Stack K V T) (a : Action K V T) : Prop where
  healthy : s.Healthy a
  deleted : ¬ s.RenewsDeleted a
  supersedes : ¬ s.Supersedes a

instance (s : Stack K V T) : DecidablePred s.RenewsDeleted := fun a => by
  induction a using Action.casesOn with
  | get a =>
    induction a using GetAction.casesOn with
    | slide g =>
      refine @Option.decidableExistsMem _ _ (fun p => ?_) _
      refine @Nat.decidableExistsLT _ (fun d => ?_) _
      refine @Option.decidableExistsMem _ _ (fun inv => ?_) _
      refine @Option.decidableExistsMem _ _ (fun b => ?_) _
      refine @instDecidableAnd _ _ _ (@instDecidableAnd _ _ _ (@instDecidableAnd _ _ _ ?_))
      generalize inv.phase = phase
      induction phase using InvalidationPhase.casesOn <;> infer_instance
    | _ => exact isFalse id
  | _ => exact isFalse id

instance (s : Stack K V T) : DecidablePred s.Supersedes := fun a => by
  unfold Supersedes
  infer_instance

instance (s : Stack K V T) : DecidablePred s.RenewsSafely := fun a =>
  decidable_of_iff (s.Healthy a ∧ ¬ s.RenewsDeleted a ∧ ¬ s.Supersedes a)
    ⟨fun ⟨hok, hd, hs⟩ => ⟨hok, hd, hs⟩, fun ⟨hok, hd, hs⟩ => ⟨hok, hd, hs⟩⟩

end Stack

theorem Reader.renewable_of_later {reader : Reader K V} {now later : Millis} {x : Item V × ℕ}
    (hle : now ≤ later) (h : reader.renewable later = some x) : reader.renewable now = some x := by
  cases hphase : reader.phase with
  | loaded found =>
    cases found with
    | none => simp [renewable, hphase] at h
    | some item =>
      simp only [renewable, hphase, Option.ite_none_right_eq_some] at h ⊢
      exact ⟨⟨h.1.1, fresh_of_later hle h.1.2⟩, h.2⟩
  | done hit =>
    cases hit with
    | none => simp [renewable, hphase] at h
    | some hit => simpa [renewable, hphase] using h
  | touched | backfilling => simpa [renewable, hphase] using h
  | ready | purging | missed | failed => simp [renewable, hphase] at h

theorem Reader.renewable_next (reader : Reader K V) (layers : ℕ) (now : Millis) :
    (reader.next layers).renewable now = none := by
  rcases reader.next_cases layers with ⟨-, h⟩ | ⟨-, -, h⟩ | ⟨-, -, h⟩ <;> rw [h] <;> rfl

theorem Reader.Resumes.renewable {reader reader' : Reader K V} {layers : ℕ} {now : Millis}
    {x : Item V × ℕ} (h : reader.Resumes layers now reader')
    (hx : reader'.renewable now = some x) : reader.renewable now = some x := by
  cases h with
  | empty hl => simp [renewable_next] at hx
  | unfresh item hl => simp [renewable_next] at hx
  | expired item hl => simp [Reader.renewable] at hx
  | hit item hl => simpa [Reader.renewable, hl] using hx

theorem Renewal.Continues.refl (w : Renewal K V) : w.Continues w := ⟨rfl, rfl, fun _ => id⟩

namespace Stack

variable {cfg : Config} {s s' : Stack K V T} {g : ℕ} {w' : Renewal K V}

theorem renewal_congr (hg : s'.gets g = s.gets g)
    (hr : ∀ reader' x, s'.readers g = some reader' →
      reader'.renewable s'.store.now = some x →
        ∃ reader, s.readers g = some reader ∧ reader.renewable s.store.now = some x)
    (h : s'.renewal g = some w') : s.renewal g = some w' := by
  simp only [renewal, hg, Option.bind_eq_bind, Option.bind_eq_some_iff] at h ⊢
  obtain ⟨get, hget, h⟩ := h
  refine ⟨get, hget, ?_⟩
  split at h
  · exact h
  · simp only [Option.ite_none_right_eq_some, Option.bind_eq_some_iff] at h ⊢
    obtain ⟨hsliding, reader', hreader', x, hx, h⟩ := h
    obtain ⟨reader, hreader, hx⟩ := hr reader' x hreader' hx
    exact ⟨hsliding, reader, hreader, x, hx, h⟩
  · cases h

theorem renewal_putReader {r : ℕ} {reader reader' : Reader K V} {index : TagIndex K T}
    {store : Store K V} (hr : s.readers r = some reader) (hnow : store.now = s.store.now)
    (hx : ∀ x, reader'.renewable s.store.now = some x → reader.renewable s.store.now = some x)
    (h : Stack.renewal { s.putReader r reader' with index, store } g = some w') :
    s.renewal g = some w' := by
  refine renewal_congr (s := s) ?_ ?_ h
  · rfl
  · intro reader₁ x hreader₁ hx₁
    simp only [hnow] at hx₁
    rcases update_eq_some hreader₁ with ⟨rfl, rfl⟩ | ⟨-, hreader₁⟩
    · exact ⟨reader, hr, hx x hx₁⟩
    · exact ⟨reader₁, hreader₁, hx₁⟩

variable [DecidableEq K]

theorem renewal_openReader {key : K} {mode : ReadMode}
    (h : (s.openReader key mode).renewal g = some w') : s.renewal g = some w' := by
  refine renewal_congr ?_ ?_ h
  · rfl
  · intro reader x hreader hx
    rcases update_eq_some hreader with ⟨rfl, rfl⟩ | ⟨-, hreader⟩
    · cases hx
    · exact ⟨reader, hreader, hx⟩

theorem renewal_readStep [DecidableEq T] {a : ReadAction K} (hs : s.readStep cfg a = some s')
    (h : s'.renewal g = some w') : s.renewal g = some w' ∨ a = .load g := by
  cases a with
  | read key =>
    cases hs
    exact .inl (renewal_openReader h)
  | load r =>
    obtain ⟨reader, hr, -, rfl⟩ := load_spec hs
    by_cases hg : r = g
    · exact .inr (by rw [hg])
    · refine .inl (renewal_congr (s := s) (by rfl) ?_ h)
      intro reader₁ x hreader₁ hx
      rcases update_eq_some hreader₁ with ⟨rfl, -⟩ | ⟨-, hreader₁⟩
      · exact absurd rfl hg
      · exact ⟨reader₁, hreader₁, hx⟩
  | resume r =>
    obtain ⟨reader, reader', index, hr, hres, -, rfl⟩ := resume_spec hs
    exact .inl (renewal_putReader hr rfl (fun x => hres.renewable) h)
  | purge r =>
    obtain ⟨reader, hr, hphase, rfl⟩ := purge_spec hs
    exact .inl (renewal_putReader hr (by rfl) (by simp [Reader.renewable_next]) h)
  | backfill r ttls =>
    obtain ⟨reader, hit, hr, hphase, ⟨-, rfl⟩ | ⟨-, rfl⟩⟩ := backfill_spec hs
    · exact .inl (renewal_putReader hr rfl (by simp [Reader.renewable, hphase]) h)
    · exact .inl (renewal_putReader hr (by rfl) (by simp [Reader.renewable, hphase]) h)
  | refuse r =>
    obtain ⟨reader, hit, hr, hphase, rfl⟩ := refuse_spec hs
    exact .inl (renewal_putReader hr rfl (by simp [Reader.renewable]) h)
  | backfilled r =>
    obtain ⟨reader, hit, order, hr, hphase, -, rfl⟩ := backfilled_spec hs
    exact .inl (renewal_putReader hr rfl (by simp [Reader.renewable, hphase]) h)
  | unindex r =>
    obtain ⟨reader, hr, hphase, rfl⟩ := unindex_spec hs
    exact .inl (renewal_putReader hr (by rfl) (by simp [Reader.renewable]) h)

omit [DecidableEq K] in
/-- A `get` that is put is at its writes, or has nothing to write back. -/
theorem renewal_putGet {g₀ : ℕ} {get : Get K V} (hphase : get.phase ≠ .reading)
    (h : (s.putGet g₀ get).renewal g = some w') : s.renewal g = some w' ∨
      (g = g₀ ∧ ∃ answer l rest stored ttl ahead,
        get.phase = .sliding answer (l :: rest) stored ttl ahead ∧
          w' = ⟨get.key, stored, l :: rest⟩) := by
  by_cases hg : g = g₀
  · subst hg
    simp only [renewal, putGet, Function.update_self, Option.bind_eq_bind, Option.bind_some] at h
    split at h
    · rename_i answer l rest stored ttl ahead hsliding
      cases h
      exact .inr ⟨rfl, answer, l, rest, stored, ttl, ahead, hsliding, rfl⟩
    · exact absurd ‹_› hphase
    · cases h
  · refine .inl (renewal_congr ?_ ?_ h)
    · simp [putGet, hg]
    · exact fun r x hr hx => ⟨r, hr, hx⟩

theorem renewal_schedule {key : K} {options : GetOptions}
    (h : (s.scheduleBackgroundRefresh key options).renewal g = some w') :
    s.renewal g = some w' := by
  rcases scheduleBackgroundRefresh_cases s key options with he | ⟨-, he⟩ <;> rw [he] at h
  · exact h
  · have h' : (s.putGet s.clock ⟨key, options, true, s.store.epochs.fence key,
        .entering none⟩).renewal g = some w' := h
    rcases renewal_putGet (by simp) h' with h' | ⟨-, answer, l, rest, stored, ttl, ahead, hp, -⟩
    · exact h'
    · cases hp

theorem renewal_conclude {g₀ : ℕ} (hs : s.conclude g₀ = some s')
    (h : s'.renewal g = some w') : ∃ w, s.renewal g = some w ∧ w.Continues w' := by
  obtain ⟨get, reader, hg, hr, hphase, hconcl⟩ := conclude_spec hs
  have hother : ∀ {get₁ : Get K V}, get₁.phase ≠ .reading →
      (∀ answer todo stored ttl ahead, get₁.phase ≠ .sliding answer todo stored ttl ahead) →
      (s.putGet g₀ get₁).renewal g = some w' → ∃ w, s.renewal g = some w ∧ w.Continues w' := by
    intro get₁ hne hsl h
    rcases renewal_putGet hne h with h | ⟨-, answer, l, rest, stored, ttl, ahead, hp, -⟩
    · exact ⟨w', h, .refl w'⟩
    · exact absurd hp (hsl answer (l :: rest) stored ttl ahead)
  cases hconcl with
  | refresh hit hdone hstate hf => exact hother (by simp) (by simp) (renewal_schedule h)
  | failed | miss | absent | stale | staleIfError | fallback => exact hother (by simp) (by simp) h
  | fresh hit hdone hstate todo stored ttl ahead htodo hahead =>
    rcases renewal_putGet (by simp) h with h | ⟨rfl, answer, l, rest, stored', ttl', ah, hp, rfl⟩
    · exact ⟨w', h, .refl w'⟩
    · cases hp
      rcases htodo with htodo | ⟨hrefreshed, htodo⟩
      · cases htodo
      · simp only [refreshedStored, Option.ite_none_right_eq_some, Bool.and_eq_true,
          Option.some.injEq, Prod.mk.injEq] at hrefreshed
        obtain ⟨⟨hsliding, henv⟩, rfl, -⟩ := hrefreshed
        have hshape : hit.item.stored.isEnvelope = true := by
          cases hst : hit.item.stored with
          | plain v => simp [isStoredValueEnvelope, hst] at henv
          | envelope e => rfl
        refine ⟨⟨get.key, hit.item, List.range (hit.layerIndex + 1)⟩, ?_, rfl, rfl, ?_⟩
        · simp [renewal, hg, hphase, hsliding, hr, Reader.renewable, hdone, hshape, hstate]
        · simp [htodo]

theorem renewal_getStep {a : GetAction K V T} (hs : s.getStep cfg a = some s')
    (h : s'.renewal g = some w') : ∃ w, s.renewal g = some w ∧ w.Continues w' := by
  have hsame : s'.gets = s.gets → s'.readers = s.readers → s'.store.now = s.store.now →
      ∃ w, s.renewal g = some w ∧ w.Continues w' := by
    intro hgets hreaders hnow
    refine ⟨w', renewal_congr (by rw [hgets]) (fun r x hr hx => ?_) h, .refl w'⟩
    rw [hreaders] at hr
    rw [hnow] at hx
    exact ⟨r, hr, hx⟩
  have hother : ∀ {u : Stack K V T} {g₀ : ℕ} {get₁ : Get K V}, get₁.phase ≠ .reading →
      (∀ answer todo stored ttl ahead, get₁.phase ≠ .sliding answer todo stored ttl ahead) →
      u.gets = s.gets → u.readers = s.readers → u.store.now = s.store.now →
      (u.putGet g₀ get₁).renewal g = some w' → ∃ w, s.renewal g = some w ∧ w.Continues w' := by
    intro u g₀ get₁ hne hsl hgets hreaders hnow h
    rcases renewal_putGet hne h with h | ⟨-, answer, l, rest, stored, ttl, ahead, hp, -⟩
    · refine ⟨w', renewal_congr (by rw [hgets]) (fun r x hr hx => ?_) h, .refl w'⟩
      rw [hreaders] at hr
      rw [hnow] at hx
      exact ⟨r, hr, hx⟩
    · exact absurd hp (hsl answer (l :: rest) stored ttl ahead)
  cases a with
  | get key options =>
    cases hs
    by_cases hg : g = s.clock
    · subst hg
      simp [renewal, putGet, openReader, putReader, Reader.renewable] at h
    · have h' : (s.openReader key .allowStale).renewal g = some w' := by
        refine renewal_congr ?_ ?_ h
        · simp [putGet, hg]
        · exact fun r x hr hx => ⟨r, hr, hx⟩
      exact ⟨w', renewal_openReader h', .refl w'⟩
  | conclude g₀ => exact renewal_conclude hs h
  | slide g₀ =>
    obtain ⟨get, answer, todo, stored, ttl, ahead, hg, hphase, ⟨rfl, rfl | ⟨-, rfl⟩⟩ |
      ⟨l, rest, rfl, hs'⟩⟩ := slide_spec hs
    · exact hother (by simp) (by simp) rfl rfl rfl h
    · exact hother (by simp) (by simp) rfl rfl rfl (renewal_schedule h)
    · have h' : (s.putGet g₀ { get with
          phase := .sliding answer rest stored ttl ahead }).renewal g = some w' := by
        rcases hs' with rfl | rfl
        · exact h
        · exact renewal_congr (by rfl) (fun r x hr hx => ⟨r, hr, hx⟩) h
      rcases renewal_putGet (by simp) h' with h' | ⟨rfl, ans, l', rest', stored', t', a', hp, rfl⟩
      · exact ⟨w', h', .refl w'⟩
      · cases hp
        refine ⟨⟨get.key, stored, l :: l' :: rest'⟩, by simp [renewal, hg, hphase], rfl, rfl, ?_⟩
        exact List.subset_cons_self _ _
  | enter g₀ =>
    obtain ⟨get, fallback, -, -, ⟨i, joined, -, -, -, rfl⟩ | ⟨inFlight, -, rfl⟩⟩ := enter_spec hs
    · exact hother (u := s) (by simp) (by simp) rfl rfl rfl h
    · exact hother (u := s) (by simp) (by simp) rfl rfl rfl h
  | leave g₀ =>
    obtain ⟨get, i, fallback, task, result, phase, inFlight, refreshes, -, -, -, -, hphase, -,
      rfl⟩ := leave_spec hs
    refine hother (u := s) ?_ ?_ rfl rfl rfl h
    · rcases hphase with ⟨answer, -, rfl⟩ | ⟨-, rfl⟩ <;> simp
    · rcases hphase with ⟨answer, -, rfl⟩ | ⟨-, rfl⟩ <;> simp
  | recheck i =>
    obtain ⟨task, missed, -, -, -, rfl⟩ := recheck_spec hs
    have h' : (s.openReader task.key .freshOnly).renewal g = some w' := h
    exact ⟨w', renewal_openReader h', .refl w'⟩
  | rechecked i =>
    obtain ⟨task, r, reader, phase, -, -, -, -, rfl⟩ := rechecked_spec hs
    exact hsame rfl rfl rfl
  | fetch i =>
    obtain ⟨task, missed, -, -, -, rfl⟩ := fetch_spec hs
    exact hsame rfl rfl rfl
  | fetched i outcome =>
    obtain ⟨task, born, -, -, ⟨result, -, -, rfl⟩ | ⟨write, tags, -, -, rfl⟩⟩ := fetched_spec hs
    · exact hsame rfl rfl rfl
    · exact hsame rfl rfl rfl
  | stored i =>
    obtain ⟨task, w, answer, writer, -, -, -, -, rfl⟩ := stored_spec hs
    exact hsame rfl rfl rfl
  | giveUp i =>
    obtain ⟨task, missed, -, -, rfl⟩ := giveUp_spec hs
    exact hsame rfl rfl rfl
  | settle i =>
    obtain ⟨task, result, inFlight, -, -, -, -, rfl⟩ := settleTask_spec hs
    exact hsame rfl rfl rfl

theorem storeChange_now {a : StoreAction} {c : Store K V} (h : s.storeChange a = some c) :
    s.store.now ≤ c.now := by
  cases a with
  | tick d =>
    simp only [storeChange, Option.ite_none_right_eq_some, Option.some.injEq] at h
    obtain ⟨hd, rfl⟩ := h
    exact le_add_of_nonneg_right hd
  | start t => obtain ⟨chain, o, -, -, rfl⟩ := start_spec h; exact le_rfl
  | land t m i => obtain ⟨o, st, p, st', -, -, -, rfl⟩ := land_spec h; exact le_rfl
  | check t m => obtain ⟨o, st, st', -, -, -, rfl⟩ := check_spec h; exact le_rfl
  | wipe t m i => obtain ⟨o, st, l', k', st', -, -, -, rfl⟩ := wipe_spec h; exact le_rfl
  | settle t => obtain ⟨o, chain, -, -, -, rfl⟩ := settle_spec h; exact le_rfl
  | erase b i => obtain ⟨r, l', -, ⟨k', -, rfl⟩ | ⟨-, rfl⟩⟩ := erase_spec h <;> exact le_rfl

/-- What a `get` may write back after a step it might have written back before, or it has just been
read. -/
theorem renewal_act [DecidableEq T] {a : Action K V T} (hok : s.Healthy a)
    (hs : s.act cfg a = some s') (h : s'.renewal g = some w') :
    (∃ w, s.renewal g = some w ∧ w.Continues w') ∨ a = .read (.load g) := by
  cases a with
  | fault a => cases hok
  | store a =>
    obtain ⟨store, hstore, rfl⟩ := storeStep_spec hs
    refine .inl ⟨w', ?_, .refl w'⟩
    refine renewal_congr ?_ ?_ h
    · rfl
    · exact fun r x hr hx => ⟨r, hr, Reader.renewable_of_later (storeChange_now hstore) hx⟩
  | read a =>
    rcases renewal_readStep hs h with h | rfl
    · exact .inl ⟨w', h, .refl w'⟩
    · exact .inr rfl
  | write a =>
    have hnow : s'.store.now = s.store.now := by
      have heffect := effect_writeStep hs
      generalize s'.store = c at heffect
      cases heffect <;> rfl
    obtain ⟨writers, index, store, queue, flushing, outbox, rfl⟩ := writeStep_frame hs
    refine .inl ⟨w', ?_, .refl w'⟩
    refine renewal_congr ?_ ?_ h
    · rfl
    · exact fun r x hr hx => ⟨r, hr, hnow ▸ hx⟩
  | invalidate a =>
    have hnow : s'.store.now = s.store.now := by
      have heffect : s.Effect cfg (.invalidate a) s'.store := effect_act hs
      generalize s'.store = c at heffect
      cases heffect <;> rfl
    obtain ⟨invs, index, store, queue, outbox, rfl⟩ := invalidateStep_frame hs
    refine .inl ⟨w', ?_, .refl w'⟩
    refine renewal_congr ?_ ?_ h
    · rfl
    · exact fun r x hr hx => ⟨r, hr, hnow ▸ hx⟩
  | get a => exact .inl (renewal_getStep hs h)

/-- A cell after a step has just been placed, or it was there and nothing was placed there. -/
theorem cells_placing [DecidableEq T] {a : Action K V T} (hwork : ∀ l, s.degraded l = false)
    (hs : s.act cfg a = some s') {cell : Cell V} (hcell : s'.store.cells l k = some cell) :
    (∃ p, s.placing a = some p ∧ p.layer = l ∧ p.key = k ∧ cell.item = p.item) ∨
      (s.store.cells l k = some cell ∧ ¬ ∃ p ∈ s.placing a, p.layer = l ∧ p.key = k) := by
  by_cases hp : ∃ p ∈ s.placing a, p.layer = l ∧ p.key = k
  · obtain ⟨p, hplacing, rfl, rfl⟩ := hp
    refine .inl ⟨p, hplacing, rfl, rfl, ?_⟩
    unfold placing at hplacing
    split at hplacing
    · obtain ⟨store, hland, rfl⟩ := storeStep_spec hs
      obtain ⟨⟨o, p'⟩, hlanding, rfl⟩ := Option.map_eq_some_iff.mp hplacing
      obtain ⟨o', st, q, st', ho, hst, hq, rfl⟩ := land_spec hland
      obtain rfl : q = p' := by
        simp only [landing, ho, hst, hq, Option.bind_eq_bind, Option.bind_some,
          Option.some.injEq, Prod.mk.injEq] at hlanding
        exact hlanding.2
      simp only [layerSet, cells_setCell, and_self, if_true, Option.some.injEq] at hcell
      rw [← hcell]
    · rename_i g
      simp only [Option.bind_eq_bind, Option.mem_def, Option.bind_eq_some_iff] at hplacing
      obtain ⟨get, hg, hplacing⟩ := hplacing
      split at hplacing
      · rename_i answer l rest stored ttl ahead hphase
        simp only [hwork, Bool.false_eq_true, if_false, Option.some.injEq] at hplacing
        subst hplacing
        have hs' : s.slide g = some s' := hs
        simp only [slide, hg, hphase, hwork, Option.bind_eq_bind, Option.bind_some,
          Bool.false_eq_true, if_false, Option.some.injEq] at hs'
        subst hs'
        simp only [layerSet, cells_setCell, and_self, if_true, Option.some.injEq] at hcell
        rw [← hcell]
      · cases hplacing
    · cases hplacing
  · refine .inr ⟨?_, hp⟩
    rcases cells_act hs hcell with hc | ⟨t, m, i, o, p, rfl, hlanding, rfl, rfl, -⟩ |
      ⟨g, get, answer, rest, stored, ttl, ahead, rfl, hg, hphase, rfl, -⟩
    · exact hc
    · exact absurd ⟨p, by simp [placing, hlanding], rfl, rfl⟩ hp
    · exact absurd ⟨⟨l, get.key, stored, ttl⟩, by simp [placing, hg, hphase, hwork], rfl, rfl⟩ hp

end Stack

namespace SlidingStack

def initial (now : Millis) (contents : ℕ → K → Option (Stored V × Option Millis)) :
    SlidingStack K V T where
  stack := .initial now contents
  readAt := fun _ => 0
  placedAt := fun _ _ => 0
  renewedBy := fun _ _ => none
  rewrites := []

def noteRead (s : SlidingStack K V T) : Action K V T → ℕ → ℕ
  | .read (.load r) => Function.update s.readAt r s.stack.clock
  | _ => s.readAt

def noteRewrite (s : SlidingStack K V T) : Action K V T → List (SlidingWrite V)
  | .get (.slide g) =>
    match s.stack.placing (.get (.slide g)) with
    | some p => {
        item := p.item
        readAt := s.readAt g
        replaced := (s.stack.store.cells p.layer p.key).map Cell.item
        placedAt := s.placedAt p.layer p.key } :: s.rewrites
    | none => s.rewrites
  | _ => s.rewrites

variable [DecidableEq K]

def notePlaced (s : SlidingStack K V T) (a : Action K V T) (l : ℕ) (k : K) : ℕ :=
  if ∃ p ∈ s.stack.placing a, p.layer = l ∧ p.key = k then s.stack.clock else s.placedAt l k

def noteRenewed (s : SlidingStack K V T) (a : Action K V T) (l : ℕ) (k : K) : Option ℕ :=
  if ∃ p ∈ s.stack.placing a, p.layer = l ∧ p.key = k then
    match a with
    | .get (.slide g) => some g
    | _ => none
  else s.renewedBy l k

variable [DecidableEq T]

def step (cfg : Config) (s : SlidingStack K V T) (a : Action K V T) :
    Option (SlidingStack K V T) :=
  (s.stack.step cfg a).map fun stack =>
    ⟨stack, s.noteRead a, s.notePlaced a, s.noteRenewed a, s.noteRewrite a⟩

variable {cfg : Config} {s s' : SlidingStack K V T} {a : Action K V T}

/-- No renewal that was called before a deletion was over has left a value from before the deletion
in a layer, and none has replaced a value that was placed after its read. -/
structure RespectsInvalidation (cfg : Config) (s : SlidingStack K V T) : Prop where
  cleared : ∀ d inv q k l g cell, s.stack.invalidations d = some inv → inv.localOnly = false →
    inv.phase = .resolved q → inv.target.Covers k → l < cfg.layers → s.renewedBy l k = some g →
      g < q → s.stack.store.cells l k = some cell → d ≤ cell.item.born
  rewrites : ∀ w ∈ s.rewrites, w.Sound

structure Inv (cfg : Config) (s : SlidingStack K V T) : Prop where
  intact : s.stack.Intact cfg
  linked : s.stack.Linked cfg s.stack.clock
  placedAt_lt : ∀ l k, s.placedAt l k < s.stack.clock
  current : ∀ g w, s.stack.renewal g = some w → ∀ l ∈ w.layers, ∀ cell,
    s.stack.store.cells l w.key = some cell →
      cell.item.born = w.item.born ∨ s.placedAt l w.key < s.readAt g
  cleared : ∀ d inv b, s.stack.invalidations d = some inv → inv.bumped = some b →
    inv.localOnly = false → ∀ l k g cell, s.stack.store.Reached b l k →
      s.renewedBy l k = some g → (∀ q, inv.phase = .resolved q → g < q) →
        s.stack.store.cells l k = some cell → d ≤ cell.item.born
  rewrites : ∀ w ∈ s.rewrites, w.Sound

omit [DecidableEq T] in
theorem Inv.respectsInvalidation (h : s.Inv cfg) : s.RespectsInvalidation cfg where
  cleared d inv q k l g cell hd hlocal hphase hk hl hg hlt hcell := by
    obtain ⟨-, ⟨hcalled, -⟩ | ⟨b, r, hb⟩⟩ := h.intact.invalidated d inv hd
    · simp [hcalled] at hphase
    · refine h.cleared d inv b hd hb.bumped hlocal l k g cell ⟨r, hb.removal, ?_, ?_⟩ hg ?_ hcell
      · exact ⟨hb.layers l hl (by simp [hlocal]), hb.target ▸ hk⟩
      · exact hb.not_pending hphase
      · intro q' hq'
        rw [hphase] at hq'
        cases hq'
        exact hlt
  rewrites := h.rewrites

omit [DecidableEq K] [DecidableEq T] in
theorem inv_initial [DecidableEq K] (now : Millis)
    (contents : ℕ → K → Option (Stored V × Option Millis)) :
    (initial now contents : SlidingStack K V T).Inv cfg where
  intact := Stack.intact_initial now contents
  linked := Stack.linked_initial now contents
  placedAt_lt _ _ := Nat.zero_lt_one
  current g w hw := by simp [initial, Stack.initial, Stack.renewal] at hw
  cleared d inv b hd := by simp [initial, Stack.initial] at hd
  rewrites := by simp [initial]

theorem step_spec (hs : s.step cfg a = some s') : ∃ stack, s.stack.act cfg a = some stack ∧
    s' = ⟨{ stack with clock := s.stack.clock + 1 }, s.noteRead a, s.notePlaced a, s.noteRenewed a,
      s.noteRewrite a⟩ := by
  obtain ⟨stack, hstep, rfl⟩ := Option.map_eq_some_iff.mp hs
  obtain ⟨stack, hact, rfl⟩ := Stack.step_spec hstep
  exact ⟨stack, hact, rfl⟩

omit [DecidableEq T] in
/-- What a `get` may write back after the step is still a copy of what the layers have, or they had
it before the read. -/
theorem Inv.current_act [DecidableEq T] (h : s.Inv cfg) (hok : s.stack.RenewsSafely a)
    {stack : Stack K V T} (hact : s.stack.act cfg a = some stack) {g : ℕ} {w' : Renewal K V}
    (hw' : stack.renewal g = some w') (hl : l ∈ w'.layers) {cell : Cell V}
    (hcell : stack.store.cells l w'.key = some cell) :
    cell.item.born = w'.item.born ∨ s.notePlaced a l w'.key < s.noteRead a g := by
  rcases Stack.renewal_act hok.healthy hact hw' with ⟨w, hw, hcont⟩ | rfl
  · rw [hcont.key] at hcell ⊢
    rw [hcont.born]
    have hlw := hcont.layers hl
    rcases Stack.cells_placing h.intact.working hact hcell with ⟨p, hp, hpl, hpk, hitem⟩ |
      ⟨hcell, hnone⟩
    · left
      by_contra hne
      obtain ⟨get, hget⟩ : ∃ get, s.stack.gets g = some get := by
        cases hget : s.stack.gets g with
        | none => simp [Stack.renewal, hget] at hw
        | some get => exact ⟨get, rfl⟩
      refine hok.supersedes ⟨p, hp, g, h.linked.get_lt g get hget, w, hw, hpk.symm, hpl ▸ hlw, ?_⟩
      rw [← hitem]
      exact fun he => hne he.symm
    · refine (h.current g w hw l hlw cell hcell).imp_right fun hlt => ?_
      rw [notePlaced, if_neg hnone]
      unfold noteRead
      split
      · rename_i r
        by_cases hr : g = r
        · subst hr
          rw [Function.update_self]
          exact h.placedAt_lt l w.key
        · rwa [Function.update_of_ne hr]
      · exact hlt
  · right
    simpa [notePlaced, Stack.placing, noteRead] using h.placedAt_lt l w'.key

omit [DecidableEq T] in
/-- No renewal has brought back a value to where a deletion has gone through. -/
theorem Inv.cleared_act [DecidableEq T] (h : s.Inv cfg) (hok : s.stack.RenewsSafely a)
    {stack : Stack K V T} (hact : s.stack.act cfg a = some stack) {d b g : ℕ} {inv : Invalidation K}
    (hd : stack.invalidations d = some inv) (hb : inv.bumped = some b)
    (hlocal : inv.localOnly = false) (hreached : stack.store.Reached b l k)
    (hrenewed : s.noteRenewed a l k = some g) (hover : ∀ q, inv.phase = .resolved q → g < q)
    {cell : Cell V} (hcell : stack.store.cells l k = some cell) : d ≤ cell.item.born := by
  have hstep := h.intact.store_act hok.healthy hact
  have hreached₀ := hstep.reached_of_cell h.intact.sound.wf hreached hcell
  rcases (Stack.proceeds_act hact).bumped_cases hd hb with rfl |
    ⟨inv₀, hd₀, hb₀, hlocal₀, -⟩
  · obtain ⟨r, hr, -⟩ := hreached₀
    exact absurd (h.intact.sound.wf.removals_lt _ r hr) (lt_irrefl _)
  · have hlt := (h.intact.invalidated d inv₀ hd₀).1
    have hover₀ : ∀ q, inv₀.phase = .resolved q → g < q := by
      intro q hq
      have hsame := Stack.resolved_act hlt hact hd₀ hq
      rw [hd] at hsame
      cases hsame
      exact hover q hq
    rcases Stack.cells_placing h.intact.working hact hcell with ⟨p, hp, rfl, rfl, hitem⟩ |
      ⟨hcell, hnone⟩
    · unfold noteRenewed at hrenewed
      rw [if_pos ⟨p, hp, rfl, rfl⟩] at hrenewed
      split at hrenewed
      · cases hrenewed
        rw [hitem]
        by_contra hold
        refine hok.deleted ⟨p, hp, d, hlt, inv₀, hd₀, b, hb₀, hlocal₀.trans hlocal, hreached₀,
          not_le.mp hold, ?_⟩
        split
        · exact hover₀ _ ‹_›
        · trivial
      · cases hrenewed
    · unfold noteRenewed at hrenewed
      rw [if_neg hnone] at hrenewed
      exact h.cleared d inv₀ b hd₀ hb₀ (hlocal₀.trans hlocal) l k g cell hreached₀ hrenewed
        hover₀ hcell

omit [DecidableEq T] in
/-- A renewal replaces a copy of its value, or what was there before its read. -/
theorem Inv.rewrites_act (h : s.Inv cfg) (hwork : ∀ l, s.stack.degraded l = false) :
    ∀ w ∈ s.noteRewrite a, w.Sound := by
  intro w hw
  unfold noteRewrite at hw
  split at hw
  · rename_i g
    split at hw
    · rename_i p hp
      rcases List.mem_cons.mp hw with rfl | hw
      · intro item hitem
        obtain ⟨cell, hcell, rfl⟩ := Option.map_eq_some_iff.mp hitem
        simp only [Stack.placing, Option.bind_eq_bind, Option.bind_eq_some_iff] at hp
        obtain ⟨get, hg, hp⟩ := hp
        split at hp
        · rename_i answer l rest stored ttl ahead hphase
          simp only [hwork, Bool.false_eq_true, if_false, Option.some.injEq] at hp
          subst hp
          exact h.current g ⟨get.key, stored, l :: rest⟩ (by simp [Stack.renewal, hg, hphase]) l
            List.mem_cons_self cell hcell
        · cases hp
      · exact h.rewrites w hw
    · exact h.rewrites w hw
  · exact h.rewrites w hw

theorem Inv.step (h : s.Inv cfg) (hok : s.stack.RenewsSafely a) (hs : s.step cfg a = some s') :
    s'.Inv cfg := by
  obtain ⟨stack, hact, rfl⟩ := step_spec hs
  have hstep : s.stack.step cfg a = some { stack with clock := s.stack.clock + 1 } := by
    simp [Stack.step, hact]
  constructor
  · exact h.intact.step hok.healthy hstep
  · exact h.linked.step hok.healthy hstep
  · intro l k
    dsimp only [notePlaced]
    split
    · exact Nat.lt_succ_self _
    · exact (h.placedAt_lt l k).trans (Nat.lt_succ_self _)
  · intro g w' hw' l hl cell hcell
    exact h.current_act hok hact hw' hl hcell
  · intro d inv b hd hb hlocal l k g cell hreached hrenewed hover hcell
    exact h.cleared_act hok hact hd hb hlocal hreached hrenewed hover hcell
  · exact h.rewrites_act h.intact.working

variable {now : Millis} {contents : ℕ → K → Option (Stored V × Option Millis)}

/-- Renewals that no deletion and no write overtakes bring nothing back and write nothing over. -/
theorem slidingTtl_respectsInvalidation
    (hrun : Reaches (step cfg) (fun s a => s.stack.RenewsSafely a) (initial now contents) s) :
    s.RespectsInvalidation cfg := by
  have hinv : s.Inv cfg := Reaches.invariant (P := fun s => s.Inv cfg) hrun
    (fun s a s' h hok hs => h.step hok hs) (inv_initial now contents)
  exact hinv.respectsInvalidation

/-- The slower of two layers has an entry for a minute. -/
def slowMinute (l k : ℕ) : Option (Stored ℕ × Option Millis) :=
  if l = 1 ∧ k = 0 then
    some (.envelope (createStoredValueEnvelope .value (some 5) ⟨some 60000, none, none⟩ 0), none)
  else none

/-- A `get` with sliding TTL hits the slower layer, writes the entry to the faster one, and is about
to renew both. -/
def hitSlow : List (Action ℕ ℕ ℕ) :=
  [.get (.get 0 ⟨false, true, fun _ => 0⟩), .read (.load 1), .read (.resume 1), .read (.load 1),
    .read (.resume 1), .read (.backfill 1 fun _ => none), .store (.start 6), .store (.land 6 0 0),
    .store (.check 6 0), .store (.settle 6), .read (.backfilled 1), .store (.tick 1000),
    .get (.conclude 1)]

def renew : List (Action ℕ ℕ ℕ) := [.get (.slide 1), .get (.slide 1), .get (.slide 1)]

/-- A deletion of the key, called at step `d`. -/
def deleteKey (d : ℕ) : List (Action ℕ ℕ ℕ) :=
  [.invalidate (.delete [0] .delete), .invalidate (.bump d), .store (.erase (d + 1) 0),
    .store (.erase (d + 1) 0), .invalidate (.removed d), .invalidate (.forget d),
    .invalidate (.forget d), .invalidate (.publish d)]

theorem slidingTtl_respectsInvalidation_at_hitSlow :
    ∃ s ∈ run (step memoryOverRedis) (initial 0 slowMinute)
        (hitSlow ++ renew ++ deleteKey 17),
      s.rewrites.length = 2 ∧ s.RespectsInvalidation memoryOverRedis := by
  obtain ⟨s, hs, hlength⟩ : ∃ s ∈ run (step memoryOverRedis) (initial 0 slowMinute)
      (hitSlow ++ renew ++ deleteKey 17), s.rewrites.length = 2 := by
    decide +kernel
  exact ⟨s, hs, hlength, slidingTtl_respectsInvalidation (reaches_of_run _ hs (by decide +kernel))⟩

/-- A deletion that comes between the hit and its renewals is undone in both layers, and a set
that comes there is lost in both. -/
theorem renewal_undoes_deletion :
    (∃ s ∈ run (step memoryOverRedis) (initial 0 slowMinute)
        (hitSlow ++ deleteKey 14 ++ renew),
      s.stack.Quiescent ∧ (∃ inv ∈ s.stack.invalidations 14, inv.phase = .resolved 21) ∧
        ∀ l < 2, s.renewedBy l 0 = some 1 ∧
          (s.stack.store.visible l 0).map Item.born = some 0) ∧
    ∃ s ∈ run (step memoryOverRedis) (initial 0 slowMinute)
        (hitSlow ++ [.write (.set 0 (.forMinute 7) none), .store (.start 14),
          .store (.land 14 0 0), .store (.land 14 0 0), .store (.check 14 0),
          .store (.settle 14), .write (.enqueue 14), .write (.verify 14), .write (.track 14),
          .write (.track 14), .write (.announce 14)] ++ renew),
      s.stack.Quiescent ∧ ∀ l < 2, (s.stack.store.visible l 0).map Item.born = some 0 := by
  constructor
  · decide +kernel
  · decide +kernel

end SlidingStack

end LayerCache
