import LayerCache.Expiry.Expire

/-! # Updates that an expiry overtakes

What an expiry writes back is what it has read, with another end of the fresh window. In
between nothing keeps a set, a read-through store, a deletion or a cleanup away from the
layer, and the write does not look. An expiry whose writes meet what it has read takes no
update back; expiries may run side by side.
-/

namespace LayerCache

open Store Transition

variable {K V T : Type} {l : ℕ} {k : K}

def Stored.withoutFreshUntil : Stored V → Stored V
  | .plain v => .plain v
  | .envelope e => .envelope { e with freshUntil := none }

theorem expireStoredEnvelope_withoutFreshUntil (clock now : Millis) (stored : Stored V) :
    (expireStoredEnvelope clock stored now).withoutFreshUntil = stored.withoutFreshUntil := by
  cases stored with
  | plain v => rfl
  | envelope e =>
    unfold expireStoredEnvelope
    split
    · rename_i heq
      cases heq
    · rename_i heq
      cases heq
      split <;> rfl

/-- The same value, written by the same write, whenever its fresh window ends. -/
structure Item.Alike (x y : Item V) : Prop where
  born : x.born = y.born
  stored : x.stored.withoutFreshUntil = y.stored.withoutFreshUntil

namespace Item.Alike

variable {x y z : Item V}

theorem refl (x : Item V) : x.Alike x := ⟨rfl, rfl⟩

theorem symm (h : x.Alike y) : y.Alike x := ⟨h.born.symm, h.stored.symm⟩

theorem trans (h : x.Alike y) (h' : y.Alike z) : x.Alike z :=
  ⟨h.born.trans h'.born, h.stored.trans h'.stored⟩

end Item.Alike

namespace Stack

variable [DecidableEq K] {cfg : Config} {s s' : Stack K V T}

theorem cells_layerDelete_of_ne {c : Store K V} {l' : ℕ} {k' : K} (h : ¬ (l' = l ∧ k' = k)) :
    (c.layerDelete l' k').cells l k = c.cells l k := by
  rw [layerDelete, cells_setCell, if_neg]
  rintro ⟨rfl, rfl⟩
  exact h ⟨rfl, rfl⟩

theorem storeChange_untouched {a : StoreAction} {c : Store K V} (h : s.storeChange a = some c)
    (ht : ¬ s.Touches l k (.store a : Action K V T)) : c.cells l k = s.store.cells l k := by
  cases a with
  | tick d =>
    simp only [storeChange, Option.ite_none_right_eq_some, Option.some.injEq] at h
    obtain ⟨-, rfl⟩ := h
    rfl
  | start t =>
    obtain ⟨chain, o, -, -, rfl⟩ := start_spec h
    rfl
  | land t m i =>
    obtain ⟨o, st, p, st', ho, hst, hland, rfl⟩ := land_spec h
    rw [layerSet, cells_setCell, if_neg]
    · rfl
    · rintro ⟨rfl, rfl⟩
      exact ht ⟨(o, p), by simp [landing, ho, hst, hland], rfl, rfl⟩
  | check t m =>
    obtain ⟨o, st, st', -, -, -, rfl⟩ := check_spec h
    rfl
  | wipe t m i =>
    obtain ⟨o, st, l', k', st', ho, hst, hwipe, rfl⟩ := wipe_spec h
    refine cells_layerDelete_of_ne (c := s.store.putOrder t _) ?_
    rintro ⟨rfl, rfl⟩
    exact ht (by simp [Touches, wiping, ho, hst, hwipe])
  | settle t =>
    obtain ⟨o, chain, -, -, -, rfl⟩ := settle_spec h
    rfl
  | erase b i =>
    obtain ⟨r, l', hr, ⟨k', hget, rfl⟩ | ⟨hget, rfl⟩⟩ := erase_spec h
    · refine cells_layerDelete_of_ne (c := s.store.putRemoval b _) ?_
      rintro ⟨rfl, rfl⟩
      exact ht ⟨(l', some k'), by simp [erasing, hr, hget], rfl, by simp⟩
    · have hl : l ≠ l' := by
        rintro rfl
        exact ht ⟨(l, none), by simp [erasing, hr, hget], rfl, by simp⟩
      simp [layerClear, putRemoval, hl]

theorem cells_untouched [DecidableEq T] {a : Action K V T} (h : s.act cfg a = some s')
    (ht : ¬ s.Touches l k a) : s'.store.cells l k = s.store.cells l k := by
  have heffect := effect_act h
  generalize s'.store = c at heffect
  cases heffect with
  | same | enlist | bump => rfl
  | store a ha => exact storeChange_untouched ha ht
  | landFail t m i ha =>
    obtain ⟨o, st, p, st', -, -, -, rfl⟩ := landFail_spec ha
    rfl
  | wipeFail t m i ha =>
    obtain ⟨o, st, l', k', st', -, -, -, rfl⟩ := wipeFail_spec ha
    rfl
  | eraseFail b i ha =>
    obtain ⟨r, -, rfl⟩ := eraseFail_spec ha
    rfl
  | purge r hr hphase =>
    refine cells_layerDelete_of_ne ?_
    rintro ⟨hl, hk⟩
    exact ht ⟨_, hr, hl, hk⟩
  | slide g hg hphase =>
    rw [layerSet, cells_setCell, if_neg]
    rintro ⟨rfl, rfl⟩
    exact ht ⟨_, hg, rfl, by simp [hphase]⟩

end Stack

/-- The entry that is going to be written back, with the step that read it. -/
def RewritePhase.pending : RewritePhase V → Option (Item V × ℕ)
  | .loaded (some found) readAt =>
    match found.stored with
    | .envelope _ => some (found, readAt)
    | .plain _ => none
  | .setting found readAt _ _ => some (found, readAt)
  | _ => none

/-- Nothing has been written or deleted since the entry was read, and it is replaced by itself. -/
structure Rewrite.Sound (w : Rewrite K V) : Prop where
  untouched : w.touched < w.readAt
  replaced : ∃ item, w.replaced = some item ∧ item.Alike w.found

namespace ExpiringStack

variable [DecidableEq K] {cfg : Config} {s s' : ExpiringStack K V T} {e : ℕ} {x : Expire K V}
  {r : Rewriting K V}

/-- No write and no deletion gets to an entry that an expiry has read and not yet written back. -/
def Undisturbed (s : ExpiringStack K V T) : ExpireAction K V T → Prop
  | .stack a => ∀ e < s.stack.clock, ∀ x ∈ s.expires e, ∀ r ∈ x.rewritings,
      r.phase.pending.isSome = true → ¬ s.stack.Touches r.layer r.key a
  | _ => True

instance (s : ExpiringStack K V T) : DecidablePred s.Undisturbed := fun a => by
  unfold Undisturbed
  split <;> infer_instance

omit [DecidableEq K] in
/-- What an expiry is about to write back is still there. -/
structure Current (s : ExpiringStack K V T) (r : Rewriting K V) : Prop where
  pending : ∀ found readAt, r.phase.pending = some (found, readAt) →
    s.touched r.layer r.key < readAt ∧
      ∃ cell, s.stack.store.cells r.layer r.key = some cell ∧ cell.item.Alike found
  setting : ∀ found readAt expired ttl, r.phase = .setting found readAt expired ttl →
    expired.Alike found

structure Inv (s : ExpiringStack K V T) : Prop where
  lt_clock : ∀ e x, s.expires e = some x → e < s.stack.clock
  touched_lt : ∀ l k, s.touched l k < s.stack.clock
  current : ∀ e x, s.expires e = some x → ∀ r ∈ x.rewritings, s.Current r
  rewrites : ∀ w ∈ s.rewrites, w.Sound

omit [DecidableEq K] in
theorem Current.of_phase (hpending : r.phase.pending = none) : s.Current r where
  pending found readAt h := by simp [hpending] at h
  setting found readAt expired ttl h := by simp [RewritePhase.pending, h] at hpending

omit [DecidableEq K] in
theorem Current.frame (h : s.Current r)
    (hcell : r.phase.pending.isSome = true →
      s'.stack.store.cells r.layer r.key = s.stack.store.cells r.layer r.key ∧
        s'.touched r.layer r.key = s.touched r.layer r.key) : s'.Current r where
  pending found readAt hp := by
    obtain ⟨hc, ht⟩ := hcell (by simp [hp])
    rw [hc, ht]
    exact h.pending found readAt hp
  setting := h.setting

omit [DecidableEq K] in
theorem Inv.putExpire (h : s.Inv) (stack : Stack K V T) (he : e ≤ s.stack.clock)
    (hx : ∀ r ∈ x.rewritings, s.Current r) (hcells : stack.store.cells = s.stack.store.cells) :
    Inv { s.putExpire e x with stack := { stack with clock := s.stack.clock + 1 } } where
  lt_clock e' x' hx' := by
    rcases update_eq_some hx' with ⟨rfl, -⟩ | ⟨-, hx'⟩
    · exact Nat.lt_succ_of_le he
    · exact (h.lt_clock e' x' hx').trans (Nat.lt_succ_self _)
  touched_lt l k := (h.touched_lt l k).trans (Nat.lt_succ_self _)
  current e' x' hx' r hr := by
    have hr' : s.Current r := by
      rcases update_eq_some hx' with ⟨rfl, rfl⟩ | ⟨-, hx'⟩
      · exact hx r hr
      · exact h.current e' x' hx' r hr
    exact hr'.frame fun _ => ⟨congrFun (congrFun hcells _) _, rfl⟩
  rewrites := h.rewrites

omit [DecidableEq K] in
theorem Inv.setRewriting (h : s.Inv) (hx : s.expires e = some x) {i : ℕ} (hr : s.Current r) :
    ∀ r' ∈ (x.setRewriting i r).rewritings, s.Current r' := by
  intro r' hr'
  rcases List.mem_or_eq_of_mem_set hr' with hin | rfl
  · exact h.current e x hx r' hin
  · exact hr

theorem Inv.stack [DecidableEq T] (h : s.Inv) {a : Action K V T} {stack : Stack K V T}
    (hok : s.Undisturbed (.stack a)) (hact : s.stack.act cfg a = some stack) :
    Inv { s with
      stack := { stack with clock := s.stack.clock + 1 }
      touched := fun l k => if s.stack.Touches l k a then s.stack.clock else s.touched l k } where
  lt_clock e x hx := (h.lt_clock e x hx).trans (Nat.lt_succ_self _)
  touched_lt l k := by
    dsimp only
    split
    · exact Nat.lt_succ_self _
    · exact (h.touched_lt l k).trans (Nat.lt_succ_self _)
  current e x hx r hr := by
    refine (h.current e x hx r hr).frame fun hpending => ?_
    have ht := hok e (h.lt_clock e x hx) x hx r hr hpending
    have hcell := Stack.cells_untouched hact ht
    exact ⟨hcell, if_neg ht⟩
  rewrites := h.rewrites

/-- A write of an expiry finds what it has read. What other expiries have read stays there, as
only its fresh window ends. -/
theorem Inv.rewrite (h : s.Inv) {i readAt : ℕ} {found expired : Item V} {ttl : Option Millis}
    (hx : s.expires e = some x) (hr : x.rewritings[i]? = some r)
    (hphase : r.phase = .setting found readAt expired ttl) :
    Inv { s.putExpire e (x.setRewriting i { r with phase := .done true }) with
      stack := { s.stack with
        clock := s.stack.clock + 1
        store := s.stack.store.layerSet ⟨r.layer, r.key, expired, ttl⟩ none }
      rewrites := ⟨r.layer, r.key, found, readAt,
        (s.stack.store.cells r.layer r.key).map Cell.item, s.touched r.layer r.key⟩ ::
          s.rewrites } := by
  have hcurrent := h.current e x hx r (List.mem_of_getElem? hr)
  obtain ⟨htouched, cell, hcell, halike⟩ :=
    hcurrent.pending found readAt (by simp [RewritePhase.pending, hphase])
  have hexpired := hcurrent.setting found readAt expired ttl hphase
  constructor
  · intro e' x' hx'
    rcases update_eq_some hx' with ⟨rfl, -⟩ | ⟨-, hx'⟩
    · exact (h.lt_clock e' x hx).trans (Nat.lt_succ_self _)
    · exact (h.lt_clock e' x' hx').trans (Nat.lt_succ_self _)
  · exact fun l k => (h.touched_lt l k).trans (Nat.lt_succ_self _)
  · intro e' x' hx' r' hr'
    have hr₀ : s.Current r' := by
      rcases update_eq_some hx' with ⟨rfl, rfl⟩ | ⟨-, hx'⟩
      · exact h.setRewriting hx (.of_phase rfl) r' hr'
      · exact h.current e' x' hx' r' hr'
    refine ⟨fun found' readAt' hpending => ?_, hr₀.setting⟩
    obtain ⟨htouched', cell', hcell', halike'⟩ := hr₀.pending found' readAt' hpending
    refine ⟨htouched', ?_⟩
    by_cases hlk : r'.layer = r.layer ∧ r'.key = r.key
    · rw [hlk.1, hlk.2, hcell, Option.some.injEq] at hcell'
      subst hcell'
      refine ⟨_, by simp only [layerSet, cells_setCell, if_pos hlk]; rfl, ?_⟩
      exact hexpired.trans (halike.symm.trans halike')
    · exact ⟨cell', by simp only [layerSet, cells_setCell, if_neg hlk, hcell'], halike'⟩
  · rintro w hw
    rcases List.mem_cons.mp hw with rfl | hw
    · exact ⟨htouched, cell.item, by simp [hcell], halike⟩
    · exact h.rewrites w hw

theorem Inv.step [DecidableEq T] (h : s.Inv) {a : ExpireAction K V T} (hok : s.Undisturbed a)
    (hs : s.step cfg a = some s') : s'.Inv := by
  obtain ⟨s₁, hact, rfl⟩ := Option.map_eq_some_iff.mp hs
  cases a with
  | stack a =>
    obtain ⟨stack, hstack, rfl⟩ := actStack_spec hact
    exact h.stack hok hstack
  | expire keys localOnly =>
    cases hact
    refine h.putExpire { s.stack with store := _ } le_rfl ?_ rfl
    intro r hr
    obtain ⟨l, -, hr⟩ := List.mem_flatMap.mp hr
    obtain ⟨k, -, rfl⟩ := List.mem_map.mp hr
    exact .of_phase rfl
  | load e i =>
    obtain ⟨x, r, hx, hr, -, rfl⟩ := load_spec hact
    refine h.putExpire s.stack (h.lt_clock e x hx).le (h.setRewriting hx ⟨?_, ?_⟩) rfl
    · intro found readAt hpending
      cases hvisible : s.stack.store.visible r.layer r.key with
      | none => simp [RewritePhase.pending, hvisible] at hpending
      | some item =>
        obtain ⟨cell, hcell, hitem⟩ := Option.bind_eq_some_iff.mp hvisible
        simp only [RewritePhase.pending, hvisible] at hpending
        split at hpending
        · cases hpending
          refine ⟨h.touched_lt _ _, cell, hcell, ?_⟩
          split at hitem
          · cases hitem
            exact .refl _
          · cases hitem
        · cases hpending
    · rintro found readAt expired ttl ⟨⟩
  | resume e i =>
    obtain ⟨x, r, phase, hx, hr, rfl, ⟨found, rfl⟩ | ⟨found, readAt, hphase, henv, rfl⟩⟩ :=
      resume_spec hact
    · exact h.putExpire s.stack (h.lt_clock e x hx).le
        (h.setRewriting hx (.of_phase rfl)) rfl
    · have hcurrent := h.current e x hx r (List.mem_of_getElem? hr)
      have hstored : ∃ env, found.stored = .envelope env := by
        cases hfound : found.stored with
        | plain v => simp [hfound, isStoredValueEnvelope] at henv
        | envelope env => exact ⟨env, rfl⟩
      obtain ⟨env, hstored⟩ := hstored
      refine h.putExpire s.stack (h.lt_clock e x hx).le (h.setRewriting hx ⟨?_, ?_⟩) rfl
      · rintro found' readAt' ⟨⟩
        exact hcurrent.pending found readAt (by simp [RewritePhase.pending, hphase, hstored])
      · rintro found' readAt' expired ttl ⟨⟩
        exact ⟨rfl, expireStoredEnvelope_withoutFreshUntil _ _ _⟩
  | rewrite e i =>
    obtain ⟨x, r, found, readAt, expired, ttl, hx, hr, hphase, rfl⟩ := rewrite_spec hact
    exact h.rewrite hx hr hphase
  | finish e =>
    obtain ⟨x, phase, hx, rfl⟩ := finish_spec hact
    exact h.putExpire s.stack (h.lt_clock e x hx).le (h.current e x hx) rfl
  | forget e =>
    obtain ⟨x, phase, index, hx, rfl⟩ := forget_spec hact
    exact h.putExpire { s.stack with index } (h.lt_clock e x hx).le
      (h.current e x hx) rfl
  | publish e =>
    obtain ⟨x, phase, outbox, hx, rfl⟩ := publish_spec hact
    exact h.putExpire { s.stack with outbox } (h.lt_clock e x hx).le
      (h.current e x hx) rfl

omit [DecidableEq K] in
theorem inv_initial (now : Millis) (contents : ℕ → K → Option (Stored V × Option Millis)) :
    (initial now contents : ExpiringStack K V T).Inv where
  lt_clock := by simp [initial]
  touched_lt _ _ := Nat.zero_lt_one
  current := by simp [initial]
  rewrites := by simp [initial]

variable [DecidableEq T] {now : Millis} {contents : ℕ → K → Option (Stored V × Option Millis)}

/-- As long as nothing gets to an entry between an expiry's read and its write, every write of an
expiry replaces the entry that it has read. -/
theorem expire_loses_no_update (hrun : Reaches (step cfg) Undisturbed (initial now contents) s) :
    ∀ w ∈ s.rewrites, w.Sound := by
  have hinv : s.Inv := Reaches.invariant hrun (fun s a s' h hok hs => h.step hok hs)
    (inv_initial now contents)
  exact hinv.rewrites

/-- A key with an entry in both layers, half a minute later, and an expiry that has read them. -/
def readForExpiry : List (ExpireAction ℕ ℕ ℕ) :=
  [.stack (.write (.set 0 (.forMinute 7) none)), .stack (.store (.start 1)),
    .stack (.store (.land 1 0 0)), .stack (.store (.land 1 0 0)), .stack (.store (.check 1 0)),
    .stack (.store (.settle 1)), .stack (.store (.tick 30000)), .expire [0] false, .load 8 1,
    .load 8 0, .resume 8 0, .resume 8 1]

def writeBack : List (ExpireAction ℕ ℕ ℕ) :=
  [.rewrite 8 0, .rewrite 8 1, .finish 8, .forget 8, .publish 8]

/-- A second value for the key, which goes to both layers with order `n`. -/
def secondSet (n : ℕ) : List (ExpireAction ℕ ℕ ℕ) :=
  [.stack (.write (.set 0 (.forMinute 8) none)), .stack (.store (.start n)),
    .stack (.store (.land n 0 0)), .stack (.store (.land n 0 0)), .stack (.store (.check n 0)),
    .stack (.store (.settle n)), .stack (.write (.enqueue n)), .stack (.write (.verify n)),
    .stack (.write (.track n)), .stack (.write (.track n)), .stack (.write (.announce n))]

/-- The key is deleted in both layers by invalidation number `n`. -/
def deletion (n : ℕ) : List (ExpireAction ℕ ℕ ℕ) :=
  [.stack (.invalidate (.delete [0] .delete)), .stack (.invalidate (.bump n)),
    .stack (.store (.erase (n + 1) 0)), .stack (.store (.erase (n + 1) 0)),
    .stack (.invalidate (.removed n)), .stack (.invalidate (.forget n)),
    .stack (.invalidate (.forget n)), .stack (.invalidate (.publish n))]

/-- Two expiries side by side find what they have read, and between them and a third the key is
set again; in the end it is deleted. -/
def expiriesAndUpdates : List (ExpireAction ℕ ℕ ℕ) :=
  readForExpiry ++ [.expire [0] false, .load 13 0, .resume 13 0] ++ writeBack ++
    [.rewrite 13 0] ++ secondSet 22 ++ [.expire [0] false, .load 33 0, .resume 33 0,
      .rewrite 33 0] ++ deletion 37

theorem expire_loses_no_update_at_threeExpiries :
    ∃ s ∈ run (step memoryOverRedis) (initial 0 fun _ _ => none) expiriesAndUpdates,
      s.rewrites.length = 4 ∧ (∀ l < 2, s.stack.store.visible l 0 = none) ∧
        ∀ w ∈ s.rewrites, w.Sound := by
  obtain ⟨s, hs, hlength, hdeleted⟩ :
      ∃ s ∈ run (step memoryOverRedis) (initial 0 fun _ _ => none) expiriesAndUpdates,
        s.rewrites.length = 4 ∧ ∀ l < 2, s.stack.store.visible l 0 = none := by
    decide +kernel
  exact ⟨s, hs, hlength, hdeleted,
    expire_loses_no_update (reaches_of_run _ hs (by decide +kernel))⟩

/-- An expiry writes over what has been set since it read, and puts back what has been deleted
since. -/
theorem expire_writes_back_old_entry :
    (∃ s ∈ run (step memoryOverRedis) (initial 0 fun _ _ => none)
        (readForExpiry ++ secondSet 13 ++ writeBack),
      (∃ writer ∈ s.stack.writers 13, writer.phase = .done) ∧
      (∀ l < 2, ∃ w ∈ s.rewrites, w.layer = l ∧ w.readAt < w.touched ∧
        w.replaced.map Item.born = some 13) ∧
      ∀ l < 2, (s.stack.store.visible l 0).map Item.born = some 1) ∧
    ∃ s ∈ run (step memoryOverRedis) (initial 0 fun _ _ => none)
        (readForExpiry ++ deletion 13 ++ writeBack),
      (∃ inv ∈ s.stack.invalidations 13, inv.phase = .resolved 20) ∧
      (∀ l < 2, ∃ w ∈ s.rewrites, w.layer = l ∧ w.readAt < w.touched ∧ w.replaced = none) ∧
      ∀ l < 2, (s.stack.store.visible l 0).map Item.born = some 1 := by
  constructor
  · decide +kernel
  · decide +kernel

end ExpiringStack

end LayerCache
