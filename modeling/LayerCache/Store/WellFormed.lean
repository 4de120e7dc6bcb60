import LayerCache.Store.Steps

/-! # Well-formed stores

What every step of the stack keeps, with or without failing layers: the chain and the
orders belong together, no order looks at a fence that was not captured, and every
cell that an order placed belongs to a started order for its key.
-/

namespace LayerCache

open TailChain

variable {K V : Type} {c c' : Store K V} {t n m i b l : ℕ} {k : K} {o : Order K V}
  {st st' : Strand K V} {f : Fence} {captured : ℕ} {faults : Prop}

namespace Store

/-- The writes and wipes of a strand are for keys of its order, and those under way are for
keys that were active. -/
structure StrandOk (o : Order K V) (st : Strand K V) : Prop where
  put_key : ∀ p ∈ st.puts, p.key ∈ o.keys
  active_key : ∀ active todo, st.phase = .writing active todo → ∀ k ∈ active, k ∈ o.keys
  todo_put : ∀ active todo, st.phase = .writing active todo → ∀ p ∈ todo,
    p ∈ st.puts ∧ p.key ∈ active
  wiped_key : ∀ todo, st.phase = .wiping todo → ∀ lk ∈ todo, lk.2 ∈ o.keys

theorem StrandOk.land (h : StrandOk o st) {p : Put K V} (hland : st.land i = some (p, st')) :
    StrandOk o st' ∧ p ∈ st.puts := by
  obtain ⟨active, todo, hphase, hp, rfl⟩ := Strand.land_spec hland
  refine ⟨⟨h.put_key, ?_, ?_, by simp⟩, (h.todo_put active todo hphase p
    (List.mem_of_getElem? hp)).1⟩
  · intro a t' he
    cases he
    exact h.active_key active todo hphase
  · intro a t' he q hq
    cases he
    exact h.todo_put active todo hphase q (List.mem_of_mem_eraseIdx hq)

theorem StrandOk.wipe (h : StrandOk o st) {lk : ℕ × K} (hwipe : st.wipe i = some (lk, st')) :
    StrandOk o st' := by
  obtain ⟨todo, hphase, -, rfl⟩ := Strand.wipe_spec hwipe
  refine ⟨h.put_key, ?_, ?_, ?_⟩
  · intro a t' he
    simp only at he
    split at he <;> cases he
  · intro a t' he
    simp only at he
    split at he <;> cases he
  · intro t' he x hx
    simp only at he
    split at he <;> cases he
    exact h.wiped_key todo hphase x (List.mem_of_mem_eraseIdx hx)

theorem Strand.busy_of_land {p : Put K V} (h : st.land i = some (p, st')) :
    st.phase ≠ .planned ∧ st.done = false ∧ st'.phase ≠ .planned := by
  obtain ⟨active, todo, hphase, -, rfl⟩ := Strand.land_spec h
  simp [Strand.done, hphase]

theorem Strand.busy_of_wipe {lk : ℕ × K} (h : st.wipe i = some (lk, st')) :
    st.phase ≠ .planned ∧ st.done = false ∧ st'.phase ≠ .planned := by
  obtain ⟨todo, hphase, -, rfl⟩ := Strand.wipe_spec h
  refine ⟨by simp [hphase], by simp [Strand.done, hphase], ?_⟩
  simp only
  split <;> simp

/-- An order and its ticket: they have the same keys and are equally far. -/
structure Ticketed (chain : Chain K) (t : ℕ) (o : Order K V) (tk : Ticket K) : Prop where
  get : chain.tickets t = some tk
  keys : ∀ k, k ∈ tk.keys ↔ k ∈ o.keys
  planned : ∀ st ∈ o.strands, st.phase = .planned ↔ tk.phase = .queued
  done : tk.phase = .settled → ∀ st ∈ o.strands, st.done = true

def Started (chain : Chain K) (t : ℕ) : Prop :=
  ∃ tk, chain.tickets t = some tk ∧ tk.phase ≠ .queued

theorem mem_setStrand {s : Strand K V} (h : s ∈ (o.setStrand m st').strands) :
    s ∈ o.strands ∨ s = st' :=
  List.mem_or_eq_of_mem_set h

variable [DecidableEq K]

structure Wf (n : ℕ) (c : Store K V) : Prop where
  epochs : c.epochs.Valid
  chain : c.chain.Valid
  below : c.chain.Below n
  removals_lt : ∀ b r, c.removals b = some r → b < n
  ticket : ∀ t o, c.orders t = some o → ∃ tk, Ticketed c.chain t o tk
  order : ∀ t tk, c.chain.tickets t = some tk → ∃ o, c.orders t = some o
  captured_le : ∀ t o, c.orders t = some o → o.captured ≤ t
  knows : ∀ t o, c.orders t = some o → ∀ k ∈ o.keys, c.Knows k (o.fence k) o.captured
  strand : ∀ t o, c.orders t = some o → ∀ st ∈ o.strands, StrandOk o st
  placed : ∀ l k cell t, c.cells l k = some cell → cell.writer = some t →
    Started c.chain t ∧ ∃ o, c.orders t = some o ∧ k ∈ o.keys

theorem wf_initial (now : Millis) (contents : ℕ → K → Option (Stored V × Option Millis)) :
    (initial now contents).Wf n where
  epochs := Epochs.valid_initial
  chain := Chain.valid_empty
  below := fun _ _ => rfl
  removals_lt := by simp [initial]
  ticket := by simp [initial]
  order := by simp [initial, Chain.empty]
  captured_le := by simp [initial]
  knows := by simp [initial]
  strand := by simp [initial]
  placed := by
    intro l k cell t hc ht
    obtain ⟨x, -, rfl⟩ := Option.map_eq_some_iff.mp hc
    cases ht

theorem Knows.outdated_of_lt (h : c.Knows k f captured) {r : Removal K}
    (hr : c.removals b = some r) (hk : r.target.Covers k) (hb : captured < b) :
    c.epochs.isWriteOutdated k f = true := by
  rw [Epochs.isWriteOutdated_iff]
  intro hf
  have := h.2 hf b r hr hk
  omega

theorem Knows.of_current (c : Store K V) (k : K) (h : ∀ b r, c.removals b = some r → b < n) :
    c.Knows k (c.epochs.fence k) n :=
  ⟨le_rfl, fun _ b r hr _ => (h b r hr).le⟩

theorem fence_le_bump (hv : c.epochs.Valid) (target : Target K) (layers : List ℕ) (k : K) :
    c.epochs.fence k ≤ (c.bump n target layers).epochs.fence k := by
  cases target with
  | keys ks => exact hv.fence_le_bumpKeyEpochs ks k
  | all => exact (Epochs.fence_lt_beginClearEpoch _ k).le

/-- An outdated fence stays outdated when the epochs move on. -/
theorem Knows.outdated_bump (h : c.Knows k f captured) (hv : c.epochs.Valid)
    (hout : c.epochs.isWriteOutdated k f = true) (target : Target K) (layers : List ℕ) :
    (c.bump n target layers).epochs.isWriteOutdated k f = true := by
  rw [Epochs.isWriteOutdated_iff] at hout ⊢
  exact ((h.1.lt_of_ne hout).trans_le (fence_le_bump hv target layers k)).ne

theorem Knows.bump (h : c.Knows k f captured) (hv : c.epochs.Valid) (target : Target K)
    (layers : List ℕ) : (c.bump n target layers).Knows k f captured := by
  have hle : c.epochs.fence k ≤ (c.bump n target layers).epochs.fence k :=
    fence_le_bump hv target layers k
  refine ⟨h.1.trans hle, fun hf b r hr hk => ?_⟩
  have hsame : f = c.epochs.fence k := le_antisymm h.1 (hf ▸ hle)
  by_cases hb : b = n
  · subst hb
    simp only [Store.bump, Function.update_self, Option.some.injEq] at hr
    subst hr
    -- the new fence of a covered key is strictly ahead
    have hlt : c.epochs.fence k < (c.bump b target layers).epochs.fence k := by
      cases target with
      | keys ks => exact hv.fence_lt_bumpKeyEpochs hk
      | all => exact Epochs.fence_lt_beginClearEpoch _ k
    exact absurd (hsame ▸ hf) hlt.ne
  · simp only [Store.bump, Function.update_of_ne hb] at hr
    exact h.2 hsame b r hr hk

theorem Wf.lt_of_order (h : c.Wf n) (ho : c.orders t = some o) : t < n := by
  obtain ⟨tk, htk⟩ := h.ticket t o ho
  by_contra hn
  exact absurd htk.get (by simp [h.below t (by omega)])

theorem Wf.running (h : c.Wf n) (ho : c.orders t = some o) (hst : st ∈ o.strands)
    (hplanned : st.phase ≠ .planned) (hdone : st.done = false) :
    ∃ tk, Ticketed c.chain t o tk ∧ tk.phase = .running := by
  obtain ⟨tk, htk⟩ := h.ticket t o ho
  refine ⟨tk, htk, ?_⟩
  cases hp : tk.phase with
  | running => rfl
  | queued => exact absurd ((htk.planned st hst).mpr hp) hplanned
  | settled => simp [htk.done hp st hst] at hdone

theorem Wf.exclusive (h : c.Wf n) {t' : ℕ} {o' : Order K V} {tk tk' : Ticket K}
    (htk : Ticketed c.chain t o tk) (htk' : Ticketed c.chain t' o' tk') (hrun : tk.phase = .running)
    (hrun' : tk'.phase = .running) (hk : k ∈ o.keys) (hk' : k ∈ o'.keys) : t = t' :=
  h.chain.exclusive htk.get htk'.get hrun hrun' ((htk.keys k).mpr hk) ((htk'.keys k).mpr hk')

theorem Wf.mono (h : c.Wf n) : c.Wf (n + 1) where
  __ := h
  below i hi := h.below i (by omega)
  removals_lt b r hr := (h.removals_lt b r hr).trans (Nat.lt_succ_self n)

theorem Wf.setCell (h : c.Wf n) {cell : Option (Cell V)}
    (hcell : ∀ t, (∃ x ∈ cell, x.writer = some t) →
      Started c.chain t ∧ ∃ o, c.orders t = some o ∧ k ∈ o.keys) : (c.setCell l k cell).Wf n where
  __ := h
  placed l' k' cell' t' hc ht := by
    by_cases hl : l' = l
    · subst hl
      by_cases hk : k' = k
      · subst hk
        simp only [Store.setCell, Function.update_self] at hc
        exact hcell t' ⟨cell', hc, ht⟩
      · simp only [Store.setCell, Function.update_self, Function.update_of_ne hk] at hc
        exact h.placed l' k' cell' t' hc ht
    · simp only [Store.setCell, Function.update_of_ne hl] at hc
      exact h.placed l' k' cell' t' hc ht

theorem Wf.layerDelete (h : c.Wf n) (l : ℕ) (k : K) : (c.layerDelete l k).Wf n :=
  h.setCell (by simp)

theorem Wf.layerClear (h : c.Wf n) (l : ℕ) : (c.layerClear l).Wf n where
  __ := h
  placed l' k' cell' t' hc ht := by
    by_cases hl : l' = l
    · subst hl
      simp [Store.layerClear] at hc
    · simp only [Store.layerClear, Function.update_of_ne hl] at hc
      exact h.placed l' k' cell' t' hc ht

omit [DecidableEq K] in
theorem exists_update {u : ℕ} (h : ∃ o₁, c.orders u = some o₁) :
    ∃ o₁, Function.update c.orders t (some o) u = some o₁ := by
  by_cases hu : u = t
  · exact ⟨o, by simp [hu]⟩
  · simpa [hu] using h

theorem Wf.setStrand (h : c.Wf n) (ho : c.orders t = some o) (hst : st ∈ o.strands)
    (hplanned : st.phase ≠ .planned) (hdone : st.done = false) (hok : StrandOk o st')
    (hplanned' : st'.phase ≠ .planned) : (c.putOrder t (o.setStrand m st')).Wf n := by
  obtain ⟨tk, htk, hrun⟩ := h.running ho hst hplanned hdone
  have horders : ∀ t' o', (c.putOrder t (o.setStrand m st')).orders t' = some o' →
      (t' = t ∧ o' = o.setStrand m st') ∨ (t' ≠ t ∧ c.orders t' = some o') := by
    intro t' o' ho'
    by_cases ht : t' = t
    · subst ht
      simp only [putOrder, Function.update_self, Option.some.injEq] at ho'
      exact .inl ⟨rfl, ho'.symm⟩
    · simp only [putOrder, Function.update_of_ne ht] at ho'
      exact .inr ⟨ht, ho'⟩
  refine { h with ticket := ?_, order := fun u tk hu => exists_update (h.order u tk hu),
                  captured_le := ?_, knows := ?_, strand := ?_, placed := ?_ }
  · intro t' o' ho'
    rcases horders t' o' ho' with ⟨rfl, rfl⟩ | ⟨-, ho'⟩
    · refine ⟨tk, htk.get, htk.keys, fun s hs => ?_, fun hs => by simp [hrun] at hs⟩
      rcases mem_setStrand hs with hs | rfl
      · exact htk.planned s hs
      · simp [hplanned', hrun]
    · exact h.ticket t' o' ho'
  · intro t' o' ho'
    rcases horders t' o' ho' with ⟨rfl, rfl⟩ | ⟨-, ho'⟩
    · exact h.captured_le t' o ho
    · exact h.captured_le t' o' ho'
  · intro t' o' ho'
    rcases horders t' o' ho' with ⟨rfl, rfl⟩ | ⟨-, ho'⟩
    · exact h.knows t' o ho
    · exact h.knows t' o' ho'
  · intro t' o' ho' s hs
    rcases horders t' o' ho' with ⟨rfl, rfl⟩ | ⟨-, ho'⟩
    · rcases mem_setStrand hs with hs | rfl
      · exact { h.strand t' o ho s hs with }
      · exact { hok with }
    · exact h.strand t' o' ho' s hs
  · intro l k cell t' hc ht'
    obtain ⟨hs, o', ho', hk⟩ := h.placed l k cell t' hc ht'
    refine ⟨hs, ?_⟩
    by_cases ht : t' = t
    · subst ht
      rw [ho] at ho'
      cases ho'
      exact ⟨o.setStrand m st', by simp [putOrder], hk⟩
    · exact ⟨o', by simp [putOrder, ht, ho'], hk⟩

theorem Wf.bump (h : c.Wf n) (target : Target K) (layers : List ℕ) :
    (c.bump n target layers).Wf (n + 1) where
  __ := h.mono
  epochs := by
    cases target with
    | keys ks => exact h.epochs.bumpKeyEpochs ks
    | all => exact h.epochs.beginClearEpoch
  removals_lt b r hr := by
    by_cases hb : b = n
    · omega
    · simp only [Store.bump, Function.update_of_ne hb] at hr
      exact (h.removals_lt b r hr).trans (Nat.lt_succ_self n)
  knows t o ho k hk := (h.knows t o ho k hk).bump h.epochs target layers

theorem Knows.putRemoval (h : c.Knows k f captured) {r : Removal K}
    (hr : c.removals b = some r) (todo : List (ℕ × Option K)) :
    (c.putRemoval b { r with todo }).Knows k f captured := by
  refine ⟨h.1, fun hf b' s hs hk => ?_⟩
  by_cases hb : b' = b
  · subst hb
    simp only [Store.putRemoval, Function.update_self, Option.some.injEq] at hs
    subst hs
    exact h.2 hf b' r hr hk
  · simp only [Store.putRemoval, Function.update_of_ne hb] at hs
    exact h.2 hf b' s hs hk

theorem Wf.putRemoval (h : c.Wf n) {r : Removal K} (hr : c.removals b = some r)
    (todo : List (ℕ × Option K)) : (c.putRemoval b { r with todo }).Wf n where
  __ := h
  removals_lt b' s hs := by
    by_cases hb : b' = b
    · subst hb
      exact h.removals_lt b' r hr
    · simp only [Store.putRemoval, Function.update_of_ne hb] at hs
      exact h.removals_lt b' s hs
  knows t o ho k hk := (h.knows t o ho k hk).putRemoval hr todo

theorem Wf.settle (h : c.Wf n) (hs : c.settle t = some c') : c'.Wf n := by
  obtain ⟨o, chain, ho, hchain, hdone, rfl⟩ := settle_spec hs
  have hbelow := Chain.below_settle h.below hchain
  have hvalid := h.chain.settle hchain
  obtain ⟨tk, htk, hrun, rfl⟩ := Chain.settle_spec hchain
  refine { h with chain := hvalid, below := hbelow, ticket := ?_, order := ?_, placed := ?_ }
  · intro t' o' ho'
    obtain ⟨tk', hget, hkeys, hplanned, hdone'⟩ := h.ticket t' o' ho'
    by_cases ht : t' = t
    · subst ht
      rw [htk] at hget
      cases hget
      rw [ho] at ho'
      cases ho'
      exact ⟨{ tk with phase := .settled }, by simp, hkeys,
        fun st hst => by simp [hplanned st hst, hrun], fun _ => hdone⟩
    · exact ⟨tk', by simpa [ht] using hget, hkeys, hplanned, hdone'⟩
  · intro t' tk' htk'
    by_cases ht : t' = t
    · exact ⟨o, ht ▸ ho⟩
    · exact h.order t' tk' (by simpa [ht] using htk')
  · intro l k cell t' hc ht'
    obtain ⟨⟨tk', hget, hne⟩, ho'⟩ := h.placed l k cell t' hc ht'
    refine ⟨?_, ho'⟩
    by_cases ht : t' = t
    · subst ht
      exact ⟨{ tk with phase := .settled }, by simp, by simp⟩
    · exact ⟨tk', by simpa [ht] using hget, hne⟩

theorem orders_enlist {n t : ℕ} {o' : Order K V} (ho' : (c.enlist n o).orders t = some o') :
    (t = n ∧ o' = o) ∨ (t ≠ n ∧ c.orders t = some o') := by
  by_cases ht : t = n
  · subst ht
    simp only [Store.enlist, Function.update_self, Option.some.injEq] at ho'
    exact .inl ⟨rfl, ho'.symm⟩
  · simp only [Store.enlist, Function.update_of_ne ht] at ho'
    exact .inr ⟨ht, ho'⟩

theorem Wf.enlist (h : c.Wf n) (hplanned : ∀ st ∈ o.strands, st.phase = .planned)
    (hkeys : ∀ st ∈ o.strands, ∀ p ∈ st.puts, p.key ∈ o.keys) (hcaptured : o.captured ≤ n)
    (hknows : ∀ k ∈ o.keys, c.Knows k (o.fence k) o.captured) : (c.enlist n o).Wf (n + 1) := by
  refine
    { epochs := h.epochs
      chain := h.chain.enlist h.below o.keys
      below := Chain.below_enlist h.below
      removals_lt := h.mono.removals_lt
      ticket := ?_, order := ?_, captured_le := ?_, knows := ?_, strand := ?_, placed := ?_ }
  · intro t o' ho'
    rcases orders_enlist ho' with ⟨rfl, rfl⟩ | ⟨ht, ho'⟩
    · exact ⟨_, by simp [Store.enlist, Chain.enlist]; rfl, by simp, by simpa using hplanned,
        by simp⟩
    · obtain ⟨tk, htk⟩ := h.ticket t o' ho'
      exact ⟨tk, { htk with get := (Chain.tickets_enlist_of_ne ht).trans htk.get }⟩
  · intro t tk htk
    by_cases ht : t = n
    · exact ⟨o, by simp [Store.enlist, ht]⟩
    · exact exists_update (h.order t tk ((Chain.tickets_enlist_of_ne ht).symm.trans htk))
  · intro t o' ho'
    rcases orders_enlist ho' with ⟨rfl, rfl⟩ | ⟨-, ho'⟩
    · exact hcaptured
    · exact h.captured_le t o' ho'
  · intro t o' ho'
    rcases orders_enlist ho' with ⟨rfl, rfl⟩ | ⟨-, ho'⟩
    · exact hknows
    · exact h.knows t o' ho'
  · intro t o' ho' st hst
    rcases orders_enlist ho' with ⟨rfl, rfl⟩ | ⟨-, ho'⟩
    · have hp := hplanned st hst
      exact ⟨hkeys st hst, by simp [hp], by simp [hp], by simp [hp]⟩
    · exact h.strand t o' ho' st hst
  · intro l k cell t hc ht
    obtain ⟨⟨tk, hget, hne⟩, o', ho', hk⟩ := h.placed l k cell t hc ht
    have htn : t ≠ n := Nat.ne_of_lt (h.lt_of_order ho')
    exact ⟨⟨tk, (Chain.tickets_enlist_of_ne htn).trans hget, hne⟩, o',
      by simp [Store.enlist, htn, ho'], hk⟩

theorem start_phase (st : Strand K V) (active : List K) (skipped : ℕ → Bool) :
    (st.start active skipped).phase = .finished false ∨
    (st.start active skipped).phase =
      .writing active (st.puts.filter fun p => p.key ∈ active && !skipped p.layer) := by
  simp only [Strand.start]
  split
  · exact .inl rfl
  · exact .inr rfl

theorem StrandOk.start (h : StrandOk o st) (active : List K) (hactive : ∀ k ∈ active, k ∈ o.keys)
    (skipped : ℕ → Bool) : StrandOk o (st.start active skipped) := by
  refine ⟨h.put_key, ?_, ?_, ?_⟩
  · intro a todo hp
    rcases start_phase st active skipped with he | he <;> rw [he] at hp <;> cases hp
    exact hactive
  · intro a todo hp p hmem
    rcases start_phase st active skipped with he | he <;> rw [he] at hp <;> cases hp
    simp only [List.mem_filter, Bool.and_eq_true, decide_eq_true_eq] at hmem
    exact ⟨hmem.1, hmem.2.1⟩
  · intro todo hp
    rcases start_phase st active skipped with he | he <;> rw [he] at hp <;> cases hp

theorem Wf.start (h : c.Wf n) {skipped : ℕ → Bool} (hs : c.start skipped t = some c') :
    c'.Wf n := by
  obtain ⟨chain, o, hchain, ho, rfl⟩ := start_spec hs
  have hbelow := Chain.below_start h.below hchain
  have hvalid := h.chain.start hchain
  obtain ⟨tk, htk, hq, -, rfl⟩ := Chain.start_spec hchain
  set active := o.keys.filter fun k => !c.epochs.isWriteOutdated k (o.fence k) with hactive
  set skip : ℕ → Bool := if o.kind = .set then skipped else fun _ => false
  have horders : ∀ t' o', Function.update c.orders t (some { o with
      strands := o.strands.map fun st => st.start active skip }) t' = some o' →
      (t' = t ∧ o' = { o with strands := o.strands.map fun st => st.start active skip }) ∨
      (t' ≠ t ∧ c.orders t' = some o') := by
    intro t' o' ho'
    by_cases ht : t' = t
    · subst ht
      simp only [Function.update_self, Option.some.injEq] at ho'
      exact .inl ⟨rfl, ho'.symm⟩
    · simp only [Function.update_of_ne ht] at ho'
      exact .inr ⟨ht, ho'⟩
  refine { h with chain := hvalid, below := hbelow, ticket := ?_, order := ?_, captured_le := ?_,
                  knows := ?_, strand := ?_, placed := ?_ }
  · intro t' o' ho'
    rcases horders t' o' ho' with ⟨rfl, rfl⟩ | ⟨ht, ho'⟩
    · obtain ⟨tk', hget, hkeys, -, -⟩ := h.ticket t' o ho
      rw [htk] at hget
      cases hget
      refine ⟨{ tk with phase := .running }, by simp, hkeys, ?_, by simp⟩
      intro s hmem
      obtain ⟨st, -, rfl⟩ := List.mem_map.mp hmem
      rcases start_phase st active skip with he | he <;> simp [he]
    · obtain ⟨tk', htk'⟩ := h.ticket t' o' ho'
      exact ⟨tk', { htk' with get := by simpa [ht] using htk'.get }⟩
  · intro t' tk' htk'
    refine exists_update ?_
    by_cases ht : t' = t
    · exact ⟨o, ht ▸ ho⟩
    · exact h.order t' tk' (by simpa [ht] using htk')
  · intro t' o' ho'
    rcases horders t' o' ho' with ⟨rfl, rfl⟩ | ⟨-, ho'⟩
    · exact h.captured_le t' o ho
    · exact h.captured_le t' o' ho'
  · intro t' o' ho'
    rcases horders t' o' ho' with ⟨rfl, rfl⟩ | ⟨-, ho'⟩
    · exact h.knows t' o ho
    · exact h.knows t' o' ho'
  · intro t' o' ho' s hmem
    rcases horders t' o' ho' with ⟨rfl, rfl⟩ | ⟨-, ho'⟩
    · obtain ⟨st, hst, rfl⟩ := List.mem_map.mp hmem
      have hok := (h.strand t' o ho st hst).start active
        (fun k hk => (List.mem_filter.mp hk).1) skip
      exact { hok with }
    · exact h.strand t' o' ho' s hmem
  · intro l k cell t' hc ht'
    obtain ⟨⟨tk', hget, hne⟩, o', ho', hk⟩ := h.placed l k cell t' hc ht'
    by_cases ht : t' = t
    · subst ht
      rw [htk] at hget
      cases hget
      exact absurd hq hne
    · exact ⟨⟨tk', by simpa [ht] using hget, hne⟩, o', by simp [ht, ho'], hk⟩

theorem StrandOk.check (h : StrandOk o st) {outdated : K → Bool}
    (hcheck : st.check outdated = some st') : StrandOk o st' := by
  obtain ⟨active, hphase, hputs, -, hcases⟩ := Strand.check_spec hcheck
  refine ⟨hputs ▸ h.put_key, ?_, ?_, ?_⟩
  · intro a t' he
    rcases hcases with ⟨ok, hok, -⟩ | ⟨-, hw⟩
    · simp [hok] at he
    · simp [hw] at he
  · intro a t' he
    rcases hcases with ⟨ok, hok, -⟩ | ⟨-, hw⟩
    · simp [hok] at he
    · simp [hw] at he
  · intro todo he lk hlk
    rcases hcases with ⟨ok, hok, -⟩ | ⟨-, hw⟩
    · simp [hok] at he
    · rw [hw] at he
      cases he
      simp only [List.mem_flatMap, List.mem_filter, List.mem_map] at hlk
      obtain ⟨k, ⟨hk, -⟩, l, -, rfl⟩ := hlk
      exact h.active_key active [] hphase k hk

theorem Strand.busy_of_check {outdated : K → Bool} (h : st.check outdated = some st') :
    st.phase ≠ .planned ∧ st.done = false ∧ st'.phase ≠ .planned := by
  obtain ⟨active, hphase, -, -, ⟨ok, hok, -⟩ | ⟨-, hw⟩⟩ := Strand.check_spec h
  · simp [Strand.done, hphase, hok]
  · simp [Strand.done, hphase, hw]

/-- Every step keeps the store well formed. -/
theorem Wf.step (h : c.Wf n) (hstep : c.Step faults n c') : c'.Wf (n + 1) := by
  cases hstep with
  | idle => exact h.mono
  | tick d hd => exact { h.mono with }
  | enlist o hplanned hkeys hsweep hcaptured hknows =>
    exact h.enlist hplanned hkeys hcaptured hknows
  | start skipped t hs => exact (h.start hs).mono
  | land t m i hs =>
    obtain ⟨o, st, p, st', ho, hst, hland, rfl⟩ := land_spec hs
    have hmem := List.mem_of_getElem? hst
    obtain ⟨hplanned, hdone, hplanned'⟩ := Strand.busy_of_land hland
    obtain ⟨hok, hp⟩ := (h.strand t o ho st hmem).land hland
    obtain ⟨tk, htk, hrun⟩ := h.running ho hmem hplanned hdone
    refine ((h.setStrand ho hmem hplanned hdone hok hplanned').setCell ?_).mono
    rintro t' ⟨x, hx, ht'⟩
    cases hx
    cases ht'
    exact ⟨⟨tk, htk.get, by simp [hrun]⟩, o.setStrand m st', by simp [putOrder],
      (h.strand t o ho st hmem).put_key p hp⟩
  | landFail hf t m i hs =>
    obtain ⟨o, st, p, st', ho, hst, hland, rfl⟩ := landFail_spec hs
    have hmem := List.mem_of_getElem? hst
    obtain ⟨hplanned, hdone, hplanned'⟩ := Strand.busy_of_land hland
    exact (h.setStrand ho hmem hplanned hdone ((h.strand t o ho st hmem).land hland).1
      hplanned').mono
  | check t m hs =>
    obtain ⟨o, st, st', ho, hst, hcheck, rfl⟩ := check_spec hs
    have hmem := List.mem_of_getElem? hst
    obtain ⟨hplanned, hdone, hplanned'⟩ := Strand.busy_of_check hcheck
    exact (h.setStrand ho hmem hplanned hdone ((h.strand t o ho st hmem).check hcheck)
      hplanned').mono
  | wipe t m i hs =>
    obtain ⟨o, st, l, k, st', ho, hst, hwipe, rfl⟩ := wipe_spec hs
    have hmem := List.mem_of_getElem? hst
    obtain ⟨hplanned, hdone, hplanned'⟩ := Strand.busy_of_wipe hwipe
    exact ((h.setStrand ho hmem hplanned hdone ((h.strand t o ho st hmem).wipe hwipe)
      hplanned').layerDelete l k).mono
  | wipeFail hf t m i hs =>
    obtain ⟨o, st, l, k, st', ho, hst, hwipe, rfl⟩ := wipeFail_spec hs
    have hmem := List.mem_of_getElem? hst
    obtain ⟨hplanned, hdone, hplanned'⟩ := Strand.busy_of_wipe hwipe
    exact (h.setStrand ho hmem hplanned hdone ((h.strand t o ho st hmem).wipe hwipe)
      hplanned').mono
  | settle t hs => exact (h.settle hs).mono
  | bump target layers => exact h.bump target layers
  | erase b i hs =>
    obtain ⟨r, l, hr, ⟨k, -, rfl⟩ | ⟨-, rfl⟩⟩ := erase_spec hs
    · exact ((h.putRemoval hr _).layerDelete l k).mono
    · exact ((h.putRemoval hr _).layerClear l).mono
  | eraseFail hf b i hs =>
    obtain ⟨r, hr, rfl⟩ := eraseFail_spec hs
    exact (h.putRemoval hr _).mono
  | purge l k => exact (h.layerDelete l k).mono
  | rewrite p =>
    refine (h.setCell ?_).mono
    rintro t' ⟨x, hx, ht'⟩
    cases hx
    cases ht'

/-- A step leaves the epochs and the invalidations alone, makes one, or marks a deletion of one
as through. -/
theorem Step.fences (hstep : c.Step faults n c') :
    (c'.epochs = c.epochs ∧ c'.removals = c.removals) ∨
    (∃ target layers, c' = c.bump n target layers) ∨
    (∃ b r todo, c.removals b = some r ∧ (∀ x ∈ todo, x ∈ r.todo) ∧ c'.epochs = c.epochs ∧
      c'.removals = Function.update c.removals b (some { r with todo })) := by
  cases hstep with
  | idle | tick | enlist | purge | rewrite => exact .inl ⟨rfl, rfl⟩
  | start skipped t hs =>
    obtain ⟨chain, o, -, -, rfl⟩ := start_spec hs
    exact .inl ⟨rfl, rfl⟩
  | land t m i hs =>
    obtain ⟨o, st, p, st', -, -, -, rfl⟩ := land_spec hs
    exact .inl ⟨rfl, rfl⟩
  | landFail hf t m i hs =>
    obtain ⟨o, st, p, st', -, -, -, rfl⟩ := landFail_spec hs
    exact .inl ⟨rfl, rfl⟩
  | check t m hs =>
    obtain ⟨o, st, st', -, -, -, rfl⟩ := check_spec hs
    exact .inl ⟨rfl, rfl⟩
  | wipe t m i hs =>
    obtain ⟨o, st, l, k, st', -, -, -, rfl⟩ := wipe_spec hs
    exact .inl ⟨rfl, rfl⟩
  | wipeFail hf t m i hs =>
    obtain ⟨o, st, l, k, st', -, -, -, rfl⟩ := wipeFail_spec hs
    exact .inl ⟨rfl, rfl⟩
  | settle t hs =>
    obtain ⟨o, chain, -, -, -, rfl⟩ := settle_spec hs
    exact .inl ⟨rfl, rfl⟩
  | bump target layers => exact .inr (.inl ⟨target, layers, rfl⟩)
  | erase b i hs =>
    obtain ⟨r, l, hr, ⟨k, -, rfl⟩ | ⟨-, rfl⟩⟩ := erase_spec hs
    · exact .inr (.inr ⟨b, r, _, hr, fun _ => List.mem_of_mem_eraseIdx, rfl, rfl⟩)
    · exact .inr (.inr ⟨b, r, _, hr, fun _ => List.mem_of_mem_eraseIdx, rfl, rfl⟩)
  | eraseFail hf b i hs =>
    obtain ⟨r, hr, rfl⟩ := eraseFail_spec hs
    exact .inr (.inr ⟨b, r, _, hr, fun _ => List.mem_of_mem_eraseIdx, rfl, rfl⟩)

theorem Step.started (hwf : c.Wf n) (hstep : c.Step faults n c') (h : Started c.chain t) :
    Started c'.chain t := by
  obtain ⟨tk, hget, hne⟩ := h
  cases hstep with
  | idle | tick | purge | rewrite | bump => exact ⟨tk, hget, hne⟩
  | enlist o =>
    have ht : t ≠ n := by
      rintro rfl
      simp [hwf.below t le_rfl] at hget
    exact ⟨tk, (Chain.tickets_enlist_of_ne ht).trans hget, hne⟩
  | start skipped u hs =>
    obtain ⟨chain, o, hchain, -, rfl⟩ := start_spec hs
    obtain ⟨tk', hget', hqueued, -, rfl⟩ := Chain.start_spec hchain
    by_cases htu : t = u
    · subst htu
      rw [hget] at hget'
      cases hget'
      exact absurd hqueued hne
    · exact ⟨tk, by simpa [htu] using hget, hne⟩
  | settle u hs =>
    obtain ⟨o, chain, -, hchain, -, rfl⟩ := settle_spec hs
    obtain ⟨tk', -, -, rfl⟩ := Chain.settle_spec hchain
    by_cases htu : t = u
    · subst htu
      exact ⟨{ tk' with phase := .settled }, by simp, by simp⟩
    · exact ⟨tk, by simpa [htu] using hget, hne⟩
  | land u m i hs =>
    obtain ⟨o, st, p, st', -, -, -, rfl⟩ := land_spec hs
    exact ⟨tk, hget, hne⟩
  | landFail hf u m i hs =>
    obtain ⟨o, st, p, st', -, -, -, rfl⟩ := landFail_spec hs
    exact ⟨tk, hget, hne⟩
  | check u m hs =>
    obtain ⟨o, st, st', -, -, -, rfl⟩ := check_spec hs
    exact ⟨tk, hget, hne⟩
  | wipe u m i hs =>
    obtain ⟨o, st, l, k, st', -, -, -, rfl⟩ := wipe_spec hs
    exact ⟨tk, hget, hne⟩
  | wipeFail hf u m i hs =>
    obtain ⟨o, st, l, k, st', -, -, -, rfl⟩ := wipeFail_spec hs
    exact ⟨tk, hget, hne⟩
  | erase b i hs =>
    obtain ⟨r, l, -, ⟨k, -, rfl⟩ | ⟨-, rfl⟩⟩ := erase_spec hs
    · exact ⟨tk, hget, hne⟩
    · exact ⟨tk, hget, hne⟩
  | eraseFail hf b i hs =>
    obtain ⟨r, -, rfl⟩ := eraseFail_spec hs
    exact ⟨tk, hget, hne⟩

theorem Knows.step (hwf : c.Wf n) (hstep : c.Step faults n c') (h : c.Knows k f captured) :
    c'.Knows k f captured := by
  rcases hstep.fences with ⟨he, hr⟩ | ⟨target, layers, rfl⟩ | ⟨b, r, todo, hr, -, he, hrem⟩
  · simpa [Knows, he, hr] using h
  · exact h.bump hwf.epochs target layers
  · simpa [Knows, he, hrem, Store.putRemoval] using h.putRemoval hr todo

theorem Step.removal (hwf : c.Wf n) (hstep : c.Step faults n c') {r : Removal K}
    (hr : c.removals b = some r) : ∃ todo, c'.removals b = some { r with todo } ∧
      ∀ x ∈ todo, x ∈ r.todo := by
  rcases hstep.fences with ⟨-, h⟩ | ⟨target, layers, rfl⟩ | ⟨b', r', todo, hr', htodo, -, h⟩
  · exact ⟨r.todo, h ▸ hr, fun _ => id⟩
  · have hb : b ≠ n := Nat.ne_of_lt (hwf.removals_lt b r hr)
    exact ⟨r.todo, by simpa [Store.bump, hb] using hr, fun _ => id⟩
  · by_cases hb : b = b'
    · subst hb
      rw [hr] at hr'
      cases hr'
      exact ⟨todo, by simp [h], htodo⟩
    · exact ⟨r.todo, by simpa [h, hb] using hr, fun _ => id⟩

end Store

end LayerCache
