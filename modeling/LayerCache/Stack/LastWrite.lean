import LayerCache.Stack.Unfenced
import Mathlib.Data.List.Pairwise

/-! # The last write

Without invalidations the chain alone decides what the layers hold: once the last write
of a key has landed in a layer, the layer keeps the entry that this write made for it or
for a slower layer, as long as no read writes an older entry back behind it, none deletes
the new entry in place of an expired one, and no bulk set names the key twice.
-/

namespace LayerCache

open Store Transition

variable {K V T : Type} {cfg : Config} {s s' : Stack K V T} {c c' : Store K V}
  {n t u m i l : ℕ} {k : K} {o o' : Order K V} {st st' : Strand K V}

/-- The strand has nothing left to write under the key in the layer. -/
def Strand.Landed (st : Strand K V) (l : ℕ) (k : K) : Prop :=
  match st.phase with
  | .writing _ todo => ∀ p ∈ todo, ¬ (p.layer = l ∧ p.key = k)
  | .finished _ => True
  | _ => False

def Order.Landed (o : Order K V) (l : ℕ) (k : K) : Prop :=
  ∀ st ∈ o.strands, (∃ p ∈ st.puts, p.layer = l ∧ p.key = k) → st.Landed l k

theorem Order.not_landed_of_planned (hplanned : ∀ st ∈ o.strands, st.phase = .planned)
    (hput : ∃ p, o.Writes p ∧ p.layer = l ∧ p.key = k) : ¬ o.Landed l k := by
  rintro h
  obtain ⟨p, ⟨st, hst, hp⟩, hl, hk⟩ := hput
  simpa [Strand.Landed, hplanned st hst] using h st hst ⟨p, hp, hl, hk⟩

theorem Order.landed_setStrand (hst : o.strands[m]? = some st) (hputs : st'.puts = st.puts)
    (himp : st'.Landed l k → st.Landed l k) (h : (o.setStrand m st').Landed l k) :
    o.Landed l k := by
  intro x hx hput
  obtain ⟨hm, hget⟩ := List.getElem?_eq_some_iff.mp hst
  obtain ⟨j, hj, rfl⟩ := List.mem_iff_getElem.mp hx
  by_cases hjm : j = m
  · subst hjm
    rw [hget] at hput ⊢
    exact himp (h st' (List.mem_set hj st') (hputs ▸ hput))
  · refine h _ (List.mem_iff_getElem.mpr ⟨j, by simpa [Order.setStrand] using hj, ?_⟩) hput
    simp [Order.setStrand, Ne.symm hjm]

theorem Order.not_landed_start [DecidableEq K] {active : List K} {skipped : ℕ → Bool}
    (hk : k ∈ active) (hskipped : ∀ l, skipped l = false)
    (hput : ∃ p, o.Writes p ∧ p.layer = l ∧ p.key = k) :
    ¬ ({ o with strands := o.strands.map fun st => st.start active skipped } :
      Order K V).Landed l k := by
  obtain ⟨p, ⟨st, hst, hp⟩, hl, hpk⟩ := hput
  intro hlanded
  have := hlanded _ (List.mem_map.mpr ⟨st, hst, rfl⟩) ⟨p, hp, hl, hpk⟩
  have hne : active.isEmpty = false := by
    rw [List.isEmpty_eq_false_iff]
    exact List.ne_nil_of_mem hk
  simp only [Strand.Landed, Strand.start, hne, Bool.false_eq_true, if_false] at this
  refine this p (List.mem_filter.mpr ⟨hp, ?_⟩) ⟨hl, hpk⟩
  simp [hpk, hk, hskipped]

theorem Strand.puts_of_land {p : Put K V} (hland : st.land i = some (p, st')) :
    st'.puts = st.puts := by
  obtain ⟨active, todo, -, -, rfl⟩ := Strand.land_spec hland
  rfl

theorem Strand.landed_of_land {p : Put K V} (hland : st.land i = some (p, st'))
    (hp : ¬ (p.layer = l ∧ p.key = k)) (h : st'.Landed l k) : st.Landed l k := by
  obtain ⟨active, todo, hphase, hget, rfl⟩ := Strand.land_spec hland
  simp only [Strand.Landed, hphase] at h ⊢
  intro q hq
  rcases mem_eraseIdx_or_eq hq hget with hq | rfl
  · exact h q hq
  · exact hp

def Item.Carries (item : Item V) (kind : CacheWriteKind) (value : Option V) : Prop :=
  ∃ e, item.stored = .envelope e ∧ e.kind = kind ∧ e.value = value

namespace Store

/-- An entry that write `t` makes of the key, in any layer. -/
def EntryOf (c : Store K V) (t : ℕ) (k : K) (item : Item V) : Prop :=
  ∃ o ∈ c.orders t, ∃ st ∈ o.strands, ∃ p ∈ st.puts, p.key = k ∧ p.item = item

instance [DecidableEq K] [DecidableEq V] (c : Store K V) (t : ℕ) (k : K) (item : Item V) :
    Decidable (c.EntryOf t k item) := by
  unfold EntryOf
  infer_instance

def IsWrite (c : Store K V) (k : K) (t : ℕ) : Prop :=
  ∃ o ∈ c.orders t, o.kind ≠ .backfill ∧ k ∈ o.keys

instance [DecidableEq K] (c : Store K V) (k : K) (t : ℕ) : Decidable (c.IsWrite k t) := by
  unfold IsWrite
  infer_instance

/-- An entry that write `t` makes of the key, for the layer or a slower one. -/
def EntryFrom (c : Store K V) (t l : ℕ) (k : K) (item : Item V) : Prop :=
  ∃ o ∈ c.orders t, ∃ st ∈ o.strands, ∃ p ∈ st.puts, l ≤ p.layer ∧ p.key = k ∧ p.item = item

instance [DecidableEq K] [DecidableEq V] (c : Store K V) (t l : ℕ) (k : K) (item : Item V) :
    Decidable (c.EntryFrom t l k item) := by
  unfold EntryFrom
  infer_instance

theorem EntryFrom.entryOf {item : Item V} (h : c.EntryFrom t l k item) : c.EntryOf t k item := by
  obtain ⟨o, ho, st, hst, p, hp, -, hk, hitem⟩ := h
  exact ⟨o, ho, st, hst, p, hp, hk, hitem⟩

theorem EntryFrom.faster {item : Item V} {l' : ℕ} (h : c.EntryFrom t l k item) (hle : l' ≤ l) :
    c.EntryFrom t l' k item := by
  obtain ⟨o, ho, st, hst, p, hp, hl, hk, hitem⟩ := h
  exact ⟨o, ho, st, hst, p, hp, hle.trans hl, hk, hitem⟩

theorem entryFrom_iff (ho : c.orders t = some o) {item : Item V} :
    c.EntryFrom t l k item ↔ ∃ p, o.Writes p ∧ l ≤ p.layer ∧ p.key = k ∧ p.item = item := by
  constructor
  · rintro ⟨o', ho', st, hst, p, hp, hl, hk, hitem⟩
    obtain rfl : o = o' := by simpa [ho] using ho'
    exact ⟨p, ⟨st, hst, hp⟩, hl, hk, hitem⟩
  · rintro ⟨p, ⟨st, hst, hp⟩, hl, hk, hitem⟩
    exact ⟨o, ho, st, hst, p, hp, hl, hk, hitem⟩

theorem entryFrom_same (ho : c.orders t = some o) (ho' : c'.orders t = some o')
    (hsame : o.Same o') {item : Item V} :
    c'.EntryFrom t l k item ↔ c.EntryFrom t l k item := by
  rw [entryFrom_iff ho, entryFrom_iff ho']
  simp only [hsame.writes_iff]

def Expired (c : Store K V) (item : Item V) : Prop :=
  (resolveStoredValue c.now item.stored c.now).state = .expired

instance (c : Store K V) (item : Item V) : Decidable (c.Expired item) := by
  unfold Expired
  infer_instance

/-- The layer has an entry that write `t` made for it or for a slower layer, or nothing now that
such an entry has expired. -/
def HoldsWrite (c : Store K V) (t l : ℕ) (k : K) : Prop :=
  ∃ item, c.EntryFrom t l k item ∧ (∀ cell, c.cells l k = some cell → cell.item = item) ∧
    (c.cells l k = none → c.Expired item)

theorem HoldsWrite.mono (h : c.HoldsWrite t l k) (hcells : c'.cells l k = c.cells l k)
    (hentry : ∀ item, c.EntryFrom t l k item → c'.EntryFrom t l k item) (hnow : c.now ≤ c'.now) :
    c'.HoldsWrite t l k := by
  obtain ⟨item, hitem, hcell, hnone⟩ := h
  exact ⟨item, hentry item hitem, fun cell hc => hcell cell (hcells ▸ hc),
    fun hc => expired_mono hnow (hnone (hcells ▸ hc))⟩

theorem HoldsWrite.layerDelete [DecidableEq K] (h : c.HoldsWrite t l k) {layer : ℕ} {key : K}
    (hexpired : layer = l → key = k → ∀ cell ∈ c.cells l k, c.EntryFrom t l k cell.item →
      c.Expired cell.item) : (c.layerDelete layer key).HoldsWrite t l k := by
  by_cases hlk : l = layer ∧ k = key
  · obtain ⟨rfl, rfl⟩ := hlk
    obtain ⟨item, hitem, hcells, hnone⟩ := h
    refine ⟨item, hitem, fun cell hc => ?_, fun _ => ?_⟩
    · simp [Store.layerDelete, cells_setCell] at hc
    · cases hcell : c.cells l k with
      | none => exact hnone hcell
      | some cell =>
        obtain rfl := hcells cell hcell
        exact hexpired rfl rfl cell hcell hitem
  · exact h.mono (by rw [Store.layerDelete, cells_setCell, if_neg hlk]) (fun _ h => h) le_rfl

theorem holdsWrite_layerSet [DecidableEq K] {p : Put K V} {writer : Option ℕ}
    (h : c.EntryFrom t p.layer p.key p.item) :
    (c.layerSet p writer).HoldsWrite t p.layer p.key := by
  refine ⟨p.item, h, fun cell hc => ?_, fun hc => ?_⟩
  · simp only [layerSet, cells_setCell, and_self, if_true, Option.some.injEq] at hc
    rw [← hc]
  · simp [layerSet, cells_setCell] at hc

/-- A strand of one order goes on, and no order has landed by that. -/
theorem landed_of_putOrder {q : Order K V} (ho : c.orders t = some o) (hq : c.orders u = some q)
    (hst : q.strands[m]? = some st) (hputs : st'.puts = st.puts)
    (himp : st'.Landed l k → st.Landed l k)
    (ho' : (c.putOrder u (q.setStrand m st')).orders t = some o') (h : o'.Landed l k) :
    o.Landed l k := by
  by_cases hu : t = u
  · subst hu
    obtain rfl : o = q := Option.some.inj (ho.symm.trans hq)
    obtain rfl : o.setStrand m st' = o' := by simpa [putOrder] using ho'
    exact Order.landed_setStrand hst hputs himp h
  · obtain rfl : o = o' := by simpa [putOrder, hu, ho] using ho'
    exact h

/-- What the layers have under the key is one value, whatever the windows of each. -/
def Agrees (c : Store K V) (layers : ℕ) (k : K) : Prop :=
  ∃ kind value, ∀ l < layers, ∀ cell ∈ c.cells l k, cell.item.Carries kind value

/-- A write under way on the key keeps the later ones waiting. -/
theorem Wf.planned_behind [DecidableEq K] (h : c.Wf n) (ho : c.orders t = some o)
    (hst : st ∈ o.strands) (hplanned : st.phase ≠ .planned) (hdone : st.done = false)
    (hk : k ∈ o.keys) (hlt : t < u) (ho' : c.orders u = some o') (hk' : k ∈ o'.keys) :
    ∀ st ∈ o'.strands, st.phase = .planned := by
  obtain ⟨tk, htk, hrun⟩ := h.running ho hst hplanned hdone
  obtain ⟨tk', htk'⟩ := h.ticket u o' ho'
  have hopen : c.chain.Open t k := ⟨tk, htk.get, (htk.keys k).mpr hk, by simp [hrun]⟩
  have hq := h.chain.queued_behind hopen hlt htk'.get ((htk'.keys k).mpr hk')
  exact fun st hst => (htk'.planned st hst).mpr hq

end Store

namespace Stack

variable [DecidableEq K]

def LastWrite (s : Stack K V T) (k : K) (t : ℕ) : Prop :=
  s.store.IsWrite k t ∧ ∀ u < s.clock, s.store.IsWrite k u → u ≤ t

instance (s : Stack K V T) (k : K) (t : ℕ) : Decidable (s.LastWrite k t) := by
  unfold LastWrite
  infer_instance

/-- A backfill of the key with an entry that its last write has not made for the layer that was read
or a slower one. -/
def BackfillsOutdated (k : K) (s : Stack K V T) : Action K V T → Prop
  | .read (.backfill r _) => ∃ reader ∈ s.readers r, reader.key = k ∧
      match reader.phase with
      | .touched hit =>
        hit.layerIndex ≠ 0 ∧ ∃ t < s.clock, s.LastWrite k t ∧
          ¬ s.store.EntryFrom t hit.layerIndex k hit.item
      | _ => False
  | _ => False

/-- A deletion of an expired entry that takes an entry of the key's last write instead. -/
def PurgesCurrent (k : K) (s : Stack K V T) : Action K V T → Prop
  | .read (.purge r) => ∃ reader ∈ s.readers r, reader.key = k ∧
      ∃ cell ∈ s.store.cells reader.index k, ∃ t < s.clock, s.LastWrite k t ∧
        s.store.EntryOf t k cell.item ∧ ¬ s.store.Expired cell.item
  | _ => False

def RepeatsKey (k : K) (_ : Stack K V T) : Action K V T → Prop
  | .write (.mset entries) => ¬ entries.Pairwise fun e e' => e.1.key ≠ k ∨ e'.1.key ≠ k
  | _ => False

instance (k : K) (s : Stack K V T) : DecidablePred (s.RepeatsKey k) :=
  fun a => by
    induction a using Action.casesOn with
    | write a => induction a using WriteAction.casesOn <;> (unfold RepeatsKey; infer_instance)
    | _ => exact isFalse id

instance [DecidableEq V] (k : K) (s : Stack K V T) : DecidablePred (s.BackfillsOutdated k) :=
  fun a => by
    induction a using Action.casesOn with
    | read a =>
      induction a using ReadAction.casesOn with
      | backfill r _ =>
        refine @Option.decidableExistsMem _ _ (fun reader => @instDecidableAnd _ _ _ ?_) _
        generalize reader.phase = phase
        induction phase using ReadPhase.casesOn <;> infer_instance
      | _ => exact isFalse id
    | _ => exact isFalse id

instance [DecidableEq V] (k : K) (s : Stack K V T) : DecidablePred (s.PurgesCurrent k) :=
  fun a => by
    induction a using Action.casesOn with
    | read a => induction a using ReadAction.casesOn <;> (unfold PurgesCurrent; infer_instance)
    | _ => exact isFalse id

/-- What the last write of a key needs: it has one value, later backfills carry its entries, and
where it has landed its entries are. -/
structure Converging (cfg : Config) (s : Stack K V T) (k : K) : Prop where
  uniform : ∀ t o, s.store.orders t = some o → o.kind ≠ .backfill →
    ∃ kind value, ∀ p, o.Writes p → p.key = k → p.item.Carries kind value
  later : ∀ t u q, s.LastWrite k t → s.store.orders u = some q → t < u → k ∈ q.keys →
    ∀ p, q.Writes p → p.key = k → s.store.EntryFrom t p.layer k p.item
  landed : ∀ t o, s.LastWrite k t → s.store.orders t = some o → ∀ l < cfg.layers,
    o.Landed l k → s.store.HoldsWrite t l k

theorem not_landed_start (hunf : s.Unfenced cfg) (hwork : ∀ l, s.degraded l = false)
    (ho : s.store.orders t = some o) (hk : k ∈ o.keys)
    (hput : ∃ p, o.Writes p ∧ p.layer = l ∧ p.key = k)
    (hs : s.store.start s.degraded t = some c') (ho' : c'.orders t = some o') :
    ¬ o'.Landed l k := by
  obtain ⟨chain, o₁, -, ho₁, rfl⟩ := start_spec hs
  obtain rfl : o = o₁ := by simpa [ho] using ho₁
  simp only [Function.update_self, Option.some.injEq] at ho'
  subst ho'
  have hactive : k ∈ o.keys.filter fun k => !s.store.epochs.isWriteOutdated k (o.fence k) :=
    List.mem_filter.mpr ⟨hk, by simp [hunf.store.not_outdated ho hk]⟩
  exact Order.not_landed_start hactive (by split <;> simp [hwork]) hput

/-- A landing write of a key whose last write has landed carries an entry of the last write. -/
theorem Converging.landing (h : s.Converging cfg k) (hintact : s.Intact cfg)
    (hunf : s.Unfenced cfg) (hlast : s.LastWrite k t) (ho : s.store.orders t = some o)
    (hl : l < cfg.layers) {q : Order K V} {p : Put K V}
    (hlanding : s.store.landing u m i = some (q, p)) (hpk : p.key = k)
    (hpl : p.layer = l) (hlanded : u ≠ t → o.Landed l k) : s.store.EntryFrom t l k p.item := by
  have hwf := hintact.sound.wf
  obtain ⟨hq, hwrites, hkq⟩ := hwf.landing hlanding
  rw [hpk] at hkq
  rcases Nat.lt_trichotomy u t with hlt | rfl | hlt
  · -- an earlier write still at work keeps the last one from starting
    obtain ⟨st, st', -, hst, hland⟩ := landing_spec hlanding
    obtain ⟨hplanned, hdone, -⟩ := Strand.busy_of_land hland
    obtain ⟨o₁, ho₁, hkind, hk⟩ := hlast.1
    obtain rfl : o = o₁ := by simpa [ho] using ho₁
    have hplan := hwf.planned_behind hq (List.mem_of_getElem? hst) hplanned hdone hkq hlt ho hk
    exact absurd (hlanded hlt.ne)
      (Order.not_landed_of_planned hplan (hunf.covering t o ho hkind k hk l hl))
  · exact (entryFrom_iff hq).mpr ⟨p, hwrites, hpl.ge, hpk, rfl⟩
  · exact hpl ▸ h.later t u q hlast hq hlt hkq p hwrites hpk

variable [DecidableEq T]

/-- Where the last write has landed, its entries stay. -/
theorem Converging.holds (h : s.Converging cfg k) (hintact : s.Intact cfg)
    (hunf : s.Unfenced cfg) {a : Action K V T} (hok : s.ReadsAndWrites a)
    (hpurge : ¬ s.PurgesCurrent k a) (hs : s.act cfg a = some s') (hlast : s.LastWrite k t)
    (ho : s.store.orders t = some o) (ho' : s'.store.orders t = some o') (hl : l < cfg.layers)
    (hlanded : o'.Landed l k) : s'.store.HoldsWrite t l k := by
  have hwf := hintact.sound.wf
  obtain ⟨o₁, ho₁, hkind, hk⟩ := hlast.1
  obtain rfl : o = o₁ := by simpa [ho] using ho₁
  have hsame : o.Same o' := by
    obtain ⟨q, hq, hsame⟩ := (hintact.sound.store_act hs).order hwf ho
    rw [ho'] at hq
    cases hq
    exact hsame
  have hentry : ∀ item, s.store.EntryFrom t l k item → s'.store.EntryFrom t l k item :=
    fun item => (entryFrom_same ho ho' hsame).mpr
  have heffect := effect_act hs
  generalize s'.store = c at heffect hentry ho'
  -- the order has not moved in any of these steps
  have hstay : ∀ {c : Store K V}, c.orders t = s.store.orders t →
      c.cells l k = s.store.cells l k → s.store.now ≤ c.now → c.orders t = some o' →
      (∀ item, s.store.EntryFrom t l k item → c.EntryFrom t l k item) → c.HoldsWrite t l k := by
    intro c horders hcells hnow ho' hentry
    rw [horders, ho] at ho'
    cases ho'
    exact (h.landed t o hlast ho l hl hlanded).mono hcells hentry hnow
  cases heffect with
  | same => exact hstay rfl rfl le_rfl ho' hentry
  | landFail | wipeFail | eraseFail => cases hok.2
  | bump d hd => simp [hunf.invalidations] at hd
  | slide g hg hphase => simpa using ((hunf.plain.gets g _ hg).sliding _ _ _ _ _ hphase).1
  | enlist hadmits =>
    have ht : t ≠ s.clock := Nat.ne_of_lt (hwf.lt_of_order ho)
    exact hstay (by simp [Store.enlist, ht]) rfl le_rfl ho' hentry
  | @purge r reader hr hphase =>
    refine (h.landed t o hlast ho l hl ?_).layerDelete ?_
    · cases ho.symm.trans ho'
      exact hlanded
    · rintro rfl rfl cell hcell hitem
      by_contra hexp
      exact hpurge ⟨reader, hr, rfl, cell, hcell, t, hwf.lt_of_order ho, hlast, hitem.entryOf, hexp⟩
  | store a ha =>
    cases a with
    | tick d =>
      simp only [storeChange, Option.ite_none_right_eq_some, Option.some.injEq] at ha
      obtain ⟨hd, rfl⟩ := ha
      exact hstay rfl rfl (by simpa [Store.tick] using hd) ho' hentry
    | start u =>
      by_cases hu : t = u
      · subst hu
        exact absurd hlanded (not_landed_start hunf hintact.working ho hk
          (hunf.covering t o ho hkind k hk l hl) ha ho')
      · obtain ⟨chain, q, -, hq, rfl⟩ := start_spec ha
        exact hstay (by simp [hu]) rfl le_rfl ho' hentry
    | land u m i =>
      obtain ⟨q, st, p, st', hq, hst, hland, rfl⟩ := land_spec ha
      have hlanding : s.store.landing u m i = some (q, p) := by
        simp [Store.landing, hq, hst, hland]
      by_cases hp : p.layer = l ∧ p.key = k
      · obtain ⟨rfl, rfl⟩ := hp
        refine holdsWrite_layerSet (hentry p.item ?_)
        refine h.landing hintact hunf hlast ho hl hlanding rfl rfl fun hu => ?_
        obtain rfl : o = o' := by
          simpa [layerSet, setCell, putOrder, hu.symm, ho] using ho'
        exact hlanded
      · refine (h.landed t o hlast ho l hl ?_).mono ?_ hentry le_rfl
        · exact landed_of_putOrder ho hq hst (Strand.puts_of_land hland)
            (Strand.landed_of_land hland hp) ho' hlanded
        · rw [layerSet, cells_setCell, if_neg fun hlk => hp ⟨hlk.1.symm, hlk.2.symm⟩]
          rfl
    | check u m =>
      obtain ⟨q, st, st', hq, hst, hcheck, rfl⟩ := check_spec ha
      obtain ⟨active, hphase, hputs, -⟩ := Strand.check_spec hcheck
      refine (h.landed t o hlast ho l hl ?_).mono rfl hentry le_rfl
      exact landed_of_putOrder ho hq hst hputs (fun _ => by simp [Strand.Landed, hphase]) ho'
        hlanded
    | wipe u m i => exact (hunf.store.not_wipe ha).elim
    | settle u =>
      obtain ⟨q, chain, -, -, -, rfl⟩ := settle_spec ha
      exact hstay rfl rfl le_rfl ho' hentry
    | erase b i => exact (hunf.store.not_erase ha).elim

/-- What the runs need in which the last write of a key wins. -/
def LastWriteHolds (k : K) (s : Stack K V T) (a : Action K V T) : Prop :=
  s.ReadsAndWrites a ∧ ¬ s.BackfillsOutdated k a ∧ ¬ s.PurgesCurrent k a ∧ ¬ s.RepeatsKey k a

omit [DecidableEq T] in
instance [DecidableEq V] (k : K) (s : Stack K V T) : DecidablePred (s.LastWriteHolds k) :=
  fun a => by
    unfold LastWriteHolds
    infer_instance

theorem lastWrite_act (hintact : s.Intact cfg) {a : Action K V T}
    (hs : s.act cfg a = some s') (hlast : ({ s' with clock := s.clock + 1 }).LastWrite k t)
    (ho' : s'.store.orders t = some o') :
    (t = s.clock ∧ s.Admits cfg a o') ∨
      ∃ o, s.store.orders t = some o ∧ o.Same o' ∧ s.LastWrite k t := by
  have hwf := hintact.sound.wf
  rcases orders_act hs ho' with ⟨o, ho, hsame⟩ | hnew
  · refine .inr ⟨o, ho, hsame, ?_, fun u hu hwrite => ?_⟩
    · obtain ⟨q, hq, hkind, hk⟩ := hlast.1
      obtain rfl : o' = q := Option.some.inj (ho'.symm.trans hq)
      exact ⟨o, ho, hsame.kind ▸ hkind, hsame.keys ▸ hk⟩
    · obtain ⟨q, hq, hkind, hk⟩ := hwrite
      obtain ⟨q', hq', hsame'⟩ := (hintact.sound.store_act hs).order hwf hq
      exact hlast.2 u (hu.trans (Nat.lt_succ_self _))
        ⟨q', hq', hsame'.kind.symm ▸ hkind, hsame'.keys.symm ▸ hk⟩
  · exact .inl hnew

omit [DecidableEq T] in
theorem uniform_admits (hunf : s.Unfenced cfg) {a : Action K V T} (hrepeats : ¬ s.RepeatsKey k a)
    (ho : s.Admits cfg a o) (hkind : o.kind ≠ .backfill) :
    ∃ kind value, ∀ p, o.Writes p → p.key = k → p.item.Carries kind value := by
  cases ho with
  | backfill => exact (hkind rfl).elim
  | set key write tags =>
    refine ⟨write.kind, write.value, ?_⟩
    rintro p ⟨st, hst, hp⟩ -
    obtain rfl := List.mem_singleton.mp hst
    obtain ⟨l, -, rfl⟩ := List.mem_map.mp hp
    exact ⟨_, rfl, rfl, rfl⟩
  | mset entries =>
    have hwrites : ∀ p, (s.msetOrder cfg entries).Writes p → ∃ e ∈ entries, e.1.key = p.key ∧
        p.item.Carries e.2.kind e.2.value := by
      rintro p ⟨st, hst, hp⟩
      obtain ⟨l, -, rfl⟩ := List.mem_map.mp hst
      obtain ⟨e, he, rfl⟩ := List.mem_map.mp hp
      exact ⟨e, he, rfl, _, rfl, rfl, rfl⟩
    by_cases hnamed : ∃ e ∈ entries, e.1.key = k
    · obtain ⟨e, he, hek⟩ := hnamed
      refine ⟨e.2.kind, e.2.value, fun p hp hpk => ?_⟩
      obtain ⟨e', he', hkey, hcarries⟩ := hwrites p hp
      have hsymm : Std.Symm fun e e' : Entry K T × WriteValue V => e.1.key ≠ k ∨ e'.1.key ≠ k :=
        ⟨fun _ _ => Or.symm⟩
      obtain rfl : e = e' := by
        by_contra hne
        rcases (not_not.mp hrepeats).forall he he' hne with hother | hother
        · exact hother hek
        · exact hother (hkey.trans hpk)
      exact hcarries
    · refine ⟨.value, none, fun p hp hpk => ?_⟩
      obtain ⟨e, he, hkey, -⟩ := hwrites p hp
      exact (hnamed ⟨e, he, hkey.trans hpk⟩).elim
  | flush hf => exact (hunf.carries _ (.flushing hf List.mem_cons_self)).elim
  | fetched i write tags hi => simp [hunf.plain.tasks] at hi

theorem Converging.step (hcfg : ∀ l, cfg.writeBehind l = false) (h : s.Converging cfg k)
    (hintact : s.Intact cfg) (hunf : s.Unfenced cfg) {a : Action K V T}
    (hok : s.LastWriteHolds k a) (hs : s.step cfg a = some s') : s'.Converging cfg k := by
  obtain ⟨hrw, hbackfill, hpurge, hrepeats⟩ := hok
  have hwf := hintact.sound.wf
  have hwf' := (hintact.step hrw.healthy hs).sound.wf
  obtain ⟨s₁, hact, rfl⟩ := step_spec hs
  refine ⟨?_, ?_, ?_⟩
  · intro t o' ho' hkind
    rcases orders_act hact ho' with ⟨o, ho, hsame⟩ | ⟨-, hadmits⟩
    · obtain ⟨kind, value, hputs⟩ := h.uniform t o ho (hsame.kind ▸ hkind)
      exact ⟨kind, value, fun p hp => hputs p (hsame.writes_iff.mp hp)⟩
    · exact uniform_admits hunf hrepeats hadmits hkind
  · intro t u q hlast hq hlt hkq p hp hpk
    obtain ⟨o', ho', -⟩ := hlast.1
    have hu : u < s.clock + 1 := hwf'.lt_of_order hq
    rcases lastWrite_act hintact hact hlast ho' with ⟨rfl, -⟩ | ⟨o, ho, hsame, hlast₀⟩
    · omega
    refine (entryFrom_same ho ho' hsame).mpr ?_
    rcases orders_act hact hq with ⟨q₀, hq₀, hsameq⟩ | ⟨rfl, hadmits⟩
    · exact h.later t u q₀ hlast₀ hq₀ hlt (hsameq.keys ▸ hkq) p (hsameq.writes_iff.mp hp) hpk
    · -- what is admitted after the last write is a backfill
      have hkind : q.kind = .backfill := by
        by_contra hkind
        exact absurd (hlast.2 s.clock (Nat.lt_succ_self _) ⟨q, hq, hkind, hkq⟩) (by omega)
      cases hadmits with
      | @backfill r ttls reader hit hr hphase hl =>
        obtain rfl := List.mem_singleton.mp hkq
        obtain ⟨st, hst, hp⟩ := hp
        obtain rfl := List.mem_singleton.mp hst
        obtain ⟨l, hfaster, rfl⟩ := List.mem_map.mp hp
        have hle : l ≤ hit.layerIndex :=
          (List.mem_range.mp (List.mem_filter.mp hfaster).1).le
        by_contra hentry
        refine hbackfill ⟨reader, hr, rfl, ?_⟩
        rw [hphase]
        exact ⟨hl, t, hlt, hlast₀, fun hslower => hentry (hslower.faster hle)⟩
      | set | mset => cases hkind
      | flush hf => exact (hunf.carries _ (.flushing hf List.mem_cons_self)).elim
      | fetched i write tags hi => simp [hunf.plain.tasks] at hi
  · intro t o' hlast ho' l hl hlanded
    rcases lastWrite_act hintact hact hlast ho' with ⟨rfl, hadmits⟩ | ⟨o, ho, -, hlast₀⟩
    · obtain ⟨q, hq, hkind, hk⟩ := hlast.1
      obtain rfl : o' = q := Option.some.inj (ho'.symm.trans hq)
      exact absurd hlanded (Order.not_landed_of_planned (hunf.admits hadmits).1
        (covering_admits hcfg hintact.working hunf hadmits hkind hk hl))
    · have hholds := h.holds hintact hunf hrw hpurge hact hlast₀ ho ho' hl hlanded
      exact hholds

variable {now : Millis} {contents : ℕ → K → Option (Stored V × Option Millis)}

end Stack

end LayerCache
