import LayerCache.Stack.Captures
import LayerCache.Store.Changes

/-! # Where cells and orders come from

After a step, a cell was there before, or a write through the chain or a renewed sliding
TTL has just put it there; and an order was there before, or a read or a write has just
been admitted.
-/

namespace LayerCache

open Store

variable {K V T : Type} [DecidableEq K] {cfg : Config} {s s' : Stack K V T} {t l : ℕ} {k : K}

namespace Stack

/-- Where the cells come from: a step leaves a cell, or it lands a write, or it slides. -/
theorem cells_act [DecidableEq T] {a : Action K V T} (h : s.act cfg a = some s') {cell : Cell V}
    (hcell : s'.store.cells l k = some cell) : s.store.cells l k = some cell ∨
      (∃ t m i o p, a = .store (.land t m i) ∧ s.store.landing t m i = some (o, p) ∧
        l = p.layer ∧ k = p.key ∧ cell.item = p.item ∧ cell.writer = some t) ∨
      (∃ g get answer rest stored ttl ahead, a = .get (.slide g) ∧ s.gets g = some get ∧
        get.phase = .sliding answer (l :: rest) stored ttl ahead ∧ k = get.key ∧
        cell.item = stored) := by
  have heffect := effect_act h
  generalize s'.store = c at heffect hcell
  cases heffect with
  | same | enlist | bump => exact .inl hcell
  | landFail t m i ha =>
    obtain ⟨o, st, p, st', -, -, -, rfl⟩ := landFail_spec ha
    exact .inl hcell
  | wipeFail t m i ha =>
    obtain ⟨o, st, l₀, k₀, st', -, -, -, rfl⟩ := wipeFail_spec ha
    exact .inl hcell
  | eraseFail b i ha =>
    obtain ⟨r, -, rfl⟩ := eraseFail_spec ha
    exact .inl hcell
  | purge r hr hphase => exact .inl (layerDelete_cells hcell)
  | slide g hg hphase =>
    rw [layerSet, cells_setCell] at hcell
    split at hcell
    · rename_i hlk
      obtain ⟨rfl, rfl⟩ := hlk
      cases hcell
      exact .inr (.inr ⟨g, _, _, _, _, _, _, rfl, hg, hphase, rfl, rfl⟩)
    · exact .inl hcell
  | store a ha =>
    cases a with
    | tick d =>
      simp only [storeChange, Option.ite_none_right_eq_some, Option.some.injEq] at ha
      obtain ⟨-, rfl⟩ := ha
      exact .inl hcell
    | start t =>
      obtain ⟨chain, o, -, -, rfl⟩ := start_spec ha
      exact .inl hcell
    | land t m i =>
      rcases land_cells ha hcell with hc | ⟨o, p, hlanding, hl, hk, hitem, ht⟩
      · exact .inl hc
      · exact .inr (.inl ⟨t, m, i, o, p, rfl, hlanding, hl, hk, hitem, ht⟩)
    | check t m =>
      obtain ⟨o, st, st', -, -, -, rfl⟩ := check_spec ha
      exact .inl hcell
    | wipe t m i =>
      obtain ⟨o, st, l₀, k₀, st', -, -, -, rfl⟩ := wipe_spec ha
      exact .inl (layerDelete_cells hcell)
    | settle t =>
      obtain ⟨o, chain, -, -, -, rfl⟩ := settle_spec ha
      exact .inl hcell
    | erase b i => exact .inl (erase_cells ha hcell)

theorem orders_act [DecidableEq T] {a : Action K V T} (h : s.act cfg a = some s')
    {o : Order K V} (ho : s'.store.orders t = some o) :
    (∃ o₀, s.store.orders t = some o₀ ∧ o₀.Same o) ∨ (t = s.clock ∧ s.Admits cfg a o) := by
  have heffect := effect_act h
  generalize s'.store = c at heffect ho
  cases heffect with
  | same | purge | bump | slide => exact .inl ⟨o, ho, .refl o⟩
  | landFail t m i ha => exact .inl ((keeps_landFail ha).order_back ho)
  | wipeFail t m i ha => exact .inl ((keeps_wipeFail ha).order_back ho)
  | eraseFail b i ha => exact .inl ((keeps_eraseFail ha).order_back ho)
  | enlist hadmits =>
    rcases update_eq_some ho with ⟨rfl, rfl⟩ | ⟨-, ho⟩
    · exact .inr ⟨rfl, hadmits⟩
    · exact .inl ⟨o, ho, .refl o⟩
  | store a ha =>
    refine .inl ?_
    cases a with
    | tick d =>
      simp only [storeChange, Option.ite_none_right_eq_some, Option.some.injEq] at ha
      obtain ⟨-, rfl⟩ := ha
      exact ⟨o, ho, .refl o⟩
    | start t => exact (keeps_start ha).order_back ho
    | land t m i => exact (keeps_land ha).order_back ho
    | check t m => exact (keeps_check ha).order_back ho
    | wipe t m i => exact (keeps_wipe ha).order_back ho
    | settle t => exact (keeps_settle ha).order_back ho
    | erase b i => exact (keeps_erase ha).order_back ho

end Stack

end LayerCache
