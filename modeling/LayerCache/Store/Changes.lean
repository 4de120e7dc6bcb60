import LayerCache.Store.Fencing
import Mathlib.Data.Option.Basic

/-! # What a step leaves of the orders, deletions and cells

An order keeps everything but the progress of its strands, a deletion that is no longer
pending has emptied its cell, and a new cell is one that a write has just placed.
-/

namespace LayerCache

variable {K V : Type} {c c' : Store K V} {t n m i b l : ℕ} {k : K} {o o' : Order K V}
  {st st' : Strand K V} {faults : Prop}

/-- The orders differ in the progress of their strands only. -/
structure Order.Same (o o' : Order K V) : Prop where
  kind : o'.kind = o.kind
  keys : o'.keys = o.keys
  fence : o'.fence = o.fence
  captured : o'.captured = o.captured
  puts : o'.strands.map Strand.puts = o.strands.map Strand.puts

theorem Order.Same.refl (o : Order K V) : o.Same o := ⟨rfl, rfl, rfl, rfl, rfl⟩

theorem Order.same_setStrand (hst : o.strands[m]? = some st) (hputs : st'.puts = st.puts) :
    o.Same (o.setStrand m st') := by
  refine ⟨rfl, rfl, rfl, rfl, ?_⟩
  obtain ⟨hm, rfl⟩ := List.getElem?_eq_some_iff.mp hst
  simp only [Order.setStrand, List.map_set, hputs]
  exact List.ext_getElem (by simp) fun j _ _ => by
    simp only [List.getElem_set, List.getElem_map]
    split
    · subst_vars
      rfl
    · rfl

theorem Order.same_map {f : Strand K V → Strand K V} (hf : ∀ st, (f st).puts = st.puts) :
    o.Same { o with strands := o.strands.map f } :=
  ⟨rfl, rfl, rfl, rfl, by simp [hf]⟩

def Order.Writes (o : Order K V) (p : Put K V) : Prop := ∃ st ∈ o.strands, p ∈ st.puts

theorem Order.Same.writes_iff (h : o.Same o') {p : Put K V} : o'.Writes p ↔ o.Writes p := by
  have key : ∀ q : Order K V, q.Writes p ↔ ∃ ps ∈ q.strands.map Strand.puts, p ∈ ps := by
    intro q
    simp [Order.Writes]
  rw [key, key, h.puts]

namespace Store

variable [DecidableEq K]

/-- The order and the put of the write that a landing is about. -/
def landing (c : Store K V) (t m i : ℕ) : Option (Order K V × Put K V) := do
  let o ← c.orders t
  let st ← o.strands[m]?
  let (p, _) ← st.land i
  some (o, p)

omit [DecidableEq K] in
theorem landing_spec {p : Put K V} (h : c.landing t m i = some (o, p)) : ∃ st st',
    c.orders t = some o ∧ o.strands[m]? = some st ∧ st.land i = some (p, st') := by
  simp only [landing, Option.bind_eq_bind, Option.bind_eq_some_iff, Option.some.injEq,
    Prod.exists, Prod.mk.injEq] at h
  obtain ⟨o, ho, st, hst, p, st', hland, rfl, rfl⟩ := h
  exact ⟨st, st', ho, hst, hland⟩

theorem Wf.landing (h : c.Wf n) {p : Put K V} (hl : c.landing t m i = some (o, p)) :
    c.orders t = some o ∧ o.Writes p ∧ p.key ∈ o.keys := by
  obtain ⟨st, st', ho, hst, hland⟩ := landing_spec hl
  have hmem := List.mem_of_getElem? hst
  obtain ⟨-, hp⟩ := (h.strand t o ho st hmem).land hland
  exact ⟨ho, ⟨st, hmem, hp⟩, (h.strand t o ho st hmem).put_key p hp⟩

theorem land_cells (h : c.land t m i = some c') {cell : Cell V}
    (hcell : c'.cells l k = some cell) : c.cells l k = some cell ∨
      ∃ o p, c.landing t m i = some (o, p) ∧ l = p.layer ∧ k = p.key ∧ cell.item = p.item ∧
        cell.writer = some t := by
  obtain ⟨o, st, p, st', ho, hst, hland, rfl⟩ := land_spec h
  rw [layerSet, cells_setCell] at hcell
  split at hcell
  · rename_i hlk
    cases hcell
    exact .inr ⟨o, p, by simp [landing, ho, hst, hland], hlk.1, hlk.2, rfl, rfl⟩
  · exact .inl hcell

theorem layerDelete_cells {l₀ : ℕ} {k₀ : K} {cell : Cell V}
    (hcell : (c.layerDelete l₀ k₀).cells l k = some cell) : c.cells l k = some cell := by
  rw [layerDelete, cells_setCell] at hcell
  split at hcell
  · cases hcell
  · exact hcell

/-- A deletion of an invalidation leaves cells that were there. -/
theorem erase_cells (h : c.erase b i = some c') {cell : Cell V}
    (hcell : c'.cells l k = some cell) : c.cells l k = some cell := by
  obtain ⟨r, l₀, -, ⟨k₀, -, rfl⟩ | ⟨-, rfl⟩⟩ := erase_spec h
  · exact layerDelete_cells (c := c.putRemoval b _) hcell
  · by_cases hl : l = l₀
    · subst hl
      simp [layerClear] at hcell
    · simpa [layerClear, putRemoval, hl] using hcell

/-- Every order stays what it is, and no other appears. -/
def Keeps (c c' : Store K V) : Prop := ∀ t, Option.Rel Order.Same (c.orders t) (c'.orders t)

omit [DecidableEq K] in
theorem Keeps.of_eq (h : c'.orders = c.orders) : c.Keeps c' := by
  intro t
  rw [h]
  cases c.orders t with
  | none => exact .none
  | some o => exact .some (.refl o)

omit [DecidableEq K] in
theorem Keeps.of_update (ho : c.orders t = some o) (hsame : o.Same o')
    (h : c'.orders = Function.update c.orders t (some o')) : c.Keeps c' := by
  intro u
  rw [h]
  by_cases hu : u = t
  · subst hu
    rw [ho, Function.update_self]
    exact .some hsame
  · rw [Function.update_of_ne hu]
    exact Keeps.of_eq (c := c) rfl u

omit [DecidableEq K] in
theorem Keeps.order (h : c.Keeps c') (ho : c.orders t = some o) :
    ∃ o', c'.orders t = some o' ∧ o.Same o' := by
  have ht := h t
  rw [ho] at ht
  generalize c'.orders t = x at ht
  cases ht with
  | some hsame => exact ⟨_, rfl, hsame⟩

omit [DecidableEq K] in
theorem Keeps.order_back (h : c.Keeps c') (ho : c'.orders t = some o') :
    ∃ o, c.orders t = some o ∧ o.Same o' := by
  have ht := h t
  rw [ho] at ht
  generalize c.orders t = x at ht
  cases ht with
  | some hsame => exact ⟨_, rfl, hsame⟩

theorem keeps_start {skipped : ℕ → Bool} (hs : c.start skipped t = some c') : c.Keeps c' := by
  obtain ⟨chain, o, -, ho, rfl⟩ := start_spec hs
  exact .of_update ho (Order.same_map (by intro st; rfl)) rfl

theorem keeps_land (hs : c.land t m i = some c') : c.Keeps c' := by
  obtain ⟨o, st, p, st', ho, hst, hland, rfl⟩ := land_spec hs
  obtain ⟨active, todo, -, -, rfl⟩ := Strand.land_spec hland
  exact .of_update ho (Order.same_setStrand hst (by rfl)) rfl

omit [DecidableEq K] in
theorem keeps_landFail (hs : c.landFail t m i = some c') : c.Keeps c' := by
  obtain ⟨o, st, p, st', ho, hst, hland, rfl⟩ := landFail_spec hs
  obtain ⟨active, todo, -, -, rfl⟩ := Strand.land_spec hland
  exact .of_update ho (Order.same_setStrand hst (by rfl)) rfl

theorem keeps_check (hs : c.check t m = some c') : c.Keeps c' := by
  obtain ⟨o, st, st', ho, hst, hcheck, rfl⟩ := check_spec hs
  obtain ⟨active, -, hputs, -⟩ := Strand.check_spec hcheck
  exact .of_update ho (Order.same_setStrand hst hputs) rfl

theorem keeps_wipe (hs : c.wipe t m i = some c') : c.Keeps c' := by
  obtain ⟨o, st, l, k, st', ho, hst, hwipe, rfl⟩ := wipe_spec hs
  obtain ⟨todo, -, -, rfl⟩ := Strand.wipe_spec hwipe
  exact .of_update ho (Order.same_setStrand hst (by rfl)) rfl

omit [DecidableEq K] in
theorem keeps_wipeFail (hs : c.wipeFail t m i = some c') : c.Keeps c' := by
  obtain ⟨o, st, l, k, st', ho, hst, hwipe, rfl⟩ := wipeFail_spec hs
  obtain ⟨todo, -, -, rfl⟩ := Strand.wipe_spec hwipe
  exact .of_update ho (Order.same_setStrand hst (by rfl)) rfl

omit [DecidableEq K] in
theorem keeps_settle (hs : c.settle t = some c') : c.Keeps c' := by
  obtain ⟨o, chain, -, -, -, rfl⟩ := settle_spec hs
  exact .of_eq rfl

theorem keeps_erase (hs : c.erase b i = some c') : c.Keeps c' := by
  obtain ⟨r, l, -, ⟨k, -, rfl⟩ | ⟨-, rfl⟩⟩ := erase_spec hs <;> exact .of_eq rfl

omit [DecidableEq K] in
theorem keeps_eraseFail (hs : c.eraseFail b i = some c') : c.Keeps c' := by
  obtain ⟨r, -, rfl⟩ := eraseFail_spec hs
  exact .of_eq rfl

theorem Step.keeps_or_enlist (hstep : c.Step faults n c') :
    c.Keeps c' ∨ ∃ o, c' = c.enlist n o := by
  cases hstep with
  | idle | tick | bump | purge | rewrite => exact .inl (.of_eq rfl)
  | enlist o => exact .inr ⟨o, rfl⟩
  | start skipped u hs => exact .inl (keeps_start hs)
  | land u m i hs => exact .inl (keeps_land hs)
  | landFail hf u m i hs => exact .inl (keeps_landFail hs)
  | check u m hs => exact .inl (keeps_check hs)
  | wipe u m i hs => exact .inl (keeps_wipe hs)
  | wipeFail hf u m i hs => exact .inl (keeps_wipeFail hs)
  | settle u hs => exact .inl (keeps_settle hs)
  | erase b i hs => exact .inl (keeps_erase hs)
  | eraseFail hf b i hs => exact .inl (keeps_eraseFail hs)

theorem Step.order (hwf : c.Wf n) (hstep : c.Step faults n c') (ho : c.orders t = some o) :
    ∃ o', c'.orders t = some o' ∧ o.Same o' := by
  rcases hstep.keeps_or_enlist with h | ⟨q, rfl⟩
  · exact h.order ho
  · have ht : t ≠ n := Nat.ne_of_lt (hwf.lt_of_order ho)
    exact ⟨o, by simp [Store.enlist, ht, ho], .refl o⟩

theorem Step.erased (hwf : c.Wf n) (hstep : c.Step False n c') {r r' : Removal K}
    (hr : c.removals b = some r) (hr' : c'.removals b = some r') (hp : r.Pending l k)
    (hp' : ¬ r'.Pending l k) : c'.cells l k = none := by
  have same : ∀ {c' : Store K V}, c'.removals = c.removals → c'.removals b = some r' → False := by
    intro c' he hr'
    rw [he, hr] at hr'
    cases hr'
    exact hp' hp
  cases hstep with
  | idle | tick | enlist | purge | rewrite => exact (same rfl hr').elim
  | landFail hf | wipeFail hf | eraseFail hf => exact hf.elim
  | start skipped u hs =>
    obtain ⟨chain, q, -, -, rfl⟩ := start_spec hs
    exact (same rfl hr').elim
  | land u m i hs =>
    obtain ⟨q, st, p, st', -, -, -, rfl⟩ := land_spec hs
    exact (same rfl hr').elim
  | check u m hs =>
    obtain ⟨q, st, st', -, -, -, rfl⟩ := check_spec hs
    exact (same rfl hr').elim
  | wipe u m i hs =>
    obtain ⟨q, st, l, k, st', -, -, -, rfl⟩ := wipe_spec hs
    exact (same rfl hr').elim
  | settle u hs =>
    obtain ⟨q, chain, -, -, -, rfl⟩ := settle_spec hs
    exact (same rfl hr').elim
  | bump target layers =>
    have hb : b ≠ n := Nat.ne_of_lt (hwf.removals_lt b r hr)
    refine (hp' ?_).elim
    simp only [Store.bump, Function.update_of_ne hb, hr, Option.some.injEq] at hr'
    exact hr' ▸ hp
  | erase b' i hs =>
    obtain ⟨q, l₀, hq, hcases⟩ := erase_spec hs
    by_cases hb : b = b'
    · subst hb
      rw [hr] at hq
      cases hq
      rcases hcases with ⟨k₀, hget, rfl⟩ | ⟨hget, rfl⟩
      · simp only [layerDelete, setCell, putRemoval, Function.update_self,
          Option.some.injEq] at hr'
        subst hr'
        rcases hp with hp | hp
        · rcases mem_eraseIdx_or_eq hp hget with hin | he
          · exact (hp' (.inl hin)).elim
          · cases he
            simp [layerDelete, cells_setCell]
        · rcases mem_eraseIdx_or_eq hp hget with hin | he
          · exact (hp' (.inr hin)).elim
          · cases he
      · simp only [layerClear, putRemoval, Function.update_self, Option.some.injEq] at hr'
        subst hr'
        rcases hp with hp | hp
        · rcases mem_eraseIdx_or_eq hp hget with hin | he
          · exact (hp' (.inl hin)).elim
          · cases he
        · rcases mem_eraseIdx_or_eq hp hget with hin | he
          · exact (hp' (.inr hin)).elim
          · cases he
            simp [layerClear]
    · refine (hp' ?_).elim
      rcases hcases with ⟨k₀, hget, rfl⟩ | ⟨hget, rfl⟩
      · simp only [layerDelete, setCell, putRemoval, Function.update_of_ne hb, hr,
          Option.some.injEq] at hr'
        exact hr' ▸ hp
      · simp only [layerClear, putRemoval, Function.update_of_ne hb, hr,
          Option.some.injEq] at hr'
        exact hr' ▸ hp

/-- The deletion has gone through the layer, as far as the key is concerned. -/
def Reached (c : Store K V) (b l : ℕ) (k : K) : Prop :=
  ∃ r ∈ c.removals b, r.Covers l k ∧ ¬ r.Pending l k

/-- Where a deletion has gone through after a step and left an entry, it had gone through before. -/
theorem Step.reached_of_cell (hwf : c.Wf n) (hstep : c.Step False n c') (h : c'.Reached b l k)
    {cell : Cell V} (hcell : c'.cells l k = some cell) : c.Reached b l k := by
  obtain ⟨r', hr', hcov, hp'⟩ := h
  cases hr : c.removals b with
  | none =>
    -- a deletion that has just been issued is pending everywhere
    refine absurd ?_ hp'
    rcases hstep.fences with ⟨-, he⟩ | ⟨target, layers, rfl⟩ | ⟨b', r, todo, hr₀, -, -, he⟩
    · simp [he, hr] at hr'
    · by_cases hb : b = n
      · subst hb
        simp only [Store.bump, Function.update_self, Option.mem_def, Option.some.injEq] at hr'
        subst hr'
        exact Removal.pending_new hcov
      · simp [Store.bump, hb, hr] at hr'
    · by_cases hb : b = b'
      · subst hb
        simp [hr] at hr₀
      · simp [he, hb, hr] at hr'
  | some r =>
    obtain ⟨todo, hr₁, -⟩ := hstep.removal hwf hr
    obtain rfl : { r with todo } = r' := by simpa [hr₁] using hr'
    by_cases hp : r.Pending l k
    · simp [hstep.erased hwf hr hr₁ hp hp'] at hcell
    · exact ⟨r, hr, hcov, hp⟩

omit [DecidableEq K] in
/-- Where deletion `b` has gone through, an old entry stems from a write it has fenced out. -/
def Emptied (c : Store K V) (b : ℕ) (old : Item V → Prop) : Prop :=
  ∀ l k cell, c.Reached b l k → c.cells l k = some cell → old cell.item →
    ∃ t o, cell.writer = some t ∧ c.orders t = some o ∧ o.captured < b

/-- This stays so as long as no other write brings back an old entry. -/
theorem Emptied.step {old : Item V → Prop} (h : c.Emptied b old) (hwf : c.Wf n)
    (hstep : c.Step False n c')
    (hplaced : ∀ l k cell, c.Reached b l k → c'.cells l k = some cell → old cell.item →
      c.cells l k = some cell ∨
        ∃ t o, cell.writer = some t ∧ c.orders t = some o ∧ o.captured < b) :
    c'.Emptied b old := by
  intro l k cell hreached' hcell hold
  have horder : (∃ t o, cell.writer = some t ∧ c.orders t = some o ∧ o.captured < b) →
      ∃ t o, cell.writer = some t ∧ c'.orders t = some o ∧ o.captured < b := by
    rintro ⟨t, o, ht, ho, hlt⟩
    obtain ⟨o', ho', hsame⟩ := hstep.order hwf ho
    exact ⟨t, o', ht, ho', hsame.captured ▸ hlt⟩
  have hreached := hstep.reached_of_cell hwf hreached' hcell
  rcases hplaced l k cell hreached hcell hold with hcell | hw
  · exact horder (h l k cell hreached hcell hold)
  · exact horder hw

end Store

end LayerCache
