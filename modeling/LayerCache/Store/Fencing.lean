import LayerCache.Store.WellFormed

/-! # Fenced writes

With layers that do not fail, a write that an invalidation has fenced out is answerable
for every cell it placed: its order is still at work on the key and will wipe the cell,
or the invalidation's own deletion of the cell is still under way. And while an order
is at work on a key, nothing that was captured after an invalidation it missed can be
in a cell of that key.
-/

namespace LayerCache

open TailChain

variable {K V : Type} {c c' : Store K V} {t n m i b l : ℕ} {k : K} {o : Order K V}
  {st st' : Strand K V} {r : Removal K}

def Strand.Holds (st : Strand K V) (l : ℕ) (k : K) : Prop :=
  (∃ active todo, st.phase = .writing active todo ∧ k ∈ active ∧ l ∈ st.sweep) ∨
  (∃ todo, st.phase = .wiping todo ∧ (l, k) ∈ todo)

def Strand.Busy (st : Strand K V) (k : K) : Prop :=
  (∃ active todo, st.phase = .writing active todo ∧ k ∈ active) ∨
  (∃ todo l, st.phase = .wiping todo ∧ (l, k) ∈ todo)

def Removal.Covers (r : Removal K) (l : ℕ) (k : K) : Prop := l ∈ r.layers ∧ r.target.Covers k

/-- The deletion of the cell has not reached its layer yet. -/
def Removal.Pending (r : Removal K) (l : ℕ) (k : K) : Prop :=
  (l, some k) ∈ r.todo ∨ (l, none) ∈ r.todo

theorem Removal.pending_new {target : Target K} {layers : List ℕ}
    (h : (Removal.new target layers).Covers l k) : (Removal.new target layers).Pending l k := by
  obtain ⟨hl, hk⟩ := h
  cases target with
  | keys ks => exact .inl (List.mem_flatMap.mpr ⟨l, hl, List.mem_map.mpr ⟨k, hk, rfl⟩⟩)
  | all => exact .inr (List.mem_map.mpr ⟨l, hl, rfl⟩)

theorem mem_eraseIdx_or_eq {α : Type*} {xs : List α} {a x : α} (h : a ∈ xs)
    (hx : xs[i]? = some x) : a ∈ xs.eraseIdx i ∨ a = x := by
  induction xs generalizing i with
  | nil => cases h
  | cons y ys ih =>
    cases i with
    | zero =>
      simp only [List.getElem?_cons_zero, Option.some.injEq] at hx
      rcases List.mem_cons.mp h with rfl | h
      · exact .inr hx
      · exact .inl h
    | succ i =>
      simp only [List.getElem?_cons_succ] at hx
      rcases List.mem_cons.mp h with rfl | h
      · exact .inl List.mem_cons_self
      · exact (ih h hx).imp_left (List.mem_cons_of_mem _)

namespace Store

/-- The order is at work on a strand that will look at the cell again. -/
def InHand (c : Store K V) (t l : ℕ) (k : K) : Prop :=
  ∃ o st, c.orders t = some o ∧ st ∈ o.strands ∧ st.Holds l k

def BusyOn (c : Store K V) (t : ℕ) (k : K) : Prop :=
  ∃ o st, c.orders t = some o ∧ st ∈ o.strands ∧ st.Busy k

structure Fenced (c : Store K V) : Prop where
  swept : ∀ t o, c.orders t = some o → ∀ st ∈ o.strands, ∀ p ∈ st.puts, p.layer ∈ st.sweep
  handled : ∀ b r l k cell t o, c.removals b = some r → r.Covers l k →
    c.cells l k = some cell → cell.writer = some t → c.orders t = some o → o.captured < b →
    c.InHand t l k ∨ r.Pending l k
  spared : ∀ t o k, c.BusyOn t k → c.orders t = some o → ∀ b r, c.removals b = some r →
    r.target.Covers k → o.captured < b → ∀ l cell t' o', c.cells l k = some cell →
    cell.writer = some t' → c.orders t' = some o' → o'.captured < b

/-- The orders behind the cells are the same as before, as far as fences go. -/
def SameWriters (c c' : Store K V) : Prop :=
  ∀ l k cell t o', c'.cells l k = some cell → cell.writer = some t → c'.orders t = some o' →
    ∃ o, c.orders t = some o ∧ o.captured = o'.captured

theorem Fenced.handled_of (h : c.Fenced) (hrem : c'.removals = c.removals)
    (hwriters : c.SameWriters c')
    (hcells : ∀ l k cell t, c'.cells l k = some cell → cell.writer = some t →
      c'.InHand t l k ∨ c.cells l k = some cell)
    (hhand : ∀ l k cell t o, c'.cells l k = some cell → cell.writer = some t →
      c.orders t = some o → c.InHand t l k → c'.InHand t l k ∨
        ∀ b r, c.removals b = some r → r.target.Covers k → b ≤ o.captured)
    (b : ℕ) (r : Removal K) (l : ℕ) (k : K) (cell : Cell V) (t : ℕ) (o' : Order K V)
    (hr : c'.removals b = some r) (hcov : r.Covers l k) (hcell : c'.cells l k = some cell)
    (ht : cell.writer = some t) (ho' : c'.orders t = some o') (hb : o'.captured < b) :
    c'.InHand t l k ∨ r.Pending l k := by
  obtain ⟨o, ho, hcap⟩ := hwriters l k cell t o' hcell ht ho'
  rw [hrem] at hr
  rcases hcells l k cell t hcell ht with hin | hold
  · exact .inl hin
  rcases h.handled b r l k cell t o hr hcov hold ht ho (hcap ▸ hb) with hin | hpend
  · rcases hhand l k cell t o hcell ht ho hin with hin' | hle
    · exact .inl hin'
    · have := hle b r hr hcov.2
      omega
  · exact .inr hpend

theorem Fenced.spared_of (h : c.Fenced) (hrem : c'.removals = c.removals)
    (hwriters : c.SameWriters c')
    (hbusy : ∀ t o' k, c'.BusyOn t k → c'.orders t = some o' →
      (∃ o, c.BusyOn t k ∧ c.orders t = some o ∧ o.captured = o'.captured) ∨
        ∀ b r, c.removals b = some r → r.target.Covers k → b ≤ o'.captured)
    (hcells : ∀ l k cell t, c'.cells l k = some cell → cell.writer = some t →
      c.cells l k = some cell ∨ ∀ t', c'.BusyOn t' k → t' = t)
    (t : ℕ) (o' : Order K V) (k : K) (hb : c'.BusyOn t k) (ho' : c'.orders t = some o') (b : ℕ)
    (r : Removal K) (hr : c'.removals b = some r) (hcov : r.target.Covers k)
    (hlt : o'.captured < b) (l : ℕ) (cell : Cell V) (u : ℕ) (q : Order K V)
    (hcell : c'.cells l k = some cell) (hu : cell.writer = some u) (hq : c'.orders u = some q) :
    q.captured < b := by
  rw [hrem] at hr
  rcases hcells l k cell u hcell hu with hold | honly
  · rcases hbusy t o' k hb ho' with ⟨o, hb', ho, hcap⟩ | hle
    · obtain ⟨q', hq', hcap'⟩ := hwriters l k cell u q hcell hu hq
      rw [← hcap']
      exact h.spared t o k hb' ho b r hr hcov (hcap ▸ hlt) l cell u q' hold hu hq'
    · have := hle b r hr hcov
      omega
  · obtain rfl := honly t hb
    rw [ho'] at hq
    cases hq
    exact hlt

theorem getElem?_setStrand_self (hst : o.strands[m]? = some st) :
    (o.setStrand m st').strands[m]? = some st' := by
  have hlt : m < o.strands.length := (List.getElem?_eq_some_iff.mp hst).1
  simp [Order.setStrand, hlt]

theorem mem_setStrand_or_eq (st' : Strand K V) {s : Strand K V} (hst : o.strands[m]? = some st)
    (hs : s ∈ o.strands) : s ∈ (o.setStrand m st').strands ∨ s = st := by
  obtain ⟨j, hj⟩ := List.mem_iff_getElem?.mp hs
  by_cases hjm : j = m
  · subst hjm
    rw [hst] at hj
    cases hj
    exact .inr rfl
  · refine .inl (List.mem_iff_getElem?.mpr ⟨j, ?_⟩)
    simp [Order.setStrand, Ne.symm hjm, hj]

theorem inHand_putOrder (st' : Strand K V) (ho : c.orders t = some o)
    (hst : o.strands[m]? = some st)
    {t' : ℕ} (h : c.InHand t' l k) : (c.putOrder t (o.setStrand m st')).InHand t' l k ∨
      (t' = t ∧ st.Holds l k) := by
  obtain ⟨o', s, ho', hs, hholds⟩ := h
  by_cases ht : t' = t
  · subst ht
    rw [ho] at ho'
    cases ho'
    rcases mem_setStrand_or_eq st' hst hs with hs' | rfl
    · exact .inl ⟨o.setStrand m st', s, by simp [putOrder], hs', hholds⟩
    · exact .inr ⟨rfl, hholds⟩
  · exact .inl ⟨o', s, by simp [putOrder, ht, ho'], hs, hholds⟩

theorem inHand_putOrder_self (hst : o.strands[m]? = some st) (h : st'.Holds l k) :
    (c.putOrder t (o.setStrand m st')).InHand t l k :=
  ⟨o.setStrand m st', st', by simp [putOrder],
    List.mem_of_getElem? (getElem?_setStrand_self hst), h⟩

theorem busyOn_putOrder (ho : c.orders t = some o) (hst : st ∈ o.strands)
    (hbusy : ∀ k, st'.Busy k → st.Busy k) {t' : ℕ}
    (h : (c.putOrder t (o.setStrand m st')).BusyOn t' k) : c.BusyOn t' k := by
  obtain ⟨o', s, ho', hs, hb⟩ := h
  by_cases ht : t' = t
  · subst ht
    simp only [putOrder, Function.update_self, Option.some.injEq] at ho'
    subst ho'
    rcases mem_setStrand hs with hs | rfl
    · exact ⟨o, s, ho, hs, hb⟩
    · exact ⟨o, st, ho, hst, hbusy k hb⟩
  · exact ⟨o', s, by simpa [putOrder, ht] using ho', hs, hb⟩

theorem captured_putOrder (ho : c.orders t = some o) {t' : ℕ} {o' : Order K V}
    (h : (c.putOrder t (o.setStrand m st')).orders t' = some o') :
    ∃ q, c.orders t' = some q ∧ q.captured = o'.captured := by
  by_cases ht : t' = t
  · subst ht
    simp only [putOrder, Function.update_self, Option.some.injEq] at h
    subst h
    exact ⟨o, ho, rfl⟩
  · exact ⟨o', by simpa [putOrder, ht] using h, rfl⟩

theorem busy_of_land {p : Put K V} (h : st.land i = some (p, st')) :
    (∀ k, st'.Busy k → st.Busy k) ∧ (∀ l k, st.Holds l k → st'.Holds l k) ∧
      (∃ active todo, st.phase = .writing active todo ∧ p ∈ todo) ∧
      st'.puts = st.puts ∧ st'.sweep = st.sweep := by
  obtain ⟨active, todo, hphase, hp, rfl⟩ := Strand.land_spec h
  refine ⟨?_, ?_, ⟨active, todo, hphase, List.mem_of_getElem? hp⟩, rfl, rfl⟩
  · rintro k (⟨a, td, he, hk⟩ | ⟨td, l, he, hk⟩)
    · cases he
      exact .inl ⟨active, todo, hphase, hk⟩
    · cases he
  · rintro l k (⟨a, td, he, hk, hl⟩ | ⟨td, he, hk⟩)
    · rw [hphase] at he
      cases he
      exact .inl ⟨active, _, rfl, hk, hl⟩
    · simp [hphase] at he

theorem busy_of_check [DecidableEq K] {outdated : K → Bool} (h : st.check outdated = some st') :
    (∀ k, st'.Busy k → st.Busy k) ∧
      (∀ l k, st.Holds l k → st'.Holds l k ∨ outdated k = false) := by
  obtain ⟨active, hphase, -, hsweep, hcases⟩ := Strand.check_spec h
  refine ⟨?_, ?_⟩
  · rintro k (⟨a, td, he, -⟩ | ⟨td, l, he, hk⟩)
    · rcases hcases with ⟨ok, hok, -⟩ | ⟨-, hw⟩
      · simp [hok] at he
      · simp [hw] at he
    · rcases hcases with ⟨ok, hok, -⟩ | ⟨-, hw⟩
      · simp [hok] at he
      · rw [hw] at he
        cases he
        simp only [List.mem_flatMap, List.mem_filter, List.mem_map, Prod.mk.injEq] at hk
        obtain ⟨k', ⟨hk', -⟩, l', -, -, rfl⟩ := hk
        exact .inl ⟨active, [], hphase, hk'⟩
  · rintro l k (⟨a, td, he, hk, hl⟩ | ⟨td, he, hk⟩)
    · rw [hphase] at he
      cases he
      cases hout : outdated k with
      | false => exact .inr rfl
      | true =>
        left
        rcases hcases with ⟨ok, hok, hiff, hnil⟩ | ⟨-, hw⟩
        · cases ok with
          | true => simp [hiff.mp rfl k hk] at hout
          | false => simp [hnil rfl] at hl
        · exact .inr ⟨_, hw, List.mem_flatMap.mpr ⟨k, List.mem_filter.mpr ⟨hk, hout⟩,
            List.mem_map.mpr ⟨l, hl, rfl⟩⟩⟩
    · simp [hphase] at he

theorem busy_of_wipe {lk : ℕ × K} (h : st.wipe i = some (lk, st')) :
    (∀ k, st'.Busy k → st.Busy k) ∧ (∀ l k, st.Holds l k → st'.Holds l k ∨ (l, k) = lk) := by
  obtain ⟨todo, hphase, hget, rfl⟩ := Strand.wipe_spec h
  refine ⟨?_, ?_⟩
  · rintro k (⟨a, td, he, -⟩ | ⟨td, l, he, hk⟩)
    · simp only at he
      split at he <;> cases he
    · simp only at he
      split at he <;> cases he
      exact .inr ⟨todo, l, hphase, List.mem_of_mem_eraseIdx hk⟩
  · rintro l k (⟨a, td, he, hk, hl⟩ | ⟨td, he, hk⟩)
    · simp [hphase] at he
    · rw [hphase] at he
      cases he
      rcases mem_eraseIdx_or_eq hk hget with hk | hk
      · have hne : (todo.eraseIdx i).isEmpty = false := by
          cases hnil : todo.eraseIdx i with
          | nil => simp [hnil] at hk
          | cons => rfl
        exact .inl (.inr ⟨todo.eraseIdx i, by simp [hne], hk⟩)
      · exact .inr hk

theorem swept_setStrand (h : c.Fenced) (ho : c.orders t = some o) (hst : st ∈ o.strands)
    (hputs : st'.puts = st.puts) (hsweep : st'.sweep = st.sweep) {t' : ℕ} {o' : Order K V}
    (ho' : (c.putOrder t (o.setStrand m st')).orders t' = some o') (s : Strand K V)
    (hs : s ∈ o'.strands) (p : Put K V) (hp : p ∈ s.puts) : p.layer ∈ s.sweep := by
  by_cases ht : t' = t
  · subst ht
    simp only [putOrder, Function.update_self, Option.some.injEq] at ho'
    subst ho'
    rcases mem_setStrand hs with hs | rfl
    · exact h.swept t' o ho s hs p hp
    · rw [hsweep]
      exact h.swept t' o ho st hst p (hputs ▸ hp)
  · exact h.swept t' o' (by simpa [putOrder, ht] using ho') s hs p hp

theorem Fenced.of_cells (h : c.Fenced) (hrem : c'.removals = c.removals)
    (horders : c'.orders = c.orders)
    (hcells : ∀ l k cell t, c'.cells l k = some cell → cell.writer = some t →
      c.cells l k = some cell) : c'.Fenced := by
  have hbusy : ∀ t k, c'.BusyOn t k ↔ c.BusyOn t k := by simp [BusyOn, horders]
  have hhand : ∀ t l k, c'.InHand t l k ↔ c.InHand t l k := by simp [InHand, horders]
  have hwriters : c.SameWriters c' := fun _ _ _ _ o' _ _ ho' => ⟨o', horders ▸ ho', rfl⟩
  refine ⟨fun t o ho => h.swept t o (horders ▸ ho), ?_, ?_⟩
  · exact h.handled_of hrem hwriters (fun l k cell t hc ht => .inr (hcells l k cell t hc ht))
      fun l k cell t o hc ht ho hin => .inl ((hhand t l k).mpr hin)
  · refine h.spared_of hrem hwriters ?_ fun l k cell t hc ht => .inl (hcells l k cell t hc ht)
    exact fun t o k hb ho => .inl ⟨o, (hbusy t k).mp hb, horders ▸ ho, rfl⟩

section Steps

variable [DecidableEq K]

theorem cells_setCell {cell : Option (Cell V)} {l' : ℕ} {k' : K} :
    (c.setCell l k cell).cells l' k' = if l' = l ∧ k' = k then cell else c.cells l' k' := by
  by_cases hl : l' = l
  · subst hl
    by_cases hk : k' = k <;> simp [setCell, hk]
  · simp [setCell, hl]

/-- Only one order at a time is at work on a key. -/
theorem Wf.busyOn_unique (h : c.Wf n) {t' : ℕ} (hb : c.BusyOn t k) (hb' : c.BusyOn t' k) :
    t = t' := by
  have running : ∀ u, c.BusyOn u k →
      ∃ (o : Order K V) (tk : Ticket K), Ticketed c.chain u o tk ∧ tk.phase = .running ∧
        k ∈ o.keys := by
    rintro u ⟨o, s, ho, hs, hb⟩
    have hok := h.strand u o ho s hs
    rcases hb with ⟨a, td, hp, hk⟩ | ⟨td, l, hp, hk⟩
    · obtain ⟨tk, htk, hrun⟩ := h.running ho hs (by simp [hp]) (by simp [Strand.done, hp])
      exact ⟨o, tk, htk, hrun, hok.active_key a td hp k hk⟩
    · obtain ⟨tk, htk, hrun⟩ := h.running ho hs (by simp [hp]) (by simp [Strand.done, hp])
      exact ⟨o, tk, htk, hrun, hok.wiped_key td hp (l, k) hk⟩
  obtain ⟨o, tk, htk, hrun, hk⟩ := running t hb
  obtain ⟨o', tk', htk', hrun', hk'⟩ := running t' hb'
  exact h.exclusive htk htk' hrun hrun' hk hk'

theorem Fenced.land (h : c.Fenced) (hwf : c.Wf n) (hs : c.land t m i = some c') : c'.Fenced := by
  obtain ⟨o, st, p, st', ho, hst, hland, rfl⟩ := land_spec hs
  have hmem := List.mem_of_getElem? hst
  obtain ⟨hbusy, hholds, ⟨active, todo, hphase, hp⟩, hputs, hsweep⟩ := busy_of_land hland
  obtain ⟨hput, hactive⟩ := (hwf.strand t o ho st hmem).todo_put active todo hphase p hp
  have hhold : st'.Holds p.layer p.key :=
    hholds _ _ (.inl ⟨active, todo, hphase, hactive, h.swept t o ho st hmem p hput⟩)
  have hcells : ∀ l k cell u,
      ((c.putOrder t (o.setStrand m st')).layerSet p (some t)).cells l k = some cell →
      cell.writer = some u →
      (u = t ∧ l = p.layer ∧ k = p.key) ∨ c.cells l k = some cell := by
    intro l k cell u hc hu
    rw [layerSet, cells_setCell] at hc
    split at hc
    · rename_i hlk
      cases hc
      cases hu
      exact .inl ⟨rfl, hlk⟩
    · exact .inr hc
  have hwriters : c.SameWriters ((c.putOrder t (o.setStrand m st')).layerSet p (some t)) :=
    fun _ _ _ _ _ _ _ ho' => captured_putOrder ho ho'
  refine ⟨fun t' o' ho' => swept_setStrand h ho hmem hputs hsweep ho', ?_, ?_⟩
  · refine h.handled_of rfl hwriters ?_ ?_
    · intro l k cell u hc hu
      rcases hcells l k cell u hc hu with ⟨rfl, rfl, rfl⟩ | hc
      · exact .inl (inHand_putOrder_self hst hhold)
      · exact .inr hc
    · intro l k cell u q hc hu hq hin
      rcases inHand_putOrder st' ho hst hin with hin | ⟨rfl, hh⟩
      · exact .inl hin
      · exact .inl (inHand_putOrder_self hst (hholds l k hh))
  · refine h.spared_of rfl hwriters ?_ ?_
    · intro u q k hb hq
      obtain ⟨q', hq', hcap⟩ := captured_putOrder ho hq
      exact .inl ⟨q', busyOn_putOrder ho hmem hbusy hb, hq', hcap⟩
    · intro l k cell u hc hu
      rcases hcells l k cell u hc hu with ⟨rfl, rfl, rfl⟩ | hc
      · refine .inr fun t' hb => hwf.busyOn_unique (busyOn_putOrder ho hmem hbusy hb) ?_
        exact ⟨o, st, ho, hmem, .inl ⟨active, todo, hphase, hactive⟩⟩
      · exact .inl hc

theorem Fenced.check (h : c.Fenced) (hwf : c.Wf n) (hs : c.check t m = some c') : c'.Fenced := by
  obtain ⟨o, st, st', ho, hst, hcheck, rfl⟩ := check_spec hs
  have hmem := List.mem_of_getElem? hst
  obtain ⟨hbusy, hholds⟩ := busy_of_check hcheck
  obtain ⟨active, hphase, hputs, hsweep, -⟩ := Strand.check_spec hcheck
  have hwriters : c.SameWriters (c.putOrder t (o.setStrand m st')) :=
    fun _ _ _ _ _ _ _ ho' => captured_putOrder ho ho'
  refine ⟨fun t' o' ho' => swept_setStrand h ho hmem hputs hsweep ho', ?_, ?_⟩
  · refine h.handled_of rfl hwriters (fun l k cell u hc hu => .inr hc) ?_
    intro l k cell u q hc hu hq hin
    rcases inHand_putOrder st' ho hst hin with hin | ⟨rfl, hh⟩
    · exact .inl hin
    · rw [ho] at hq
      cases hq
      rcases hholds l k hh with hh' | hfresh
      · exact .inl (inHand_putOrder_self hst hh')
      · -- a key whose fence is intact has seen no invalidation since
        refine .inr fun b r hr hk => ?_
        have hkey : k ∈ o.keys := by
          rcases hh with ⟨a, td, hp, hk, -⟩ | ⟨td, hp, -⟩
          · exact (hwf.strand u o ho st hmem).active_key a td hp k hk
          · simp [hphase] at hp
        by_contra hlt
        have := (hwf.knows u o ho k hkey).outdated_of_lt hr hk (by omega)
        simp [this] at hfresh
  · refine h.spared_of rfl hwriters ?_ (fun l k cell u hc hu => .inl hc)
    intro u q k hb hq
    obtain ⟨q', hq', hcap⟩ := captured_putOrder ho hq
    exact .inl ⟨q', busyOn_putOrder ho hmem hbusy hb, hq', hcap⟩

theorem Fenced.wipe (h : c.Fenced) (hs : c.wipe t m i = some c') : c'.Fenced := by
  obtain ⟨o, st, l₀, k₀, st', ho, hst, hwipe, rfl⟩ := wipe_spec hs
  have hmem := List.mem_of_getElem? hst
  obtain ⟨hbusy, hholds⟩ := busy_of_wipe hwipe
  obtain ⟨todo, hphase, -, hst'⟩ := Strand.wipe_spec hwipe
  have hcells : ∀ l k cell,
      ((c.putOrder t (o.setStrand m st')).layerDelete l₀ k₀).cells l k = some cell →
      (l, k) ≠ (l₀, k₀) ∧ c.cells l k = some cell := by
    intro l k cell hc
    rw [layerDelete, cells_setCell] at hc
    split at hc
    · cases hc
    · rename_i hne
      exact ⟨fun he => hne (by simpa using he), hc⟩
  have hwriters : c.SameWriters ((c.putOrder t (o.setStrand m st')).layerDelete l₀ k₀) :=
    fun _ _ _ _ _ _ _ ho' => captured_putOrder ho ho'
  refine ⟨fun t' o' ho' => swept_setStrand h ho hmem (by rw [hst']) (by rw [hst']) ho', ?_, ?_⟩
  · refine h.handled_of rfl hwriters (fun l k cell u hc hu => .inr (hcells l k cell hc).2) ?_
    intro l k cell u q hc hu hq hin
    rcases inHand_putOrder st' ho hst hin with hin | ⟨rfl, hh⟩
    · exact .inl hin
    · rcases hholds l k hh with hh' | he
      · exact .inl (inHand_putOrder_self hst hh')
      · exact absurd he (hcells l k cell hc).1
  · refine h.spared_of rfl hwriters ?_ (fun l k cell u hc hu => .inl (hcells l k cell hc).2)
    intro u q k hb hq
    obtain ⟨q', hq', hcap⟩ := captured_putOrder ho hq
    exact .inl ⟨q', busyOn_putOrder ho hmem hbusy hb, hq', hcap⟩

theorem Fenced.enlist (h : c.Fenced) (hwf : c.Wf n)
    (hplanned : ∀ st ∈ o.strands, st.phase = .planned)
    (hsweep : ∀ st ∈ o.strands, ∀ p ∈ st.puts, p.layer ∈ st.sweep) : (c.enlist n o).Fenced := by
  -- no cell stems from the new order
  have hne : ∀ l k cell t, c.cells l k = some cell → cell.writer = some t → t ≠ n := by
    intro l k cell t hc ht
    obtain ⟨-, o', ho', -⟩ := hwf.placed l k cell t hc ht
    exact Nat.ne_of_lt (hwf.lt_of_order ho')
  have hwriters : c.SameWriters (c.enlist n o) := by
    intro l k cell t o' hc ht ho'
    rcases orders_enlist ho' with ⟨rfl, -⟩ | ⟨-, ho'⟩
    · exact absurd rfl (hne l k cell t hc ht)
    · exact ⟨o', ho', rfl⟩
  refine ⟨?_, ?_, ?_⟩
  · intro t o' ho'
    rcases orders_enlist ho' with ⟨rfl, rfl⟩ | ⟨-, ho'⟩
    · exact hsweep
    · exact h.swept t o' ho'
  · refine h.handled_of rfl hwriters (fun l k cell t hc ht => .inr hc) ?_
    rintro l k cell t q hc ht hq ⟨o', st, ho', hst, hh⟩
    have htn := hne l k cell t hc ht
    exact .inl ⟨o', st, by simp [Store.enlist, htn, ho'], hst, hh⟩
  · refine h.spared_of rfl hwriters ?_ (fun l k cell t hc ht => .inl hc)
    rintro t o' k ⟨q, st, hq, hst, hb⟩ ho'
    rcases orders_enlist hq with ⟨-, rfl⟩ | ⟨hne, hq'⟩
    · have hp := hplanned st hst
      rcases hb with ⟨a, td, he, -⟩ | ⟨td, l, he, -⟩ <;> simp [hp] at he
    · rcases orders_enlist ho' with ⟨rfl, -⟩ | ⟨-, hold⟩
      · exact absurd rfl hne
      · exact .inl ⟨o', ⟨q, st, hq', hst, hb⟩, hold, rfl⟩

theorem Fenced.start (h : c.Fenced) (hwf : c.Wf n) {skipped : ℕ → Bool}
    (hs : c.start skipped t = some c') : c'.Fenced := by
  obtain ⟨chain, o, hchain, ho, rfl⟩ := start_spec hs
  obtain ⟨tk, htk, hq, -, -⟩ := Chain.start_spec hchain
  set active := o.keys.filter fun k => !c.epochs.isWriteOutdated k (o.fence k) with hactive
  set skip : ℕ → Bool := if o.kind = .set then skipped else fun _ => false
  set o₁ : Order K V := { o with strands := o.strands.map fun st => st.start active skip }
  have horders : ∀ t' o', Function.update c.orders t (some o₁) t' = some o' →
      (t' = t ∧ o' = o₁) ∨ (t' ≠ t ∧ c.orders t' = some o') := by
    intro t' o' ho'
    by_cases ht : t' = t
    · subst ht
      simp only [Function.update_self, Option.some.injEq] at ho'
      exact .inl ⟨rfl, ho'.symm⟩
    · simp only [Function.update_of_ne ht] at ho'
      exact .inr ⟨ht, ho'⟩
  -- the order has not started, so no cell stems from it
  have hne : ∀ l k cell u, c.cells l k = some cell → cell.writer = some u → u ≠ t := by
    rintro l k cell u hc hu rfl
    obtain ⟨⟨tk', hget, hph⟩, -⟩ := hwf.placed l k cell u hc hu
    rw [htk] at hget
    cases hget
    exact hph hq
  have hwriters : c.SameWriters
      { c with chain, orders := Function.update c.orders t (some o₁) } := by
    intro l k cell u o' hc hu ho'
    rcases horders u o' ho' with ⟨rfl, -⟩ | ⟨-, ho'⟩
    · exact absurd rfl (hne l k cell u hc hu)
    · exact ⟨o', ho', rfl⟩
  refine ⟨?_, ?_, ?_⟩
  · intro t' o' ho' s hs' p hp
    rcases horders t' o' ho' with ⟨rfl, rfl⟩ | ⟨-, ho'⟩
    · obtain ⟨st, hst, rfl⟩ := List.mem_map.mp hs'
      exact h.swept t' o ho st hst p hp
    · exact h.swept t' o' ho' s hs' p hp
  · refine h.handled_of rfl hwriters (fun l k cell u hc hu => .inr hc) ?_
    rintro l k cell u q hc hu hq' ⟨o', st, ho', hst, hh⟩
    exact .inl ⟨o', st, by simp [hne l k cell u hc hu, ho'], hst, hh⟩
  · refine h.spared_of rfl hwriters ?_ (fun l k cell u hc hu => .inl hc)
    rintro u o' k ⟨q, s, hq', hs', hb⟩ ho'
    rcases horders u o' ho' with ⟨rfl, rfl⟩ | ⟨hut, ho'⟩
    · -- the key has just passed its check
      right
      intro b r hr hk
      rcases horders u q hq' with ⟨-, rfl⟩ | ⟨hne', -⟩
      · obtain ⟨st, -, rfl⟩ := List.mem_map.mp hs'
        have hact : k ∈ active := by
          rcases hb with ⟨a, td, he, hk⟩ | ⟨td, l, he, hk⟩ <;>
            rcases start_phase st active skip with hp | hp <;> rw [hp] at he <;> cases he
          exact hk
        simp only [hactive, List.mem_filter, Bool.not_eq_true'] at hact
        by_contra hlt
        have := (hwf.knows u o ho k hact.1).outdated_of_lt hr hk
          (show o.captured < b from by simpa using hlt)
        simp [hact.2] at this
      · exact absurd rfl hne'
    · rcases horders u q hq' with ⟨rfl, -⟩ | ⟨-, hq'⟩
      · exact absurd rfl hut
      · exact .inl ⟨o', ⟨q, s, hq', hs', hb⟩, ho', rfl⟩

theorem Fenced.bump (h : c.Fenced) (hwf : c.Wf n) (target : Target K) (layers : List ℕ) :
    (c.bump n target layers).Fenced := by
  have hremovals : ∀ b r, (c.bump n target layers).removals b = some r →
      (b = n ∧ r = .new target layers) ∨ c.removals b = some r := by
    intro b r hr
    by_cases hb : b = n
    · subst hb
      simp only [Store.bump, Function.update_self, Option.some.injEq] at hr
      exact .inl ⟨rfl, hr.symm⟩
    · simp only [Store.bump, Function.update_of_ne hb] at hr
      exact .inr hr
  refine ⟨h.swept, ?_, ?_⟩
  · intro b r l k cell t o hr hcov hc ht ho hlt
    rcases hremovals b r hr with ⟨rfl, rfl⟩ | hr
    · exact .inr (Removal.pending_new hcov)
    · exact h.handled b r l k cell t o hr hcov hc ht ho hlt
  · intro t o k hb ho b r hr hk hlt l cell t' o' hc ht' ho'
    rcases hremovals b r hr with ⟨rfl, rfl⟩ | hr
    · have := hwf.captured_le t' o' ho'
      have := hwf.lt_of_order ho'
      omega
    · exact h.spared t o k hb ho b r hr hk hlt l cell t' o' hc ht' ho'

theorem Fenced.erase (h : c.Fenced) (hs : c.erase b i = some c') : c'.Fenced := by
  obtain ⟨r, l₀, hr, hcases⟩ := erase_spec hs
  obtain ⟨x, hget, hrem, horders, hcells⟩ : ∃ x : ℕ × Option K, r.todo[i]? = some x ∧
      c'.removals = Function.update c.removals b (some { r with todo := r.todo.eraseIdx i }) ∧
      c'.orders = c.orders ∧
      ∀ l k cell, c'.cells l k = some cell →
        c.cells l k = some cell ∧ x ≠ (l, some k) ∧ x ≠ (l, none) := by
    rcases hcases with ⟨k₀, hget, rfl⟩ | ⟨hget, rfl⟩
    · refine ⟨_, hget, rfl, rfl, fun l k cell hc => ?_⟩
      rw [layerDelete, cells_setCell] at hc
      split at hc
      · cases hc
      · rename_i hne
        exact ⟨hc, fun he => hne (by simpa [eq_comm] using he), by simp⟩
    · refine ⟨_, hget, rfl, rfl, fun l k cell hc => ?_⟩
      by_cases hl : l = l₀
      · subst hl
        simp [layerClear] at hc
      · simp only [layerClear, Function.update_of_ne hl] at hc
        exact ⟨hc, by simp, by simpa [eq_comm] using hl⟩
  have hremovals : ∀ b' r', c'.removals b' = some r' → ∃ q, c.removals b' = some q ∧
      r'.target = q.target ∧ r'.layers = q.layers ∧
      ∀ l k cell, c'.cells l k = some cell → q.Pending l k → r'.Pending l k := by
    intro b' r' hr'
    by_cases hb : b' = b
    · subst hb
      rw [hrem] at hr'
      simp only [Function.update_self, Option.some.injEq] at hr'
      subst hr'
      refine ⟨r, hr, rfl, rfl, fun l k cell hc hp => ?_⟩
      obtain ⟨-, hk, hnone⟩ := hcells l k cell hc
      rcases hp with hp | hp
      · exact .inl ((mem_eraseIdx_or_eq hp hget).resolve_right fun he => hk he.symm)
      · exact .inr ((mem_eraseIdx_or_eq hp hget).resolve_right fun he => hnone he.symm)
    · rw [hrem, Function.update_of_ne hb] at hr'
      exact ⟨r', hr', rfl, rfl, fun _ _ _ _ hp => hp⟩
  refine ⟨horders ▸ h.swept, ?_, ?_⟩
  · intro b' r' l k cell t o hr' hcov hc ht ho hlt
    obtain ⟨q, hq, htarget, hlayers, hpend⟩ := hremovals b' r' hr'
    have hcov' : q.Covers l k := by
      simpa [Removal.Covers, htarget, hlayers] using hcov
    rcases h.handled b' q l k cell t o hq hcov' (hcells l k cell hc).1 ht (horders ▸ ho) hlt with
      hin | hp
    · exact .inl (by simpa [InHand, horders] using hin)
    · exact .inr (hpend l k cell hc hp)
  · intro t o k hb ho b' r' hr' hk hlt l cell t' o' hc ht' ho'
    obtain ⟨q, hq, htarget, -⟩ := hremovals b' r' hr'
    exact h.spared t o k (by simpa [BusyOn, horders] using hb) (horders ▸ ho) b' q hq
      (htarget ▸ hk) hlt l cell t' o' (hcells l k cell hc).1 ht' (horders ▸ ho')

/-- Every step with working layers keeps the fences. -/
theorem Fenced.step (h : c.Fenced) (hwf : c.Wf n) (hstep : c.Step False n c') : c'.Fenced := by
  cases hstep with
  | idle => exact h
  | tick d hd => exact h.of_cells rfl rfl fun l k cell t hc _ => hc
  | enlist o hplanned hkeys hsweep hcaptured hknows =>
    exact h.enlist hwf hplanned (hsweep.resolve_left id)
  | start skipped t hs => exact h.start hwf hs
  | land t m i hs => exact h.land hwf hs
  | landFail hf => exact hf.elim
  | check t m hs => exact h.check hwf hs
  | wipe t m i hs => exact h.wipe hs
  | wipeFail hf => exact hf.elim
  | settle t hs =>
    obtain ⟨o, chain, -, -, -, rfl⟩ := settle_spec hs
    exact h.of_cells rfl rfl fun l k cell t hc _ => hc
  | bump target layers => exact h.bump hwf target layers
  | erase b i hs => exact h.erase hs
  | eraseFail hf => exact hf.elim
  | purge l k =>
    refine h.of_cells rfl rfl fun l' k' cell t hc _ => ?_
    rw [layerDelete, cells_setCell] at hc
    split at hc
    · cases hc
    · exact hc
  | rewrite p =>
    refine h.of_cells rfl rfl fun l' k' cell t hc ht => ?_
    rw [layerSet, cells_setCell] at hc
    split at hc
    · cases hc
      cases ht
    · exact hc

end Steps

end Store

end LayerCache
