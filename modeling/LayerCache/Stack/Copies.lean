import LayerCache.Stack.SlidingTtl
import LayerCache.Stack.Progress

/-! # Copies of a fetched value

Between the layers a value travels in the hand of a read, in a renewed sliding TTL and in
the writes of orders. A step hands on what was there before; a new value comes in through
the store of a fetch only.
-/

namespace LayerCache

open Store

variable {K V T : Type} {cfg : Config} {s s' : Stack K V T} {w born : ℕ} {k : K}

theorem Reader.found_of_renewable {reader : Reader K V} {now : Millis} {x : Item V × ℕ}
    (h : reader.renewable now = some x) : x.1 ∈ reader.found := by
  unfold renewable at h
  split at h
  · rw [Option.ite_none_right_eq_some, Option.some.injEq] at h
    obtain ⟨-, rfl⟩ := h
    simp [found, *]
  · rw [Option.ite_none_right_eq_some, Option.some.injEq] at h
    obtain ⟨-, rfl⟩ := h
    simp [found, *]
  · rw [Option.ite_none_right_eq_some, Option.some.injEq] at h
    obtain ⟨-, rfl⟩ := h
    simp [found, *]
  · rw [Option.ite_none_right_eq_some, Option.some.injEq] at h
    obtain ⟨-, rfl⟩ := h
    simp [found, *]
  · cases h

namespace Stack

/-- `get` calls, with what their tasks, reads and stores go through; no other write and no
invalidation. -/
def OnlyFetches (_ : Stack K V T) : Action K V T → Prop
  | .store _ | .read _ | .get _ => True
  | .write (.enqueue _) | .write (.verify _) | .write (.track _) | .write (.announce _) => True
  | _ => False

instance (s : Stack K V T) : DecidablePred s.OnlyFetches := fun a => by
  induction a using Action.casesOn with
  | write a => induction a using WriteAction.casesOn <;> (unfold OnlyFetches; infer_instance)
  | _ => unfold OnlyFetches; infer_instance

theorem OnlyFetches.healthy {a : Action K V T} (h : s.OnlyFetches a) : s.Healthy a := by
  cases a with
  | fault a => cases h
  | store a | read a | write a | invalidate a | get a => trivial

/-- Somewhere there is a copy of the value that was fetched at step `born`, for the key, other than
in order `w`. -/
inductive Bears (s : Stack K V T) (w : ℕ) (k : K) (born : ℕ) : Prop
  | cell {l : ℕ} {cell : Cell V} (hcell : s.store.cells l k = some cell)
      (hb : cell.item.born = born)
  | found {r : ℕ} {reader : Reader K V} {item : Item V} (hr : s.readers r = some reader)
      (hk : reader.key = k) (hitem : item ∈ reader.found) (hb : item.born = born)
  | renewing {g : ℕ} {x : Renewal K V} (hg : s.renewal g = some x) (hk : x.key = k)
      (hb : x.item.born = born)
  | put {t : ℕ} {o : Order K V} {p : Put K V} (ht : t ≠ w) (ho : s.store.orders t = some o)
      (hp : o.Writes p) (hk : p.key = k) (hb : p.item.born = born)

theorem Bears.of_clock {n : ℕ} (h : Bears { s with clock := n } w k born) : s.Bears w k born := by
  cases h with
  | cell hcell hb => exact .cell hcell hb
  | found hr hk hitem hb => exact .found (s := s) hr hk hitem hb
  | renewing hg hk hb => exact .renewing (s := s) hg hk hb
  | put ht ho hp hk hb => exact .put (s := s) ht ho hp hk hb

/-- Where a copy comes from: from another one, from a landing write of `w`, or from a fetch. -/
inductive BearsFrom (s : Stack K V T) [DecidableEq K] (a : Action K V T) (w : ℕ) (k : K)
    (born : ℕ) : Prop
  | copied (h : s.Bears w k born)
  | landed {m i : ℕ} {o : Order K V} {p : Put K V} (ha : a = .store (.land w m i))
      (hlanding : s.store.landing w m i = some (o, p)) (hk : p.key = k) (hb : p.item.born = born)
  | fetched {i : ℕ} {task : Task K V} {write : WriteValue V} {tags : Option (List T)}
      (ha : a = .get (.fetched i (.store write tags))) (hi : s.tasks i = some task)
      (hphase : task.phase = .fetching born) (hk : task.key = k) (hw : s.clock ≠ w)
      (hcurrent : s.store.epochs.isWriteOutdated task.key task.fence = false)

variable [DecidableEq K]

variable [DecidableEq T]

/-- What a read has in hand after a step, it had before, or it was in a layer. -/
theorem found_act {a : Action K V T} (hok : s.Healthy a) (hs : s.act cfg a = some s') {r : ℕ}
    {reader : Reader K V} (hr : s'.readers r = some reader) {item : Item V}
    (hitem : item ∈ reader.found) :
    (∃ reader₀, s.readers r = some reader₀ ∧ reader₀.key = reader.key ∧ item ∈ reader₀.found) ∨
      ∃ l, s.store.visible l reader.key = some item := by
  cases a with
  | fault a => cases hok
  | store a =>
    obtain ⟨store, -, rfl⟩ := storeStep_spec hs
    exact .inl ⟨reader, hr, rfl, hitem⟩
  | write a =>
    obtain ⟨writers, index, store, queue, flushing, outbox, rfl⟩ := writeStep_frame hs
    exact .inl ⟨reader, hr, rfl, hitem⟩
  | invalidate a =>
    obtain ⟨invs, index, store, queue, outbox, rfl⟩ := invalidateStep_frame hs
    exact .inl ⟨reader, hr, rfl, hitem⟩
  | get a =>
    rcases readers_getStep hs hr with hr | ⟨-, hready⟩
    · exact .inl ⟨reader, hr, rfl, hitem⟩
    · simp [Reader.found, hready] at hitem
  | read a =>
    rcases readers_readStep hs with ⟨key, -, rfl⟩ |
      ⟨r', reader₀, reader', index, store, hr₀, hf, hfound, rfl⟩
    · rcases update_eq_some hr with ⟨-, rfl⟩ | ⟨-, hr⟩
      · simp [Reader.found] at hitem
      · exact .inl ⟨reader, hr, rfl, hitem⟩
    · rcases update_eq_some hr with ⟨rfl, rfl⟩ | ⟨-, hr⟩
      · rcases hfound item hitem with hitem | ⟨-, hvisible⟩
        · exact .inl ⟨reader₀, hr₀, hf.key.symm, hitem⟩
        · exact .inr ⟨reader₀.index, hf.key ▸ hvisible⟩
      · exact .inl ⟨reader, hr, rfl, hitem⟩

omit [DecidableEq K] [DecidableEq T] in
/-- What a `get` may write back is in its writes already, or in the hand of its read. -/
theorem renewal_cases {g : ℕ} {x : Renewal K V} (h : s.renewal g = some x) :
    ∃ get, s.gets g = some get ∧ x.key = get.key ∧
      ((∃ answer l rest stored ttl ahead, get.phase = .sliding answer (l :: rest) stored ttl ahead ∧
        x = ⟨get.key, stored, l :: rest⟩) ∨
      (get.phase = .reading ∧ ∃ reader, s.readers g = some reader ∧ x.item ∈ reader.found)) := by
  simp only [renewal, Option.bind_eq_bind, Option.bind_eq_some_iff] at h
  obtain ⟨get, hg, h⟩ := h
  split at h
  · rename_i answer l rest stored ttl ahead hphase
    cases h
    exact ⟨get, hg, rfl, .inl ⟨answer, l, rest, stored, ttl, ahead, hphase, rfl⟩⟩
  · rename_i hphase
    simp only [Option.ite_none_right_eq_some, Option.bind_eq_some_iff, Option.some.injEq] at h
    obtain ⟨-, reader, hr, y, hy, rfl⟩ := h
    exact ⟨get, hg, rfl, .inr ⟨hphase, reader, hr, Reader.found_of_renewable hy⟩⟩
  · cases h

/-- A step only hands copies on, short of the store of a fetch. -/
theorem bears_act {a : Action K V T} (hintact : s.Intact cfg) (hlinked : s.Linked cfg s.clock)
    (hok : s.OnlyFetches a) (hs : s.act cfg a = some s') (h : s'.Bears w k born) :
    s.BearsFrom a w k born := by
  have hwf := hintact.sound.wf
  have hvisible : ∀ {l : ℕ} {item : Item V}, s.store.visible l k = some item →
      item.born = born → s.BearsFrom a w k born := by
    intro l item hv hb
    obtain ⟨cell, hcell, rfl⟩ := visible_spec hv
    exact .copied (.cell hcell hb)
  cases h with
  | cell hcell hb =>
    rcases cells_act hs hcell with hc | ⟨t, m, i, o, p, rfl, hlanding, -, rfl, hitem, -⟩ |
      ⟨g, get, answer, rest, stored, ttl, ahead, rfl, hg, hphase, rfl, hitem⟩
    · exact .copied (.cell hc hb)
    · by_cases ht : t = w
      · subst ht
        exact .landed rfl hlanding rfl (hitem ▸ hb)
      · obtain ⟨ho, hwrites, -⟩ := hwf.landing hlanding
        exact .copied (.put ht ho hwrites rfl (hitem ▸ hb))
    · exact .copied (.renewing (g := g) (by simp [renewal, hg, hphase]; rfl) rfl (hitem ▸ hb))
  | found hr hk hitem hb =>
    subst hk
    rcases found_act hok.healthy hs hr hitem with ⟨reader₀, hr₀, hk, hitem⟩ | ⟨l, hv⟩
    · exact .copied (.found hr₀ hk hitem hb)
    · exact hvisible hv hb
  | @renewing g x hg hk hb =>
    rcases renewal_act hok.healthy hs hg with ⟨x₀, hx₀, hcont⟩ | rfl
    · exact .copied (.renewing hx₀ (hcont.key ▸ hk) (hcont.born ▸ hb))
    · obtain ⟨reader, hr, -, rfl⟩ := load_spec hs
      obtain ⟨get, hget, hkey, ⟨answer, l, rest, stored, ttl, ahead, hphase, rfl⟩ |
        ⟨hphase, reader', hr', hitem⟩⟩ := renewal_cases hg
      · refine .copied (.renewing (g := g) ?_ hk hb)
        have hget' : s.gets g = some get := hget
        simp [renewal, hget', hphase]
      · rcases update_eq_some hr' with ⟨-, rfl⟩ | ⟨hne, -⟩
        · obtain ⟨reader₁, hr₁, hk₁⟩ := hlinked.reading g get hget hphase
          obtain rfl := Option.some.inj (hr.symm.trans hr₁)
          obtain rfl : reader.key = k := hk₁.trans (hkey.symm.trans hk)
          simp only [Reader.found, hintact.working, Bool.false_eq_true, if_false] at hitem
          exact hvisible hitem hb
        · exact absurd rfl hne
  | put ht ho hp hk hb =>
    rcases orders_act hs ho with ⟨o₀, ho₀, hsame⟩ | ⟨rfl, hadmits⟩
    · exact .copied (.put ht ho₀ (hsame.writes_iff.mp hp) hk hb)
    · cases hadmits with
      | @backfill r ttls reader hit hr hphase hl =>
        obtain ⟨st, hst, hp⟩ := hp
        obtain rfl := List.mem_singleton.mp hst
        obtain ⟨l, -, rfl⟩ := List.mem_map.mp hp
        exact .copied (.found hr hk (by simp [Reader.found, hphase]) hb)
      | set | mset | flush => cases hok
      | @fetched i task b write tags hi hphase =>
        obtain ⟨st, hst, hp⟩ := hp
        obtain rfl := List.mem_singleton.mp hst
        obtain ⟨l, -, rfl⟩ := List.mem_map.mp hp
        obtain rfl : b = born := hb
        have hs' : s.fetched cfg i (.store write tags) = some s' := hs
        obtain ⟨task', b', hi', -, ⟨result, -, -, rfl⟩ | ⟨write', tags', -, hcurrent, -⟩⟩ :=
          fetched_spec hs'
        · -- an outdated fetch admits no order
          exact absurd (hwf.lt_of_order (show s.store.orders s.clock = _ from ho)) (lt_irrefl _)
        · obtain rfl := Option.some.inj (hi.symm.trans hi')
          exact .fetched rfl hi hphase hk ht hcurrent

end Stack

end LayerCache
