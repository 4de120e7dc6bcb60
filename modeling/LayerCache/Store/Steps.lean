import LayerCache.Store.Basic

/-! # What a step can do to the store

Each store operation is described once, by what it found and what it left, and
`StoreStep` collects the changes that a step of the stack can make. The invariants of
the store are proved from this relation only.
-/

namespace LayerCache

variable {K V : Type} {c c' : Store K V} {t n i b : ℕ}

namespace Strand

variable {st st' : Strand K V} {p : Put K V} {lk : ℕ × K}

theorem land_spec (h : st.land i = some (p, st')) : ∃ active todo,
    st.phase = .writing active todo ∧ todo[i]? = some p ∧
      st' = { st with phase := .writing active (todo.eraseIdx i) } := by
  unfold land at h
  split at h
  · rename_i active todo hphase
    simp only [Option.map_eq_some_iff, Prod.mk.injEq] at h
    obtain ⟨q, hq, rfl, rfl⟩ := h
    exact ⟨active, todo, hphase, hq, rfl⟩
  · cases h

theorem wipe_spec (h : st.wipe i = some (lk, st')) : ∃ todo,
    st.phase = .wiping todo ∧ todo[i]? = some lk ∧
      st' = { st with
        phase := if (todo.eraseIdx i).isEmpty then .finished false
          else .wiping (todo.eraseIdx i) } := by
  unfold wipe at h
  split at h
  · rename_i todo hphase
    simp only [Option.map_eq_some_iff, Prod.mk.injEq] at h
    obtain ⟨q, hq, rfl, rfl⟩ := h
    exact ⟨todo, hphase, hq, rfl⟩
  · cases h

theorem check_spec [DecidableEq K] {outdated : K → Bool} (h : st.check outdated = some st') :
    ∃ active, st.phase = .writing active [] ∧ st'.puts = st.puts ∧ st'.sweep = st.sweep ∧
      ((∃ ok, st'.phase = .finished ok ∧ (ok = true ↔ ∀ k ∈ active, outdated k = false) ∧
        (ok = false → st.sweep = [])) ∨
      ((∃ k ∈ active, outdated k = true) ∧ st'.phase = .wiping
        ((active.filter outdated).flatMap fun k => st.sweep.map fun l => (l, k)))) := by
  unfold check at h
  split at h
  · rename_i active hphase
    simp only [Option.some.injEq] at h
    subst h
    refine ⟨active, hphase, rfl, rfl, ?_⟩
    simp only
    split_ifs with hstale htodo
    · exact .inl ⟨true, rfl, by simpa [List.filter_eq_nil_iff] using hstale, by simp⟩
    · refine .inl ⟨false, rfl, ?_, fun _ => ?_⟩
      · simpa [List.filter_eq_nil_iff] using hstale
      · obtain ⟨k, hk⟩ : ∃ k, k ∈ active.filter outdated :=
          List.exists_mem_of_ne_nil _ (by simpa using hstale)
        by_contra hne
        obtain ⟨l, hl⟩ := List.exists_mem_of_ne_nil _ hne
        simp only [List.isEmpty_iff, List.flatMap_eq_nil_iff, List.map_eq_nil_iff] at htodo
        exact hne (htodo k hk)
    · obtain ⟨k, hk⟩ : ∃ k, k ∈ active.filter outdated :=
        List.exists_mem_of_ne_nil _ (by simpa using hstale)
      obtain ⟨hk, hout⟩ := List.mem_filter.mp hk
      exact .inr ⟨⟨k, hk, hout⟩, rfl⟩
  · cases h

end Strand

namespace Store

section Epochs

variable [DecidableEq K]

/-- A fence captured at a step: it is not ahead of the current one, and as long as it is the
current one, no invalidation of the key came after its capture. -/
def Knows (c : Store K V) (k : K) (f : Fence) (captured : ℕ) : Prop :=
  f ≤ c.epochs.fence k ∧ (f = c.epochs.fence k →
    ∀ b r, c.removals b = some r → r.target.Covers k → b ≤ captured)

/-- The changes that one step of the stack, numbered `n`, can make to the store. With
`faults` layer operations may fail and the stack gets over it. -/
inductive Step (faults : Prop) (n : ℕ) (c : Store K V) : Store K V → Prop
  | idle : Step faults n c c
  | tick (d : Millis) (hd : 0 ≤ d) : Step faults n c (c.tick d)
  | enlist (o : Order K V) (hplanned : ∀ st ∈ o.strands, st.phase = .planned)
      (hkeys : ∀ st ∈ o.strands, ∀ p ∈ st.puts, p.key ∈ o.keys)
      (hsweep : faults ∨ ∀ st ∈ o.strands, ∀ p ∈ st.puts, p.layer ∈ st.sweep)
      (hcaptured : o.captured ≤ n) (hknows : ∀ k ∈ o.keys, c.Knows k (o.fence k) o.captured) :
      Step faults n c (c.enlist n o)
  | start {c' : Store K V} (skipped : ℕ → Bool) (t : ℕ) (h : c.start skipped t = some c') :
      Step faults n c c'
  | land {c' : Store K V} (t m i : ℕ) (h : c.land t m i = some c') : Step faults n c c'
  | landFail {c' : Store K V} (hf : faults) (t m i : ℕ) (h : c.landFail t m i = some c') :
      Step faults n c c'
  | check {c' : Store K V} (t m : ℕ) (h : c.check t m = some c') : Step faults n c c'
  | wipe {c' : Store K V} (t m i : ℕ) (h : c.wipe t m i = some c') : Step faults n c c'
  | wipeFail {c' : Store K V} (hf : faults) (t m i : ℕ) (h : c.wipeFail t m i = some c') :
      Step faults n c c'
  | settle {c' : Store K V} (t : ℕ) (h : c.settle t = some c') : Step faults n c c'
  | bump (target : Target K) (layers : List ℕ) : Step faults n c (c.bump n target layers)
  | erase {c' : Store K V} (b i : ℕ) (h : c.erase b i = some c') : Step faults n c c'
  | eraseFail {c' : Store K V} (hf : faults) (b i : ℕ) (h : c.eraseFail b i = some c') :
      Step faults n c c'
  | purge (l : ℕ) (k : K) : Step faults n c (c.layerDelete l k)
  | rewrite (p : Put K V) : Step faults n c (c.layerSet p none)

variable {f : Fence} {k : K} {captured : ℕ}

theorem start_spec {skipped : ℕ → Bool} (h : c.start skipped t = some c') :
    ∃ chain o, c.chain.start t = some chain ∧ c.orders t = some o ∧
      c' = { c with
        chain
        orders := Function.update c.orders t (some { o with
          strands := o.strands.map fun st =>
            st.start (o.keys.filter fun k => !c.epochs.isWriteOutdated k (o.fence k))
              (if o.kind = .set then skipped else fun _ => false) }) } := by
  simp only [start, Option.bind_eq_bind, Option.bind_eq_some_iff, Option.some.injEq] at h
  obtain ⟨chain, hchain, o, ho, rfl⟩ := h
  exact ⟨chain, o, hchain, ho, rfl⟩

theorem land_spec (h : c.land t n i = some c') : ∃ o st p st', c.orders t = some o ∧
    o.strands[n]? = some st ∧ st.land i = some (p, st') ∧
      c' = (c.putOrder t (o.setStrand n st')).layerSet p (some t) := by
  simp only [land, Option.bind_eq_bind, Option.bind_eq_some_iff, Option.some.injEq,
    Prod.exists] at h
  obtain ⟨o, ho, st, hst, p, st', hland, rfl⟩ := h
  exact ⟨o, st, p, st', ho, hst, hland, rfl⟩

omit [DecidableEq K] in
theorem landFail_spec (h : c.landFail t n i = some c') : ∃ o st p st', c.orders t = some o ∧
    o.strands[n]? = some st ∧ st.land i = some (p, st') ∧
      c' = c.putOrder t (o.setStrand n st') := by
  simp only [landFail, Option.bind_eq_bind, Option.bind_eq_some_iff, Option.some.injEq,
    Prod.exists] at h
  obtain ⟨o, ho, st, hst, p, st', hland, rfl⟩ := h
  exact ⟨o, st, p, st', ho, hst, hland, rfl⟩

theorem check_spec (h : c.check t n = some c') : ∃ o st st', c.orders t = some o ∧
    o.strands[n]? = some st ∧
      st.check (fun k => c.epochs.isWriteOutdated k (o.fence k)) = some st' ∧
      c' = c.putOrder t (o.setStrand n st') := by
  simp only [check, Option.bind_eq_bind, Option.bind_eq_some_iff, Option.some.injEq] at h
  obtain ⟨o, ho, st, hst, st', hcheck, rfl⟩ := h
  exact ⟨o, st, st', ho, hst, hcheck, rfl⟩

theorem wipe_spec (h : c.wipe t n i = some c') : ∃ o st l k st', c.orders t = some o ∧
    o.strands[n]? = some st ∧ st.wipe i = some ((l, k), st') ∧
      c' = (c.putOrder t (o.setStrand n st')).layerDelete l k := by
  simp only [wipe, Option.bind_eq_bind, Option.bind_eq_some_iff, Option.some.injEq,
    Prod.exists] at h
  obtain ⟨o, ho, st, hst, l, k, st', hwipe, rfl⟩ := h
  exact ⟨o, st, l, k, st', ho, hst, hwipe, rfl⟩

omit [DecidableEq K] in
theorem wipeFail_spec (h : c.wipeFail t n i = some c') : ∃ o st l k st', c.orders t = some o ∧
    o.strands[n]? = some st ∧ st.wipe i = some ((l, k), st') ∧
      c' = c.putOrder t (o.setStrand n st') := by
  simp only [wipeFail, Option.bind_eq_bind, Option.bind_eq_some_iff, Option.some.injEq,
    Prod.exists] at h
  obtain ⟨o, ho, st, hst, l, k, st', hwipe, rfl⟩ := h
  exact ⟨o, st, l, k, st', ho, hst, hwipe, rfl⟩

omit [DecidableEq K] in
theorem settle_spec (h : c.settle t = some c') : ∃ o chain, c.orders t = some o ∧
    c.chain.settle t = some chain ∧ (∀ st ∈ o.strands, st.done = true) ∧
      c' = { c with chain } := by
  simp only [settle, Option.bind_eq_bind, Option.bind_eq_some_iff,
    Option.ite_none_right_eq_some, Option.some.injEq, List.all_eq_true] at h
  obtain ⟨o, ho, chain, hchain, hdone, rfl⟩ := h
  exact ⟨o, chain, ho, hchain, hdone, rfl⟩

theorem erase_spec (h : c.erase b i = some c') : ∃ r l, c.removals b = some r ∧
    ((∃ k, r.todo[i]? = some (l, some k) ∧
      c' = (c.putRemoval b { r with todo := r.todo.eraseIdx i }).layerDelete l k) ∨
    (r.todo[i]? = some (l, none) ∧
      c' = (c.putRemoval b { r with todo := r.todo.eraseIdx i }).layerClear l)) := by
  simp only [erase, Option.bind_eq_bind, Option.bind_eq_some_iff, Prod.exists] at h
  obtain ⟨r, hr, l, k, hi, h⟩ := h
  cases k with
  | some k => exact ⟨r, l, hr, .inl ⟨k, hi, by simpa using h.symm⟩⟩
  | none => exact ⟨r, l, hr, .inr ⟨hi, by simpa using h.symm⟩⟩

omit [DecidableEq K] in
theorem eraseFail_spec (h : c.eraseFail b i = some c') : ∃ r, c.removals b = some r ∧
    c' = c.putRemoval b { r with todo := r.todo.eraseIdx i } := by
  simp only [eraseFail, Option.bind_eq_bind, Option.bind_eq_some_iff, Option.some.injEq] at h
  obtain ⟨r, hr, _, _, rfl⟩ := h
  exact ⟨r, hr, rfl⟩

end Epochs

end Store

end LayerCache
