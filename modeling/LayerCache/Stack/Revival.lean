import LayerCache.Stack.InvalidationFence
import LayerCache.Stack.Origins

/-! # Revivals

An entry from before a deletion comes back when it is written to a layer that the
deletion has already gone through, by a write whose fence is newer than the deletion or
that has none. Without such a step, what is left of the old entries stems from writes
that the deletion has fenced out. `of` says which entries are followed, by the step their
value stems from.
-/

namespace LayerCache

open Store Transition

variable {K V T : Type} [DecidableEq K] {cfg : Config} {s s' : Stack K V T} {d b l : ℕ}
  {inv : Invalidation K} {k : K} {of : ℕ → Prop}

instance (k : K) : DecidablePred (Target.Covers k) := fun target => by
  unfold Target.Covers
  split <;> infer_instance

instance (r : Removal K) (l : ℕ) (k : K) : Decidable (r.Covers l k) := by
  unfold Removal.Covers
  infer_instance

instance (r : Removal K) (l : ℕ) (k : K) : Decidable (r.Pending l k) := by
  unfold Removal.Pending
  infer_instance

instance (c : Store K V) (b l : ℕ) (k : K) : Decidable (c.Reached b l k) := by
  unfold Store.Reached
  infer_instance

namespace Stack

/-- Writing the item would bring back an entry from before a deletion of the key: the deletion
has gone through the layer, and the write has a fence from after it or none at all. -/
def Revives (s : Stack K V T) (item : Item V) (captured : Option ℕ) (l : ℕ) (k : K) : Prop :=
  ∃ d < s.clock, ∃ inv ∈ s.invalidations d, ∃ b ∈ inv.bumped, inv.localOnly = false ∧
    s.store.Reached b l k ∧ item.born < d ∧ ∀ c ∈ captured, b ≤ c

instance (s : Stack K V T) (item : Item V) (captured : Option ℕ) (l : ℕ) (k : K) :
    Decidable (s.Revives item captured l k) := by
  unfold Revives
  infer_instance

/-- A write through the chain that brings an entry back. -/
def LandRevives (of : ℕ → Prop) (s : Stack K V T) : Action K V T → Prop
  | .store (.land t m i) => ∃ x ∈ s.store.landing t m i,
      of x.2.item.born ∧ s.Revives x.2.item (some x.1.captured) x.2.layer x.2.key
  | _ => False

def SlideRevives (of : ℕ → Prop) (s : Stack K V T) : Action K V T → Prop
  | .get (.slide g) => ∃ get ∈ s.gets g,
      match get.phase with
      | .sliding _ (l :: _) stored _ _ => of stored.born ∧ s.Revives stored none l get.key
      | _ => False
  | _ => False

instance [DecidablePred of] (s : Stack K V T) : DecidablePred (s.LandRevives of) := fun a => by
  induction a using Action.casesOn with
  | store a => induction a using StoreAction.casesOn <;> (unfold LandRevives; infer_instance)
  | _ => exact isFalse id

instance [DecidablePred of] (s : Stack K V T) : DecidablePred (s.SlideRevives of) := fun a => by
  induction a using Action.casesOn with
  | get a =>
    induction a using GetAction.casesOn with
    | slide g =>
      refine @Option.decidableExistsMem _ _ (fun get => ?_) _
      generalize get.phase = phase
      induction phase using GetPhase.casesOn with
      | sliding _ todo => induction todo using List.casesOn <;> infer_instance
      | _ => infer_instance
    | _ => exact isFalse id
  | _ => exact isFalse id

/-- Whatever is left of the entries from before a deletion, in the layers it has gone through,
stems from writes that it has fenced out. -/
def Emptied (of : ℕ → Prop) (s : Stack K V T) : Prop :=
  ∀ d inv b, s.invalidations d = some inv → inv.bumped = some b → inv.localOnly = false →
    s.store.Emptied b fun item => of item.born ∧ item.born < d

theorem Proceeds.bumped_cases (h : s.Proceeds cfg s') (hd : s'.invalidations d = some inv)
    (hb : inv.bumped = some b) : b = s.clock ∨ ∃ inv₀, s.invalidations d = some inv₀ ∧
      inv₀.bumped = some b ∧ inv₀.localOnly = inv.localOnly ∧ inv₀.target = inv.target := by
  cases h with
  | same he => exact .inr ⟨inv, he ▸ hd, hb, rfl, rfl⟩
  | call inv' hphase hbumped he =>
    rcases update_eq_some (he ▸ hd) with ⟨rfl, rfl⟩ | ⟨-, hd⟩
    · simp [hbumped] at hb
    · exact .inr ⟨inv, hd, hb, rfl, rfl⟩
  | bump d' inv' hd' hphase hstore he =>
    rcases update_eq_some (he ▸ hd) with ⟨rfl, rfl⟩ | ⟨-, hd⟩
    · cases hb
      exact .inl rfl
    · exact .inr ⟨inv, hd, hb, rfl, rfl⟩
  | go d' inv' phase hd' hcalled hthrough hremoving hresolved hstore he =>
    rcases update_eq_some (he ▸ hd) with ⟨rfl, rfl⟩ | ⟨-, hd⟩
    · exact .inr ⟨inv', hd', hb, rfl, rfl⟩
    · exact .inr ⟨inv, hd, hb, rfl, rfl⟩

theorem Emptied.act [DecidableEq T] (h : s.Emptied of) (hintact : s.Intact cfg) {a : Action K V T}
    (hok : s.Healthy a) (hland : ¬ s.LandRevives of a) (hslide : ¬ s.SlideRevives of a)
    (hs : s.act cfg a = some s') : s'.Emptied of := by
  have hwf := hintact.sound.wf
  have hstep : s.store.Step False s.clock s'.store := hintact.store_act hok hs
  intro d inv b hd hb hlocal
  rcases (proceeds_act hs).bumped_cases hd hb with rfl | ⟨inv₀, hd₀, hb₀, hlocal₀, -⟩
  · refine Store.Emptied.step ?_ hwf hstep ?_
    · rintro l k cell ⟨r, hr, -⟩
      exact absurd (hwf.removals_lt _ r hr) (lt_irrefl _)
    · rintro l k cell ⟨r, hr, -⟩
      exact absurd (hwf.removals_lt _ r hr) (lt_irrefl _)
  · refine Store.Emptied.step (h d inv₀ b hd₀ hb₀ (hlocal₀.trans hlocal)) hwf hstep ?_
    rintro l k cell hreached hcell ⟨hof, hold⟩
    have hlt := (hintact.invalidated d inv₀ hd₀).1
    rcases cells_act hs hcell with hc | ⟨t, m, i, o, p, rfl, hlanding, rfl, rfl, hitem, ht⟩ |
      ⟨g, get, answer, rest, stored, ttl, ahead, rfl, hg, hphase, rfl, hitem⟩
    · exact .inl hc
    · right
      refine ⟨t, o, ht, (hwf.landing hlanding).1, ?_⟩
      by_contra hge
      refine hland ⟨(o, p), hlanding, hitem ▸ hof, d, hlt, inv₀, hd₀, b, hb₀, hlocal₀.trans hlocal,
        hreached,
        hitem ▸ hold, ?_⟩
      rintro c ⟨⟩
      exact not_lt.mp hge
    · refine (hslide ⟨get, hg, ?_⟩).elim
      rw [hphase]
      exact ⟨hitem ▸ hof, d, hlt, inv₀, hd₀, b, hb₀, hlocal₀.trans hlocal, hreached, hitem ▸ hold,
        by simp⟩

theorem Emptied.step [DecidableEq T] (h : s.Emptied of) (hintact : s.Intact cfg)
    {a : Action K V T} (hok : s.Healthy a) (hland : ¬ s.LandRevives of a)
    (hslide : ¬ s.SlideRevives of a) (hs : s.step cfg a = some s') : s'.Emptied of := by
  obtain ⟨s₁, hact, rfl⟩ := step_spec hs
  have hemptied := h.act hintact hok hland hslide hact
  exact hemptied

omit [DecidableEq K] in
theorem emptied_initial (now : Millis) (contents : ℕ → K → Option (Stored V × Option Millis)) :
    (initial now contents : Stack K V T).Emptied of := by
  rintro d inv b ⟨⟩

theorem Emptied.unsettled (h : s.Emptied of) (hintact : s.Intact cfg) {p : ℕ}
    (hd : s.invalidations d = some inv) (hlocal : inv.localOnly = false)
    (hphase : inv.phase = .resolved p) (hk : inv.target.Covers k) (hl : l < cfg.layers)
    {cell : Cell V} (hcell : s.store.cells l k = some cell) (hof : of cell.item.born)
    (hlt : cell.item.born < d) : ∃ t o b, cell.writer = some t ∧ s.store.orders t = some o ∧
      inv.bumped = some b ∧ o.captured < b ∧ s.store.chain.settledAt t = false := by
  obtain ⟨-, ⟨hcalled, -⟩ | ⟨b, r, hbumped⟩⟩ := hintact.invalidated d inv hd
  · simp [hphase] at hcalled
  have hlr := hbumped.layers l hl (by simp [hlocal])
  have hpending := hbumped.not_pending (l := l) (k := k) hphase
  obtain ⟨t, o, ht, ho, hcap⟩ := h d inv b hd hbumped.bumped hlocal l k cell
    ⟨r, hbumped.removal, ⟨hlr, hbumped.target ▸ hk⟩, hpending⟩ hcell ⟨hof, hlt⟩
  refine ⟨t, o, b, ht, ho, hbumped.bumped, hcap, ?_⟩
  by_contra hsettled
  obtain ⟨o', ho', hge⟩ := hintact.captured_ge hbumped hk hlr hpending hcell ht
    (by simpa using hsettled)
  rw [ho] at ho'
  cases ho'
  omega

/-- Once a deletion is over and the writes it fenced out are through, nothing from before it is
left. -/
theorem Emptied.born_ge (h : s.Emptied of) (hintact : s.Intact cfg) {p : ℕ}
    (hd : s.invalidations d = some inv) (hlocal : inv.localOnly = false)
    (hphase : inv.phase = .resolved p) (hk : inv.target.Covers k)
    (hsettled : ∀ b ∈ inv.bumped, s.SettledBefore b) (hl : l < cfg.layers) {cell : Cell V}
    (hcell : s.store.cells l k = some cell) (hof : of cell.item.born) : d ≤ cell.item.born := by
  by_contra hlt
  obtain ⟨t, o, b, -, ho, hb, hcap, hopen⟩ :=
    h.unsettled hintact hd hlocal hphase hk hl hcell hof (not_le.mp hlt)
  simp [hsettled b hb t o ho hcap] at hopen

end Stack

end LayerCache
