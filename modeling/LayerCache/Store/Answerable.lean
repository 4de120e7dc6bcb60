import LayerCache.Store.Changes

/-! # Writes that answer for their value

A value that was fetched comes into the layers through one write, and is then copied by
others. That write answers for it: until it has committed, it will look again at every
cell that holds the value, and no other write is placing it.
-/

namespace LayerCache

open TailChain

variable {K V : Type} {c c' : Store K V} {t u n m i w layers born l : ℕ} {k : K} {o : Order K V}
  {st st' : Strand K V} {reached reached' : List ℕ}

/-- A write of one key to every layer, with a cleanup of all of them. -/
structure Order.Sole (o : Order K V) (layers : ℕ) (k : K) (st : Strand K V) : Prop where
  keys : o.keys = [k]
  strands : o.strands = [st]
  put : ∀ l < layers, ∃ p ∈ st.puts, p.layer = l
  sweep : ∀ l < layers, l ∈ st.sweep
  active : ∀ active todo, st.phase = .writing active todo → active = [k]

theorem Order.Sole.committed_iff (h : o.Sole layers k st) :
    o.committed = true ↔ st.phase = .finished true := by
  cases hphase : st.phase with
  | finished ok => cases ok <;> simp [Order.committed, h.strands, hphase]
  | planned | writing | wiping => simp [Order.committed, h.strands, hphase]

theorem Order.Sole.of_getElem? (h : o.Sole layers k st) (hm : o.strands[m]? = some st') :
    st' = st ∧ ∀ st₁, (o.setStrand m st₁).strands = [st₁] := by
  rw [h.strands] at hm
  cases m with
  | zero =>
    cases hm
    exact ⟨rfl, fun st₁ => by simp [Order.setStrand, h.strands]⟩
  | succ m => simp at hm

/-- The layers that the strand's writes have reached are in `reached`, and the others are still to
come. -/
def Strand.Tracked (st : Strand K V) (layers : ℕ) (reached : List ℕ) : Prop :=
  ∀ l < layers,
    match st.phase with
    | .writing _ todo => l ∈ reached ∨ ∃ p ∈ todo, p.layer = l
    | .finished true => l ∈ reached
    | _ => True

def Strand.Refused (st : Strand K V) : Prop :=
  st.phase = .finished false ∨ ∃ todo, st.phase = .wiping todo

theorem Strand.Refused.tracked (h : st.Refused) : st.Tracked layers reached := by
  intro l _
  rcases h with hp | ⟨todo, hp⟩ <;> rw [hp] <;> trivial

namespace Store

def Committed (c : Store K V) (t : ℕ) : Prop := ∃ o ∈ c.orders t, o.committed = true

instance (c : Store K V) (t : ℕ) : Decidable (c.Committed t) := by
  unfold Committed
  infer_instance

def Places (c : Store K V) (t born : ℕ) : Prop :=
  ∃ o st active todo p, c.orders t = some o ∧ st ∈ o.strands ∧
    st.phase = .writing active todo ∧ p ∈ todo ∧ p.item.born = born

theorem places_of_landing {p : Put K V} (h : c.landing t m i = some (o, p)) :
    c.Places t p.item.born := by
  obtain ⟨st, st', ho, hst, hland⟩ := landing_spec h
  obtain ⟨active, todo, hphase, hp, -⟩ := Strand.land_spec hland
  exact ⟨o, st, active, todo, p, ho, List.mem_of_getElem? hst, hphase, List.mem_of_getElem? hp, rfl⟩

variable [DecidableEq K]

/-- Write `w` answers for the value born at step `born`. -/
structure Answers (c : Store K V) (layers w : ℕ) (k : K) (born : ℕ) (reached : List ℕ) : Prop where
  order : ∃ o st, c.orders w = some o ∧ o.Sole layers k st ∧ st.Tracked layers reached ∧
    (st.Refused → c.epochs.isWriteOutdated k (o.fence k) = true)
  held : ¬ c.Committed w → ∀ l < layers, ∀ cell, c.cells l k = some cell →
    cell.item.born = born → c.InHand w l k
  others : ∀ t, t ≠ w → c.Places t born → c.Committed w

theorem Answers.of_other (h : c.Answers layers w k born reached) (hw : c'.orders w = c.orders w)
    (hepochs : c'.epochs = c.epochs)
    (hplaces : ∀ t, t ≠ w → c'.Places t born → c.Places t born ∨ c.Committed w)
    (hcells : ∀ l < layers, ∀ cell, c'.cells l k = some cell → cell.item.born = born →
      c.cells l k = some cell ∨ c.InHand w l k ∨ c.Committed w) :
    c'.Answers layers w k born reached := by
  have hcommitted : c'.Committed w ↔ c.Committed w := by simp [Committed, hw]
  have hhand : ∀ l k, c'.InHand w l k ↔ c.InHand w l k := by simp [InHand, hw]
  refine ⟨by simpa [hw, hepochs] using h.order, ?_, ?_⟩
  · intro hnot l hl cell hcell hborn
    rw [hcommitted] at hnot
    rw [hhand]
    rcases hcells l hl cell hcell hborn with hold | hin | hc
    · exact h.held hnot l hl cell hold hborn
    · exact hin
    · exact absurd hc hnot
  · intro t ht hp
    rw [hcommitted]
    exact (hplaces t ht hp).elim (h.others t ht) id

omit [DecidableEq K] in
theorem places_setStrand (ho : c.orders u = some o) (hst : st ∈ o.strands)
    (hphase : ∀ active todo, st'.phase = .writing active todo →
      ∃ todo', st.phase = .writing active todo' ∧ ∀ p ∈ todo, p ∈ todo')
    (horders : c'.orders = Function.update c.orders u (some (o.setStrand m st')))
    (h : c'.Places t born) : c.Places t born := by
  obtain ⟨o', s, active, todo, p, ho', hs, hp, hmem, hborn⟩ := h
  rw [horders] at ho'
  by_cases ht : t = u
  · subst ht
    simp only [Function.update_self, Option.some.injEq] at ho'
    subst ho'
    rcases mem_setStrand hs with hs | rfl
    · exact ⟨o, s, active, todo, p, ho, hs, hp, hmem, hborn⟩
    · obtain ⟨todo', hp', hsub⟩ := hphase active todo hp
      exact ⟨o, st, active, todo', p, ho, hst, hp', hsub p hmem, hborn⟩
  · exact ⟨o', s, active, todo, p, by simpa [ht] using ho', hs, hp, hmem, hborn⟩

/-- The strand is going to look again at every cell that holds the value. -/
def HeldBy (c : Store K V) (layers : ℕ) (k : K) (born : ℕ) (st : Strand K V) : Prop :=
  ∀ l < layers, ∀ cell, c.cells l k = some cell → cell.item.born = born → st.Holds l k

theorem Answers.own (h : c.Answers layers w k born reached) (ho : c.orders w = some o)
    (hsole : o.Sole layers k st) (hbusy : st.phase ≠ .finished true) {o' : Order K V}
    (horders : c'.orders = Function.update c.orders w (some o')) (hkeys : o'.keys = o.keys)
    (hfence : o'.fence = o.fence) (hstrands : o'.strands = [st']) (hepochs : c'.epochs = c.epochs)
    (hputs : st'.puts = st.puts) (hsweep : st'.sweep = st.sweep)
    (hactive : ∀ active todo, st'.phase = .writing active todo → active = [k])
    (htracked : st'.Tracked layers reached')
    (hrefused : st'.Refused → c.epochs.isWriteOutdated k (o.fence k) = true)
    (hheld : c.HeldBy layers k born st → st'.phase ≠ .finished true →
      c'.HeldBy layers k born st') : c'.Answers layers w k born reached' := by
  have hw : c'.orders w = some o' := by simp [horders]
  have hnot : ¬ c.Committed w := by
    rintro ⟨o₁, ho₁, hc⟩
    rw [Option.mem_def, ho] at ho₁
    cases ho₁
    exact hbusy (hsole.committed_iff.mp hc)
  have hsole' : o'.Sole layers k st' :=
    ⟨hkeys.trans hsole.keys, hstrands, hputs ▸ hsole.put, hsweep ▸ hsole.sweep, hactive⟩
  refine ⟨⟨o', st', hw, hsole', htracked, ?_⟩, ?_, ?_⟩
  · rw [hepochs, hfence]
    exact hrefused
  · intro hnot' l hl cell hcell hborn
    have hold : c.HeldBy layers k born st := by
      intro l hl cell hcell hborn
      obtain ⟨o₁, s, ho₁, hs, hh⟩ := h.held hnot l hl cell hcell hborn
      rw [ho] at ho₁
      cases ho₁
      rw [hsole.strands, List.mem_singleton] at hs
      exact hs ▸ hh
    refine ⟨o', st', hw, by rw [hstrands]; exact List.mem_singleton_self st', ?_⟩
    refine hheld hold (fun hp => hnot' ⟨o', hw, ?_⟩) l hl cell hcell hborn
    exact hsole'.committed_iff.mpr hp
  · intro t ht hp
    refine absurd (h.others t ht ?_) hnot
    obtain ⟨o₁, s, active, todo, p, ho₁, hs, hphase, hmem, hb⟩ := hp
    rw [horders, Function.update_of_ne ht] at ho₁
    exact ⟨o₁, s, active, todo, p, ho₁, hs, hphase, hmem, hb⟩

theorem Answers.start (h : c.Answers layers w k born reached) {skipped : ℕ → Bool}
    (hskipped : ∀ l, skipped l = false) (hs : c.start skipped u = some c')
    (hwf : c.Wf n) (hother : u ≠ w → ∀ o ∈ c.orders u, ∀ p, o.Writes p → p.item.born = born →
      c.epochs.isWriteOutdated p.key (o.fence p.key) = false → c.Committed w) :
    c'.Answers layers w k born reached := by
  obtain ⟨chain, o, hchain, ho, rfl⟩ := start_spec hs
  set active := o.keys.filter fun k => !c.epochs.isWriteOutdated k (o.fence k) with hactive
  set skip : ℕ → Bool := if o.kind = .set then skipped else fun _ => false with hskip
  have hnone : ∀ l, skip l = false := by
    intro l
    rw [hskip]
    split
    · exact hskipped l
    · rfl
  by_cases hu : u = w
  · subst hu
    obtain ⟨o₁, st, ho₁, hsole, -, -⟩ := h.order
    rw [ho] at ho₁
    cases ho₁
    obtain ⟨tk, htk, hqueued, -⟩ := Chain.start_spec hchain
    have hplanned : st.phase = .planned := by
      obtain ⟨tk', hticketed⟩ := hwf.ticket u o ho
      obtain rfl := Option.some.inj (htk.symm.trans hticketed.get)
      exact (hticketed.planned st (by simp [hsole.strands])).mpr hqueued
    have hnil : active = [] ∨ active = [k] := by
      rw [hactive, hsole.keys]
      cases hout : c.epochs.isWriteOutdated k (o.fence k) <;> simp [hout]
    have hstrands : (o.strands.map fun st => st.start active skip) = [st.start active skip] := by
      simp [hsole.strands]
    refine h.own ho hsole (by simp [hplanned]) rfl rfl rfl hstrands rfl rfl rfl ?_ ?_ ?_ ?_
    · intro a todo hp
      rcases start_phase st active skip with he | he <;> rw [he] at hp <;> cases hp
      rcases hnil with hn | hn
      · simp [Strand.start, hn] at he
      · exact hn
    · intro l hl
      rcases start_phase st active skip with he | he <;> rw [he]
      · trivial
      · rcases hnil with hn | hn
        · simp [Strand.start, hn] at he
        · obtain ⟨p, hp, hlayer⟩ := hsole.put l hl
          have hkey := (hwf.strand u o ho st (by simp [hsole.strands])).put_key p hp
          rw [hsole.keys, List.mem_singleton] at hkey
          exact .inr ⟨p, List.mem_filter.mpr ⟨hp, by simp [hn, hkey, hnone]⟩, hlayer⟩
    · intro hp
      rcases start_phase st active skip with he | he
      · by_contra hout
        have hk : active = [k] := by
          have hin : (!c.epochs.isWriteOutdated k (o.fence k)) = true := by simpa using hout
          rw [hactive, hsole.keys, List.filter_singleton, hin]
          rfl
        simp [Strand.start, hk] at he
      · simp [Strand.Refused, he] at hp
    · intro hold _ l hl cell hcell hborn
      rcases hold l hl cell hcell hborn with ⟨a, td, hp, -⟩ | ⟨td, hp, -⟩ <;> simp [hplanned] at hp
  · refine h.of_other (by simp [Ne.symm hu]) rfl ?_ fun l _ cell hcell _ => .inl hcell
    rintro t ht ⟨o', s, a, todo, p, ho', hs', hphase, hp, hborn⟩
    by_cases htu : t = u
    · subst htu
      simp only [Function.update_self, Option.some.injEq] at ho'
      subst ho'
      obtain ⟨st, hst, rfl⟩ := List.mem_map.mp hs'
      rcases start_phase st active skip with he | he <;> rw [he] at hphase <;> cases hphase
      obtain ⟨hput, hmem⟩ := List.mem_filter.mp hp
      simp only [Bool.and_eq_true, decide_eq_true_eq] at hmem
      have hact : p.key ∈ active := hmem.1
      refine .inr (hother hu o ho p ⟨st, hst, hput⟩ hborn ?_)
      simpa using (List.mem_filter.mp hact).2
    · exact .inl ⟨o', s, a, todo, p, by simpa [htu] using ho', hs', hphase, hp, hborn⟩

theorem Answers.land (h : c.Answers layers w k born reached) (hs : c.land u m i = some c')
    (hreached : ∀ o p, u = w → c.landing u m i = some (o, p) →
      reached' = p.layer :: reached) (hsame : u ≠ w → reached' = reached) :
    c'.Answers layers w k born reached' := by
  obtain ⟨o, st, p, st', ho, hst, hland, rfl⟩ := land_spec hs
  obtain ⟨active, todo, hphase, hget, hst'⟩ := Strand.land_spec hland
  have hlanding : c.landing u m i = some (o, p) := by simp [landing, ho, hst, hland]
  by_cases hu : u = w
  · subst hu
    obtain ⟨o₁, st₁, ho₁, hsole, htracked, -⟩ := h.order
    rw [ho] at ho₁
    cases ho₁
    obtain ⟨rfl, hset⟩ := hsole.of_getElem? hst
    obtain rfl := hreached o p rfl hlanding
    obtain ⟨-, hholds, -, hputs, hsweep⟩ := busy_of_land hland
    have hact := hsole.active active todo hphase
    refine h.own ho hsole (by simp [hphase]) rfl rfl rfl (hset st') rfl hputs hsweep ?_ ?_ ?_ ?_
    · intro a td hp
      rw [hst'] at hp
      cases hp
      exact hact
    · intro l hl
      rw [hst']
      have ht := htracked l hl
      simp only [hphase] at ht
      rcases ht with ht | ⟨q, hq, hlayer⟩
      · exact .inl (List.mem_cons_of_mem _ ht)
      · rcases mem_eraseIdx_or_eq hq hget with hq | rfl
        · exact .inr ⟨q, hq, hlayer⟩
        · exact .inl (hlayer ▸ List.mem_cons_self)
    · intro hp
      simp [Strand.Refused, hst'] at hp
    · intro hold _ l hl cell hcell hborn
      refine hholds l k (.inl ⟨active, todo, hphase, by simp [hact], hsole.sweep l hl⟩)
  · obtain rfl := hsame hu
    refine h.of_other (by simp [layerSet, setCell, putOrder, Ne.symm hu]) rfl ?_ ?_
    · intro t ht hp
      have horders : (c.putOrder u (o.setStrand m st')).orders =
        Function.update c.orders u (some (o.setStrand m st')) := rfl
      refine .inl (places_setStrand ho (List.mem_of_getElem? hst) ?_ horders hp)
      intro a td he
      rw [hst'] at he
      cases he
      exact ⟨todo, hphase, fun q hq => List.mem_of_mem_eraseIdx hq⟩
    · intro l hl cell hcell hborn
      rcases land_cells hs hcell with hold | ⟨o₁, q, hl₁, -, -, hitem, -⟩
      · exact .inl hold
      · rw [hlanding] at hl₁
        cases hl₁
        refine .inr (.inr (h.others u hu ?_))
        have hplaces := places_of_landing hlanding
        rwa [← hitem, hborn] at hplaces

theorem Answers.check (h : c.Answers layers w k born reached) (hs : c.check u m = some c') :
    c'.Answers layers w k born reached := by
  obtain ⟨o, st, st', ho, hst, hcheck, rfl⟩ := check_spec hs
  obtain ⟨active, hphase, hputs, hsweep, hcases⟩ := Strand.check_spec hcheck
  have hnot : ∀ a td, st'.phase ≠ .writing a td := by
    intro a td he
    rcases hcases with ⟨ok, hok, -⟩ | ⟨-, hw⟩
    · simp [hok] at he
    · simp [hw] at he
  by_cases hu : u = w
  · subst hu
    obtain ⟨o₁, st₁, ho₁, hsole, htracked, -⟩ := h.order
    rw [ho] at ho₁
    cases ho₁
    obtain ⟨rfl, hset⟩ := hsole.of_getElem? hst
    obtain rfl := hsole.active active [] hphase
    refine h.own ho hsole (by simp [hphase]) rfl rfl rfl (hset st') rfl hputs hsweep
      (fun a td he => absurd he (hnot a td)) ?_ ?_ ?_
    · intro l hl
      have ht := htracked l hl
      simp only [hphase, List.not_mem_nil, false_and, exists_false, or_false] at ht
      cases hp : st'.phase with
      | finished ok => cases ok <;> simp [ht]
      | planned | wiping => trivial
      | writing a td => exact absurd hp (hnot a td)
    · intro hp
      rcases hcases with ⟨ok, hok, hiff, -⟩ | ⟨⟨k', hk', hout⟩, -⟩
      · obtain rfl : ok = false := by simpa [Strand.Refused, hok] using hp
        simpa using hiff
      · exact List.mem_singleton.mp hk' ▸ hout
    · intro hold hp l hl cell hcell hborn
      obtain ⟨-, hholds⟩ := busy_of_check hcheck
      refine (hholds l k (hold l hl cell hcell hborn)).resolve_right fun hfresh => ?_
      rcases hcases with ⟨ok, hok, hiff, -⟩ | ⟨⟨k', hk', hout⟩, -⟩
      · obtain rfl : ok = true := hiff.mpr (by simpa using hfresh)
        exact hp hok
      · obtain rfl := List.mem_singleton.mp hk'
        simp [hfresh] at hout
  · refine h.of_other (by simp [putOrder, Ne.symm hu]) rfl ?_ fun l _ cell hcell _ => .inl hcell
    intro t ht hp
    exact .inl (places_setStrand ho (List.mem_of_getElem? hst)
      (fun a td he => absurd he (hnot a td)) rfl hp)

theorem Answers.wipe (h : c.Answers layers w k born reached) (hs : c.wipe u m i = some c') :
    c'.Answers layers w k born reached := by
  obtain ⟨o, st, l₀, k₀, st', ho, hst, hwipe, rfl⟩ := wipe_spec hs
  obtain ⟨todo, hphase, hget, hst'⟩ := Strand.wipe_spec hwipe
  have hnot : ∀ a td, st'.phase ≠ .writing a td := by
    intro a td he
    rw [hst'] at he
    simp only at he
    split at he <;> cases he
  have hcells : ∀ l k cell,
      ((c.putOrder u (o.setStrand m st')).layerDelete l₀ k₀).cells l k = some cell →
      (l, k) ≠ (l₀, k₀) ∧ c.cells l k = some cell := by
    intro l k cell hc
    rw [layerDelete, cells_setCell] at hc
    split at hc
    · cases hc
    · rename_i hne
      exact ⟨fun he => hne (by simpa using he), hc⟩
  by_cases hu : u = w
  · subst hu
    obtain ⟨o₁, st₁, ho₁, hsole, -, hrefused⟩ := h.order
    rw [ho] at ho₁
    cases ho₁
    obtain ⟨rfl, hset⟩ := hsole.of_getElem? hst
    refine h.own ho hsole (by simp [hphase]) rfl rfl rfl (hset st') rfl (by rw [hst'])
      (by rw [hst']) (fun a td he => absurd he (hnot a td)) ?_ ?_ ?_
    · apply Strand.Refused.tracked
      rw [Strand.Refused, hst']
      split <;> simp
    · exact fun _ => hrefused (.inr ⟨todo, hphase⟩)
    · intro hold _ l hl cell hcell hborn
      obtain ⟨hne, hcell⟩ := hcells l k cell hcell
      obtain ⟨-, hholds⟩ := busy_of_wipe hwipe
      exact (hholds l k (hold l hl cell hcell hborn)).resolve_right hne
  · refine h.of_other (by simp [layerDelete, setCell, putOrder, Ne.symm hu]) rfl ?_
      fun l _ cell hcell _ => .inl (hcells l k cell hcell).2
    intro t ht hp
    have horders : (c.putOrder u (o.setStrand m st')).orders =
      Function.update c.orders u (some (o.setStrand m st')) := rfl
    exact .inl (places_setStrand ho (List.mem_of_getElem? hst)
      (fun a td he => absurd he (hnot a td))
      horders hp)

theorem Answers.enlist (h : c.Answers layers w k born reached) (hlt : w < n)
    (hplanned : ∀ st ∈ o.strands, st.phase = .planned) :
    (c.enlist n o).Answers layers w k born reached := by
  refine h.of_other (by simp [Store.enlist, hlt.ne]) rfl ?_ fun l _ cell hcell _ => .inl hcell
  rintro t ht ⟨o', st, active, todo, p, ho', hst, hphase, hp, hborn⟩
  by_cases htn : t = n
  · subst htn
    simp only [Store.enlist, Function.update_self, Option.some.injEq] at ho'
    subst ho'
    simp [hplanned st hst] at hphase
  · exact .inl ⟨o', st, active, todo, p, by simpa [Store.enlist, htn] using ho', hst, hphase, hp,
      hborn⟩

theorem Answers.bump (h : c.Answers layers w k born reached) (hwf : c.Wf n) (target : Target K)
    (removed : List ℕ) : (c.bump n target removed).Answers layers w k born reached := by
  obtain ⟨o, st, ho, hsole, htracked, hrefused⟩ := h.order
  refine ⟨⟨o, st, ho, hsole, htracked, fun hr => ?_⟩, h.held, h.others⟩
  exact (hwf.knows w o ho k (by simp [hsole.keys])).outdated_bump hwf.epochs (hrefused hr) target
    removed

theorem Answers.settled (h : c.Answers layers w k born reached) (hwf : c.Wf n)
    (hs : c.chain.settledAt w = true) : c.Committed w ∨
      ∃ o ∈ c.orders w, c.epochs.isWriteOutdated k (o.fence k) = true := by
  obtain ⟨o, st, ho, hsole, -, hrefused⟩ := h.order
  obtain ⟨tk, htk⟩ := hwf.ticket w o ho
  have hdone := htk.done (by simpa [Chain.settledAt, htk.get] using hs) st (by simp [hsole.strands])
  cases hphase : st.phase with
  | finished ok =>
    cases ok with
    | true => exact .inl ⟨o, ho, hsole.committed_iff.mpr hphase⟩
    | false => exact .inr ⟨o, ho, hrefused (.inl hphase)⟩
  | planned | writing | wiping => simp [Strand.done, hphase] at hdone

/-- A started write that has let go of a cell without committing has found its fence outdated. -/
theorem Answers.refused (h : c.Answers layers w k born reached) (hwf : c.Wf n)
    (hstarted : Started c.chain w) (hl : l < layers) (hnot : ¬ c.Committed w)
    (hhand : ¬ c.InHand w l k) :
    ∃ o ∈ c.orders w, c.epochs.isWriteOutdated k (o.fence k) = true := by
  obtain ⟨o, st, ho, hsole, -, hrefused⟩ := h.order
  have hmem : st ∈ o.strands := by simp [hsole.strands]
  refine ⟨o, ho, hrefused ?_⟩
  cases hphase : st.phase with
  | planned =>
    obtain ⟨tk, htk⟩ := hwf.ticket w o ho
    obtain ⟨tk', hget, hne⟩ := hstarted
    obtain rfl := Option.some.inj (hget.symm.trans htk.get)
    exact absurd ((htk.planned st hmem).mp hphase) hne
  | writing active todo =>
    have hact := hsole.active active todo hphase
    exact absurd ⟨o, st, ho, hmem, .inl ⟨active, todo, hphase, by simp [hact], hsole.sweep l hl⟩⟩
      hhand
  | wiping todo => exact .inr ⟨todo, hphase⟩
  | finished ok =>
    cases ok with
    | true => exact absurd ⟨o, ho, hsole.committed_iff.mpr hphase⟩ hnot
    | false => exact .inl hphase

/-- The write commits only while its fence is current. -/
theorem Answers.committed_of_step (h : c.Answers layers w k born reached) (hwf : c.Wf n)
    (hstep : c.Step False n c') (hc : c'.Committed w) : c.Committed w ∨
      ∃ o ∈ c.orders w, c.epochs.isWriteOutdated k (o.fence k) = false := by
  obtain ⟨o, st, ho, hsole, -, -⟩ := h.order
  have hsame : ∀ {c' : Store K V}, c'.orders w = c.orders w → c'.Committed w → c.Committed w := by
    intro c' he hc
    simpa [Committed, he] using hc
  have hset : ∀ {c' : Store K V} {m : ℕ} {st₀ : Strand K V} (st' : Strand K V),
      o.strands[m]? = some st₀ → c'.orders w = some (o.setStrand m st') →
        st'.phase ≠ .finished true → ¬ c'.Committed w := by
    rintro c' m st₀ st' hm hw hne ⟨o', ho', hc⟩
    rw [Option.mem_def, hw] at ho'
    cases ho'
    have hall := List.all_eq_true.mp hc st' (by simp [(hsole.of_getElem? hm).2])
    cases hphase : st'.phase with
    | finished ok =>
      cases ok with
      | true => exact hne hphase
      | false => simp [hphase] at hall
    | planned | writing | wiping => simp [hphase] at hall
  cases hstep with
  | idle | tick | purge | rewrite | bump => exact .inl (hsame rfl hc)
  | landFail hf | wipeFail hf | eraseFail hf => exact hf.elim
  | enlist q => exact .inl (hsame (by simp [Store.enlist, (hwf.lt_of_order ho).ne]) hc)
  | settle u hs =>
    obtain ⟨q, chain, -, -, -, rfl⟩ := settle_spec hs
    exact .inl (hsame rfl hc)
  | erase b i hs =>
    obtain ⟨r, l, -, ⟨k, -, rfl⟩ | ⟨-, rfl⟩⟩ := erase_spec hs <;> exact .inl (hsame rfl hc)
  | start skipped u hs =>
    obtain ⟨chain, q, -, hq, rfl⟩ := start_spec hs
    by_cases hu : u = w
    · subst hu
      rw [ho] at hq
      cases hq
      obtain ⟨o', ho', hc⟩ := hc
      simp only [Function.update_self, Option.mem_def, Option.some.injEq] at ho'
      subst ho'
      rw [Order.committed, hsole.strands] at hc
      simp only [List.map_cons, List.map_nil, List.all_cons, List.all_nil, Bool.and_true] at hc
      rcases start_phase st (o.keys.filter fun k => !c.epochs.isWriteOutdated k (o.fence k))
        (if o.kind = .set then skipped else fun _ => false) with he | he <;> simp [he] at hc
    · exact .inl (hsame (by simp [Ne.symm hu]) hc)
  | land u m i hs =>
    obtain ⟨q, st₀, p, st', hq, hst, hland, rfl⟩ := land_spec hs
    by_cases hu : u = w
    · subst hu
      rw [ho] at hq
      cases hq
      obtain ⟨active, todo, -, -, hst'⟩ := Strand.land_spec hland
      exact absurd hc (hset st' hst (by simp [layerSet, setCell, putOrder]) (by simp [hst']))
    · exact .inl (hsame (by simp [layerSet, setCell, putOrder, Ne.symm hu]) hc)
  | check u m hs =>
    obtain ⟨q, st₀, st', hq, hst, hcheck, rfl⟩ := check_spec hs
    by_cases hu : u = w
    · subst hu
      rw [ho] at hq
      cases hq
      obtain ⟨rfl, -⟩ := hsole.of_getElem? hst
      obtain ⟨active, hphase, -, -, hcases⟩ := Strand.check_spec hcheck
      obtain rfl := hsole.active active [] hphase
      rcases hcases with ⟨ok, hok, hiff, -⟩ | ⟨-, hw⟩
      · cases ok with
        | true => exact .inr ⟨o, ho, hiff.mp rfl k (List.mem_singleton_self k)⟩
        | false => exact absurd hc (hset st' hst (by simp [putOrder]) (by simp [hok]))
      · exact absurd hc (hset st' hst (by simp [putOrder]) (by simp [hw]))
    · exact .inl (hsame (by simp [putOrder, Ne.symm hu]) hc)
  | wipe u m i hs =>
    obtain ⟨q, st₀, l, k', st', hq, hst, hwipe, rfl⟩ := wipe_spec hs
    by_cases hu : u = w
    · subst hu
      rw [ho] at hq
      cases hq
      obtain ⟨todo, -, -, hst'⟩ := Strand.wipe_spec hwipe
      refine absurd hc (hset st' hst (by simp [layerDelete, setCell, putOrder]) ?_)
      rw [hst']
      dsimp only
      split <;> simp
    · exact .inl (hsame (by simp [layerDelete, setCell, putOrder, Ne.symm hu]) hc)

end Store

end LayerCache
