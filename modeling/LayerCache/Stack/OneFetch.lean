import LayerCache.Stack.LastWrite
import LayerCache.Stack.Stampede

/-! # One fetch for all callers

The guard runs one task of the key at a time, and a task looks at the layers again before
it fetches. Once a fetch has yielded its value, the task stores it before it lets go of
the key, and from then on the last layer has a copy: no later look can miss.
-/

namespace LayerCache

open Store Transition

variable {K V T : Type} {cfg : Config} {key : K} {until' now : Millis}

namespace StampedeStack

/-- The last layer holds a copy that it keeps until after the run. -/
def Kept (cfg : Config) (key : K) (until' : Millis) (s : StampedeStack K V T) : Prop :=
  ∃ l cell, l + 1 = cfg.layers ∧ s.stack.store.cells l key = some cell ∧
    s.IsCopy cfg until' l cell.item.stored ∧ ∀ e ∈ cell.expiresAt, until' < e

/-- Order `w` brings the value to the last layer, and its writer does not go on before. -/
structure Brings (cfg : Config) (key : K) (until' : Millis) (s : StampedeStack K V T) (w : ℕ) :
    Prop where
  order : ∃ o, s.stack.store.orders w = some o ∧ key ∈ o.keys ∧ ∀ l, l + 1 = cfg.layers →
    (∃ p, o.Writes p ∧ p.layer = l ∧ p.key = key) ∧ (o.Landed l key → s.Kept cfg key until')
  writer : ∀ writer, s.stack.writers w = some writer → writer.phase ≠ .storing →
    s.Kept cfg key until'

def Finds (cfg : Config) (reader : Reader K V) : Prop :=
  match reader.phase with
  | .loaded none => reader.index + 1 < cfg.layers
  | .missed | .done none => False
  | _ => True

/-- How the key's task, its fetch and its value hang together. -/
structure Once (cfg : Config) (key : K) (until' : Millis) (s : StampedeStack K V T) : Prop where
  length : s.fetches.length ≤ 1
  idle : ∀ i task, s.stack.tasks i = some task → task.key = key → task.phase = .idle true →
    s.fetches = []
  fetching : s.FetchesOnce key
  unfetched : s.fetches = [] → s.yielded = none
  unyielded : s.yielded = none → s.fetches = [] ∨ ∃ i task born, s.stack.tasks i = some task ∧
    task.key = key ∧ task.phase = .fetching born
  yielded : s.yielded.isSome → s.Kept cfg key until' ∨ ∃ i task w answer,
    s.stack.tasks i = some task ∧ task.key = key ∧ task.phase = .storing w answer
  storing : ∀ i task w answer, s.stack.tasks i = some task → task.key = key →
    task.phase = .storing w answer → s.Brings cfg key until' w
  finds : s.yielded.isSome → ∀ i task r reader, s.stack.tasks i = some task → task.key = key →
    task.phase = .rechecking r → s.stack.readers r = some reader → Finds cfg reader

variable [DecidableEq K] {s s' : StampedeStack K V T} {a : Action K V T} {l w i : ℕ}
  {task : Task K V} {o : Order K V}

omit [DecidableEq K] in
/-- A write that reaches the last layer leaves a copy that is kept. -/
theorem kept_of_delivers (writer : Option ℕ) (hlater : s.Later s') {p : Put K V}
    (hp : s.Delivers cfg until' p.layer p.item.stored p.ttl) (hlast : p.layer + 1 = cfg.layers)
    (hcell : s'.stack.store.cells p.layer key = some ⟨p.item,
      (p.ttl.filter fun ttl => 0 < ttl).map fun ttl => s.stack.store.now + ttl, writer⟩) :
    s'.Kept cfg key until' := by
  refine ⟨p.layer, _, hlast, hcell, hp.copy.later hlater, fun e he => ?_⟩
  simp only [Option.mem_def, Option.map_eq_some_iff, Option.filter_eq_some_iff,
    decide_eq_true_eq] at he
  obtain ⟨x, ⟨hx, hpos⟩, rfl⟩ := he
  exact hp.lasts (by omega) x hx hpos

variable [DecidableEq T]

theorem Kept.act (h : s.Kept cfg key until') (hcopies : s.Copies cfg key until')
    (hcalm : s.stack.Calm) (hwf : s.stack.store.Wf s.stack.clock) (hok : s.stack.Keeping a)
    (hgoes : s.Goes cfg key a s') : s'.Kept cfg key until' := by
  obtain ⟨l, cell, hl, hcell, hcopy, hexpires⟩ := h
  cases hcalm.cell_act hwf hok hgoes.stack l key with
  | same he => exact ⟨l, cell, hl, he.trans hcell, hcopy.later hgoes.later, hexpires⟩
  | placed p writer hp hpl hpk he =>
    subst hpl
    exact kept_of_delivers writer hgoes.later (hcopies.delivers hp hpk) hl he
  | @purged r reader hr hphase hrl hrk he =>
    have hreads := hcopies.readers r reader hr hrk
    simp only [ReadsCopies, hphase] at hreads
    omega

omit [DecidableEq K] [DecidableEq T] in
theorem Kept.visible (h : s.Kept cfg key until') (hnow : s.stack.store.now ≤ until')
    (hl : l + 1 = cfg.layers) : ∃ item, s.stack.store.visible l key = some item := by
  obtain ⟨l', cell, hl', hcell, -, hexpires⟩ := h
  obtain rfl : l' = l := by omega
  have halive : (cell.expiresAt.all fun e => decide (s.stack.store.now < e)) = true := by
    rw [Option.all_eq_true]
    exact fun e he => decide_eq_true (hnow.trans_lt (hexpires e he))
  exact ⟨cell.item, by simp [Store.visible, hcell, halive]⟩

omit [DecidableEq T] in
/-- An order that is through has landed all its writes. -/
theorem landed_of_settled (hwf : s.stack.store.Wf s.stack.clock)
    (ho : s.stack.store.orders w = some o) (hsettled : s.stack.store.chain.settledAt w = true)
    (l : ℕ) (k : K) : o.Landed l k := by
  obtain ⟨tk, htk⟩ := hwf.ticket w o ho
  intro st hst _
  have hdone := htk.done (by simpa [TailChain.Chain.settledAt, htk.get] using hsettled) st hst
  cases hphase : st.phase with
  | finished ok => simp [Strand.Landed, hphase]
  | planned | writing | wiping => simp [Strand.done, hphase] at hdone

/-- The order lands its writes one by one; with the one in the last layer the value is kept. -/
theorem Brings.order_act (h : s.Brings cfg key until' w) (hcopies : s.Copies cfg key until')
    (hcalm : s.stack.Calm) (hintact : s.stack.Intact cfg) (hok : s.stack.Keeping a)
    (hgoes : s.Goes cfg key a s') : ∃ o, s'.stack.store.orders w = some o ∧ key ∈ o.keys ∧
      ∀ l, l + 1 = cfg.layers → (∃ p, o.Writes p ∧ p.layer = l ∧ p.key = key) ∧
        (o.Landed l key → s'.Kept cfg key until') := by
  have hwf := hintact.sound.wf
  obtain ⟨o, ho, hkey, hlast⟩ := h.order
  obtain ⟨o', ho', horder⟩ := hcalm.order_act hwf hok hgoes.stack ho
  have hkept : ∀ l, l + 1 = cfg.layers → o.Landed l key → s'.Kept cfg key until' := by
    intro l hl hlanded
    exact ((hlast l hl).2 hlanded).act hcopies hcalm hwf hok hgoes
  have hputs : ∀ {l : ℕ}, o.Same o' → (∃ p, o.Writes p ∧ p.layer = l ∧ p.key = key) →
      ∃ p, o'.Writes p ∧ p.layer = l ∧ p.key = key := by
    rintro l hsame ⟨p, hp, hpl⟩
    exact ⟨p, hsame.writes_iff.mpr hp, hpl⟩
  refine ⟨o', ho', horder.keeps.1 ▸ hkey, fun l hl => ?_⟩
  obtain ⟨hput, -⟩ := hlast l hl
  cases horder with
  | same => exact ⟨hput, hkept l hl⟩
  | start =>
    refine ⟨hputs (Order.same_map fun _ => rfl) hput, fun hlanded => ?_⟩
    refine absurd hlanded (Order.not_landed_start hkey (fun l => ?_) hput)
    split
    · exact hintact.working l
    · rfl
  | @land m i st st' p hst hland =>
    have hsame := Strand.puts_of_land hland
    refine ⟨hputs (Order.same_setStrand hst hsame) hput, fun hlanded => ?_⟩
    by_cases hp : p.layer = l ∧ p.key = key
    · obtain ⟨rfl, rfl⟩ := hp
      have hmem := List.mem_of_getElem? hst
      have hdelivers := hcopies.orders w o p ho
        ⟨st, hmem, ((hwf.strand w o ho st hmem).land hland).2⟩ rfl
      refine kept_of_delivers (some w) hgoes.later hdelivers hl ?_
      obtain ⟨store, hstore, he⟩ := Stack.storeStep_spec hgoes.stack
      obtain ⟨o₁, st₁, p₁, st₁', ho₁, hst₁, hland₁, rfl⟩ := land_spec hstore
      obtain rfl := Option.some.inj (ho.symm.trans ho₁)
      obtain rfl := Option.some.inj (hst.symm.trans hst₁)
      obtain ⟨rfl, rfl⟩ := Prod.mk.inj (Option.some.inj (hland.symm.trans hland₁))
      rw [he, layerSet, cells_setCell, if_pos ⟨rfl, rfl⟩]
      rfl
    · exact hkept l hl (Order.landed_setStrand hst hsame (Strand.landed_of_land hland hp) hlanded)
  | @check m st active hst hphase =>
    refine ⟨hputs (Order.same_setStrand hst rfl) hput, fun hlanded => ?_⟩
    refine hkept l hl (Order.landed_setStrand (by exact hst) (by rfl) (fun _ => ?_) hlanded)
    simp [Strand.Landed, hphase]

theorem Brings.act (h : s.Brings cfg key until' w) (hcopies : s.Copies cfg key until')
    (hcalm : s.stack.Calm) (hintact : s.stack.Intact cfg) (hlayers : 0 < cfg.layers)
    (hok : s.stack.Keeping a) (hgoes : s.Goes cfg key a s') : s'.Brings cfg key until' w where
  order := h.order_act hcopies hcalm hintact hok hgoes
  writer writer' hw hphase := by
    have hwf := hintact.sound.wf
    rcases Stack.writers_act hok.healthy hgoes.stack hw hphase with
      ⟨writer, hw₀, hphase₀⟩ | hsettled
    · exact (h.writer writer hw₀ hphase₀).act hcopies hcalm hwf hok hgoes
    · obtain ⟨o, ho, -, hlast⟩ := h.order
      have hlanded := landed_of_settled hwf ho hsettled (cfg.layers - 1) key
      exact ((hlast _ (by omega)).2 hlanded).act hcopies hcalm hwf hok hgoes

omit [DecidableEq T] in
/-- Once the value is kept, a look that has not missed yet will not miss. -/
theorem Finds.act {reader reader' : Reader K V} {r : ℕ} (h : Finds cfg reader)
    (hcopies : s.Copies cfg key until') (hintact : s.stack.Intact cfg)
    (hlinked : s.stack.Linked cfg s.stack.clock) (hlayers : 0 < cfg.layers)
    (hkept : s.Kept cfg key until') (hr : s.stack.readers r = some reader)
    (hk : reader.key = key) (hread : s.stack.ReaderGoes cfg r reader a reader') :
    Finds cfg reader' := by
  have hreads := hcopies.readers r reader hr hk
  have hindex := hlinked.index hlayers r reader hr
  have hnext : reader.index + 1 < cfg.layers → Finds cfg (reader.next cfg.layers) := by
    intro hl
    rcases reader.next_cases cfg.layers with ⟨-, he⟩ | ⟨hne, -⟩ | ⟨hne, -⟩
    · rw [he]
      trivial
    · exact absurd hl hne
    · exact absurd hl hne
  cases hread with
  | load hphase =>
    by_cases hl : reader.index + 1 < cfg.layers
    · unfold Finds
      split <;> simp_all
    · obtain ⟨item, hitem⟩ := hkept.visible hcopies.now (l := reader.index) (by omega)
      simp [Finds, hintact.working, hk, hitem]
  | resume hres =>
    cases hres with
    | empty hphase => exact hnext (by simpa [Finds, hphase] using h)
    | expired item hphase hstate => trivial
    | unfresh item hphase hstate hmode hfresh =>
      simp only [ReadsCopies, hphase] at hreads
      rcases hreads.state hcopies.now with hfresh' | ⟨hexpired, -⟩
      · exact absurd hfresh' hfresh
      · exact absurd hexpired hstate
    | hit item hphase => trivial
  | purge hphase => exact hnext (by simpa [ReadsCopies, hphase] using hreads)
  | backfill | refuse | hit => trivial
  | unindex hphase => simp [Finds, hphase] at h

section

omit [DecidableEq T]

inductive Observes (key : K) (s : StampedeStack K V T) : Action K V T → StampedeStack K V T → Prop
  | fetch {i : ℕ} {task : Task K V} (hi : s.stack.tasks i = some task) (hk : task.key = key) :
      Observes key s (.get (.fetch i)) { s with fetches := s.fetches ++ [s.stack.clock] }
  | yields {i : ℕ} (write : WriteValue V) (tags : Option (List T))
      (hfirst : s.firstFetch key i = true) :
      Observes key s (.get (.fetched i (.store write tags))) { s with yielded := some write }
  | same {a : Action K V T}
      (hfetch : ∀ i task, a = .get (.fetch i) → s.stack.tasks i = some task → task.key ≠ key)
      (hyields : ∀ i write tags, a = .get (.fetched i (.store write tags)) →
        s.firstFetch key i = false) : Observes key s a s

theorem observes_observe (key : K) (s : StampedeStack K V T) (a : Action K V T) :
    s.Observes key a (s.observe key a) := by
  unfold observe
  split
  · rename_i i
    split
    · rename_i hany
      obtain ⟨task, hi, hk⟩ := (Option.any_eq_true _ _).mp hany
      exact .fetch hi (by simpa using hk)
    · rename_i hany
      refine .same ?_ (by rintro _ _ _ ⟨⟩)
      rintro _ task ⟨⟩ hi hk
      exact hany ((Option.any_eq_true _ _).mpr ⟨task, hi, by simpa using hk⟩)
  · split
    · exact .yields _ _ ‹_›
    · rename_i hfirst
      refine .same (by rintro _ _ ⟨⟩) ?_
      rintro _ _ _ ⟨⟩
      simpa using hfirst
  · rename_i hfetch hyields
    refine .same ?_ ?_
    · rintro i task rfl
      exact (hfetch i rfl).elim
    · rintro i write tags rfl
      exact (hyields i write tags rfl).elim

omit [DecidableEq K] in
theorem unique_of_update (hguarded : s.stack.Guarded) {task' task₁ : Task K V} {j : ℕ}
    (hi : s.stack.tasks i = some task) (hk : task.key = key)
    (hunresolved : ∀ result, task.phase ≠ .resolved result)
    (hj : Function.update s.stack.tasks i (some task') j = some task₁) (hkey : task₁.key = key)
    (hunresolved' : ∀ result, task₁.phase ≠ .resolved result) : j = i ∧ task₁ = task' := by
  rcases update_eq_some hj with he | ⟨hne, hj⟩
  · exact he
  · exact absurd (hguarded.unique hj hi (hkey.trans hk.symm) hunresolved' hunresolved) hne

end

/-- The fetcher begins: the task has looked in vain, so that there was no fetch before. -/
theorem Once.fetch (h : s.Once cfg key until') (hguarded : s.stack.Guarded)
    (hcfg : cfg.singleFlightCoordinator = false) (hi : s.stack.tasks i = some task)
    (hk : task.key = key) {stack : Stack K V T}
    (hs : s.stack.act cfg (.get (.fetch i)) = some stack) :
    Once cfg key until' { s with fetches := s.fetches ++ [s.stack.clock], stack } := by
  obtain ⟨task₁, missed, hi₁, hphase, hmissed, rfl⟩ := Stack.fetch_spec hs
  obtain rfl := Option.some.inj (hi.symm.trans hi₁)
  obtain rfl : missed = true := hmissed.resolve_right (by simp [hcfg])
  have hnil := h.idle i task hi hk hphase
  have hnone := h.unfetched hnil
  have honly : ∀ {j : ℕ} {task₁ : Task K V},
      Function.update s.stack.tasks i (some { task with phase := .fetching s.stack.clock }) j =
        some task₁ → task₁.key = key → (∀ result, task₁.phase ≠ .resolved result) →
      task₁.phase = .fetching s.stack.clock := by
    intro j task₁ hj hkey hunresolved
    obtain ⟨-, rfl⟩ := unique_of_update hguarded hi hk (by simp [hphase]) hj hkey hunresolved
    rfl
  refine ⟨by simp [hnil], ?_, ?_, by simp, ?_, by simp [hnone], ?_, by simp [hnone]⟩
  · intro j task₁ hj hkey hidle
    have := honly hj hkey (by simp [hidle])
    simp [hidle] at this
  · intro j task₁ born hj hkey hfetching
    have := honly hj hkey (by simp [hfetching])
    rw [hfetching, TaskPhase.fetching.injEq] at this
    exact ⟨by simp [hnil, this], hnone⟩
  · exact fun _ => .inr ⟨i, _, _, Function.update_self .., hk, rfl⟩
  · intro j task₁ w answer hj hkey hstoring
    have := honly hj hkey (by simp [hstoring])
    simp [hstoring] at this

theorem Once.yields (h : s.Once cfg key until') (hguarded : s.stack.Guarded)
    (hcalm : s.stack.Calm) (hthrough : ∀ l, cfg.writeBehind l = false) {write : WriteValue V}
    {tags : Option (List T)}
    (hfirst : s.firstFetch key i = true) {stack : Stack K V T}
    (hs : s.stack.act cfg (.get (.fetched i (.store write tags))) = some stack) :
    Once cfg key until' { s with yielded := some write, stack } := by
  obtain ⟨task, born, hi, hk, hphase, -⟩ := firstFetch_iff.mp hfirst
  obtain ⟨hfetches, hnone⟩ := h.fetching i task born hi hk hphase
  have hs' : stack = (s.stack.storeEntry cfg task.key write tags task.fence task.captured
      born).putTask i { task with phase := .storing s.stack.clock ⟨write.answer, some born⟩ } := by
    have hfetched : s.stack.fetched cfg i (.store write tags) = some stack := hs
    obtain ⟨task₁, born₁, hi₁, hphase₁, ⟨result, -, hout, -⟩ | ⟨write₁, tags₁, he, -, hs'⟩⟩ :=
      Stack.fetched_spec hfetched
    · obtain rfl := Option.some.inj (hi.symm.trans hi₁)
      simp [hcalm.current hi] at hout
    · obtain rfl := Option.some.inj (hi.symm.trans hi₁)
      obtain rfl := TaskPhase.fetching.inj (hphase.symm.trans hphase₁)
      cases he
      exact hs'
  subst hs'
  have honly : ∀ {j : ℕ} {task₁ : Task K V},
      Function.update s.stack.tasks i (some { task with
        phase := .storing s.stack.clock ⟨write.answer, some born⟩ }) j = some task₁ →
      task₁.key = key → (∀ result, task₁.phase ≠ .resolved result) →
      task₁.phase = .storing s.stack.clock ⟨write.answer, some born⟩ := by
    intro j task₁ hj hkey hunresolved
    obtain ⟨-, rfl⟩ := unique_of_update hguarded hi hk (by simp [hphase]) hj hkey hunresolved
    rfl
  refine ⟨h.length, ?_, ?_, by simp [hfetches], by simp, ?_, ?_, ?_⟩
  · intro j task₁ hj hkey hidle
    have := honly hj hkey (by simp [hidle])
    simp [hidle] at this
  · intro j task₁ b hj hkey hfetching
    have := honly hj hkey (by simp [hfetching])
    simp [hfetching] at this
  · exact fun _ => .inr ⟨i, _, _, _, Function.update_self .., hk, rfl⟩
  · intro j task₁ w answer hj hkey hstoring
    have := honly hj hkey (by simp [hstoring])
    rw [hstoring, TaskPhase.storing.injEq] at this
    obtain ⟨rfl, rfl⟩ := this
    constructor
    · refine ⟨_, Function.update_self .., by simp [Stack.setOrder, hk], fun l hl => ?_⟩
      have hput : ∃ p,
          (s.stack.setOrder cfg task.key write task.fence task.captured born).Writes p ∧
            p.layer = l ∧ p.key = key := by
        refine ⟨buildLayerSetEntry task.key write born s.stack.store.now l,
          ⟨_, List.mem_singleton.mpr rfl, List.mem_map.mpr ⟨l, ?_, rfl⟩⟩, rfl, hk⟩
        exact List.mem_filter.mpr ⟨List.mem_range.mpr (by omega), by simp [hthrough]⟩
      refine ⟨hput, fun hlanded => absurd hlanded (Order.not_landed_of_planned ?_ hput)⟩
      intro st hst
      obtain rfl := List.mem_singleton.mp hst
      rfl
    · intro writer hw hpast
      rcases update_eq_some hw with ⟨-, rfl⟩ | ⟨hne, -⟩
      · exact absurd rfl hpast
      · exact absurd rfl hne
  · intro _ j task₁ r reader hj hkey hrechecking
    have := honly hj hkey (by simp [hrechecking])
    simp [hrechecking] at this

/-- Where a task of the key comes from, when no fetch of the key begins or yields. -/
inductive TaskFrom (key : K) (s : StampedeStack K V T) (i : ℕ) (phase : TaskPhase V) : Prop
  | same (task : Task K V) (hi : s.stack.tasks i = some task) (hk : task.key = key)
      (h : task.phase = phase)
  | new (h : phase = .idle false)
  | looks (h : phase = .rechecking s.stack.clock)
  | missed (task : Task K V) (r : ℕ) (reader : Reader K V) (hi : s.stack.tasks i = some task)
      (hk : task.key = key) (hphase : task.phase = .rechecking r)
      (hr : s.stack.readers r = some reader) (hdone : reader.phase = .done none)
      (h : phase = .idle true)
  | resolved (result : Option (Answer V)) (h : phase = .resolved result)

theorem taskFrom_act (hfetches : s.FetchesOnce key) (hok : s.stack.Healthy a)
    (hs : s.stack.act cfg a = some s'.stack)
    (hfetch : ∀ i task, a = .get (.fetch i) → s.stack.tasks i = some task → task.key ≠ key)
    (hyields : ∀ i write tags, a = .get (.fetched i (.store write tags)) →
      s.firstFetch key i = false)
    {task' : Task K V} (hi : s'.stack.tasks i = some task') (hk : task'.key = key) :
    s.TaskFrom key i task'.phase := by
  rcases (Stack.tasksGo_act hok hs).back hi with hi | ⟨-, get, g, rfl⟩ | ⟨task, hi₀, htask⟩
  · exact .same task' hi hk rfl
  · exact .new rfl
  have hkey : task.key = key := htask.key.symm.trans hk
  cases htask with
  | join g | left g => exact .same task hi₀ hkey rfl
  | settle hphase => exact .same task hi₀ hkey rfl
  | recheck => exact .looks rfl
  | missed hphase hr hdone => exact .missed task _ _ hi₀ hkey hphase hr hdone rfl
  | found | failed | fetched | stored | giveUp => exact .resolved _ rfl
  | fetch => exact absurd hkey (hfetch i task rfl hi₀)
  | store write tags hphase =>
    have hfalse := hyields i write tags rfl
    rw [hfetches.first hi₀ hkey hphase] at hfalse
    cases hfalse

theorem Once.same (h : s.Once cfg key until') (hcopies : s.Copies cfg key until')
    (hcalm : s.stack.Calm) (hintact : s.stack.Intact cfg)
    (hlinked : s.stack.Linked cfg s.stack.clock) (hguarded : s.stack.Guarded)
    (hlayers : 0 < cfg.layers) (hok : s.StaysCached cfg key until' a)
    (hgoes : s.Goes cfg key a s') (hfetches : s'.fetches = s.fetches)
    (hyielded : s'.yielded = s.yielded)
    (hfetch : ∀ i task, a = .get (.fetch i) → s.stack.tasks i = some task → task.key ≠ key)
    (hyields : ∀ i write tags, a = .get (.fetched i (.store write tags)) →
      s.firstFetch key i = false) : s'.Once cfg key until' := by
  have hkeeping := hok.undisturbed.keeping
  have hwf := hintact.sound.wf
  have hfrom : ∀ {i : ℕ} {task' : Task K V}, s'.stack.tasks i = some task' → task'.key = key →
      s.TaskFrom key i task'.phase :=
    taskFrom_act h.fetching hkeeping.healthy hgoes.stack hfetch hyields
  have hkeep : s.Kept cfg key until' → s'.Kept cfg key until' :=
    fun hkept => hkept.act hcopies hcalm hwf hkeeping hgoes
  have hforth : ∀ {i : ℕ} {task : Task K V}, s.stack.tasks i = some task →
      ∃ task', s'.stack.tasks i = some task' ∧
        (task' = task ∨ s.stack.TaskGoes cfg i task a task') :=
    fun {i task} hi => (Stack.tasksGo_act hkeeping.healthy hgoes.stack).kept
      (hlinked.task_lt i task hi) hi
  refine ⟨hfetches ▸ h.length, ?_, ?_, by rw [hfetches, hyielded]; exact h.unfetched, ?_, ?_, ?_,
    ?_⟩
  · intro i task' hi hk hidle
    rw [hfetches]
    cases hfrom hi hk with
    | same task hi₀ hk₀ he => exact h.idle i task hi₀ hk₀ (he.trans hidle)
    | new he | looks he | resolved result he => simp [hidle] at he
    | missed task r reader hi₀ hk₀ hphase hr hdone =>
      -- the look has come to nothing, so that nothing had been fetched and none was under way
      cases hy : s.yielded with
      | some write =>
        have := h.finds (by simp [hy]) i task r reader hi₀ hk₀ hphase hr
        simp [Finds, hdone] at this
      | none =>
        refine (h.unyielded hy).resolve_right ?_
        rintro ⟨j, task₁, born, hj, hk₁, hfetching⟩
        obtain rfl := hguarded.unique hi₀ hj (hk₀.trans hk₁.symm) (by simp [hphase])
          (by simp [hfetching])
        obtain rfl := Option.some.inj (hi₀.symm.trans hj)
        simp [hphase] at hfetching
  · intro i task' born hi hk hfetching
    rw [hfetches, hyielded]
    cases hfrom hi hk with
    | same task hi₀ hk₀ he => exact h.fetching i task born hi₀ hk₀ (he.trans hfetching)
    | new he | looks he | resolved result he => simp [hfetching] at he
    | missed task r reader hi₀ hk₀ hphase hr hdone he => simp [hfetching] at he
  · intro hnone
    rw [hfetches]
    rw [hyielded] at hnone
    refine (h.unyielded hnone).imp_right ?_
    rintro ⟨i, task, born, hi, hk, hfetching⟩
    obtain ⟨task', hi', rfl | htask⟩ := hforth hi
    · exact ⟨i, task', born, hi', hk, hfetching⟩
    have hfirst := h.fetching.first hi hk hfetching
    cases htask with
    | join g | left g => exact ⟨i, _, born, hi', hk, hfetching⟩
    | fetched outcome result hphase houtdated =>
      have hfresh := hok.fresh hfirst
      split at hfresh
      · rename_i write tags
        have hout := houtdated write tags rfl
        rw [hcalm.current hi] at hout
        cases hout
      · exact hfresh.elim
    | store write tags hphase =>
      have hfalse := hyields i write tags rfl
      rw [hfirst] at hfalse
      cases hfalse
    | recheck hphase | found hphase | missed hphase | failed hphase | fetch hphase
    | stored hphase | giveUp hphase | settle hphase => simp [hfetching] at hphase
  · intro hsome
    rw [hyielded] at hsome
    rcases h.yielded hsome with hkept | ⟨i, task, w, answer, hi, hk, hstoring⟩
    · exact .inl (hkeep hkept)
    obtain ⟨task', hi', rfl | htask⟩ := hforth hi
    · exact .inr ⟨i, task', w, answer, hi', hk, hstoring⟩
    cases htask with
    | join g | left g => exact .inr ⟨i, _, w, answer, hi', hk, hstoring⟩
    | stored hphase hw hdone =>
      obtain ⟨rfl, rfl⟩ := TaskPhase.storing.inj (hphase.symm.trans hstoring)
      exact .inl (hkeep ((h.storing i task _ _ hi hk hphase).writer _ hw (by simp [hdone])))
    | recheck hphase | found hphase | missed hphase | failed hphase | fetch hphase
    | fetched _ _ hphase | store _ _ hphase | giveUp hphase | settle hphase =>
      simp [hstoring] at hphase
  · intro i task' w answer hi hk hstoring
    cases hfrom hi hk with
    | same task hi₀ hk₀ he =>
      exact (h.storing i task w answer hi₀ hk₀ (he.trans hstoring)).act hcopies hcalm hintact
        hlayers hkeeping hgoes
    | new he | looks he | resolved result he => simp [hstoring] at he
    | missed task r reader hi₀ hk₀ hphase hr hdone he => simp [hstoring] at he
  · intro hsome i task' r reader' hi hk hrechecking hr
    rw [hyielded] at hsome
    have hready : reader'.phase = .ready → Finds cfg reader' := by
      intro hphase
      simp [Finds, hphase]
    cases hfrom hi hk with
    | same task hi₀ hk₀ he =>
      have hphase := he.trans hrechecking
      have hkept : s.Kept cfg key until' := by
        refine (h.yielded hsome).resolve_right ?_
        rintro ⟨j, task₁, w, answer, hj, hk₁, hstoring⟩
        obtain rfl := hguarded.unique hi₀ hj (hk₀.trans hk₁.symm) (by simp [hphase])
          (by simp [hstoring])
        obtain rfl := Option.some.inj (hi₀.symm.trans hj)
        simp [hphase] at hstoring
      rcases Stack.readers_act hkeeping.healthy hgoes.stack hr with
        hr | ⟨-, hready'⟩ | ⟨reader, hr₀, hread⟩
      · exact h.finds hsome i task r reader' hi₀ hk₀ hphase hr
      · exact hready hready'
      · obtain ⟨reader₁, hr₁, hrk, -⟩ := hlinked.rechecking i task r hi₀ hphase
        obtain rfl := Option.some.inj (hr₀.symm.trans hr₁)
        exact (h.finds hsome i task r reader hi₀ hk₀ hphase hr₀).act hcopies hintact hlinked hlayers
          hkept hr₀ (hrk.trans hk₀) hread
    | looks he =>
      obtain rfl := TaskPhase.rechecking.inj (hrechecking.symm.trans he)
      have hfree : ∀ reader, s.stack.readers s.stack.clock ≠ some reader :=
        fun reader hr₀ => absurd (hlinked.reader_lt _ reader hr₀) (lt_irrefl _)
      rcases Stack.readers_act hkeeping.healthy hgoes.stack hr with
        hr | ⟨-, hready'⟩ | ⟨reader, hr₀, -⟩
      · exact absurd hr (hfree _)
      · exact hready hready'
      · exact absurd hr₀ (hfree _)
    | new he | resolved result he => simp [hrechecking] at he
    | missed task r reader hi₀ hk₀ hphase hr hdone he => simp [hrechecking] at he

theorem Once.act (h : s.Once cfg key until') (hcopies : s.Copies cfg key until')
    (hcalm : s.stack.Calm) (hintact : s.stack.Intact cfg)
    (hlinked : s.stack.Linked cfg s.stack.clock) (hguarded : s.stack.Guarded)
    (hlayers : 0 < cfg.layers) (hthrough : ∀ l, cfg.writeBehind l = false)
    (hcoordinator : cfg.singleFlightCoordinator = false) (hok : s.StaysCached cfg key until' a)
    {stack : Stack K V T} (hs : s.stack.act cfg a = some stack) :
    Once cfg key until' { s.observe key a with stack } := by
  have hgoes := goes_act hcalm h.fetching hok.undisturbed.keeping hs
  have hobserves := observes_observe key s a
  generalize s.observe key a = s₁ at hgoes hobserves
  cases hobserves with
  | fetch hi hk => exact h.fetch hguarded hcoordinator hi hk hs
  | yields write tags hfirst => exact h.yields hguarded hcalm hthrough hfirst hs
  | same hfetch hyields =>
    exact h.same hcopies hcalm hintact hlinked hguarded hlayers hok hgoes rfl rfl hfetch hyields

structure Inv (cfg : Config) (key : K) (until' : Millis) (s : StampedeStack K V T) : Prop where
  intact : s.stack.Intact cfg
  linked : s.stack.Linked cfg s.stack.clock
  calm : s.stack.Calm
  guarded : s.stack.Guarded
  attended : s.stack.Attended
  copies : s.Copies cfg key until'
  once : s.Once cfg key until'

theorem step_spec (hs : s.step cfg key a = some s') : ∃ stack, s.stack.act cfg a = some stack ∧
    s.stack.step cfg a = some s'.stack ∧
    s' = { s.observe key a with stack := { stack with clock := s.stack.clock + 1 } } := by
  simp only [step, Option.map_eq_some_iff] at hs
  obtain ⟨stack, hstack, rfl⟩ := hs
  obtain ⟨stack₁, hact, rfl⟩ := Stack.step_spec hstack
  exact ⟨stack₁, hact, hstack, rfl⟩

theorem Inv.step (h : s.Inv cfg key until') (hlayers : 0 < cfg.layers)
    (hthrough : ∀ l, cfg.writeBehind l = false) (hprevention : cfg.stampedePrevention = true)
    (hcoordinator : cfg.singleFlightCoordinator = false)
    (hok : s.StaysReadable cfg key until' a) (hs : s.step cfg key a = some s') :
    s'.Inv cfg key until' := by
  obtain ⟨stack, hact, hstep, rfl⟩ := step_spec hs
  have hkeeping := hok.undisturbed.keeping
  have hgoes := goes_act h.calm h.once.fetching hkeeping hact
  have hcopies := h.copies.act h.calm h.intact h.linked hlayers h.once.fetching hok hgoes
  have honce := h.once.act h.copies h.calm h.intact h.linked h.guarded hlayers hthrough
    hcoordinator hok.toStaysCached hact
  refine ⟨h.intact.step hkeeping.healthy hstep, h.linked.step hkeeping.healthy hstep,
    h.calm.step h.intact.sound.wf hthrough hkeeping hstep,
    (h.guarded.act hprevention hkeeping.healthy hact).congr rfl rfl, ?_, ?_, ?_⟩
  · have hattended := h.attended.act h.intact.sound hkeeping.healthy hact
    exact ⟨hattended.writer, hattended.order⟩
  · exact hcopies.congr rfl rfl rfl rfl rfl
  · refine ⟨honce.length, honce.idle, honce.fetching, honce.unfetched, honce.unyielded,
      honce.yielded, fun i task w answer hi hk hstoring => ?_, honce.finds⟩
    have hbrings := honce.storing i task w answer hi hk hstoring
    exact ⟨hbrings.order, hbrings.writer⟩

omit [DecidableEq T] in
theorem inv_initial {contents : ℕ → K → Option (Stored V × Option Millis)} (hnow : now ≤ until')
    (habsent : ∀ l < cfg.layers, (Store.initial now contents).visible l key = none) :
    (initial now contents : StampedeStack K V T).Inv cfg key until' := by
  refine ⟨Stack.intact_initial now contents, Stack.linked_initial now contents,
    Stack.calm_initial now contents, Stack.guarded_initial now contents,
    Stack.attended_initial now contents, copies_initial hnow habsent, ?_⟩
  constructor <;> simp [initial, Stack.initial, FetchesOnce]

/-- A caller that is not through waits for a step of the run. -/
theorem Inv.awaited (h : s.Inv cfg key until') {g : ℕ} {get : Get K V}
    (hg : s.stack.gets g = some get) (hdone : ∀ answer, get.phase ≠ .done answer)
    (hfailed : get.phase ≠ .failed) : ∃ a, s.stack.Serves g get a ∧
      s.StaysReadable cfg key until' a ∧ (s.step cfg key a).isSome = true := by
  obtain ⟨a, hserves, hact, houtcome⟩ := Stack.awaits_caller h.calm h.intact.sound.wf h.linked
    h.attended hg hdone hfailed
  refine ⟨a, hserves, ⟨⟨hserves.undisturbed, ?_⟩, ?_⟩, ?_⟩
  · unfold YieldsFresh
    split
    · rename_i i outcome
      obtain rfl := houtcome i outcome rfl
      exact fun _ => WriteValue.lasting_staysFresh cfg.layers
    · trivial
  · unfold YieldsRecognisable
    split
    · rename_i i write tags
      cases houtcome i _ rfl
      exact fun _ => WriteValue.lasting_recognisable cfg.layers
    · trivial
  · obtain ⟨stack, hstack⟩ := Option.isSome_iff_exists.mp hact
    simp [StampedeStack.step, Stack.step, hstack]

theorem Inv.protected (h : s.Inv cfg key until') : s.Protected cfg key until' where
  once := h.once.length
  awaited g get hg hk _ hdone := by
    have hgets := h.copies.gets g get hg hk
    refine h.awaited hg hdone fun hphase => ?_
    simp [GetsCopies, hphase] at hgets
  served g get hg hk hcalls := by
    have hgets := h.copies.gets g get hg hk
    constructor
    · intro hphase
      simp [GetsCopies, hphase] at hgets
    · intro answer hphase
      simp only [GetsCopies, hphase] at hgets
      exact hgets hcalls.2

/-- However many callers ask for a key that no layer holds, and in whatever order their steps come:
its fetcher runs once, and they all return what it has yielded, as long as that stays fresh and
the layers are handed envelopes of it that readers recognise. None of them is left waiting. -/
theorem fetched_once (hlayers : 0 < cfg.layers) (hthrough : ∀ l, cfg.writeBehind l = false)
    (hprevention : cfg.stampedePrevention = true)
    (hcoordinator : cfg.singleFlightCoordinator = false)
    {contents : ℕ → K → Option (Stored V × Option Millis)} (hnow : now ≤ until')
    (habsent : ∀ l < cfg.layers, (Store.initial now contents).visible l key = none)
    (hrun : Reaches (step cfg key) (StaysReadable cfg key until') (initial now contents) s) :
    s.Protected cfg key until' := by
  have hinv : s.Inv cfg key until' := Reaches.invariant hrun
    (fun s a s' h hok hs => h.step hlayers hthrough hprevention hcoordinator hok hs)
    (inv_initial hnow habsent)
  exact hinv.protected

/-- A caller that fetches the value, from its first read to its return. -/
def fetchValue (write : WriteValue ℕ) : List (Action ℕ ℕ ℕ) :=
  [.get (.enter 1), .get (.recheck 15), .read (.load 16), .read (.resume 16), .read (.load 16),
    .read (.resume 16), .read (.unindex 16), .get (.rechecked 15), .get (.fetch 15),
    .get (.fetched 15 (.store write none)), .store (.start 24), .store (.land 24 0 0),
    .store (.land 24 0 0), .store (.check 24 0), .store (.settle 24), .write (.enqueue 24),
    .write (.verify 24), .write (.track 24), .write (.track 24), .write (.announce 24),
    .get (.stored 15), .get (.settle 15), .get (.leave 1)]

def missTwice : List (Action ℕ ℕ ℕ) :=
  [.get (.get 0 Stack.fetching), .get (.get 0 Stack.fetching), .read (.load 1), .read (.resume 1),
    .read (.load 1), .read (.resume 1), .read (.unindex 1), .read (.load 2), .read (.resume 2),
    .read (.load 2), .read (.resume 2), .read (.unindex 2), .get (.conclude 1), .get (.conclude 2)]

/-- The second caller comes to the guard when the first one has left it. -/
def enterLate : List (Action ℕ ℕ ℕ) :=
  [.get (.enter 2), .get (.recheck 38), .read (.load 39), .read (.resume 39),
    .read (.backfill 39 fun _ => none), .get (.rechecked 38), .get (.settle 38), .get (.leave 2)]

theorem fetched_once_at_enterLate :
    ∃ s ∈ run (step memoryOverRedis 0) (initial 0 fun _ _ => none)
      (missTwice ++ fetchValue (.forMinute 7) ++ enterLate),
      s.Protected memoryOverRedis 0 100 ∧ s.fetches = [23] ∧
        ∀ g < 3, ∀ get ∈ s.stack.gets g, get.phase = .done ⟨.value 7, some 23⟩ := by
  obtain ⟨s, hs, hfetches, hgets⟩ : ∃ s ∈ run (step memoryOverRedis 0) (initial 0 fun _ _ => none)
      (missTwice ++ fetchValue (.forMinute 7) ++ enterLate), s.fetches = [23] ∧
        ∀ g < 3, ∀ get ∈ s.stack.gets g, get.phase = .done ⟨.value 7, some 23⟩ := by
    decide +kernel
  refine ⟨s, hs, ?_, hfetches, hgets⟩
  exact fetched_once (by decide) (fun _ => rfl) rfl rfl (show (0 : Millis) ≤ 100 by norm_num)
    (by simp [Store.initial, Store.visible])
    (reaches_of_run (StaysReadable memoryOverRedis 0 100) hs (by decide +kernel))

/-- A value with a stale window but without a time to live never goes stale. Readers do not
recognise its envelope, and a later caller returns the envelope. -/
theorem not_protected_staleWindowOnly :
    ∃ s : StampedeStack ℕ ℕ ℕ, Reaches (step memoryOverRedis 0)
      (StaysCached memoryOverRedis 0 100) (initial 0 fun _ _ => none) s ∧
      ¬ s.Protected memoryOverRedis 0 100 := by
  obtain ⟨s, hs, hget⟩ : ∃ s ∈ run (step memoryOverRedis 0) (initial 0 fun _ _ => none)
      (missTwice ++ fetchValue ⟨.value, some 7, fun _ => ⟨none, some 5000, none⟩⟩ ++ enterLate),
      ∃ get ∈ s.stack.gets 2, get.key = 0 ∧ get.Calls ∧ get.phase = .done
        ⟨.envelope ⟨.value, some 7, none, none, none, none, some 5000, none⟩, some 23⟩ ∧
          s.yielded.all fun write => write.answer = .value 7 := by
    decide +kernel
  refine ⟨s, reaches_of_run _ hs (by decide +kernel), fun hprotected => ?_⟩
  obtain ⟨get, hg, hk, hcalls, hdone, hyielded⟩ := hget
  obtain ⟨write, hwrite, he⟩ := (hprotected.served 2 get hg hk hcalls).2 _ hdone
  rw [Option.mem_def] at hwrite
  rw [hwrite] at hyielded
  have hvalue : write.answer = .value 7 := by simpa using hyielded
  rw [hvalue] at he
  cases he

end StampedeStack

end LayerCache
