import FerrumNexus.Teardown.Queue

/-!
# Teardown generations

Any number of disables, retries, re-enables, inline attempts and workers run
beside each other, and any of them may stop between two steps. The rows evolve
by generations: a row found under a generation an attempt remembers is the row
it claimed, of the disable it claimed it for. So a settling write reaches no
newer disable, and the run behind a finished row began after the row was last
queued.
-/
namespace FerrumNexus.Teardown

open Saga Platform Portal

section Generations

variable {ω : Type} {s s' : TeardownState ω}

/-- What stays with a generation: the row and the disable it was queued by. -/
def origin (row : TeardownJob) : ℕ × ℕ := (row.id, row.queuedAt)

/-- A finished row was completed by a run that began after it was queued. -/
def CompletedInTime (row : TeardownJob) : Prop :=
  ∃ startedAt, row.completedBy = some startedAt ∧ row.queuedAt < startedAt

/-- The settling write found the row of its own claim, still `sending`. -/
def Settlement.Owned (e : Settlement) : Prop :=
  e.row.status = .sending ∧ e.row.generation = e.claim.generation ∧ origin e.row = origin e.claim

structure Inv (s : TeardownState ω) : Prop where
  rows : ∀ userId row, s.jobs userId = some row → row.userId = userId ∧
    row.generation < s.fresh ∧ row.queuedAt < s.clock ∧
    (row.status = .done → CompletedInTime row)
  settlements : ∀ e ∈ s.settlements, e.Owned

/-- What every step does. -/
structure Step (s s' : TeardownState ω) : Prop where
  fresh : s.fresh ≤ s'.fresh
  clock : s.clock ≤ s'.clock
  jobs : Evolves TeardownJob.generation origin s.fresh s.jobs s'.jobs
  inv : Inv s → Inv s'

theorem Step.refl (s : TeardownState ω) : Step s s :=
  ⟨le_rfl, le_rfl, Evolves.refl _ _, fun h => h⟩

theorem Step.trans {s₁ : TeardownState ω} (h : Step s s₁) (h' : Step s₁ s') : Step s s' :=
  ⟨h.fresh.trans h'.fresh, h.clock.trans h'.clock, Evolves.trans h.fresh h.jobs h'.jobs,
    fun hinv => h'.inv (h.inv hinv)⟩

/-- What an attempt knows of the row it was handed or claimed. -/
structure Knows (job : TeardownJob) (s : TeardownState ω) : Prop where
  generation : job.generation < s.fresh
  queuedAt : job.queuedAt < s.clock
  row : ∀ row, s.jobs job.userId = some row → row.generation = job.generation →
    origin row = origin job

variable {job : TeardownJob} {α : Type} {Q : α → TeardownState ω → Prop} {p : TeardownService ω α}

theorem Knows.step (h : Knows job s) (hs : Step s s') : Knows job s' := by
  refine ⟨lt_of_lt_of_le h.generation hs.fresh, lt_of_lt_of_le h.queuedAt hs.clock, ?_⟩
  intro row hrow hgen
  obtain ⟨row₀, hrow₀, htoken, hview⟩ := hs.jobs.of_token hrow (hgen ▸ h.generation)
  rw [← hview]
  exact h.row row₀ hrow₀ (htoken.trans hgen)

/-! ## The repository -/

theorem step_rest (w : ω) : Step s { s with rest := w } :=
  ⟨le_rfl, le_rfl, Evolves.refl _ _, fun h => ⟨h.rows, h.settlements⟩⟩

theorem step_clock {n : ℕ} (hle : s.clock ≤ n) : Step s { s with clock := n } := by
  refine ⟨le_rfl, hle, Evolves.refl _ _, fun h => ⟨?_, h.settlements⟩⟩
  intro userId row hrow
  obtain ⟨h1, h2, h3, h4⟩ := h.rows userId row hrow
  exact ⟨h1, h2, lt_of_lt_of_le h3 hle, h4⟩

/-- One row written: under its own generation, or a new one. -/
theorem step_putRow {userId fresh clock : ℕ} {row : TeardownJob} (hfresh : s.fresh ≤ fresh)
    (hclock : s.clock ≤ clock) (huser : row.userId = userId) (hgen : row.generation < fresh)
    (hqueued : row.queuedAt < clock) (hdone : row.status = .done → CompletedInTime row)
    (hevolves : s.fresh ≤ row.generation ∨ ∃ old, s.jobs userId = some old ∧
      old.generation = row.generation ∧ origin old = origin row) :
    Step s { s with jobs := Function.update s.jobs userId (some row), fresh := fresh, clock := clock } := by
  refine ⟨hfresh, hclock, Evolves.update hevolves, fun h => ⟨?_, h.settlements⟩⟩
  intro userId' row' hrow'
  by_cases hu : userId' = userId
  · subst hu
    simp only [Function.update_self, Option.some.injEq] at hrow'
    subst hrow'
    exact ⟨huser, hgen, hqueued, hdone⟩
  · simp only [Function.update_of_ne hu] at hrow'
    obtain ⟨h1, h2, h3, h4⟩ := h.rows userId' row' hrow'
    exact ⟨h1, lt_of_lt_of_le h2 hfresh, lt_of_lt_of_le h3 hclock, h4⟩

theorem step_eraseRow (userId : ℕ) :
    Step s { s with jobs := Function.update s.jobs userId none } := by
  refine ⟨le_rfl, le_rfl, Evolves.erase _ _ _, fun h => ⟨?_, h.settlements⟩⟩
  intro userId' row' hrow'
  by_cases hu : userId' = userId
  · subst hu
    simp at hrow'
  · simp only [Function.update_of_ne hu] at hrow'
    exact h.rows userId' row' hrow'

theorem upsertPending_spec (userId : ℕ) (requestedBy : Option ℕ) (s : TeardownState ω) :
    Step s (upsertPending userId requestedBy s).2 ∧
      Knows (upsertPending userId requestedBy s).1 (upsertPending userId requestedBy s).2 := by
  constructor
  · refine step_putRow (Nat.le_add_right _ _) (Nat.le_succ _) rfl (Nat.lt_succ_self _)
      (Nat.lt_succ_self _) ?_ (.inl (Nat.le_succ _))
    intro h
    cases h
  · refine ⟨Nat.lt_succ_self _, Nat.lt_succ_self _, ?_⟩
    intro row hrow _
    have heq : (upsertPending userId requestedBy s).1 = row :=
      Option.some.inj ((Function.update_self userId _ s.jobs).symm.trans hrow)
    rw [heq]

/-- What the worker claims, it knows. -/
theorem claimDue_spec (hinv : Inv s) (userId : ℕ) : Step s (claimDue userId s).2 ∧
    ∀ job, (claimDue userId s).1 = some job → Knows job (claimDue userId s).2 := by
  unfold claimDue
  split
  · exact ⟨Step.refl s, fun job h => by cases h⟩
  rename_i row hrow
  split
  swap
  · exact ⟨Step.refl s, fun job h => by cases h⟩
  obtain ⟨huser, -, hqueued, -⟩ := hinv.rows userId row hrow
  constructor
  · refine step_putRow (Nat.le_succ _) le_rfl huser (Nat.lt_succ_self _) hqueued ?_ (.inl le_rfl)
    intro h
    cases h
  · rintro _ ⟨⟩
    refine ⟨Nat.lt_succ_self _, hqueued, ?_⟩
    intro row' hrow' _
    have hself : (claimedRow row s.fresh s.now).userId = userId := huser
    rw [hself] at hrow'
    simp only [Function.update_self, Option.some.injEq] at hrow'
    rw [← hrow']

/-- A claim takes the generation its reader knew, or none. -/
theorem claimPending_spec (hinv : Inv s) (hknows : Knows job s) :
    Step s (claimPending job s).2 ∧ ∀ claimed, (claimPending job s).1 = some claimed →
      Knows claimed (claimPending job s).2 ∧ claimed.userId = job.userId := by
  unfold claimPending
  split
  · exact ⟨Step.refl s, fun job h => by cases h⟩
  rename_i row hrow
  split
  swap
  · exact ⟨Step.refl s, fun job h => by cases h⟩
  rename_i hmatch
  obtain ⟨huser, -, hqueued, -⟩ := hinv.rows _ row hrow
  constructor
  · refine step_putRow (Nat.le_succ _) le_rfl huser (Nat.lt_succ_self _) hqueued ?_ (.inl le_rfl)
    intro h
    cases h
  · rintro _ ⟨⟩
    refine ⟨⟨Nat.lt_succ_self _, hknows.queuedAt, ?_⟩, rfl⟩
    intro row' hrow' _
    have hself : (claimedRow job s.fresh s.now).userId = job.userId := rfl
    rw [hself] at hrow'
    simp only [Function.update_self, Option.some.injEq] at hrow'
    rw [← hrow']
    exact hknows.row row hrow hmatch.2.1

/-- A settling write changes only the row its claim owns. -/
theorem settle_step {f : TeardownJob → Option TeardownJob} (hknows : Knows job s)
    (hf : ∀ row row', f row = some row' → row'.userId = row.userId ∧
      row'.generation = row.generation ∧ row'.queuedAt = row.queuedAt ∧ row'.id = row.id)
    (hdone : ∀ row row', f row = some row' → row'.status = .done → row'.queuedAt = job.queuedAt →
      CompletedInTime row') : Step s (settle job f s).2 := by
  unfold settle
  split
  · exact Step.refl s
  rename_i row hsending
  obtain ⟨hrow, hmatch⟩ := Option.filter_eq_some_iff.mp hsending
  simp only [Bool.and_eq_true, beq_iff_eq] at hmatch
  obtain ⟨⟨hid, hgen⟩, hstatus⟩ := hmatch
  have horigin := hknows.row row hrow hgen
  have hqueued : row.queuedAt = job.queuedAt := congrArg Prod.snd horigin
  have howned : (⟨job, row⟩ : Settlement).Owned := ⟨hstatus, hgen, horigin⟩
  cases hfr : f row with
  | none =>
    have hstep : Step s { s with jobs := Function.update s.jobs job.userId none } :=
      step_eraseRow job.userId
    refine ⟨hstep.fresh, hstep.clock, hstep.jobs, fun h => ⟨(hstep.inv h).rows, ?_⟩⟩
    intro e he
    rcases List.mem_cons.mp he with rfl | he
    · exact howned
    · exact h.settlements e he
  | some row' =>
    obtain ⟨huser', hgen', hqueued', hid'⟩ := hf row row' hfr
    refine ⟨le_rfl, le_rfl, Evolves.update (.inr ⟨row, hrow, hgen'.symm, ?_⟩), fun h => ⟨?_, ?_⟩⟩
    · rw [origin, origin, hid', hqueued']
    · intro userId row₁ hrow₁
      by_cases hu : userId = job.userId
      · subst hu
        simp only [Function.update_self, Option.some.injEq] at hrow₁
        subst hrow₁
        obtain ⟨h1, h2, h3, -⟩ := h.rows _ row hrow
        exact ⟨huser'.trans h1, hgen' ▸ h2, hqueued' ▸ h3, fun hst =>
          hdone row row' hfr hst (hqueued'.trans hqueued)⟩
      · simp only [Function.update_of_ne hu] at hrow₁
        exact h.rows userId row₁ hrow₁
    · intro e he
      rcases List.mem_cons.mp he with rfl | he
      · exact howned
      · exact h.settlements e he

theorem markDone_step {startedAt : ℕ} (hknows : Knows job s) (hstarted : job.queuedAt < startedAt) :
    Step s (markDone job startedAt s).2 := by
  refine settle_step hknows ?_ ?_
  · rintro row _ ⟨⟩
    exact ⟨rfl, rfl, rfl, rfl⟩
  · rintro row _ ⟨⟩ - hqueued
    exact ⟨startedAt, rfl, lt_of_eq_of_lt hqueued hstarted⟩

theorem reschedule_step (hknows : Knows job s) (next : ℕ) (error : String) :
    Step s (reschedule job next error s).2 := by
  refine settle_step hknows ?_ ?_
  · rintro row _ ⟨⟩
    exact ⟨rfl, rfl, rfl, rfl⟩
  · rintro row _ ⟨⟩ hst
    cases hst

theorem deleteClaimed_step (hknows : Knows job s) :
    Step s (deleteClaimed job s).2 := by
  refine settle_step hknows ?_ ?_
  · intro row row' h
    cases h
  · intro row row' h
    cases h

theorem releaseStale_step (olderThan : ℕ) : Step s (releaseStale olderThan s).2 := by
  have hsame : ∀ row, (releasedRow olderThan s.now row).userId = row.userId ∧
      (releasedRow olderThan s.now row).generation = row.generation ∧
      origin (releasedRow olderThan s.now row) = origin row ∧
      ((releasedRow olderThan s.now row).status = .done → releasedRow olderThan s.now row = row) := by
    intro row
    unfold releasedRow
    split
    · exact ⟨rfl, rfl, rfl, fun h => by cases h⟩
    · exact ⟨rfl, rfl, rfl, fun _ => rfl⟩
  refine ⟨le_rfl, le_rfl, ?_, fun h => ⟨?_, h.settlements⟩⟩
  · intro userId row' hrow'
    obtain ⟨row, hrow, rfl⟩ := Option.map_eq_some_iff.mp hrow'
    exact .inr ⟨row, hrow, (hsame row).2.1.symm, (hsame row).2.2.1.symm⟩
  · intro userId row' hrow'
    obtain ⟨row, hrow, rfl⟩ := Option.map_eq_some_iff.mp hrow'
    obtain ⟨h1, h2, h3, h4⟩ := h.rows userId row hrow
    obtain ⟨e1, e2, e3, e4⟩ := hsame row
    have e3' : (releasedRow olderThan s.now row).queuedAt = row.queuedAt := congrArg Prod.snd e3
    refine ⟨e1.trans h1, e2 ▸ h2, e3' ▸ h3, fun hst => ?_⟩
    have hkept := e4 hst
    rw [hkept] at hst ⊢
    exact h4 hst

/-! ## Programs -/

/-- Every action of the program is a step, whatever the others do meanwhile. -/
def Safe (p : TeardownService ω α) (Q : α → TeardownState ω → Prop) (s : TeardownState ω) : Prop :=
  wpe Step Step p (fun a s' => Q a s' ∧ Step s s') (fun _ s' => Step s s') s

theorem safe_of_wpe (h : wpe Step Step p Q (fun _ _ => True) s) : Safe p Q s :=
  wpe_mono (wpe_track Step.refl (fun _ _ _ => Step.trans) (fun _ _ h => h) (fun _ _ h => h) h)
    (fun _ _ h => h) (fun _ _ h => h.2)

theorem safe_bind {β : Type} {g : α → TeardownService ω β} {M : α → TeardownState ω → Prop}
    {Q : β → TeardownState ω → Prop} (hp : Safe p M s)
    (hg : ∀ a s', M a s' → Step s s' → Safe (g a) Q s') : Safe (p >>= g) Q s := by
  refine wpe_call hp ?_ fun _ _ h => h
  intro a s' ⟨hm, hs⟩
  exact wpe_mono (hg a s' hm hs) (fun _ _ h => ⟨h.1, hs.trans h.2⟩) fun _ _ h => hs.trans h

theorem safe_pure {a : α} (h : Q a s) :
    Safe (pure a : TeardownService ω α) Q s :=
  ⟨h, Step.refl s⟩

theorem safe_throw (e : NexusError) :
    Safe (throw e : TeardownService ω α) Q s :=
  Step.refl s

theorem safe_ensure {condition : Bool} (e : NexusError) :
    Safe (ensure condition e : TeardownService ω Unit) (fun _ _ => condition = true) s :=
  safe_of_wpe (wpe_ensure (fun h => h) fun _ => trivial)

theorem safe_read (f : TeardownState ω → α) :
    Safe (storeRead f) (fun _ _ => True) s :=
  safe_of_wpe (wpe_storeRead fun s₁ _ => ⟨Step.refl s₁, trivial, trivial⟩)

theorem safe_now : Safe (atomic fun s _ => some (.ok s.now, s) : TeardownService ω ℕ)
    (fun _ _ => True) s := by
  refine safe_of_wpe ((wpe_atomic _).mpr ?_)
  rintro s₁ - c r s' ⟨⟩
  exact ⟨Step.refl s₁, trivial⟩

theorem safe_bestEffort (h : Safe p Q s) : Safe (bestEffort p) (fun _ _ => True) s :=
  wpe_bestEffort (wpe_mono h (fun _ _ h => ⟨trivial, h.2⟩) fun _ _ h => ⟨trivial, h⟩)

theorem safe_statement {f : TeardownState ω → α × TeardownState ω}
    (h : ∀ s₁, Step s s₁ → Step s₁ (f s₁).2 ∧ Q (f s₁).1 (f s₁).2) : Safe (statement f) Q s := by
  refine safe_of_wpe ((wpe_atomic _).mpr ?_)
  intro s₁ hs c r s' hf
  obtain ⟨hstep, hq⟩ := h s₁ hs
  cases c <;> simp only [Option.some.injEq, Prod.mk.injEq] at hf <;> obtain ⟨rfl, rfl⟩ := hf
  · exact ⟨hstep, hq⟩
  · exact ⟨Step.refl s₁, trivial⟩
  · exact ⟨hstep, trivial⟩
  · exact ⟨Step.refl s₁, trivial⟩

/-- A run of the teardown begins after whatever the attempt knows of. -/
theorem safe_timed (p : Service ω α) (hknows : Knows job s) :
    Safe (timed p) (fun r _ => job.queuedAt < r.1) s := by
  refine safe_bind (M := fun startedAt _ => job.queuedAt < startedAt) ?_ ?_
  · refine safe_of_wpe ((wpe_atomic _).mpr ?_)
    rintro s₁ hs c r s' ⟨⟩
    exact ⟨step_clock (Nat.le_succ _), (hknows.step hs).queuedAt⟩
  · intro startedAt s₁ hstarted _
    refine safe_bind (M := fun _ _ => True) ?_ fun a s₂ _ _ => safe_pure hstarted
    have hzoom : wpe Step Step
        (Fallible.zoom TeardownState.rest (fun w (s : TeardownState ω) => { s with rest := w }) p)
        (fun _ s' => Step s₁ s') (fun _ s' => Step s₁ s') s₁ := by
      refine wpe_zoom (I := Step s₁) ?_ ?_ (Step.refl s₁)
      · exact fun _ _ => Step.trans
      · exact fun s₂ w h => ⟨step_rest w, h.trans (step_rest w)⟩
    exact wpe_mono hzoom (fun _ _ h => ⟨trivial, h⟩) fun _ _ h => h

/-! ## Attempts -/

/-- An attempt starts from a claim it was given or took. -/
theorem safe_claimFor {userId : ℕ} {job : Option TeardownJob} (hinv : Inv s)
    (hknows : ∀ j ∈ job, Knows j s) : Safe (claimFor userId job) Knows s := by
  cases job with
  | none => exact safe_throw _
  | some job =>
    refine safe_bind (safe_ensure _) fun _ s₁ _ hs₁ => ?_
    have hknows₁ := (hknows job rfl).step hs₁
    refine safe_bind (M := fun claimed s' => ∀ j, claimed = some j → Knows j s') ?_ ?_
    · cases job.status with
      | pending =>
        refine safe_statement fun s₂ hs₂ => ?_
        have hspec := claimPending_spec ((hs₁.trans hs₂).inv hinv) (hknows₁.step hs₂)
        exact ⟨hspec.1, fun claimed h => (hspec.2 claimed h).1⟩
      | sending =>
        refine safe_pure ?_
        rintro j ⟨⟩
        exact hknows₁
      | done => exact safe_pure fun j h => by cases h
    · intro claimed s₂ hclaimed _
      cases claimed with
      | none => exact safe_throw _
      | some claimed => exact safe_pure (hclaimed claimed rfl)

theorem safe_runClaimed (disable : ℕ → Service ω GatewayTeardown) {userId : ℕ}
    {claimed : TeardownJob} (hknows : Knows claimed s) :
    Safe (runClaimed disable userId claimed) (fun _ _ => True) s := by
  refine safe_bind (safe_read _) fun current s₁ _ hs₁ => ?_
  refine safe_bind (safe_ensure _) fun _ s₂ _ hs₂ => ?_
  have hknows₂ := (hknows.step hs₁).step hs₂
  refine safe_bind (safe_timed _ hknows₂) fun r s₃ hstarted hs₃ => ?_
  refine safe_bind (M := fun _ _ => True) ?_ fun done s₄ _ _ => ?_
  · exact safe_statement fun s₄ hs₄ => ⟨markDone_step ((hknows₂.step hs₃).step hs₄) hstarted, trivial⟩
  · refine safe_bind (safe_ensure _) fun _ s₅ _ _ => ?_
    split
    · exact safe_pure trivial
    · exact safe_pure trivial

/-- A pass settles only the generation it claimed. -/
theorem safe_runGatewayTeardown (disable : ℕ → Service ω GatewayTeardown) {userId : ℕ}
    {job : Option TeardownJob} (hinv : Inv s) (hknows : ∀ j ∈ job, Knows j s) :
    Safe (runGatewayTeardown disable userId job) (fun _ _ => True) s := by
  refine safe_bind (M := fun r s' => ∀ j, r = .ok j → Knows j s') ?_ ?_
  · refine wpe_attempt (wpe_mono (safe_claimFor hinv hknows) ?_ ?_)
    · rintro a s' ⟨hk, hs⟩
      refine ⟨?_, hs⟩
      rintro j ⟨⟩
      exact hk
    · intro e s' hs
      exact ⟨fun j h => (nomatch h), hs⟩
  · intro r s₁ hr _
    cases r with
    | error e => exact safe_pure trivial
    | ok claimed =>
      have hclaimed := hr claimed rfl
      refine (wpe_tryCatch _ _).mpr (wpe_mono (safe_runClaimed disable hclaimed)
        (fun _ _ h => h) fun e s₂ hs₂ => ?_)
      have hfail : Safe (do
          if job.any (·.status == .pending) then do
            let now ← atomic fun s _ => some (.ok s.now, s)
            bestEffort (statement (reschedule claimed now e.message))
            pure (.pending e)
          else pure (.pending e) : TeardownService ω TeardownOutcome) (fun _ _ => True) s₂ := by
        split
        · refine safe_bind safe_now fun now s₃ _ hs₃ => ?_
          refine safe_bind (M := fun _ _ => True) ?_ fun _ _ _ _ => safe_pure trivial
          refine safe_bestEffort (Q := fun _ _ => True) (safe_statement fun s₄ hs₄ => ?_)
          exact ⟨reschedule_step (((hclaimed.step hs₂).step hs₃).step hs₄) _ _, trivial⟩
        · exact safe_pure trivial
      exact wpe_mono hfail (fun _ _ h => ⟨trivial, hs₂.trans h.2⟩) fun _ _ h => hs₂.trans h

theorem safe_queueTeardown (userId : ℕ) (requestedBy : Option ℕ) (account : ω → Option ω) :
    Safe (queueTeardown userId requestedBy account) Knows s := by
  refine safe_bind (M := fun queued s' => ∀ j, queued = some j → Knows j s') ?_ ?_
  · refine safe_statement fun s₁ _ => ?_
    cases account s₁.rest with
    | none => exact ⟨Step.refl s₁, fun j h => by cases h⟩
    | some w =>
      obtain ⟨hstep, hknows⟩ := upsertPending_spec userId requestedBy { s₁ with rest := w }
      refine ⟨(step_rest w).trans hstep, ?_⟩
      rintro j ⟨⟩
      exact hknows
  · intro queued s₁ hqueued _
    cases queued with
    | none => exact safe_throw _
    | some job => exact safe_pure (hqueued job rfl)

theorem safe_disableUser (disable : ℕ → Service ω GatewayTeardown) (userId requestedBy : ℕ)
    (account : ω → Option ω) (hinv : Inv s) :
    Safe (disableUser disable userId requestedBy account) (fun _ _ => True) s := by
  refine safe_bind (safe_queueTeardown _ _ _) fun job s₁ hjob hs₁ => ?_
  refine safe_runGatewayTeardown disable (hs₁.inv hinv) ?_
  rintro j ⟨⟩
  exact hjob

theorem safe_enableUser (userId : ℕ) (account : ω → Option ω) :
    Safe (enableUser userId account) (fun _ _ => True) s := by
  refine safe_statement fun s₁ _ => ⟨?_, trivial⟩
  cases account s₁.rest with
  | none => exact Step.refl s₁
  | some w => exact (step_rest w).trans (step_eraseRow userId)

/-! ## The worker -/

theorem safe_cancelJob (status : ω → ℕ → Option UserStatus) (hknows : Knows job s) :
    Safe (cancelJob status job) (fun _ _ => True) s := by
  refine safe_statement fun s₁ hs₁ => ⟨?_, trivial⟩
  split
  · exact Step.refl s₁
  · exact deleteClaimed_step (hknows.step hs₁)

/-- The worker runs a job under its claim, reschedules it or cancels it. -/
theorem safe_runJob (status : ω → ℕ → Option UserStatus)
    (disable : ℕ → Service ω GatewayTeardown) (jitter : ℕ) (hinv : Inv s) (hknows : Knows job s) :
    Safe (runJob status disable jitter job) (fun _ _ => True) s := by
  refine safe_bind (safe_read _) fun disabled s₁ _ hs₁ => ?_
  have hknows₁ := hknows.step hs₁
  have hcancel : ∀ s', Step s₁ s' → Safe (do
      let _ ← cancelJob status job
      pure () : TeardownService ω Unit) (fun _ _ => True) s' := fun s' hs' =>
    safe_bind (safe_cancelJob status (hknows₁.step hs')) fun _ _ _ _ => safe_pure trivial
  split
  swap
  · exact hcancel s₁ (Step.refl s₁)
  refine safe_bind (safe_runGatewayTeardown disable (hs₁.inv hinv) ?_) fun r s₂ _ hs₂ => ?_
  · rintro j ⟨⟩
    exact hknows₁
  cases r with
  | ok => exact safe_pure trivial
  | noConsumer => exact safe_pure trivial
  | pending error =>
    refine safe_bind (safe_read _) fun settled s₃ _ hs₃ => ?_
    split
    swap
    · exact hcancel s₃ (hs₂.trans hs₃)
    refine safe_bind safe_now fun now s₄ _ hs₄ => ?_
    refine safe_bind (M := fun _ _ => True) ?_ fun _ _ _ _ => safe_pure trivial
    refine safe_statement fun s₅ hs₅ => ⟨?_, trivial⟩
    exact reschedule_step (hknows₁.step (((hs₂.trans hs₃).trans hs₄).trans hs₅)) _ _

theorem safe_runDue (status : ω → ℕ → Option UserStatus)
    (disable : ℕ → Service ω GatewayTeardown) (jitter : ℕ) (due : List ℕ) (hinv : Inv s) :
    Safe (runDue status disable jitter due) (fun _ _ => True) s := by
  induction due generalizing s with
  | nil => exact safe_pure trivial
  | cons userId rest ih =>
    refine safe_bind (M := fun job s' => ∀ j, job = some j → Knows j s') ?_ ?_
    · exact safe_statement fun s₁ hs₁ => claimDue_spec (hs₁.inv hinv) userId
    · intro job s₁ hjob hs₁
      cases job with
      | none => exact safe_pure trivial
      | some job =>
        have hrun := safe_runJob status disable jitter (hs₁.inv hinv) (hjob job rfl)
        refine safe_bind (safe_bestEffort hrun) fun _ s₂ _ hs₂ => ?_
        exact ih ((hs₁.trans hs₂).inv hinv)

theorem safe_tick (status : ω → ℕ → Option UserStatus)
    (disable : ℕ → Service ω GatewayTeardown) (jitter : ℕ) (due : List ℕ) (hinv : Inv s) :
    Safe (tick status disable jitter due) (fun _ _ => True) s := by
  refine safe_bind safe_now fun now s₁ _ hs₁ => ?_
  refine safe_bind (M := fun _ _ => True) ?_ fun _ s₂ _ hs₂ => ?_
  · refine safe_bestEffort (Q := fun _ _ => True) (safe_statement fun s₂ _ => ?_)
    exact ⟨releaseStale_step _, trivial⟩
  · exact safe_runDue status disable jitter due ((hs₁.trans hs₂).inv hinv)

/-! ## Runs -/

/-- The operations of a run: a disable or a retry with its inline attempt, a
compensation that only queues, a re-enable, a worker's tick, any other change
of the portal, and time. -/
inductive TeardownOp (ω : Type)
  | disable (userId requestedBy : ℕ) (account : ω → Option ω)
  | ensureOwed (userId : ℕ) (account : ω → Option ω)
  | enable (userId : ℕ) (account : ω → Option ω)
  | tick (jitter : ℕ) (due : List ℕ)
  | other (f : ω → ω)
  | wait (ms : ℕ)

def teardownProgram (status : ω → ℕ → Option UserStatus)
    (disableGatewayAccess : ℕ → ℕ → Service ω GatewayTeardown) (slot : ℕ) :
    TeardownOp ω → Program (TeardownState ω) Outcome Unit
  | .disable userId requestedBy account =>
    (disableUser (disableGatewayAccess slot) userId requestedBy account).toProgram
  | .ensureOwed userId account => (queueTeardown userId none account).toProgram
  | .enable userId account => (enableUser userId account).toProgram
  | .tick jitter due => (tick status (disableGatewayAccess slot) jitter due).toProgram
  | .other f =>
    (atomic fun s _ => some (.ok (), { s with rest := f s.rest }) :
      TeardownService ω Unit).toProgram
  | .wait ms =>
    (atomic fun s _ => some (.ok (), { s with now := s.now + ms }) :
      TeardownService ω Unit).toProgram

/-- No job yet. -/
def NoJobs (s : TeardownState ω) : Prop :=
  (∀ userId, s.jobs userId = none) ∧ s.settlements = []

theorem Safe.program (h : Safe p Q s) : wp Step Step p.toProgram (fun _ _ => True) s :=
  wp_toProgram (wpe_mono h (fun _ _ _ => trivial) fun _ _ _ => trivial)

theorem safe_teardownProgram (status : ω → ℕ → Option UserStatus)
    (disableGatewayAccess : ℕ → ℕ → Service ω GatewayTeardown) (slot : ℕ) (o : TeardownOp ω)
    (hinv : Inv s) :
    wp Step Step (teardownProgram status disableGatewayAccess slot o) (fun _ _ => True) s := by
  cases o with
  | disable userId requestedBy account =>
    exact (safe_disableUser _ userId requestedBy account hinv).program
  | ensureOwed userId account => exact (safe_queueTeardown userId none account).program
  | enable userId account => exact (safe_enableUser userId account).program
  | tick jitter due => exact (safe_tick status _ jitter due hinv).program
  | other f =>
    refine wp_toProgram ((wpe_atomic _).mpr ?_)
    rintro s₁ - c r s' ⟨⟩
    exact ⟨step_rest _, trivial⟩
  | wait ms =>
    refine wp_toProgram ((wpe_atomic _).mpr ?_)
    rintro s₁ - c r s' ⟨⟩
    exact ⟨⟨le_rfl, le_rfl, Evolves.refl _ _, fun h => ⟨h.rows, h.settlements⟩⟩, trivial⟩

/-- The steps of all slots keep the invariant in every run. -/
theorem inv_of_reachable {status : ω → ℕ → Option UserStatus}
    {disableGatewayAccess : ℕ → ℕ → Service ω GatewayTeardown}
    {ts : ℕ → Option (Program (TeardownState ω) Outcome Unit)}
    (h : Pool.Reachable (teardownProgram status disableGatewayAccess) NoJobs (fun _ _ => True)
      (fun _ s => s) s ts) : Inv s := by
  refine (Pool.invariant (R := fun _ => Step) (G := fun _ => Step) ?_ (fun _ _ _ _ => Step.trans)
    (fun _ _ _ hinv hs => hs.inv hinv) (fun _ _ hinv => hinv) (fun _ _ _ _ _ _ hs => hs)
    (fun _ _ s _ _ => Step.refl s) (fun _ => Step.refl)
    (fun slot _ o hinv _ => safe_teardownProgram status disableGatewayAccess slot o hinv) h).1
  rintro s ⟨hnone, hsettled⟩
  refine ⟨fun userId row hrow => ?_, fun e he => ?_⟩
  · rw [hnone userId] at hrow
    cases hrow
  · rw [hsettled] at he
    cases he

/-- In every run, a settling write changed a row only while it was `sending`
under the generation the attempt claimed, and then it was the row of the
disable the attempt was for; and the run behind a finished row began after the
row was last queued. -/
theorem teardown_generations {status : ω → ℕ → Option UserStatus}
    {disableGatewayAccess : ℕ → ℕ → Service ω GatewayTeardown}
    {ts : ℕ → Option (Program (TeardownState ω) Outcome Unit)}
    (h : Pool.Reachable (teardownProgram status disableGatewayAccess) NoJobs (fun _ _ => True)
      (fun _ s => s) s ts) :
    (∀ e ∈ s.settlements, e.row.status = .sending ∧ e.row.id = e.claim.id ∧
      e.row.generation = e.claim.generation ∧ e.row.queuedAt = e.claim.queuedAt) ∧
    ∀ userId row, s.jobs userId = some row → row.status = .done →
      ∃ startedAt, row.completedBy = some startedAt ∧ row.queuedAt < startedAt := by
  have hinv := inv_of_reachable h
  constructor
  · intro e he
    obtain ⟨hst, hgen, horigin⟩ := hinv.settlements e he
    exact ⟨hst, congrArg Prod.fst horigin, hgen, congrArg Prod.snd horigin⟩
  · intro userId row hrow hdone
    exact (hinv.rows userId row hrow).2.2.2 hdone

/-- A portal with one disabled account and an empty queue. -/
def emptyQueue : TeardownState Unit where
  rest := ()
  jobs := fun _ => none
  fresh := 0
  now := 0
  clock := 0
  settlements := []

/-- The disable by 2 is overtaken by one by 3 before it settles. -/
def overtaken : List (Pool.Event (TeardownOp Unit) Outcome) :=
  .start 0 (.disable 1 2 some) :: List.replicate 4 (.step 0 .ok) ++
    .start 1 (.disable 1 3 some) :: List.replicate 5 (.step 1 .ok) ++
    [.finish 1, .step 0 .ok, .step 0 .ok, .step 0 .ok, .finish 0]

/-- One write has settled the account's job, and it is the later disable's. -/
def completedOnce (s : TeardownState Unit) : Bool :=
  s.settlements.length == 1 &&
    (s.jobs 1).any fun row => row.status == .done && row.requestedBy == some 3

/-- The late settling of the first disable changes nothing. -/
theorem teardown_generations_completed :
    ∃ s : TeardownState Unit, completedOnce s = true ∧
      (∀ e ∈ s.settlements, e.row.status = .sending ∧ e.row.id = e.claim.id ∧
        e.row.generation = e.claim.generation ∧ e.row.queuedAt = e.claim.queuedAt) ∧
      ∀ userId row, s.jobs userId = some row → row.status = .done →
        ∃ startedAt, row.completedBy = some startedAt ∧ row.queuedAt < startedAt := by
  have hinit : Pool.Reachable
      (teardownProgram (fun _ _ => some .disabled) fun _ _ => pure ⟨none, [.assigned 0]⟩) NoJobs
      (fun _ _ => True) (fun _ s => s) emptyQueue fun _ => none :=
    .init ⟨fun _ => rfl, rfl⟩
  obtain ⟨⟨s, ts⟩, hrun, hP⟩ := (Option.any_eq_true (fun x => completedOnce x.1)
    (Pool.exec (teardownProgram (fun _ _ => some .disabled) fun _ _ => pure ⟨none, [.assigned 0]⟩)
      (fun _ s => s) overtaken emptyQueue fun _ => none)).mp (by decide)
  exact ⟨s, hP, teardown_generations (Pool.reachable_exec (fun _ _ => trivial) hinit hrun)⟩

end Generations

end FerrumNexus.Teardown
