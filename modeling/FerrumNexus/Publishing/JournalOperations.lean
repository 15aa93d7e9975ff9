import FerrumNexus.Publishing.JournalSteps

/-!
# Conversions and recoveries keep the ledger

Whole conversions, their undo steps and the recovery of a retained conversion.
A conversion is admitted beside no cleanup journal and runs as the custodian of
its own journal. A recovery reads the stored journal into memory, and is its
custodian from there on. Both end by a transaction that checks the stored
journal again.
-/
namespace FerrumNexus.Publishing

open Saga Saga.Scope Platform

section Converting

variable {J : Type} {slot : ℕ} {v : Desk J}

/-- `p` moves the ledger as it may, and nothing more is asked of it. -/
def Sound {α : Type} (slot : ℕ) (v : Desk J) (p : PublishingService J α) : Prop :=
  (deskScope slot).Does v p (fun _ _ => True) fun _ _ => True

theorem Sound.bind {α β : Type} {A : Desk J → Prop} {p : PublishingService J α}
    {g : α → PublishingService J β} (hp : (deskScope slot).Keeps A p) (hv : A v)
    (hg : ∀ a v', A v' → Sound slot v' (g a)) : Sound slot v (p >>= g) :=
  does_bind ((hp v hv).mono (fun a v' hv' => hg a v' hv') fun _ _ _ => trivial)

variable {f : PublishingState J → Except NexusError (Unit × PublishingState J)}
  {E : NexusError → Desk J → Prop}

/-- A transaction that flags the row, or leaves it. -/
theorem sound_flag (hf : ∀ s s', f s = .ok ((), s') → ∃ api, s' = { s with api } ∧
      ∀ row', api = some row' → s.api = some row' ∨ row'.gatewayState = .repairRequired) :
    Sound slot v (transaction f) := by
  refine desk_transaction ?_ fun _ => trivial
  rintro s rfl a s' hok
  obtain ⟨api, rfl, hapi⟩ := hf s s' hok
  exact ⟨Ledger.guar_of_journals rfl rfl le_rfl rfl rfl hapi, trivial⟩

theorem sound_reportUnrepairableProxy (proxyId : ℕ) :
    Sound slot v (reportUnrepairableProxy proxyId) := by
  refine sound_flag fun s s' hok => ?_
  cases hapi : s.api with
  | none =>
    simp only [hapi] at hok
    cases hok
    exact ⟨s.api, rfl, fun _ h => .inl (hapi ▸ h)⟩
  | some latest =>
    simp only [hapi] at hok
    split_ifs at hok
    · cases hok
      exact ⟨s.api, rfl, fun _ h => .inl (hapi ▸ h)⟩
    · cases hok
      refine ⟨_, rfl, fun row' hrow => .inr ?_⟩
      cases hrow
      rfl

theorem sound_flagRepairRequired (latest : ApiRecord J) :
    Sound slot v (flagRepairRequired latest) := by
  refine sound_flag fun s s' hok => ?_
  cases hapi : s.api with
  | none =>
    simp only [hapi] at hok
    cases hok
    exact ⟨s.api, rfl, fun _ h => .inl (hapi ▸ h)⟩
  | some final =>
    simp only [hapi] at hok
    split_ifs at hok
    · cases hok
      exact ⟨s.api, rfl, fun _ h => .inl (hapi ▸ h)⟩
    · cases hok
      refine ⟨_, rfl, fun row' hrow => .inr ?_⟩
      cases hrow
      rfl

/-- A transaction that ends a conversion checks the stored journal itself. -/
theorem desk_complete (hv : Custodian v) (hf : ∀ s s', f s = .ok ((), s') →
      (∀ r, s.recovery = some r → r.mutations.all (·.acknowledged) = true) ∧
      ∃ api rollbacks, s' = { s with api, recovery := none, rollbacks })
    (hE : ∀ error, E error v) :
    (deskScope slot).Does v (transaction f) (fun _ _ => True) E := by
  refine desk_transaction ?_ hE
  rintro s rfl a s' hok
  obtain ⟨hall, api, rollbacks, rfl⟩ := hf s s' hok
  exact ⟨Ledger.guar_endConversion hv.cleanup hall, trivial⟩

variable [DecidableEq J] {docs : Documents J}

omit [DecidableEq J] in
theorem storedRecoveryComplete_acknowledged {s : PublishingState J}
    {expected : ConversionRecovery J} (h : storedRecoveryComplete s expected = true) :
    ∀ r, s.recovery = some r → r.mutations.all (·.acknowledged) = true := by
  intro r hr
  simp only [storedRecoveryComplete, hr, Option.any_some, Bool.and_eq_true] at h
  exact h.2

theorem desk_completeRollback (proxyId specId : ℕ) (hv : Custodian v) (hE : ∀ error, E error v) :
    (deskScope slot).Does v (completeRollback slot proxyId specId) (fun _ _ => True) E := by
  refine does_bind (reads_readMemory.does (fun recovery => ?_) hE)
  refine desk_complete hv (fun s s' hok => ?_) hE
  cases hapi : s.api with
  | none => simp [hapi] at hok
  | some latest =>
    simp only [hapi] at hok
    split_ifs at hok with _ hcomplete
    cases hok
    exact ⟨storedRecoveryComplete_acknowledged (by simpa using hcomplete), _, _, rfl⟩

omit [DecidableEq J] in
theorem desk_completeOrphan (hv : Custodian v) (hE : ∀ error, E error v) :
    (deskScope slot).Does v completeOrphan (fun _ _ => True) E := by
  refine desk_complete hv (fun s s' hok => ?_) hE
  cases hapi : s.api with
  | some _ => simp [hapi] at hok
  | none =>
    cases hrecovery : s.recovery with
    | none => simp [hapi, hrecovery] at hok
    | some pending =>
      simp only [hapi, hrecovery] at hok
      split_ifs at hok with hall
      cases hok
      refine ⟨?_, none, s.rollbacks, ?_⟩
      · rintro r ⟨⟩
        simpa using hall
      · rw [← hapi]

theorem sound_restoreConversion (api : ApiRecord J) (proxyId specId : ℕ) (hv : Custodian v) :
    Sound slot v (restoreConversion docs slot api proxyId specId) := by
  have hcompletes : ∀ v', Custodian v' →
      Sound slot v' (verifyRestored docs slot api proxyId specId) := by
    intro v' hv'
    refine Sound.bind (reads_storeRead _).keeps hv' fun _ v' hv' => ?_
    refine Sound.bind (reads_readEdge _).keeps hv' fun _ v' hv' => ?_
    refine Sound.bind (reads_readEdge _).keeps hv' fun _ v' hv' => ?_
    refine Sound.bind (reads_require _ _).keeps hv' fun _ v' hv' => ?_
    refine Sound.bind (reads_readEdge _).keeps hv' fun _ v' hv' => ?_
    exact desk_completeRollback proxyId specId hv' fun _ => trivial
  refine Sound.bind reads_assertRecoveryAcknowledged.keeps hv fun _ v hv => ?_
  refine Sound.bind reads_assertBackendEgress.keeps hv fun _ v hv => ?_
  refine Sound.bind reads_conversionBaselineMatches.keeps hv fun matched v hv => ?_
  cases matched with
  | true => exact hcompletes v hv
  | false =>
    refine Sound.bind (custodians.removeConversionPartialLocked (some api)) hv fun _ v hv => ?_
    refine Sound.bind (reads_storeRead _).keeps hv fun row v hv => ?_
    cases row with
    | none =>
      have horphan : Sound slot v completeOrphan := desk_completeOrphan hv fun _ => trivial
      exact does_bind (horphan.mono (fun _ _ _ => does_pure trivial) fun _ _ h => h)
    | some _ =>
      refine Sound.bind (custodians.rebuildConversionLocked api _ _ _ _ _) hv fun _ v hv => ?_
      exact hcompletes v hv

/-- What a conversion finds once it is admitted: its own journal, without an
original authority. -/
structure Admitted (r : ConversionRecovery J) (v : Desk J) : Prop where
  inv : v.ledger.Inv
  cleanup : v.ledger.cleanup = none
  recovery : v.ledger.recovery = some r
  memory : v.memory = some r
  authority : r.originalAuthority = none

variable {r : ConversionRecovery J}

omit [DecidableEq J] in
theorem Admitted.custodian (h : Admitted r v) : Custodian v :=
  custodian_of_stored h.inv h.cleanup h.recovery h.memory

omit [DecidableEq J] in
/-- The original authority is recorded once. -/
theorem Admitted.authorized (h : Admitted r v) (original : Snapshot J) :
    Custodian { v with memory := v.memory.map fun r =>
      { r with originalAuthority := some original } } := by
  have hfits := Ledger.fits_self h.inv h.recovery
  have hagreed := Ledger.agreed_self h.recovery
  refine ⟨h.inv, h.cleanup, by rw [h.recovery]; rfl,
    { r with originalAuthority := some original }, by rw [h.memory, Option.map_some],
    ⟨hfits.acked, hfits.drawn, ?_⟩, hagreed⟩
  intro stored hs
  rw [h.recovery] at hs
  cases hs
  refine ⟨fun m hm _ => ⟨m, hm, rfl⟩, fun stored hstored => ?_⟩
  rw [h.authority] at hstored
  cases hstored

theorem desk_convertAdmitted (hv : Admitted r v) (api : ApiRecord J) (before : Proxy J)
    (plugins : List (PluginConfig J)) (specDocument : Option (SubmittedSpec J))
    (originalSpec : ApiSpecRecord J) (target : Level) (nextAgents : Option J)
    (nextMethods : Option (List String)) :
    (deskScope slot).Does v (convertAdmitted docs slot api before plugins specDocument originalSpec
      target nextAgents nextMethods) (fun _ => Custodian) fun _ => Custodian := by
  have hE : ∀ error : NexusError, Custodian v := fun _ => hv.custodian
  refine does_bind ((idle_whenever (idle_writeEdge _)).does (fun _ => ?_) hE)
  refine does_bind ((reads_readEdge _).does (fun original => ?_) hE)
  refine does_bind ((reads_require _ _).does (fun _ => ?_) hE)
  refine does_bind ((reads_readEdge _).does (fun _ => ?_) hE)
  refine does_bind ((reads_require _ _).does (fun _ => ?_) hE)
  refine does_bind (desk_remember ?_)
  have hrest : (deskScope slot).Keeps Custodian (do
      saveConversionRecovery slot api false
      require (docs.replayable original.resources before.body.id)
        "The original deployment has frozen external references Nexus cannot replay"
      mutateRecoveryDeployment docs slot api .remove before.body.id original none
      let row ← storeRead fun s => s.api
      ensure row.isSome (notFound "API" 0)
      rebuildConversionLocked docs slot api target nextAgents nextMethods false none) := by
    refine (keeps_saveConversionRecovery api).bind fun _ => ?_
    refine (reads_require _ _).keeps.bind fun _ => ?_
    refine (keeps_mutateRecoveryDeployment api _ _ _ _).bind fun _ => ?_
    refine (reads_storeRead _).keeps.bind fun _ => (reads_ensure _ _).keeps.bind fun _ => ?_
    exact custodians.rebuildConversionLocked api _ _ _ _ _
  exact hrest _ (hv.authorized original)

/-- The admission of a conversion flags the row and stores its journal. -/
theorem desk_startConversion {api : ApiRecord J} {Q : Unit → Desk J → Prop} (hinv : v.ledger.Inv)
    (hcleanup : v.ledger.cleanup = none) (hmemory : v.memory = some r) (hr : r.mutations = [])
    (hauthority : r.originalAuthority = none) (hQ : ∀ v', Admitted r v' → Q () v')
    (hE : ∀ error, E error v) :
    (deskScope slot).Does v (saveConversionRecovery slot api true) Q E := by
  refine does_bind (desk_readMemory fun recovery hrecovery => desk_transaction ?_ hE)
  rw [hmemory] at hrecovery
  cases hrecovery
  rintro s rfl a s' hok
  obtain ⟨latest, hapi, hnone, rfl⟩ := saveRecovery_ok hok
  have hfits : (desk slot s).ledger.Fits r := by
    refine ⟨?_, ?_, ?_⟩
    · rw [hr]
      exact fun m hm => absurd hm List.not_mem_nil
    · rw [hr]
      exact fun m hm => absurd hm List.not_mem_nil
    · intro stored hs
      rw [show (desk slot s).ledger.recovery = none from hnone rfl] at hs
      cases hs
  let flagged : Option (ApiRecord J) := some { latest with gatewayState := .repairRequired }
  have hguar : (desk slot s).ledger.Guar
      { (desk slot s).ledger with api := flagged, recovery := some r } := by
    refine Ledger.guar_save hcleanup hfits fun row hrow => ?_
    rw [← Option.some.inj hrow]
  exact ⟨hguar, hQ _ ⟨(hguar hinv).2, hcleanup, rfl, hmemory, hauthority⟩⟩

theorem desk_convertEnforcementLocked (hinv : v.ledger.Inv) (hcleanup : v.ledger.cleanup = none)
    (api : ApiRecord J) (proxyId : ℕ) (target : Level) (document : J) (nextAgents : Option J)
    (nextMethods : Option (List String)) :
    (deskScope slot).Does v (convertEnforcementLocked docs slot api proxyId target document
      nextAgents nextMethods) (fun _ => Custodian) fun _ _ => True := by
  have hE : ∀ error : NexusError, True := fun _ => trivial
  refine does_bind (reads_assertBackendEgress.does (fun _ => ?_) hE)
  refine does_bind ((reads_readEdge _).does (fun found => ?_) hE)
  cases found with
  | none => exact does_throw trivial
  | some before =>
    refine does_bind ((reads_readEdge _).does (fun plugins => ?_) hE)
    refine does_bind ((reads_storeRead _).does (fun current => ?_) hE)
    cases current with
    | none => exact does_throw trivial
    | some originalSpec =>
      refine does_bind ((reads_readEdge _).does (fun specDocument => ?_) hE)
      refine does_bind (desk_openJournal ?_)
      refine does_bind (desk_startConversion hinv hcleanup rfl rfl rfl (fun v' hv' => ?_) hE)
      refine does_bind (does_tryCatch ?_)
      refine (desk_convertAdmitted hv' api before plugins specDocument originalSpec target
        nextAgents nextMethods).mono (fun _ _ h => does_pure h) fun error v hv => ?_
      refine does_bind (does_tryCatch ?_)
      have hundo : Sound slot v (do
          assertRecoveryAcknowledged slot
          let recovery ← readMemory slot
          ensure (recovery.mutations.any (·.kind == .remove)) error
          restoreConversion docs slot api proxyId originalSpec.id) := by
        refine Sound.bind reads_assertRecoveryAcknowledged.keeps hv fun _ v hv => ?_
        refine Sound.bind reads_readMemory.keeps hv fun _ v hv => ?_
        refine Sound.bind (reads_ensure _ _).keeps hv fun _ v hv => ?_
        exact sound_restoreConversion api proxyId originalSpec.id hv
      refine hundo.mono (fun _ _ _ => does_throw trivial) fun _ v _ => ?_
      exact (sound_reportUnrepairableProxy proxyId).mono (fun _ _ _ => does_throw trivial)
        fun _ _ h => h

theorem sound_undoConversion (api : ApiRecord J) (proxyId specId : ℕ) (hv : Custodian v) :
    Sound slot v (undoConversion docs slot api proxyId specId) := by
  refine does_tryCatch ?_
  have hrestores : Sound slot v (do
      let row ← storeRead fun s => s.api
      whenever row.isSome (saveConversionRecovery slot api false)
      restoreConversion docs slot api proxyId specId) := by
    refine Sound.bind (reads_storeRead _).keeps hv fun row v hv => ?_
    refine Sound.bind (keeps_whenever (keeps_saveConversionRecovery api)) hv fun _ v hv => ?_
    exact sound_restoreConversion api proxyId specId hv
  refine hrestores.mono (fun _ _ h => h) fun error v _ => ?_
  exact does_bind ((sound_reportUnrepairableProxy proxyId).mono
    (fun _ _ _ => does_throw trivial) fun _ _ h => h)

end Converting

section Admitting

variable {J : Type} {slot : ℕ} {v : Desk J} {E : NexusError → Desk J → Prop}

theorem desk_loadApi {Q : ApiRecord J → Desk J → Prop}
    (hQ : ∀ api, v.ledger.api = some api → Q api v) (hE : ∀ error, E error v) :
    (deskScope slot).Does v loadApi Q E := by
  refine does_bind (desk_storeRead (fun s hs => ?_) hE)
  cases hapi : s.api with
  | none => exact does_throw (hE _)
  | some api =>
    refine does_pure (hQ api ?_)
    rw [← hs]
    exact hapi

variable [DecidableEq J] {docs : Documents J} {policies : Policies J}

theorem desk_commitConversion (api : ApiRecord J) (patch : ApiShape J → ApiShape J)
    (hv : Custodian v) (hE : ∀ error, E error v) :
    (deskScope slot).Does v (commitConversion api patch) (fun _ _ => True) E := by
  refine desk_complete hv (fun s s' hok => ?_) hE
  cases hapi : s.api with
  | none => simp [hapi] at hok
  | some latest =>
    cases hrecovery : s.recovery with
    | none => simp [hapi, hrecovery] at hok
    | some recovery =>
      simp only [hapi, hrecovery] at hok
      split_ifs at hok with _ hall
      cases hok
      refine ⟨?_, _, s.rollbacks, rfl⟩
      rintro r ⟨⟩
      simpa using hall

/-- A row that is deployed has no journal. -/
theorem sound_updateEnforcement (hinv : v.ledger.Inv) (initial : Option ℕ)
    (p : EnforcementPatch J) : Sound slot v (updateEnforcement docs slot policies initial p) := by
  have hE : ∀ error : NexusError, True := fun _ => trivial
  refine does_bind (desk_loadApi (fun api hapi => ?_) hE)
  cases hproxy : api.ferrumProxyId with
  | none =>
    exact does_throw trivial
  | some proxyId =>
    refine does_bind (does_require (fun hdeployed => ?_) hE)
    have hcleanup : v.ledger.cleanup = none := by
      by_contra hsome
      rcases hinv.cleaning (Option.isSome_iff_ne_none.mpr hsome) api hapi with hnone | hrepair
      · rw [hproxy] at hnone
        cases hnone
      · simp [hrepair] at hdeployed
    refine does_bind (reads_assertBackendEgress.does (fun _ => ?_) hE)
    refine does_bind ((reads_require _ _).does (fun _ => ?_) hE)
    refine does_bind ((reads_storeRead _).does (fun found => ?_) hE)
    cases found with
    | none => exact does_throw trivial
    | some current =>
      refine does_bind ((reads_require _ _).does (fun _ => ?_) hE)
      refine does_bind ((reads_require _ _).does (fun _ => ?_) hE)
      refine does_bind ?_
      refine (desk_convertEnforcementLocked hinv hcleanup api proxyId p.target current.document
        p.agents p.allowedMethods).mono (fun specId v hv => ?_) fun _ _ _ => trivial
      have hundoes : ∀ error, Sound slot v (do
          tryWrites p.undo
          bestEffort (undoConversion docs slot api proxyId specId)
          throw error : PublishingService J Unit) := by
        intro error
        refine does_bind ((idle_tryWrites p.undo).does (fun _ => ?_) fun _ => trivial)
        refine does_bind (does_bestEffort ?_)
        exact (sound_undoConversion api proxyId specId hv).mono (fun _ _ _ => does_throw trivial)
          fun _ _ _ => does_throw trivial
      refine does_tryCatch ?_
      refine does_bind ((idle_runWrites p.writes).does (fun _ => ?_) hundoes)
      exact desk_commitConversion api p.patch hv hundoes

theorem desk_readConversionRecovery {api : ApiRecord J}
    {Q : Option (ConversionRecovery J) → Desk J → Prop}
    (hQ : ∀ stored, v.ledger.recovery = stored → Q stored v) (hE : ∀ error, E error v) :
    (deskScope slot).Does v (readConversionRecovery api) Q E := by
  refine does_bind (desk_storeRead (fun s hs => ?_) hE)
  have hrecovery : v.ledger.recovery = s.recovery := by
    rw [← hs]
    rfl
  cases hstored : s.recovery with
  | none => exact does_pure (hQ none (hrecovery.trans hstored))
  | some recovery =>
    refine does_bind (does_require (fun _ => ?_) hE)
    exact does_pure (hQ (some recovery) (hrecovery.trans hstored))

theorem desk_completeRecovery (latest : ApiRecord J) (current : ApiSpecRecord J)
    (reconciledOriginal : Bool) (hv : Custodian v) (hE : ∀ error, E error v) :
    (deskScope slot).Does v (completeRecovery slot latest current reconciledOriginal)
      (fun _ _ => True) E := by
  refine does_bind (reads_readMemory.does (fun snapshot => ?_) hE)
  refine desk_complete hv (fun s s' hok => ?_) hE
  cases hapi : s.api with
  | none => simp [hapi] at hok
  | some final =>
    simp only [hapi] at hok
    split_ifs at hok with _ hcomplete
    all_goals
      cases hok
      exact ⟨storedRecoveryComplete_acknowledged (by simpa using hcomplete), _, _, rfl⟩

/-- A recovery takes the stored journal into memory, and is its custodian. -/
theorem sound_recoverConversion (hinv : v.ledger.Inv) (hcleanup : v.ledger.cleanup = none)
    (current : ApiSpecRecord J) :
    Sound slot v (recoverConversion docs policies slot current) := by
  have hE : ∀ error : NexusError, True := fun _ => trivial
  refine does_bind (reads_loadApi.does (fun latest => ?_) hE)
  refine does_bind (desk_readConversionRecovery (fun stored hstored => ?_) hE)
  refine does_bind ((reads_storeRead _).does (fun latestSpec => ?_) hE)
  cases stored with
  | none => exact does_throw trivial
  | some snapshot =>
    refine does_bind ((reads_require _ _).does (fun _ => ?_) hE)
    refine does_bind (reads_assertBackendEgress.does (fun _ => ?_) hE)
    refine does_bind (reads_audited.does (fun _ => ?_) hE)
    refine does_bind (desk_openJournal (does_tryCatch ?_))
    have hopened : Custodian { v with memory := some snapshot } :=
      custodian_of_stored hinv hcleanup hstored rfl
    have hflags : ∀ (error : NexusError) v', Sound slot v' (do
        flagRepairRequired latest
        throw error : PublishingService J Unit) := by
      intro error v'
      exact does_bind ((sound_flagRepairRequired latest).mono (fun _ _ _ => does_throw trivial)
        fun _ _ h => h)
    have hthrows : ∀ (error : NexusError) v', Custodian v' → Sound slot v' (do
        flagRepairRequired latest
        throw error : PublishingService J Unit) := fun error v' _ => hflags error v'
    refine does_bind ((custodians.recoverDeployment latest current _ hopened).mono
      (fun rebuilt v hv => ?_) hthrows)
    refine does_bind ((reads_readEdge _).does (fun completed => ?_) fun error => hflags error _)
    refine does_bind ((reads_readEdge _).does (fun e => ?_) fun error => hflags error _)
    refine does_bind ((reads_require _ _).does (fun _ => ?_) fun error => hflags error _)
    refine does_bind ((reads_readEdge _).does (fun _ => ?_) fun error => hflags error _)
    cases rebuilt with
    | true => exact desk_completeRecovery latest current false hv fun error => hflags error _
    | false =>
      refine does_bind ((reads_originalConversionMatches latest current).does (fun _ => ?_)
        fun error => hflags error _)
      exact desk_completeRecovery latest current _ hv fun error => hflags error _

end Admitting

end FerrumNexus.Publishing
