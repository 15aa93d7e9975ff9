import FerrumNexus.Publishing.Estates

/-!
# Conversions and the proxy they hold

A conversion, its undo and its recovery work on the one proxy the row names:
they remove it, build it again under its own id and finish the journal, and
whichever way they end, the row names it still. `Titled` is what such a request
keeps at every step, and the discipline of a conversion carries it through the
composite ones.
-/
namespace FerrumNexus.Publishing

open Saga Saga.Abstraction Platform

namespace Estate

/-- A request that holds the journal of the proxy the row names. -/
structure Titled (k : Estate) (p : ℕ) (d : Deed) : Prop where
  row : d.row = some (some p)
  allowed : p ∈ d.may
  memory : d.memory = some p
  settled : k.Settled d

/-- The row names the proxy `p`. -/
structure Deeded (k : Estate) (p : ℕ) (d : Deed) : Prop where
  row : d.row = some (some p)
  settled : k.Settled d

end Estate

section Titles

variable {J : Type} {k : Estate} {d : Deed} {p : ℕ} {Q : Unit → Deed → Prop}
  {E : NexusError → Deed → Prop}

theorem Estate.Titled.deeded (h : k.Titled p d) : k.Deeded p d := ⟨h.row, h.settled⟩

/-- Without the proxy the row names nothing is left to account for. -/
theorem Estate.Deeded.without (h : k.Deeded p d) :
    ∀ id ∈ (d.may \ {p}) ∪ k.others, id ∈ k.excused := by
  rintro id (⟨hid, hne⟩ | hid)
  · rcases h.settled id hid with hexcused | hrow
    · exact hexcused
    · rw [h.row] at hrow
      cases hrow
      exact absurd rfl hne
  · exact k.others_excused hid

/-- The row and the journal may change where the row names the same proxy and a
journal that stays is the same. -/
structure Clerical (s s' : PublishingState J) : Prop where
  edge : s'.edge = s.edge
  row : s'.rowProxy = s.rowProxy
  recovery : s'.recovery = s.recovery ∨ s'.recovery = none
  memory : s'.memory = s.memory
  rebuild : s'.rebuild = s.rebuild

theorem Clerical.refl (s : PublishingState J) : Clerical s s := ⟨rfl, rfl, .inl rfl, rfl, rfl⟩

theorem Estate.Fits.clerical {s s' : PublishingState J} (h : k.Fits s d) (hs : Clerical s s') :
    k.Fits s' d ∨ k.Fits s' { d with recovery := none } := by
  have hlive : s'.edge.live ⊆ d.may := hs.edge ▸ h.live
  have hkeyed : s'.edge.Keyed := hs.edge ▸ h.keyed
  have hmemory : (s'.memory k.slot).map (·.proxy.body.id) = d.memory := hs.memory ▸ h.memory
  have hrebuild := h.rebuild
  rw [← hs.rebuild] at hrebuild
  rcases hs.recovery with hsame | hnone
  · refine .inl ⟨hlive, h.others, hkeyed, hs.row.trans h.row, ?_, hmemory, hrebuild, h.titled,
      h.journalled⟩
    rw [hsame]
    exact h.recovery
  · refine .inr ⟨hlive, h.others, hkeyed, hs.row.trans h.row, ?_, hmemory, hrebuild, h.titled, nofun⟩
    rw [hnone]
    rfl

/-- A transaction on the row and the journal alone. -/
theorem keeps_clerical {α : Type} {A : Deed → Prop}
    {f : PublishingState J → Except NexusError (α × PublishingState J)}
    (hA : ∀ d, A d → A { d with recovery := none })
    (hf : ∀ d, A d → ∀ s a s', k.Fits s d → f s = .ok (a, s') → Clerical s s') :
    k.abstraction.Keeps A (transaction f) := by
  intro d hd
  refine holds_transaction (fun s hs a s' hok => ?_) fun _ _ _ _ => hd
  rcases hs.clerical (hf d hd s a s' hs hok) with hfits | hfits
  · exact ⟨d, hfits, hd⟩
  · exact ⟨_, hfits, hA d hd⟩

theorem Estate.Titled.forget (h : k.Titled p d) : k.Titled p { d with recovery := none } :=
  ⟨h.row, h.allowed, h.memory, h.settled⟩

theorem rowProxy_of_api {s : PublishingState J} {api : ApiRecord J} (h : s.api = some api) :
    s.rowProxy = some api.ferrumProxyId := by
  rw [PublishingState.rowProxy, h, Option.map_some]

theorem titled_readMemory {α : Type} {A : Deed → Prop}
    {g : ConversionRecovery J → PublishingService J α} (hA : ∀ d, A d → d.memory = some p)
    (hg : ∀ r, r.proxy.body.id = p → k.abstraction.Keeps A (g r)) :
    k.abstraction.Keeps A (readMemory k.slot >>= g) := by
  intro d hd
  refine does_bind (holds_readMemory fun r hr => ?_)
  have hid : some r.proxy.body.id = some p := hr.symm.trans (hA d hd)
  exact hg r (Option.some.inj hid) d hd

theorem titled_remember {f : ConversionRecovery J → ConversionRecovery J}
    (hf : ∀ r, (f r).proxy = r.proxy) {A : Deed → Prop} :
    k.abstraction.Keeps A (remember k.slot f) :=
  fun _ hd => holds_remember hf hd

variable [DecidableEq J]

/-- Saving the journal in memory. -/
theorem titled_save (api : ApiRecord J) (start : Bool) :
    k.abstraction.Keeps (k.Titled p) (saveConversionRecovery k.slot api start) := by
  refine titled_readMemory (fun _ h => h.memory) fun r hr => ?_
  intro d hd
  refine holds_transaction (fun s hs a s' hok => ?_) fun _ _ _ _ => hd
  obtain ⟨latest, hapi, -, rfl⟩ := saveRecovery_ok hok
  refine ⟨{ d with recovery := some p }, ⟨hs.live, hs.others, hs.keyed, ?_, ?_, hs.memory,
    hs.rebuild, hs.titled, ?_⟩, ⟨hd.row, hd.allowed, hd.memory, hd.settled⟩⟩
  · rw [← hs.row, rowProxy_of_api hapi]
    cases start with
    | true => rfl
    | false => rfl
  · rw [← hr]
    rfl
  · rintro id ⟨⟩
    exact hd.row

theorem titled_persist (api : ApiRecord J) (kind : MutationKind) :
    k.abstraction.Keeps (k.Titled p) (persist k.slot api kind) := by
  refine (keeps_reads (reads_storeRead _)).bind fun row => ?_
  cases row with
  | some _ => exact titled_save api false
  | none =>
    refine (keeps_reads (reads_ensure _ _)).bind fun _ => ?_
    refine titled_readMemory (fun _ h => h.memory) fun r hr => ?_
    intro d hd
    refine holds_transaction (fun s hs a s' hok => ?_) fun _ _ _ _ => hd
    split_ifs at hok
    cases hok
    refine ⟨{ d with recovery := some p }, ⟨hs.live, hs.others, hs.keyed, hs.row, ?_, hs.memory,
      hs.rebuild, hs.titled, ?_⟩, ⟨hd.row, hd.allowed, hd.memory, hd.settled⟩⟩
    · rw [← hr]
      rfl
    · rintro id ⟨⟩
      exact hd.row

theorem titled_mutate (docs : Documents J) (api : ApiRecord J) (kind : MutationKind) (id : ℕ)
    (original : Snapshot J) (document : Option (SubmittedSpec J)) :
    k.abstraction.Keeps (k.Titled p)
      (mutateRecoveryDeployment docs k.slot api kind id original document) := by
  have hreads : k.abstraction.Keeps (k.Titled p) (prepare kind id original) :=
    keeps_reads (reads_prepare kind id original)
  have hpersist : k.abstraction.Keeps (k.Titled p) (persist k.slot api kind) :=
    titled_persist api kind
  refine (keeps_reads reads_assertRecoveryAcknowledged).bind fun _ => ?_
  refine (keeps_reads (reads_require _ _)).bind fun _ => hreads.bind fun _ => ?_
  have hremember : ∀ f : ConversionRecovery J → ConversionRecovery J, (∀ r, (f r).proxy = r.proxy) →
      k.abstraction.Keeps (k.Titled p) (remember k.slot f) := fun f hf => titled_remember hf
  refine deeds_newId.bind fun call => ?_
  let entry : Mutation J := ⟨kind, id, original, false, call⟩
  refine (hremember (pushMutation entry) fun _ => rfl).bind fun _ => hpersist.bind fun _ => ?_
  refine (keeps_attempt hreads).bind fun boundary => ?_
  cases boundary with
  | error error =>
    refine (hremember popMutation fun _ => rfl).bind fun _ => ?_
    refine Keeps.bind (hpersist.tryCatch fun _ => ?_) fun _ => keeps_reads (reads_throw _)
    exact hremember (pushMutation entry) fun _ => rfl
  | ok _ =>
    refine (keeps_sendMutation _ _ _ _ _).bind fun _ => ?_
    refine (hremember (markMutation call true) fun _ => rfl).bind fun _ => ?_
    refine hpersist.tryCatch fun error => ?_
    exact (hremember (markMutation call false) fun _ => rfl).bind fun _ => keeps_reads (reads_throw _)

/-- Whoever holds the title makes no proxy but the one it is about. -/
def titles (k : Estate) (p : ℕ) : ConversionDiscipline J k.slot where
  toDiscipline := k.discipline (k.Titled p)
  held r := r.proxy.body.id = p
  mine id := id = p
  mine_of_held _ h := h
  readMemory hg := titled_readMemory (fun _ h => h.memory) hg
  remember hf := titled_remember fun r => (hf r).1
  save api := titled_save api false
  mutate := titled_mutate
  createProxy body hbody := by
    refine keeps_writeEdge fun d hd => (Edge.adds_createProxy body).mono ?_
    exact Set.singleton_subset_iff.mpr (hbody ▸ hd.allowed)
  importSpec importer submitted hsubmitted := by
    refine keeps_writeEdge fun d hd => (Edge.adds_importSpec importer submitted).mono ?_
    exact Set.singleton_subset_iff.mpr (hsubmitted ▸ hd.allowed)

end Titles

section Conversions

variable {J : Type} [DecidableEq J] {k : Estate} {d : Deed} {p : ℕ} {docs : Documents J}

/-- A completion drops the journal and leaves the row its proxy. -/
theorem titled_completeRollback (proxyId specId : ℕ) :
    k.abstraction.Keeps (k.Titled p) (completeRollback (J := J) k.slot proxyId specId) := by
  refine (keeps_reads reads_readMemory).bind fun recovery => ?_
  refine keeps_clerical (fun _ h => h.forget) fun d hd s a s' hs hok => ?_
  cases hapi : s.api with
  | none => simp [hapi] at hok
  | some latest =>
    simp only [hapi] at hok
    split_ifs at hok
    cases hok
    refine ⟨rfl, ?_, .inr rfl, rfl, rfl⟩
    rw [rowProxy_of_api hapi]
    rfl

omit [DecidableEq J] in
theorem titled_completeOrphan :
    k.abstraction.Keeps (k.Titled p) (completeOrphan (J := J)) := by
  refine keeps_clerical (fun _ h => h.forget) fun d hd s a s' hs hok => ?_
  cases hapi : s.api with
  | some latest => simp [hapi] at hok
  | none =>
    -- The row is there.
    have hrow := hs.row.trans hd.row
    simp [PublishingState.rowProxy, hapi] at hrow

omit [DecidableEq J] in
/-- The row is flagged or left alone. -/
theorem clerical_flag {s : PublishingState J} {latest : ApiRecord J} (hapi : s.api = some latest)
    (gatewayState : GatewayState) :
    Clerical s { s with api := some { latest with gatewayState } } :=
  ⟨rfl, (rowProxy_of_api hapi).symm, .inl rfl, rfl, rfl⟩

omit [DecidableEq J] in
theorem titled_reportUnrepairableProxy (proxyId : ℕ) :
    k.abstraction.Keeps (k.Titled p) (reportUnrepairableProxy (J := J) proxyId) := by
  refine keeps_clerical (fun _ h => h.forget) fun d hd s a s' hs hok => ?_
  cases hapi : s.api with
  | none =>
    simp only [hapi] at hok
    cases hok
    exact Clerical.refl s
  | some latest =>
    simp only [hapi] at hok
    split_ifs at hok
    · cases hok
      exact Clerical.refl s
    · cases hok
      exact clerical_flag hapi _

omit [DecidableEq J] in
theorem titled_flagRepairRequired (api : ApiRecord J) :
    k.abstraction.Keeps (k.Titled p) (flagRepairRequired api) := by
  refine keeps_clerical (fun _ h => h.forget) fun d hd s a s' hs hok => ?_
  cases hapi : s.api with
  | none =>
    simp only [hapi] at hok
    cases hok
    exact Clerical.refl s
  | some latest =>
    simp only [hapi] at hok
    split_ifs at hok
    · cases hok
      exact Clerical.refl s
    · cases hok
      exact clerical_flag hapi _

theorem titled_commitConversion (api : ApiRecord J) (patch : ApiShape J → ApiShape J) :
    k.abstraction.Keeps (k.Titled p) (commitConversion api patch) := by
  refine keeps_clerical (fun _ h => h.forget) fun d hd s a s' hs hok => ?_
  cases hapi : s.api with
  | none => simp [hapi] at hok
  | some latest =>
    cases hrecovery : s.recovery with
    | none => simp [hapi, hrecovery] at hok
    | some recovery =>
      simp only [hapi, hrecovery] at hok
      split_ifs at hok
      cases hok
      exact ⟨rfl, (rowProxy_of_api hapi).symm, .inr rfl, rfl, rfl⟩

theorem titled_completeRecovery (latest : ApiRecord J) (current : ApiSpecRecord J)
    (reconciledOriginal : Bool) :
    k.abstraction.Keeps (k.Titled p) (completeRecovery k.slot latest current reconciledOriginal) := by
  refine titled_readMemory (fun _ h => h.memory) fun r hr => ?_
  refine keeps_clerical (fun _ h => h.forget) fun d hd s a s' hs hok => ?_
  cases hapi : s.api with
  | none => simp [hapi] at hok
  | some final =>
    simp only [hapi] at hok
    split_ifs at hok
    all_goals
      cases hok
      refine ⟨rfl, ?_, .inr rfl, rfl, rfl⟩
      -- The row names the journal's proxy already.
      rw [hs.row, hd.row, ← hr]
      rfl

theorem titled_restoreConversion (api : ApiRecord J) (proxyId specId : ℕ) :
    k.abstraction.Keeps (k.Titled p) (restoreConversion docs k.slot api proxyId specId) := by
  have hcompletes : k.abstraction.Keeps (k.Titled p)
      (verifyRestored docs k.slot api proxyId specId) := by
    refine (keeps_reads (reads_storeRead _)).bind fun current => ?_
    refine (keeps_reads (reads_readEdge _)).bind fun completed => ?_
    refine (keeps_reads (reads_readEdge _)).bind fun e => ?_
    refine (keeps_reads (reads_require _ _)).bind fun _ => ?_
    exact (keeps_reads (reads_readEdge _)).bind fun _ => titled_completeRollback proxyId specId
  refine (keeps_reads reads_assertRecoveryAcknowledged).bind fun _ => ?_
  refine (keeps_reads reads_assertBackendEgress).bind fun _ => ?_
  refine (keeps_reads reads_conversionBaselineMatches).bind fun matched => ?_
  cases matched with
  | true => exact hcompletes
  | false =>
    refine Keeps.bind ((titles k p).removeConversionPartialLocked (some api)) fun _ => ?_
    refine (keeps_reads (reads_storeRead _)).bind fun row => ?_
    cases row with
    | none => exact titled_completeOrphan.bind fun _ => keeps_reads (reads_pure _)
    | some _ =>
      exact Keeps.bind ((titles k p).rebuildConversionLocked api _ _ _ _ _) fun _ => hcompletes

theorem titled_undoConversion (api : ApiRecord J) (proxyId specId : ℕ) :
    k.abstraction.Keeps (k.Titled p) (undoConversion docs k.slot api proxyId specId) := by
  refine Keeps.tryCatch ?_ fun error => ?_
  · refine (keeps_reads (reads_storeRead _)).bind fun row => ?_
    refine Keeps.bind ((k.discipline (k.Titled p)).whenever (titled_save api false)) fun _ => ?_
    exact titled_restoreConversion api proxyId specId
  · exact (titled_reportUnrepairableProxy proxyId).bind fun _ => keeps_reads (reads_throw error)

theorem titled_convertAdmitted (api : ApiRecord J) (before : Proxy J)
    (plugins : List (PluginConfig J)) (specDocument : Option (SubmittedSpec J))
    (originalSpec : ApiSpecRecord J) (target : Level) (nextAgents : Option J)
    (nextMethods : Option (List String)) :
    k.abstraction.Keeps (k.Titled p) (convertAdmitted docs k.slot api before plugins specDocument
      originalSpec target nextAgents nextMethods) := by
  have htouch : k.abstraction.Keeps (k.Titled p)
      (writeEdge fun e : Edge J => .ok ((), e.touch)) :=
    keeps_writeEdge fun _ _ => Edge.adds_touch.of_empty
  refine Keeps.bind ((k.discipline (k.Titled p)).whenever htouch) fun _ => ?_
  refine (keeps_reads (reads_readEdge _)).bind fun original => ?_
  refine (keeps_reads (reads_require _ _)).bind fun _ => ?_
  refine (keeps_reads (reads_readEdge _)).bind fun e => ?_
  refine (keeps_reads (reads_require _ _)).bind fun _ => ?_
  refine Keeps.bind ?_ fun _ => (titled_save api false).bind fun _ => ?_
  · refine titled_remember ?_
    exact fun _ => rfl
  refine (keeps_reads (reads_require _ _)).bind fun _ => ?_
  refine (titled_mutate docs api _ _ _ _).bind fun _ => ?_
  refine (keeps_reads (reads_storeRead _)).bind fun row => ?_
  refine (keeps_reads (reads_ensure _ _)).bind fun _ => ?_
  exact (titles k p).rebuildConversionLocked api _ _ _ _ _

/-- A conversion starts from a proxy the gateway was seen to hold. -/
theorem deeded_convertEnforcementLocked (api : ApiRecord J) (target : Level) (document : J)
    (nextAgents : Option J) (nextMethods : Option (List String)) (hd : k.Deeded p d) :
    k.abstraction.Does d (convertEnforcementLocked docs k.slot api p target document nextAgents
      nextMethods) (fun _ => k.Titled p) fun _ => k.Deeded p := by
  have hthrow : ∀ _ : NexusError, k.Deeded p d := fun _ => hd
  have hdeeded : ∀ (_ : NexusError) (d' : Deed), k.Titled p d' → k.Deeded p d' :=
    fun _ _ h => h.deeded
  refine does_bind (does_reads reads_assertBackendEgress (fun _ => ?_) hthrow)
  refine does_bind (holds_readEdge (fun s hs => ⟨d, hs, ?_⟩) hthrow)
  cases hfound : s.edge.proxies p with
  | none => exact does_throw hd
  | some before =>
    have hid : before.body.id = p := hs.keyed p before hfound
    have hallowed : p ∈ d.may := hs.live (Edge.mem_live.mpr ⟨before, hfound⟩)
    refine does_bind (does_reads (reads_readEdge _) (fun plugins => ?_) hthrow)
    refine does_bind (does_reads (reads_storeRead _) (fun current => ?_) hthrow)
    cases current with
    | none => exact does_throw hd
    | some originalSpec =>
      refine does_bind (does_reads (reads_readEdge _) (fun specDocument => ?_) hthrow)
      refine does_bind (holds_openJournal ?_)
      have htitled : k.Titled p { d with memory := some before.body.id } :=
        ⟨hd.row, hallowed, congrArg some hid, hd.settled⟩
      refine does_bind ((titled_save api true _ htitled).mono (fun _ d hd => ?_) hdeeded)
      refine does_bind ((Keeps.tryCatch (titled_convertAdmitted api before plugins specDocument
        originalSpec target nextAgents nextMethods) (fun error => ?_) d hd).mono
          (fun _ d hd => does_pure hd) hdeeded)
      refine Keeps.bind (Keeps.tryCatch ?_ fun _ => titled_reportUnrepairableProxy p) fun _ =>
        keeps_reads (reads_throw error)
      refine (keeps_reads reads_assertRecoveryAcknowledged).bind fun _ => ?_
      refine (keeps_reads reads_readMemory).bind fun recovery => ?_
      refine (keeps_reads (reads_ensure _ _)).bind fun _ => ?_
      exact titled_restoreConversion api p originalSpec.id

/-- An update that converts ends with the row naming the same proxy. -/
theorem settled_updateEnforcement {policies : Policies J} (initial : Option ℕ)
    (patch : EnforcementPatch J) (hwrites : ∀ write ∈ patch.writes, Edge.Adds ∅ write)
    (hundo : ∀ write ∈ patch.undo, Edge.Adds ∅ write) (hd : k.Settled d) :
    k.abstraction.Does d (updateEnforcement docs k.slot policies initial patch)
      (fun _ => k.Settled) fun _ => k.Settled := by
  have hthrow : ∀ _ : NexusError, k.Settled d := fun _ => hd
  refine does_bind (holds_loadApi (fun api hrow => ?_) hthrow)
  cases hproxy : api.ferrumProxyId with
  | none => exact does_throw hd
  | some proxyId =>
    have hdeeded : k.Deeded proxyId d := ⟨hproxy ▸ hrow, hd⟩
    refine does_bind (does_reads (reads_require _ _) (fun _ => ?_) hthrow)
    refine does_bind (does_reads reads_assertBackendEgress (fun _ => ?_) hthrow)
    refine does_bind (does_reads (reads_require _ _) (fun _ => ?_) hthrow)
    refine does_bind (does_reads (reads_storeRead _) (fun found => ?_) hthrow)
    cases found with
    | none => exact does_throw hd
    | some current =>
      refine does_bind (does_reads (reads_require _ _) (fun _ => ?_) hthrow)
      refine does_bind (does_reads (reads_require _ _) (fun _ => ?_) hthrow)
      refine does_bind ((deeded_convertEnforcementLocked api _ _ _ _ hdeeded).mono
        (fun specId d hd => ?_) fun _ _ h => h.settled)
      have hcommits : k.abstraction.Keeps (k.Titled proxyId) (do
          runWrites patch.writes
          commitConversion api patch.patch) :=
        (keeps_runWrites hwrites).bind fun _ => titled_commitConversion api patch.patch
      refine (hcommits.tryCatch (fun error => ?_) d hd).mono (fun _ _ h => h.settled)
        fun _ _ h => h.settled
      refine (keeps_tryWrites hundo).bind fun _ => ?_
      refine (keeps_bestEffort (titled_undoConversion api proxyId specId)).bind fun _ => ?_
      exact keeps_reads (reads_throw error)

/-- A retained journal is about the proxy the row names. -/
theorem holds_readConversionRecovery {Q : Option (ConversionRecovery J) → Deed → Prop}
    {E : NexusError → Deed → Prop} (api : ApiRecord J) (hnone : Q none d)
    (hsome : ∀ r, d.recovery = some r.proxy.body.id → Q (some r) d) (hE : ∀ error, E error d) :
    k.abstraction.Does d (readConversionRecovery api) Q E := by
  refine does_bind (holds_storeRead fun s hs => ?_)
  cases hrecovery : s.recovery with
  | none => exact does_pure hnone
  | some recovery =>
    refine does_bind (does_reads (reads_require _ _) (fun _ => ?_) hE)
    refine does_pure (hsome recovery ?_)
    rw [← hs.recovery, hrecovery, Option.map_some]

omit [DecidableEq J] in
/-- The proxy the row names may always be live. -/
theorem Estate.Fits.allow {s : PublishingState J} (h : k.Fits s d) (hrow : d.row = some (some p)) :
    k.Fits s { d with may := insert p d.may } := by
  refine ⟨h.live.trans (Set.subset_insert _ _), h.others.trans (Set.subset_insert _ _), h.keyed,
    h.row, h.recovery, h.memory, h.rebuild, ?_, h.journalled⟩
  rintro id (rfl | hid)
  · exact .inr (.inl hrow)
  · exact h.titled id hid

/-- Once the journal is admitted, a recovery holds the title. -/
theorem titled_recoverDeployment {policies : Policies J} (latest : ApiRecord J)
    (current : ApiSpecRecord J) (snapshot : ConversionRecovery J) :
    k.abstraction.Keeps (k.Titled p) (do
      let rebuilt ← recoverDeployment docs policies k.slot latest current
      let completed ← readEdge fun e => e.proxies snapshot.proxy.body.id
      let e ← readEdge id
      require
        (completed.any (deploymentMatches docs e latest.shape current ·
          (listenPathFor latest.shape.slug)))
        "Gateway recovery did not restore the matching API deployment"
      let _ ← readEdge fun e => e.listByProxy snapshot.proxy.body.id
      let reconciledOriginal ←
        if rebuilt then pure false else originalConversionMatches k.slot latest current
      completeRecovery k.slot latest current reconciledOriginal) := by
  refine Keeps.bind ((titles k p).recoverDeployment latest current) fun rebuilt => ?_
  refine (keeps_reads (reads_readEdge _)).bind fun completed => ?_
  refine (keeps_reads (reads_readEdge _)).bind fun e => ?_
  refine (keeps_reads (reads_require _ _)).bind fun _ => ?_
  refine (keeps_reads (reads_readEdge _)).bind fun _ => ?_
  cases rebuilt with
  | true => exact titled_completeRecovery latest current false
  | false =>
    refine (keeps_reads (reads_originalConversionMatches latest current)).bind fun reconciled => ?_
    exact titled_completeRecovery latest current reconciled

theorem settled_recoverConversion {policies : Policies J} (current : ApiSpecRecord J)
    (hd : k.Settled d) :
    k.abstraction.Does d (recoverConversion docs policies k.slot current)
      (fun _ => k.Settled) fun _ => k.Settled := by
  have hthrow : ∀ _ : NexusError, k.Settled d := fun _ => hd
  refine does_bind (holds_loadApi (fun latest _ => ?_) hthrow)
  refine does_bind (holds_readConversionRecovery latest ?_ (fun snapshot hsnapshot => ?_) hthrow)
  · exact does_bind (does_reads (reads_storeRead _) (fun _ => does_throw hd) hthrow)
  · refine does_bind (does_reads (reads_storeRead _) (fun latestSpec => ?_) hthrow)
    refine does_bind (does_reads (reads_require _ _) (fun _ => ?_) hthrow)
    refine does_bind (does_reads reads_assertBackendEgress (fun _ => ?_) hthrow)
    refine does_bind (does_reads reads_audited (fun _ => ?_) hthrow)
    refine does_bind (holds_openJournal ?_)
    let p := snapshot.proxy.body.id
    intro s hs
    have hrow : d.row = some (some p) := hs.journalled p hsnapshot
    have htitled : k.Titled p { d with memory := some p, may := insert p d.may } := by
      refine ⟨hrow, Set.mem_insert _ _, rfl, ?_⟩
      rintro id (rfl | hid)
      · exact .inr hrow
      · exact hd id hid
    have hfits : k.Fits s { d with memory := some p, may := insert p d.may } := hs.allow hrow
    have hflags : ∀ error : NexusError, k.abstraction.Keeps (k.Titled p) (do
        flagRepairRequired latest
        throw error : PublishingService J Unit) := fun error =>
      (titled_flagRepairRequired latest).bind fun _ => keeps_reads (reads_throw error)
    exact ((titled_recoverDeployment latest current snapshot).tryCatch hflags _ htitled).mono
      (fun _ _ h => h.settled) (fun _ _ h => h.settled) s hfits

end Conversions

end FerrumNexus.Publishing
