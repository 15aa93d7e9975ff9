import FerrumNexus.Publishing.Conversion

/-!
# Publishing, restoring, converting and removing a deployment

The operations on one API that read, write or finish a recovery journal. All
of them hold the restore key of the API from their first re-read to their last
write, and the key of the proxy inside it, so on one API they never overlap.
`restoreGateway` recovers a retained conversion, clears a stale repair flag, or
builds a missing deployment anew; a rebuild has a cleanup journal of its own for
its conditional cutover and for the removal of a failed attempt. A publish builds
the proxy under an id it mints beforehand, behind a staging path, attaches and
associates the portal's configs, moves the proxy onto the public path and commits
the rows; any failure deletes the proxy again, whether or not its create was
acknowledged.
-/
namespace FerrumNexus.Publishing

open Saga Platform

/-- What a plain rebuild derives from a row: whether the stored document can be
deployed, the proxy's own settings, the first-class configs in the order they
are attached, the config of a palette row, and whether a config is what the
importer may have generated for an attempt. -/
structure Policies (J : Type) where
  restorable : ApiShape J → J → Bool
  settings : ApiShape J → J
  firstClass : ApiShape J → List (PluginConfig J)
  palette : PaletteRow J → PluginConfig J
  generatedMatches : RebuildAttempt J → ListenPath → PluginConfig J → Bool

section Recovery

variable {J : Type} [DecidableEq J] (docs : Documents J) (policies : Policies J) (slot : ℕ)

/-- `readConversionRecovery`: the stored journal, if it is about this row. -/
def readConversionRecovery (api : ApiRecord J) :
    PublishingService J (Option (ConversionRecovery J)) := do
  let stored ← storeRead fun s => s.recovery
  match stored with
  | none => pure none
  | some recovery => do
    require
      ((api.ferrumProxyId == none || api.ferrumProxyId == some recovery.proxy.body.id) &&
        recovery.catalogShape.getD recovery.shape == api.shape)
      "The API changed since its gateway recovery snapshot was recorded"
    pure (some recovery)

/-- `assertUpstreamAllowed`: passes or throws. -/
def assertUpstreamAllowed : PublishingService J Unit := edgeRead fun _ => ()

/-- `originalConversionMatches`. -/
def originalConversionMatches (api : ApiRecord J) (current : ApiSpecRecord J) :
    PublishingService J Bool := do
  let recovery ← readMemory slot
  if recovery.attempt.isSome ∨ recovery.originalSpecId ≠ current.id ∨ api.shape ≠ recovery.shape ∨
      current.document ≠ recovery.document then pure false
  else do
    let live ← readEdge fun e => e.proxies recovery.proxy.body.id
    if live ≠ some recovery.proxy then pure false
    else do
      let plugins ← readEdge fun e => e.listByProxy recovery.proxy.body.id
      if sortConfigs plugins ≠ sortConfigs recovery.plugins then pure false
      else do
        let document ← readEdge fun e =>
          (e.findSpecByProxy recovery.proxy.body.id).map (·.submitted)
        pure (document == recovery.originalSpecDocument)

/-- The corrected document onto a baseline that is still the original. -/
def replaceOriginal (latest : ApiRecord J) (current : ApiSpecRecord J) (live : Option (Proxy J)) :
    PublishingService J Unit := do
  let snapshot ← readMemory slot
  match snapshot.originalAuthority, live, live.bind (·.apiSpecId) with
  | some original, some live, some specId => do
    require
      (snapshotTarget original snapshot.proxy snapshot.plugins snapshot.originalSpecDocument)
      "The gateway deployment changed before its original authority was captured"
    require (docs.replayable original.resources live.body.id)
      "The original deployment has frozen external references Nexus cannot replay"
    let submitted ← buildSpecDocument docs current.document live.body latest.shape.agents
    mutateRecoveryDeployment docs slot latest .replace specId original (some submitted)
  | _, _, _ =>
    throw (conflict "The original conversion has no deployment-v1 replacement authority")

/-- The gateway half of a conversion recovery. It answers whether it rebuilt. -/
def recoverDeployment (latest : ApiRecord J) (current : ApiSpecRecord J) :
    PublishingService J Bool := do
  assertRecoveryAcknowledged slot
  let snapshot ← readMemory slot
  let live ← readEdge fun e => e.proxies snapshot.proxy.body.id
  let e ← readEdge id
  if live.any (deploymentMatches docs e latest.shape current ·
      (listenPathFor latest.shape.slug)) then pure false
  else do
    require (policies.restorable latest.shape current.document)
      "The stored specification cannot be deployed"
    assertUpstreamAllowed
    let matched ← conversionBaselineMatches slot
    if matched then do
      replaceOriginal docs slot latest current live
      pure false
    else do
      removeConversionPartialLocked docs slot none
      -- The immutable original shape is replayed first, then corrected.
      let baseline := { latest with shape := snapshot.shape }
      rebuildConversionLocked docs slot baseline baseline.shape.specEnforcement
        baseline.shape.agents baseline.shape.allowedMethods true
        (some ⟨latest, current, current.document⟩)
      pure true

/-- The end of a recovery: the row is deployed again and the journal is gone. -/
def completeRecovery (latest : ApiRecord J) (current : ApiSpecRecord J)
    (reconciledOriginal : Bool) : PublishingService J Unit := do
  let snapshot ← readMemory slot
  transaction fun s =>
    match s.api with
    | none => .error (conflict "The API changed while its gateway recovery was running")
    | some final =>
      if final.ferrumProxyId ≠ latest.ferrumProxyId ∨ final.shape ≠ latest.shape ∨
          s.currentSpec.map (·.id) ≠ some current.id then
        .error (conflict "The API changed while its gateway recovery was running")
      else if !storedRecoveryComplete s snapshot then
        .error (conflict "The gateway recovery journal changed before its completion could commit")
      else
        let row := { final with
          ferrumProxyId := some snapshot.proxy.body.id, gatewayState := .deployed }
        let rollbacks := if reconciledOriginal then s.rollbacks + 1 else s.rollbacks
        .ok ((), { s with api := some row, recovery := none, rollbacks })

/-- The row of a failed recovery stays flagged. -/
def flagRepairRequired (latest : ApiRecord J) : PublishingService J Unit :=
  transaction fun s =>
    match s.api with
    | none => .ok ((), s)
    | some final =>
      if final.ferrumProxyId ≠ latest.ferrumProxyId then .ok ((), s)
      else
        let row := { final with gatewayState := .repairRequired }
        .ok ((), { s with api := some row })

/-- `restoreGateway` on a retained conversion. -/
def recoverConversion (current : ApiSpecRecord J) : PublishingService J Unit := do
  let latest ← loadApi
  let stored ← readConversionRecovery latest
  let latestSpec ← storeRead fun s => s.currentSpec
  match stored with
  | none => throw (conflict "The API changed while gateway recovery was waiting")
  | some snapshot => do
    require (latestSpec.map (·.id) == some current.id)
      "The API changed while gateway recovery was waiting"
    assertBackendEgress
    -- The `api.gateway_restore_start` row.
    transaction fun s => .ok ((), s)
    openJournal slot snapshot
    tryCatch (do
      let rebuilt ← recoverDeployment docs policies slot latest current
      let completed ← readEdge fun e => e.proxies snapshot.proxy.body.id
      let e ← readEdge id
      require
        (completed.any (deploymentMatches docs e latest.shape current ·
          (listenPathFor latest.shape.slug)))
        "Gateway recovery did not restore the matching API deployment"
      let _ ← readEdge fun e => e.listByProxy snapshot.proxy.body.id
      let reconciledOriginal ←
        if rebuilt then pure false else originalConversionMatches slot latest current
      completeRecovery slot latest current reconciledOriginal) fun error => do
        flagRepairRequired latest
        throw error

end Recovery

section Rebuilds

variable {J : Type} [DecidableEq J] (docs : Documents J) (policies : Policies J) (slot : ℕ)

def readRebuild : PublishingService J (RebuildAttempt J) :=
  atomic fun s _ => (s.rebuild slot).map fun attempt => (.ok attempt, s)

def openRebuild (attempt : RebuildAttempt J) : PublishingService J Unit :=
  atomic fun s _ =>
    some (.ok (), { s with rebuild := Function.update s.rebuild slot (some attempt) })

def noteRebuild (f : RebuildAttempt J → RebuildAttempt J) : PublishingService J Unit :=
  atomic fun s _ =>
    some (.ok (), { s with rebuild := Function.update s.rebuild slot ((s.rebuild slot).map f) })

/-- Whether the recorded proxy is live; if it is, the stale flag is cleared. -/
def clearPresent (api : ApiRecord J) (current : ApiSpecRecord J) (recorded : ℕ) :
    PublishingService J Bool := do
  let latest ← loadApi
  let latestSpec ← storeRead fun s => s.currentSpec
  require
    (latest.ferrumProxyId == some recorded && latestSpec.map (·.id) == some current.id &&
      latest.shape == api.shape)
    "The API changed while gateway validation was waiting"
  let journal ← storeRead fun s => s.recovery.isSome
  require (!journal) "This API has an incomplete gateway conversion; restore it again to recover"
  let found ← readEdge fun e => e.proxies recorded
  match found with
  | none => pure false
  | some live => do
    let e ← readEdge id
    require (deploymentMatches docs e latest.shape current live (listenPathFor latest.shape.slug))
      "The existing proxy does not match the API deployment; operator reconciliation is required"
    require (latest.gatewayState == .repairRequired)
      "This API already has a gateway proxy; there is nothing to restore"
    transaction fun s =>
      match s.api with
      | none => .error (conflict "The API changed during gateway validation")
      | some final =>
        if final.ferrumProxyId ≠ some recorded ∨ s.currentSpec.map (·.id) ≠ some current.id ∨
            final.shape ≠ latest.shape then
          .error (conflict "The API changed during gateway validation")
        else if s.recovery.isSome then
          .error (conflict "This API has an incomplete gateway conversion; restore it again to recover")
        else
          let row := { final with gatewayState := .deployed }
          .ok (true, { s with api := some row })

/-- A confirmed absence drops the recorded reference. -/
def dropReference (recorded : ℕ) : PublishingService J Unit :=
  transaction fun s =>
    match s.api with
    | none => .error (notFound "API" 0)
    | some latest =>
      if latest.ferrumProxyId ≠ some recorded then
        .error (conflict "The gateway reference changed")
      else if s.recovery.isSome then
        .error (conflict "This API has an incomplete gateway conversion; restore it again to recover")
      else
        let row := { latest with ferrumProxyId := none, gatewayState := .repairRequired }
        .ok ((), { s with api := some row })

/-- `attach`. -/
def attach (proxyId : ℕ) (config : PluginConfig J) : PublishingService J ℕ := do
  assertBackendEgress
  let id ← newId
  let written : PluginConfig J := { config with id, proxyId, apiSpecId := none }
  writeEdge (Edge.createConfig written)
  noteRebuild slot fun a => { a with plugins := a.plugins ++ [written] }
  pure id

def attachAll (proxyId : ℕ) : List (PluginConfig J) → PublishingService J (List ℕ)
  | [] => pure []
  | config :: configs => do
    let id ← attach slot proxyId config
    let ids ← attachAll proxyId configs
    pure (id :: ids)

/-- The cutover entry of the cleanup journal. -/
def persistCutover (api : ApiRecord J) (current : ApiSpecRecord J) (journal : CleanupJournal J)
    (start : Bool) : PublishingService J Unit :=
  transaction fun s =>
    match s.api with
    | none => .error (conflict "The restore changed before conditional cutover admission")
    | some latest =>
      if latest.ferrumProxyId ≠ none ∨ latest.shape ≠ api.shape ∨
          s.currentSpec.map (·.id) ≠ some current.id ∨ (start && s.cleanup.isSome) = true then
        .error (conflict "The restore changed before conditional cutover admission")
      else .ok ((), { s with cleanup := some journal })

/-- `conditionalCutover`: journalled, sent, and journalled again. -/
def conditionalCutover (api : ApiRecord J) (current : ApiSpecRecord J) (proxyId : ℕ)
    (original : Snapshot J) (id : ℕ) (document : SubmittedSpec J) : PublishingService J Unit := do
  let call ← newId
  let entry : Mutation J := ⟨.replace, id, original, false, call⟩
  persistCutover api current ⟨proxyId, entry, none⟩ true
  prepare .replace id original
  sendMutation docs call .replace id original (some document)
  persistCutover api current ⟨proxyId, { entry with acknowledged := true }, none⟩ false

/-- The staged proxy of a rebuild, with what a later cleanup compares. -/
def createMissing (api : ApiRecord J) (current : ApiSpecRecord J) (body : ProxyBody J) :
    PublishingService J ℕ :=
  match api.shape.specEnforcement with
  | .routes => do
    let ref ← createSpecOwnedProxy docs current.document body api.shape.agents none fun _ => pure ()
    noteRebuild slot fun a => { a with proxyId := ref.1, specId := some ref.2 }
    let live ← readEdge fun e => e.proxies ref.1
    let document ← readEdge fun e => (e.findSpecByProxy ref.1).map (·.submitted)
    let generated ← readEdge fun e => e.listByProxy ref.1
    noteRebuild slot fun a => { a with proxy := live, specDocument := document, generated }
    pure ref.1
  | .docsOnly => do
    writeEdge (Edge.createProxy body)
    noteRebuild slot fun a => { a with proxy := some ⟨body, [], none⟩ }
    pure body.id

/-- The authority of the conditional cutover: a complete snapshot of the
staged proxy. -/
def stagedAuthority (proxyId : ℕ) : PublishingService J (Snapshot J) := do
  let original ← readEdge Snapshot.mk
  let found ← readEdge fun e => e.proxies proxyId
  match found with
  | none => throw (notFound "Proxy" proxyId)
  | some staged => do
    let plugins ← readEdge fun e => e.listByProxy proxyId
    let document ← readEdge fun e => (e.findSpecByProxy proxyId).map (·.submitted)
    require (snapshotTarget original staged plugins document)
      "The gateway deployment changed before its original authority was captured"
    pure original

/-- The cutover of a rebuild; only a specification is replaced conditionally. -/
def cutOverMissing (api : ApiRecord J) (current : ApiSpecRecord J) (proxyId : ℕ) :
    PublishingService J Unit :=
  match api.shape.specEnforcement with
  | .docsOnly => do
    noteRebuild slot fun a => { a with cutoverStarted := true }
    cutOverToListenPathLocked docs proxyId .docsOnly (listenPathFor api.shape.slug)
      current.document none api.shape.agents (fun _ => pure ()) fun _ _ => pure ()
  | .routes => do
    let original ← stagedAuthority proxyId
    noteRebuild slot fun a => { a with cutoverStarted := true }
    let attempt ← readRebuild slot
    cutOverToListenPathLocked docs proxyId .routes (listenPathFor api.shape.slug)
      current.document attempt.specId api.shape.agents (fun _ => pure ()) fun id submitted => do
        noteRebuild slot fun a => { a with specDocument := some submitted }
        conditionalCutover docs api current proxyId original id submitted

def upsertPalette (row : PaletteRow J) (rows : List (PaletteRow J)) : List (PaletteRow J) :=
  rows.filter (·.pluginName != row.pluginName) ++ [row]

/-- The commit of a rebuild: the row adopts the proxy, the cleanup journal goes
and the palette names the new configs. -/
def adoptRebuild (api : ApiRecord J) (current : ApiSpecRecord J) (proxyId : ℕ)
    (palette : List (PaletteRow J)) : PublishingService J Unit :=
  transaction fun s =>
    match s.api with
    | none => .error (notFound "API" 0)
    | some latest =>
      if latest.ferrumProxyId ≠ none ∨ s.currentSpec.map (·.id) ≠ some current.id ∨
          latest.shape ≠ api.shape then
        .error (conflict
          "This API changed while its gateway deployment was being rebuilt; restore it again")
      else if s.recovery.isSome then
        .error (conflict "This API has an incomplete gateway conversion; restore it again to recover")
      else if s.cleanup.any (!·.entry.acknowledged) then
        .error (conflict "The conditional restore application remains unconfirmed")
      else
        let row := { latest with ferrumProxyId := some proxyId, gatewayState := .deployed }
        let rows := palette.foldl (fun rows entry => upsertPalette entry rows) s.palette
        .ok ((), { s with api := some row, cleanup := none, palette := rows })

/-- The gateway half of a rebuild and its commit. -/
def buildMissing (api : ApiRecord J) (current : ApiSpecRecord J) (body : ProxyBody J)
    (palette : List (PaletteRow J)) : PublishingService J Unit := do
  let proxyId ← createMissing docs slot api current body
  let owned ← attachAll slot proxyId (policies.firstClass api.shape)
  let chosen ← attachAll slot proxyId (palette.map policies.palette)
  associateLocked proxyId (owned ++ chosen)
  cutOverMissing docs slot api current proxyId
  noteRebuild slot fun a => { a with cutoverAcknowledged := true }
  adoptRebuild api current proxyId
    (List.zipWith (fun row id => { row with configId := some id }) palette chosen)

/-- What a failed attempt left is known: its own proxy, configs and document. -/
def attemptKnown (api : ApiRecord J) (attempt : RebuildAttempt J) (attempted : Proxy J)
    (target : Proxy J × List (PluginConfig J) × Option (ApiSpec J)) : Bool :=
  (target.1.body.listenPath == attempted.body.listenPath ||
      target.1.body.listenPath == listenPathFor api.shape.slug) &&
    target.1.body == { attempted.body with listenPath := target.1.body.listenPath } &&
    target.2.1.all (fun plugin => match attempt.plugins.find? (·.id == plugin.id) with
      | some expected => expected == plugin
      | none => plugin.apiSpecId == attempt.specId &&
          policies.generatedMatches attempt target.1.body.listenPath plugin) &&
    (match target.2.2 with
      | some spec => attempt.specDocument == some spec.submitted &&
          spec.submitted.proxy == { attempted.body with listenPath := target.1.body.listenPath }
      | none => attempt.specId.isNone)

/-- The removal entry of the cleanup journal. -/
def persistRemoval (proxyId : ℕ) (entry : Mutation J) : PublishingService J Unit :=
  transaction fun s =>
    if s.cleanup.any (!·.entry.acknowledged) then
      .error (conflict "The failed restore already has pending cleanup")
    else .ok ((), { s with cleanup := some ⟨proxyId, entry, s.cleanup.map (·.entry)⟩ })

/-- The cleanup of a failed rebuild, up to its conditional removal. -/
def withdrawAttempt (api : ApiRecord J) : PublishingService J Unit := do
  let attempt ← readRebuild slot
  require (!(attempt.cutoverStarted && !attempt.cutoverAcknowledged))
    "The failed restore cutover is unconfirmed; retain its identity"
  let original ← readEdge Snapshot.mk
  match original.resources.proxies attempt.proxyId, attempt.proxy with
  | none, _ => pure ()
  | some _, none => throw (conflict "The failed restore lacks acknowledged creation evidence")
  | some present, some attempted =>
    match deploymentTarget original present.body.id with
    | none => throw (conflict "The original deployment ownership is inconsistent")
    | some target => do
      require (attemptKnown policies api attempt attempted target)
        "The failed restore has unknown operator state"
      let call ← newId
      persistRemoval present.body.id ⟨.remove, present.body.id, original, false, call⟩
      prepare .remove present.body.id original
      sendMutation docs call .remove present.body.id original none

/-- The row of a failed rebuild, and the end of its cleanup journal once
nothing of the attempt is left. -/
def recordFailure (stranded : Option ℕ) : PublishingService J Unit :=
  transaction fun s =>
    let api := s.api.map fun latest =>
      if latest.ferrumProxyId = none ∨ latest.ferrumProxyId = stranded then
        { latest with ferrumProxyId := stranded, gatewayState := .repairRequired }
      else latest
    let cleanup := if stranded.isNone then none else s.cleanup
    .ok ((), { s with api, cleanup })

/-- `restoreGateway` on a missing deployment. -/
def rebuildMissing (api : ApiRecord J) (current : ApiSpecRecord J) : PublishingService J Unit := do
  require (policies.restorable api.shape current.document)
    "The stored specification cannot be deployed"
  assertUpstreamAllowed
  let path ← newId
  let palette ← storeRead fun s => s.palette
  let proxyId ← newId
  -- The `api.gateway_restore_start` row.
  transaction fun s => .ok ((), s)
  let body : ProxyBody J := ⟨proxyId, .staging path,
    proxyAllowedMethods api.shape.allowedMethods api.shape.cors, policies.settings api.shape⟩
  openRebuild slot ⟨proxyId, none, none, [], none, [], false, false⟩
  tryCatch (buildMissing docs policies slot api current body palette) fun error => do
    let withdrawn ← attempt (withdrawAttempt docs policies slot api)
    let attempt ← readRebuild slot
    let stranded := match withdrawn with
      | .ok () => none
      | .error _ => some attempt.proxyId
    bestEffort (recordFailure stranded)
    throw error

/-- `restoreGateway`, inside the restore key. -/
def restoreGateway : PublishingService J Unit := do
  let api ← loadApi
  let cleanup ← storeRead fun s => s.cleanup.isSome
  require (!cleanup) "A failed restore has unconfirmed deployment cleanup; retain its journal"
  assertBackendEgress
  let found ← storeRead fun s => s.currentSpec
  match found with
  | none => throw (conflict "This API has no stored specification revision to redeploy")
  | some current => do
    let recovery ← readConversionRecovery api
    if recovery.isSome then recoverConversion docs policies slot current
    else
      match api.ferrumProxyId with
      | none => rebuildMissing docs policies slot api current
      | some recorded => do
        let present ← clearPresent docs api current recorded
        if present then pure () else do
          dropReference recorded
          rebuildMissing docs policies slot api current

end Rebuilds

section Update

variable {J : Type} [DecidableEq J] (docs : Documents J) (slot : ℕ)

/-- The gateway writes of the rest of a PATCH. -/
def runWrites : List (Edge J → Except NexusError (Unit × Edge J)) → PublishingService J Unit
  | [] => pure ()
  | write :: writes => do
    writeEdge write
    runWrites writes

/-- Writes that are each best-effort on their own, as undo steps are. -/
def tryWrites : List (Edge J → Except NexusError (Unit × Edge J)) → PublishingService J Unit
  | [] => pure ()
  | write :: writes => do
    bestEffort (writeEdge write)
    tryWrites writes

/-- The commit of a PATCH that converted: row, ownership and journal at once. -/
def commitConversion (api : ApiRecord J) (patch : ApiShape J → ApiShape J) :
    PublishingService J Unit :=
  transaction fun s =>
    match s.api, s.recovery with
    | some latest, some recovery =>
      if latest.ferrumProxyId ≠ api.ferrumProxyId ∨ latest.shape ≠ api.shape then
        .error (conflict "The API changed before its conversion could commit")
      else if !recovery.mutations.all (·.acknowledged) then
        .error (conflict "A gateway deployment mutation is unconfirmed; retain its original journal")
      else if s.currentSpec.map (·.id) ≠ some (recovery.catalogSpecId.getD recovery.originalSpecId) then
        .error (conflict "The catalog revision changed before its conversion could commit")
      else
        let row := { latest with shape := patch latest.shape, gatewayState := .deployed }
        .ok ((), { s with api := some row, recovery := none })
    | _, _ => .error (conflict "The API changed before its conversion could commit")

/-- A PATCH. `target` is the enforcement level it leaves the API at, `patch` the
row it commits, `writes` and `undo` the gateway writes of its other fields. -/
structure EnforcementPatch (J : Type) where
  target : Level
  agents : Option J
  allowedMethods : Option (List String)
  patch : ApiShape J → ApiShape J
  writes : List (Edge J → Except NexusError (Unit × Edge J))
  undo : List (Edge J → Except NexusError (Unit × Edge J))

/-- `update` with a new `spec_enforcement`, inside its keys. -/
def updateEnforcement (policies : Policies J) (initial : Option ℕ) (p : EnforcementPatch J) :
    PublishingService J Unit := do
  let api ← loadApi
  match api.ferrumProxyId with
  | none => throw (conflict
      "This API has no gateway deployment. Restore it before changing its gateway settings.")
  | some proxyId => do
    require (api.gatewayState != .repairRequired)
      "This API has no gateway deployment. Restore it before changing its gateway settings."
    assertBackendEgress
    require (initial == some proxyId)
      "The gateway proxy changed while this update was waiting; reload and retry"
    let found ← storeRead fun s => s.currentSpec
    match found with
    | none => throw (conflict "This API has no stored specification revision to recover")
    | some current => do
      require (p.target != api.shape.specEnforcement) "There is no conversion to make"
      require (policies.restorable { api.shape with specEnforcement := p.target } current.document)
        "The stored specification cannot be enforced"
      let specId ← convertEnforcementLocked docs slot api proxyId p.target current.document p.agents
        p.allowedMethods
      tryCatch (do
        runWrites p.writes
        commitConversion api p.patch) fun error => do
          tryWrites p.undo
          bestEffort (undoConversion docs slot api proxyId specId)
          throw error

end Update

section Remove

variable {J : Type} [DecidableEq J]

/-- `assertDeletionCustody`: a retained journal is complete, acknowledged and
about this row, and no cleanup is left. -/
def deletionCustody (s : PublishingState J) (api : ApiRecord J) : Bool :=
  (s.recovery.all fun recovery =>
    (api.ferrumProxyId == none || api.ferrumProxyId == some recovery.proxy.body.id) &&
      recovery.catalogShape.getD recovery.shape == api.shape &&
      (recovery.plugins.all fun plugin => plugin.proxyId == recovery.proxy.body.id) &&
      (recovery.originalAuthority.all fun original =>
        snapshotTarget original recovery.proxy recovery.plugins recovery.originalSpecDocument) &&
      (recovery.catalogSpecId.isNone || s.currentSpec.map (·.id) == recovery.catalogSpecId) &&
      recovery.mutations.all (·.acknowledged) &&
      (recovery.attempt.all fun attempt =>
        !recovery.mutations.isEmpty && attempt.observed.isSome)) &&
    s.cleanup.isNone

/-- The best-effort deletes after a proxy is gone, which the gateway's cascade
leaves nothing to do. -/
def sweepConfigs (ids : List ℕ) : PublishingService J Unit :=
  tryWrites (ids.map Edge.deleteConfig)

/-- `remove`, inside its keys. The test identity's teardown writes elsewhere in
the namespace. -/
def remove (initial : Option ℕ) : PublishingService J Unit := do
  let api ← loadApi
  require (api.ferrumProxyId == initial)
    "The gateway proxy changed while this delete was waiting; reload and retry"
  let _ ← storeRead fun s => s.recovery.isSome || s.cleanup.isSome
  transaction fun s =>
    if deletionCustody s api then .ok ((), s)
    else .error (conflict "The API deletion recovery journal is invalid; retain its original custody")
  match api.ferrumProxyId with
  | none => pure ()
  | some proxyId => do
    let attached ← readEdge fun e => e.listByProxy proxyId
    let rows ← storeRead fun s => s.palette
    writeEdge (Edge.deleteProxy proxyId)
    sweepConfigs ((attached.map (·.id)).filter fun id => rows.any (·.configId == some id))
  writeEdge fun e => .ok ((), e.touch)
  transaction fun s =>
    if s.api.isNone then .error (notFound "API" 0)
    else .ok ((), { s with api := none, currentSpec := none, recovery := none, palette := [] })

end Remove

/-! ## Publishing -/

section Publish

variable {J : Type} [DecidableEq J] (docs : Documents J) (policies : Policies J) (slot : ℕ)

/-- The create of a publish. What the gateway answers is what is recorded. -/
def createPublished (shape : ApiShape J) (document : J) (body : ProxyBody J) :
    PublishingService J ℕ :=
  match shape.specEnforcement with
  | .routes => do
    let ref ← createSpecOwnedProxy docs document body shape.agents none fun _ => pure ()
    noteRebuild slot fun created => { created with proxyId := ref.1, specId := some ref.2 }
    pure ref.1
  | .docsOnly => do
    writeEdge (Edge.createProxy body)
    pure body.id

/-- The rows of a published API, in one transaction. -/
def createRow (shape : ApiShape J) (document : J) (proxyId : ℕ) : PublishingService J Unit :=
  transaction fun s =>
    match s.api with
    | some _ => .error (conflict "The API exists already")
    | none =>
      .ok ((), { s with
        api := some ⟨shape, some proxyId, .deployed⟩
        currentSpec := some ⟨s.fresh, document⟩
        fresh := s.fresh + 1 })

/-- The gateway half of a publish, and its rows. -/
def buildPublished (shape : ApiShape J) (document : J) (body : ProxyBody J) :
    PublishingService J Unit := do
  let proxyId ← createPublished docs slot shape document body
  let owned ← attachAll slot proxyId (policies.firstClass shape)
  associateLocked proxyId owned
  let created ← readRebuild slot
  cutOverToListenPathLocked docs proxyId shape.specEnforcement (listenPathFor shape.slug) document
    created.specId shape.agents (fun _ => pure ()) fun specId submitted =>
      writeEdge (Edge.reimportSpec docs.importer specId submitted)
  let created ← readRebuild slot
  createRow shape document created.proxyId

/-- `publish`. What it knows of its attempt is kept like that of a rebuild. -/
def publish (shape : ApiShape J) (document : J) : PublishingService J Unit := do
  require (policies.restorable shape document) "The specification cannot be deployed"
  assertUpstreamAllowed
  assertBackendEgress
  let path ← newId
  assertBackendEgress
  let proxyId ← newId
  let body : ProxyBody J := ⟨proxyId, .staging path,
    proxyAllowedMethods shape.allowedMethods shape.cors, policies.settings shape⟩
  openRebuild slot ⟨proxyId, none, none, [], none, [], false, false⟩
  tryCatch (buildPublished docs policies slot shape document body) fun error => do
    let created ← readRebuild slot
    let deleted ← attempt (writeEdge (Edge.deleteProxy created.proxyId))
    whenever deleted.toBool (sweepConfigs (created.plugins.map (·.id)))
    throw error

end Publish

end FerrumNexus.Publishing
