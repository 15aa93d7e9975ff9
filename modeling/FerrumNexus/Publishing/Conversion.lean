import FerrumNexus.Publishing.Gateway

/-!
# Converting a proxy between enforcement levels

Edge can neither attach a specification to a proxy nor detach one, so a change
of `spec_enforcement` removes the proxy and builds it again under its own id:
at a staging path, with its hand-owned configs recreated one by one, and moved
onto the public path last. The original resources are journalled in the store
before anything is touched. Owner writes are conditional on the namespace
token of a snapshot taken earlier, and each one is journalled as pending before
it is sent. The journal the request edits is an object in memory that nested
helpers change and save, so it is a part of the state; `slot` says whose.
-/
namespace FerrumNexus.Publishing

open Saga Platform

/-- `deploymentShape`: what of an API row shapes its proxy. `rest` is the
upstream, the auth plugin, the quota and the remaining settings. -/
structure ApiShape (J : Type) where
  slug : String
  specEnforcement : Level
  agents : Option J
  allowedMethods : Option (List String)
  cors : Option J
  rest : J
  deriving DecidableEq

inductive GatewayState
  | deployed
  | repairRequired
  deriving DecidableEq, Repr

structure ApiRecord (J : Type) where
  shape : ApiShape J
  ferrumProxyId : Option ℕ
  gatewayState : GatewayState
  deriving DecidableEq

/-- The current row of `api_specs`, with its parsed document. -/
structure ApiSpecRecord (J : Type) where
  id : ℕ
  document : J
  deriving DecidableEq

/-- `EdgeDeploymentSnapshot`: the namespace as it was, and its token. -/
structure Snapshot (J : Type) where
  resources : Edge J

def Snapshot.etag {J : Type} (original : Snapshot J) : ℕ := original.resources.etag

inductive MutationKind
  | remove
  | replace
  deriving DecidableEq, Repr

/-- A conditional request. `call` tells two of them apart in proofs. -/
structure Request where
  kind : MutationKind
  id : ℕ
  call : ℕ
  deriving DecidableEq, Repr

/-- A journalled conditional write. -/
structure Mutation (J : Type) where
  kind : MutationKind
  id : ℕ
  original : Snapshot J
  acknowledged : Bool
  call : ℕ

def Mutation.request {J : Type} (mutation : Mutation J) : Request :=
  ⟨mutation.kind, mutation.id, mutation.call⟩

/-- The resources an acknowledged step left, under a complete snapshot. -/
structure Observed (J : Type) where
  proxy : Proxy J
  plugins : List (PluginConfig J)
  document : Option (SubmittedSpec J)
  authority : Snapshot J

/-- The staged rebuild. Fingerprints are taken to be injective, so the digests
are the documents. -/
structure Attempt (J : Type) where
  level : Level
  agents : Option J
  proxy : ProxyBody J
  documentDigests : List (SubmittedSpec J)
  specId : Option ℕ
  observed : Option (Observed J)

/-- The recovery journal of a conversion. -/
structure ConversionRecovery (J : Type) where
  shape : ApiShape J
  catalogShape : Option (ApiShape J)
  originalSpecId : ℕ
  catalogSpecId : Option ℕ
  originalSpecDocument : Option (SubmittedSpec J)
  proxy : Proxy J
  plugins : List (PluginConfig J)
  document : J
  attempt : Option (Attempt J)
  originalAuthority : Option (Snapshot J)
  mutations : List (Mutation J)

/-- The `gateway_restore_cleanup` journal of a plain rebuild: its conditional
cutover, or the removal of a failed attempt, which keeps the cutover that came
before it. -/
structure CleanupJournal (J : Type) where
  proxyId : ℕ
  entry : Mutation J
  cutover : Option (Mutation J)

/-- A row of `api_plugins`. -/
structure PaletteRow (J : Type) where
  pluginName : String
  enabled : Bool
  config : J
  trigger : Option J
  configId : Option ℕ
  deriving DecidableEq

/-- What a plain rebuild knows of its own attempt when it fails. -/
structure RebuildAttempt (J : Type) where
  proxyId : ℕ
  specId : Option ℕ
  proxy : Option (Proxy J)
  plugins : List (PluginConfig J)
  specDocument : Option (SubmittedSpec J)
  generated : List (PluginConfig J)
  cutoverStarted : Bool
  cutoverAcknowledged : Bool

/-- One API, the gateway, the journals in the store, and what requests hold in
memory. `rollbacks` counts the `api.gateway_conversion_rollback` rows of the
audit log that name the proxy; `sent` and `acked` are the conditional requests
the gateway was sent and those it acknowledged. -/
structure PublishingState (J : Type) where
  edge : Edge J
  api : Option (ApiRecord J)
  currentSpec : Option (ApiSpecRecord J)
  palette : List (PaletteRow J)
  recovery : Option (ConversionRecovery J)
  cleanup : Option (CleanupJournal J)
  memory : ℕ → Option (ConversionRecovery J)
  rebuild : ℕ → Option (RebuildAttempt J)
  fresh : ℕ
  rollbacks : ℕ
  sent : List Request
  acked : List Request

/-- What the portal computes from documents and what the importer makes of
them: how a document is rewritten for submission, the `x-ferrum-plugins` it is
given for the live configs and the owning specification, how those are merged
with preserved ones, the importer, the part of `deploymentMatches` that
compares names, backend and plugin policies, whether a selection has tools
without an exposure id, and `assertReplayableReferences`. -/
structure Documents (J : Type) where
  rewrite : J → Option J → J
  policy : J → Option J → List (PluginConfig J) → Option ℕ → List (PluginConfig J)
  preserve : List (PluginConfig J) → List (PluginConfig J) → List (PluginConfig J)
  importer : SubmittedSpec J → List (PluginConfig J)
  policyMatches : Edge J → ApiShape J → ApiSpecRecord J → Proxy J → Bool
  unenrolled : J → Bool
  replayable : Edge J → ℕ → Bool

abbrev PublishingService (J α : Type) := Service (PublishingState J) α

def listenPathFor (slug : String) : ListenPath := .slug slug

def proxyAllowedMethods {J : Type} (methods : Option (List String)) (cors : Option J) :
    Option (List String) :=
  methods.map fun methods =>
    if cors.isNone || methods.contains "OPTIONS" then methods else methods ++ ["OPTIONS"]

section Calls

variable {J : Type} {α : Type}

/-- A gateway read of the whole state it may need. -/
def readEdge (f : Edge J → α) : PublishingService J α := edgeRead fun s => f s.edge

def writeEdge (f : Edge J → Except NexusError (α × Edge J)) : PublishingService J α :=
  edgeWrite fun s => match f s.edge with
    | .ok (a, e) => .ok (a, { s with edge := e })
    | .error e => .error e

/-- A conditional write. It was sent whatever comes of it; only an answer
acknowledges it. -/
def sendConditional (request : Request) (f : Edge J → Except NexusError (Unit × Edge J)) :
    PublishingService J Unit :=
  atomic fun s o =>
    let logged := { s with sent := request :: s.sent }
    match o, f s.edge with
    | .ok, .ok (_, e) => some (.ok (), { logged with edge := e, acked := request :: s.acked })
    | .ok, .error error => some (.error error, logged)
    | .refused st, _ => some (.error (edgeFailure st), logged)
    | .lost st, .ok (_, e) =>
      if definiteRefusal st then none else some (.error (edgeFailure st), { logged with edge := e })
    | .lost _, .error error => some (.error error, logged)
    | .down, _ => some (.error (edgeFailure none), logged)

section Sending

variable {R G : PublishingState J → PublishingState J → Prop}
  {E : NexusError → PublishingState J → Prop} {s : PublishingState J} {request : Request}

theorem wpe_writeEdge {f : Edge J → Except NexusError (α × Edge J)}
    {Q : α → PublishingState J → Prop}
    (hok : ∀ s₁, R s s₁ → ∀ a e, f s₁.edge = .ok (a, e) → G s₁ { s₁ with edge := e } ∧
      Q a { s₁ with edge := e } ∧ ∀ error, E error { s₁ with edge := e })
    (herr : ∀ s₁, R s s₁ → G s₁ s₁ ∧ ∀ error, E error s₁) :
    wpe R G (writeEdge f) Q E s := by
  refine wpe_edgeWrite (fun s₁ hr a s' hf => ?_) (fun s₁ hr e _ => (herr s₁ hr).2 e)
    fun s₁ hr => ⟨(herr s₁ hr).1, fun _ => (herr s₁ hr).2 _⟩
  split at hf
  · rename_i a e hfe
    cases hf
    obtain ⟨hG, hQ, hE⟩ := hok s₁ hr a e hfe
    exact ⟨hG, hQ, fun _ _ => hE _⟩
  · cases hf

theorem wpe_sendConditional {f : Edge J → Except NexusError (Unit × Edge J)}
    {Q : Unit → PublishingState J → Prop}
    (hok : ∀ s₁, R s s₁ → ∀ e, f s₁.edge = .ok ((), e) →
      let logged := { s₁ with sent := request :: s₁.sent, edge := e }
      let acked := { logged with acked := request :: s₁.acked }
      (G s₁ acked ∧ Q () acked) ∧ G s₁ logged ∧ ∀ error, E error logged)
    (herr : ∀ s₁, R s s₁ → let logged := { s₁ with sent := request :: s₁.sent }
      G s₁ logged ∧ ∀ error, E error logged) :
    wpe R G (sendConditional request f) Q E s := by
  rw [sendConditional, wpe_atomic]
  intro s₁ hr c r s' hstep
  obtain ⟨hG, hE⟩ := herr s₁ hr
  split at hstep
  · rename_i e hfe
    cases hstep
    exact (hok s₁ hr e hfe).1
  · cases hstep
    exact ⟨hG, hE _⟩
  · cases hstep
    exact ⟨hG, hE _⟩
  · rename_i st e hfe
    split at hstep
    · contradiction
    · cases hstep
      exact ⟨(hok s₁ hr e hfe).2.1, (hok s₁ hr e hfe).2.2 _⟩
  · cases hstep
    exact ⟨hG, hE _⟩
  · cases hstep
    exact ⟨hG, hE _⟩

end Sending

/-- `edge.assertBackendEgress()`: passes or throws. -/
def assertBackendEgress : PublishingService J Unit := readEdge fun _ => ()

/-- A check that throws without touching anything. -/
def require (condition : Bool) (message : String) : PublishingService J Unit :=
  ensure condition (conflict message)

theorem does_require {ν : Type} {o : Scope (PublishingState J) ν} {v : ν} {Q : Unit → ν → Prop}
    {E : NexusError → ν → Prop} {condition : Bool} {message : String}
    (hQ : condition = true → Q () v) (hE : ∀ error, E error v) :
    o.Does v (require condition message) Q E :=
  does_ensure hQ (hE _)

/-- The journal object of the running request. -/
def readMemory (slot : ℕ) : PublishingService J (ConversionRecovery J) :=
  atomic fun s _ => (s.memory slot).map fun recovery => (.ok recovery, s)

/-- A request starts a journal of its own. -/
def openJournal (slot : ℕ) (recovery : ConversionRecovery J) : PublishingService J Unit :=
  atomic fun s _ =>
    some (.ok (), { s with memory := Function.update s.memory slot (some recovery) })

def editMemory (slot : ℕ) (f : ConversionRecovery J → ConversionRecovery J)
    (s : PublishingState J) : PublishingState J :=
  { s with memory := Function.update s.memory slot ((s.memory slot).map f) }

def remember (slot : ℕ) (f : ConversionRecovery J → ConversionRecovery J) : PublishingService J Unit :=
  atomic fun s _ => some (.ok (), editMemory slot f s)

def editAttempt (f : Attempt J → Attempt J) (recovery : ConversionRecovery J) :
    ConversionRecovery J :=
  { recovery with attempt := recovery.attempt.map f }

/-- A fresh id of the portal. -/
def newId : PublishingService J ℕ :=
  atomic fun s _ => some (.ok s.fresh, { s with fresh := s.fresh + 1 })

end Calls

section Comparisons

variable {J : Type} [DecidableEq J]

/-- The association list is compared as a set with its order removed. -/
def sortIds (ids : List ℕ) : List ℕ := ids.insertionSort (· ≤ ·)

def sortConfigs (configs : List (PluginConfig J)) : List (PluginConfig J) :=
  configs.insertionSort fun a b => a.id ≤ b.id

/-- `deploymentProxyShape`. -/
def deploymentProxyShape (proxy : Proxy J) : Proxy J :=
  { proxy with plugins := sortIds proxy.plugins }

/-- `deploymentTarget`: the proxy a snapshot holds, its configs and its
specification, when they own each other consistently. -/
def deploymentTarget (original : Snapshot J) (id : ℕ) :
    Option (Proxy J × List (PluginConfig J) × Option (ApiSpec J)) :=
  let resources := original.resources
  match resources.proxies id with
  | none => none
  | some proxy =>
    let specs := resources.specs.filter (·.proxyId == id)
    let plugins := resources.listByProxy id
    if specs.length > 1 || (specs.head?.map (·.id)) != proxy.apiSpecId ||
        plugins.any (fun p => p.apiSpecId != none && p.apiSpecId != proxy.apiSpecId) ||
        proxy.plugins.any (fun i => !plugins.any (·.id == i)) then none
    else some (proxy, plugins, specs.head?)

/-- `assertSnapshotTarget`. -/
def snapshotTarget (original : Snapshot J) (proxy : Proxy J) (plugins : List (PluginConfig J))
    (document : Option (SubmittedSpec J)) : Bool :=
  match deploymentTarget original proxy.body.id with
  | none => false
  | some target =>
    deploymentProxyShape target.1 == deploymentProxyShape proxy &&
      sortConfigs target.2.1 == sortConfigs plugins &&
      target.2.2.map (·.submitted) == document

/-- The comparisons of `deploymentMatches`. -/
def deploymentMatches (docs : Documents J) (e : Edge J) (shape : ApiShape J)
    (current : ApiSpecRecord J) (live : Proxy J) (expectedPath : ListenPath) : Bool :=
  live.body.listenPath == expectedPath &&
    live.body.allowedMethods == proxyAllowedMethods shape.allowedMethods shape.cors &&
    (match shape.specEnforcement with
      | .docsOnly => (e.findSpecByProxy live.body.id).isNone && live.apiSpecId == none
      | .routes => (e.findSpecByProxy live.body.id).any fun spec => live.apiSpecId == some spec.id) &&
    docs.policyMatches e shape current live

end Comparisons

section Journal

variable {J : Type} [DecidableEq J] (docs : Documents J) (slot : ℕ)

/-- The transaction of `saveConversionRecovery`; `start` admits a new
conversion. -/
def saveRecovery (recovery : ConversionRecovery J) (api : ApiRecord J) (start : Bool)
    (s : PublishingState J) : Except NexusError (Unit × PublishingState J) :=
  match s.api with
  | none => .error (notFound "API" 0)
  | some latest =>
    if latest.ferrumProxyId ≠ api.ferrumProxyId ∨
        latest.shape ≠ recovery.catalogShape.getD recovery.shape then
      .error (conflict "The API gateway reference changed during conversion")
    else if start && s.recovery.isSome then
      .error (conflict "This API already has an incomplete gateway conversion to recover")
    else if recovery.catalogSpecId.isSome ∧
        s.currentSpec.map (·.id) ≠ recovery.catalogSpecId then
      .error (conflict "The API specification changed before gateway recovery admission")
    else if start ∧ s.currentSpec ≠ some ⟨recovery.originalSpecId, recovery.document⟩ then
      .error (conflict "The API specification changed during conversion")
    else
      let marked := if start then { latest with gatewayState := .repairRequired } else latest
      .ok ((), { s with recovery := some recovery, api := some marked })

theorem saveRecovery_ok {recovery : ConversionRecovery J} {api : ApiRecord J} {start : Bool}
    {s s' : PublishingState J} (h : saveRecovery recovery api start s = .ok ((), s')) :
    ∃ latest, s.api = some latest ∧ (start = true → s.recovery = none) ∧
      s' = { s with
        recovery := some recovery
        api := some (if start then { latest with gatewayState := .repairRequired } else latest) } := by
  cases hapi : s.api with
  | none => simp [saveRecovery, hapi] at h
  | some latest =>
    cases start with
    | true =>
      simp only [saveRecovery, hapi, Bool.true_and, if_true] at h
      split_ifs at h with _ hstarted
      cases h
      exact ⟨latest, rfl, fun _ => by simpa using hstarted, rfl⟩
    | false =>
      simp only [saveRecovery, hapi, Bool.false_and, Bool.false_eq_true, if_false] at h
      split_ifs at h
      cases h
      exact ⟨latest, rfl, nofun, rfl⟩

def saveConversionRecovery (api : ApiRecord J) (start : Bool) : PublishingService J Unit := do
  let recovery ← readMemory slot
  transaction (saveRecovery recovery api start)

/-- `assertRecoveryAcknowledged`, of the object in memory. -/
def assertRecoveryAcknowledged : PublishingService J Unit := do
  let recovery ← readMemory slot
  require (recovery.mutations.all (·.acknowledged))
    "A gateway deployment mutation is unconfirmed; retain its original journal"

/-- `observeConversionAttempt`: freeze what an acknowledged step left. -/
def observeConversionAttempt (api : ApiRecord J) : PublishingService J Unit := do
  let recovery ← readMemory slot
  let found ← readEdge fun e => e.proxies recovery.proxy.body.id
  match found, recovery.attempt with
  | some proxy, some attempt => do
    let plugins ← readEdge fun e => e.listByProxy proxy.body.id
    let document ← readEdge fun e => (e.findSpecByProxy proxy.body.id).map (·.submitted)
    require
      ((proxy.body.listenPath == attempt.proxy.listenPath ||
          proxy.body.listenPath == recovery.proxy.body.listenPath) &&
        proxy.body == { attempt.proxy with listenPath := proxy.body.listenPath } &&
        document.all (attempt.documentDigests.contains ·) &&
        (handOwnedPlugins plugins).all fun plugin =>
          recovery.plugins.find? (·.id == plugin.id) == some plugin)
      "The staged conversion changed before its deployment authority was captured"
    let original ← readEdge Snapshot.mk
    require (snapshotTarget original proxy plugins document)
      "The staged conversion changed before its deployment authority was captured"
    remember slot (editAttempt fun a =>
      { a with observed := some ⟨proxy, plugins, document, original⟩ })
    saveConversionRecovery slot api false
  | _, _ => throw (notFound "Proxy" recovery.proxy.body.id)

/-- The target of a conditional request in its original snapshot. -/
def mutationTarget (kind : MutationKind) (id : ℕ) (original : Snapshot J) : Bool :=
  match kind with
  | .remove => (deploymentTarget original id).isSome
  | .replace => (original.resources.specs.find? (·.id == id)).any fun spec =>
      (deploymentTarget original spec.proxyId).isSome

/-- `edge.deployments.prepare`: every check made before a request is sent. -/
def prepare (kind : MutationKind) (id : ℕ) (original : Snapshot J) : PublishingService J Unit := do
  require (mutationTarget kind id original) "The original deployment ownership is inconsistent"
  assertBackendEgress

/-- The conditional request itself. -/
def sendMutation (call : ℕ) (kind : MutationKind) (id : ℕ) (original : Snapshot J)
    (document : Option (SubmittedSpec J)) : PublishingService J Unit :=
  match kind, document with
  | .remove, _ =>
    sendConditional ⟨.remove, id, call⟩ (Edge.ifMatch original.etag (Edge.removeProxy id))
  | .replace, some document =>
    sendConditional ⟨.replace, id, call⟩
      (Edge.ifMatch original.etag (Edge.reimportSpec docs.importer id document))
  | .replace, none => pure ()

/-- Save the journal, also for an API whose row is gone. -/
def persist (api : ApiRecord J) (kind : MutationKind) : PublishingService J Unit := do
  let row ← storeRead fun s => s.api
  match row with
  | some _ => saveConversionRecovery slot api false
  | none => do
    ensure (kind = .remove) (notFound "API" 0)
    let recovery ← readMemory slot
    transaction fun s =>
      if s.api.isSome || s.recovery.isNone then
        .error (conflict "The orphan conversion identity changed before cleanup admission")
      else .ok ((), { s with recovery := some recovery })

def pushMutation (mutation : Mutation J) (recovery : ConversionRecovery J) :
    ConversionRecovery J :=
  { recovery with mutations := recovery.mutations ++ [mutation] }

def popMutation (recovery : ConversionRecovery J) : ConversionRecovery J :=
  { recovery with mutations := recovery.mutations.dropLast }

def markMutation (call : ℕ) (acknowledged : Bool) (recovery : ConversionRecovery J) :
    ConversionRecovery J :=
  { recovery with mutations := recovery.mutations.map fun mutation =>
      if mutation.call = call then { mutation with acknowledged } else mutation }

/-- `mutateRecoveryDeployment`: the journal entry precedes the request, and a
missing acknowledgement stays in it. -/
def mutateRecoveryDeployment (api : ApiRecord J) (kind : MutationKind) (id : ℕ)
    (original : Snapshot J) (document : Option (SubmittedSpec J)) : PublishingService J Unit := do
  assertRecoveryAcknowledged slot
  require (kind == .remove || document.isSome) "A replacement specification is required"
  prepare kind id original
  let call ← newId
  let mutation : Mutation J := ⟨kind, id, original, false, call⟩
  remember slot (pushMutation mutation)
  persist slot api kind
  -- The client repeats the checks; a refusal here was never sent.
  let boundary ← attempt (prepare kind id original)
  match boundary with
  | .error error => do
    remember slot popMutation
    tryCatch (persist slot api kind) fun _ => remember slot (pushMutation mutation)
    throw error
  | .ok () => pure ()
  sendMutation docs call kind id original document
  remember slot (markMutation call true)
  tryCatch (persist slot api kind) fun error => do
    remember slot (markMutation call false)
    throw error

/-- `conversionBaselineMatches`. -/
def conversionBaselineMatches : PublishingService J Bool := do
  let recovery ← readMemory slot
  let found ← readEdge fun e => e.proxies recovery.proxy.body.id
  match found with
  | none => pure false
  | some live =>
    if live.apiSpecId ≠ recovery.proxy.apiSpecId ∨ live.body ≠ recovery.proxy.body ∨
        sortIds live.plugins ≠ sortIds recovery.proxy.plugins then pure false
    else do
      let plugins ← readEdge fun e => e.listByProxy live.body.id
      if sortConfigs plugins ≠ sortConfigs recovery.plugins then pure false
      else do
        let document ← readEdge fun e => (e.findSpecByProxy live.body.id).map (·.submitted)
        pure (document == recovery.originalSpecDocument)

/-- The owner of a staged proxy is the one the attempt recorded. -/
def ownedByAttempt (attempt : Attempt J) (live : Proxy J) (spec : Option (ApiSpec J)) : Bool :=
  match attempt.level with
  | .routes => spec.any fun spec =>
      live.apiSpecId == some spec.id && attempt.specId.all (· == spec.id)
  | .docsOnly => spec.isNone && live.apiSpecId.isNone

/-- The read-only half of `removeConversionPartialLocked`: the staged proxy to
remove and the authority it was last observed under, or nothing to remove. -/
def admitPartial : PublishingService J (Option (Proxy J × Snapshot J)) := do
  let recovery ← readMemory slot
  let found ← readEdge fun e => e.proxies recovery.proxy.body.id
  match found, recovery.attempt with
  | none, _ => pure none
  | some _, none => throw (conflict "The gateway proxy is not a recorded partial conversion")
  | some live, some attempt => do
    require
      (live.body.listenPath == attempt.proxy.listenPath ||
        live.body.listenPath == recovery.proxy.body.listenPath)
      "The partial conversion proxy path changed; operator reconciliation is required"
    require (live.body == { attempt.proxy with listenPath := live.body.listenPath })
      "The partial conversion proxy configuration changed; operator reconciliation is required"
    let spec ← readEdge fun e => e.findSpecByProxy live.body.id
    require (ownedByAttempt attempt live spec) "The partial conversion spec ownership changed"
    let document ← readEdge fun e => (e.findSpecByProxy live.body.id).map (·.submitted)
    require (attempt.level != .routes || document.any (attempt.documentDigests.contains ·))
      "The partial conversion specification changed"
    let plugins ← readEdge fun e => e.listByProxy live.body.id
    require
      (plugins.all fun plugin =>
        (plugin.apiSpecId.isSome && plugin.apiSpecId == spec.map (·.id)) ||
          recovery.plugins.find? (·.id == plugin.id) == some plugin)
      "The partial conversion has unknown or changed plugin state"
    require
      (live.plugins.all fun id =>
        plugins.any (·.id == id) || recovery.plugins.any (·.id == id))
      "The partial conversion has an unknown plugin association"
    match attempt.observed with
    | none => throw (conflict "The partial conversion lacks acknowledged deployment authority")
    | some expected => do
      require (snapshotTarget expected.authority expected.proxy expected.plugins expected.document)
        "The gateway deployment changed before its original authority was captured"
      let document ← readEdge fun e => (e.findSpecByProxy live.body.id).map (·.submitted)
      require
        (deploymentProxyShape live == deploymentProxyShape expected.proxy &&
          sortConfigs plugins == sortConfigs expected.plugins && document == expected.document)
        "The partial conversion changed after its acknowledged snapshot"
      let current ← readEdge Snapshot.mk
      require (current.etag == expected.authority.etag)
        "The original gateway deployment authority was refused"
      pure (some (live, expected.authority))

/-- `loadApi`. -/
def loadApi : PublishingService J (ApiRecord J) := do
  let row ← storeRead fun s => s.api
  match row with
  | none => throw (notFound "API" 0)
  | some api => pure api

/-- `removeConversionPartialLocked`. -/
def removeConversionPartialLocked (originalApi : Option (ApiRecord J)) :
    PublishingService J Unit := do
  assertRecoveryAcknowledged slot
  let admitted ← admitPartial slot
  match admitted with
  | none => pure ()
  | some (live, original) => do
    let api ← match originalApi with
      | some api => pure api
      | none => loadApi
    mutateRecoveryDeployment docs slot api .remove live.body.id original none

end Journal

section Rebuild

variable {J : Type} [DecidableEq J] (docs : Documents J) (slot : ℕ)

/-- `buildSpecDocument`, under a fresh egress check and fresh reads. -/
def buildSpecDocument (document : J) (proxy : ProxyBody J) (agents : Option J) :
    PublishingService J (SubmittedSpec J) := do
  assertBackendEgress
  let live ← readEdge fun e => e.listByProxy proxy.id
  let spec ← readEdge fun e => e.findSpecByProxy proxy.id
  pure ⟨docs.rewrite document agents, proxy,
    docs.policy document agents live (spec.map (·.id))⟩

/-- The generated configs of the original, where a rebuild carries them over. -/
def withPreserved (preserved : Option (List (PluginConfig J))) (built : SubmittedSpec J) :
    SubmittedSpec J :=
  match preserved with
  | none => built
  | some preserved => { built with plugins := docs.preserve built.plugins preserved }

/-- `createSpecOwnedProxy`: through the importer, so that the proxy carries
its owning specification. -/
def createSpecOwnedProxy (document : J) (body : ProxyBody J) (agents : Option J)
    (preserved : Option (List (PluginConfig J)))
    (beforeWrite : SubmittedSpec J → PublishingService J Unit) : PublishingService J (ℕ × ℕ) := do
  let built ← buildSpecDocument docs document body agents
  let submitted := withPreserved docs preserved built
  beforeWrite submitted
  writeEdge (Edge.importSpec docs.importer submitted)

/-- `specIdForProxy`. -/
def specIdForProxy (proxyId : ℕ) : PublishingService J ℕ := do
  let spec ← readEdge fun e => e.findSpecByProxy proxyId
  match spec with
  | none => throw (notFound "API spec for proxy" proxyId)
  | some spec => pure spec.id

/-- `mutateProxyLocked`: read one proxy, change it, write the whole document
back. `change` answers `none` where nothing has to be written. -/
def mutateProxyLocked (proxyId : ℕ) (change : Proxy J → Option (ProxyBody J × List ℕ)) :
    PublishingService J Unit := do
  let found ← readEdge fun e => e.proxies proxyId
  match found with
  | none => throw (notFound "Proxy" proxyId)
  | some proxy =>
    match change proxy with
    | none => pure ()
    | some (body, plugins) => writeEdge (Edge.replaceProxy proxyId body plugins)

/-- `associateLocked`: make the gateway run these configs. -/
def associateLocked (proxyId : ℕ) (configIds : List ℕ) : PublishingService J Unit :=
  mutateProxyLocked proxyId fun proxy =>
    let additions := configIds.filter (!proxy.plugins.contains ·)
    if additions.isEmpty then none else some (proxy.body, proxy.plugins ++ additions)

/-- The creates of `restorePluginsLocked`, each frozen once acknowledged. -/
def recreatePlugins (proxyId : ℕ) (acknowledged : PublishingService J Unit) :
    List (PluginConfig J) → PublishingService J Unit
  | [] => pure ()
  | config :: configs => do
    writeEdge (Edge.createConfig { config with proxyId := proxyId, apiSpecId := none })
    acknowledged
    recreatePlugins proxyId acknowledged configs

/-- `restorePluginsLocked`: the configs under their own ids, and one
association write for the whole set. -/
def restorePluginsLocked (proxyId : ℕ) (configs : List (PluginConfig J))
    (acknowledged : PublishingService J Unit) : PublishingService J Unit := do
  assertBackendEgress
  recreatePlugins proxyId acknowledged configs
  whenever (!configs.isEmpty) (associateLocked proxyId (configs.map (·.id)))

/-- The cutover of a proxy a specification owns: read afresh, checked, and
imported again at the public path. -/
def cutOverSpec (proxyId : ℕ) (listenPath : ListenPath) (document : J) (agents : Option J)
    (checkRead : Proxy J → PublishingService J Unit)
    (write : SubmittedSpec J → PublishingService J Unit) : PublishingService J Unit := do
  let found ← readEdge fun e => e.proxies proxyId
  match found with
  | none => throw (notFound "Proxy" proxyId)
  | some proxy => do
    checkRead proxy
    let submitted ← buildSpecDocument docs document
      { proxy.body with listenPath := listenPath } agents
    write submitted

/-- `cutOverToListenPathLocked`. `checkRead` is the check of the fresh read, and
`write` the replacement of the specification. -/
def cutOverToListenPathLocked (proxyId : ℕ) (level : Level) (listenPath : ListenPath)
    (document : J) (specId : Option ℕ) (agents : Option J)
    (checkRead : Proxy J → PublishingService J Unit)
    (write : ℕ → SubmittedSpec J → PublishingService J Unit) : PublishingService J Unit :=
  match level with
  | .docsOnly =>
    mutateProxyLocked proxyId fun proxy =>
      some ({ proxy.body with listenPath := listenPath }, proxy.plugins)
  | .routes => do
    let id ← match specId with
      | some id => pure id
      | none => specIdForProxy proxyId
    cutOverSpec docs proxyId listenPath document agents checkRead (write id)

/-- The corrected catalog a recovery completes to. -/
structure Corrected (J : Type) where
  api : ApiRecord J
  spec : ApiSpecRecord J
  document : J

/-- The staged document of a rebuild. -/
def stagedBody (recovery : ConversionRecovery J) (agents : Option J)
    (methods : Option (List String)) (cors : Option J) (path : ℕ) : ProxyBody J :=
  { recovery.proxy.body with
    listenPath := .staging path
    allowedMethods := if agents.isSome then proxyAllowedMethods methods cors
      else recovery.proxy.body.allowedMethods }

def noteDigest (submitted : SubmittedSpec J) : ConversionRecovery J → ConversionRecovery J :=
  editAttempt fun a => { a with documentDigests := a.documentDigests ++ [submitted] }

/-- The authority the attempt was last observed under, which its resources
still bear out. -/
def observedAuthority : PublishingService J (Observed J) := do
  let recovery ← readMemory slot
  match recovery.attempt.bind (·.observed) with
  | none => throw (conflict "The staged conversion lacks original deployment authority")
  | some observed => do
    require
      (snapshotTarget observed.authority observed.proxy observed.plugins observed.document)
      "The gateway deployment changed before its original authority was captured"
    pure observed

/-- The cutover's check of its fresh read. -/
def admitCutover (proxy : Proxy J) : PublishingService J Unit := do
  let observed ← observedAuthority slot
  require (deploymentProxyShape proxy == deploymentProxyShape observed.proxy)
    "The staged conversion changed before cutover"

/-- The journalled replacement of the staged specification. -/
def replaceObserved (api : ApiRecord J) (id : ℕ) (submitted : SubmittedSpec J) :
    PublishingService J Unit := do
  let recovery ← readMemory slot
  match recovery.attempt.bind (·.observed) with
  | none => throw (conflict "The staged conversion lacks original deployment authority")
  | some observed =>
    mutateRecoveryDeployment docs slot api .replace id observed.authority (some submitted)

/-- `beforeWrite`: the digest of what is about to be submitted is saved. -/
def saveDigest (api : ApiRecord J) (submitted : SubmittedSpec J) : PublishingService J Unit := do
  remember slot (noteDigest submitted)
  saveConversionRecovery slot api false

/-- The second import of a recovery whose catalog was corrected meanwhile. -/
def importCorrection (api : ApiRecord J) (proxyId specId : ℕ) (fix : Corrected J) :
    PublishingService J Unit := do
  let found ← readEdge fun e => e.proxies proxyId
  match found with
  | none => throw (notFound "Proxy" proxyId)
  | some live => do
    let _ ← observedAuthority slot
    let submitted ← buildSpecDocument docs fix.document live.body fix.api.shape.agents
    remember slot (noteDigest submitted)
    replaceObserved docs slot api specId submitted
    observeConversionAttempt slot api

/-- The first half of a rebuild: the staged proxy, owned as the level asks. -/
def createStaged (api : ApiRecord J) (level : Level) (agents : Option J) (staged : ProxyBody J)
    (document : J) (preserved : Option (List (PluginConfig J))) :
    PublishingService J (Option ℕ) :=
  match level with
  | .routes => do
    let ref ← createSpecOwnedProxy docs document staged agents preserved (saveDigest slot api)
    remember slot (editAttempt fun a => { a with specId := some ref.2 })
    saveConversionRecovery slot api false
    pure (some ref.2)
  | .docsOnly => do
    writeEdge (Edge.createProxy staged)
    pure none

/-- `rebuildConversionLocked`. -/
def rebuildConversionLocked (api : ApiRecord J) (level : Level) (agents : Option J)
    (methods : Option (List String)) (preserveGenerated : Bool)
    (corrected : Option (Corrected J)) : PublishingService J Unit := do
  assertRecoveryAcknowledged slot
  let path ← newId
  let recovery ← readMemory slot
  let proxyId := recovery.proxy.body.id
  let staged := stagedBody recovery agents methods api.shape.cors path
  remember slot fun r => { r with attempt := some ⟨level, agents, staged, [], none, none⟩ }
  saveConversionRecovery slot api false
  let preserved := if preserveGenerated then
      some (recovery.plugins.filter (·.apiSpecId == recovery.proxy.apiSpecId))
    else none
  let specId ← createStaged docs slot api level agents staged recovery.document preserved
  observeConversionAttempt slot api
  restorePluginsLocked proxyId (handOwnedPlugins recovery.plugins)
    (observeConversionAttempt slot api)
  observeConversionAttempt slot api
  match corrected with
  | none => pure ()
  | some fix => do
    match specId with
    | none => pure ()
    | some id =>
      whenever (fix.document != recovery.document || fix.api.shape != recovery.shape)
        (importCorrection docs slot api proxyId id fix)
    let found ← readEdge fun e => e.proxies proxyId
    let e ← readEdge id
    require
      (found.any fun live => deploymentMatches docs e fix.api.shape fix.spec live staged.listenPath)
      "The staged recovery does not match the API deployment"
  cutOverToListenPathLocked docs proxyId level (listenPathFor api.shape.slug)
    ((corrected.map (·.document)).getD recovery.document) specId
    ((corrected.map (·.api.shape.agents)).getD agents) (admitCutover slot)
    fun id submitted => do
      saveDigest slot api submitted
      replaceObserved docs slot api id submitted
  observeConversionAttempt slot api

end Rebuild

section Convert

variable {J : Type} [DecidableEq J] (docs : Documents J) (slot : ℕ)

/-- `assertStoredRecoveryComplete`: completion trusts the stored journal. -/
def storedRecoveryComplete (s : PublishingState J) (expected : ConversionRecovery J) : Bool :=
  s.recovery.any fun stored =>
    stored.proxy.body.id == expected.proxy.body.id &&
      stored.originalAuthority.map (·.etag) == expected.originalAuthority.map (·.etag) &&
      stored.mutations.all (·.acknowledged)

/-- The end of a rollback: the row is deployed again, the journal is gone and
the rollback is on record. -/
def completeRollback (proxyId specId : ℕ) : PublishingService J Unit := do
  let recovery ← readMemory slot
  transaction fun s =>
    match s.api with
    | none => .error (conflict "The API changed before its conversion rollback could commit")
    | some latest =>
      if latest.ferrumProxyId ≠ some proxyId ∨ latest.shape ≠ recovery.shape ∨
          s.currentSpec.map (·.id) ≠ some specId then
        .error (conflict "The API changed before its conversion rollback could commit")
      else if !storedRecoveryComplete s recovery then
        .error (conflict "The gateway recovery journal changed before its completion could commit")
      else
        let row := { latest with gatewayState := .deployed }
        .ok ((), { s with api := some row, recovery := none, rollbacks := s.rollbacks + 1 })

/-- The end of a rollback whose API was deleted meanwhile. -/
def completeOrphan : PublishingService J Unit :=
  transaction fun s =>
    match s.api, s.recovery with
    | some _, _ =>
      .error (conflict "The catalog identity returned before orphan recovery completion")
    | none, none => .error (conflict "The orphan recovery journal is unavailable")
    | none, some pending =>
      if !pending.mutations.all (·.acknowledged) then
        .error (conflict "A gateway deployment mutation is unconfirmed; retain its original journal")
      else if !pending.mutations.any (·.kind == .remove) then
        .error (conflict "The orphan removal has no acknowledged deployment operation")
      else .ok ((), { s with recovery := none })

/-- How `restoreConversion` ends. -/
def verifyRestored (api : ApiRecord J) (proxyId specId : ℕ) : PublishingService J Unit := do
  let current ← storeRead fun s => s.currentSpec
  let completed ← readEdge fun e => e.proxies proxyId
  let e ← readEdge id
  require
    (current.any fun current => current.id == specId && completed.any fun live =>
      deploymentMatches docs e api.shape current live (listenPathFor api.shape.slug))
    "The original deployment could not be verified after conversion rollback"
  let _ ← readEdge fun e => e.listByProxy proxyId
  completeRollback slot proxyId specId

/-- The `restore` of a conversion. -/
def restoreConversion (api : ApiRecord J) (proxyId specId : ℕ) : PublishingService J Unit := do
  assertRecoveryAcknowledged slot
  assertBackendEgress
  let matched ← conversionBaselineMatches slot
  let orphan ← if matched then pure false else do
    removeConversionPartialLocked docs slot (some api)
    let row ← storeRead fun s => s.api
    match row with
    | none => do
      completeOrphan
      pure true
    | some _ => do
      rebuildConversionLocked docs slot api api.shape.specEnforcement api.shape.agents
        api.shape.allowedMethods true none
      pure false
  if orphan then pure () else verifyRestored docs slot api proxyId specId

/-- `reportUnrepairableProxy`, as far as the row goes. -/
def reportUnrepairableProxy (proxyId : ℕ) : PublishingService J Unit :=
  transaction fun s =>
    match s.api with
    | none => .ok ((), s)
    | some latest =>
      if latest.ferrumProxyId ≠ some proxyId then .ok ((), s)
      else
        let row := { latest with gatewayState := .repairRequired }
        .ok ((), { s with api := some row })

/-- Whether a change exposes tools to grantees that lack the MCP-all group. -/
def agentsFirstEnabled (previous next : Option J) : Bool :=
  match next, previous with
  | none, _ => false
  | some _, none => true
  | some _, some previous => docs.unenrolled previous

/-- The forward direction, after the journal was admitted. -/
def convertAdmitted (api : ApiRecord J) (before : Proxy J) (plugins : List (PluginConfig J))
    (specDocument : Option (SubmittedSpec J)) (originalSpec : ApiSpecRecord J) (target : Level)
    (nextAgents : Option J) (nextMethods : Option (List String)) : PublishingService J Unit := do
  -- Enrolment writes consumers only, but it moves the namespace token.
  whenever (agentsFirstEnabled docs api.shape.agents nextAgents)
    (writeEdge fun e => .ok ((), e.touch))
  let originalAuthority ← readEdge Snapshot.mk
  require (snapshotTarget originalAuthority before plugins specDocument)
    "The gateway deployment changed before its original authority was captured"
  let e ← readEdge id
  require (deploymentMatches docs e api.shape originalSpec before (listenPathFor api.shape.slug))
    "The original gateway deployment does not match its catalog revision"
  remember slot fun r => { r with originalAuthority := some originalAuthority }
  saveConversionRecovery slot api false
  require (docs.replayable originalAuthority.resources before.body.id)
    "The original deployment has frozen external references Nexus cannot replay"
  mutateRecoveryDeployment docs slot api .remove before.body.id originalAuthority none
  let row ← storeRead fun s => s.api
  ensure row.isSome (notFound "API" 0)
  rebuildConversionLocked docs slot api target nextAgents nextMethods false none

/-- `convertEnforcementLocked`. It answers with the revision its undo step has
to find again. -/
def convertEnforcementLocked (api : ApiRecord J) (proxyId : ℕ) (target : Level) (document : J)
    (nextAgents : Option J) (nextMethods : Option (List String)) : PublishingService J ℕ := do
  assertBackendEgress
  let found ← readEdge fun e => e.proxies proxyId
  match found with
  | none => throw (notFound "Proxy" proxyId)
  | some before => do
    let plugins ← readEdge fun e => e.listByProxy proxyId
    let current ← storeRead fun s => s.currentSpec
    match current with
    | none => throw (conflict "This API has no stored specification revision to recover")
    | some originalSpec => do
      let specDocument ← readEdge fun e => (e.findSpecByProxy proxyId).map (·.submitted)
      let recovery : ConversionRecovery J := {
        shape := api.shape
        catalogShape := none
        originalSpecId := originalSpec.id
        catalogSpecId := some originalSpec.id
        originalSpecDocument := specDocument
        proxy := before
        plugins := plugins
        document := document
        attempt := none
        originalAuthority := none
        mutations := [] }
      openJournal slot recovery
      saveConversionRecovery slot api true
      tryCatch
        (convertAdmitted docs slot api before plugins specDocument originalSpec target nextAgents
          nextMethods)
        fun error => do
          tryCatch (do
            assertRecoveryAcknowledged slot
            let recovery ← readMemory slot
            ensure (recovery.mutations.any (·.kind == .remove)) error
            restoreConversion docs slot api proxyId originalSpec.id) fun _ =>
              reportUnrepairableProxy proxyId
          throw error
      pure originalSpec.id

/-- The undo step a conversion answers with, for a later failure of the same
request. -/
def undoConversion (api : ApiRecord J) (proxyId specId : ℕ) : PublishingService J Unit :=
  tryCatch (do
    let row ← storeRead fun s => s.api
    whenever row.isSome (saveConversionRecovery slot api false)
    restoreConversion docs slot api proxyId specId) fun error => do
      reportUnrepairableProxy proxyId
      throw error

end Convert

end FerrumNexus.Publishing
