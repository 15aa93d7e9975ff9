import FerrumNexus.Access.Service

/-!
# Revocation and recovery

A revocation claims its grant, its request and its job in one transaction, and
then takes the groups off. When the gateway refuses, the grant is put back
under the consumer's key if its group is still there. The worker claims a job
nobody settled and finishes a revocation, or sets the groups of an approval to
what the active grant gives and settles the request.
-/
namespace FerrumNexus.Access

open Saga Platform Portal Credentials

/-! ## Requests -/

def isViewer (user : UserRecord) (api : ApiRecord) : Bool :=
  api.viewers.all fun viewers => viewers.contains user.id

def acceptsRequests (api : ApiRecord) : Except NexusError Unit :=
  if !api.published then
    .error (conflict "This API is retired and is no longer accepting access requests")
  else if !api.requestable then .error (conflict "This API does not accept access requests")
  else .ok ()

/-- The checks of `request` on the API it names. -/
def assertRequestable (user : UserRecord) (api : ApiRecord) (visible : Bool)
    (missing : NexusError) : Except NexusError Unit :=
  if !visible then .error missing
  else if api.ownerUserId = user.id then .error (conflict "You already own this API")
  else acceptsRequests api

/-- The checks of `requestTools` on what it names. -/
def assertToolsRequestable (user : UserRecord) (api : ApiRecord) (grant : GrantRecord)
    (requestedTools : List ℕ) : Except NexusError Unit := do
  if api.ownerUserId = user.id then .error (conflict "You already own this API")
  else if grant.status ≠ .active then .error inactiveGrant
  else acceptsRequests api
  if grant.approvedTools.isNone then
    .error (conflict "This grant already covers every published tool")
  else if requestedTools.isEmpty then
    .error (validationFailed "Request at least one tool the grant does not cover yet")
  else .ok ()

def assertNotHeld (applicationId : Option ℕ) (held : Option GrantRecord) :
    Except NexusError Unit :=
  if held.isNone then .ok ()
  else .error (conflict (if applicationId.isNone then "You already have access to this API"
    else "This application already has access to this API"))

/-- The API read again under its key still takes requests. -/
def assertUnchanged (api : ApiRecord) (found : Option ApiRecord) : Except NexusError ApiRecord :=
  let changed := conflict "This API changed while the request was waiting; reload and retry"
  match found with
  | none => .error changed
  | some fresh =>
    if fresh.ferrumProxyId == api.ferrumProxyId && fresh.published && fresh.requestable then
      .ok fresh
    else .error changed

/-- The checks of `admit` on the API read again under the proxy key. -/
def assertStillRequestable (user : UserRecord) (api : ApiRecord) (missing : NexusError) :
    AccessService ApiRecord := do
  let found ← storeRead fun s => s.apis api.id
  let fresh ← check (assertUnchanged api found)
  ensure (isViewer user fresh) missing
  pure fresh

/-- The section of an application's deletion, for a request made for it. -/
def underApplicationName {α : Type} (slot : ℕ) (applicationId : Option ℕ) (p : AccessService α) :
    AccessService α :=
  match applicationId with
  | none => p
  | some applicationId => serializePerKey slot (.name (.ofApplication applicationId)) p

def pendingExists : NexusError := conflict "You already have a pending request for this API"

def isStale (pending : AccessRequestRecord) (extended : Option GrantRecord) : Bool :=
  pending.grantId.isSome && !(extended.any (·.status == .active))

/-- A pending tool request whose grant is gone makes room for a new request. -/
def closeStale (user : UserRecord) (decidedAt : ℕ) : Option AccessRequestRecord → Tx Unit
  | none => pure ()
  | some pending => do
    let extended ← txRead fun s => pending.grantId.bind s.grants
    if isStale pending extended then do
      let closed ← updateRequestIfStatus pending.id .pending fun row =>
        { row with status := .cancelled, decidedBy := some user.id, decidedAt := some decidedAt }
      if closed.isSome then record .accessCancel pending.id else throw pendingExists
    else throw pendingExists

def requestTx (user : UserRecord) (apiId : ℕ) (identity : Identity)
    (requestedTools : Option (List ℕ)) (decidedAt : ℕ) : Tx AccessRequestRecord := do
  let pending ← txRead fun s => findPending s apiId identity
  closeStale user decidedAt pending
  let inserted ← createRequest apiId identity requestedTools none
  record .accessRequest inserted.id
  pure inserted

def request (slot : ℕ) (user : UserRecord) (apiId : ℕ) (applicationId : Option ℕ)
    (requestedTools : Option (List ℕ)) : AccessService AccessRequestRecord := do
  let api ← load "API" apiId fun s => s.apis apiId
  check (assertRequestable user api (isViewer user api) (notFound "API" apiId))
  let held ← storeRead fun s => findActive s api.id ⟨user.id, applicationId⟩
  check (assertNotHeld applicationId held)
  underProxy slot api.ferrumProxyId (underApplicationName slot applicationId do
    let fresh ← assertStillRequestable user api (notFound "API" apiId)
    check (validateToolSubset fresh requestedTools)
    assertApplicationActive ⟨user.id, applicationId⟩
    let decidedAt ← nowIso
    commit (requestTx user api.id ⟨user.id, applicationId⟩ requestedTools decidedAt))

/-- The checks of `requestTools` on the grant it would extend. -/
def assertExtensible (user : UserRecord) (requestedTools : List ℕ) :
    Option GrantRecord → Except NexusError GrantRecord
  | none => .error inactiveGrant
  | some grant =>
    if grant.status = .active ∧ grant.userId = user.id then
      match grant.approvedTools with
      | none => .error (conflict "This grant already covers every published tool")
      | some covered =>
        if requestedTools.any covered.contains then
          .error (validationFailed "Request only tools the grant does not cover yet")
        else .ok grant
    else .error inactiveGrant

def requestToolsTx (apiId grantId : ℕ) (identity : Identity) (requestedTools : List ℕ) :
    Tx AccessRequestRecord := do
  let grant ← txRead fun s => s.grants grantId
  if grant.any (·.status == .active) then
    let pending ← txRead fun s => findPending s apiId identity
    if pending.isSome then throw pendingExists
    else do
      let inserted ← createRequest apiId identity (some requestedTools) (some grantId)
      record .accessToolsRequest inserted.id
      pure inserted
  else throw inactiveGrant

def requestTools (slot : ℕ) (user : UserRecord) (grantId : ℕ) (requestedTools : List ℕ) :
    AccessService AccessRequestRecord := do
  let initial ← load "Grant" grantId fun s => s.grants grantId
  ensure (initial.userId == user.id) (notFound "Grant" grantId)
  let api ← load "Grant" grantId fun s => s.apis initial.apiId
  check (assertToolsRequestable user api initial requestedTools)
  underProxy slot api.ferrumProxyId (underApplicationName slot initial.applicationId do
    let fresh ← assertStillRequestable user api (notFound "Grant" grantId)
    ensure fresh.agents.isSome (conflict "This API does not expose agent tools")
    check (validateToolSubset fresh (some requestedTools))
    let found ← storeRead fun s => s.grants grantId
    let grant ← check (assertExtensible user requestedTools found)
    assertApplicationActive ⟨user.id, grant.applicationId⟩
    commit (requestToolsTx api.id grantId ⟨user.id, grant.applicationId⟩ requestedTools))

/-- The compare-and-set of a decision that touches no gateway, with its audit
row. -/
def decideTx (actor : UserRecord) (request : AccessRequestRecord) (status : AccessRequestStatus)
    (action : AuditAction) (decidedAt : ℕ) : Tx (Option AccessRequestRecord) := do
  let moved ← updateRequestIfStatus request.id .pending fun row =>
    { row with status := status, decidedBy := some actor.id, decidedAt := some decidedAt }
  match moved with
  | none => pure none
  | some moved => do
    record action request.id
    pure (some moved)

def decideAlone (actor : UserRecord) (request : AccessRequestRecord) (status : AccessRequestStatus)
    (action : AuditAction) : AccessService AccessRequestRecord := do
  ensure (request.status == .pending) (alreadyDecided request.status)
  let decidedAt ← nowIso
  let updated ← commit (decideTx actor request status action decidedAt)
  match updated with
  | none => decisionConflict request.id
  | some updated => pure updated

def cancel (user : UserRecord) (requestId : ℕ) : AccessService AccessRequestRecord := do
  let loaded ← loadRequest requestId
  ensure (loaded.request.userId == user.id)
    (forbidden "Only the requester can cancel this request")
  decideAlone user loaded.request .cancelled .accessCancel

def deny (actor : UserRecord) (requestId : ℕ) : AccessService AccessRequestRecord := do
  let loaded ← loadRequest requestId
  assertCanReview actor loaded.api
  decideAlone actor loaded.request .denied .accessDeny

/-! ## Putting a revoked grant back -/

/-- `moveRequestToRevoked`: the request as it was, if it moved. -/
def moveRequestToRevoked (grant : GrantRecord) (actorId revokedAt : ℕ) :
    Tx (Option AccessRequestRecord) := do
  let request ← txRead fun s => grant.accessRequestId.bind s.requests
  match request with
  | none => pure none
  | some request => do
    let moved ← updateRequestIfStatus request.id .approved fun row =>
      { row with status := .revoked, decidedBy := some actorId, decidedAt := some revokedAt }
    pure (moved.map fun _ => request)

/-- `cancelPendingToolRequest`: the request as it was, if it was cancelled. -/
def cancelPendingToolRequest (grant : GrantRecord) (actorId revokedAt : ℕ) :
    Tx (Option AccessRequestRecord) := do
  let pending ← txRead fun s => findPending s grant.apiId grant.identity
  match pending.filter (·.grantId == some grant.id) with
  | none => pure none
  | some pending => do
    let closed ← updateRequestIfStatus pending.id .pending fun row =>
      { row with status := .cancelled, decidedBy := some actorId, decidedAt := some revokedAt }
    match closed with
    | none => pure none
    | some _ => do
      record .accessCancel pending.id
      pure (some pending)

/-- The status and decision of a row as they were before a revocation. -/
def undecided (before row : AccessRequestRecord) : AccessRequestRecord where
  __ := row
  status := before.status
  decidedBy := before.decidedBy
  decidedAt := before.decidedAt

/-- `restoreToolRequest`: only the cancellation this revocation made. -/
def restoreToolRequest (claim : GrantRecord) (request : AccessRequestRecord) : Tx Unit := do
  let current ← txRead fun s => s.requests request.id
  let pending ← txRead fun s => s.recoveryPending claim.userId
  let occupied ← txRead fun s => findPending s claim.apiId claim.identity
  if current.any (fun row => row.status == .cancelled && row.grantId == some claim.id &&
      row.decidedBy == claim.revokedBy && row.decidedAt == claim.revokedAt) &&
      !pending && occupied.isNone then do
    let _ ← updateRequestIfStatus request.id .cancelled fun row =>
      { undecided request row with status := .pending }
    pure ()
  else pure ()

/-- `restoreRefusal`: why the grant must stay revoked. -/
def restoreRefused (s : World) (grant : GrantRecord) : Bool :=
  !(s.users grant.userId).any (·.status == .active) ||
    match grant.applicationId with
    | none => false
    | some applicationId =>
      !(s.applications applicationId).any (·.ownerUserId == grant.userId)

/-- A request moved by this revocation, put back as it was. -/
def restoreRequest : Option AccessRequestRecord → Tx Unit
  | none => pure ()
  | some request => do
    let _ ← updateRequestIfStatus request.id .revoked (undecided request)
    pure ()

def restoreTool (claim : GrantRecord) : Option AccessRequestRecord → Tx Unit
  | none => pure ()
  | some request => restoreToolRequest claim request

/-- `restoreRevoked`: the claim this revocation made, and nothing newer. -/
def restoreRevoked (claim : GrantRecord) (request toolRequest : Option AccessRequestRecord)
    (groupPresent : Bool) : Tx Unit := do
  let current ← txRead fun s => s.grants claim.id
  let refused ← txRead fun s => current.all (restoreRefused s)
  if current.any (fun row => row.status == .revoked && row.revokedAt == claim.revokedAt &&
      row.revokedBy == claim.revokedBy) && !refused && groupPresent then do
    let back ← updateGrantIfStatus claim.id .revoked fun row =>
      { row with status := .active, revokedBy := none, revokedAt := none }
    match back with
    | none => pure ()
    | some _ => do
      deleteBySubject claim.id
      restoreRequest request
      restoreTool claim toolRequest
  else pure ()

/-- `groupStillOn`: an unreadable consumer counts as one that has the group. -/
def groupStillOn (consumerId : ConsumerId) (groups : List AclGroup) : AccessService Bool :=
  tryCatch
    (do
      let live ← getConsumer consumerId
      pure (live.any fun view => groups.any view.aclGroups.contains))
    fun _ => pure true

/-- The groups that show a revoked grant is still on the consumer. -/
def groupsOfClaim (claim : GrantRecord) (proxyId : Option ℕ) (api : Option ApiRecord) :
    List AclGroup :=
  let published :=
    match api with
    | some api => if proxyId.isSome && api.ferrumProxyId == proxyId then publishedTools api else []
    | none => []
  aclGroupForApi claim.apiId ::
    if published.isEmpty then []
    else mcpGroupsForGrant claim.apiId
      (claim.approvedTools.map fun tools => tools.filter published.contains)

/-- `restoreOnce`. -/
def restoreOnce (slot : ℕ) (claim : GrantRecord) (proxyId : Option ℕ) (body : Bool → Tx Unit) :
    AccessService Unit := do
  let underLifecycle (groupPresent : Bool) : AccessService Unit :=
    serializePerKey slot (.lifecycle claim.userId)
      (serializePerKey slot (.recovery claim.userId) (commit (body groupPresent)))
  let consumer ← storeRead fun s => findConsumer s claim.identity
  match consumer with
  | none => underLifecycle false
  | some consumer =>
    serializePerKey slot (.consumer consumer.ferrumConsumerId) do
      let api ← storeRead fun s => s.apis claim.apiId
      let present ← groupStillOn consumer.ferrumConsumerId (groupsOfClaim claim proxyId api)
      underLifecycle present

/-- `restoreUnderKeys`: tried again while a key is not to be had. -/
def restoreUnderKeys (slot : ℕ) (claim : GrantRecord) (proxyId : Option ℕ)
    (body : Bool → Tx Unit) : ℕ → AccessService Unit
  | 0 => restoreOnce slot claim proxyId body
  | retries + 1 =>
    tryCatch (restoreOnce slot claim proxyId body) fun error =>
      if error.code = .lockTimeout then restoreUnderKeys slot claim proxyId body retries
      else throw error

/-- `unwindRevocation`: with its audit row, and then without it. -/
def unwindRevocation (slot : ℕ) (claim : GrantRecord)
    (request toolRequest : Option AccessRequestRecord) (proxyId : Option ℕ) (retries : ℕ) :
    AccessService Unit :=
  tryCatch
    (restoreUnderKeys slot claim proxyId
      (fun present => do
        restoreRevoked claim request toolRequest present
        record .accessRevokeRollback claim.id)
      retries)
    fun _ => do
      bestEffort (restoreUnderKeys slot claim proxyId
        (restoreRevoked claim request toolRequest) retries)
      bestEffort (commit (record .accessRevokeRollback claim.id))

/-! ## Revocation -/

inductive Obsolete
  | superseded
  | grantActive
  | regranted
  deriving DecidableEq

/-- `revocationObsolete`: why the groups are no longer this job's to take. -/
def revocationObsolete (job : AccessGatewayJobRecord) : AccessService (Option Obsolete) := do
  let mine ← stillOwned job
  if mine then do
    let grant ← storeRead fun s => s.grants job.subjectId
    if grant.any (·.status == .active) then pure (some .grantActive)
    else do
      let live ← storeRead fun s => findActive s job.apiId job.identity
      pure (if live.isSome then some .regranted else none)
  else pure (some .superseded)

/-- The claim of a revocation. -/
structure RevocationClaim where
  grant : GrantRecord
  request : Option AccessRequestRecord
  toolRequest : Option AccessRequestRecord
  job : AccessGatewayJobRecord

def revokeTx (actor : UserRecord) (grant : GrantRecord) (revokedAt : ℕ) :
    Tx (Option RevocationClaim) := do
  let claimed ← updateGrantIfStatus grant.id .active fun row =>
    { row with status := .revoked, revokedBy := some actor.id, revokedAt := some revokedAt }
  match claimed with
  | none => pure none
  | some claimed => do
    let request ← moveRequestToRevoked grant actor.id revokedAt
    let toolRequest ← cancelPendingToolRequest grant actor.id revokedAt
    let job ← upsertClaimed ⟨.revoke, grant.id, grant.apiId, grant.identity, actor.id⟩
    record .accessRevoke grant.id
    pure (some ⟨claimed, request, toolRequest, job⟩)

/-- Who withdraws: a reviewer, or the grantee who relinquishes. -/
inductive WithdrawMode
  | review
  | relinquish
  deriving DecidableEq, Repr

def assertCanWithdraw (actor : UserRecord) (grant : GrantRecord) (mode : WithdrawMode) :
    AccessService Unit :=
  ensure (mode != .relinquish || grant.userId == actor.id) (notFound "Grant" grant.id)

def assertMayReview (actor : UserRecord) (api : ApiRecord) (mode : WithdrawMode) :
    AccessService Unit :=
  whenever (mode == .review) (assertCanReview actor api)

/-- The guard of a revocation, in the consumer's section. -/
def revocationGuard (job : AccessGatewayJobRecord) : AccessService (Option Obsolete × Bool) := do
  let obsolete ← revocationObsolete job
  pure (obsolete, obsolete.isNone)

/-- The gateway step of a revocation whose grantee still exists. -/
def withdrawGroups (slot : ℕ) (grantee : Option UserRecord) (claim : RevocationClaim) :
    AccessService (Option (Option Obsolete × Except NexusError (Option Unit))) :=
  match grantee with
  | none => pure none
  | some _ => removeMembership slot claim.grant.identity claim.grant.apiId false
      (revocationGuard claim.job)

/-- What follows the gateway step of a revocation. -/
def concludeRevocation (slot : ℕ) (claim : RevocationClaim) (proxyId : Option ℕ) (retries : ℕ) :
    Except NexusError (Option (Option Obsolete × Except NexusError (Option Unit))) →
      AccessService GrantRecord
  | .ok (some (some .superseded, .ok _)) => pure claim.grant
  | .ok (some (_, .error error)) => rollBack error
  | .ok _ => do
    settleOwnedJob claim.job true
    pure claim.grant
  | .error error => rollBack error
where
  rollBack (error : NexusError) : AccessService GrantRecord := do
    unwindRevocation slot claim.grant claim.request claim.toolRequest proxyId retries
    settleOwnedJob claim.job false
    throw error

/-- `withdraw` inside the proxy key. -/
def withdraw (slot : ℕ) (actor : UserRecord) (grantId : ℕ) (mode : WithdrawMode)
    (proxyId : Option ℕ) (retries : ℕ) : AccessService GrantRecord := do
  let grant ← load "Grant" grantId fun s => s.grants grantId
  assertCanWithdraw actor grant mode
  let api ← load "API" grant.apiId fun s => s.apis grant.apiId
  assertMayReview actor api mode
  ensure (api.ferrumProxyId == proxyId)
    (conflict "The gateway proxy changed while this revocation was waiting; reload and retry")
  let grantee ← storeRead fun s => s.users grant.userId
  let revokedAt ← nowIso
  let claimed ← commit (revokeTx actor grant revokedAt)
  match claimed with
  | none => revocationConflict grantId
  | some claim => do
    let outcome ← attempt (withdrawGroups slot grantee claim)
    concludeRevocation slot claim proxyId retries outcome

/-- `withdrawGrant`: `revoke` and `relinquish`. -/
def withdrawGrant (slot : ℕ) (actor : UserRecord) (grantId : ℕ) (mode : WithdrawMode)
    (retries : ℕ) : AccessService GrantRecord := do
  let initial ← load "Grant" grantId fun s => s.grants grantId
  assertCanWithdraw actor initial mode
  let api ← load "API" initial.apiId fun s => s.apis initial.apiId
  assertMayReview actor api mode
  ensure (initial.status == .active) (conflict "This grant is already revoked")
  underProxy slot api.ferrumProxyId (withdraw slot actor grantId mode api.ferrumProxyId retries)

/-! ## The worker -/

inductive AccessGatewayJobOutcome
  | completed
  | obsolete
  | superseded
  deriving DecidableEq, Repr

/-- `dropJob`: a job that is no longer owed. -/
def dropJob (job : AccessGatewayJobRecord) : AccessService AccessGatewayJobOutcome :=
  (fun mine => if mine then .obsolete else .superseded) <$> commit (deleteClaimed job)

/-- The answer to a transaction that finds out whether the job is still owned. -/
def completedIf (mine : Bool) : AccessGatewayJobOutcome :=
  if mine then .completed else .superseded

/-- The end of a recovered revocation. -/
def completeRevocation (job : AccessGatewayJobRecord) : Tx Bool := do
  let mine ← deleteClaimed job
  if mine then do
    record .accessRevokeComplete job.subjectId
    pure true
  else pure false

def finishRevocation (job : AccessGatewayJobRecord) :
    Option Obsolete → AccessService AccessGatewayJobOutcome
  | some .superseded => pure .superseded
  | some _ => dropJob job
  | none => completedIf <$> commit (completeRevocation job)

def recoverRevocation (slot : ℕ) (job : AccessGatewayJobRecord) :
    AccessService AccessGatewayJobOutcome := do
  let grantee ← storeRead fun s => s.users job.userId
  match grantee with
  | none => dropJob job
  | some _ => do
    let outcome ← removeMembership slot job.identity job.apiId true (revocationGuard job)
    match outcome with
    | none => do
      let obsolete ← revocationObsolete job
      finishRevocation job obsolete
    | some (obsolete, result) => do
      let _ ← check result
      finishRevocation job obsolete

inductive Settle
  | release
  | cancel
  | kept
  deriving DecidableEq

/-- What an approval that never committed leaves its request as. -/
def settlement (request : AccessRequestRecord) (live : Option GrantRecord) : Settle :=
  if request.status ≠ .approved then .kept
  else
    match request.grantId with
    | none =>
      if live.any (·.accessRequestId == some request.id) then .kept
      else if live.isSome then .cancel else .release
    | some grantId =>
      let grant := live.filter (·.id == grantId)
      if grant.any (fun grant => (request.approvedTools.getD []).all fun id =>
          grant.approvedTools.all (·.contains id)) then .kept
      else if grant.isSome then .release else .cancel

/-- The request's part of a settled approval: a release makes way for a newer
pending request. -/
def settleRequestTx (request : AccessRequestRecord) (settle : Settle) : Tx Unit := do
  let occupied ← txRead fun s => findPending s request.apiId request.identity
  match settle with
  | .kept => pure ()
  | .cancel => do
    let _ ← updateRequestIfStatus request.id .approved cancelledByRecovery
    pure ()
  | .release =>
    if occupied.any (·.id != request.id) then do
      let _ ← updateRequestIfStatus request.id .approved cancelledByRecovery
      pure ()
    else do
      let _ ← updateRequestIfStatus request.id .approved released
      pure ()

def rollbackAction (request : AccessRequestRecord) : AuditAction :=
  if request.grantId.isSome then .accessToolsApproveRollback else .accessApproveRollback

def settleApprovalTx (job : AccessGatewayJobRecord) (request : AccessRequestRecord)
    (settle : Settle) : Tx Bool := do
  let mine ← deleteClaimed job
  if mine then do
    settleRequestTx request settle
    record (rollbackAction request) request.id
    pure true
  else pure false

def settleApproval (slot : ℕ) (job : AccessGatewayJobRecord) (api : Option ApiRecord) :
    AccessService AccessGatewayJobOutcome := do
  let mine ← stillOwned job
  if mine then do
    let request ← storeRead fun s => s.requests job.subjectId
    let requester ← storeRead fun s => s.users job.userId
    match api, request, requester with
    | some api, some request, some _ => do
      let live ← reconcileGroups slot job.identity api
      completedIf <$> commit (settleApprovalTx job request (settlement request live))
    | _, _, _ => dropJob job
  else pure .superseded

def RECOVERY_PROXY_ATTEMPTS : ℕ := 5

/-- One attempt of `recoverApproval`: `none` when the proxy changed. -/
def recoverUnderProxy (slot : ℕ) (job : AccessGatewayJobRecord) (proxyId : ℕ) :
    AccessService (Option AccessGatewayJobOutcome) :=
  serializePerKey slot (.proxy proxyId) do
    let api ← storeRead fun s => s.apis job.apiId
    if api.any (·.ferrumProxyId != some proxyId) then pure none
    else some <$> settleApproval slot job api

def recoverApproval (slot : ℕ) (job : AccessGatewayJobRecord) :
    ℕ → AccessService AccessGatewayJobOutcome
  | 0 => throw (conflict "The gateway proxy kept changing while an approval was being compensated")
  | attempts + 1 => do
    let seen ← storeRead fun s => s.apis job.apiId
    match seen.bind (·.ferrumProxyId) with
    | none => settleApproval slot job seen
    | some proxyId => do
      let settled ← recoverUnderProxy slot job proxyId
      match settled with
      | some outcome => pure outcome
      | none => recoverApproval slot job attempts

def recoverGatewayJob (slot : ℕ) (job : AccessGatewayJobRecord) :
    AccessService AccessGatewayJobOutcome :=
  match job.kind with
  | .revoke => recoverRevocation slot job
  | .approve => recoverApproval slot job RECOVERY_PROXY_ATTEMPTS

/-- One job of a worker's tick, which only counts the outcomes. -/
def runJob (slot : ℕ) (subjectId : ℕ) : AccessService Unit := do
  let claimed ← commit (claimDue subjectId)
  match claimed with
  | none => pure ()
  | some job =>
    tryCatch (do
      let _ ← recoverGatewayJob slot job
      pure ()) fun _ => do
      let _ ← commit (reschedule job)
      pure ()

/-! ## Every grant of an account

The sweep of a god-mode disable claims the grants one by one and takes their
groups off, and goes on when a claim, a lookup or the gateway fails. It holds
neither the proxy key nor the lifecycle key, records no job for a group it could
not take off, and does not look again, inside the consumer's section, whether a
newer grant stands behind the group. -/

def listActiveByUser (s : World) (userId : ℕ) : List GrantRecord :=
  (rowsOf s s.grants).filter fun grant => grant.userId == userId && grant.status == .active

/-- The claim of one grant of the sweep. -/
def sweepTx (actor : UserRecord) (grant : GrantRecord) (revokedAt : ℕ) :
    Tx (Option GrantRecord) := do
  let claimed ← updateGrantIfStatus grant.id .active fun row =>
    { row with status := .revoked, revokedBy := some actor.id, revokedAt := some revokedAt }
  match claimed with
  | none => pure none
  | some claimed => do
    let _ ← moveRequestToRevoked grant actor.id revokedAt
    let _ ← cancelPendingToolRequest grant actor.id revokedAt
    record .accessRevoke grant.id
    pure (some claimed)

/-- The consumer whose groups the sweep takes off. -/
def lookupGrantee (userId : ℕ) (grant : GrantRecord) : AccessService (Option ConsumerRecord) := do
  let api ← storeRead fun s => s.apis grant.apiId
  let grantee ← storeRead fun s => s.users userId
  if api.isSome && grantee.isSome then storeRead fun s => findConsumer s grant.identity
  else pure none

/-- The group removal of the sweep, which has no guard. -/
def sweepGroups (slot : ℕ) (grant : GrantRecord) : Option ConsumerRecord → AccessService Unit
  | none => pure ()
  | some consumer => do
    let (_, result) ← mutateAclGroups slot consumer.ferrumConsumerId
      { requireActiveUser := none
        absentIsDone := true
        guard := pure ((), true)
        change := fun _ groups => groups.filter (!isGroupOfApi grant.apiId ·)
        afterWrite := pure () }
    let _ ← check result
    pure ()

/-- One grant of the sweep: whether it is fully revoked. -/
def sweepGrant (slot : ℕ) (actor : UserRecord) (userId : ℕ) (grant : GrantRecord) :
    AccessService Bool := do
  let revokedAt ← nowIso
  let claimed ← attempt (commit (sweepTx actor grant revokedAt))
  match claimed with
  | .error _ => pure false
  | .ok none => pure false
  | .ok (some _) => do
    let looked ← attempt (lookupGrantee userId grant)
    match looked with
    | .error _ => pure false
    | .ok consumer => do
      let swept ← swallow (sweepGroups slot grant consumer)
      pure swept.isSome

def sweepGrants (slot : ℕ) (actor : UserRecord) (userId : ℕ) :
    List GrantRecord → AccessService ℕ
  | [] => pure 0
  | grant :: grants => do
    let swept ← sweepGrant slot actor userId grant
    let revoked ← sweepGrants slot actor userId grants
    pure (revoked + if swept then 1 else 0)

/-- `revokeAllForUser`: the number of grants it fully revoked. -/
def revokeAllForUser (slot : ℕ) (actor : UserRecord) (userId : ℕ) : AccessService ℕ := do
  let grants ← storeRead fun s => listActiveByUser s userId
  sweepGrants slot actor userId grants

end FerrumNexus.Access
