import FerrumNexus.Access.Store

/-!
# Access requests and their decisions

An approval writes the gateway before the grant and a revocation after it, so
each claims its decision first, together with a job for the gateway step it
owes, and compensates when the step fails. Requests, approvals, revocations and
the recovery of an approval run under the key of the API's proxy; a change of
groups runs under the consumer's key. Emails and notifications are left out,
and the daily budget of requests with them: it only refuses a request.
-/
namespace FerrumNexus.Access

open Saga Platform Portal Credentials

/-! ## Shared checks -/

/-- `assertCanReview`. -/
def canReview (actor : UserRecord) (api : ApiRecord) : Bool :=
  api.ownerUserId == actor.id && roleAtLeast actor.role .provider || roleAtLeast actor.role .admin

def assertCanReview (actor : UserRecord) (api : ApiRecord) : AccessService Unit :=
  ensure (canReview actor api)
    (forbidden "Only an API owner with the provider role or an admin can decide this request")

/-- A row the caller cannot do without. -/
def load {α : Type} (what : String) (id : ℕ) (f : World → Option α) : AccessService α := do
  let found ← storeRead f
  match found with
  | none => throw (notFound what id)
  | some a => pure a

structure LoadedRequest where
  request : AccessRequestRecord
  api : ApiRecord
  requester : UserRecord

def loadRequest (requestId : ℕ) : AccessService LoadedRequest := do
  let request ← load "Access request" requestId fun s => s.requests requestId
  let api ← load "API" request.apiId fun s => s.apis request.apiId
  let requester ← load "Requester" request.userId fun s => s.users request.userId
  pure ⟨request, api, requester⟩

/-- The section under the key of the API's proxy, where it has one. -/
def underProxy {α : Type} (slot : ℕ) (proxyId : Option ℕ) (p : AccessService α) : AccessService α :=
  match proxyId with
  | none => p
  | some proxyId => serializePerKey slot (.proxy proxyId) p

/-- The ids of the published tools. -/
def publishedTools (api : ApiRecord) : List ℕ :=
  (api.agents.getD []).reduceOption

def validateToolSubset (api : ApiRecord) : Option (List ℕ) → Except NexusError Unit
  | none => .ok ()
  | some tools =>
    if (api.agents.getD []).any (·.isNone) then
      .error (conflict "The provider must republish this phase-1 API before accepting tool subsets")
    else if MAX_AGENT_TOOLS < tools.length ∨ ¬ tools.Nodup ∨
        tools.any (fun id => !(publishedTools api).contains id) then
      .error (validationFailed "Tool subsets must contain unique currently published exposure IDs")
    else .ok ()

def statusName : AccessRequestStatus → String
  | .pending => "pending"
  | .approved => "approved"
  | .denied => "denied"
  | .cancelled => "cancelled"
  | .revoked => "revoked"

def alreadyDecided (status : AccessRequestStatus) : NexusError :=
  conflict ("This request is already " ++ statusName status)

/-- What a lost compare-and-set is told. -/
def decisionConflict {α : Type} (requestId : ℕ) : AccessService α := do
  let current ← storeRead fun s => s.requests requestId
  match current with
  | none => throw (notFound "Access request" requestId)
  | some request => throw (alreadyDecided request.status)

def revocationConflict {α : Type} (grantId : ℕ) : AccessService α := do
  let current ← storeRead fun s => s.grants grantId
  match current with
  | none => throw (notFound "Grant" grantId)
  | some _ => throw (conflict "This grant is already revoked")

/-- `assertApplicationActive`, on the row it reads. -/
def activeFor (owner applicationId : ℕ) : Option ApplicationRecord → Except NexusError Unit
  | none => .error (notFound "Application" applicationId)
  | some application =>
    if application.ownerUserId ≠ owner then .error (notFound "Application" applicationId)
    else if application.active then .ok ()
    else .error (conflict "This application is disabled")

def applicationActive (s : World) (owner : ℕ) : Option ℕ → Except NexusError Unit
  | none => .ok ()
  | some applicationId => activeFor owner applicationId (s.applications applicationId)

def assertApplicationActive (identity : Identity) : AccessService Unit := do
  let checked ← storeRead fun s => applicationActive s identity.userId identity.applicationId
  check checked

def txApplicationActive (identity : Identity) : Tx Unit := fun s =>
  match applicationActive s identity.userId identity.applicationId with
  | .ok () => .ok ((), s)
  | .error e => .error e

/-! ## Group membership -/

/-- `setGroupMembership` with the group present. -/
def addMembership {γ δ : Type} (slot : ℕ) (identity : Identity) (apiId : ℕ)
    (tools : Option (List ℕ)) (guard : AccessService (γ × Bool)) (afterWrite : AccessService δ) :
    AccessService (γ × Except NexusError (Option δ)) := do
  let api ← storeRead fun s => s.apis apiId
  let consumer ← ensureConsumer slot identity
  mutateAclGroups slot consumer.ferrumConsumerId
    { requireActiveUser := some identity.userId
      absentIsDone := false
      guard := guard
      change := fun _ groups => groups.filter (!isGroupOfApi apiId ·) ++
        aclGroupForApi apiId ::
          if (api.bind (·.agents)).isSome then mcpGroupsForGrant apiId tools else []
      afterWrite := afterWrite }

/-- `setGroupMembership` with the group absent: `none` for an identity that
never had a consumer. -/
def removeMembership {γ : Type} (slot : ℕ) (identity : Identity) (apiId : ℕ) (absentIsDone : Bool)
    (guard : AccessService (γ × Bool)) :
    AccessService (Option (γ × Except NexusError (Option Unit))) := do
  let consumer ← storeRead fun s => findConsumer s identity
  match consumer with
  | none => pure none
  | some consumer =>
    some <$> mutateAclGroups slot consumer.ferrumConsumerId
      { requireActiveUser := none
        absentIsDone := absentIsDone
        guard := guard
        change := fun _ groups => groups.filter (!isGroupOfApi apiId ·)
        afterWrite := pure () }

/-! ## Jobs -/

def stillOwned (job : AccessGatewayJobRecord) : AccessService Bool :=
  storeRead fun s => owned s job

/-- `settleOwnedJob`: best effort, the worker recovers what it leaves. -/
def settleOwnedJob (job : AccessGatewayJobRecord) (done : Bool) : AccessService Unit :=
  bestEffort (commit (if done then deleteClaimed job else reschedule job))

/-- What a released request loses. -/
def released (request : AccessRequestRecord) : AccessRequestRecord :=
  { request with status := .pending, decidedBy := none, decidedAt := none, approvedTools := none }

def cancelledByRecovery (request : AccessRequestRecord) : AccessRequestRecord :=
  { request with status := .cancelled, decidedBy := none, decidedAt := none, approvedTools := none }

/-- `settleOwnRequest`: only while this generation owns the job. -/
def settleOwnRequest (job : AccessGatewayJobRecord) (requestId : ℕ)
    (patch : AccessRequestRecord → AccessRequestRecord) :
    AccessService (Option AccessRequestRecord) :=
  commit do
    let mine ← txRead fun s => owned s job
    if mine then updateRequestIfStatus requestId .approved patch
    else pure none

/-- The active grant of an identity, read where a failure is swallowed. -/
def readActive (apiId : ℕ) (identity : Identity) : AccessService (Option GrantRecord) :=
  Option.join <$> swallow (storeRead fun s => findActive s apiId identity)

/-- `reconcileGroups`: set the identity's groups for the API to what its active
grant gives, adding only to an active account. -/
def reconcileGroups (slot : ℕ) (identity : Identity) (api : ApiRecord) :
    AccessService (Option GrantRecord) := do
  let readLive : AccessService ((Option GrantRecord × Bool) × Bool) := do
    let live ← storeRead fun s => findActive s api.id identity
    let active ← storeRead fun s => (s.users identity.userId).any (·.status == .active)
    pure ((live, active), true)
  let consumer ← storeRead fun s => findConsumer s identity
  match consumer with
  | none => do
    let seen ← readLive
    pure seen.1.1
  | some consumer => do
    let (seen, result) ← mutateAclGroups slot consumer.ferrumConsumerId
      { requireActiveUser := none
        absentIsDone := true
        guard := readLive
        change := fun seen groups =>
          let canonical :=
            match seen.1 with
            | none => []
            | some live => aclGroupForApi api.id ::
                if api.agents.isSome then mcpGroupsForGrant api.id live.approvedTools else []
          let kept := groups.filter fun entry => !isGroupOfApi api.id entry || canonical.contains entry
          kept ++ if seen.2 then canonical.filter fun entry => !kept.contains entry else []
        afterWrite := pure () }
    let _ ← check result
    pure seen.1

/-! ## Approval -/

/-- What the guard of an approval saw in the consumer's section. -/
inductive Ownership
  | mine
  | superseded
  | regranted
  deriving DecidableEq

def supersededApproval : NexusError :=
  conflict "This approval took too long and was handed to recovery; reload the request and retry"

def inactiveGrant : NexusError :=
  conflict "The grant this request would extend is no longer active"

def alreadyGranted : NexusError :=
  conflict "This identity already has an active grant for this API"

/-- A tool request whose last approval still owes its gateway step. -/
def noteReclaim (request : AccessRequestRecord) : Tx Unit := fun s =>
  if request.grantId.isSome ∧ (s.jobs request.id).isSome then
    .ok ((), { s with slips := .jobReclaimed :: s.slips })
  else .ok ((), s)

/-- The compare-and-set of `claimApproval`, with the job in one transaction. -/
def claimTx (actor : UserRecord) (request : AccessRequestRecord) (tools : Option (List ℕ))
    (decidedAt : ℕ) : Tx (Option (AccessRequestRecord × AccessGatewayJobRecord)) := do
  let moved ← updateRequestIfStatus request.id .pending fun row => { row with
    status := .approved, approvedTools := tools, decidedBy := some actor.id,
    decidedAt := some decidedAt }
  match moved with
  | none => pure none
  | some updated => do
    noteReclaim request
    let job ← upsertClaimed ⟨.approve, request.id, request.apiId, request.identity, actor.id⟩
    pure (some (updated, job))

def claimApproval (actor : UserRecord) (request : AccessRequestRecord) (tools : Option (List ℕ)) :
    AccessService (AccessRequestRecord × AccessGatewayJobRecord) := do
  let decidedAt ← nowIso
  let claimed ← commit (claimTx actor request tools decidedAt)
  match claimed with
  | none => decisionConflict request.id
  | some claimed => pure claimed

/-- Take the groups of the API off unless a grant stands behind them. Answers
with that grant, and whether the groups are off or kept for it. -/
def takeBackGroups (slot : ℕ) (apiId : ℕ) (identity : Identity) (absentIsDone : Bool) :
    AccessService (Option GrantRecord × Bool) :=
  tryCatch
    (do
      let outcome ← removeMembership slot identity apiId absentIsDone do
        let regrant ← storeRead fun s => findActive s apiId identity
        pure (regrant, regrant.isNone)
      match outcome with
      | none => pure (none, true)
      | some (regrant, .ok _) => pure (regrant, true)
      | some (_, .error _) => pure (none, false))
    fun _ => pure (none, false)

/-- The part of `unwindApproval` after no active grant was read. -/
def unwindGroup (slot : ℕ) (api : ApiRecord) (request : AccessRequestRecord) (groupAdded : Bool)
    (job : AccessGatewayJobRecord) : AccessService Bool := do
  let (regrant, removed) ←
    (if groupAdded then takeBackGroups slot api.id request.identity false else pure (none, true))
  match regrant with
  | some regrant => pure (removed && regrant.accessRequestId == some request.id)
  | none => do
    let moved ← swallow (settleOwnRequest job request.id released)
    pure (removed && moved.isSome)

/-- The compensation of an approval whose grant was not committed. Answers
whether the job is settled. -/
def unwindApproval (slot : ℕ) (api : ApiRecord) (request : AccessRequestRecord)
    (groupAdded : Bool) (job : AccessGatewayJobRecord) : AccessService Bool := do
  let live ← readActive api.id request.identity
  let settled ← (match live with
    | some live => pure (live.accessRequestId == some request.id)
    | none => unwindGroup slot api request groupAdded job)
  bestEffort (commit (record .accessApproveRollback request.id))
  pure settled

/-- The guard of an approval, in the consumer's section. -/
def approvalGuard (job : AccessGatewayJobRecord) (apiId : ℕ) (identity : Identity)
    (allowed : Option GrantRecord → Bool) : AccessService (Ownership × Bool) := do
  let mine ← stillOwned job
  if mine then do
    let holder ← storeRead fun s => findActive s apiId identity
    if allowed holder then pure (.mine, true) else pure (.regranted, false)
  else pure (.superseded, false)

/-- What follows the gateway step of either kind of approval. -/
def concludeApproval (job : AccessGatewayJobRecord) (unwind : NexusError → AccessService Bool)
    (regranted : NexusError) :
    Except NexusError (Ownership × Except NexusError (Option GrantRecord)) →
      AccessService GrantRecord
  | .ok (.superseded, _) => throw supersededApproval
  | .ok (.regranted, _) => do
    settleOwnedJob job false
    throw regranted
  | .ok (.mine, .ok (some grant)) => pure grant
  | .ok (.mine, .ok none) => throw ⟨.internal, "The approval recorded no grant", none⟩
  | .ok (.mine, .error error) => do
    let settled ← unwind error
    settleOwnedJob job settled
    throw error
  | .error error => do
    let settled ← unwind error
    settleOwnedJob job settled
    throw error

/-- The grant and the end of its job, in one transaction. -/
def grantTx (api : ApiRecord) (request : AccessRequestRecord) (tools : Option (List ℕ))
    (job : AccessGatewayJobRecord) : Tx GrantRecord := do
  txApplicationActive request.identity
  let created ← createGrant api.id request.identity request.id tools
  record .accessApprove request.id
  let mine ← deleteClaimed job
  if mine then pure created else throw supersededApproval

/-- The branch of `approve` that makes a new grant. -/
def approveAccess (slot : ℕ) (actor : UserRecord) (request : AccessRequestRecord) (api : ApiRecord)
    (approvedTools : Option (Option (List ℕ))) : AccessService GrantRecord := do
  let existing ← storeRead fun s => findActive s api.id request.identity
  ensure existing.isNone alreadyGranted
  let tools := approvedTools.getD request.requestedTools
  check (validateToolSubset api tools)
  ensure (match request.requestedTools, tools with
      | none, _ => true
      | some _, none => false
      | some requested, some tools => tools.all requested.contains)
    (validationFailed "Approval cannot broaden the requested tool subset")
  let (_, job) ← claimApproval actor request tools
  let outcome ← attempt (addMembership slot request.identity api.id tools
    (approvalGuard job api.id request.identity fun holder =>
      holder.all (·.accessRequestId == some request.id))
    (commit (grantTx api request tools job)))
  concludeApproval job
    (fun error => unwindApproval slot api request (error.code != .userDisabled) job)
    alreadyGranted outcome

/-! ## Tool approval -/

/-- Of `added`, what the holder's grant does not cover. -/
def uncoveredBy (holder : Option GrantRecord) (added : List ℕ) : List ℕ :=
  match holder with
  | none => added
  | some grant =>
    match grant.approvedTools with
    | none => []
    | some covered => added.filter fun id => !covered.contains id

/-- The second grant read of the compensation, whose failure counts as there
being no grant. -/
def readHolder (apiId : ℕ) (identity : Identity) : AccessService (Option GrantRecord) :=
  atomic fun s o =>
    match o with
    | .ok => some (.ok (findActive s apiId identity), s)
    | _ =>
      if (findActive s apiId identity).isSome then
        some (.ok none, { s with slips := .grantUnread :: s.slips })
      else some (.ok none, s)

/-- What a step of the compensation found: the grant that stands in its place,
the tools the grant covered in the consumer's section, and whether the groups
are off. -/
structure Unwound where
  regrant : Option GrantRecord
  covered : Option (Option (List ℕ))
  settled : Bool

/-- Take the groups of the uncovered tools off. -/
def takeBackTools (slot : ℕ) (apiId : ℕ) (identity : Identity) (uncovered : List ℕ) :
    AccessService Unwound :=
  tryCatch
    (do
      let consumer ← storeRead fun s => findConsumer s identity
      match consumer with
      | none => pure ⟨none, none, true⟩
      | some consumer => do
        let (covered, result) ← mutateAclGroups slot consumer.ferrumConsumerId
          { requireActiveUser := none
            absentIsDone := true
            guard := do
              let current ← storeRead fun s => findActive s apiId identity
              pure (match current with
                | some grant => grant.approvedTools
                | none => some [], true)
            change := fun covered groups =>
              match covered with
              | none => groups
              | some covered => groups.filter fun entry =>
                  !(mcpGroupsForGrant apiId (some (uncovered.filter
                    fun id => !covered.contains id))).contains entry
            afterWrite := pure () }
        pure ⟨none, some covered, result.toBool⟩)
    fun _ => pure ⟨none, none, false⟩

/-- The gateway part of a tool approval's compensation. -/
def unwindTools (slot : ℕ) (apiId : ℕ) (identity : Identity) (holder : Option GrantRecord)
    (uncovered : List ℕ) (attempted : Bool) : AccessService Unwound :=
  if attempted && holder.isNone then
    (fun found => ⟨found.1, none, found.2⟩) <$> takeBackGroups slot apiId identity true
  else if attempted && !uncovered.isEmpty then takeBackTools slot apiId identity uncovered
  else pure ⟨none, none, true⟩

/-- Whether another decision already answers the request. -/
def Unwound.decided (unwound : Unwound) (added : List ℕ) : Bool :=
  unwound.regrant.isSome ||
    match unwound.covered with
    | none => false
    | some none => true
    | some (some covered) => added.all covered.contains

/-- The part of `unwindToolApproval` whose grant does not cover what was
added: the groups, then the request. -/
def unwindUncovered (slot : ℕ) (api : ApiRecord) (request : AccessRequestRecord)
    (active holder : Option GrantRecord) (added : List ℕ) (attempted : Bool)
    (job : AccessGatewayJobRecord) : AccessService Bool := do
  let unwound ← unwindTools slot api.id request.identity holder (uncoveredBy holder added) attempted
  if unwound.decided added then pure unwound.settled
  else do
    let moved ← swallow (settleOwnRequest job request.id
      (if active.isSome then released else cancelledByRecovery))
    pure (unwound.settled && moved.isSome)

/-- The compensation of a tool approval. Answers whether the job is settled. -/
def unwindToolApproval (slot : ℕ) (api : ApiRecord) (request : AccessRequestRecord) (grantId : ℕ)
    (added : List ℕ) (attempted : Bool) (job : AccessGatewayJobRecord) : AccessService Bool := do
  let live ← Option.join <$> swallow (storeRead fun s => s.grants grantId)
  let active := live.filter (·.status == .active)
  let holder ← (match active with
    | some grant => pure (some grant)
    | none => readHolder api.id request.identity)
  let settled ←
    (if active.isSome && (uncoveredBy holder added).isEmpty then
      Option.isSome <$> swallow (reconcileGroups slot request.identity api)
    else if active.isNone && holder.isSome then pure false
    else unwindUncovered slot api request active holder added attempted job)
  bestEffort (commit (record .accessToolsApproveRollback request.id))
  pure settled

/-- The wider grant and the end of its job, in one transaction. -/
def widenTx (request : AccessRequestRecord) (grantId : ℕ) (current next : List ℕ)
    (job : AccessGatewayJobRecord) : Tx GrantRecord := do
  txApplicationActive request.identity
  let live ← txRead fun s => s.grants grantId
  if live.any fun grant => grant.status == .active && grant.approvedTools == some current then
    let widened ← updateGrantIfStatus grantId .active fun grant =>
      { grant with approvedTools := some next }
    match widened with
    | none => throw inactiveGrant
    | some widened => do
      let mine ← deleteClaimed job
      if mine then do
        record .accessToolsApprove request.id
        pure widened
      else throw supersededApproval
  else throw inactiveGrant

/-- The grant a tool request names, if it can still be extended. -/
def extensible (request : AccessRequestRecord) (api : ApiRecord) (grant : Option GrantRecord) :
    Except NexusError (List ℕ) :=
  match grant with
  | none => .error inactiveGrant
  | some grant =>
    if grant.status = .active ∧ grant.apiId = api.id ∧ grant.identity = request.identity then
      match grant.approvedTools with
      | none => .error (conflict "This grant already covers every published tool")
      | some current => .ok current
    else .error inactiveGrant

/-- The tools a tool approval adds. -/
def addedTools (request : AccessRequestRecord) (current : List ℕ)
    (approvedTools : Option (Option (List ℕ))) : Except NexusError (List ℕ) :=
  let requested := request.requestedTools.getD []
  match approvedTools.getD (some requested) with
  | none => .error (validationFailed "Approve at least one requested tool, or deny the request")
  | some added =>
    if added = [] then
      .error (validationFailed "Approve at least one requested tool, or deny the request")
    else if added.any fun id => !requested.contains id then
      .error (validationFailed "Approval cannot broaden the requested tool subset")
    else if added.any current.contains then
      .error (validationFailed "The grant already covers some of these tools")
    else .ok added

def approveTools (slot : ℕ) (actor : UserRecord) (request : AccessRequestRecord) (api : ApiRecord)
    (grantId : ℕ) (approvedTools : Option (Option (List ℕ))) : AccessService GrantRecord := do
  let grant ← storeRead fun s => s.grants grantId
  let current ← check (extensible request api grant)
  let added ← check (addedTools request current approvedTools)
  check (validateToolSubset api (some added))
  let (_, job) ← claimApproval actor request (some added)
  let outcome ← attempt (addMembership slot request.identity api.id (some (current ++ added))
    (approvalGuard job api.id request.identity fun holder =>
      holder.all fun grant => grant.id == grantId && grant.approvedTools == some current)
    (commit (widenTx request grantId current (current ++ added) job)))
  concludeApproval job
    (fun error => unwindToolApproval slot api request grantId added
      (error.code != .userDisabled) job)
    inactiveGrant outcome

/-- The check of `approve` on the application a request is for. -/
def assertRequestApplication : Option ℕ → AccessService Unit
  | none => pure ()
  | some applicationId => do
    let application ← storeRead fun s => s.applications applicationId
    ensure (application.any (·.active))
      (conflict "The application this request is for is disabled")

/-- `approve` inside the proxy key. -/
def decideApproval (slot : ℕ) (actor : UserRecord) (requestId : ℕ) (proxyId : Option ℕ)
    (approvedTools : Option (Option (List ℕ))) : AccessService GrantRecord := do
  let loaded ← loadRequest requestId
  assertCanReview actor loaded.api
  ensure (loaded.api.ferrumProxyId == proxyId)
    (conflict "The gateway proxy changed while approval was waiting; reload and retry")
  ensure loaded.api.published
    (conflict "This API is retired and is no longer accepting access approvals")
  ensure loaded.api.requestable (conflict "This API does not accept access approvals")
  ensure (loaded.request.status == .pending) (alreadyDecided loaded.request.status)
  assertRequestApplication loaded.request.applicationId
  match loaded.request.grantId with
  | some grantId => approveTools slot actor loaded.request loaded.api grantId approvedTools
  | none => approveAccess slot actor loaded.request loaded.api approvedTools

def approve (slot : ℕ) (actor : UserRecord) (requestId : ℕ)
    (approvedTools : Option (Option (List ℕ))) : AccessService GrantRecord := do
  let initial ← loadRequest requestId
  assertCanReview actor initial.api
  underProxy slot initial.api.ferrumProxyId
    (decideApproval slot actor requestId initial.api.ferrumProxyId approvedTools)

end FerrumNexus.Access
