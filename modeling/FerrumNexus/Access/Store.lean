import FerrumNexus.Credentials.Consumers

/-!
# Requests, grants and the jobs they owe

The calls of the access service on its own tables. At most one request of an
identity and API is pending and at most one grant active: the schema has a
partial unique index for each, so a write that would break it is refused and
rolls its transaction back. A decision that still owes a gateway step has a row
of `access_gateway_jobs`, owned by the generation that claimed it last.
-/
namespace FerrumNexus.Access

open Saga Platform Portal Credentials

abbrev AccessService (α : Type) := Service World α

/-- A transaction in progress: a later failure takes every write back. -/
abbrev Tx (α : Type) := StateT World (Except NexusError) α

/-- `store.transaction`. -/
def commit {α : Type} (body : Tx α) : AccessService α :=
  transaction body

/-- `audit.record`. -/
def record (action : AuditAction) (targetId : ℕ) : Tx Unit := fun s =>
  .ok ((), { s with audits := s.audits ++ [⟨action, targetId⟩] })

/-- A read inside a transaction. -/
def txRead {α : Type} (f : World → α) : Tx α := fun s => .ok (f s, s)

/-- `nowIso()`. -/
def nowIso : AccessService ℕ :=
  atomic fun s _ => some (.ok s.now, s)

/-! ## Groups -/

def aclGroupForApi (apiId : ℕ) : AclGroup := .api apiId

/-- `null` covers every tool, and a subset those it names. -/
def mcpGroupsForGrant (apiId : ℕ) : Option (List ℕ) → List AclGroup
  | none => [.mcpAll apiId]
  | some tools => tools.map (AclGroup.mcpTool apiId)

def isMcpGroupForApi (apiId : ℕ) : AclGroup → Bool
  | .mcpAll id => id == apiId
  | .mcpTool id _ => id == apiId
  | _ => false

/-- The groups of one API, whoever put them on. -/
def isGroupOfApi (apiId : ℕ) (group : AclGroup) : Bool :=
  group == aclGroupForApi apiId || isMcpGroupForApi apiId group

/-! ## Grants -/

/-- The rows of a table, by id. -/
def rowsOf {α : Type} (s : World) (table : ℕ → Option α) : List α :=
  (List.range s.fresh).filterMap table

/-- `findActiveByApiAndUser`. -/
def findActive (s : World) (apiId : ℕ) (identity : Identity) : Option GrantRecord :=
  (rowsOf s s.grants).find? fun grant =>
    grant.apiId == apiId && grant.identity == identity && grant.status == .active

def uniqueViolation : NexusError := conflict "A row with these values already exists"

/-- `grants.create` of an active grant. -/
def createGrant (apiId : ℕ) (identity : Identity) (accessRequestId : ℕ)
    (approvedTools : Option (List ℕ)) : Tx GrantRecord := fun s =>
  if (findActive s apiId identity).isSome then .error uniqueViolation
  else
    let grant : GrantRecord :=
      { id := s.fresh
        apiId := apiId
        userId := identity.userId
        applicationId := identity.applicationId
        accessRequestId := some accessRequestId
        approvedTools := approvedTools
        status := .active
        revokedBy := none
        revokedAt := none }
    .ok (grant, { s with
      grants := Function.update s.grants s.fresh (some grant)
      fresh := s.fresh + 1 })

/-- `grants.updateIfStatus`. -/
def updateGrantIfStatus (id : ℕ) (expected : GrantStatus) (patch : GrantRecord → GrantRecord) :
    Tx (Option GrantRecord) := fun s =>
  match s.grants id with
  | none => .ok (none, s)
  | some grant =>
    if grant.status ≠ expected then .ok (none, s)
    else if grant.status = .revoked ∧ (patch grant).status = .active ∧
        (findActive s grant.apiId grant.identity).isSome then
      .error uniqueViolation
    else .ok (some (patch grant), { s with
      grants := Function.update s.grants id (some (patch grant)) })

/-! ## Requests -/

/-- `findPendingByApiAndUser`. -/
def findPending (s : World) (apiId : ℕ) (identity : Identity) : Option AccessRequestRecord :=
  (rowsOf s s.requests).find? fun request =>
    request.apiId == apiId && request.identity == identity && request.status == .pending

/-- `accessRequests.create` of a pending request. -/
def pendingRow (id apiId : ℕ) (identity : Identity) (requestedTools : Option (List ℕ))
    (grantId : Option ℕ) : AccessRequestRecord :=
  { id := id, apiId := apiId, userId := identity.userId, applicationId := identity.applicationId,
    requestedTools := requestedTools, approvedTools := none, grantId := grantId, status := .pending,
    decidedBy := none, decidedAt := none }

def createRequest (apiId : ℕ) (identity : Identity) (requestedTools : Option (List ℕ))
    (grantId : Option ℕ) : Tx AccessRequestRecord := fun s =>
  if (findPending s apiId identity).isSome then .error uniqueViolation
  else
    let request := pendingRow s.fresh apiId identity requestedTools grantId
    .ok (request, { s with
      requests := Function.update s.requests s.fresh (some request)
      fresh := s.fresh + 1 })

/-- `accessRequests.updateIfStatus`: the row as moved, or `none` and no change. -/
def updateRequestIfStatus (id : ℕ) (expected : AccessRequestStatus)
    (patch : AccessRequestRecord → AccessRequestRecord) : Tx (Option AccessRequestRecord) := fun s =>
  match s.requests id with
  | none => .ok (none, s)
  | some request =>
    if request.status ≠ expected then .ok (none, s)
    else if request.status ≠ .pending ∧ (patch request).status = .pending ∧
        (findPending s request.apiId request.identity).isSome then
      .error uniqueViolation
    else .ok (some (patch request), { s with
      requests := Function.update s.requests id (some (patch request)) })

/-! ## Jobs -/

/-- What `upsertClaimed` records. -/
structure JobInput where
  kind : JobKind
  subjectId : ℕ
  apiId : ℕ
  identity : Identity
  requestedBy : ℕ

/-- `accessGatewayJobs.upsertClaimed`: a row the subject already carries keeps
its id and is owned anew. -/
def upsertClaimed (input : JobInput) : Tx AccessGatewayJobRecord := fun s =>
  let job : AccessGatewayJobRecord :=
    { id := ((s.jobs input.subjectId).map (·.id)).getD s.fresh
      generation := s.fresh + 1
      kind := input.kind
      subjectId := input.subjectId
      apiId := input.apiId
      userId := input.identity.userId
      applicationId := input.identity.applicationId
      requestedBy := input.requestedBy
      status := .sending
      attempts := 0 }
  .ok (job, { s with
    jobs := Function.update s.jobs input.subjectId (some job)
    fresh := s.fresh + 2 })

/-- Whether this generation still owns the row its subject carries. -/
def owned (s : World) (job : AccessGatewayJobRecord) : Bool :=
  (s.jobs job.subjectId).any fun row =>
    row.id == job.id && row.generation == job.generation && row.status == .sending

/-- `accessGatewayJobs.deleteClaimed`: whether this generation still owned it. -/
def deleteClaimed (job : AccessGatewayJobRecord) : Tx Bool := fun s =>
  if owned s job then
    .ok (true, { s with jobs := Function.update s.jobs job.subjectId none })
  else .ok (false, s)

/-- The subject's row, if it carries one, back to `pending`. -/
def requeue (subjectId : ℕ) (s : World) : World :=
  let row := (s.jobs subjectId).map fun row => { row with status := .pending }
  { s with jobs := Function.update s.jobs subjectId row }

def reschedule (job : AccessGatewayJobRecord) : Tx Bool := fun s =>
  if owned s job then .ok (true, requeue job.subjectId s) else .ok (false, s)

/-- `accessGatewayJobs.deleteBySubject`. -/
def deleteBySubject (subjectId : ℕ) : Tx Unit := fun s =>
  .ok ((), { s with jobs := Function.update s.jobs subjectId none })

/-- `releaseStale`, for one row: how long it has been there is up to the run. -/
def releaseStale (subjectId : ℕ) : Tx Unit := fun s =>
  .ok ((), requeue subjectId s)

/-- `claimDue`, for one row: when it is due is up to the run. -/
def claimDue (subjectId : ℕ) : Tx (Option AccessGatewayJobRecord) := fun s =>
  match s.jobs subjectId with
  | none => .ok (none, s)
  | some job =>
    if job.status ≠ .pending then .ok (none, s)
    else
      let claimed := { job with
        status := .sending, attempts := job.attempts + 1, generation := s.fresh }
      .ok (some claimed, { s with
        jobs := Function.update s.jobs subjectId (some claimed)
        fresh := s.fresh + 1 })

end FerrumNexus.Access
