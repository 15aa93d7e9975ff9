import FerrumNexus.Access.Revocation
import FerrumNexus.Saga.Leased

/-!
# Admitting requests within a daily budget

The calls that create an access request, over the tables they read and write.
An account is charged by the audit rows of its requests, which nothing removes,
so a cancelled request and one whose application is gone stay charged. The rows
are counted, and the new one written, in a transaction under the account's
budget lease, and the clock moves on in between. History: `created` lists every
request ever created. Ids are random and do not repeat.
-/
namespace FerrumNexus.Access.Budget

open Saga Platform Portal

/-- The actions of the audit rows the admission reads or writes. -/
inductive AuditAction
  | accessRequest
  | accessToolsRequest
  | accessCancel
  | other (n : ℕ)
  deriving DecidableEq, Repr

structure AuditRecord where
  actorUserId : Option ℕ
  action : AuditAction
  targetId : ℕ
  createdAt : ℕ
  deriving DecidableEq, Repr

/-- One request, by whom it was made. -/
structure Creation where
  requestId : ℕ
  userId : ℕ
  deriving DecidableEq, Repr

structure RequestTables where
  now : ℕ
  apis : List ApiRecord
  applications : List ApplicationRecord
  grants : List GrantRecord
  requests : List AccessRequestRecord
  audits : List AuditRecord
  created : List Creation

inductive RequestKey
  | budget (userId : ℕ)
  | proxy (proxyId : ℕ)
  | name (applicationId : ℕ)
  deriving DecidableEq, Repr

inductive RequestError
  | of (error : NexusError)
  | quotaExceeded (limit : ℕ)
  deriving DecidableEq, Repr

abbrev RequestQuery (α : Type) := Query RequestTables RequestError α

abbrev RequestWrite (α : Type) := Write RequestTables RequestError α

abbrev RequestProgram (α : Type) := LeasedProgram RequestKey RequestTables RequestError α

abbrev Held := List (RequestKey × ℕ)

/-! ## Reads -/

def reads {α : Type} (f : RequestTables → α) : RequestQuery α := look (.of storeFailure) f

def refuse (condition : Bool) (error : NexusError) : RequestQuery Unit :=
  if condition then throw (.of error) else pure ()

/-- A pure check that throws. -/
def checked {α : Type} : Except NexusError α → RequestQuery α
  | .ok a => pure a
  | .error error => throw (.of error)

/-- A row by its id, or the error for its absence. -/
def loadRow {α : Type} (missing : NexusError) (f : RequestTables → Option α) : RequestQuery α := do
  match ← reads f with
  | none => throw (.of missing)
  | some row => pure row

namespace RequestTables

variable (d : RequestTables)

def findApi (id : ℕ) : Option ApiRecord := d.apis.find? fun api => api.id = id

def findGrant (id : ℕ) : Option GrantRecord := d.grants.find? fun grant => grant.id = id

def findActive (apiId : ℕ) (identity : Identity) : Option GrantRecord :=
  d.grants.find? fun grant =>
    grant.apiId = apiId ∧ grant.identity = identity ∧ grant.status = .active

def findRequest (id : ℕ) : Option AccessRequestRecord :=
  d.requests.find? fun request => request.id = id

def findPending (apiId : ℕ) (identity : Identity) : Option AccessRequestRecord :=
  d.requests.find? fun request =>
    request.apiId = apiId ∧ request.identity = identity ∧ request.status = .pending

/-- `canViewApi` for a private API: its owner, an administrator, a grantee
through any identity, and an authorised viewer. -/
def canView (user : UserRecord) (api : ApiRecord) : Bool :=
  api.viewers.all fun viewers =>
    api.ownerUserId == user.id || roleAtLeast user.role .admin ||
    d.grants.any (fun grant => grant.apiId == api.id && grant.userId == user.id &&
      grant.status == .active) ||
    viewers.contains user.id

def applicationActive (owner : ℕ) : Option ℕ → Except NexusError Unit
  | none => .ok ()
  | some applicationId =>
    activeFor owner applicationId
      (d.applications.find? fun application => application.id = applicationId)

/-- `auditLogs.count`, of one actor and action, from a time on. -/
def countAudits (userId : ℕ) (action : AuditAction) (since : ℕ) : ℕ :=
  (d.audits.filter fun row =>
    row.actorUserId = some userId ∧ row.action = action ∧ since ≤ row.createdAt).length

end RequestTables

/-- 24 hours, in milliseconds. -/
def ACCESS_REQUEST_BUDGET_WINDOW_MS : ℕ := 24 * 60 * 60 * 1000

/-- Refuse the request when the account has spent its budget. The two kinds of
charge are counted by two queries. -/
def assertWithinBudget (limit userId : ℕ) : RequestQuery Unit :=
  if limit = 0 then pure ()
  else do
    let now ← reads (·.now)
    let since := now - ACCESS_REQUEST_BUDGET_WINDOW_MS
    let requests ← reads (·.countAudits userId .accessRequest since)
    let tools ← reads (·.countAudits userId .accessToolsRequest since)
    if requests + tools < limit then pure () else throw (.quotaExceeded limit)

/-! ## Writes -/

def record (row : AuditRecord) : RequestWrite Unit :=
  modify fun d => { d with audits := d.audits ++ [row] }

/-- `accessRequests.create` of a pending request. -/
def createRequest (row : AccessRequestRecord) : RequestWrite Unit := do
  let d : RequestTables ← get
  if (d.findPending row.apiId row.identity).isSome then throw (.of uniqueViolation)
  else if d.created.any fun creation => creation.requestId == row.id then
    throw (.of uniqueViolation)
  else modify fun d => { d with
    requests := d.requests ++ [row], created := d.created ++ [⟨row.id, row.userId⟩] }

/-- `accessRequests.updateIfStatus` to cancelled: whether the row moved. -/
def cancelPending (id decidedBy decidedAt : ℕ) : RequestWrite Bool := do
  let d : RequestTables ← get
  if d.requests.any fun row => row.id == id && row.status == .pending then do
    modify fun d => { d with requests := d.requests.map fun row =>
      if row.id = id then
        { row with status := .cancelled, decidedBy := some decidedBy, decidedAt := some decidedAt }
      else row }
    pure true
  else pure false

/-- A cancellation with its audit row: whether the row moved. -/
def cancelRequest (id decidedBy decidedAt stamp : ℕ) : RequestWrite Bool := do
  let moved ← cancelPending id decidedBy decidedAt
  if moved then record ⟨some decidedBy, .accessCancel, id, stamp⟩
  pure moved

/-- A new request, with the audit row that charges its account. -/
def admitted (action : AuditAction) (row : AccessRequestRecord) (stamp : ℕ) :
    RequestWrite AccessRequestRecord := do
  createRequest row
  record ⟨some row.userId, action, row.id, stamp⟩
  pure row

/-! ## Admission -/

def timeout : RequestError := .of lockTimeout

section Admission

variable (limit : ℕ) (isolation : Isolation) (slot : ℕ)

def underProxy {α : Type} (proxyId : Option ℕ) (fn : Held → RequestProgram α) (held : Held) :
    RequestProgram α :=
  match proxyId with
  | none => fn held
  | some proxyId => underLease timeout slot (.proxy proxyId) fn held

def underName {α : Type} (applicationId : Option ℕ) (fn : Held → RequestProgram α) (held : Held) :
    RequestProgram α :=
  match applicationId with
  | none => fn held
  | some applicationId => underLease timeout slot (.name applicationId) fn held

def spendBudget {α : Type} (userId : ℕ) (write : Held → RequestProgram α) (held : Held) :
    RequestProgram α :=
  if limit = 0 then write held
  else underLease timeout slot (.budget userId) write held

def transaction {α : Type} (body : RequestQuery (RequestWrite α)) (held : Held) :
    RequestProgram α :=
  transact (.of storeFailure) timeout isolation slot held body

/-- The API read again under its key, still taking requests from this user. -/
def stillRequestable (user : UserRecord) (api : ApiRecord) (missing : NexusError) :
    RequestQuery ApiRecord := do
  let found ← reads (·.findApi api.id)
  let fresh ← checked (assertUnchanged api found)
  let visible ← reads (·.canView user fresh)
  refuse (!visible) missing
  pure fresh

def activeApplication (owner : ℕ) (applicationId : Option ℕ) : RequestQuery Unit := do
  let found ← reads (·.applicationActive owner applicationId)
  checked found

/-- A pending tool request whose grant is gone makes room for a new request. -/
def closeStale (user : UserRecord) : Option AccessRequestRecord → RequestQuery (RequestWrite Unit)
  | none => pure (pure ())
  | some pending => do
    let extended ← reads fun d => pending.grantId.bind d.findGrant
    if isStale pending extended then do
      let decidedAt ← reads (·.now)
      let stamp ← reads (·.now)
      pure do
        let closed ← cancelRequest pending.id user.id decidedAt stamp
        if closed then pure () else throw (.of pendingExists)
    else throw (.of pendingExists)

def requestBody (user : UserRecord) (apiId : ℕ) (applicationId : Option ℕ)
    (requestedTools : Option (List ℕ)) : RequestQuery (RequestWrite AccessRequestRecord) := do
  assertWithinBudget limit user.id
  let pending ← reads (·.findPending apiId ⟨user.id, applicationId⟩)
  let close ← closeStale user pending
  let id ← draw
  let stamp ← reads (·.now)
  let row := pendingRow id apiId ⟨user.id, applicationId⟩ requestedTools none
  pure do
    close
    admitted .accessRequest row stamp

def request (user : UserRecord) (apiId : ℕ) (applicationId : Option ℕ)
    (requestedTools : Option (List ℕ)) : RequestProgram AccessRequestRecord := do
  let api ← (do
    let api ← loadRow (notFound "API" apiId) (·.findApi apiId)
    let visible ← reads (·.canView user api)
    checked (assertRequestable user api visible (notFound "API" apiId))
    let held ← reads (·.findActive api.id ⟨user.id, applicationId⟩)
    checked (assertNotHeld applicationId held)
    pure api).watch
  let enter (held : Held) : RequestProgram AccessRequestRecord := do
    (do
      let fresh ← stillRequestable user api (notFound "API" apiId)
      checked (validateToolSubset fresh requestedTools)
      activeApplication user.id applicationId).watch
    spendBudget limit slot user.id
      (transaction isolation slot (requestBody limit user api.id applicationId requestedTools)) held
  underProxy slot api.ferrumProxyId (underName slot applicationId enter) []

def requestToolsBody (user : UserRecord) (apiId grantId : ℕ) (applicationId : Option ℕ)
    (requestedTools : List ℕ) : RequestQuery (RequestWrite AccessRequestRecord) := do
  assertWithinBudget limit user.id
  let grant : Option GrantRecord ← reads (·.findGrant grantId)
  refuse (!grant.any (·.status == .active)) inactiveGrant
  let pending ← reads (·.findPending apiId ⟨user.id, applicationId⟩)
  refuse pending.isSome pendingExists
  let id ← draw
  let stamp ← reads (·.now)
  let row := pendingRow id apiId ⟨user.id, applicationId⟩ (some requestedTools) (some grantId)
  pure (admitted .accessToolsRequest row stamp)

def requestTools (user : UserRecord) (grantId : ℕ) (requestedTools : List ℕ) :
    RequestProgram AccessRequestRecord := do
  let (initial, api) ← (do
    let initial ← loadRow (notFound "Grant" grantId) (·.findGrant grantId)
    refuse (initial.userId != user.id) (notFound "Grant" grantId)
    let api ← loadRow (notFound "Grant" grantId) (·.findApi initial.apiId)
    checked (assertToolsRequestable user api initial requestedTools)
    pure (initial, api)).watch
  let enter (held : Held) : RequestProgram AccessRequestRecord := do
    let grant ← (do
      let fresh ← stillRequestable user api (notFound "Grant" grantId)
      refuse fresh.agents.isNone (conflict "This API does not expose agent tools")
      checked (validateToolSubset fresh (some requestedTools))
      let found ← reads (·.findGrant grantId)
      let grant ← checked (assertExtensible user requestedTools found)
      activeApplication user.id grant.applicationId
      pure grant).watch
    spendBudget limit slot user.id
      (transaction isolation slot
        (requestToolsBody limit user api.id grantId grant.applicationId requestedTools)) held
  underProxy slot api.ferrumProxyId (underName slot initial.applicationId enter) []

/-! ## What happens in between -/

/-- What a lost compare-and-set is told. -/
def decisionConflict (requestId : ℕ) : RequestQuery Unit := do
  let current : AccessRequestRecord ←
    loadRow (notFound "Access request" requestId) (·.findRequest requestId)
  throw (.of (alreadyDecided current.status))

/-- `cancel`, by the requester. -/
def cancel (user : UserRecord) (requestId : ℕ) : RequestProgram Unit := do
  (do
    let request : AccessRequestRecord ←
      loadRow (notFound "Access request" requestId) (·.findRequest requestId)
    refuse (request.userId != user.id) (forbidden "Only the requester can cancel this request")
    refuse (request.status != AccessRequestStatus.pending) (alreadyDecided request.status)).watch
  let moved ← transaction isolation slot (do
    let decidedAt ← reads (·.now)
    let stamp ← reads (·.now)
    pure (cancelRequest requestId user.id decidedAt stamp)) []
  if moved then pure () else (decisionConflict requestId).watch

/-- The end of an application's deletion: its requests and grants go with it. -/
def deleteApplication (applicationId : ℕ) : RequestProgram Unit :=
  underName slot (some applicationId) (transaction isolation slot (pure (modify fun d =>
    { d with
      applications := d.applications.filter (·.id != applicationId)
      grants := d.grants.filter (·.applicationId != some applicationId)
      requests := d.requests.filter (·.applicationId != some applicationId) }))) []

/-- A commit of another service: it may change every table, and adds audit rows
of its own, but neither removes one nor writes a charge or a request. -/
structure Elsewhere where
  write : RequestTables → RequestTables
  now : ∀ d, (write d).now = d.now
  created : ∀ d, (write d).created = d.created
  requests : ∀ d, ∀ row ∈ (write d).requests, ∃ old ∈ d.requests,
    old.id = row.id ∧ old.userId = row.userId
  audits : ∀ d, ∃ rows, (write d).audits = d.audits ++ rows ∧
    ∀ row ∈ rows, row.action ≠ .accessRequest ∧ row.action ≠ .accessToolsRequest

def elsewhere (change : Elsewhere) : RequestProgram Unit :=
  transaction isolation slot (pure (modify change.write)) []

/-- Time passes. -/
def tick : RequestProgram Unit :=
  transaction isolation slot (do
    let elapsed ← draw
    pure (modify fun d => { d with now := d.now + elapsed })) []

inductive RequestOp
  | request (user : UserRecord) (apiId : ℕ) (applicationId : Option ℕ)
      (requestedTools : Option (List ℕ))
  | requestTools (user : UserRecord) (grantId : ℕ) (requestedTools : List ℕ)
  | cancel (user : UserRecord) (requestId : ℕ)
  | deleteApplication (applicationId : ℕ)
  | elsewhere (change : Elsewhere)
  | tick

def requestProgram : RequestOp → Program (Leased RequestKey RequestTables) Chance Unit
  | .request user apiId applicationId requestedTools =>
    (request limit isolation slot user apiId applicationId requestedTools).toProgram
  | .requestTools user grantId requestedTools =>
    (requestTools limit isolation slot user grantId requestedTools).toProgram
  | .cancel user requestId => (cancel isolation slot user requestId).toProgram
  | .deleteApplication applicationId => (deleteApplication isolation slot applicationId).toProgram
  | .elsewhere change => (elsewhere isolation slot change).toProgram
  | .tick => (tick isolation slot).toProgram

end Admission

end FerrumNexus.Access.Budget
