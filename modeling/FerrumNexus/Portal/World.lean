import FerrumNexus.Platform.Calls

/-!
# What the portal's services share

The rows of the portal's store that the modelled services read or write, the
gateway's consumers, and the leases. The portal mirrors every gateway
credential in a row of `credential_metadata`, and every decision about access
in a grant, a request and the groups of a consumer. The gateway keeps one array
of entries for each consumer and type, gives an entry no id, and never shows an
HTTP Basic one. An entry is identified here by its material, and a row by the
fingerprint of the material it was written for; fingerprints are taken to be
injective, so both are the same token. Ids, materials and generations come from
one counter that never repeats.
-/
namespace FerrumNexus.Portal

open Saga Platform

/-- `CREDENTIAL_TYPES`, in the source's order. -/
inductive CredentialType
  | keyauth
  | basicauth
  | jwt
  deriving DecidableEq, Repr

def CredentialType.name : CredentialType → String
  | keyauth => "keyauth"
  | basicauth => "basicauth"
  | jwt => "jwt"

inductive CredentialStatus
  | active
  | retiring
  | revoked
  deriving DecidableEq, Repr

/-- Membership in `LIVE_STATUSES`. -/
def CredentialStatus.isLive : CredentialStatus → Bool
  | active => true
  | retiring => true
  | revoked => false

structure UserRecord where
  id : ℕ
  role : Role
  status : UserStatus
  deriving DecidableEq, Repr

structure ApplicationRecord where
  id : ℕ
  ownerUserId : ℕ
  active : Bool
  deriving DecidableEq, Repr

/-- The usernames of gateway consumers: `nexus-user-<id>`, `nexus-app-<id>`,
`nexus-test-<api id>`, and whatever an operator chose. -/
inductive Username
  | ofUser (userId : ℕ)
  | ofApplication (applicationId : ℕ)
  | ofTest (apiId : ℕ)
  | other (n : ℕ)
  deriving DecidableEq, Repr

/-- A consumer id: the one `derivedId` computes from a username, or one drawn
by `newId()`. The two kinds never meet. -/
inductive ConsumerId
  | derived (username : Username)
  | assigned (n : ℕ)
  deriving DecidableEq, Repr

/-- The groups of a consumer: `nexus:api:<id>:approved`, the two kinds of MCP
group of an API, and an operator's own. -/
inductive AclGroup
  | api (apiId : ℕ)
  | mcpAll (apiId : ℕ)
  | mcpTool (apiId tool : ℕ)
  | other (n : ℕ)
  deriving DecidableEq, Repr

/-- A row of `credential_metadata`, less the fields kept for display only. -/
structure CredentialRecord where
  id : ℕ
  userId : ℕ
  applicationId : Option ℕ
  ferrumConsumerId : ConsumerId
  credentialType : CredentialType
  fingerprint : ℕ
  status : CredentialStatus
  rotatedFromId : Option ℕ
  edgeOrdinal : Option ℕ
  createdAt : ℕ
  updatedAt : ℕ
  deriving DecidableEq, Repr

/-- A consumer as the gateway holds it. -/
structure EdgeConsumer where
  username : Username
  aclGroups : List AclGroup
  credentials : CredentialType → List ℕ

/-- One positional delete the gateway applied: the fingerprint of the row it
was issued for, and the entry it took. Nothing in the portal reads it. -/
structure Removal where
  intended : ℕ
  removed : ℕ
  deriving DecidableEq, Repr

/-- A row of the `consumers` table: the identity a gateway consumer stands for. -/
structure ConsumerRecord where
  id : ℕ
  userId : ℕ
  applicationId : Option ℕ
  ferrumConsumerId : ConsumerId
  ferrumUsername : Username
  deriving DecidableEq, Repr

/-- A row of `gateway_identities`: a test consumer somebody registered. -/
structure GatewayIdentityRecord where
  id : ℕ
  userId : ℕ
  ferrumUsername : Username
  ferrumConsumerId : Option ConsumerId
  deriving DecidableEq, Repr

/-- An identity: the account itself, or one of its applications. -/
structure Identity where
  userId : ℕ
  applicationId : Option ℕ
  deriving DecidableEq, Repr

/-- `consumerUsernameForUser` and `consumerUsernameForApplication`. -/
def Identity.username (identity : Identity) : Username :=
  match identity.applicationId with
  | none => .ofUser identity.userId
  | some applicationId => .ofApplication applicationId

/-- Of a row of `apis`: its owner, its gateway proxy, whether it is published
and takes access requests, who may view it if it is private, and the tools it
exposes to agents, if any. A tool published before tools had ids has none. -/
structure ApiRecord where
  id : ℕ
  ownerUserId : ℕ
  ferrumProxyId : Option ℕ
  published : Bool
  requestable : Bool
  viewers : Option (List ℕ)
  agents : Option (List (Option ℕ))
  deriving DecidableEq, Repr

inductive GrantStatus
  | active
  | revoked
  deriving DecidableEq, Repr

/-- A row of `grants`. Its group is always the one of its API, and `null` tools
cover everything the API exposes. -/
structure GrantRecord where
  id : ℕ
  apiId : ℕ
  userId : ℕ
  applicationId : Option ℕ
  accessRequestId : Option ℕ
  approvedTools : Option (List ℕ)
  status : GrantStatus
  revokedBy : Option ℕ
  revokedAt : Option ℕ
  deriving DecidableEq, Repr

def GrantRecord.identity (grant : GrantRecord) : Identity :=
  ⟨grant.userId, grant.applicationId⟩

inductive AccessRequestStatus
  | pending
  | approved
  | denied
  | cancelled
  | revoked
  deriving DecidableEq, Repr

/-- A row of `access_requests`. One that names a grant asks for more tools. -/
structure AccessRequestRecord where
  id : ℕ
  apiId : ℕ
  userId : ℕ
  applicationId : Option ℕ
  requestedTools : Option (List ℕ)
  approvedTools : Option (List ℕ)
  grantId : Option ℕ
  status : AccessRequestStatus
  decidedBy : Option ℕ
  decidedAt : Option ℕ
  deriving DecidableEq, Repr

def AccessRequestRecord.identity (request : AccessRequestRecord) : Identity :=
  ⟨request.userId, request.applicationId⟩

inductive JobKind
  | revoke
  | approve
  deriving DecidableEq, Repr

inductive JobStatus
  | pending
  | sending
  deriving DecidableEq, Repr

/-- A row of `access_gateway_jobs`: the gateway step a decision still owes. -/
structure AccessGatewayJobRecord where
  id : ℕ
  generation : ℕ
  kind : JobKind
  subjectId : ℕ
  apiId : ℕ
  userId : ℕ
  applicationId : Option ℕ
  requestedBy : ℕ
  status : JobStatus
  attempts : ℕ
  deriving DecidableEq, Repr

def AccessGatewayJobRecord.identity (job : AccessGatewayJobRecord) : Identity :=
  ⟨job.userId, job.applicationId⟩

/-- A row of `gateway_teardown_jobs` that is not done. -/
structure GatewayTeardownJobRecord where
  userId : ℕ
  generation : ℕ
  status : JobStatus
  deriving DecidableEq, Repr

/-- The actions of the audit rows the access service writes. -/
inductive AuditAction
  | accessRequest
  | accessToolsRequest
  | accessCancel
  | accessDeny
  | accessApprove
  | accessToolsApprove
  | accessApproveRollback
  | accessToolsApproveRollback
  | accessRevoke
  | accessRevokeRollback
  | accessRevokeComplete
  deriving DecidableEq, Repr

structure AuditRecord where
  action : AuditAction
  targetId : ℕ
  deriving DecidableEq, Repr

/-- The lease keys: a consumer id, a consumer name, an API's proxy, an
account's lifecycle and its recovery. -/
inductive Key
  | consumer (consumerId : ConsumerId)
  | name (username : Username)
  | proxy (proxyId : ℕ)
  | lifecycle (userId : ℕ)
  | recovery (userId : ℕ)
  deriving DecidableEq, Repr

/-- A step of the source that later steps rest on and that does not bear it. A
run is held to a condition by the absence of such a step. -/
inductive Slip
  /-- A compensation took a failed read of the active grant for its absence. -/
  | grantUnread
  /-- A tool approval took over the job an earlier one still owed. -/
  | jobReclaimed
  deriving DecidableEq, Repr

/-- The store, the gateway and the leases. `holders` says which running
operation holds a key, and `redacts` whether the gateway hides the material of
the entries it lists. Grants and requests are tables by id, jobs by subject.
Nothing in the portal reads `removals` and `slips`. -/
structure World where
  rows : List CredentialRecord
  consumers : ConsumerId → Option EdgeConsumer
  users : ℕ → Option UserRecord
  applications : ℕ → Option ApplicationRecord
  mappings : List ConsumerRecord
  identities : List GatewayIdentityRecord
  apis : ℕ → Option ApiRecord
  grants : ℕ → Option GrantRecord
  requests : ℕ → Option AccessRequestRecord
  jobs : ℕ → Option AccessGatewayJobRecord
  teardownJobs : List GatewayTeardownJobRecord
  audits : List AuditRecord
  recoveryPending : ℕ → Bool
  holders : Key → Option ℕ
  redacts : Bool
  fresh : ℕ
  now : ℕ
  removals : List Removal
  slips : List Slip

abbrev PortalService (α : Type) := Service World α

/-! ## Keys -/

/-- What a caller that waited out its wait is told. -/
def lockTimeout : NexusError :=
  ⟨.lockTimeout, LEASE_CONFLICT_MESSAGE, none⟩

/-- Wait until nobody holds the key, then hold it; or give up. -/
def acquire (slot : ℕ) (key : Key) : PortalService Unit :=
  atomic fun s o =>
    match o, s.holders key with
    | .ok, some _ => none
    | .ok, none => some (.ok (), { s with holders := Function.update s.holders key (some slot) })
    | _, _ => some (.error lockTimeout, s)

def release (key : Key) : PortalService Unit :=
  atomic fun s _ => some (.ok (), { s with holders := Function.update s.holders key none })

/-- `edge.serializePerKey` for the operation in `slot`: a queue, not a
re-entrant lock, and released however the section ends. -/
def serializePerKey {α : Type} (slot : ℕ) (key : Key) (p : PortalService α) :
    PortalService α := do
  acquire slot key
  let result ← tryCatch p fun error => do
    release key
    throw error
  release key
  pure result

end FerrumNexus.Portal
