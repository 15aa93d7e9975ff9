import FerrumNexus.Campaigns.Sizes
import FerrumNexus.Saga.Leased
import FerrumNexus.Sequences.Windows

/-!
# Sending a campaign

The campaign is charged and named by an audit row of its own, and then its
copies are queued chunk by chunk, each chunk in a transaction. All of it runs
under a lease of the administrator. The key of an outbox row names the
administrator, the batch and the recipient, and a row whose key is taken is not
queued again. Of the outbox only what is queued is kept here; what becomes of a
row is the business of the worker. The digest of a campaign's content stands for
the content: SHA-256 is taken not to collide.
-/
namespace FerrumNexus.Campaigns

open Saga Email Sequences Platform

/-! ## Audiences -/

/-- A field that is given is demanded. -/
structure UserFilter where
  ids : Option (List Uuid) := none
  roles : Option (List Role) := none
  status : Option UserStatus := none
  orgId : Option Uuid := none

def UserFilter.accepts (filter : UserFilter) (user : UserRecord) : Bool :=
  filter.ids.all (·.contains user.id) && filter.roles.all (·.contains user.role) &&
    filter.status.all (· == user.status) && filter.orgId.all (user.orgId == some ·)

/-- `listRecipients`, of the users in the order of their creation. -/
def listRecipients (users : List UserRecord) (filter : UserFilter) : List UserRecord :=
  users.filter filter.accepts

/-- The filter of an audience. -/
def audienceFilter (audience : MassEmailAudience) : Except Refusal UserFilter :=
  match audience.scope with
  | .all => .ok { status := some .active }
  | .explicit =>
    let ids := audience.userIds.getD []
    if ids = [] then .error .recipientRequired
    else .ok { ids := some ids, status := some .active }
  | .filtered =>
    .ok
      { status := some (audience.status.getD .active)
        roles := audience.roles.filter (· ≠ [])
        orgId := audience.orgId }

def resolveAudience (users : List UserRecord) (audience : MassEmailAudience) :
    Except Refusal (List UserRecord) :=
  listRecipients users <$> audienceFilter audience

/-- An audience as it is read: its lists are sets, and the defaults are filled in. -/
inductive NormalizedAudience
  | all
  | explicit (userIds : Finset Uuid)
  | filtered (status : UserStatus) (roles : Finset Role) (orgId : Option Uuid)
  deriving DecidableEq

def normalizedAudience (audience : MassEmailAudience) : NormalizedAudience :=
  match audience.scope with
  | .all => .all
  | .explicit => .explicit (audience.userIds.getD []).toFinset
  | .filtered =>
    .filtered (audience.status.getD .active) (audience.roles.getD []).toFinset audience.orgId

/-- What the digest of a campaign is taken of, and stands for. -/
structure CampaignContent where
  subject : List Char
  bodyHtml : List Char
  bodyText : List Char
  audience : NormalizedAudience
  deriving DecidableEq

/-- `massEmailContentDigest`. -/
def contentOf (request : MassEmailRequest) : CampaignContent where
  subject := trimmed request.subject
  bodyHtml := request.bodyHtml
  bodyText := request.bodyText
  audience := normalizedAudience request.audience

/-! ## Tables -/

inductive AuditAction
  | adminMassEmail
  | adminMassEmailComplete
  | other (n : ℕ)
  deriving DecidableEq, Repr

inductive AuditDetails
  | started (recipients bytes : ℕ) (contentSha256 : CampaignContent)
  | completed (recipients enqueued chunks : ℕ) (failed : Bool)
  | other (n : ℕ)
  deriving DecidableEq

/-- `details.content_sha256`. -/
def AuditDetails.contentSha256 : AuditDetails → Option CampaignContent
  | .started _ _ digest => some digest
  | _ => none

structure AuditRecord where
  actorUserId : Option Uuid
  action : AuditAction
  targetId : List Char
  details : AuditDetails
  createdAt : ℕ
  deriving DecidableEq

structure OutboxRow where
  toEmail : List Char
  recipientUserId : Option Uuid
  subject : List Char
  bodyHtml : List Char
  bodyText : List Char
  idempotencyKey : Option (List Char)
  deriving DecidableEq

structure CampaignTables where
  now : ℕ
  users : List UserRecord
  prepared : Prepared
  audits : List AuditRecord
  outbox : List OutboxRow

/-- `massEmailLockKey`, by the administrator. -/
abbrev CampaignKey := Uuid

inductive SendError
  | unavailable
  | refused (refusal : Refusal)
  | quotaExceeded (limit used recipients : ℕ)
  | conflict (reused : Bool) (batch : Option (List Char)) (enqueued : Option ℕ)
  | outboxFailure (batch : List Char) (recipients enqueued : ℕ)
  deriving DecidableEq

abbrev CampaignQuery (α : Type) := Query CampaignTables SendError α

abbrev CampaignWrite (α : Type) := Write CampaignTables SendError α

abbrev CampaignProgram (α : Type) := LeasedProgram CampaignKey CampaignTables SendError α

abbrev Held := List (CampaignKey × ℕ)

def reads {α : Type} (f : CampaignTables → α) : CampaignQuery α := look .unavailable f

/-- A pure check that throws. -/
def checked {α : Type} : Except Refusal α → CampaignQuery α
  | .ok a => pure a
  | .error refusal => throw (.refused refusal)

/-- The error of a lease that is not to be had, or was lost. -/
def contended : SendError := .conflict false none none

/-! ## Reads -/

/-- An audit row that charges an administrator with a campaign. -/
def AuditRecord.charges (row : AuditRecord) (actor : Uuid) : Bool :=
  row.actorUserId == some actor && row.action == .adminMassEmail

namespace CampaignTables

/-- The rows that charge `actor` with the batch. -/
def started (d : CampaignTables) (actor : Uuid) (batch : List Char) : List AuditRecord :=
  d.audits.filter fun row => row.charges actor && row.targetId == batch

/-- Those with the content of the campaign. -/
def same (d : CampaignTables) (actor : Uuid) (batch : List Char) (digest : CampaignContent) :
    List AuditRecord :=
  (d.started actor batch).filter fun row => row.details.contentSha256 == some digest

/-- The rows that charge `actor`. -/
def charged (d : CampaignTables) (actor : Uuid) : List AuditRecord :=
  d.audits.filter fun row => row.charges actor

end CampaignTables

/-- 24 hours, in milliseconds. -/
def MASS_EMAIL_BUDGET_WINDOW_MS : ℕ := 24 * 60 * 60 * 1000

/-! ## Writes -/

def record (row : AuditRecord) : CampaignWrite Unit :=
  modify fun d => { d with audits := d.audits ++ [row] }

/-- `emailOutbox.enqueue`: whether the row was created. -/
def enqueue (row : OutboxRow) : CampaignWrite Bool := do
  let d : CampaignTables ← get
  if row.idempotencyKey.any fun key =>
      d.outbox.any fun other => other.idempotencyKey == some key then
    pure false
  else do
    modify fun d => { d with outbox := d.outbox ++ [row] }
    pure true

/-- The rows of a chunk, one after the other: how many were created. -/
def enqueueAll : List OutboxRow → CampaignWrite ℕ
  | [] => pure 0
  | row :: rest => do
    let created ← enqueue row
    let more ← enqueueAll rest
    pure ((if created then 1 else 0) + more)

/-! ## Sending -/

/-- A campaign under way: who sends it, what was asked for, under which batch. -/
structure Campaign where
  actor : Uuid
  request : MassEmailRequest
  batch : List Char
  digest : CampaignContent
  prepared : Prepared
  recipients : List UserRecord
  plan : CampaignPlan

/-- `mass:<actor_id>:<batch>:<user_id>` -/
def massKey (actor : Uuid) (batch : List Char) (recipient : Uuid) : List Char :=
  "mass:".toList ++ (actor.text ++ ':' :: (batch ++ ':' :: recipient.text))

/-- The outbox row of a recipient's copy. -/
def massRow (actor : Uuid) (batch : List Char) (recipient : UserRecord) (copy : RenderedEmail) :
    OutboxRow where
  toEmail := recipient.email
  recipientUserId := some recipient.id
  subject := copy.subject
  bodyHtml := copy.html
  bodyText := copy.text
  idempotencyKey := some (massKey actor batch recipient.id)

/-- The rows of a chunk. A recipient is skipped whose copy the link policy
refuses under any name. -/
def chunkRows (campaign : Campaign) : List UserRecord → Except RenderFailure (List OutboxRow)
  | [] => .ok []
  | recipient :: rest =>
    match copyFor campaign.prepared campaign.request recipient with
    | .error .linkPolicy => chunkRows campaign rest
    | .error .other => .error .other
    | .ok copy =>
      (massRow campaign.actor campaign.batch recipient copy :: ·) <$> chunkRows campaign rest

/-- How far the fan-out came. -/
structure Progress where
  enqueued : ℕ := 0
  chunks : ℕ := 0
  failure : Option SendError := none

structure MassEmailResponse where
  enqueued : ℕ
  recipients : ℕ
  batchId : List Char
  deriving DecidableEq

section Sending

variable (limits : Limits) (isolation : Isolation) (slot : ℕ)

def transaction {α : Type} (body : CampaignQuery (CampaignWrite α)) (held : Held) :
    CampaignProgram α :=
  transact .unavailable contended isolation slot held body

/-- The audit row that charges and names the campaign. -/
def startedRow (campaign : Campaign) (stamp : ℕ) : AuditRecord where
  actorUserId := some campaign.actor
  action := .adminMassEmail
  targetId := campaign.batch
  details := .started campaign.recipients.length campaign.plan.totalBytes campaign.digest
  createdAt := stamp

/-- The daily limit of campaigns, in a rolling window. -/
def assertDailyLimit (campaign : Campaign) : CampaignQuery Unit :=
  let dailyLimit := limits.maxMassEmailsPerDay
  if dailyLimit = 0 then pure ()
  else do
    let now ← reads (·.now)
    let since := now - MASS_EMAIL_BUDGET_WINDOW_MS
    let used ← reads fun d => countSince AuditRecord.createdAt since (d.charged campaign.actor)
    if used < dailyLimit then pure ()
    else throw (.quotaExceeded dailyLimit used campaign.recipients.length)

/-- Charge the campaign, or recognise it. -/
def chargeBody (campaign : Campaign) : CampaignQuery (CampaignWrite Unit) := do
  let started ← reads fun d => (d.started campaign.actor campaign.batch).length
  if 0 < started then do
    let same ← reads fun d => (d.same campaign.actor campaign.batch campaign.digest).length
    if same = 0 then throw (.conflict true (some campaign.batch) none)
    else pure (pure ())
  else do
    assertDailyLimit limits campaign
    let stamp ← reads (·.now)
    pure (record (startedRow campaign stamp))

/-- What the charge answers when it fails. -/
def chargeError (campaign : Campaign) : SendError → SendError
  | .quotaExceeded limit used recipients => .quotaExceeded limit used recipients
  | .conflict reused _ _ => .conflict reused (some campaign.batch) none
  | _ => .outboxFailure campaign.batch campaign.recipients.length 0

def charge (campaign : Campaign) (held : Held) : CampaignProgram Unit :=
  tryCatch (transaction isolation slot (chargeBody limits campaign) held)
    fun e => throw (chargeError campaign e)

/-- The transaction of one chunk: how many rows it created. -/
def enqueueChunk (campaign : Campaign) (chunk : List UserRecord) (held : Held) :
    CampaignProgram ℕ :=
  transaction isolation slot (match chunkRows campaign chunk with
    | .error failure => throw (.refused (.rendering failure))
    | .ok rows => pure (enqueueAll rows)) held

/-- The loop over the chunks, up to the first failure. -/
def enqueueChunks (campaign : Campaign) (held : Held) :
    List (List UserRecord) → Progress → CampaignProgram Progress
  | [], progress => pure progress
  | chunk :: rest, progress => do
    let result ← tryCatch (Except.ok <$> enqueueChunk isolation slot campaign chunk held)
      fun e => pure (.error e)
    match result with
    | .ok created =>
      enqueueChunks campaign held rest
        { progress with
          enqueued := progress.enqueued + created, chunks := progress.chunks + 1 }
    | .error e => pure { progress with failure := some e }

/-- The best-effort row for what was queued. -/
def complete (campaign : Campaign) (progress : Progress) : CampaignProgram Unit :=
  transaction isolation slot (do
    let stamp ← reads (·.now)
    pure (record
      { actorUserId := some campaign.actor
        action := .adminMassEmailComplete
        targetId := campaign.batch
        details := .completed campaign.recipients.length progress.enqueued progress.chunks
          progress.failure.isSome
        createdAt := stamp })) []

/-- What a send answers once its fan-out is over. -/
def outcome (campaign : Campaign) (progress : Progress) : CampaignProgram MassEmailResponse :=
  match progress.failure with
  | none => pure ⟨progress.enqueued, campaign.recipients.length, campaign.batch⟩
  | some (.conflict reused _ _) =>
    throw (.conflict reused (some campaign.batch) (some progress.enqueued))
  | some _ =>
    throw (.outboxFailure campaign.batch campaign.recipients.length progress.enqueued)

def fanOut (campaign : Campaign) (held : Held) : CampaignProgram MassEmailResponse := do
  charge limits isolation slot campaign held
  let progress ← enqueueChunks isolation slot campaign held
    (slices campaign.plan.perChunk campaign.recipients) {}
  let _ ← swallow (complete isolation slot campaign progress)
  outcome campaign progress

/-- `newId`. -/
def newId (random : ℕ) : List Char := Nat.toDigits 16 random

def batchOf : Option (List Char) → CampaignQuery (List Char)
  | some key => pure key
  | none => newId <$> draw

/-- All that is read and checked before the lease. -/
def prepare (actor : Uuid) (request : MassEmailRequest) : CampaignQuery Campaign := do
  checked (checkRequest request)
  let audience ← reads fun d => resolveAudience d.users request.audience
  let recipients ← checked audience
  checked (checkRecipients limits recipients)
  let batch ← batchOf request.idempotencyKey
  let prepared ← reads (·.prepared)
  let plan ← checked (planCampaign limits prepared request recipients)
  pure
    { actor := actor
      request := request
      batch := batch
      digest := contentOf request
      prepared := prepared
      recipients := recipients
      plan := plan }

/-- A conflict names the batch, so that a retry reaches the same campaign. -/
def withBatch (campaign : Campaign) : SendError → SendError
  | .conflict reused none enqueued => .conflict reused (some campaign.batch) enqueued
  | e => e

def send (actor : Uuid) (request : MassEmailRequest) : CampaignProgram MassEmailResponse := do
  let campaign ← (prepare limits actor request).watch
  tryCatch (underLease contended slot actor (fanOut limits isolation slot campaign) [])
    fun e => throw (withBatch campaign e)

/-! ## What happens in between -/

/-- A key of the outbox that no campaign uses. -/
def Foreign (row : OutboxRow) : Prop :=
  ∀ key, row.idempotencyKey = some key → ¬ "mass:".toList <+: key

/-- A commit of another service: accounts and templates change, audit rows and
mail of its own are added, none of them a campaign's. -/
structure Elsewhere where
  users : List UserRecord → List UserRecord
  prepared : Prepared → Prepared
  audits : List AuditRecord
  mail : List OutboxRow
  uncharged : ∀ row ∈ audits, row.action ≠ .adminMassEmail
  foreign : ∀ row ∈ mail, Foreign row

def Elsewhere.write (change : Elsewhere) (d : CampaignTables) : CampaignTables :=
  { d with
    users := change.users d.users
    prepared := change.prepared d.prepared
    audits := d.audits ++ change.audits
    outbox := d.outbox ++ change.mail }

def elsewhere (change : Elsewhere) : CampaignProgram Unit :=
  transaction isolation slot (pure (modify change.write)) []

/-- Time passes. -/
def tick : CampaignProgram Unit :=
  transaction isolation slot (do
    let elapsed ← draw
    pure (modify fun d => { d with now := d.now + elapsed })) []

inductive CampaignOp
  | send (actor : Uuid) (request : MassEmailRequest)
  | elsewhere (change : Elsewhere)
  | tick

def campaignProgram : CampaignOp → Program (Leased CampaignKey CampaignTables) Chance Unit
  | .send actor request => (send limits isolation slot actor request).toProgram
  | .elsewhere change => (elsewhere isolation slot change).toProgram
  | .tick => (tick isolation slot).toProgram

end Sending

end FerrumNexus.Campaigns
