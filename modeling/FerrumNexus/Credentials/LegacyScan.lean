import FerrumNexus.Portal.World
import Mathlib.Data.List.Sort

/-!
# The scan for HTTP Basic appends of earlier releases

An earlier release could leave an HTTP Basic entry on the gateway and record it
in the audit log only. The scan reads those events page by page and writes a
retiring row for each one that nothing live accounts for. Any call of it may
fail, a commit may succeed without its caller being told, and the next start
begins again. Fingerprints are taken to be injective, and are written as what
they were computed from.
-/
namespace FerrumNexus.Credentials.LegacyScan

open Saga Platform
open Portal (ConsumerId CredentialStatus CredentialType UserRecord)

/-- What a fingerprint was computed from: a secret, or `legacy-unconfirmed:<event id>`. -/
inductive Fingerprint
  | ofSecret (secret : ℕ)
  | legacyUnconfirmed (eventId : ℕ)
  deriving DecidableEq, Repr

structure CredentialRecord where
  id : ℕ
  user_id : ℕ
  application_id : Option ℕ
  ferrum_consumer_id : ConsumerId
  credential_type : CredentialType
  fingerprint : Fingerprint
  last4 : String
  label : Option String
  status : CredentialStatus
  rotated_from_id : Option ℕ
  deriving DecidableEq, Repr

/-- A row of `consumers`. -/
structure ConsumerMapping where
  user_id : ℕ
  application_id : Option ℕ
  deriving DecidableEq, Repr

inductive AuditAction
  | credentialAppendRollback
  | credentialReconcile
  | credentialRevoke
  | credentialLegacyPlaceholder
  | other (n : ℕ)
  deriving DecidableEq, Repr

inductive AuditTarget
  | credential (id : ℕ)
  | consumer (id : ConsumerId)
  deriving DecidableEq, Repr

/-- The fields of an audit row's `details` that are read, each where it is
present with the type it is read at. -/
structure Details where
  credential_type : Option CredentialType := none
  consumer_id : Option ConsumerId := none
  withdrawn : Option Bool := none
  stranded_credential_id : Option ℕ := none
  owner_user_id : Option ℕ := none
  last4 : Option String := none
  scope : Option String := none
  source_event_id : Option ℕ := none
  deriving DecidableEq, Repr

structure AuditLogRecord where
  id : ℕ
  actor_user_id : Option ℕ
  action : AuditAction
  target : AuditTarget
  details : Details
  created_at : ℕ
  deriving DecidableEq, Repr

/-- `LegacyBasicAuthScanState`. -/
inductive ScanState
  | pending
  | completed
  | failed
  deriving DecidableEq, Repr

/-- The store as the scan sees it, and the state this instance reports.
`scanned` is the setting that records a completed scan. -/
structure Tables where
  audit_logs : List AuditLogRecord
  credentials : List CredentialRecord
  users : ℕ → Option UserRecord
  consumers : ConsumerId → Option ConsumerMapping
  scanned : Bool
  legacyScanState : ScanState
  fresh : ℕ
  now : ℕ

/-! ## Reading the audit log -/

/-- One field of a details filter. A field that is not given matches. -/
def given {α : Type} [DecidableEq α] (wanted held : Option α) : Bool :=
  wanted.all fun value => held == some value

structure AuditLogFilter where
  action : AuditAction
  details : Details
  /-- Inclusive lower bound on `created_at`. -/
  since : ℕ := 0

/-- Exact matches of the scalar fields given. -/
def Details.matches (wanted held : Details) : Bool :=
  given wanted.credential_type held.credential_type && given wanted.consumer_id held.consumer_id &&
  given wanted.withdrawn held.withdrawn &&
  given wanted.stranded_credential_id held.stranded_credential_id &&
  given wanted.owner_user_id held.owner_user_id && given wanted.last4 held.last4 &&
  given wanted.scope held.scope && given wanted.source_event_id held.source_event_id

def AuditLogFilter.accepts (filter : AuditLogFilter) (row : AuditLogRecord) : Bool :=
  row.action == filter.action && filter.details.matches row.details &&
  filter.since ≤ row.created_at

/-- `ORDER BY created_at DESC, id DESC`. -/
def NewerFirst (a b : AuditLogRecord) : Prop :=
  b.created_at < a.created_at ∨ a.created_at = b.created_at ∧ b.id ≤ a.id

instance : DecidableRel NewerFirst := fun a b =>
  inferInstanceAs (Decidable (b.created_at < a.created_at ∨ a.created_at = b.created_at ∧ b.id ≤ a.id))

/-- The rows of `auditLogs.list` before its limit and offset. -/
def Tables.auditList (tables : Tables) (filter : AuditLogFilter) : List AuditLogRecord :=
  (tables.audit_logs.filter filter.accepts).insertionSort NewerFirst

def LEGACY_PLACEHOLDER_LABEL : String :=
  "Unconfirmed HTTP Basic credential from an earlier release"

/-! ## The scan -/

abbrev ScanService (α : Type) := Service Tables α

/-- A transaction whose commit may also succeed unacknowledged. -/
def committing (f : Tables → Except NexusError Tables) : ScanService Unit :=
  atomic fun s o => match o, f s with
    | .down, _ => some (.error storeFailure, s)
    | _, .error e => some (.error e, s)
    | .ok, .ok s' => some (.ok (), s')
    | _, .ok s' => some (.error storeFailure, s')

/-- The key of `edge.serializePerKey` is taken, or is still held. -/
def holdKey : ScanService Unit :=
  atomic fun s o => match o with
    | .ok => some (.ok (), s)
    | _ => some (.error Portal.lockTimeout, s)

def serializePerKey (body : ScanService Unit) : ScanService Unit := do
  holdKey
  body
  holdKey

def listAudit (filter : AuditLogFilter) (limit offset : ℕ) : ScanService (List AuditLogRecord) :=
  storeRead fun s => ((s.auditList filter).drop offset).take limit

def findByFingerprint (fingerprint : Fingerprint) : ScanService (Option CredentialRecord) :=
  storeRead fun s => s.credentials.find? fun row => row.fingerprint = fingerprint

def findById (id : ℕ) : ScanService (Option CredentialRecord) :=
  storeRead fun s => s.credentials.find? fun row => row.id = id

/-- The two reads of `basicAuthClearedSince`. The second does not say which
type was revoked. -/
def reconciledSince (consumerId : ConsumerId) (since : ℕ) : AuditLogFilter :=
  { action := .credentialReconcile,
    details := { consumer_id := consumerId, credential_type := some .basicauth },
    since := since }

def revokedSince (consumerId : ConsumerId) (since : ℕ) : AuditLogFilter :=
  { action := .credentialRevoke,
    details := { consumer_id := consumerId, scope := some "whole-type" },
    since := since }

def basicAuthClearedSince (consumerId : ConsumerId) (since : ℕ) : ScanService Bool := do
  let reconciled ← listAudit (reconciledSince consumerId since) 1 0
  if reconciled.any fun row => since < row.created_at then pure true
  else do
    let revoked ← listAudit (revokedSince consumerId since) 1 0
    pure (revoked.any fun row => since < row.created_at)

def placeholderRow (id ownerId : ℕ) (mapping : Option ConsumerMapping) (consumerId : ConsumerId)
    (event : AuditLogRecord) : CredentialRecord :=
  { id := id, user_id := ownerId, application_id := mapping.bind (·.application_id),
    ferrum_consumer_id := consumerId, credential_type := .basicauth,
    fingerprint := .legacyUnconfirmed event.id, last4 := event.details.last4.getD "????",
    label := some LEGACY_PLACEHOLDER_LABEL, status := .retiring, rotated_from_id := none }

def placeholderEvent (id ownerId now : ℕ) (row : CredentialRecord) (event : AuditLogRecord) :
    AuditLogRecord :=
  { id := id, actor_user_id := none, action := .credentialLegacyPlaceholder,
    target := .credential row.id,
    details :=
      { credential_type := some .basicauth, consumer_id := some row.ferrum_consumer_id,
        last4 := some row.last4, owner_user_id := some ownerId, source_event_id := some event.id },
    created_at := now }

/-- The row and its audit record, in one transaction. Fingerprints are unique. -/
def writePlaceholder (consumerId : ConsumerId) (ownerId : ℕ) (mapping : Option ConsumerMapping)
    (event : AuditLogRecord) : ScanService Unit :=
  committing fun s =>
    let row := placeholderRow s.fresh ownerId mapping consumerId event
    if s.credentials.any fun held => held.fingerprint == row.fingerprint then
      .error (conflict "A record with this value already exists")
    else .ok { s with
      credentials := s.credentials ++ [row],
      audit_logs := s.audit_logs ++ [placeholderEvent (s.fresh + 1) ownerId s.now row event],
      fresh := s.fresh + 2 }

/-- The identity the consumer mapping names, else the owner of the event. -/
def attributedTo (mapping : Option ConsumerMapping) (event : AuditLogRecord) : Option ℕ :=
  match mapping with
  | some mapping => some mapping.user_id
  | none => event.details.owner_user_id <|> event.actor_user_id

def isLiveRow (row : Option CredentialRecord) : Bool := row.any (·.status.isLive)

/-- The row of an event that names one. -/
def findStranded (event : AuditLogRecord) : ScanService (Option CredentialRecord) :=
  match event.details.stranded_credential_id with
  | none => pure none
  | some stranded => findById stranded

/-- The section of `placeLegacyPlaceholder` under the consumer's key. -/
def placeUnderKey (event : AuditLogRecord) (consumerId : ConsumerId) : ScanService Unit := do
  if (← findByFingerprint (.legacyUnconfirmed event.id)).isSome then pure ()
  else if isLiveRow (← findStranded event) then pure ()
  else if ← basicAuthClearedSince consumerId event.created_at then pure ()
  else do
    let mapping ← storeRead fun s => s.consumers consumerId
    match attributedTo mapping event with
    | none => pure ()
    | some ownerId =>
      let owner ← storeRead fun s => s.users ownerId
      if owner.isNone then pure ()
      else writePlaceholder consumerId ownerId mapping event

def placeLegacyPlaceholder (event : AuditLogRecord) : ScanService Unit :=
  match event.details.consumer_id with
  | none => pure ()
  | some consumerId => serializePerKey (placeUnderKey event consumerId)

def placeAll : List AuditLogRecord → ScanService Unit
  | [] => pure ()
  | event :: rest => do
    placeLegacyPlaceholder event
    placeAll rest

/-- The appends an earlier release could not take back. -/
def legacyAppends : AuditLogFilter :=
  { action := .credentialAppendRollback,
    details := { credential_type := some .basicauth, withdrawn := some false } }

/-- The loop over the pages, for as many of them as the fuel lasts. -/
def scanLegacyBasicAuthAppends : ℕ → ℕ → ScanService Unit
  | 0, _ => atomic fun _ _ => none
  | fuel + 1, offset => do
    let page ← listAudit legacyAppends MAX_PAGE_SIZE offset
    placeAll page
    if page.length < MAX_PAGE_SIZE then pure ()
    else scanLegacyBasicAuthAppends fuel (offset + page.length)

def reportState (state : ScanState) : ScanService Unit :=
  atomic fun s _ => some (.ok (), { s with legacyScanState := state })

def initializeLegacyBasicAuthPositions (fuel : ℕ) : ScanService Unit :=
  tryCatch (do
    if ← storeRead (·.scanned) then reportState .completed
    else do
      scanLegacyBasicAuthAppends fuel 0
      committing fun s => .ok { s with scanned := true }
      reportState .completed)
  fun error => do
    reportState .failed
    throw error

/-- The audit row of a credential's revocation, from `revokeCredentialRow`. -/
def revocationEvent (id actor now : ℕ) (target : CredentialRecord) (wholeType : Bool) :
    AuditLogRecord :=
  { id := id, actor_user_id := some actor, action := .credentialRevoke,
    target := .credential target.id,
    details :=
      { credential_type := some target.credential_type,
        consumer_id := some target.ferrum_consumer_id, last4 := some target.last4,
        scope := if wholeType then some "whole-type" else none },
    created_at := now }

end FerrumNexus.Credentials.LegacyScan
