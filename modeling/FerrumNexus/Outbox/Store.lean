import Mathlib.Data.List.Sort
import Mathlib.Logic.Function.Basic
import FerrumNexus.Platform.Text

/-!
# The email outbox

The `email_outbox` table with the addresses of the accounts mail is bound to.
A claim writes a fresh generation into the row it takes, and every write of the
worker that claimed it names that generation: it lands only while the row is
`sending` at it. Each function is one statement or one transaction of the
adapter, at the moments its caller read from its clock. How a database and the
server fold the case of an address is a parameter. `sealContent`, which seals
rows of an earlier release and writes their content alone, is left out.
-/
namespace FerrumNexus.Outbox

open Platform

inductive OutboxStatus
  | pending
  | sending
  | sent
  | failed
  deriving DecidableEq, Repr

/-- A row is settled for good in `sent` and in `failed`. -/
def OutboxStatus.terminal : OutboxStatus → Bool
  | .sent => true
  | .failed => true
  | _ => false

/-- A row of `email_outbox`, apart from its id and its content. `generation` is
`none` until the first claim. -/
structure OutboxRow where
  to_email : String
  priority : ℕ
  recipient_user_id : Option ℕ
  status : OutboxStatus
  attempts : ℕ
  next_attempt_at : Option ℕ
  last_error : Option String
  idempotency_key : Option String
  generation : Option ℕ
  created_at : ℕ
  updated_at : ℕ
  deriving DecidableEq, Repr

/-- A row as a claim returned it. -/
structure OutboxEntry where
  id : ℕ
  row : OutboxRow
  deriving DecidableEq, Repr

/-- `lower` in the database and `toLowerCase` in the server. -/
structure Casing where
  sqlLower : String → String
  toLowerCase : String → String

/-- The outbox and the accounts' addresses; `ids` and `userIds` list the rows
that exist. `fresh` is the next id `newId` draws. -/
structure OutboxTables where
  rows : ℕ → Option OutboxRow
  ids : List ℕ
  users : ℕ → Option String
  userIds : List ℕ
  fresh : ℕ

def RELEASED_EMAIL_DOMAIN : String := "released.nexus.invalid"

variable (casing : Casing)

def normalizeEmail (email : String) : String := casing.toLowerCase (trim email)

/-- `isReleasedEmail`: whether the normalized address ends with the domain. -/
def endsReleased (email : String) : Bool :=
  ("@" ++ RELEASED_EMAIL_DOMAIN).toList.isSuffixOf email.toList

def isReleasedEmail (email : String) : Bool := endsReleased (normalizeEmail casing email)

/-- The address an account holds once its own is released. -/
def tombstone (id : ℕ) : String :=
  "released-" ++ toString id ++ ("@" ++ RELEASED_EMAIL_DOMAIN)

theorem endsReleased_tombstone (id : ℕ) : endsReleased (tombstone id) = true := by
  simp only [endsReleased, tombstone, String.toList_append, List.isSuffixOf_iff_suffix]
  exact List.suffix_append _ _

/-- Whether the account still owns the address, which the write of its fence
also locks for the transaction. -/
def lockEmailRecipient (users : ℕ → Option String) (id : ℕ) (email : String) : Bool :=
  !isReleasedEmail casing email && users id == some (normalizeEmail casing email)

def findByEmail (t : OutboxTables) (email : String) : Option ℕ :=
  t.userIds.find? fun id =>
    (t.users id).map casing.sqlLower == some (normalizeEmail casing email)

/-- `UPDATE email_outbox SET … WHERE …`. -/
def updateRows (p : OutboxRow → Bool) (f : OutboxRow → OutboxRow) (rows : ℕ → Option OutboxRow) :
    ℕ → Option OutboxRow :=
  fun id => (rows id).map fun row => if p row then f row else row

def findByIdempotencyKey (t : OutboxTables) (key : String) : Option ℕ :=
  t.ids.find? fun id => (t.rows id).any fun row => row.idempotency_key = some key

structure EnqueueEmailInput where
  to_email : String
  priority : ℕ
  recipient_user_id : Option ℕ
  idempotency_key : Option String
  next_attempt_at : Option ℕ
  deriving DecidableEq, Repr

/-- A message to an account that does not own the address is stored as failed. -/
def enqueuedRow (users : ℕ → Option String) (input : EnqueueEmailInput) (now : ℕ) : OutboxRow :=
  let eligible := input.recipient_user_id.all fun id =>
    lockEmailRecipient casing users id input.to_email
  { to_email := input.to_email
    priority := input.priority
    recipient_user_id := input.recipient_user_id
    status := if eligible then .pending else .failed
    attempts := 0
    next_attempt_at := if eligible then some (input.next_attempt_at.getD now) else none
    last_error := if eligible then none else some "recipient-address-changed"
    idempotency_key := input.idempotency_key
    generation := none
    created_at := now
    updated_at := now }

/-- `enqueue`; a key that is present suppresses the insert. -/
def enqueue (input : EnqueueEmailInput) (now : ℕ) (t : OutboxTables) : OutboxTables :=
  match input.idempotency_key.bind (findByIdempotencyKey t) with
  | some _ => t
  | none =>
    { t with
      rows := Function.update t.rows t.fresh (some (enqueuedRow casing t.users input now))
      ids := t.ids ++ [t.fresh]
      fresh := t.fresh + 1 }

/-- `next_attempt_at IS NULL OR next_attempt_at <= now`, for a pending row. -/
def isDue (now : ℕ) (row : OutboxRow) : Bool :=
  row.status = .pending && row.next_attempt_at.all fun due => due ≤ now

/-- Two due times, an absent one first. -/
def earlier : Option ℕ → Option ℕ → Bool
  | none, some _ => true
  | some a, some b => a < b
  | _, _ => false

/-- The order of a claim: priority, due time, age and id. -/
def precedes (a b : OutboxEntry) : Prop :=
  b.row.priority < a.row.priority ∨ a.row.priority = b.row.priority ∧
    (earlier a.row.next_attempt_at b.row.next_attempt_at ∨
      a.row.next_attempt_at = b.row.next_attempt_at ∧
        (a.row.created_at < b.row.created_at ∨
          a.row.created_at = b.row.created_at ∧ a.id ≤ b.id))

instance (a b : OutboxEntry) : Decidable (precedes a b) :=
  inferInstanceAs (Decidable (_ ∨ _))

def claimCandidates (now limit : ℕ) (t : OutboxTables) : List OutboxEntry :=
  let due := (t.ids.filterMap fun id => (t.rows id).map (OutboxEntry.mk id)).filter fun entry =>
    isDue now entry.row
  (due.insertionSort precedes).take (max 1 limit)

/-- The row a claim writes. -/
def claimedRow (eligible : Bool) (stamp generation : ℕ) (row : OutboxRow) : OutboxRow :=
  { row with
    status := if eligible then .sending else .failed
    next_attempt_at := if eligible then row.next_attempt_at else none
    attempts := row.attempts + 1
    updated_at := stamp
    generation := some generation
    last_error := if eligible then row.last_error else some "recipient-address-changed" }

/-- One candidate of `claimDue`: claimed, or failed because its account does
not own the address any more. -/
def claimOne (stamp : ℕ) (entry : OutboxEntry) (t : OutboxTables) :
    Option OutboxEntry × OutboxTables :=
  let eligible := entry.row.recipient_user_id.all fun id =>
    lockEmailRecipient casing t.users id entry.row.to_email
  match t.rows entry.id with
  | none => (none, { t with fresh := t.fresh + 1 })
  | some row =>
    if row.status = .pending then
      let claimed := claimedRow eligible stamp t.fresh row
      (if eligible then some ⟨entry.id, claimed⟩ else none,
        { t with rows := Function.update t.rows entry.id (some claimed), fresh := t.fresh + 1 })
    else (none, { t with fresh := t.fresh + 1 })

def claimAll (stamp : ℕ) : List OutboxEntry → OutboxTables → List OutboxEntry × OutboxTables
  | [], t => ([], t)
  | entry :: rest, t =>
    let (claimed, t₁) := claimOne casing stamp entry t
    let (more, t') := claimAll stamp rest t₁
    (claimed.toList ++ more, t')

/-- `claimDue`, in one transaction. -/
def claimDue (now limit stamp : ℕ) (t : OutboxTables) : List OutboxEntry × OutboxTables :=
  claimAll casing stamp (claimCandidates now limit t) t

/-- `WHERE id = ? AND generation = ? AND status = 'sending'`: whether the write
found the exact claim it was issued for, and the table after it. -/
def whileSending (entry : OutboxEntry) (f : OutboxRow → OutboxRow) (t : OutboxTables) :
    Bool × OutboxTables :=
  match t.rows entry.id with
  | none => (false, t)
  | some row =>
    if row.generation = entry.row.generation ∧ row.status = .sending then
      (true, { t with rows := Function.update t.rows entry.id (some (f row)) })
    else (false, t)

def beginDelivery (entry : OutboxEntry) (at_ : ℕ) (t : OutboxTables) : Bool × OutboxTables :=
  whileSending entry (fun row => { row with updated_at := at_ }) t

def markSent (entry : OutboxEntry) (at_ : ℕ) (t : OutboxTables) : Bool × OutboxTables :=
  whileSending entry (fun row =>
    { row with status := .sent, next_attempt_at := none, last_error := none, updated_at := at_ }) t

def reschedule (entry : OutboxEntry) (nextAttemptAt : ℕ) (lastError : String) (stamp : ℕ)
    (t : OutboxTables) : Bool × OutboxTables :=
  whileSending entry (fun row =>
    { row with
      status := .pending, next_attempt_at := some nextAttemptAt, last_error := some lastError,
      updated_at := stamp }) t

def markFailed (entry : OutboxEntry) (lastError : String) (stamp : ℕ) (t : OutboxTables) :
    Bool × OutboxTables :=
  whileSending entry (fun row =>
    { row with
      status := .failed, next_attempt_at := none, last_error := some lastError,
      updated_at := stamp }) t

def isStale (olderThan : ℕ) (row : OutboxRow) : Bool :=
  row.status = .sending && row.updated_at ≤ olderThan

def releaseStale (olderThan stamp : ℕ) (t : OutboxTables) : OutboxTables :=
  { t with rows := updateRows (isStale olderThan) (fun row =>
      { row with status := .pending, next_attempt_at := some stamp, updated_at := stamp }) t.rows }

/-- Whether a row is addressed to `address`, a normalized one. -/
def addressedTo (address : String) (row : OutboxRow) : Bool := casing.sqlLower row.to_email = address

/-- `cancelForReleasedAddress`: refused while a row to the address is sending. -/
def cancelForReleasedAddress (email : String) (stamp : ℕ) (t : OutboxTables) :
    Option OutboxTables :=
  let address := normalizeEmail casing email
  if t.ids.any fun id => (t.rows id).any fun row =>
      addressedTo casing address row && row.status == .sending then none
  else
    some { t with
      rows := updateRows (fun row => addressedTo casing address row && row.status == .pending)
        (fun row =>
          { row with
            status := .failed, next_attempt_at := none, last_error := some "address-released",
            updated_at := stamp, generation := some t.fresh }) t.rows
      fresh := t.fresh + 1 }

/-- The commit of `releaseAddress`, as far as the outbox goes: the account's
address becomes a tombstone, and its queued mail is cancelled. -/
def releaseAddress (userId : ℕ) (expectedEmail : String) (stamp : ℕ) (t : OutboxTables) :
    Option OutboxTables :=
  let email := normalizeEmail casing expectedEmail
  if email = "" ∨ 320 < utf16Length email ∨ isReleasedEmail casing email then none
  else if t.users userId ≠ some email then none
  else
    cancelForReleasedAddress casing email stamp
      { t with
        users := Function.update t.users userId (some (tombstone t.fresh)), fresh := t.fresh + 1 }

/-- `users.create`, for an address no account holds and none released. -/
def register (email : String) (t : OutboxTables) : Option OutboxTables :=
  if isReleasedEmail casing email ∨ (findByEmail casing t email).isSome then none
  else
    some { t with
      users := Function.update t.users t.fresh (some (normalizeEmail casing email))
      userIds := t.userIds ++ [t.fresh]
      fresh := t.fresh + 1 }

end FerrumNexus.Outbox
