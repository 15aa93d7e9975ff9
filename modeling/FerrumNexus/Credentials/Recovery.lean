import FerrumNexus.Credentials.Service

/-!
# Revocation after an account recovery

A trusted password reset revokes every live credential of the account that was
created before a cutoff. The sweep lists each live status newest first, page by
page, and its offset counts only the rows it spares, since a row it settles
leaves the listing. It lists a status again when a spared row changed. The
whole sweep runs twice, with a wait on every consumer key in between. Loops
without a bound take fuel, and a program that runs out of it never returns.
-/
namespace FerrumNexus.Credentials

open Saga Platform Portal

def RECOVERY_SWEEP_ROUNDS : ℕ := 5

/-- `ORDER BY created_at DESC, id DESC`. -/
def newerFirst (a b : CredentialRecord) : Bool :=
  b.createdAt < a.createdAt || (a.createdAt == b.createdAt && b.id ≤ a.id)

/-- `credentials.list` by account and status, unpaged. -/
def listByStatus (s : World) (userId : ℕ) (status : CredentialStatus) : List CredentialRecord :=
  (s.rows.filter fun row => row.userId == userId && row.status == status).insertionSort
    (newerFirst · ·)

/-- One page of `credentials.list`. -/
def listPage (s : World) (userId : ℕ) (status : CredentialStatus) (offset : ℕ) :
    List CredentialRecord :=
  ((listByStatus s userId status).drop offset).take MAX_PAGE_SIZE

/-- Issued at or after the cutoff, so the owner's to keep. -/
def spared (cutoff : Option ℕ) (row : CredentialRecord) : Bool :=
  match cutoff with
  | none => false
  | some cutoff => cutoff ≤ row.createdAt

/-- The rows of an account, as one read of the store sees them. -/
def accountRows (s : World) (userId : ℕ) : List CredentialRecord :=
  s.rows.filter fun row => row.userId == userId

/-- What a sweep has done so far: the rows it revoked, the consumers it met and the
rows the current pass spared. The last two are for the statements alone: the rows of
the account at each page the pass has read, and at those of each completed pass. -/
structure Sweep where
  revoked : ℕ
  consumerIds : List ConsumerId
  skipped : List CredentialRecord
  seen : List (List CredentialRecord)
  passes : List (List (List CredentialRecord))

/-- A loop that has not ended. -/
def unfinished {α : Type} : CredentialService α :=
  atomic fun _ _ => none

section Sweep

variable (slot : ℕ) (user : UserRecord) (cutoff : Option ℕ)

/-- One listed row: spared, or revoked under its consumer's key. -/
def sweepRow (sweep : Sweep) (row : CredentialRecord) : CredentialService Sweep :=
  if spared cutoff row then
    pure { sweep with
      consumerIds := sweep.consumerIds ++ [row.ferrumConsumerId]
      skipped := sweep.skipped ++ [row] }
  else do
    let removed ← serializePerKey slot (.consumer row.ferrumConsumerId)
      (revokeCredentialRow row user ⟨false, true, cutoff⟩)
    pure { sweep with
      consumerIds := sweep.consumerIds ++ [row.ferrumConsumerId]
      revoked := sweep.revoked + if removed then 1 else 0 }

def sweepRows : List CredentialRecord → Sweep → CredentialService Sweep
  | [], sweep => pure sweep
  | row :: rows, sweep => do
    let sweep ← sweepRow slot user cutoff sweep row
    sweepRows rows sweep

/-- The pages of one pass. The offset is the number of rows spared so far. -/
def sweepPages (status : CredentialStatus) : ℕ → Sweep → CredentialService Sweep
  | 0, _ => unfinished
  | fuel + 1, sweep => do
    let page ← storeRead fun s =>
      (listPage s user.id status sweep.skipped.length, accountRows s user.id)
    let sweep := { sweep with seen := sweep.seen ++ [page.2] }
    if page.1.isEmpty then pure sweep
    else do
      let sweep ← sweepRows slot user cutoff page.1 sweep
      sweepPages status fuel sweep

/-- Whether the spared rows are still as they were listed. -/
def unmoved (status : CredentialStatus) : List CredentialRecord → CredentialService Bool
  | [] => pure true
  | row :: rows => do
    let found ← storeRead fun s => findById s row.id
    match found with
    | none => pure false
    | some current =>
      if current.status ≠ status ∨ current.updatedAt ≠ row.updatedAt then pure false
      else unmoved status rows

/-- The passes over one status, at most as many as there are rounds left. -/
def sweepStatus (status : CredentialStatus) (fuel : ℕ) : ℕ → Sweep → CredentialService Sweep
  | 0, _ => throw (conflict "Credentials kept changing while an account recovery revoked them")
  | rounds + 1, sweep => do
    let sweep ← sweepPages slot user cutoff status fuel { sweep with skipped := [], seen := [] }
    let still ← unmoved status sweep.skipped
    if still then pure { sweep with passes := sweep.passes ++ [sweep.seen] }
    else sweepStatus status fuel rounds sweep

/-- `LIVE_CREDENTIAL_STATUSES` in order: active, then retiring. -/
def sweepForAccountRecovery (fuel : ℕ) (sweep : Sweep) : CredentialService Sweep := do
  let sweep ← sweepStatus slot user cutoff .active fuel RECOVERY_SWEEP_ROUNDS sweep
  sweepStatus slot user cutoff .retiring fuel RECOVERY_SWEEP_ROUNDS sweep

/-- `consumers.list` for an account, newest first, with the total. -/
def listMappings (s : World) (userId : ℕ) : List ConsumerRecord :=
  (s.mappings.filter fun m => m.userId == userId).reverse

/-- `provisioner.listConsumers`. -/
def listConsumers (userId : ℕ) : ℕ → List ConsumerRecord → CredentialService (List ConsumerRecord)
  | 0, _ => unfinished
  | fuel + 1, rows => do
    let page ← storeRead fun s => (((listMappings s userId).drop rows.length).take MAX_PAGE_SIZE,
      (listMappings s userId).length)
    if page.1.isEmpty || page.2 ≤ (rows ++ page.1).length then pure (rows ++ page.1)
    else listConsumers userId fuel (rows ++ page.1)

/-- An empty section on every consumer key: wait out whoever holds it. -/
def waitOut : List ConsumerId → CredentialService Unit
  | [] => pure ()
  | consumerId :: consumerIds => do
    serializePerKey slot (.consumer consumerId) (pure ())
    waitOut consumerIds

def identityConsumer (identity : GatewayIdentityRecord) : ConsumerId :=
  identity.ferrumConsumerId.getD (.derived identity.ferrumUsername)

/-- `revokeForAccountRecovery`. The source returns the number revoked. -/
def revokeForAccountRecovery (fuel : ℕ) : CredentialService Sweep := do
  let first ← sweepForAccountRecovery slot user cutoff fuel ⟨0, [], [], [], []⟩
  let consumers ← listConsumers user.id fuel []
  let identities ← storeRead fun s => s.identities.filter fun i => i.userId == user.id
  waitOut slot (first.consumerIds ++ consumers.map (·.ferrumConsumerId) ++
    identities.map identityConsumer).dedup
  sweepForAccountRecovery slot user cutoff fuel first

end Sweep

end FerrumNexus.Credentials
