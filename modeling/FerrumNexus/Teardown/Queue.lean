import FerrumNexus.Saga.Fencing
import FerrumNexus.Portal.World

/-!
# The queue of gateway teardowns

Disabling an account writes a row of `gateway_teardown_jobs` in the same
transaction, and whoever wants to run the teardown claims the row first: an
inline attempt right after the disable, or a worker that finds it due. Each
claim and each new disable gives the row a generation that was never used, and
every settling write names the generation it claimed. The gateway work itself
runs outside any transaction. Everything but the queue is a component of its
own: the teardown program works there and cannot touch the rows. A statement
may be applied although its caller is told it failed, and the lifecycle key a
cancellation takes is left out, since it only rules runs out.
-/
namespace FerrumNexus.Teardown

open Saga Platform Portal

inductive JobStatus
  | pending
  | sending
  | done
  deriving DecidableEq, Repr

/-- A row of `gateway_teardown_jobs`. Nothing in the portal reads `queuedAt`,
the moment of the disable or retry that queued it last, and `completedBy`, the
moment the run that completed it began. -/
structure TeardownJob where
  id : ℕ
  userId : ℕ
  status : JobStatus
  attempts : ℕ
  nextAttemptAt : Option ℕ
  lastError : Option String
  requestedBy : Option ℕ
  createdAt : ℕ
  updatedAt : ℕ
  completedAt : Option ℕ
  generation : ℕ
  queuedAt : ℕ
  completedBy : Option ℕ
  deriving DecidableEq, Repr

/-- A settling write that changed a row: the claim it was made for, and the row
it found. -/
structure Settlement where
  claim : TeardownJob
  row : TeardownJob
  deriving DecidableEq, Repr

/-- The rows by account, and the rest of the portal. `clock` counts the
disables and the runs, and `settlements` lists the settling writes that changed
a row; nothing in the portal reads them. -/
structure TeardownState (ω : Type) where
  rest : ω
  jobs : ℕ → Option TeardownJob
  fresh : ℕ
  now : ℕ
  clock : ℕ
  settlements : List Settlement

section Queue

variable {ω : Type}

abbrev TeardownService (ω α : Type) := Service (TeardownState ω) α

/-- A statement of its own: applied or not, and its acknowledgement may be lost
either way. -/
def statement {α : Type} (f : TeardownState ω → α × TeardownState ω) : TeardownService ω α :=
  atomic fun s o => match o with
    | .ok => some (.ok (f s).1, (f s).2)
    | .refused _ => some (.error storeFailure, s)
    | .lost _ => some (.error storeFailure, (f s).2)
    | .down => some (.error storeFailure, s)

/-! ## The repository -/

/-- `upsertPending`: the account's row back at the start, under a generation no
old claim names. -/
def upsertPending (userId : ℕ) (requestedBy : Option ℕ) (s : TeardownState ω) :
    TeardownJob × TeardownState ω :=
  let row : TeardownJob :=
    { id := ((s.jobs userId).map (·.id)).getD s.fresh
      userId := userId
      status := .pending
      attempts := 0
      nextAttemptAt := some s.now
      lastError := none
      requestedBy := requestedBy
      createdAt := ((s.jobs userId).map (·.createdAt)).getD s.now
      updatedAt := s.now
      completedAt := none
      generation := s.fresh + 1
      queuedAt := s.clock
      completedBy := none }
  (row, { s with
    jobs := Function.update s.jobs userId (some row)
    fresh := s.fresh + 2
    clock := s.clock + 1 })

/-- A claimed row: `sending`, one attempt more, and a generation of its own. -/
def claimedRow (row : TeardownJob) (generation now : ℕ) : TeardownJob where
  __ := row
  status := .sending
  attempts := row.attempts + 1
  updatedAt := now
  generation := generation
  completedAt := none

/-- `claimDue`, for the row of one account: which of the due rows comes first
is up to the run. -/
def claimDue (userId : ℕ) (s : TeardownState ω) : Option TeardownJob × TeardownState ω :=
  match s.jobs userId with
  | none => (none, s)
  | some row =>
    if row.status = .pending ∧ row.nextAttemptAt.all (· ≤ s.now) then
      let claimed := claimedRow row s.fresh s.now
      (some claimed, { s with
        jobs := Function.update s.jobs userId (some claimed)
        fresh := s.fresh + 1 })
    else (none, s)

/-- `claimPending`: exactly this pending generation. The answer is the caller's
own copy of the row, brought up to date. -/
def claimPending (job : TeardownJob) (s : TeardownState ω) :
    Option TeardownJob × TeardownState ω :=
  match s.jobs job.userId with
  | none => (none, s)
  | some row =>
    if row.id = job.id ∧ row.generation = job.generation ∧ row.status = .pending then
      (some (claimedRow job s.fresh s.now), { s with
        jobs := Function.update s.jobs job.userId (some (claimedRow row s.fresh s.now))
        fresh := s.fresh + 1 })
    else (none, s)

/-- The row this claim still owns. -/
def sendingRow (job : TeardownJob) (s : TeardownState ω) : Option TeardownJob :=
  (s.jobs job.userId).filter fun row =>
    row.id == job.id && row.generation == job.generation && row.status == .sending

/-- The settling writes: whether the claim still owned its row, and what the
row becomes if it did. -/
def settle (job : TeardownJob) (f : TeardownJob → Option TeardownJob) (s : TeardownState ω) :
    Bool × TeardownState ω :=
  match sendingRow job s with
  | none => (false, s)
  | some row => (true, { s with
      jobs := Function.update s.jobs job.userId (f row)
      settlements := ⟨job, row⟩ :: s.settlements })

/-- `markDone`, after the run that began at `startedAt`. -/
def markDone (job : TeardownJob) (startedAt : ℕ) (s : TeardownState ω) : Bool × TeardownState ω :=
  settle job (fun row => some { row with
    status := .done, nextAttemptAt := none, lastError := none, completedAt := some s.now
    updatedAt := s.now, completedBy := some startedAt }) s

def reschedule (job : TeardownJob) (nextAttemptAt : ℕ) (lastError : String)
    (s : TeardownState ω) : Bool × TeardownState ω :=
  settle job (fun row => some { row with
    status := .pending, nextAttemptAt := some nextAttemptAt, lastError := some lastError
    updatedAt := s.now, completedAt := none }) s

def deleteClaimed (job : TeardownJob) (s : TeardownState ω) : Bool × TeardownState ω :=
  settle job (fun _ => none) s

/-- A claim a crashed worker left behind, back in the queue under its
generation. -/
def releasedRow (olderThan now : ℕ) (row : TeardownJob) : TeardownJob :=
  if row.status = .sending ∧ row.updatedAt ≤ olderThan then
    { row with status := .pending, nextAttemptAt := some now, updatedAt := now }
  else row

def releaseStale (olderThan : ℕ) (s : TeardownState ω) : Unit × TeardownState ω :=
  ((), { s with jobs := fun userId => (s.jobs userId).map (releasedRow olderThan s.now) })

def deleteByUser (userId : ℕ) (s : TeardownState ω) : Unit × TeardownState ω :=
  ((), { s with jobs := Function.update s.jobs userId none })

/-! ## One attempt -/

/-- `disableGatewayAccess`, which works on the rest of the portal, and the
moment it began. -/
def timed {α : Type} (p : Service ω α) : TeardownService ω (ℕ × α) := do
  let startedAt ← atomic fun s _ => some (.ok s.clock, { s with clock := s.clock + 1 })
  let result ← Fallible.zoom TeardownState.rest (fun w s => { s with rest := w }) p
  pure (startedAt, result)

def superseded : NexusError := ⟨.internal, "Gateway teardown attempt was superseded", none⟩

def noMatchingGeneration : NexusError :=
  ⟨.internal, "Gateway teardown has no matching queued generation", none⟩

/-- What one attempt reports: `ok`, `no_consumer`, or the error that leaves the
job to a retry. -/
inductive TeardownOutcome
  | ok
  | noConsumer
  | pending (error : NexusError)

/-- The claim an attempt starts from. -/
def claimFor (userId : ℕ) : Option TeardownJob → TeardownService ω TeardownJob
  | none => throw noMatchingGeneration
  | some job => do
    ensure (job.userId == userId) noMatchingGeneration
    let claimed ← (match job.status with
      | .pending => statement (claimPending job)
      | .sending => pure (some job)
      | .done => pure none)
    match claimed with
    | none => throw superseded
    | some claimed => pure claimed

/-- What `disableGatewayAccess` answers, as far as the outcome depends on it. -/
structure GatewayTeardown where
  consumerId : Option ConsumerId
  deletedConsumers : List ConsumerId

/-- The attempt after its claim. -/
def runClaimed (disableGatewayAccess : ℕ → Service ω GatewayTeardown) (userId : ℕ)
    (claimed : TeardownJob) : TeardownService ω TeardownOutcome := do
  let current ← storeRead fun s => s.jobs userId
  ensure (current.any fun row => row.id == claimed.id && row.generation == claimed.generation &&
    row.status == .sending) superseded
  let (startedAt, result) ← timed (disableGatewayAccess userId)
  let done ← statement (markDone claimed startedAt)
  ensure done superseded
  if result.consumerId.isNone && result.deletedConsumers.isEmpty then pure .noConsumer
  else pure .ok

/-- `runGatewayTeardown`: one attempt against the row it was handed. A claim it
took itself goes back to the queue when the attempt fails; a worker applies its
own delay to the claims it supplied. -/
def runGatewayTeardown (disableGatewayAccess : ℕ → Service ω GatewayTeardown) (userId : ℕ)
    (job : Option TeardownJob) : TeardownService ω TeardownOutcome := do
  let claim ← attempt (claimFor userId job)
  match claim with
  | .error error => pure (.pending error)
  | .ok claimed =>
    tryCatch (runClaimed disableGatewayAccess userId claimed) fun error => do
      if job.any (·.status == .pending) then do
        let now ← atomic fun s _ => some (.ok s.now, s)
        bestEffort (statement (reschedule claimed now error.message))
        pure (.pending error)
      else pure (.pending error)

/-! ## Disables, retries and re-enables -/

/-- The transaction of a disable, of a retry or of a compensation that found an
identity it could not remove: the rest of the portal's part may refuse it. -/
def queueTeardown (userId : ℕ) (requestedBy : Option ℕ) (account : ω → Option ω) :
    TeardownService ω TeardownJob := do
  let queued ← statement fun s =>
    match account s.rest with
    | none => (none, s)
    | some w =>
      let (job, s') := upsertPending userId requestedBy { s with rest := w }
      (some job, s')
  match queued with
  | none => throw (conflict "That account changed while you were disabling it — reload and try again")
  | some job => pure job

/-- `updateUser` and god mode's `disableUser`, and `retryGatewayTeardown`: queue
the teardown, then try it. -/
def disableUser (disableGatewayAccess : ℕ → Service ω GatewayTeardown) (userId : ℕ)
    (requestedBy : ℕ) (account : ω → Option ω) : TeardownService ω TeardownOutcome := do
  let job ← queueTeardown userId (some requestedBy) account
  runGatewayTeardown disableGatewayAccess userId (some job)

/-- The re-enable of `updateUser`: its transaction drops the row. -/
def enableUser (userId : ℕ) (account : ω → Option ω) : TeardownService ω Unit :=
  statement fun s =>
    match account s.rest with
    | none => ((), s)
    | some w => deleteByUser userId { s with rest := w }

/-! ## The worker -/

def TEARDOWN_BASE_BACKOFF_MS : ℕ := 10000

def TEARDOWN_MAX_BACKOFF_MS : ℕ := 5 * 60000

def TEARDOWN_STALE_AFTER_MS : ℕ := 5 * 60000

/-- `teardownBackoffMs`, with the random part as drawn. -/
def teardownBackoffMs (attempts jitter : ℕ) : ℕ :=
  min (TEARDOWN_BASE_BACKOFF_MS * 2 ^ min attempts 16) TEARDOWN_MAX_BACKOFF_MS + jitter

section Worker

variable (status : ω → ℕ → Option UserStatus)

/-- `cancelJob`: only for an account that is not disabled, decided in the
transaction that deletes the claim. -/
def cancelJob (job : TeardownJob) : TeardownService ω Bool :=
  statement fun s =>
    if status s.rest job.userId = some .disabled then (false, s)
    else (true, (deleteClaimed job s).2)

def stillDisabled (userId : ℕ) : TeardownService ω Bool :=
  storeRead fun s => status s.rest userId == some .disabled

/-- One claimed job of a worker. -/
def runJob (disableGatewayAccess : ℕ → Service ω GatewayTeardown) (jitter : ℕ)
    (job : TeardownJob) : TeardownService ω Unit := do
  let disabled ← stillDisabled status job.userId
  if disabled then do
    let attempt ← runGatewayTeardown disableGatewayAccess job.userId (some job)
    match attempt with
    | .pending error => do
      let settled ← stillDisabled status job.userId
      if settled then do
        let now ← atomic fun s _ => some (.ok s.now, s)
        let _ ← statement (reschedule job (now + teardownBackoffMs job.attempts jitter) error.message)
        pure ()
      else do
        let _ ← cancelJob status job
        pure ()
    | _ => pure ()
  else do
    let _ ← cancelJob status job
    pure ()

/-- The loop of a tick, over the rows it finds due one after another. -/
def runDue (disableGatewayAccess : ℕ → Service ω GatewayTeardown) (jitter : ℕ) :
    List ℕ → TeardownService ω Unit
  | [] => pure ()
  | userId :: rest => do
    let job ← statement (claimDue userId)
    match job with
    | none => pure ()
    | some job => do
      bestEffort (runJob status disableGatewayAccess jitter job)
      runDue disableGatewayAccess jitter rest

/-- `tick`: stale claims first, then due rows one at a time. -/
def tick (disableGatewayAccess : ℕ → Service ω GatewayTeardown) (jitter : ℕ) (due : List ℕ) :
    TeardownService ω Unit := do
  let now ← atomic fun s _ => some (.ok s.now, s)
  bestEffort (statement (releaseStale (now - TEARDOWN_STALE_AFTER_MS)))
  runDue status disableGatewayAccess jitter due

end Worker

end Queue

end FerrumNexus.Teardown
