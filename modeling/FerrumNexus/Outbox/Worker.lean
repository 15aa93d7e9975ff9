import FerrumNexus.Outbox.Store
import FerrumNexus.Saga.Histories

/-!
# The outbox workers

Any number of workers drain one table, each at one row at a time. Between two
of its steps (the claim, the authorizing transaction, the deadline check, the
opening of the content, the hand-off to the relay, the settling write) any
other worker, a stale sweep, an enqueue, a registration or an address release
may run, and the worker may be lost. The keys a worker and a release take are
left out: what is proved holds without them. Clocks are arbitrary.
-/
namespace FerrumNexus.Outbox

open Platform

def OUTBOX_MAX_ATTEMPTS : ℕ := 5
def OUTBOX_BASE_BACKOFF_MS : ℕ := 30000
def OUTBOX_MAX_BACKOFF_MS : ℕ := 3600000
def OUTBOX_STALE_AFTER_MS : ℕ := 300000
def OUTBOX_SEND_BUDGET_MS : ℕ := 60000
def OUTBOX_DELIVERED_UNACKNOWLEDGED : String := "delivered-unacknowledged"
def OUTBOX_SEALED_UNREADABLE : String := "sealed-unreadable"

/-- The delay before the next attempt, with up to a tenth of it as jitter. -/
def backoffDelayMs (attempts jitter : ℕ) : ℕ :=
  let base := min (OUTBOX_BASE_BACKOFF_MS * Nat.pow 2 (min attempts 16)) OUTBOX_MAX_BACKOFF_MS
  base + min jitter (base / 10)

/-- Where a worker is with the row it claimed. -/
inductive Phase
  | idle
  | claimed (entry : OutboxEntry)
  | authorized (entry : OutboxEntry) (at_ : ℕ)
  | handingOff (entry : OutboxEntry)
  | ready (entry : OutboxEntry)
  | expired (entry : OutboxEntry)
  | unreadable (entry : OutboxEntry) (reason : String)
  | refused (entry : OutboxEntry) (message : String)
  | unacknowledged (entry : OutboxEntry) (message : String)
  | delivered (entry : OutboxEntry)
  deriving DecidableEq, Repr

def Phase.entry? : Phase → Option OutboxEntry
  | .idle => none
  | .claimed entry => some entry
  | .authorized entry _ => some entry
  | .handingOff entry => some entry
  | .ready entry => some entry
  | .expired entry => some entry
  | .unreadable entry _ => some entry
  | .refused entry _ => some entry
  | .unacknowledged entry _ => some entry
  | .delivered entry => some entry

/-- Past a hand-off after which the relay may hold the message. -/
def Phase.handedOff : Phase → Bool
  | .unacknowledged _ _ => true
  | .delivered _ => true
  | _ => false

/-- How `transport.send` ends. -/
inductive SendOutcome
  | delivered
  | unacknowledged (message : String)
  | refused (message : String)
  deriving DecidableEq, Repr

/-- A call of `transport.send` that returned: the row and the claim it was for. -/
structure Delivery where
  row : ℕ
  generation : Option ℕ
  to_email : String
  deriving DecidableEq, Repr

/-- The tables, the workers by number, and every successful send so far, the
latest first. -/
structure OutboxState where
  tables : OutboxTables
  workers : List Phase
  sends : List Delivery

inductive OutboxEvent
  | enqueue (input : EnqueueEmailInput) (now : ℕ)
  | claim (worker now stamp : ℕ)
  | authorize (worker at_ stamp : ℕ)
  | checkDeadline (worker now : ℕ)
  | openContent (worker : ℕ) (error : Option String)
  | send (worker : ℕ) (outcome : SendOutcome)
  | settle (worker now jitter : ℕ)
  | settleThrows (worker : ℕ) (message : String)
  | crash (worker : ℕ)
  | releaseStale (now stamp : ℕ)
  | releaseAddress (userId : ℕ) (expectedEmail : String) (stamp : ℕ)
  | register (email : String)
  deriving DecidableEq, Repr

/-- The account a claimed row is for: the bound one, or the one that holds the
address now. -/
def handoffRecipient (casing : Casing) (entry : OutboxEntry) (t : OutboxTables) : Option ℕ :=
  match entry.row.recipient_user_id with
  | some id => some id
  | none => findByEmail casing t entry.row.to_email

/-- `authorize`, in one transaction: whether the claim may be handed to the
relay, `none` when it moved on. -/
def authorize (casing : Casing) (entry : OutboxEntry) (at_ stamp : ℕ) (t : OutboxTables) :
    Option Bool × OutboxTables :=
  match t.rows entry.id with
  | none => (none, t)
  | some current =>
    if current.status ≠ .sending ∨ current.generation ≠ entry.row.generation then (none, t)
    else if isReleasedEmail casing entry.row.to_email ||
        (handoffRecipient casing entry t).any fun id =>
          !lockEmailRecipient casing t.users id entry.row.to_email then
      let (failed, t') := markFailed entry "recipient-address-changed" stamp t
      (if failed then some false else none, t')
    else
      let (begun, t') := beginDelivery entry at_ t
      (if begun then some true else none, t')

/-- The settling write a phase ends with. -/
def settleWrite (now jitter : ℕ) : Phase → OutboxTables → OutboxTables
  | .expired entry, t => (reschedule entry now "handoff-expired" now t).2
  | .unreadable entry reason, t =>
    (markFailed entry (OUTBOX_SEALED_UNREADABLE ++ ": " ++ reason) now t).2
  | .refused entry message, t =>
    if OUTBOX_MAX_ATTEMPTS ≤ entry.row.attempts then (markFailed entry message now t).2
    else (reschedule entry (now + backoffDelayMs entry.row.attempts jitter) message now t).2
  | .unacknowledged entry message, t =>
    (markFailed entry (OUTBOX_DELIVERED_UNACKNOWLEDGED ++ ": " ++ message) now t).2
  | .delivered entry, t => (markSent entry now t).2
  | _, t => t

/-- Whether a phase is one a settling write ends. -/
def Phase.settles : Phase → Bool
  | .expired _ => true
  | .unreadable _ _ => true
  | .refused _ _ => true
  | .unacknowledged _ _ => true
  | .delivered _ => true
  | _ => false

def OutboxState.enter (s : OutboxState) (worker : ℕ) (phase : Phase) : OutboxState :=
  { s with workers := s.workers.set worker phase }

/-- One step of a worker, `none` when it is not there or not at that point. -/
def claimStep (casing : Casing) (worker now stamp : ℕ) (s : OutboxState) : Option OutboxState :=
  match s.workers[worker]? with
  | some .idle =>
    let (claimed, tables) := claimDue casing now 1 stamp s.tables
    let phase := match claimed.head? with
      | none => .idle
      | some entry => .claimed entry
    some ({ s with tables := tables }.enter worker phase)
  | _ => none

def authorizeStep (casing : Casing) (worker at_ stamp : ℕ) (s : OutboxState) :
    Option OutboxState :=
  match s.workers[worker]? with
  | some (.claimed entry) =>
    let (authorized, tables) := authorize casing entry at_ stamp s.tables
    let phase := if authorized = some true then .authorized entry at_ else .idle
    some ({ s with tables := tables }.enter worker phase)
  | _ => none

def checkDeadlineStep (worker now : ℕ) (s : OutboxState) : Option OutboxState :=
  match s.workers[worker]? with
  | some (.authorized entry at_) =>
    let deadline := at_ + OUTBOX_SEND_BUDGET_MS
    some (s.enter worker (if deadline ≤ now then .expired entry else .handingOff entry))
  | _ => none

/-- `openOutboxRecord`, which throws for a sealed row that does not open. -/
def openContentStep (worker : ℕ) (error : Option String) (s : OutboxState) : Option OutboxState :=
  match s.workers[worker]? with
  | some (.handingOff entry) =>
    some (s.enter worker (match error with
      | none => .ready entry
      | some reason => .unreadable entry reason))
  | _ => none

def sendStep (worker : ℕ) (outcome : SendOutcome) (s : OutboxState) : Option OutboxState :=
  match s.workers[worker]? with
  | some (.ready entry) =>
    some (match outcome with
      | .delivered =>
        { s with sends := ⟨entry.id, entry.row.generation, entry.row.to_email⟩ :: s.sends }.enter
          worker (.delivered entry)
      | .unacknowledged message => s.enter worker (.unacknowledged entry message)
      | .refused message => s.enter worker (.refused entry message))
  | _ => none

def settleStep (worker now jitter : ℕ) (s : OutboxState) : Option OutboxState :=
  match s.workers[worker]? with
  | some phase =>
    if phase.settles then
      some ({ s with tables := settleWrite now jitter phase s.tables }.enter worker .idle)
    else none
  | none => none

/-- The settling write throws. After a delivery the row is parked instead;
any other row is abandoned to the stale sweep. -/
def settleThrowsStep (worker : ℕ) (message : String) (s : OutboxState) : Option OutboxState :=
  match s.workers[worker]? with
  | some (.delivered entry) => some (s.enter worker (.unacknowledged entry message))
  | some phase => if phase.settles then some (s.enter worker .idle) else none
  | none => none

/-- The worker is lost, or a step of it before the settling write throws. -/
def crashStep (worker : ℕ) (s : OutboxState) : Option OutboxState :=
  match s.workers[worker]? with
  | some _ => some (s.enter worker .idle)
  | none => none

def outboxStep (casing : Casing) (s : OutboxState) : OutboxEvent → Option OutboxState
  | .enqueue input now => some { s with tables := enqueue casing input now s.tables }
  | .claim worker now stamp => claimStep casing worker now stamp s
  | .authorize worker at_ stamp => authorizeStep casing worker at_ stamp s
  | .checkDeadline worker now => checkDeadlineStep worker now s
  | .openContent worker error => openContentStep worker error s
  | .send worker outcome => sendStep worker outcome s
  | .settle worker now jitter => settleStep worker now jitter s
  | .settleThrows worker message => settleThrowsStep worker message s
  | .crash worker => crashStep worker s
  | .releaseStale now stamp =>
    some { s with tables := releaseStale (now - OUTBOX_STALE_AFTER_MS) stamp s.tables }
  | .releaseAddress userId expectedEmail stamp =>
    (releaseAddress casing userId expectedEmail stamp s.tables).map fun t => { s with tables := t }
  | .register email => (register casing email s.tables).map fun t => { s with tables := t }

/-- An empty outbox with `n` workers. -/
def emptyOutbox (n : ℕ) : OutboxState where
  tables := ⟨fun _ => none, [], fun _ => none, [], 0⟩
  workers := List.replicate n .idle
  sends := []

end FerrumNexus.Outbox
