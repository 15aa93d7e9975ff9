import FerrumNexus.Platform.Calls

/-!
# Keyed critical sections and their leases

`createKeyedSerializer` orders work on one key first by a queue of its own
process and then by a row of the lease table. Every acquisition writes a token
of its own into the row, the section runs with that token on the stack of held
leases, and every transaction opened from inside asks the table, as the last
statement before its commit, whether each token still holds its key. A stall
is the environment taking as long as it likes between two actions; clocks of
different instances show whatever they show.
-/
namespace FerrumNexus.Leases

open Saga Platform

/-- The store all instances share. `standalone` is MongoDB without a replica
set, where `transaction` runs its body and has nothing to commit. -/
inductive Adapter
  | sqlite
  | postgres
  | mysql
  | mongodb
  | standalone
  deriving DecidableEq, Repr

/-- A row of `edge_leases`. -/
structure LeaseRow where
  owner : ℕ
  expiresAt : ℕ
  deriving DecidableEq, Repr

/-- One lease a critical section holds: its key, and the acquisition's token. -/
structure LeaseFence (κ : Type) where
  key : κ
  token : ℕ
  deriving DecidableEq, Repr

/-- History: a transaction committed, with the sections it was opened inside
and every acquisition made until then, the newest first. -/
structure Commit (κ : Type) where
  sections : List (LeaseFence κ)
  acquisitions : List (LeaseFence κ)

/-- The lease table and what the instances keep in memory. `queues` holds, by
serializer and key, the slots in line and their tickets; `live` is the flag of
the held-lease record of a token. A transaction is known by the slot that runs
it: `writer` is the one that holds SQLite's write lock, `locked` the one whose
update of a lease row is not committed yet. The last three fields are
history. -/
structure LeaseState (κ : Type) where
  rows : κ → Option LeaseRow
  tokens : ℕ
  live : ℕ → Bool
  tickets : ℕ
  queues : ℕ → κ → List (ℕ × ℕ)
  writer : Option ℕ
  locked : κ → Option ℕ
  drawnBy : ℕ → ℕ
  acquisitions : List (LeaseFence κ)
  commits : List (Commit κ)

/-- What one action meets: how a statement ends, what the clock shows and what
everything that is not modelled answers. -/
structure Moment where
  outcome : Outcome := .ok
  now : ℕ := 0
  answer : ℕ := 0

abbrev LeaseProgram (κ α : Type) := Fallible (LeaseState κ) Moment NexusError α

section Table

variable {κ : Type} [DecidableEq κ] {α : Type}

/-- Whether the open transaction of another slot keeps this one off the row. -/
def LeaseState.blocked (s : LeaseState κ) (slot : ℕ) (key : κ) : Bool :=
  (s.writer != none && s.writer != some slot) ||
    (s.locked key != none && s.locked key != some slot)

/-- One statement on the row of `key`. It waits for whoever has the row
locked, and a lost connection leaves it applied. -/
def statement (slot : ℕ) (key : κ) (f : LeaseState κ → α × LeaseState κ) : LeaseProgram κ α :=
  atomic fun s m =>
    if s.blocked slot key then none
    else match m.outcome with
      | .ok => some (.ok (f s).1, (f s).2)
      | .refused _ => some (.error storeFailure, s)
      | .lost _ => some (.error storeFailure, (f s).2)
      | .down => some (.error storeFailure, s)

def putRow (key : κ) (row : Option LeaseRow) (s : LeaseState κ) : LeaseState κ :=
  { s with rows := Function.update s.rows key row }

/-- The row changes hands. -/
def takeRow (key : κ) (owner expiresAt : ℕ) (s : LeaseState κ) : LeaseState κ :=
  { putRow key (some ⟨owner, expiresAt⟩) s with acquisitions := ⟨key, owner⟩ :: s.acquisitions }

/-- `INSERT … ON CONFLICT DO UPDATE … WHERE expires_at <= now`, and MongoDB's
upsert with the same filter. -/
def upsertExpired (key : κ) (owner expiresAt now : ℕ) (s : LeaseState κ) : Bool × LeaseState κ :=
  match s.rows key with
  | none => (true, takeRow key owner expiresAt s)
  | some row => if row.expiresAt ≤ now then (true, takeRow key owner expiresAt s) else (false, s)

/-- `INSERT IGNORE`. -/
def insertIgnore (key : κ) (owner expiresAt : ℕ) (s : LeaseState κ) : Bool × LeaseState κ :=
  match s.rows key with
  | none => (true, takeRow key owner expiresAt s)
  | some _ => (false, s)

/-- `UPDATE … SET owner WHERE key AND expires_at <= now`. -/
def updateExpired (key : κ) (owner expiresAt now : ℕ) (s : LeaseState κ) : Bool × LeaseState κ :=
  match s.rows key with
  | none => (false, s)
  | some row => if row.expiresAt ≤ now then (true, takeRow key owner expiresAt s) else (false, s)

/-- `leases.acquire`. MySQL needs two statements for it. -/
def acquire (adapter : Adapter) (slot : ℕ) (key : κ) (owner expiresAt now : ℕ) :
    LeaseProgram κ Bool :=
  match adapter with
  | .mysql => do
    let inserted ← statement slot key (insertIgnore key owner expiresAt)
    if inserted then pure true else statement slot key (updateExpired key owner expiresAt now)
  | _ => statement slot key (upsertExpired key owner expiresAt now)

/-- A write to the row of `key` that a token must own. -/
def ifOwner (key : κ) (owner : ℕ) (f : LeaseRow → Option LeaseRow) (s : LeaseState κ) :
    Bool × LeaseState κ :=
  match s.rows key with
  | none => (false, s)
  | some row => if row.owner = owner then (true, putRow key (f row) s) else (false, s)

def release (slot : ℕ) (key : κ) (owner : ℕ) : LeaseProgram κ Bool :=
  statement slot key (ifOwner key owner fun _ => none)

def renew (slot : ℕ) (key : κ) (owner expiresAt : ℕ) : LeaseProgram κ Bool :=
  statement slot key (ifOwner key owner fun row => some ⟨row.owner, expiresAt⟩)

/-- The row of `key` in `leases.deleteExpired`, which is one such delete for
each key. -/
def deleteExpired (slot : ℕ) (key : κ) (now : ℕ) : LeaseProgram κ Bool :=
  statement slot key fun s =>
    match s.rows key with
    | none => (false, s)
    | some row => if row.expiresAt ≤ now then (true, putRow key none s) else (false, s)

/-- `leases.verify` on a transaction-scoped repository. An `UPDATE`, or a
write on MongoDB, so the row stays locked until the transaction ends; SQLite
reads, since it holds the write lock already. Without transactions nothing
stays locked. -/
def verify (adapter : Adapter) (slot : ℕ) (key : κ) (owner : ℕ) : LeaseProgram κ Bool :=
  statement slot key fun s =>
    match s.rows key with
    | none => (false, s)
    | some row =>
      if row.owner = owner then
        match adapter with
        | .sqlite => (true, s)
        | .standalone => (true, s)
        | _ => (true, { s with locked := Function.update s.locked key (some slot) })
      else (false, s)

end Table

section Fence

variable {κ : Type} [LinearOrder κ] {α : Type}

/-- A step of this process on its own memory, or work of any other kind. -/
def work : LeaseProgram κ ℕ :=
  atomic fun s m => match m.outcome with
    | .ok => some (.ok m.answer, s)
    | .refused _ => some (.error storeFailure, s)
    | .lost _ => some (.error storeFailure, s)
    | .down => some (.error storeFailure, s)

/-- `Date.now()`. -/
def dateNow : LeaseProgram κ ℕ :=
  atomic fun s m => some (.ok m.now, s)

/-- A fresh random id. -/
def randomUUID (slot : ℕ) : LeaseProgram κ ℕ :=
  atomic fun s _ => some (.ok s.tokens,
    { s with tokens := s.tokens + 1, drawnBy := Function.update s.drawnBy s.tokens slot })

def setLive (token : ℕ) (live : Bool) : LeaseProgram κ Unit :=
  atomic fun s _ => some (.ok (), { s with live := Function.update s.live token live })

/-- Run `fn` as the holder of `key` under `token`. The stack is what
`AsyncLocalStorage` carries into everything `fn` awaits. -/
def holdingLease (key : κ) (token : ℕ) (fn : List (LeaseFence κ) → LeaseProgram κ α)
    (held : List (LeaseFence κ)) : LeaseProgram κ α := do
  setLive token true
  let result ← attempt (fn (held ++ [⟨key, token⟩]))
  setLive token false
  check result

/-- Run `fn` as though the caller held no lease. -/
def outsideHeldLeases (fn : List (LeaseFence κ) → LeaseProgram κ α) : LeaseProgram κ α :=
  fn []

/-- The sections of a stack that have not ended. -/
def liveSections (held : List (LeaseFence κ)) (s : LeaseState κ) : List (LeaseFence κ) :=
  held.filter fun lease => s.live lease.token

/-- The leases the calling context holds right now, ordered by key. -/
def heldLeaseFences (held : List (LeaseFence κ)) (s : LeaseState κ) : List (LeaseFence κ) :=
  (liveSections held s).insertionSort fun a b => a.key ≤ b.key

/-- Refuse with `CONFLICT` unless every fence still holds its key. -/
def assertLeaseFences (adapter : Adapter) (slot : ℕ) :
    List (LeaseFence κ) → LeaseProgram κ Unit
  | [] => pure ()
  | fence :: fences => do
    let held ← verify adapter slot fence.key fence.token
    if held then assertLeaseFences adapter slot fences
    else throw (conflict LEASE_LOST_MESSAGE)

/-- `BEGIN IMMEDIATE` on SQLite, which waits for the write lock. -/
def beginTransaction (adapter : Adapter) (slot : ℕ) : LeaseProgram κ Unit :=
  atomic fun s m =>
    if adapter = .sqlite ∧ s.writer ≠ none then none
    else match m.outcome with
      | .ok => some (.ok (), if adapter = .sqlite then { s with writer := some slot } else s)
      | .refused _ => some (.error storeFailure, s)
      | .lost _ => some (.error storeFailure, s)
      | .down => some (.error storeFailure, s)

/-- The locks of a slot's transaction end with it. -/
def endTransaction (slot : ℕ) (s : LeaseState κ) : LeaseState κ :=
  { s with
    writer := if s.writer = some slot then none else s.writer
    locked := fun key => if s.locked key = some slot then none else s.locked key }

def rollback (slot : ℕ) : LeaseProgram κ Unit :=
  atomic fun s _ => some (.ok (), endTransaction slot s)

def commitTransaction (slot : ℕ) (sections : List (LeaseFence κ)) (s : LeaseState κ) :
    LeaseState κ :=
  endTransaction slot { s with commits := ⟨sections, s.acquisitions⟩ :: s.commits }

/-- `COMMIT`. With its acknowledgement lost it took effect all the same. -/
def commit (slot : ℕ) (sections : List (LeaseFence κ)) : LeaseProgram κ Unit :=
  atomic fun s m => match m.outcome with
    | .ok => some (.ok (), commitTransaction slot sections s)
    | .refused _ => some (.error storeFailure, s)
    | .lost _ => some (.error storeFailure, commitTransaction slot sections s)
    | .down => some (.error storeFailure, s)

/-- The body of a transaction: statements that leave the lease table alone,
and the answer or the exception they end in. -/
inductive Body
  | answer (result : Except NexusError ℕ)
  | statement (next : Except NexusError ℕ → Body)

def Body.run : Body → LeaseProgram κ ℕ
  | .answer result => check result
  | .statement next => do
    let result ← attempt work
    (next result).run

/-- One run of a fenced body, with the fences checked last. The standalone
deployment checks them first, since it has no commit to check them before. -/
def runTransaction (adapter : Adapter) (slot : ℕ) (sections fences : List (LeaseFence κ))
    (body : Body) : LeaseProgram κ ℕ :=
  match adapter with
  | .standalone => do
    assertLeaseFences adapter slot fences
    body.run
  | _ => do
    beginTransaction adapter slot
    tryCatch (do
      let result ← body.run
      assertLeaseFences adapter slot fences
      commit slot sections
      pure result) fun error => do
        rollback slot
        throw error

/-- Whether the database says an error is worth another run. -/
def retryable : LeaseProgram κ Bool :=
  atomic fun s m => some (.ok (m.answer != 0), s)

/-- The retry envelope of the pooled adapters, for a number of further runs. -/
def runWithTransactionRetry (run : LeaseProgram κ ℕ) : ℕ → LeaseProgram κ ℕ
  | 0 => run
  | retries + 1 => do
    let result ← attempt run
    match result with
    | .ok answer => pure answer
    | .error error =>
      if ← retryable then runWithTransactionRetry run retries else throw error

/-- `store.transaction`, whose fences are captured where it is opened. -/
def transaction (adapter : Adapter) (slot : ℕ) (held : List (LeaseFence κ)) (retries : ℕ)
    (body : Body) : LeaseProgram κ ℕ := do
  let captured ← atomic fun s _ => some (.ok (liveSections held s, heldLeaseFences held s), s)
  runWithTransactionRetry (runTransaction adapter slot captured.1 captured.2 body)
    (if adapter = .sqlite then 0 else retries)

end Fence

section Serializer

variable {κ : Type} [LinearOrder κ] {α : Type} (adapter : Adapter) (ttlMs waitMs : ℕ)

/-- The loop of `takeLease`. Its rounds are bounded by the deadline only, so a
run is given the number it makes. -/
def pollLease (slot : ℕ) (key : κ) (token deadline : ℕ) : ℕ → LeaseProgram κ Unit
  | 0 => throw (conflict LEASE_CONFLICT_MESSAGE)
  | polls + 1 => do
    let now ← dateNow
    let acquired ← acquire adapter slot key token (now + ttlMs) now
    if acquired then pure ()
    else do
      let later ← dateNow
      if deadline ≤ later then throw (conflict LEASE_CONFLICT_MESSAGE)
      else pollLease slot key token deadline polls

/-- Block until this section owns `key` under `token`, or `waitMs` has
passed. -/
def takeLease (slot : ℕ) (key : κ) (token polls : ℕ) : LeaseProgram κ Unit := do
  let now ← dateNow
  pollLease adapter ttlMs slot key token (now + waitMs) polls

/-- Run `fn` while holding the database lease for `key`. The renewal timer
fires in parallel: it is an operation of its own in a run. -/
def underLease (slot : ℕ) (key : κ) (polls : ℕ)
    (fn : List (LeaseFence κ) → LeaseProgram κ α) (held : List (LeaseFence κ)) :
    LeaseProgram κ α := do
  let token ← randomUUID slot
  takeLease adapter ttlMs waitMs slot key token polls
  let result ← attempt (holdingLease key token fn held)
  bestEffort (release slot key token)
  check result

/-- A change to one queue of one serializer. -/
def editQueue (serializer : ℕ) (key : κ) (f : List (ℕ × ℕ) → List (ℕ × ℕ)) (s : LeaseState κ) :
    LeaseState κ :=
  let queue := f (s.queues serializer key)
  let queues := Function.update (s.queues serializer) key queue
  { s with queues := Function.update s.queues serializer queues }

/-- Line up behind everything queued for the key in this process. -/
def enqueue (slot serializer : ℕ) (key : κ) : LeaseProgram κ ℕ :=
  atomic fun s _ => some (.ok s.tickets,
    editQueue serializer key (· ++ [(slot, s.tickets)]) { s with tickets := s.tickets + 1 })

/-- `previous.then`: everything queued before has settled. -/
def awaitTurn (serializer : ℕ) (key : κ) (ticket : ℕ) : LeaseProgram κ Unit :=
  atomic fun s _ =>
    if (s.queues serializer key).head?.any (·.2 == ticket) then some (.ok (), s) else none

def dequeue (serializer : ℕ) (key : κ) (ticket : ℕ) : LeaseProgram κ Unit :=
  atomic fun s _ => some (.ok (), editQueue serializer key (·.filter (·.2 != ticket)) s)

/-- A critical section: the queue of this process first, then the lease. The
same key nested inside waits for itself. -/
def serializePerKey (slot serializer : ℕ) (key : κ) (polls : ℕ)
    (fn : List (LeaseFence κ) → LeaseProgram κ α) (held : List (LeaseFence κ)) :
    LeaseProgram κ α := do
  let ticket ← enqueue slot serializer key
  awaitTurn serializer key ticket
  let result ← attempt (underLease adapter ttlMs waitMs slot key polls fn held)
  dequeue serializer key ticket
  check result

end Serializer

section Callers

variable {κ : Type} [LinearOrder κ] (adapter : Adapter) (ttlMs waitMs : ℕ)

/-- Any code of the portal, as far as leases can tell: other work with any
answer, sections of any serializer nested in any way, and transactions. -/
inductive Code (κ : Type)
  | answer (result : Except NexusError ℕ)
  | work (next : Except NexusError ℕ → Code κ)
  | serializePerKey (serializer : ℕ) (key : κ) (polls : ℕ) (fn : Code κ)
      (next : Except NexusError ℕ → Code κ)
  | transaction (retries : ℕ) (body : Body) (next : Except NexusError ℕ → Code κ)
  | outsideHeldLeases (fn : Code κ) (next : Except NexusError ℕ → Code κ)

def Code.run (slot : ℕ) : Code κ → List (LeaseFence κ) → LeaseProgram κ ℕ
  | .answer result, _ => check result
  | .work next, held => do
    let result ← attempt Leases.work
    (next result).run slot held
  | .serializePerKey serializer key polls fn next, held => do
    let result ← attempt
      (Leases.serializePerKey adapter ttlMs waitMs slot serializer key polls (fn.run slot) held)
    (next result).run slot held
  | .transaction retries body next, held => do
    let result ← attempt (Leases.transaction adapter slot held retries body)
    (next result).run slot held
  | .outsideHeldLeases fn next, held => do
    let result ← attempt (Leases.outsideHeldLeases (fn.run slot))
    (next result).run slot held

/-- What a run is made of. Code starts in any context: a request has an empty
stack, a promise that was started and not awaited has the stack it was started
under. The renewal timer of a section and the expiry sweep act at any time. -/
inductive LeaseOp (κ : Type)
  | code (held : List (LeaseFence κ)) (code : Code κ)
  | renewal (key : κ) (token : ℕ)
  | sweep (key : κ)

def leaseProgram (slot : ℕ) : LeaseOp κ → Program (LeaseState κ) Moment Unit
  | .code held code => (code.run adapter ttlMs waitMs slot held).toProgram
  | .renewal key token =>
    Fallible.toProgram do
      let now ← dateNow
      bestEffort (renew slot key token (now + ttlMs))
  | .sweep key =>
    Fallible.toProgram do
      let now ← dateNow
      deleteExpired slot key now

/-- A process stops: its transaction is rolled back and its place in the
queues is gone. -/
def stop (slot : ℕ) (s : LeaseState κ) : LeaseState κ :=
  { endTransaction slot s with
    queues := fun serializer key => (s.queues serializer key).filter (·.1 != slot) }

/-- A lease table nobody has used yet. -/
structure Untouched (s : LeaseState κ) : Prop where
  rows : ∀ key, s.rows key = none
  acquisitions : s.acquisitions = []
  commits : s.commits = []

end Callers

end FerrumNexus.Leases
