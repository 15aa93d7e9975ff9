import FerrumNexus.Credentials.Consumers

/-!
# The credential service

The sections `issue`, `rotate`, `revoke` and `reconcile` run under the
consumer key, with the helpers they share. Each definition is one function of
the service and performs its store and gateway calls in the source's order.
Audit rows commit with the transaction they belong to or are written best
effort afterwards, so they add no outcome of their own and are left out, as are
the notifications sent once an operation is over.
-/
namespace FerrumNexus.Credentials

open Saga Platform Portal

/-! ## Positions -/

/-- The comparator of `liveRows`: rows without an ordinal keep the store's
order, in front of the rest. -/
def ordinalBefore (a b : CredentialRecord) : Bool :=
  match a.edgeOrdinal, b.edgeOrdinal with
  | none, _ => true
  | some _, none => false
  | some m, some n => m ≤ n

/-- Rows still occupying a slot of the gateway array, in array order. -/
def liveRows (s : World) (consumerId : ConsumerId) (type : CredentialType) :
    List CredentialRecord :=
  ((listByConsumer s consumerId type).filter fun row => row.status.isLive).insertionSort
    (ordinalBefore · ·)

inductive Position
  | index (i : ℕ)
  | wholeType
  | notLive
  deriving DecidableEq, Repr

def RECONCILE_MESSAGE : String :=
  "The gateway credential list does not match the portal. An administrator must reconcile this consumer — revoke the portal’s remaining credentials for it and issue new ones, or delete the entries added to the gateway by hand — before it can be rotated or revoked"

def AMBIGUOUS_MESSAGE : String :=
  "The gateway position of this credential cannot be determined: it predates the portal’s position tracking and shares that state with another live credential of the same type. An administrator must reconcile this consumer — clearing the credential type on the gateway and revoking its portal rows — after which new credentials can be issued"

def UNCONFIRMED_RETIRING_ONLY_MESSAGE : String :=
  "An earlier HTTP Basic credential change on this consumer was never confirmed by the gateway, which does not list HTTP Basic credentials, so no single one of them can be located safely. No active HTTP Basic credential remains: revoke the retiring credential, which clears every HTTP Basic credential of this consumer on the gateway, or have an administrator reconcile this consumer; then issue a new one"

def UNCONFIRMED_WITH_ACTIVE_MESSAGE : String :=
  "An earlier HTTP Basic credential change on this consumer was never confirmed by the gateway, which does not list HTTP Basic credentials, so no single one of them can be located safely. Revoke with clear_type=true, which removes every HTTP Basic credential of this consumer including the active ones, or have an administrator reconcile this consumer; then issue a new one"

/-- Where the target's entry sits in the array, from the rows' order and the
array's length alone. -/
def resolveCredentialIndex (rows : List CredentialRecord) (target : CredentialRecord)
    (edgeLength : ℕ) : Except NexusError Position :=
  match rows.findIdx? (fun row => row.id == target.id) with
  | none => .ok .notLive
  | some i =>
    if rows.length ≠ edgeLength then
      if rows.length = 1 then .ok .wholeType else .error (edgeError RECONCILE_MESSAGE)
    else if target.edgeOrdinal = none ∧
        1 < (rows.filter fun row => row.edgeOrdinal == none).length then
      .error (conflict AMBIGUOUS_MESSAGE)
    else .ok (.index i)

/-- The entries a read shows for one type, an absent or hidden type as empty. -/
def listed (view : ConsumerView) (type : CredentialType) : List (Option ℕ) :=
  (view.credentials type).getD []

def edgeArrayLength (view : ConsumerView) (type : CredentialType) (fallback : ℕ) : ℕ :=
  if type = .basicauth then fallback else (listed view type).length

/-- Refuse to address an HTTP Basic entry by position while a row of the pair
is retiring. -/
def assertPositionsConfirmed (rows : List CredentialRecord) (type : CredentialType) :
    Except NexusError Unit :=
  if type ≠ .basicauth then .ok ()
  else if (rows.filter fun row => row.status == .retiring).length = 0 then .ok ()
  else if (rows.filter fun row => row.status == .active).length = 0 then
    .error (conflict UNCONFIRMED_RETIRING_ONLY_MESSAGE)
  else .error (conflict UNCONFIRMED_WITH_ACTIVE_MESSAGE)

def revokePosition (rows : List CredentialRecord) (target : CredentialRecord) (edgeLength : ℕ)
    (clearType : Bool) : Except NexusError Position :=
  if target.credentialType ≠ .basicauth then resolveCredentialIndex rows target edgeLength
  else if !rows.any (fun row => row.id == target.id) then .ok .notLive
  else if clearType then .ok .wholeType
  else if rows.all (fun row => row.id == target.id || row.status != .active) then .ok .wholeType
  else
    match assertPositionsConfirmed rows target.credentialType with
    | .error e => .error e
    | .ok () => resolveCredentialIndex rows target edgeLength

/-! ## Shared steps -/

def readLiveRows (consumerId : ConsumerId) (type : CredentialType) :
    CredentialService (List CredentialRecord) :=
  storeRead fun s => liveRows s consumerId type

/-- The transaction that settles one retiring row. -/
def settleRow (id : ℕ) : CredentialService Bool :=
  transaction fun s =>
    match findById s id with
    | none => .ok (false, s)
    | some row =>
      if row.status ≠ .retiring then .ok (false, s)
      else .ok (true, updateStatus id .revoked s)

/-- Settle a retirement the gateway applied but the portal never recorded:
exactly one row too many, and exactly one of them retiring. -/
def settleLostRetirement (rows : List CredentialRecord) (edgeLength : ℕ) :
    CredentialService (List CredentialRecord) :=
  if rows.length ≠ edgeLength + 1 then pure rows
  else
    match rows.filter fun row => row.status == .retiring with
    | [retired] => do
      let settled ← settleRow retired.id
      pure (if settled then rows.filter fun row => row.id != retired.id else rows)
    | _ => pure rows

/-- `AppendWithdrawal`. A length that could not be read is `none`. -/
structure AppendWithdrawal where
  withdrawn : Bool
  arrayAsAppended : Bool
  arrayLength : Option ℕ
  deriving DecidableEq, Repr

/-- What a failed withdrawal concludes from the array it reads afterwards. The
argument is `none` when the read failed, `some none` when the consumer is gone. -/
def withdrawalAfter (appendIndex : ℕ) (type : CredentialType) :
    Option (Option ConsumerView) → AppendWithdrawal
  | some none => ⟨true, true, some 0⟩
  | none => ⟨false, false, none⟩
  | some (some after) =>
    if (listed after type).length = appendIndex then ⟨true, true, some (listed after type).length⟩
    else if (listed after type).length = appendIndex + 1 then
      ⟨false, true, some (listed after type).length⟩
    else ⟨false, false, some (listed after type).length⟩

/-- Take back an entry this call appended, unless the array no longer looks the
way the append left it. -/
def withdrawAppendedEntry (consumerId : ConsumerId) (type : CredentialType)
    (appendIndex fingerprint : ℕ) : CredentialService AppendWithdrawal :=
  if type = .basicauth then pure ⟨false, false, none⟩
  else do
    let live ← swallow (getConsumer consumerId)
    match live with
    | some none => pure ⟨true, false, some 0⟩
    | none => pure ⟨false, false, none⟩
    | some (some view) =>
      match (listed view type)[appendIndex]? with
      | none => pure ⟨false, false, some (listed view type).length⟩
      | some material =>
        if (listed view type).length ≠ appendIndex + 1 ∨
            (material ≠ none ∧ material ≠ some fingerprint) then
          pure ⟨false, false, some (listed view type).length⟩
        else
          tryCatch
            (do
              deleteCredentialAt consumerId type appendIndex fingerprint
              pure ⟨true, true, some (listed view type).length⟩)
            fun _ => do
              let after ← swallow (getConsumer consumerId)
              pure (withdrawalAfter appendIndex type after)

/-- Whether a delete that reported failure provably never touched the array. -/
def deleteDidNotApply (consumerId : ConsumerId) (type : CredentialType) (length : ℕ) :
    CredentialService Bool :=
  if type = .basicauth then pure false
  else do
    let live ← swallow (getConsumer consumerId)
    match live with
    | some (some view) => pure ((listed view type).length == length)
    | _ => pure false

/-- The move back from `retiring` to `active`, conditional on the status. -/
def unretire (id : ℕ) : CredentialService Unit :=
  transaction fun s => .ok ((), (updateIfStatus id .retiring .active s).2)

/-- Three attempts, and never an exception. A failed transaction committed
nothing, so the audit probe between them finds nothing. -/
def withdrawRetirement (credential : CredentialRecord) : CredentialService Unit := do
  let first ← swallow (unretire credential.id)
  if first.isSome then pure ()
  else do
    let second ← swallow (unretire credential.id)
    if second.isSome then pure ()
    else bestEffort (unretire credential.id)

/-- Every caller acts for one row, whose fingerprint is `intended`. -/
def removeAt (consumerId : ConsumerId) (type : CredentialType) (position : Position)
    (intended : ℕ) : CredentialService Unit :=
  match position with
  | .wholeType => deleteCredentialType consumerId type
  | .index i => deleteCredentialAt consumerId type i intended
  | .notLive => pure ()

def setStatus (id : ℕ) (status : CredentialStatus) : CredentialService Unit :=
  transaction fun s => .ok ((), updateStatus id status s)

/-- The delete of a retirement that is already recorded: a failure that
provably changed nothing withdraws the intent. -/
def removeRetiring (current : CredentialRecord) (position : Position) (length : ℕ) :
    CredentialService Unit :=
  tryCatch
    (removeAt current.ferrumConsumerId current.credentialType position current.fingerprint)
    fun error => do
      let unapplied ← deleteDidNotApply current.ferrumConsumerId current.credentialType length
      if unapplied then do
        withdrawRetirement current
        throw error
      else throw error

/-- The intent before the act: `retiring` is durable before the delete. -/
def retireAndRemove (current : CredentialRecord) (position : Position) (length : ℕ) :
    CredentialService Unit := do
  setStatus current.id .retiring
  removeRetiring current position length

/-! ## Revocation -/

structure RevokeOptions where
  clearType : Bool
  recovery : Bool
  recoveryCutoff : Option ℕ

/-- A row a recovery may not take along: another account's, or one issued after
its cutoff. -/
def notOursToEmpty (current : CredentialRecord) (recoveryCutoff : Option ℕ)
    (row : CredentialRecord) : Bool :=
  row.userId != current.userId ||
    match recoveryCutoff with
    | none => false
    | some cutoff => cutoff ≤ row.createdAt

/-- `revokePosition`, or the whole type where a recovery may empty it. -/
def placeRevocation (rows : List CredentialRecord) (current : CredentialRecord) (length : ℕ)
    (options : RevokeOptions) : Except NexusError Position :=
  match revokePosition rows current length options.clearType with
  | .ok position => .ok position
  | .error error =>
    if !options.recovery || rows.any (notOursToEmpty current options.recoveryCutoff) then
      .error error
    else .ok .wholeType

def FOREIGN_BASIC_MESSAGE : String :=
  "This consumer holds HTTP Basic credentials that belong to another account; an administrator must clear them"

/-- The delete of a revocation at the position it was given; the result is the
rows a whole-type delete takes along. -/
def revokeAt (rows : List CredentialRecord) (current : CredentialRecord) (actor : UserRecord)
    (options : RevokeOptions) (length : ℕ) : Position → CredentialService (List CredentialRecord)
  | .notLive => pure []
  | .index i => do
    retireAndRemove current (.index i) length
    pure []
  | .wholeType => do
    ensure (options.clearType || options.recovery || roleAtLeast actor.role .admin ||
      (rows.filter fun row => row.id != current.id).all fun row => row.userId == actor.id)
      (forbidden FOREIGN_BASIC_MESSAGE)
    retireAndRemove current .wholeType length
    pure (rows.filter fun row => row.id != current.id)

/-- The gateway half of a revocation. A consumer that is gone took the entry
with it. -/
def revokeOnGateway (consumer : Option ConsumerView) (live : List CredentialRecord)
    (current : CredentialRecord) (actor : UserRecord) (options : RevokeOptions) :
    CredentialService (List CredentialRecord) :=
  match consumer with
  | none => pure []
  | some view => do
    let length := edgeArrayLength view current.credentialType live.length
    let rows ← settleLostRetirement live length
    let position ← check (placeRevocation rows current length options)
    revokeAt rows current actor options length position

/-- The transaction that settles the target and everything swept with it. -/
def settleRevoked (current : CredentialRecord) (swept : List CredentialRecord) (s : World) : World :=
  swept.foldl (fun s row => (updateIfStatus row.id row.status .revoked s).2)
    (updateStatus current.id .revoked s)

/-- Take one credential off the gateway and settle its row. -/
def revokeCredentialRow (target : CredentialRecord) (actor : UserRecord)
    (options : RevokeOptions) : CredentialService Bool := do
  let found ← storeRead fun s => findById s target.id
  match found with
  | none => pure false
  | some current =>
    if !current.status.isLive then pure false
    else do
      let consumer ← getConsumer target.ferrumConsumerId
      let live ← readLiveRows target.ferrumConsumerId target.credentialType
      ensure (!options.clearType || options.recovery || roleAtLeast actor.role .admin ||
        live.all fun row => row.userId == actor.id) (forbidden FOREIGN_BASIC_MESSAGE)
      let swept ← revokeOnGateway consumer live current actor options
      transaction fun s => .ok (true, settleRevoked current swept s)

/-! ## Appending -/

/-- What `appendCredential` is given beyond the store and the gateway. -/
structure AppendInput where
  ownerId : ℕ
  applicationId : Option ℕ
  consumerId : ConsumerId
  type : CredentialType
  rotatedFromId : Option ℕ
  appendIndex : ℕ

def AppendInput.row (input : AppendInput) (material : ℕ) (status : CredentialStatus) :
    CreateInput where
  userId := input.ownerId
  applicationId := input.applicationId
  ferrumConsumerId := input.consumerId
  credentialType := input.type
  fingerprint := material
  status := status
  rotatedFromId := input.rotatedFromId

/-- The activation of a pending HTTP Basic row. -/
def activatePending (id : ℕ) : CredentialService CredentialRecord :=
  transaction fun s =>
    match updateIfStatus id .retiring .active s with
    | (some activated, s') => .ok (activated, s')
    | (none, _) => .error (conflict "The credential was revoked while it was being issued")

/-- Restore the durable marker of an entry nobody confirmed. -/
def remarkRevoked (id : ℕ) : CredentialService Unit :=
  transaction fun s => .ok ((), (updateIfStatus id .revoked .retiring s).2)

/-- The branch of `appendCredential` for a type no read shows: the row comes
first, as `retiring`, and only an acknowledged append activates it. -/
def appendBasicAuth (input : AppendInput) (material : ℕ) : CredentialService CredentialRecord := do
  let pending ← transaction fun s => .ok (createRow (input.row material .retiring) s)
  tryCatch (addCredential input.consumerId input.type material) fun error =>
    if definiteRefusal error.status then do
      transaction fun s => .ok ((), deleteRow pending.id s)
      throw error
    else throw error
  tryCatch (activatePending pending.id) fun error => do
    tryCatch (remarkRevoked pending.id) fun _ => bestEffort (remarkRevoked pending.id)
    throw error

/-- The other branch: the entry first, and the row after it. -/
def appendListed (input : AppendInput) (material : ℕ) : CredentialService CredentialRecord := do
  tryCatch (addCredential input.consumerId input.type material) fun error => do
    -- `reclaimUnacknowledgedAppend`
    let _ ← withdrawAppendedEntry input.consumerId input.type input.appendIndex material
    throw error
  tryCatch (transaction fun s => .ok (createRow (input.row material .active) s)) fun error => do
    let _ ← withdrawAppendedEntry input.consumerId input.type input.appendIndex material
    throw error

/-- Append one entry to a consumer and mirror it, or leave neither behind. -/
def appendCredential (input : AppendInput) : CredentialService CredentialRecord := do
  let material ← generate
  if input.type = .basicauth then appendBasicAuth input material else appendListed input material

/-! ## Issue -/

def assertOwnerActive (userId : ℕ) : CredentialService Unit := do
  let owner ← storeRead fun s => s.users userId
  match owner with
  | none => throw (notFound "User" userId)
  | some owner =>
    ensure (owner.status == .active)
      (userDisabled "This account has been disabled; its gateway access cannot be extended")

def assertNoPendingRecovery (userId : ℕ) : CredentialService Unit := do
  let pending ← storeRead fun s => s.recoveryPending userId
  ensure (!pending)
    (conflict "Credentials are being revoked after an account recovery; try again once it completes")

/-- The application check of `issueForConsumer`. -/
def assertApplicationOwned (userId : ℕ) : Option ℕ → CredentialService Unit
  | none => pure ()
  | some applicationId => do
    let application ← storeRead fun s => s.applications applicationId
    match application with
    | none => throw (notFound "Application" applicationId)
    | some application => do
      ensure (application.ownerUserId == userId) (notFound "Application" applicationId)
      ensure application.active (conflict "This application is disabled")

structure IssueInput where
  user : UserRecord
  applicationId : Option ℕ
  consumerId : ConsumerId
  credentialType : CredentialType
  skipCap : Bool
  recoveryGate : Bool

def capMessage (count : ℕ) (type : CredentialType) (cap : ℕ) : String :=
  "You already hold " ++ toString count ++ " live " ++ type.name ++
    " credentials (the gateway allows " ++ toString cap ++ "); revoke or rotate one first"

def issueForConsumer (cap : ℕ) (input : IssueInput) : CredentialService CredentialRecord := do
  assertOwnerActive input.user.id
  assertApplicationOwned input.user.id input.applicationId
  let consumer ← getConsumer input.consumerId
  match consumer with
  | none => throw (edgeError "The gateway consumer for this account no longer exists")
  | some view => do
    let live ← readLiveRows input.consumerId input.credentialType
    let length := edgeArrayLength view input.credentialType live.length
    let rows ← settleLostRetirement live length
    check (assertPositionsConfirmed rows input.credentialType)
    ensure (input.skipCap || rows.length < cap)
      (conflict (capMessage rows.length input.credentialType cap))
    whenever input.recoveryGate (assertNoPendingRecovery input.user.id)
    appendCredential
      { ownerId := input.user.id
        applicationId := input.applicationId
        consumerId := input.consumerId
        type := input.credentialType
        rotatedFromId := none
        appendIndex := length }

/-! ## Rotation -/

def assertRotatedByOwner (user : UserRecord) (credential : CredentialRecord) :
    CredentialService Unit :=
  ensure (credential.userId == user.id)
    (forbidden "Only the owner of this credential can rotate it; an administrator can revoke it instead")

/-- The application check of `rotate`. -/
def assertApplicationEnabled : Option ℕ → CredentialService Unit
  | none => pure ()
  | some applicationId => do
    let application ← storeRead fun s => s.applications applicationId
    match application with
    | none => throw (conflict "This credential belongs to a disabled application; re-enable it to rotate, or revoke the credential")
    | some application =>
      ensure application.active
        (conflict "This credential belongs to a disabled application; re-enable it to rotate, or revoke the credential")

def alreadyRevoked : NexusError := conflict "This credential has already been revoked"

def rotationInput (current : CredentialRecord) (appendIndex : ℕ) : AppendInput where
  ownerId := current.userId
  applicationId := current.applicationId
  consumerId := current.ferrumConsumerId
  type := current.credentialType
  rotatedFromId := some current.id
  appendIndex := appendIndex

/-- What the caller of a rotation is told when its replacement stands. -/
def strandedMessage (type : CredentialType) (length : ℕ) (withdrawal : AppendWithdrawal) : String :=
  if withdrawal.arrayLength = some length then
    "The gateway did not acknowledge removing the previous credential and no longer holds it; the replacement created in its place is live but its secret was never delivered — revoke the credential named here and issue a new one"
  else if withdrawal.arrayAsAppended then
    "The previous credential could not be removed from the gateway and the replacement created for it could not be taken back; the portal holds a live row for each — revoke the credential named here and try again"
  else if type = .basicauth then
    "The previous credential could not be confirmed removed from the gateway and the replacement created for it could not be taken back; revoke the credential named here, and the previous one if it is still listed, then issue a new one"
  else
    "The previous credential could not be removed from the gateway and the replacement created for it could not be taken back; an administrator must reconcile this consumer"

/-- The compensation of an append-first rotation whose retirement failed. -/
def takeBackReplacement (current created : CredentialRecord) (length : ℕ) (error : NexusError) :
    CredentialService Unit := do
  let withdrawal ← withdrawAppendedEntry current.ferrumConsumerId current.credentialType length
    created.fingerprint
  whenever withdrawal.withdrawn
    (bestEffort (transaction fun s => .ok ((), deleteRow created.id s)))
  whenever withdrawal.arrayAsAppended (bestEffort (setStatus current.id .active))
  if withdrawal.withdrawn then throw error
  else throw (edgeError (strandedMessage current.credentialType length withdrawal))

/-- Below the cap: append, then retire and delete the old entry. -/
def rotateAppendFirst (current : CredentialRecord) (position : ℕ) (length : ℕ) :
    CredentialService CredentialRecord := do
  let created ← appendCredential (rotationInput current length)
  tryCatch
    (do
      setStatus current.id .retiring
      removeAt current.ferrumConsumerId current.credentialType (.index position)
        current.fingerprint)
    fun error => takeBackReplacement current created length error
  setStatus current.id .revoked
  pure created

/-- At the cap: delete the old entry first. -/
def rotateDeleteFirst (current : CredentialRecord) (position : ℕ) (length : ℕ) :
    CredentialService CredentialRecord := do
  retireAndRemove current (.index position) length
  setStatus current.id .revoked
  tryCatch (appendCredential (rotationInput current (length - 1))) fun _ =>
    throw (edgeError
      "The previous credential was removed from the gateway but its replacement could not be created; issue a new credential")

/-- `rotate` once the credential is loaded: the section under the consumer
key. -/
def rotateSection (cap : ℕ) (user : UserRecord) (target : CredentialRecord) :
    CredentialService CredentialRecord := do
  let found ← storeRead fun s => findById s target.id
  match found with
  | none => throw (notFound "Credential" target.id)
  | some current => do
    assertRotatedByOwner user current
    ensure current.status.isLive alreadyRevoked
    assertOwnerActive current.userId
    assertApplicationEnabled current.applicationId
    let consumer ← getConsumer target.ferrumConsumerId
    match consumer with
    | none => throw (edgeError "The gateway consumer for this credential no longer exists")
    | some view => do
      let live ← readLiveRows target.ferrumConsumerId target.credentialType
      let length := edgeArrayLength view target.credentialType live.length
      let rows ← settleLostRetirement live length
      check (assertPositionsConfirmed rows target.credentialType)
      let position ← check (resolveCredentialIndex rows current length)
      match position with
      | .notLive => throw alreadyRevoked
      | .wholeType => throw (edgeError RECONCILE_MESSAGE)
      | .index i => do
        assertNoPendingRecovery user.id
        if length < cap then rotateAppendFirst current i length
        else rotateDeleteFirst current i length

/-- `loadForRotate` and the checks before the key is taken. -/
def loadForRotate (user : UserRecord) (credentialId : ℕ) : CredentialService CredentialRecord := do
  assertNoPendingRecovery user.id
  let loaded ← storeRead fun s => findById s credentialId
  match loaded with
  | none => throw (notFound "Credential" credentialId)
  | some target => do
    assertRotatedByOwner user target
    ensure (target.status != .revoked) alreadyRevoked
    pure target

def rotate (cap : ℕ) (user : UserRecord) (credentialId : ℕ) :
    CredentialService CredentialRecord := do
  let target ← loadForRotate user credentialId
  rotateSection cap user target

/-! ## The entry points -/

/-- `loadForRevoke`: the owner, or an administrator. -/
def loadForRevoke (user : UserRecord) (credentialId : ℕ) : CredentialService CredentialRecord := do
  let loaded ← storeRead fun s => findById s credentialId
  match loaded with
  | none => throw (notFound "Credential" credentialId)
  | some credential => do
    ensure (credential.userId == user.id || roleAtLeast user.role .admin)
      (forbidden "This credential belongs to another account")
    pure credential

def revoke (user : UserRecord) (credentialId : ℕ) (clearType : Bool) : CredentialService Unit := do
  let target ← loadForRevoke user credentialId
  ensure (!clearType || target.credentialType == .basicauth)
    (validationFailed "clear_type applies only to HTTP Basic (basicauth) credentials")
  if target.status = .revoked then pure ()
  else (fun _ => ()) <$> revokeCredentialRow target user ⟨clearType, false, none⟩

/-- `revokeInvalidated`, and with `options` the way the recovery sweep revokes
a row it lists. -/
def revokeInvalidated (actor : UserRecord) (credentialId : ℕ) (options : RevokeOptions) :
    CredentialService Bool := do
  let loaded ← storeRead fun s => findById s credentialId
  match loaded with
  | none => pure false
  | some target =>
    if target.status = .revoked then pure false else revokeCredentialRow target actor options

/-- Whether the portal created the consumer and may address it. `consumer` is
the caller's read of it. -/
def portalOwnsConsumer (consumerId : ConsumerId) (consumer : Option ConsumerView) (s : World) :
    Bool :=
  match s.mappings.find? fun m => m.ferrumConsumerId == consumerId with
  | some mapping =>
    match consumer with
    | none => true
    | some view => view.username == mapping.ferrumUsername
  | none =>
    let registered : Bool :=
      match consumer with
      | none => false
      | some view =>
        match s.identities.find? fun i => i.ferrumUsername == view.username with
        | none => false
        | some identity =>
          match identity.ferrumConsumerId with
          | some bound => bound == consumerId
          | none => ConsumerId.derived view.username == consumerId
    let mirrored : Bool :=
      -- the newest row of the consumer, as `credentials.list` orders them
      match (s.rows.filter fun row => row.ferrumConsumerId == consumerId).getLast? with
      | none => false
      | some row =>
        match consumer with
        | none => true
        | some view =>
          let derivedName :=
            match row.applicationId with
            | none => Username.ofUser row.userId
            | some applicationId => Username.ofApplication applicationId
          view.username == derivedName ||
            match view.username with
            | .ofTest apiId => (s.apis apiId).isSome
            | _ => false
    registered || mirrored

/-- Every live row of the pair, moved to `revoked` in one transaction. -/
def revokeListed (consumerId : ConsumerId) (type : CredentialType) (s : World) : World :=
  (listByConsumer s consumerId type).foldl (fun s row => updateStatus row.id .revoked s) s

/-- `reconcile`: empty the type on both sides, the gateway first. -/
def reconcile (actor : UserRecord) (consumerId : ConsumerId) (type : CredentialType) :
    CredentialService Unit := do
  ensure (roleAtLeast actor.role .admin)
    (forbidden "Only an administrator can reconcile a gateway consumer’s credentials")
  let consumer ← getConsumer consumerId
  let owned ← storeRead fun s => portalOwnsConsumer consumerId consumer s
  ensure owned
    (forbidden "This gateway consumer is not managed by the portal; only a consumer the portal created can be reconciled here")
  match consumer with
  | none => transaction fun s => .ok ((), revokeListed consumerId type s)
  | some _ => do
    deleteCredentialType consumerId type
    transaction fun s => .ok ((), revokeListed consumerId type s)

/-! ## The strip of a disabled account's consumers

The block `disableGatewayAccess` runs for each consumer the account durably
holds, under that consumer's key: groups first, then every credential type,
then the rows. Each gateway call stands alone, so the block may stop between
any two of them. -/

/-- Refuse to strip an account that is no longer disabled. -/
def assertStillDisabled (userId : ℕ) : CredentialService Unit := do
  let owner ← storeRead fun s => s.users userId
  match owner with
  | none => pure ()
  | some owner =>
    ensure (owner.status == .disabled)
      (conflict "That account is no longer disabled; its gateway access was left alone")

/-- Every live row of the consumer, of any type, moved to `revoked`. -/
def revokeAllRows (consumerId : ConsumerId) (s : World) : World :=
  ((s.rows.filter fun row => row.ferrumConsumerId == consumerId && row.status.isLive).insertionSort
    (rowBefore · ·)).foldl (fun s row => updateStatus row.id .revoked s) s

def revokeRowsFor (consumerId : ConsumerId) : CredentialService Unit :=
  transaction fun s => .ok ((), revokeAllRows consumerId s)

/-- The gateway calls of the block, skipped for a consumer that is gone. -/
def stripOnGateway (consumerId : ConsumerId) : Option ConsumerView → CredentialService Unit
  | none => pure ()
  | some _ => do
    replaceGroups consumerId []
    deleteCredentialType consumerId .keyauth
    deleteCredentialType consumerId .basicauth
    deleteCredentialType consumerId .jwt

/-- The block of `disableGatewayAccess` for one durable consumer. -/
def stripIdentity (userId : ℕ) (consumerId : ConsumerId) : CredentialService Unit := do
  assertStillDisabled userId
  let live ← getConsumer consumerId
  stripOnGateway consumerId live
  revokeRowsFor consumerId

end FerrumNexus.Credentials
