import FerrumNexus.Links.Tables

/-!
# Minting and redeeming links

`requestPasswordReset`, `resendVerification`, `verifyEmail` and `resetPassword`,
with the account changes that delete links. A mint is one transaction: it claims
the window, deletes the link it supersedes, makes the new one and queues its
message, so a failure at any of these leaves nothing behind. Rendering a message
and hashing a password come before the transaction, which looks again.
-/
namespace FerrumNexus.Links

open Saga Platform Accounts

def invalidVerificationLink : AccountError :=
  .validationFailed "That verification link is not valid"

def usedVerificationLink : AccountError :=
  .conflict "That verification link has already been used"

def expiredVerificationLink : AccountError :=
  .validationFailed "That verification link has expired"

/-- `withUniformAnswer`: the caller learns of no failure. -/
def withUniformAnswer (body : LinkProgram Unit) : LinkProgram Unit :=
  tryCatch body fun _ => pure ()

section Mint

variable (deps : Deps) (isolation : Isolation) (slot : ℕ)

/-- Rendering the message, where mail is set up. It may fail. -/
def prepare (purpose : Purpose) : LinkQuery Unit :=
  if deps.prepares purpose then do
    let failed ← draw
    if failed = 0 then pure () else throw .internal
  else pure ()

/-- What a mint draws for the row of the new link and its message. -/
structure Draft where
  id : ℕ
  now : ℕ
  created_at : ℕ
  queueFails : Bool

def drawDraft : LinkQuery Draft := do
  let id ← draw
  let now ← draw
  let created_at ← draw
  let queued ← draw
  pure ⟨id, now, created_at, queued != 0⟩

/-- The writes of a mint. Where another request holds the window there are
none. -/
def mintWrite (userId : ℕ) (purpose : Purpose) (token issuedAt : ℕ) (draft : Draft) :
    LinkWrite Unit := do
  let claimed ← claimIssue userId purpose issuedAt
  if claimed then do
    deleteForUser userId purpose
    let d ← get
    createToken
      { id := draft.id
        user_id := userId
        token_hash := token
        purpose := purpose
        expires_at := draft.now + lifetime purpose
        used_at := none
        created_at := draft.created_at
        number := d.accounts.clock
        deleted := false }
    recordMint ⟨userId, purpose, d.accounts.clock, issuedAt⟩
    queueEmail (deps.prepares purpose) draft.id purpose draft.queueFails
  else pure ()

/-- Whether a live link is too fresh to be superseded. -/
def throttled (userId : ℕ) (purpose : Purpose) : LinkQuery Bool := do
  let now ← draw
  let existing ← reads (findLatestLiveForUser · userId purpose now)
  let then' ← draw
  pure (existing.any fun row => then' < row.created_at + throttle purpose)

def resendBody (userId : ℕ) (email : String) (token issuedAt : ℕ) : LinkQuery (LinkWrite Unit) := do
  match ← reads (·.accounts.users userId) with
  | none => pure (pure ())
  | some current =>
    if current.status ≠ .active ∨ current.email ≠ email ∨ current.email_verified = true then
      pure (pure ())
    else do
      let draft ← drawDraft
      pure (mintWrite deps userId .email_verification token issuedAt draft)

def resendVerification (rawEmail : String) : LinkProgram Unit := withUniformAnswer do
  let email := Outbox.normalizeEmail deps.config.casing rawEmail
  match ← (reads (findByEmail ·.accounts email)).watch with
  | none => pure ()
  | some (userId, record) =>
    if record.status ≠ .active ∨ record.email_verified = true then pure ()
    else do
      let fresh ← (throttled userId .email_verification).watch
      if fresh then pure ()
      else do
        let token ← draw.watch
        (prepare deps .email_verification).watch
        let issuedAt ← draw.watch
        locks slot (.lifecycle userId)
          (transaction isolation slot (resendBody deps userId email token issuedAt)) []

/-- Whether the account may be sent a reset link now. -/
def resettable (userId : ℕ) : LinkQuery Bool := do
  match ← reads (·.accounts.users userId) with
  | none => pure false
  | some current => do
    let blocked ← reads (localPasswordBlocked ·.accounts deps.config userId current.role)
    pure (current.status = .active && !blocked)

def requestBody (userId : ℕ) (token issuedAt : ℕ) : LinkQuery (LinkWrite Unit) := do
  let eligible ← resettable deps userId
  if eligible then do
    let draft ← drawDraft
    pure (mintWrite deps userId .password_reset token issuedAt draft)
  else pure (pure ())

/-- `requestPasswordReset` inside the lifecycle key. -/
def requestUnderKey (userId : ℕ) (held : Held) : LinkProgram Unit := do
  let eligible ← (resettable deps userId).watch
  if eligible then do
    let fresh ← (throttled userId .password_reset).watch
    if fresh then pure ()
    else do
      let token ← draw.watch
      (prepare deps .password_reset).watch
      let issuedAt ← draw.watch
      transaction isolation slot (requestBody deps userId token issuedAt) held
  else pure ()

def requestPasswordReset (rawEmail : String) : LinkProgram Unit := withUniformAnswer do
  let email := Outbox.normalizeEmail deps.config.casing rawEmail
  match ← (reads (findByEmail ·.accounts email)).watch with
  | none => pure ()
  | some (userId, _) => locks slot (.lifecycle userId) (requestUnderKey deps isolation slot userId) []

end Mint

section Redeem

variable (deps : Deps) (isolation : Isolation) (slot : ℕ)

/-- The proof a verification link gives, where it replaces no stronger one for
the address. -/
def proveByLink (userId : ℕ) (user : UserRecord) : LinkWrite Unit := do
  let d ← get
  if (d.accounts.emailProofs userId).all fun proof =>
      proof.email != Outbox.normalizeEmail deps.config.casing user.email then
    writeAccounts (upsertProof userId ⟨user.email, .verification_link⟩)
  else pure ()

def verifyWrite (row : VerificationTokenRecord) (usedAt : ℕ) : LinkWrite Unit := do
  let burned ← markUsed row.id usedAt
  if burned then do
    let updated ← writeAccounts (updateIfMatches row.user_id {} { email_verified := some true })
    match updated with
    | none => throw invalidVerificationLink
    | some user => proveByLink deps row.user_id user
  else throw usedVerificationLink

def verifyEmail (token : ℕ) : LinkProgram Unit := do
  match ← (reads (findByTokenHash · token .email_verification)).watch with
  | none => throw invalidVerificationLink
  | some row =>
    if row.used_at.isSome then throw usedVerificationLink
    else do
      let now ← draw.watch
      if row.expires_at ≤ now then throw expiredVerificationLink
      else do
        let usedAt ← draw.watch
        transaction isolation slot (pure (verifyWrite deps row usedAt)) []

/-- The reset link of a token, while it is live by the clock. -/
def liveLink (token : ℕ) : LinkQuery VerificationTokenRecord := do
  match ← reads (findByTokenHash · token .password_reset) with
  | none => throw invalidResetLink
  | some row => do
    let now ← draw
    if isLive now row then pure row else throw invalidResetLink

def resetWrite (userId linkId usedAt passwordHash : ℕ) : LinkWrite Unit := do
  let burned ← markUsed linkId usedAt
  if burned then do
    let updated ← writeAccounts (updateIfMatches userId ⟨none, some .active, none⟩
      { password_hash := some passwordHash, email_verified := some true })
    match updated with
    | none => throw invalidResetLink
    | some user => do
      writeAccounts (upsertProof userId ⟨user.email, .password_reset⟩)
      deleteForUser userId .password_reset
      writeAccounts (markReset userId)
      writeAccounts (deleteSessions userId)
  else throw invalidResetLink

def resetBody (token userId passwordHash : ℕ) : LinkQuery (LinkWrite Unit) := do
  let live ← liveLink token
  onAccounts (checkResettable deps.config userId)
  let usedAt ← draw
  pure (resetWrite userId live.id usedAt passwordHash)

/-- The account service's reset, with the link of this table. -/
def resetPassword (token : ℕ) (newPassword : String) : LinkProgram Unit :=
  resetPasswordIn deps.config slot askAccounts (liveLink token).watch (·.user_id)
    (fun row passwordHash =>
      transaction isolation slot (resetBody deps token row.user_id passwordHash)) newPassword

end Redeem

/-! ## Disables and re-enables

The account services' own requests. Where their transaction disables or
re-enables an account, it deletes the reset links too. -/

section Lifecycle

variable (deps : Deps) (isolation : Isolation) (slot : ℕ) (actor : Actor) (userId : ℕ)

/-- A write of the account services, and the deletion of the reset links where
it flipped the account's status. -/
def flipping {α : Type} (flips : α → Bool) (write : AccountWrite α) : LinkWrite α := do
  let a ← writeAccounts write
  if flips a then deleteForUser userId .password_reset else pure ()
  pure a

/-- The transaction of an account service with these deletions. -/
def flipBody {α : Type} (flips : α → Bool) (body : AccountQuery (AccountWrite α)) :
    LinkQuery (LinkWrite α) :=
  flipping userId flips <$> onAccounts body

def transition (target : UserRecord) (update : UserUpdate) : LinkProgram (Option UserRecord) :=
  underTransitionKeys slot userId target update
    (transaction isolation slot (flipBody userId (fun row => row.isSome && update.status.isSome)
      (transitionBody deps.config actor userId target update)))

def updateUser (patch : UpdateUserRequest) : LinkProgram Unit :=
  updateUserIn actor userId askAccounts (transition deps isolation slot actor userId) patch

/-- God-mode `disableUser`, up to the commit. -/
def disableUser (reason : String) : LinkProgram Unit :=
  disableUserIn slot actor userId askAccounts
    (fun target => transaction isolation slot
      (flipBody userId (fun _ => true) (disableBody userId target))) reason

/-- The disable of a single sign-on callback whose claims map to no role. -/
def deprovision (provider : SsoProviderSettings) : LinkProgram Bool :=
  let commit := transaction isolation slot
    (flipBody userId id (deprovisionBody deps.config userId provider))
  locks slot (.provider provider.id) (locks slot (.lifecycle userId) commit) []

end Lifecycle

/-- The requests of a run. -/
inductive LinkOp
  | requestPasswordReset (email : String)
  | resendVerification (email : String)
  | verifyEmail (token : ℕ)
  | resetPassword (token : ℕ) (newPassword : String)
  | updateUser (actor : Actor) (targetId : ℕ) (patch : UpdateUserRequest)
  | disableUser (actor : Actor) (userId : ℕ) (reason : String)
  | deprovision (userId : ℕ) (provider : SsoProviderSettings)

def linkProgram (deps : Deps) (isolation : Isolation) (slot : ℕ) :
    LinkOp → Program World Chance Unit
  | .requestPasswordReset email => (requestPasswordReset deps isolation slot email).toProgram
  | .resendVerification email => (resendVerification deps isolation slot email).toProgram
  | .verifyEmail token => (verifyEmail deps isolation slot token).toProgram
  | .resetPassword token newPassword =>
    (resetPassword deps isolation slot token newPassword).toProgram
  | .updateUser actor targetId patch =>
    (updateUser deps isolation slot actor targetId patch).toProgram
  | .disableUser actor userId reason =>
    (disableUser isolation slot actor userId reason).toProgram
  | .deprovision userId provider => (deprovision deps isolation slot userId provider).toProgram

end FerrumNexus.Links
