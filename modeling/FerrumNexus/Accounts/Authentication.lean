import FerrumNexus.Accounts.SsoSettings

/-!
# Registration, passwords and sessions

`register`, `login`, `requestPasswordReset` and `resetPassword`. Hashing a
password takes its time outside every key, so a login and a reset look again at
what they decided in the transaction they commit. A registration opens its
session after its transaction, and by a statement of its own.
-/
namespace FerrumNexus.Accounts

open Saga Platform

def MIN_PASSWORD_LENGTH : ℕ := 12

def REGISTRATION_SSO_ONLY_MESSAGE : String :=
  "Self-service registration is disabled on this portal — sign in with single sign-on"

def PASSWORD_LOGIN_DISABLED_MESSAGE : String :=
  "Password sign-in is disabled on this portal — sign in with single sign-on"

def WRONG_PASSWORD : AccountError :=
  .unauthorized "Email address or password is incorrect"

def UNVERIFIED : AccountError :=
  .emailNotVerified "Please verify your email address before signing in"

def invalidResetLink : AccountError :=
  .validationFailed "That password reset link is not valid or has expired"

def TOO_SHORT : AccountError :=
  .validationFailed "Password must be at least 12 characters"

/-- `crypto.hashPassword`: a hash that verifies the password. -/
def hashPassword (config : Config) (password : String) : AccountQuery ℕ :=
  atomic fun d c => if config.verifyPassword password c.answer then some (.ok c.answer, d) else none

structure RegisterRequest where
  email : String
  password : String
  display_name : String
  role : Role
  bootstrap_token : Option String
  deriving DecidableEq, Repr

structure RegistrationDraft where
  email : String
  passwordHash : ℕ
  displayName : String
  role : Role
  requireEmailVerification : Bool
  deriving DecidableEq, Repr

/-- What a registration's transaction answers with. -/
structure RegistrationOutcome where
  userId : ℕ
  record : UserRecord
  requiresVerification : Bool
  deriving DecidableEq, Repr

section Register

variable (config : Config) (isolation : Isolation) (slot : ℕ)

/-- The policies a registration by role `role` is held to; whether the address
has to be verified. -/
def applyRegistrationPolicy (role : Role) : AccountQuery Bool := do
  let sso ← reads (·.sso)
  ensure (sso.policy != .sso_only) (.forbidden REGISTRATION_SSO_ONLY_MESSAGE)
  let current ← reads (·.registration)
  ensure current.open_registration (.forbidden "Self-service registration is currently closed")
  ensure (current.allowed_roles.contains role)
    (.forbidden ("Registration with the " ++ role.text ++ " role is not permitted"))
  pure current.require_email_verification

def persistRegistration (userId : ℕ) (draft : RegistrationDraft) (founder : Bool) :
    AccountWrite RegistrationOutcome := do
  let record : UserRecord :=
    { email := draft.email
      display_name := draft.displayName
      password_hash := draft.passwordHash
      role := if founder then .super_admin else draft.role
      org_id := none
      status := .active
      email_verified := founder || !draft.requireEmailVerification }
  createUser userId record
  whenever founder (modify fun d => { d with founder := some userId })
  pure ⟨userId, record, !founder && draft.requireEmailVerification⟩

/-- An ordinary registration. -/
def memberBody (draft : RegistrationDraft) : AccountQuery (AccountWrite RegistrationOutcome) := do
  let requireEmailVerification ← applyRegistrationPolicy draft.role
  let userId ← draw
  pure (persistRegistration userId { draft with requireEmailVerification } false)

/-- `seatFounder`: an ordinary registration where the seat is taken. -/
def seatFounder (draft : RegistrationDraft) : AccountQuery (AccountWrite RegistrationOutcome) := do
  let admins ← reads (countActiveSuperAdmins · none)
  if admins = 0 then do
    let userId ← draw
    pure (persistRegistration userId draft true)
  else memberBody draft

/-- What `register` checks and works out before it takes a key. The second
answer says whether the founder's seat is open. -/
def draftRegistration (input : RegisterRequest) : AccountQuery (RegistrationDraft × Bool) := do
  let policy ← reads (·.registration)
  let email := Outbox.normalizeEmail config.casing input.email
  ensure (!Outbox.isReleasedEmail config.casing email)
    (.validationFailed "That email domain is reserved")
  ensure (MIN_PASSWORD_LENGTH ≤ utf16Length input.password) TOO_SHORT
  ensure (isRegistrableRole input.role) (.validationFailed "Role must be client or provider")
  let admins ← reads (countActiveSuperAdmins · none)
  if admins = 0 then
    ensure (config.bootstrapToken.isSome && input.bootstrap_token == config.bootstrapToken)
      (.forbidden ("This portal has no super_admin yet, so the next registration becomes its " ++
        "super_admin and must include the bootstrap token printed in the server log at startup " ++
        "(or the configured NEXUS_BOOTSTRAP_TOKEN)"))
  else do
    let sso ← reads (·.sso)
    ensure (sso.policy != .sso_only) (.forbidden REGISTRATION_SSO_ONLY_MESSAGE)
    ensure policy.open_registration (.forbidden "Self-service registration is currently closed")
    ensure (policy.allowed_roles.contains input.role)
      (.forbidden ("Registration with the " ++ input.role.text ++ " role is not permitted"))
  let passwordHash ← hashPassword config input.password
  let existing ← reads (findByEmail · email)
  ensure existing.isNone (.conflict "An account with that email address already exists")
  pure (⟨email, passwordHash, trim input.display_name, input.role,
    policy.require_email_verification⟩, admins = 0)

/-- `issueSession` without a transaction: one statement, whatever has become of
the account. -/
def issueSessionAlone (userId : ℕ) (record : UserRecord) : AccountProgram SessionRecord :=
  transaction isolation slot (do
    let sessionId ← draw
    pure (issueSession sessionId userId (some record.password_hash) true)) []

/-- The registration's transaction, under the keys it needs. -/
def registerUnderLocks (draft : RegistrationDraft) (seatOpen : Bool) :
    AccountProgram RegistrationOutcome :=
  if seatOpen then
    locks slot .superAdmins
      (locks slot .registrationPolicy (transaction isolation slot (seatFounder draft))) []
  else locks slot .registrationPolicy (transaction isolation slot (memberBody draft)) []

def register (input : RegisterRequest) : AccountProgram (Option SessionRecord) := do
  let (draft, seatOpen) ← (draftRegistration config input).watch
  let outcome ← registerUnderLocks isolation slot draft seatOpen
  if outcome.requiresVerification then pure none
  else some <$> issueSessionAlone isolation slot outcome.userId outcome.record

end Register

section Login

variable (config : Config) (isolation : Isolation) (slot : ℕ)

/-- The login policy and the local-password rules, for an account as it was
read. -/
def checkEligible (userId : ℕ) (user : UserRecord) : AccountQuery Unit := do
  let sso ← reads (·.sso)
  ensure (sso.policy != .sso_only || config.breakGlassLocalLogin)
    (.forbidden PASSWORD_LOGIN_DISABLED_MESSAGE)
  ensure (sso.policy != .sso_only || user.role = .super_admin) WRONG_PASSWORD
  let blocked ← reads (localPasswordBlocked · config userId user.role)
  ensure (!blocked) WRONG_PASSWORD
  ensure (user.status = .active) .userDisabled
  let policy ← reads (·.registration)
  ensure (!policy.require_email_verification || user.email_verified) UNVERIFIED

def loginWrite (userId sessionId passwordHash : ℕ) : AccountWrite SessionRecord := do
  let touched ← updateIfMatches userId ⟨none, some .active, some passwordHash⟩ {}
  match touched with
  | none => throw WRONG_PASSWORD
  | some _ => issueSession sessionId userId (some passwordHash) false

def loginBody (userId : ℕ) (record : UserRecord) : AccountQuery (AccountWrite SessionRecord) := do
  match ← reads (·.users userId) with
  | none => throw WRONG_PASSWORD
  | some current => do
    ensure (current.password_hash == record.password_hash) WRONG_PASSWORD
    checkEligible config userId current
    let sessionId ← draw
    pure (loginWrite userId sessionId record.password_hash)

/-- Whom a login names, with the password verified against the row as read. -/
def verifyLogin (email password : String) : AccountQuery (ℕ × UserRecord) := do
  let sso ← reads (·.sso)
  ensure (sso.policy != .sso_only || config.breakGlassLocalLogin)
    (.forbidden PASSWORD_LOGIN_DISABLED_MESSAGE)
  match ← reads (findByEmail · (Outbox.normalizeEmail config.casing email)) with
  | none => throw WRONG_PASSWORD
  | some (userId, record) => do
    ensure (config.verifyPassword password record.password_hash) WRONG_PASSWORD
    checkEligible config userId record
    pure (userId, record)

def login (email password : String) : AccountProgram SessionRecord := do
  let (userId, record) ← (verifyLogin config email password).watch
  let commit := transaction isolation slot (loginBody config userId record)
  locks slot (.password userId)
    (locks slot (.lifecycle userId) (locks slot .registrationPolicy commit)) []

end Login

section Reset

variable (config : Config) (isolation : Isolation) (slot : ℕ)

def mintWrite (userId linkId token expiresAt : ℕ) : AccountWrite Unit := do
  deleteResetLinks userId
  modify fun d => { d with resetLinks := d.resetLinks ++ [⟨linkId, userId, token, false, expiresAt⟩] }

/-- The mint of a reset link. Where nothing is to be minted, or another request
holds the window, it writes nothing. -/
def mintBody (userId : ℕ) : AccountQuery (AccountWrite Unit) := do
  match ← reads (·.users userId) with
  | none => pure (pure ())
  | some eligible => do
    let blocked ← reads (localPasswordBlocked · config userId eligible.role)
    let throttled ← draw
    if eligible.status ≠ .active ∨ blocked = true ∨ throttled ≠ 0 then pure (pure ())
    else do
      let linkId ← draw
      let token ← draw
      let expiresAt ← draw
      pure (mintWrite userId linkId token expiresAt)

def requestPasswordReset (email : String) : AccountProgram Unit := do
  let found ← Fallible.watch (reads (findByEmail · (Outbox.normalizeEmail config.casing email)))
  match found with
  | none => pure ()
  | some (userId, _) =>
    locks slot (.lifecycle userId) (transaction isolation slot (mintBody config userId)) []

/-- The link, while it is live by the clock. -/
def liveLink (token : ℕ) : AccountQuery ResetLink := do
  match ← reads (findLink · token) with
  | none => throw invalidResetLink
  | some link => do
    let now ← draw
    ensure (!link.used && now < link.expires_at) invalidResetLink
    pure link

def burn (linkId : ℕ) (link : ResetLink) : ResetLink :=
  if link.id = linkId then { link with used := true } else link

/-- `markUsed`: whether the link was still there and unused. -/
def markUsed (linkId : ℕ) : AccountWrite Bool := do
  let d ← get
  set { d with resetLinks := d.resetLinks.map (burn linkId) }
  pure (d.resetLinks.any fun link => link.id == linkId && !link.used)

def resetWrite (userId linkId passwordHash : ℕ) : AccountWrite Unit := do
  let burned ← markUsed linkId
  if burned then do
    let updated ← updateIfMatches userId ⟨none, some .active, none⟩
      { password_hash := some passwordHash, email_verified := some true }
    match updated with
    | none => throw invalidResetLink
    | some user => do
      upsertProof userId ⟨user.email, .password_reset⟩
      deleteResetLinks userId
      markReset userId
      deleteSessions userId
  else throw invalidResetLink

/-- Whether the account may reset a password now. -/
def checkResettable (userId : ℕ) : AccountQuery Unit := do
  match ← reads (·.users userId) with
  | none => throw invalidResetLink
  | some user => do
    ensure (user.status = .active) .userDisabled
    let blocked ← reads (localPasswordBlocked · config userId user.role)
    ensure (!blocked) invalidResetLink

def resetBody (token userId passwordHash : ℕ) : AccountQuery (AccountWrite Unit) := do
  let live ← liveLink token
  checkResettable config userId
  pure (resetWrite userId live.id passwordHash)

/-- `resetPassword`, up to the commit, over tables in which `ask` reads the
accounts and `liveLink` the link, whose account is its `userId`. -/
def resetPasswordIn {σ ρ : Type} (ask : {α : Type} → AccountQuery α → KeyedProgram σ α)
    (liveLink : KeyedProgram σ ρ) (userId : ρ → ℕ) (commit : ρ → ℕ → Held → KeyedProgram σ Unit)
    (newPassword : String) : KeyedProgram σ Unit := do
  ask (ensure (MIN_PASSWORD_LENGTH ≤ utf16Length newPassword) TOO_SHORT)
  let link ← liveLink
  ask (checkResettable config (userId link))
  let passwordHash ← ask (hashPassword config newPassword)
  locks slot (.password (userId link)) (locks slot (.recovery (userId link))
    (locks slot .registrationPolicy (commit link passwordHash))) []

def resetPassword (token : ℕ) (newPassword : String) : AccountProgram Unit :=
  resetPasswordIn config slot Fallible.watch (liveLink token).watch (·.user_id)
    (fun link passwordHash =>
      transaction isolation slot (resetBody config token link.user_id passwordHash)) newPassword

end Reset

/-- The requests of a run. A request carries its actor as it was authenticated;
a callback carries what the identity provider answered. -/
inductive AccountOp
  | updateUser (actor : Actor) (targetId : ℕ) (patch : UpdateUserRequest)
  | disableUser (actor : Actor) (userId : ℕ) (reason : String)
  | callback (providerId : String) (claims : IdTokenClaims) (link current : Option (ℕ × ℕ))
  | updateAdminSettings (actor : Actor) (patch : SettingsRequest)
  | unlinkIdentity (actor : Actor) (userId identityId : ℕ)
  | register (input : RegisterRequest)
  | login (email password : String)
  | requestPasswordReset (email : String)
  | resetPassword (token : ℕ) (newPassword : String)

def accountProgram (config : Config) (isolation : Isolation) (slot : ℕ) :
    AccountOp → Program World Chance Unit
  | .updateUser actor targetId patch =>
    (updateUser config isolation slot actor targetId patch).toProgram
  | .disableUser actor userId reason => (disableUser isolation slot actor userId reason).toProgram
  | .callback providerId claims link current =>
    (callback config isolation slot providerId claims link current).toProgram
  | .updateAdminSettings actor patch =>
    (updateAdminSettings config isolation slot actor patch).toProgram
  | .unlinkIdentity actor userId identityId =>
    (unlinkIdentity isolation slot actor userId identityId).toProgram
  | .register input => (register config isolation slot input).toProgram
  | .login email password => (login config isolation slot email password).toProgram
  | .requestPasswordReset email =>
    (requestPasswordReset config isolation slot email).toProgram
  | .resetPassword token newPassword =>
    (resetPassword config isolation slot token newPassword).toProgram

end FerrumNexus.Accounts
