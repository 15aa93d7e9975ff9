import FerrumNexus.Accounts.Records
import FerrumNexus.Saga.Leased
import FerrumNexus.Platform.Text

/-!
# The account tables

The rows the account services share, the statements they are written by and the
keys their transactions run under. A statement is a function of the tables: the
transaction that makes it applies all of its own at the commit, where their row
locks have brought it. Some columns are history. Every commit has a number, a
session keeps the one it was committed at, and an account those of its latest
disable and password reset; the settings row keeps its past values.
-/
namespace FerrumNexus.Accounts

open Saga
open Platform (Role UserStatus roleRank roleAtLeast)

/-- How an identity came to its account. The row says whether it was
provisioned, and the audit row of a link whether it was explicit. -/
inductive LinkOrigin
  | provisioned
  | automatic
  | explicit
  deriving DecidableEq, Repr

/-- A row of `user_identities`. -/
structure UserIdentityRecord where
  id : ℕ
  user_id : ℕ
  provider_id : String
  issuer : String
  subject : String
  origin : LinkOrigin
  deriving DecidableEq, Repr

/-- A row of `sessions`. History: its commit, the password hash it was opened
against if it was opened with a password, and whether a registration opened
it. -/
structure SessionRecord where
  id : ℕ
  user_id : ℕ
  committed : ℕ
  secret : Option ℕ
  registration : Bool
  deriving DecidableEq, Repr

inductive EmailProofMethod
  | verification_link
  | password_reset
  | identity_provider
  deriving DecidableEq, Repr

structure EmailProofRecord where
  email : String
  method : EmailProofMethod
  deriving DecidableEq, Repr

/-- A row of `verification_tokens` with the purpose `password_reset`. -/
structure ResetLink where
  id : ℕ
  user_id : ℕ
  token : ℕ
  used : Bool
  expires_at : ℕ
  deriving DecidableEq, Repr

/-- Who an audit row names for a change of role: an administrator, or the
claims of a provider. -/
inductive RoleSource
  | manual (actorId : ℕ)
  | claims (providerId : String)
  deriving DecidableEq, Repr

/-- The role change in a `USER_ROLE_CHANGE` or `AUTH_SSO_CLAIMS_SYNC` row of
the audit log. -/
structure RoleChange where
  user_id : ℕ
  from_role : Role
  to_role : Role
  source : RoleSource
  deriving DecidableEq, Repr

/-- The tables. `userIds` lists the rows of `users`. The settings row `sso` is
kept with every value it had, by the number of the save that wrote it; `founder`
is `SUPER_ADMIN_CLAIM_KEY`. -/
structure Tables where
  users : ℕ → Option UserRecord
  userIds : List ℕ
  identities : List UserIdentityRecord
  sessions : List SessionRecord
  passwordLocks : ℕ → Bool
  emailProofs : ℕ → Option EmailProofRecord
  resetLinks : List ResetLink
  organizations : List ℕ
  registration : RegistrationPolicy
  ssoRows : ℕ → StoredSsoSettings
  saves : ℕ
  clientSecrets : String → Option ℕ
  founder : Option ℕ
  roleChanges : List RoleChange
  clock : ℕ
  disabledAt : ℕ → ℕ
  resetAt : ℕ → ℕ

/-- `readStoredSsoSettings`. -/
def Tables.sso (d : Tables) : StoredSsoSettings := d.ssoRows d.saves

/-- The keys of the leases, under the names of their functions. -/
inductive AccountKey
  | superAdmins
  | lifecycle (userId : ℕ)
  | provider (providerId : String)
  | ssoSettings
  | registrationPolicy
  | password (userId : ℕ)
  | recovery (userId : ℕ)
  deriving DecidableEq, Repr

abbrev World := Leased AccountKey Tables

abbrev Held := List (AccountKey × ℕ)

abbrev AccountQuery (α : Type) := Query Tables AccountError α

abbrev AccountWrite (α : Type) := Write Tables AccountError α

/-- A program under the keys of the accounts, over whatever tables hold them. -/
abbrev KeyedProgram (σ α : Type) := LeasedProgram AccountKey σ AccountError α

abbrev AccountProgram (α : Type) := KeyedProgram Tables α

/-- A read of the store. -/
def reads {α : Type} (f : Tables → α) : AccountQuery α := look .internal f

def ensure (condition : Bool) (error : AccountError) : AccountQuery Unit :=
  if condition then pure () else throw error

def check {α : Type} : Except AccountError α → AccountQuery α
  | .ok a => pure a
  | .error e => throw e

/-- `locks(key, fn)`. -/
def locks {σ α : Type} (slot : ℕ) (key : AccountKey) (fn : Held → KeyedProgram σ α) (held : Held) :
    KeyedProgram σ α :=
  underLease .internal slot key fn held

def Tables.tick (d : Tables) : Tables := { d with clock := d.clock + 1 }

/-- Every commit has the next number. -/
def numbered {α : Type} (write : AccountWrite α) : AccountWrite α := do
  modify Tables.tick
  write

/-- `store.transaction`. -/
def transaction {α : Type} (isolation : Isolation) (slot : ℕ)
    (body : AccountQuery (AccountWrite α)) (held : Held) : AccountProgram α :=
  transact .internal (.conflict Platform.LEASE_LOST_MESSAGE) isolation slot held (numbered <$> body)

section Reads

variable (d : Tables)

/-- `users.findByEmail`. -/
def findByEmail (email : String) : Option (ℕ × UserRecord) :=
  d.userIds.findSome? fun id =>
    (d.users id).bind fun user => if user.email = email then some (id, user) else none

def isActiveSuperAdmin (user : UserRecord) : Bool :=
  user.role = .super_admin && user.status = .active

/-- `users.countActiveSuperAdmins`, optionally leaving one account out. -/
def countActiveSuperAdmins (excludeUserId : Option ℕ) : ℕ :=
  (d.userIds.filter fun id =>
    some id != excludeUserId && (d.users id).any isActiveSuperAdmin).length

/-- `userIdentities.listByUser`. -/
def listByUser (userId : ℕ) : List UserIdentityRecord :=
  d.identities.filter fun identity => identity.user_id == userId

def findBySubject (providerId issuer subject : String) : Option UserIdentityRecord :=
  d.identities.find? fun identity =>
    identity.provider_id == providerId && identity.issuer == issuer && identity.subject == subject

def countByProvider (providerId : String) : ℕ :=
  (d.identities.filter fun identity => identity.provider_id == providerId).length

def listUserIdsByProvider (providerId : String) : List ℕ :=
  (d.identities.filter fun identity => identity.provider_id == providerId).map (·.user_id)

def findLink (token : ℕ) : Option ResetLink := d.resetLinks.find? fun link => link.token == token

/-- `localPasswordBlocked`: whether an account may no longer use a password. -/
def localPasswordBlocked (config : Config) (userId : ℕ) (role : Role) : Bool :=
  if role = .super_admin then false
  else if d.passwordLocks userId then true
  else
    let strict := (providersInForce config d.sso).filter (·.disable_local_password_for_linked)
    (listByUser d userId).any fun identity =>
      strict.any fun provider => provider.id == identity.provider_id

end Reads

section Statements

/-- The columns `updateIfMatches` compares. -/
structure Expected where
  role : Option Role := none
  status : Option UserStatus := none
  password_hash : Option ℕ := none
  deriving DecidableEq, Repr

/-- The columns an update sets. -/
structure UserUpdate where
  display_name : Option String := none
  org_id : Option (Option ℕ) := none
  role : Option Role := none
  status : Option UserStatus := none
  password_hash : Option ℕ := none
  email_verified : Option Bool := none
  deriving DecidableEq, Repr

def Expected.matchesRow (expected : Expected) (user : UserRecord) : Bool :=
  expected.role.all (· == user.role) && expected.status.all (· == user.status) &&
    expected.password_hash.all (· == user.password_hash)

def UserUpdate.apply (update : UserUpdate) (user : UserRecord) : UserRecord :=
  { user with
    display_name := update.display_name.getD user.display_name
    org_id := update.org_id.getD user.org_id
    role := update.role.getD user.role
    status := update.status.getD user.status
    password_hash := update.password_hash.getD user.password_hash
    email_verified := update.email_verified.getD user.email_verified }

def putUser (id : ℕ) (user : UserRecord) (d : Tables) : Tables :=
  { d with users := Function.update d.users id (some user) }

/-- `users.create`, with its unique constraints. -/
def createUser (id : ℕ) (user : UserRecord) : AccountWrite Unit := do
  let d ← get
  if (d.users id).isSome || (findByEmail d user.email).isSome then throw .internal
  else set (putUser id user { d with userIds := d.userIds ++ [id] })

/-- `UPDATE users SET … WHERE id AND role AND status AND password_hash`. -/
def updateIfMatches (id : ℕ) (expected : Expected) (update : UserUpdate) :
    AccountWrite (Option UserRecord) := do
  let d ← get
  match d.users id with
  | none => pure none
  | some user =>
    if expected.matchesRow user then
      set (putUser id (update.apply user) d)
      pure (some (update.apply user))
    else pure none

/-- `userIdentities.create`, with its unique constraints. -/
def createIdentity (identity : UserIdentityRecord) : AccountWrite Unit := do
  let d ← get
  if d.identities.any fun other => other.id == identity.id ||
      (other.provider_id == identity.provider_id &&
        (other.user_id == identity.user_id ||
          (other.issuer == identity.issuer && other.subject == identity.subject))) then
    throw .internal
  else set { d with identities := d.identities ++ [identity] }

/-- `userIdentities.touchLogin`: whether the row is there. -/
def touchLogin (id : ℕ) : AccountWrite Bool := do
  let d ← get
  pure (d.identities.any fun identity => identity.id == id)

def deleteIdentities (p : UserIdentityRecord → Bool) : AccountWrite Unit :=
  modify fun d => { d with identities := d.identities.filter fun identity => !p identity }

/-- `sessions.deleteForUser`. -/
def deleteSessions (userId : ℕ) : AccountWrite Unit :=
  modify fun d => { d with sessions := d.sessions.filter fun session => session.user_id != userId }

/-- `issueSession` through a transaction. -/
def issueSession (id userId : ℕ) (secret : Option ℕ) (registration : Bool) :
    AccountWrite SessionRecord := do
  let d ← get
  let session := ⟨id, userId, d.clock, secret, registration⟩
  set { d with sessions := d.sessions ++ [session] }
  pure session

/-- `verificationTokens.deleteForUser(id, 'password_reset')`. -/
def deleteResetLinks (userId : ℕ) : AccountWrite Unit :=
  modify fun d => { d with resetLinks := d.resetLinks.filter fun link => link.user_id != userId }

def upsertProof (userId : ℕ) (proof : EmailProofRecord) : AccountWrite Unit :=
  modify fun d => { d with emailProofs := Function.update d.emailProofs userId (some proof) }

def recordRoleChange (change : RoleChange) : AccountWrite Unit :=
  modify fun d => { d with roleChanges := change :: d.roleChanges }

/-- History: this commit disables the account. -/
def markDisabled (userId : ℕ) : AccountWrite Unit :=
  modify fun d => { d with disabledAt := Function.update d.disabledAt userId d.clock }

/-- History: this commit resets the account's password. -/
def markReset (userId : ℕ) : AccountWrite Unit :=
  modify fun d => { d with resetAt := Function.update d.resetAt userId d.clock }

/-- `settings.set(SSO_SETTINGS_KEY, next)`. -/
def saveSso (next : StoredSsoSettings) : AccountWrite Unit :=
  modify fun d =>
    { d with ssoRows := Function.update d.ssoRows (d.saves + 1) next, saves := d.saves + 1 }

end Statements

end FerrumNexus.Accounts
