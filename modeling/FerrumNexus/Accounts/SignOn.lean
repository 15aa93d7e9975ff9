import FerrumNexus.Accounts.Users

/-!
# Single sign-on

A callback reads the settings, spends its time on the token exchange, plans from
what it reads then, and carries the plan out in one transaction that reads again
what the plan came from. The identity provider's answers are the claims a
callback is given, and a session is live as the clock has it.
-/
namespace FerrumNexus.Accounts

open Saga Platform

/-- How a sign-in reaches its account. -/
inductive SignInPlan
  | returning (userId : ℕ) (identity : UserIdentityRecord) (initiatingSessionId : Option ℕ)
  | link (userId : ℕ) (explicit : Bool) (initiatingSessionId : Option ℕ)
  | provision
  deriving DecidableEq, Repr

/-- What an automatic plan comes to: a sign-in, or a refusal that deprovisions
an account first. -/
inductive PlanOutcome
  | plan (plan : SignInPlan)
  | denied (deprovisioned : Option ℕ)
  deriving DecidableEq, Repr

def oidc {α : Type} (reason : SsoErrorReason) (message : String) : AccountQuery α :=
  throw (.oidc reason message)

section Settings

variable (config : Config)

def findProvider (providerId : String) (stored : StoredSsoSettings) :
    AccountQuery SsoProviderSettings := do
  ensure (stored.policy != .local_only) (.oidc .sso_disabled "The login policy is local_only")
  let bound ← reads (·.sso)
  ensure (bound = stored)
    (.conflict "The single sign-on settings changed during this request; retry")
  match (providersInForce config stored).find? (·.id == providerId) with
  | none => oidc .sso_disabled "No enabled provider has that id"
  | some provider => do
    ensure provider.enabled (.oidc .sso_disabled "No enabled provider has that id")
    pure provider

/-- Read the settings again, and refuse unless the provider is still in force,
enabled and as the callback found it. -/
def currentSettings (provider : SsoProviderSettings) : AccountQuery StoredSsoSettings := do
  let stored ← reads (·.sso)
  ensure (stored.policy != .local_only)
    (.oidc .sso_disabled "The login policy became local_only during sign-in")
  match (providersInForce config stored).find? (·.id == provider.id) with
  | none => oidc .sso_disabled "The provider was removed or disabled during sign-in"
  | some current => do
    ensure current.enabled
      (.oidc .sso_disabled "The provider was removed or disabled during sign-in")
    ensure (current = provider)
      (.oidc .sso_disabled "The provider was reconfigured during sign-in")
    pure stored

end Settings

section Deprovision

variable (config : Config) (isolation : Isolation) (slot : ℕ)

/-- Whether the account was disabled. -/
def deprovisionWrite (userId : ℕ) (current : UserRecord) : AccountWrite Bool := do
  let row ← updateIfMatches userId ⟨some current.role, some .active, none⟩
    { status := some .disabled }
  match row with
  | none => pure false
  | some _ => do
    disableEffects userId
    pure true

def deprovisionBody (userId : ℕ) (provider : SsoProviderSettings) :
    AccountQuery (AccountWrite Bool) := do
  let stored ← currentSettings config provider
  if !stored.deprovision_on_access_loss then pure (pure false)
  else match ← reads (·.users userId) with
    | none => pure (pure false)
    | some current =>
      if current.status ≠ .active ∨ current.role = .super_admin then pure (pure false)
      else pure (deprovisionWrite userId current)

/-- Disable an account whose claims no longer map to any role. -/
def deprovision (userId : ℕ) (provider : SsoProviderSettings) : AccountProgram Bool :=
  let commit := transaction isolation slot (deprovisionBody config userId provider)
  locks slot (.provider provider.id) (locks slot (.lifecycle userId) commit) []

end Deprovision

section Planning

variable (config : Config)

/-- Whether the portal holds a trusted proof of the account's address. -/
def addressProven (userId : ℕ) (account : UserRecord) : AccountQuery Bool := do
  let proof ← reads (·.emailProofs userId)
  pure (proof.any fun proof => proof.method != .verification_link &&
    proof.email == Outbox.normalizeEmail config.casing account.email)

/-- Whether the account is the founding `super_admin`. -/
def seatedFounder (userId : ℕ) (account : UserRecord) : AccountQuery Bool := do
  if account.role != .super_admin then pure false
  else do
    let founder ← reads (·.founder)
    pure (founder == some userId)

/-- Decide which account an explicit link attaches to. `transaction` is the
account and the session the attempt was started from, `current` the session it
came back to. -/
def planExplicitLink (provider : SsoProviderSettings) (claims : IdTokenClaims)
    (mapping : ClaimMapping) (transaction : ℕ × ℕ) (current : Option (ℕ × ℕ)) :
    AccountQuery SignInPlan := do
  ensure (current == some transaction)
    (.oidc .link_session_mismatch "The link did not return to its session")
  check (checkDomains claims.email claims.email_verified provider.allowed_email_domains)
  let (userId, sessionId) := transaction
  match ← reads (·.users userId) with
  | none => oidc .account_disabled "The account is not active"
  | some account => do
    ensure (account.status = .active) (.oidc .account_disabled "The account is not active")
    match ← reads (findBySubject · provider.id provider.issuer claims.sub) with
    | some identity => do
      ensure (identity.user_id == userId)
        (.oidc .already_linked "The identity is linked to another account")
      pure (.returning userId identity (some sessionId))
    | none => do
      let links ← reads (listByUser · userId)
      ensure (!links.any fun link => link.provider_id == provider.id)
        (.oidc .already_linked "The account is already linked at this provider")
      let proven ← addressProven config userId account
      let founder ← if proven then pure true else seatedFounder userId account
      ensure founder (.oidc .address_unproven "The portal holds no proof of the address")
      ensure (mapping.role.isSome || account.role = .super_admin)
        (.oidc .access_denied "The claims map to no role")
      pure (.link userId true (some sessionId))

/-- Decide which account the claims open. -/
def planSignIn (provider : SsoProviderSettings) (claims : IdTokenClaims) (mapping : ClaimMapping)
    (stored : StoredSsoSettings) : AccountQuery PlanOutcome := do
  match ← reads (findBySubject · provider.id provider.issuer claims.sub) with
  | some identity => do
    match ← reads (·.users identity.user_id) with
    | none => oidc .server_error "The linked account no longer exists"
    | some user => do
      ensure (user.status = .active) (.oidc .account_disabled "The linked account is disabled")
      if mapping.role = none ∧ user.role ≠ .super_admin then
        pure (.denied (if stored.deprovision_on_access_loss then some identity.user_id else none))
      else pure (.plan (.returning identity.user_id identity none))
  | none =>
    match claims.email with
    | none => oidc .email_required "The ID token has no usable email"
    | some email => do
      ensure (!Outbox.isReleasedEmail config.casing email)
        (.oidc .email_required "The ID token has no usable email")
      check (checkDomains claims.email claims.email_verified provider.allowed_email_domains)
      match ← reads (findByEmail · email) with
      | some (userId, existing) => do
        ensure provider.link_existing_accounts
          (.oidc .account_exists "Linking existing accounts is off for this provider")
        ensure (!privilegedAutoLink existing mapping provider)
          (.oidc .privileged_account "Administrator accounts link explicitly")
        ensure claims.email_verified
          (.oidc .email_not_verified "The provider did not verify the address")
        let proven ← addressProven config userId existing
        ensure proven (.oidc .account_exists "The portal holds no proof of the address")
        ensure (existing.status = .active)
          (.oidc .account_disabled "The matching account is disabled")
        let links ← reads (listByUser · userId)
        ensure (!links.any fun link => link.provider_id == provider.id)
          (.oidc .account_exists
            "The account is already linked to another subject at this provider")
        ensure mapping.role.isSome (.oidc .access_denied "The claims map to no role")
        pure (.plan (.link userId false none))
      | none => do
        ensure provider.jit_provisioning
          (.oidc .signup_disabled "Just-in-time provisioning is off")
        ensure (!provider.require_verified_email || claims.email_verified)
          (.oidc .email_not_verified "The provider did not verify the address")
        ensure mapping.role.isSome (.oidc .access_denied "The claims map to no role")
        pure (.plan .provision)

end Planning

section SignIn

variable (config : Config) (isolation : Isolation) (slot : ℕ) (provider : SsoProviderSettings)
  (claims : IdTokenClaims) (mapping : ClaimMapping) (orgExists : Bool)

/-- The account as the commit finds it, for a plan that found one. -/
def currentAccount (userId : ℕ) (initiatingSessionId : Option ℕ) : AccountQuery UserRecord := do
  match ← reads (·.users userId) with
  | none => oidc .server_error "The account no longer exists"
  | some current => do
    ensure (current.status = .active)
      (.oidc .account_disabled "The account was disabled during sign-in")
    match initiatingSessionId with
    | none => pure current
    | some sessionId => do
      let session ← reads fun d => d.sessions.find? fun session => session.id == sessionId
      let live ← draw
      ensure (session.any fun session => session.user_id == userId && live != 0)
        (.oidc .link_session_mismatch "The initiating session is no longer valid")
      pure current

/-- What the claims change. A promotion to administrator is withheld while a
lower-trust provider can open the account. -/
def claimsChange (userId : ℕ) (user : UserRecord) (stored : StoredSsoSettings) :
    AccountQuery (Option ClaimsChange) := do
  let planned := planClaimsChange user mapping provider orgExists
  let promotedTo := (planned.bind (·.role)).filter fun role =>
    roleAtLeast role.toRole .admin && !roleAtLeast user.role .admin
  match promotedTo with
  | none => pure planned
  | some _ => do
    let withheld ← lowerTrustProviders config userId stored provider
    if withheld.isEmpty then pure planned
    else pure (planned.bind fun change => change.org_id.map fun org_id => ⟨none, some org_id⟩)

/-- Sync the claims. A raised role starts from the session this sign-in
issues. -/
def syncWrite (userId : ℕ) (user : UserRecord) (change : Option ClaimsChange) :
    AccountWrite Unit :=
  match change with
  | none => pure ()
  | some change => do
    let row ← updateIfMatches userId ⟨some user.role, some .active, none⟩
      { role := change.role.map (·.toRole), org_id := change.org_id }
    match row with
    | none => throw (.oidc .server_error "The account changed during sign-in")
    | some _ =>
      match change.role with
      | none => pure ()
      | some role => do
        whenever (!roleAtLeast user.role role.toRole) (deleteSessions userId)
        recordRoleChange ⟨userId, user.role, role.toRole, .claims provider.id⟩

def provisionWrite (userId identityId sessionId passwordHash : ℕ) (email : String)
    (role : SsoMappableRole) : AccountWrite SessionRecord := do
  createUser userId
    { email
      display_name := claims.display_name
      password_hash := passwordHash
      role := role.toRole
      org_id := if orgExists then mapping.orgId.join else none
      status := .active
      email_verified := claims.email_verified }
  createIdentity ⟨identityId, userId, provider.id, provider.issuer, claims.sub, .provisioned⟩
  modify fun d => { d with passwordLocks := Function.update d.passwordLocks userId true }
  whenever claims.email_verified (upsertProof userId ⟨email, .identity_provider⟩)
  issueSession sessionId userId none false

def linkWrite (userId identityId sessionId : ℕ) (user : UserRecord) (explicit : Bool)
    (change : Option ClaimsChange) : AccountWrite SessionRecord := do
  createIdentity ⟨identityId, userId, provider.id, provider.issuer, claims.sub,
    if explicit then .explicit else .automatic⟩
  whenever (!explicit && claims.email_verified &&
      claims.email == some (Outbox.normalizeEmail config.casing user.email))
    (upsertProof userId ⟨claims.email.getD "", .identity_provider⟩)
  syncWrite provider userId user change
  issueSession sessionId userId none false

def returningWrite (userId identityId sessionId : ℕ) (user : UserRecord)
    (change : Option ClaimsChange) : AccountWrite SessionRecord := do
  let touched ← touchLogin identityId
  if touched then do
    syncWrite provider userId user change
    issueSession sessionId userId none false
  else throw (.oidc .server_error "The identity was unlinked during sign-in")

def signInBody (plan : SignInPlan) : AccountQuery (AccountWrite SessionRecord) := do
  let stored ← currentSettings config provider
  check (checkDomains claims.email claims.email_verified stored.allowed_email_domains)
  let sessionId ← draw
  match plan with
  | .provision =>
    match claims.email, mapping.role with
    | some email, some role => do
      let passwordHash ← draw
      let userId ← draw
      let identityId ← draw
      pure (provisionWrite provider claims mapping orgExists userId identityId sessionId
        passwordHash email role)
    | _, _ => oidc .server_error "Provisioning without an address or a role"
  | .link userId explicit initiatingSessionId => do
    let user ← currentAccount userId initiatingSessionId
    ensure (explicit || !privilegedAutoLink user mapping provider)
      (.oidc .privileged_account "Administrator accounts link explicitly")
    let identityId ← draw
    let change ← claimsChange config provider mapping orgExists userId user stored
    pure (linkWrite config provider claims userId identityId sessionId user explicit change)
  | .returning userId identity initiatingSessionId => do
    let user ← currentAccount userId initiatingSessionId
    let change ← claimsChange config provider mapping orgExists userId user stored
    pure (returningWrite provider userId identity.id sessionId user change)

/-- Carry out the plan, under the keys it needs. -/
def signIn (plan : SignInPlan) : AccountProgram SessionRecord := do
  let orgExists ← Fallible.watch (match mapping.orgId with
    | some (some orgId) => reads (·.organizations.contains orgId)
    | _ => pure false)
  let commit := transaction isolation slot
    (signInBody config provider claims mapping orgExists plan)
  match plan with
  | .provision => locks slot (.provider provider.id) commit []
  | .link userId _ _ =>
    locks slot (.provider provider.id) (locks slot (.lifecycle userId) commit) []
  | .returning userId _ _ => locks slot (.lifecycle userId) commit []

end SignIn

/-- `callback`, from the settings it reads to the session it issues. `link` is
the attempt's own account and session, where it is an explicit link. -/
def callback (config : Config) (isolation : Isolation) (slot : ℕ) (providerId : String)
    (claims : IdTokenClaims) (link current : Option (ℕ × ℕ)) : AccountProgram SessionRecord := do
  let stored ← Fallible.watch (reads (·.sso))
  let provider ← (findProvider config providerId stored).watch
  Fallible.watch (check (checkDomains claims.email claims.email_verified
    stored.allowed_email_domains))
  let mapping := mapClaims provider claims
  match link with
  | some transaction => do
    let plan ← (planExplicitLink config provider claims mapping transaction current).watch
    signIn config isolation slot provider claims mapping plan
  | none => do
    let outcome ← (planSignIn config provider claims mapping stored).watch
    match outcome with
    | .plan plan => signIn config isolation slot provider claims mapping plan
    | .denied (some userId) => do
      let _ ← deprovision config isolation slot userId provider
      throw (.oidc .access_denied "The claims map to no role")
    | .denied none => throw (.oidc .access_denied "The claims map to no role")

end FerrumNexus.Accounts
