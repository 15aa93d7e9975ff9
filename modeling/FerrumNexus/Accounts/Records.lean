import FerrumNexus.Outbox.Store

/-!
# Accounts, roles and single sign-on settings

The records the account services read, and the pure functions over them: which
providers are in force, what an ID token's claims map to, what they would
change on an account, and whom the deployment trusts with administrators. The
claims of an ID token are a function from a claim's path to the strings it
holds.
-/
namespace FerrumNexus.Accounts

open Platform (Role UserStatus roleRank roleAtLeast)

/-- A member of `ELEVATED_ROLES`. -/
def isElevated : Role → Bool
  | .client => false
  | .provider => false
  | .admin => true
  | .super_admin => true

/-- A member of `REGISTRABLE_ROLES`. -/
def isRegistrableRole (role : Role) : Bool := !isElevated role

/-- The roles claims may confer. -/
inductive SsoMappableRole
  | client
  | provider
  | admin
  deriving DecidableEq, Repr

def SsoMappableRole.toRole : SsoMappableRole → Role
  | .client => .client
  | .provider => .provider
  | .admin => .admin

theorem SsoMappableRole.toRole_ne (role : SsoMappableRole) : role.toRole ≠ .super_admin := by
  cases role <;> nofun

theorem isElevated_eq (role : Role) : isElevated role = roleAtLeast role .admin := by
  cases role <;> rfl

theorem roleAtLeast_self (role : Role) : roleAtLeast role role = true := by
  simp [roleAtLeast]

theorem not_roleAtLeast {a b : Role} : roleAtLeast a b = false ↔ roleRank a < roleRank b := by
  simp [roleAtLeast]

/-- A row of `users`, less what no service here reads. -/
structure UserRecord where
  email : String
  display_name : String
  password_hash : ℕ
  role : Role
  org_id : Option ℕ
  status : UserStatus
  email_verified : Bool
  deriving DecidableEq, Repr

inductive LoginPolicy
  | local_only
  | sso_only
  | local_and_sso
  deriving DecidableEq, Repr

structure SsoRoleMapping where
  claim : String
  value : String
  role : SsoMappableRole
  deriving DecidableEq, Repr

structure SsoOrgMapping where
  claim : String
  value : String
  org_id : ℕ
  deriving DecidableEq, Repr

structure SsoProviderSettings where
  id : String
  display_name : String
  issuer : String
  client_id : String
  scopes : List String
  enabled : Bool
  jit_provisioning : Bool
  link_existing_accounts : Bool
  require_verified_email : Bool
  allowed_email_domains : List String
  disable_local_password_for_linked : Bool
  sync_roles : Bool
  default_role : Option SsoMappableRole
  role_mappings : List SsoRoleMapping
  org_mappings : List SsoOrgMapping
  deriving DecidableEq, Repr

/-- The stored `sso` row. -/
structure StoredSsoSettings where
  policy : LoginPolicy
  allowed_email_domains : List String
  deprovision_on_access_loss : Bool
  providers : List SsoProviderSettings
  deriving DecidableEq, Repr

structure RegistrationPolicy where
  open_registration : Bool
  require_email_verification : Bool
  allowed_roles : List Role
  deriving DecidableEq, Repr

/-- What the deployment fixes. `providers` are the environment's, with the
functions of other modules the services call. -/
structure Config where
  providers : List SsoProviderSettings
  breakGlassLocalLogin : Bool
  casing : Outbox.Casing
  bootstrapToken : Option String
  verifyPassword : String → ℕ → Bool
  issuerProblem : String → Option String
  normalizeEmailDomain : String → Option String

/-- `SSO_ERROR_REASONS`. -/
inductive SsoErrorReason
  | sso_disabled
  | provider_unavailable
  | invalid_state
  | idp_error
  | token_invalid
  | email_required
  | email_domain_not_allowed
  | email_not_verified
  | account_exists
  | address_unproven
  | privileged_account
  | already_linked
  | link_session_mismatch
  | account_disabled
  | access_denied
  | signup_disabled
  | server_error
  deriving DecidableEq, Repr

/-- What the account services throw. -/
inductive AccountError
  | validationFailed (message : String)
  | unauthorized (message : String)
  | forbidden (message : String)
  | notFound (what : String) (id : ℕ)
  | conflict (message : String)
  | userDisabled
  | emailNotVerified (message : String)
  | lastSuperAdmin
  | internal
  | oidc (reason : SsoErrorReason) (message : String)
  deriving DecidableEq, Repr

/-- A validated ID token, its `email` already normalized. -/
structure IdTokenClaims where
  sub : String
  email : Option String
  email_verified : Bool
  display_name : String
  claimValues : String → List String

section Providers

variable (config : Config)

/-- The providers in force, environment first; a stored one with an id the
environment declares is shadowed. -/
def providersInForce (stored : StoredSsoSettings) : List SsoProviderSettings :=
  config.providers ++ stored.providers.filter fun provider =>
    !(config.providers.any fun declared => declared.id == provider.id)

/-- Whether the deployment trusts `provider` to make its accounts
administrators. -/
def grantsAdmin (provider : SsoProviderSettings) : Bool :=
  if !provider.sync_roles then false
  else
    let roles := provider.default_role :: provider.role_mappings.map fun rule => some rule.role
    roles.any fun role => role.any fun role => roleAtLeast role.toRole .admin

/-- The issuers of the providers trusted with administrators; of several
entries for an id the last counts. -/
def trustedIssuer (stored : StoredSsoSettings) (providerId : String) : Option String :=
  let trusted := (providersInForce config stored).filter grantsAdmin
  (trusted.reverse.find? fun provider => provider.id == providerId).map (·.issuer)

end Providers

/-- What one provider's mappings make of one set of claims. An organization of
`none` says the provider does not manage them. -/
structure ClaimMapping where
  role : Option SsoMappableRole
  roleMapping : Option SsoRoleMapping
  orgId : Option (Option ℕ)
  orgMapping : Option SsoOrgMapping
  deriving DecidableEq, Repr

def matchesClaim (claims : IdTokenClaims) (claim value : String) : Bool :=
  (claims.claimValues claim).contains value

/-- The highest-ranked matching rule, the first of its rank. -/
def bestRoleMapping (claims : IdTokenClaims) (mappings : List SsoRoleMapping) :
    Option SsoRoleMapping :=
  mappings.foldl (fun best mapping =>
    if !matchesClaim claims mapping.claim mapping.value then best
    else match best with
      | none => some mapping
      | some found =>
        if roleRank found.role.toRole < roleRank mapping.role.toRole then some mapping
        else best) none

def mapClaims (provider : SsoProviderSettings) (claims : IdTokenClaims) : ClaimMapping :=
  let roleMapping := bestRoleMapping claims provider.role_mappings
  let role := (roleMapping.map (·.role)).or provider.default_role
  if provider.org_mappings.isEmpty then ⟨role, roleMapping, none, none⟩
  else
    let orgMapping := provider.org_mappings.find? fun mapping =>
      matchesClaim claims mapping.claim mapping.value
    ⟨role, roleMapping, some (orgMapping.map (·.org_id)), orgMapping⟩

/-- A change of an account that claims call for. -/
structure ClaimsChange where
  role : Option SsoMappableRole
  org_id : Option (Option ℕ)
  deriving DecidableEq, Repr

/-- The account changes a sign-in's mapping calls for. A `super_admin` is never
changed. -/
def planClaimsChange (account : UserRecord) (mapping : ClaimMapping)
    (provider : SsoProviderSettings) (orgExists : Bool) : Option ClaimsChange :=
  if account.role = .super_admin then none
  else
    let role := mapping.role.filter fun role => provider.sync_roles && role.toRole != account.role
    let org_id := mapping.orgId.bind fun orgId =>
      let target := if orgExists then orgId else none
      if target != account.org_id then some target else none
    if role.isSome || org_id.isSome then some ⟨role, org_id⟩ else none

/-- Whether an automatic link would leave an identity on an administrator's
account, as it is or as these claims would make it. -/
def privilegedAutoLink (account : UserRecord) (mapping : ClaimMapping)
    (provider : SsoProviderSettings) : Bool :=
  if roleAtLeast account.role .admin then true
  else
    let mapped := (planClaimsChange account mapping provider false).bind (·.role)
    mapped.any fun role => roleAtLeast role.toRole .admin

/-- The characters after the last `@`, if there is one. -/
def domainOf (email : String) : Option String :=
  if email.toList.contains '@' then
    some (String.ofList (email.toList.reverse.takeWhile fun c => c != '@').reverse)
  else none

def emailDomainAllowed (email : String) (allowed : List String) : Bool :=
  allowed.isEmpty || (domainOf email).any fun domain => allowed.contains domain

def checkDomains (email : Option String) (emailVerified : Bool) (domains : List String) :
    Except AccountError Unit :=
  if domains.isEmpty then .ok ()
  else match email with
    | none => .error (.oidc .email_required "A domain check needs an email")
    | some email =>
      if !emailVerified then
        .error (.oidc .email_not_verified "A domain check needs a verified address")
      else if !emailDomainAllowed email domains then
        .error (.oidc .email_domain_not_allowed "The email domain is not allowed")
      else .ok ()

section Lemmas

variable {config : Config} {stored : StoredSsoSettings} {account : UserRecord}
  {mapping : ClaimMapping} {provider : SsoProviderSettings} {orgExists : Bool}
  {change : ClaimsChange}

/-- A provider in force, under its issuer, that syncs roles and can grant
`admin`. -/
def TrustedAt (config : Config) (stored : StoredSsoSettings) (providerId issuer : String) : Prop :=
  ∃ provider ∈ providersInForce config stored,
    provider.id = providerId ∧ provider.issuer = issuer ∧ grantsAdmin provider = true

theorem trustedAt_of_trustedIssuer {providerId issuer : String}
    (h : trustedIssuer config stored providerId = some issuer) :
    TrustedAt config stored providerId issuer := by
  obtain ⟨provider, hfind, hissuer⟩ := Option.map_eq_some_iff.mp h
  have hmem := List.mem_reverse.mp (List.mem_of_find?_eq_some hfind)
  have hid := List.find?_some hfind
  obtain ⟨hforce, hgrants⟩ := List.mem_filter.mp hmem
  exact ⟨provider, hforce, beq_iff_eq.mp hid, hissuer, hgrants⟩

/-- Claims only ever change the role of somebody else than a `super_admin`,
where the provider syncs roles. -/
theorem planClaimsChange_spec (h : planClaimsChange account mapping provider orgExists = some change) :
    account.role ≠ .super_admin ∧ ∀ role, change.role = some role →
      mapping.role = some role ∧ provider.sync_roles = true ∧ role.toRole ≠ account.role := by
  unfold planClaimsChange at h
  split at h
  · contradiction
  · rename_i hrole
    refine ⟨hrole, ?_⟩
    generalize mapping.orgId.bind _ = org_id at h
    dsimp only at h
    split at h
    · cases h
      intro role hsome
      obtain ⟨hmapped, hsync⟩ := Option.filter_eq_some_iff.mp hsome
      simp only [Bool.and_eq_true, bne_iff_ne, ne_eq] at hsync
      exact ⟨hmapped, hsync⟩
    · contradiction

/-- Whether the claims' organization exists has no bearing on the role. -/
theorem planClaimsChange_role (account : UserRecord) (mapping : ClaimMapping)
    (provider : SsoProviderSettings) (orgExists : Bool) :
    (planClaimsChange account mapping provider orgExists).bind (·.role) =
      if account.role = .super_admin then none
      else mapping.role.filter fun role => provider.sync_roles && role.toRole != account.role := by
  unfold planClaimsChange
  split
  · rfl
  · generalize mapping.role.filter _ = role
    generalize mapping.orgId.bind _ = org_id
    cases role <;> cases org_id <;> rfl

/-- An automatic link that is not refused leaves no administrator. -/
theorem not_privilegedAutoLink (orgExists : Bool)
    (h : privilegedAutoLink account mapping provider = false) :
    roleAtLeast account.role .admin = false ∧ ∀ role,
      (planClaimsChange account mapping provider orgExists).bind (·.role) = some role →
        roleAtLeast role.toRole .admin = false := by
  unfold privilegedAutoLink at h
  split at h
  · contradiction
  · rename_i hrole
    refine ⟨by simpa using hrole, ?_⟩
    intro role hmapped
    rw [planClaimsChange_role] at hmapped
    simp only at h
    rw [planClaimsChange_role, hmapped] at h
    exact h

end Lemmas

end FerrumNexus.Accounts
