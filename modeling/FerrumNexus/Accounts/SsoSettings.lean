import FerrumNexus.Accounts.SignOn

/-!
# Saving the single sign-on settings, and unlinking

A save is worked out from the settings read before any key, and commits only if
they are still the stored ones. It takes the keys of every provider it can
touch. Unlinking an identity takes none.
-/
namespace FerrumNexus.Accounts

open Saga Platform

/-- A provider in a settings request. A client secret is left alone, cleared or
replaced. -/
structure ProviderRequest where
  settings : SsoProviderSettings
  client_secret : Option (Option ℕ)
  deriving DecidableEq, Repr

structure SettingsRequest where
  policy : Option LoginPolicy := none
  allowed_email_domains : Option (List String) := none
  deprovision_on_access_loss : Option Bool := none
  providers : Option (List ProviderRequest) := none
  deriving DecidableEq, Repr

def MAX_SSO_PROVIDERS : ℕ := 10

def MAX_ALLOWED_EMAIL_DOMAINS : ℕ := 100

section Request

variable (config : Config)

def normalizeDomains (entries : List String) (what : String) :
    Except AccountError (List String) :=
  if MAX_ALLOWED_EMAIL_DOMAINS < entries.length then
    .error (.validationFailed "At most 100 email domains are allowed")
  else entries.foldlM (fun domains entry =>
    match config.normalizeEmailDomain entry with
    | none => .error (.validationFailed (what ++ ": '" ++ entry ++ "' is not a domain name"))
    | some domain => .ok (if domains.contains domain then domains else domains ++ [domain])) []

/-- What the providers of a request come to. -/
structure ProviderPlan where
  providers : List SsoProviderSettings
  secretWrites : List (String × Option ℕ)
  reissued : List String
  rebound : List String
  deriving DecidableEq, Repr

def issuerHasLinks (id : String) : AccountError :=
  .validationFailed ("Provider '" ++ id ++
    "' has linked accounts; add another provider for that issuer")

def secretRequired (id : String) : AccountError :=
  .validationFailed ("Changing provider '" ++ id ++ "' issuer or client_id requires client_secret " ++
    "in the same request (null to clear it), because the stored secret belongs to the previous client")

/-- One provider of the request. -/
def planProvider (stored : StoredSsoSettings) (plan : ProviderPlan) (request : ProviderRequest) :
    AccountQuery ProviderPlan := do
  let provider := request.settings
  ensure (!plan.providers.any fun seen => seen.id == provider.id)
    (.validationFailed ("Provider '" ++ provider.id ++ "' is listed more than once"))
  ensure (!config.providers.any fun declared => declared.id == provider.id)
    (.validationFailed ("Provider '" ++ provider.id ++
      "' comes from NEXUS_OIDC_PROVIDERS and is read-only here"))
  match config.issuerProblem provider.issuer with
  | some problem => throw (.validationFailed ("Provider '" ++ provider.id ++ "' issuer " ++ problem))
  | none => do
    let before := stored.providers.find? fun previous => previous.id == provider.id
    let reissues := before.any fun previous => previous.issuer != provider.issuer
    let links ← reads (countByProvider · provider.id)
    ensure (!reissues || links == 0) (issuerHasLinks provider.id)
    let moves := request.client_secret.isNone && before.any fun previous =>
      previous.issuer != provider.issuer || previous.client_id != provider.client_id
    let secret ← reads (·.clientSecrets provider.id)
    ensure (!moves || secret.isNone) (secretRequired provider.id)
    let known ← reads (·.organizations)
    match provider.org_mappings.find? fun mapping => !known.contains mapping.org_id with
    | some mapping => throw (.notFound "Organization" mapping.org_id)
    | none => pure ()
    let domains ← check (normalizeDomains config provider.allowed_email_domains
      ("Provider '" ++ provider.id ++ "' allowed email domains"))
    pure
      { providers := plan.providers ++ [{ provider with allowed_email_domains := domains }]
        secretWrites := plan.secretWrites ++
          (request.client_secret.map fun secret => (provider.id, secret)).toList
        reissued := if reissues then plan.reissued ++ [provider.id] else plan.reissued
        rebound := if moves then plan.rebound ++ [provider.id] else plan.rebound }

/-- A save as it was worked out, with the settings it started from. -/
structure SettingsPlan where
  stored : StoredSsoSettings
  next : StoredSsoSettings
  secretWrites : List (String × Option ℕ)
  removed : List String
  reissued : List String
  rebound : List String
  deriving DecidableEq, Repr

/-- The providers of a request, against those stored. A provider left out is
removed, its secret with it. -/
def planProviders (stored : StoredSsoSettings) (requests : List ProviderRequest) :
    AccountQuery (ProviderPlan × List String) := do
  ensure (config.providers.length + requests.length ≤ MAX_SSO_PROVIDERS)
    (.validationFailed "At most 10 providers can be configured")
  let plan ← requests.foldlM (planProvider config stored) ⟨[], [], [], []⟩
  let removed := (stored.providers.map (·.id)).filter fun id =>
    !plan.providers.any fun provider => provider.id == id
  pure ({ plan with secretWrites := plan.secretWrites ++ removed.map fun id => (id, none) },
    removed)

/-- Refuse a policy without passwords unless the actor has another way in. -/
def assertWayIn (actor : Actor) (patch : SettingsRequest) (next : StoredSsoSettings) :
    AccountQuery Unit :=
  if next.policy = .sso_only ∧ (patch.policy.isSome ∨ patch.providers.isSome) then do
    let enabled := (providersInForce config next).filter (·.enabled)
    ensure (!enabled.isEmpty)
      (.validationFailed "The sso_only policy needs at least one enabled provider")
    let own ← reads (listByUser · actor.id)
    ensure (own.any fun identity => enabled.any fun provider =>
        provider.id == identity.provider_id && provider.issuer == identity.issuer)
      (.validationFailed ("Link your own account to an enabled provider (Profile → Linked sign-in) " ++
        "before switching to sso_only"))
  else pure ()

/-- `updateAdminSettings` up to its first key. Nothing is to be saved where
nothing changes. -/
def planSettings (actor : Actor) (patch : SettingsRequest) : AccountQuery (Option SettingsPlan) := do
  ensure (roleAtLeast actor.role .super_admin)
    (.forbidden "Only a super admin can change single sign-on settings")
  let stored ← reads (·.sso)
  let domains ← match patch.allowed_email_domains with
    | none => pure stored.allowed_email_domains
    | some entries => check (normalizeDomains config entries "Allowed email domains")
  let (plan, removed) ← match patch.providers with
    | none => pure (⟨stored.providers, [], [], []⟩, [])
    | some requests => planProviders config stored requests
  let next : StoredSsoSettings :=
    { policy := patch.policy.getD stored.policy
      allowed_email_domains := domains
      deprovision_on_access_loss :=
        patch.deprovision_on_access_loss.getD stored.deprovision_on_access_loss
      providers := plan.providers }
  assertWayIn config actor patch next
  if next = stored ∧ plan.secretWrites.isEmpty then pure none
  else pure (some ⟨stored, next, plan.secretWrites, removed, plan.reissued, plan.rebound⟩)

end Request

section Save

variable (config : Config) (isolation : Isolation) (slot : ℕ)

/-- The last entry of an id. -/
def lastById (providers : List SsoProviderSettings) (id : String) : Option SsoProviderSettings :=
  providers.reverse.find? fun provider => provider.id == id

/-- The providers a save cuts off: removed, or disabled in place. -/
def cutOff (plan : SettingsPlan) : List String :=
  let declared := config.providers.map (·.id)
  let gone := plan.removed.filter fun id => !declared.contains id
  let disabled := (providersInForce config plan.stored).filter fun provider => provider.enabled &&
    (lastById (providersInForce config plan.next) provider.id).any fun next => !next.enabled
  gone ++ disabled.map (·.id)

/-- The secrets after a save; the last write of an id counts. -/
def writeSecrets (writes : List (String × Option ℕ)) (secrets : String → Option ℕ) :
    String → Option ℕ :=
  writes.foldl (fun secrets write => Function.update secrets write.1 write.2) secrets

def saveWrite (plan : SettingsPlan) : AccountWrite Unit := do
  modify fun d => { d with clientSecrets := writeSecrets plan.secretWrites d.clientSecrets }
  saveSso plan.next
  let d ← get
  let users := (cutOff config plan).flatMap (listUserIdsByProvider d)
  deleteIdentities fun identity => plan.removed.contains identity.provider_id &&
    !(config.providers.any fun declared => declared.id == identity.provider_id)
  modify fun d =>
    { d with sessions := d.sessions.filter fun session => !users.contains session.user_id }

/-- The checks a save makes again under its keys. -/
def saveBody (plan : SettingsPlan) : AccountQuery (AccountWrite Unit) := do
  let stored ← reads (·.sso)
  ensure (stored = plan.stored)
    (.conflict "Single sign-on settings changed since they were read; reload and try again")
  plan.reissued.forM fun id => do
    let links ← reads (countByProvider · id)
    ensure (links == 0) (issuerHasLinks id)
  plan.rebound.forM fun id => do
    let secret ← reads (·.clientSecrets id)
    ensure secret.isNone (secretRequired id)
  pure (saveWrite config plan)

/-- Hold the key of every provider, in sorted order. -/
def underProviderLocks {α : Type} (providerIds : List String) (fn : Held → AccountProgram α) :
    Held → AccountProgram α :=
  (sortedIds providerIds).foldr (fun id inner => locks slot (.provider id) inner) fn

def updateAdminSettings (actor : Actor) (patch : SettingsRequest) : AccountProgram Unit := do
  let planned ← (planSettings config actor patch).watch
  match planned with
  | none => pure ()
  | some plan =>
    let affected := (providersInForce config plan.stored ++ plan.next.providers).map (·.id)
    let commit := transaction isolation slot (saveBody config plan)
    locks slot .ssoSettings
      (underProviderLocks slot affected (locks slot .registrationPolicy commit)) []

end Save

section Unlink

variable (isolation : Isolation) (slot : ℕ) (actor : Actor) (userId identityId : ℕ)

def unlinkWrite : AccountWrite Unit := do
  let found ← touchLogin identityId
  if found then do
    deleteIdentities fun identity => identity.id == identityId
    deleteSessions userId
  else throw (.notFound "Identity" identityId)

def unlinkBody : AccountQuery (AccountWrite Unit) := do
  let identity ← reads fun d => d.identities.find? fun identity => identity.id == identityId
  ensure (identity.any fun identity => identity.user_id == userId)
    (.notFound "Identity" identityId)
  pure (unlinkWrite userId identityId)

def unlinkIdentity : AccountProgram Unit := do
  let target ← (findUser userId).watch
  Fallible.watch (ensure (!roleAtLeast target.role .admin || roleAtLeast actor.role .super_admin)
    (.forbidden "Only a super admin can unlink an administrator's identity"))
  transaction isolation slot (unlinkBody userId identityId) []

end Unlink

end FerrumNexus.Accounts
