import FerrumNexus.Credentials.Store

/-!
# The consumers that stand for an identity

An account has one canonical gateway consumer, and each of its applications one
of its own. The mapping is made under the consumer's name key; every change of
its groups is one section under the consumer's own key, in which the caller may
check its justification again before the write and commit what depends on the
write after it.
-/
namespace FerrumNexus.Credentials

open Saga Platform Portal

def setGroups (consumerId : ConsumerId) (groups : List AclGroup) (s : World) : World :=
  match s.consumers consumerId with
  | some consumer =>
    let changed := { consumer with aclGroups := groups }
    { s with consumers := Function.update s.consumers consumerId (some changed) }
  | none => s

/-- `edge.consumers.replace` with a new group list: the credentials round-trip. -/
def replaceGroups (consumerId : ConsumerId) (groups : List AclGroup) : PortalService Unit :=
  edgeWrite fun s =>
    match s.consumers consumerId with
    | none => .error consumerNotFound
    | some _ => .ok ((), setGroups consumerId groups s)

/-- The groups of the snapshot `edge.consumers.verification` takes. -/
def verification (consumerId : ConsumerId) : PortalService (Option (List AclGroup)) :=
  edgeRead fun s => (s.consumers consumerId).map (·.aclGroups)

/-- `edge.consumers.replace` of the snapshot's row: refused once the row has
changed. -/
def replaceSnapshot (consumerId : ConsumerId) (snapshot groups : List AclGroup) :
    PortalService Unit :=
  edgeWrite fun s =>
    match s.consumers consumerId with
    | none => .error consumerNotFound
    | some consumer =>
      if consumer.aclGroups = snapshot then .ok ((), setGroups consumerId groups s)
      else .error (edgeFailure (some 412))

/-- `store.consumers.findByUserAndNamespace`. -/
def findConsumer (s : World) (identity : Identity) : Option ConsumerRecord :=
  s.mappings.find? fun m => m.userId == identity.userId && m.applicationId == identity.applicationId

/-- `edge.consumers.getByUsername`: usernames are unique on the gateway. -/
def findByUsername (s : World) (username : Username) : Option ConsumerId :=
  let candidates := .derived username :: (List.range s.fresh).map ConsumerId.assigned
  candidates.find? fun id =>
    match s.consumers id with
    | some consumer => consumer.username == username
    | none => false

/-- `edge.consumers.create` with no groups. -/
def createConsumer (consumerId : ConsumerId) (username : Username) (groups : List AclGroup) :
    PortalService Unit :=
  edgeWrite fun s =>
    if (s.consumers consumerId).isSome || (findByUsername s username).isSome then
      .error (edgeFailure (some 409))
    else .ok ((), { s with
      consumers := Function.update s.consumers consumerId (some ⟨username, groups, fun _ => []⟩) })

/-- `edge.consumers.ensure`: the consumer at the derived id, made if it is
missing, or a legacy one of the same name. -/
def ensureOnGateway (username : Username) : PortalService ConsumerId := do
  let existing ← getConsumer (.derived username)
  match existing with
  | some view => do
    ensure (view.username == username)
      (edgeError "The derived consumer id belongs to another username; contact an administrator")
    pure (.derived username)
  | none =>
    tryCatch
      (do
        createConsumer (.derived username) username []
        pure (.derived username))
      fun error =>
        if error.status = some 409 then do
          let legacy ← edgeRead fun s => findByUsername s username
          match legacy with
          | some consumerId => pure consumerId
          | none => throw error
        else throw error

/-- `consumers.create`: one mapping for an identity, and one for a consumer. -/
def createMapping (identity : Identity) (consumerId : ConsumerId) (s : World) :
    Except NexusError (ConsumerRecord × World) :=
  let record : ConsumerRecord :=
    { id := s.fresh
      userId := identity.userId
      applicationId := identity.applicationId
      ferrumConsumerId := consumerId
      ferrumUsername := identity.username }
  if (findConsumer s identity).isSome || s.mappings.any (·.ferrumConsumerId == consumerId) then
    .error (conflict "A row with these values already exists")
  else .ok (record, { s with mappings := s.mappings ++ [record], fresh := s.fresh + 1 })

/-- `assertApplicationUsable`. -/
def assertApplicationUsable (owner : ℕ) : Option ℕ → PortalService Unit
  | none => pure ()
  | some applicationId => do
    let application ← storeRead fun s => s.applications applicationId
    match application with
    | none => throw (notFound "Application" applicationId)
    | some application => do
      ensure (application.ownerUserId == owner) (notFound "Application" applicationId)
      ensure application.active (conflict "This application is disabled")

/-- `ensureConsumer`, under the name key. -/
def ensureConsumer (slot : ℕ) (identity : Identity) : PortalService ConsumerRecord :=
  serializePerKey slot (.name identity.username) do
    assertApplicationUsable identity.userId identity.applicationId
    let cached ← storeRead fun s => findConsumer s identity
    match cached with
    | some mapping => pure mapping
    | none => do
      let consumerId ← ensureOnGateway identity.username
      transaction fun s => createMapping identity consumerId s

/-- The options of `mutateAclGroups`. `guard` answers with what it saw and
whether to write, and `change` may use what it saw. -/
structure MutateAclGroups (γ δ : Type) where
  requireActiveUser : Option ℕ
  absentIsDone : Bool
  guard : PortalService (γ × Bool)
  change : γ → List AclGroup → List AclGroup
  afterWrite : PortalService δ

def assertRequiredActive : Option ℕ → PortalService Unit
  | none => pure ()
  | some userId => do
    let owner ← storeRead fun s => s.users userId
    ensure (owner.any (·.status == .active))
      (userDisabled "This account has been disabled; its gateway access cannot be extended")

/-- The write and what follows it. -/
def writeGroups {γ δ : Type} (consumerId : ConsumerId) (options : MutateAclGroups γ δ) (seen : γ) :
    Option (List AclGroup) → PortalService (Option δ)
  | none =>
    if options.absentIsDone then pure none
    else throw (edgeError "The gateway consumer for this account no longer exists")
  | some groups => do
    replaceSnapshot consumerId groups (options.change seen groups)
    some <$> options.afterWrite

/-- `mutateAclGroups`: what the guard saw, and the result of the write, `none`
for one that was skipped. A failure after the guard is handed on with what the
guard saw, since callers read both. -/
def mutateAclGroups {γ δ : Type} (slot : ℕ) (consumerId : ConsumerId)
    (options : MutateAclGroups γ δ) : PortalService (γ × Except NexusError (Option δ)) :=
  serializePerKey slot (.consumer consumerId) do
    assertRequiredActive options.requireActiveUser
    let snapshot ← verification consumerId
    let (seen, proceed) ← options.guard
    if proceed then do
      let result ← attempt (writeGroups consumerId options seen snapshot)
      pure (seen, result)
    else pure (seen, .ok none)

end FerrumNexus.Credentials
