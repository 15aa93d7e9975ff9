import FerrumNexus.Accounts.Tables

/-!
# Changing and disabling an account

`updateUser` and the god-mode `disableUser`. Each works out what to do from a
row it read before any key, and counts the other super admins and compares the
row again in the transaction. A promotion by hand asks the single sign-on
service about the account's identities there.
-/
namespace FerrumNexus.Accounts

open Saga Platform

/-- Who makes a request, as the request was authenticated. -/
structure Actor where
  id : ℕ
  role : Role
  deriving DecidableEq, Repr

structure UpdateUserRequest where
  display_name : Option String := none
  org_id : Option (Option ℕ) := none
  role : Option Role := none
  status : Option UserStatus := none
  deriving DecidableEq, Repr

/-- `[...new Set(ids)].sort()`. -/
def sortedIds (ids : List String) : List String := ids.dedup.insertionSort (· ≤ ·)

theorem sortedIds_isEmpty {ids : List String} (h : (sortedIds ids).isEmpty = true) : ids = [] := by
  have hnil : sortedIds ids = [] := List.isEmpty_iff.mp h
  refine List.eq_nil_iff_forall_not_mem.mpr fun id hid => ?_
  have hmem : id ∈ sortedIds ids := (List.mem_insertionSort _).mpr (List.mem_dedup.mpr hid)
  rw [hnil] at hmem
  cases hmem

/-- `if (condition) …` among the writes of a transaction. -/
def whenever (condition : Bool) (write : AccountWrite Unit) : AccountWrite Unit :=
  if condition then write else pure ()

def findUser (id : ℕ) : AccountQuery UserRecord := do
  match ← reads (·.users id) with
  | none => throw (.notFound "User" id)
  | some user => pure user

/-- Refuse unless another active super admin is left. -/
def assertOtherSuperAdmin (condition : Bool) (id : ℕ) : AccountQuery Unit :=
  if condition then do
    let others ← reads (countActiveSuperAdmins · (some id))
    ensure (others != 0) .lastSuperAdmin
  else pure ()

section Promotion

variable (config : Config) (userId : ℕ) (stored : StoredSsoSettings)

/-- The providers of the account's identities that are not trusted with
administrators under the identity's issuer, except the one whose claims
promote. -/
def lowerTrust (promoting : Option String) : AccountQuery (List String) := do
  let identities ← reads (listByUser · userId)
  pure (sortedIds ((identities.filter fun identity =>
    some identity.provider_id != promoting &&
      trustedIssuer config stored identity.provider_id != some identity.issuer).map (·.provider_id)))

def lowerTrustProviders (provider : SsoProviderSettings) : AccountQuery (List String) :=
  lowerTrust config userId stored (some provider.id)

def lowerTrustProvidersForManualPromotion : AccountQuery (List String) :=
  lowerTrust config userId stored none

def assertManualAdminPromotionAllowed (role : Role) : AccountQuery Unit := do
  let stored ← reads (·.sso)
  let lower ← lowerTrustProvidersForManualPromotion config userId stored
  ensure lower.isEmpty (.conflict ("Remove or raise the trust of linked single sign-on identities " ++
    "before promoting this account to " ++ role.text))

/-- The check of a promotion by hand, if there is one. -/
def assertPromotion (raised : Option Role) : AccountQuery Unit :=
  match raised with
  | none => pure ()
  | some role => assertManualAdminPromotionAllowed config userId role

end Promotion

/-- The writes every disable makes with its status flip: the sessions and the
reset links of the account end with it. -/
def disableEffects (userId : ℕ) : AccountWrite Unit := do
  markDisabled userId
  deleteSessions userId
  deleteResetLinks userId

section UpdateUser

variable (config : Config) (isolation : Isolation) (slot : ℕ) (actor : Actor) (targetId : ℕ)
  (target : UserRecord)

/-- The update a patch comes to. Role and status only count where they differ
from the row that was read. -/
def userUpdate (patch : UpdateUserRequest) : UserUpdate where
  display_name := patch.display_name.map trim
  org_id := patch.org_id
  role := patch.role.filter (· != target.role)
  status := patch.status.filter (· != target.status)

/-- The checks `updateUser` makes before it takes a key. -/
def checkUpdate (patch : UpdateUserRequest) : AccountQuery Unit := do
  let update := userUpdate target patch
  ensure (update.display_name.all (· != "")) (.validationFailed "Display name cannot be empty")
  match patch.org_id with
  | some (some orgId) => do
    let known ← reads (·.organizations.contains orgId)
    ensure known (.notFound "Organization" orgId)
  | _ => pure ()
  match update.role with
  | none => pure ()
  | some role => do
    ensure (!(isElevated role || isElevated target.role) || roleAtLeast actor.role .super_admin)
      (.forbidden "Only a super admin can grant or revoke administrator roles")
    assertOtherSuperAdmin (isActiveSuperAdmin target) targetId
  match update.status with
  | none => pure ()
  | some status => do
    ensure (!isElevated target.role || roleAtLeast actor.role .super_admin)
      (.forbidden "Only a super admin can disable or re-enable an administrator")
    if status = .disabled then do
      assertOtherSuperAdmin (target.role = .super_admin) targetId
      ensure (targetId != actor.id) (.conflict "You cannot disable your own account")
    else pure ()
  ensure (!(patch.status = some .active && isElevated target.role) ||
      roleAtLeast actor.role .super_admin)
    (.forbidden "Only a super admin can disable or re-enable an administrator")

/-- Whether the update takes an active super admin away, as the row was read. -/
def guardsLastSuperAdmin (update : UserUpdate) : Bool :=
  target.role = .super_admin &&
    ((update.role.isSome && target.status = .active) || update.status = some .disabled)

def privilegeIncreased (update : UserUpdate) : Bool :=
  update.role.any fun role => roleAtLeast role target.role

/-- The role of an update that raises the account to an administrator's. -/
def raisedRole (update : UserUpdate) : Option Role :=
  update.role.filter fun role => roleAtLeast role .admin && !roleAtLeast target.role role

/-- The writes of the transition. Without a row it changed nothing. -/
def transitionWrite (update : UserUpdate) : AccountWrite (Option UserRecord) := do
  let row ← updateIfMatches targetId ⟨some target.role, some target.status, none⟩ update
  match row with
  | none => pure none
  | some row => do
    whenever (update.status = some .disabled) (disableEffects targetId)
    whenever (privilegeIncreased target update && update.status != some .disabled)
      (deleteSessions targetId)
    whenever (update.status = some .active) (deleteResetLinks targetId)
    match update.role with
    | none => pure ()
    | some role => recordRoleChange ⟨targetId, target.role, role, .manual actor.id⟩
    pure (some row)

def transitionBody (update : UserUpdate) : AccountQuery (AccountWrite (Option UserRecord)) := do
  let current ← reads (·.users targetId)
  ensure (!(update.status = some .active &&
      current.any fun user => Outbox.isReleasedEmail config.casing user.email))
    (.conflict "An account whose address was released must remain disabled")
  assertOtherSuperAdmin (guardsLastSuperAdmin target update) targetId
  assertPromotion config targetId (raisedRole target update)
  pure (transitionWrite actor targetId target update)

/-- The commit of a transition under its keys. -/
def underTransitionKeys {σ α : Type} (update : UserUpdate) (commit : Held → KeyedProgram σ α) :
    KeyedProgram σ α :=
  let lifecycle := if update.role.isSome || update.status.isSome then
    locks slot (.lifecycle targetId) commit else commit
  if guardsLastSuperAdmin target update then locks slot .superAdmins lifecycle []
  else lifecycle []

def transition (update : UserUpdate) : AccountProgram (Option UserRecord) :=
  underTransitionKeys slot targetId target update
    (transaction isolation slot (transitionBody config actor targetId target update))

/-- `updateUser`, up to the commit, over tables in which `ask` reads the
accounts. A patch that changes nothing commits an audit row only. -/
def updateUserIn {σ : Type} (ask : {α : Type} → AccountQuery α → KeyedProgram σ α)
    (transition : UserRecord → UserUpdate → KeyedProgram σ (Option UserRecord))
    (patch : UpdateUserRequest) : KeyedProgram σ Unit := do
  let target ← ask (findUser targetId)
  ask (checkUpdate actor targetId target patch)
  let update := userUpdate target patch
  if update = {} then pure ()
  else do
    let row ← transition target update
    match row with
    | some _ => pure ()
    | none =>
      throw (.conflict "That account changed while you were editing it — reload and try again")

def updateUser (patch : UpdateUserRequest) : AccountProgram Unit :=
  updateUserIn actor targetId Fallible.watch (transition config isolation slot actor targetId) patch

end UpdateUser

section DisableUser

variable (isolation : Isolation) (slot : ℕ) (actor : Actor) (userId : ℕ) (target : UserRecord)

def DISABLE_CONFLICT_MESSAGE : String :=
  "That account changed while you were disabling it — reload and try again"

def disableWrite (current : UserRecord) : AccountWrite Unit := do
  let row ← updateIfMatches userId ⟨some current.role, some current.status, none⟩
    { status := some .disabled }
  match row with
  | none => throw (.conflict DISABLE_CONFLICT_MESSAGE)
  | some _ => disableEffects userId

def disableBody : AccountQuery (AccountWrite Unit) := do
  match ← reads (·.users userId) with
  | none => throw (.notFound "User" userId)
  | some current => do
    ensure (current.role = target.role && current.status = target.status)
      (.conflict DISABLE_CONFLICT_MESSAGE)
    assertOtherSuperAdmin (isActiveSuperAdmin target) userId
    pure (disableWrite userId current)

/-- God-mode `disableUser`, up to the commit, over tables in which `ask` reads
the accounts. -/
def disableUserIn {σ : Type} (ask : {α : Type} → AccountQuery α → KeyedProgram σ α)
    (commit : UserRecord → Held → KeyedProgram σ Unit) (reason : String) : KeyedProgram σ Unit := do
  ask (ensure (trim reason != "") (.validationFailed "A reason is required for a god-mode action"))
  let target ← ask (findUser userId)
  ask (assertOtherSuperAdmin (isActiveSuperAdmin target) userId)
  ask (ensure (userId != actor.id) (.conflict "You cannot disable your own account"))
  let lifecycle := locks slot (.lifecycle userId) (commit target)
  if isActiveSuperAdmin target then locks slot .superAdmins lifecycle [] else lifecycle []

def disableUser (reason : String) : AccountProgram Unit :=
  disableUserIn slot actor userId Fallible.watch
    (fun target => transaction isolation slot (disableBody userId target)) reason

end DisableUser

end FerrumNexus.Accounts
