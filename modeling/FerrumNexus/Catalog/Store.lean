import FerrumNexus.Portal.World
import FerrumNexus.Agents.Tools
import Mathlib.Data.List.Sort

/-!
# The rows the catalog reads

What the catalog, the access listings and the message threads read of the
portal's tables, and the queries they make of them. A query is a function of the
rows of one instant. The columns of an API that no check reads are one value of
an arbitrary type. `String.prototype.toLowerCase` is a parameter: what the
queries rely on is that it leaves a slug as it is.
-/
namespace FerrumNexus.Catalog

open Portal Platform

inductive ApiStatus
  | published
  | retired
  deriving DecidableEq, Repr

inductive ApiVisibility
  | ofPublic
  | ofInternal
  | ofPrivate
  deriving DecidableEq, Repr

/-- The characters `slugify` leaves. -/
def isSlugChar (c : Char) : Bool :=
  ('a' ≤ c && c ≤ 'z') || ('0' ≤ c && c ≤ '9') || c == '-'

def isSlug (s : String) : Bool := s.toList.all isSlugChar

abbrev Slug := {s : String // isSlug s = true}

/-- A row of `users`, as a summary names it. -/
structure UserRow extends UserRecord where
  email : String
  displayName : String
  deriving DecidableEq, Repr

/-- A row of `apis`. -/
structure ApiRow (π : Type) where
  id : ℕ
  name : String
  slug : Slug
  description : String
  ownerUserId : ℕ
  upstreamUrl : String
  namespaceName : String
  version : String
  requestable : Bool
  agents : Option Agents.ApiAgents
  status : ApiStatus
  visibility : ApiVisibility
  createdAt : ℕ
  policy : π

/-- A row of `grants`, with when it was made. -/
structure GrantRow extends GrantRecord where
  createdAt : ℕ
  deriving DecidableEq, Repr

/-- A row of `access_requests`, with when it was made. -/
structure RequestRow extends AccessRequestRecord where
  justification : String
  createdAt : ℕ
  deriving DecidableEq, Repr

/-- A row of `api_viewers`: somebody authorised to read the documentation. -/
structure ApiViewerRow where
  apiId : ℕ
  userId : ℕ
  deriving DecidableEq, Repr

structure ApplicationRow extends ApplicationRecord where
  name : String
  deriving DecidableEq, Repr

/-- A row of `api_specs`. -/
structure SpecRow where
  id : ℕ
  apiId : ℕ
  isCurrent : Bool
  rawSpec : String
  version : String
  parsedTitle : Option String
  parsedVersion : Option String
  deriving DecidableEq, Repr

/-- A row of `api_spec_changes`. -/
structure ChangeRow where
  id : ℕ
  apiId : ℕ
  revisionId : ℕ
  report : String
  createdAt : ℕ
  deriving DecidableEq, Repr

/-- The tables at one instant. Ids and slugs are unique, as their indexes have
it. -/
structure Store (π : Type) where
  apis : List (ApiRow π)
  users : List UserRow
  grants : List GrantRow
  requests : List RequestRow
  viewers : List ApiViewerRow
  applications : List ApplicationRow
  specs : List SpecRow
  changes : List ChangeRow
  gatewayUrl : Option String
  users_nodup : (users.map (·.id)).Nodup
  ids_nodup : (apis.map (·.id)).Nodup
  slugs_nodup : (apis.map (·.slug)).Nodup

variable {π : Type}

/-! ## Pages -/

def DEFAULT_PAGE_SIZE : ℕ := 25

/-- `ListOptions`. A fractional limit or offset is its floor. -/
structure ListOptions where
  limit : Option ℤ := none
  offset : Option ℤ := none
  deriving DecidableEq, Repr

def clampPageSize (limit : Option ℤ) : ℕ :=
  match limit with
  | none => DEFAULT_PAGE_SIZE
  | some n => if n < 1 then 1 else min n.toNat MAX_PAGE_SIZE

/-- `Math.max(0, offset ?? 0)`. -/
def clampOffset (offset : Option ℤ) : ℕ := (offset.getD 0).toNat

structure Paginated (α : Type) where
  items : List α
  total : ℕ

/-- `ORDER BY created_at DESC, id DESC LIMIT ? OFFSET ?`, and the count. -/
def pageOf {α : Type} (createdAt id : α → ℕ) (rows : List α) (limit offset : ℕ) : Paginated α where
  items := ((rows.mergeSort fun a b =>
    createdAt b < createdAt a || (createdAt a == createdAt b && id b ≤ id a)).drop offset).take limit
  total := rows.length

/-! ## Queries -/

/-- SQLite's `lower`, which knows the letters of ASCII only. -/
def sqlLower (s : String) : String := String.ofList (s.toList.map Char.toLower)

def findById (s : Store π) (apiId : ℕ) : Option (ApiRow π) :=
  s.apis.find? fun api => api.id == apiId

/-- `SELECT * FROM apis WHERE lower(slug) = ?`, of the slug trimmed and lowered. -/
def findBySlug (toLowerCase : String → String) (s : Store π) (slug : String) : Option (ApiRow π) :=
  s.apis.find? fun api => sqlLower api.slug == toLowerCase (trim slug)

/-- `SELECT * FROM apis WHERE id IN (…)`. -/
def findManyByIds (s : Store π) (ids : List ℕ) : List (ApiRow π) :=
  s.apis.filter fun api => ids.contains api.id

def isActiveGrant (apiId userId : ℕ) (grant : GrantRow) : Bool :=
  grant.apiId == apiId && grant.userId == userId && grant.status == .active

/-- The active grant of one identity, the account itself by default. -/
def findActiveByApiAndUser (s : Store π) (apiId userId : ℕ) (applicationId : Option ℕ := none) :
    Option GrantRow :=
  s.grants.find? fun grant =>
    isActiveGrant apiId userId grant && grant.applicationId == applicationId

/-- The account's active grants, of every identity. -/
def listActiveByUser (s : Store π) (userId : ℕ) : List GrantRow :=
  s.grants.filter fun grant => grant.userId == userId && grant.status == .active

/-- `grants.list({ api_id, user_id, status: 'active' }, { limit, offset })`. -/
def listActiveGrants (s : Store π) (apiId userId limit offset : ℕ) : Paginated GrantRow :=
  pageOf (·.createdAt) (·.id) (s.grants.filter (isActiveGrant apiId userId)) limit offset

def findViewer (s : Store π) (apiId userId : ℕ) : Option ApiViewerRow :=
  s.viewers.find? fun row => row.apiId == apiId && row.userId == userId

def listApiIdsByUser (s : Store π) (userId : ℕ) : List ℕ :=
  (s.viewers.filter fun row => row.userId == userId).map (·.apiId)

/-- The newest of some requests, the larger id of two made at once. -/
def latest (rows : List RequestRow) : Option RequestRow :=
  rows.argmax fun row => toLex (row.createdAt, row.id)

def findLatestByApiAndUser (s : Store π) (apiId userId : ℕ) : Option RequestRow :=
  latest (s.requests.filter fun row => row.apiId == apiId && row.userId == userId)

/-- The first row of each partition by API, of the requests for some APIs. -/
def listLatestForUser (s : Store π) (userId : ℕ) (apiIds : List ℕ) : List RequestRow :=
  let rows := s.requests.filter fun row => row.userId == userId && apiIds.contains row.apiId
  (rows.map (·.apiId)).dedup.filterMap fun apiId =>
    latest (rows.filter fun row => row.apiId == apiId)

def findUser (s : Store π) (userId : ℕ) : Option UserRow :=
  s.users.find? fun user => user.id == userId

end FerrumNexus.Catalog
