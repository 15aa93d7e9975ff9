import FerrumNexus.Catalog.Store

/-!
# Reading an API

The rule for one account and one API, as the catalog's pages, the listings that
embed a summary and the requests that name an API apply it. The list has the
rule as a condition of its query, over the ids the account's grants and
authorisations name. A rendering of a document depends on the row it is read
from, the server's address and the plugin, and is a parameter.
-/
namespace FerrumNexus.Catalog

open Portal Platform

variable {π : Type}

/-! ## The rule -/

/-- One account's standing on one API. -/
structure ApiReadAccess where
  grant : Option GrantRow
  isAuthorizedViewer : Bool
  deriving DecidableEq, Repr

def resolveReadAccess (s : Store π) (viewer : UserRow) (api : ApiRow π) : ApiReadAccess where
  grant :=
    match findActiveByApiAndUser s api.id viewer.id with
    | some own => some own
    | none => (listActiveGrants s api.id viewer.id 1 0).items.head?
  isAuthorizedViewer := (findViewer s api.id viewer.id).isSome

def isInsider (viewer : UserRow) (api : ApiRow π) (access : ApiReadAccess) : Bool :=
  api.ownerUserId == viewer.id || roleAtLeast viewer.role .admin || access.grant.isSome ||
    access.isAuthorizedViewer

def canListApi (viewer : UserRow) (api : ApiRow π) (access : ApiReadAccess) : Bool :=
  isInsider viewer api access || (api.status == .published && api.visibility == .ofPublic)

def canViewApi (viewer : UserRow) (api : ApiRow π) (access : ApiReadAccess) : Bool :=
  isInsider viewer api access || (api.status == .published && api.visibility != .ofPrivate)

/-- `NO_STANDING`. -/
def noStanding : ApiReadAccess := ⟨none, false⟩

/-- Whether only the account's standing can admit it. -/
def isGated (viewer : UserRow) (api : ApiRow π) : Bool :=
  api.visibility == .ofPrivate && !canViewApi viewer api noStanding

def filterReadableApis (s : Store π) (viewer : UserRow) (apis : List (ApiRow π)) :
    List (ApiRow π) :=
  if (apis.filter (isGated viewer)).isEmpty then apis
  else
    let grants := listActiveByUser s viewer.id
    let authorized := listApiIdsByUser s viewer.id
    let standing := fun api : ApiRow π =>
      (⟨grants.find? fun grant => grant.apiId == api.id, authorized.contains api.id⟩ :
        ApiReadAccess)
    apis.filter fun api => !isGated viewer api || canViewApi viewer api (standing api)

def canReadApiSummary (s : Store π) (viewer : UserRow) (api : ApiRow π) : Bool :=
  0 < (filterReadableApis s viewer [api]).length

/-! ## What is shown of an API -/

inductive CatalogAccessState
  | owner
  | granted
  | pending
  | denied
  | revoked
  | opened
  | nothing
  deriving DecidableEq, Repr

structure UserSummary where
  id : ℕ
  email : String
  displayName : String
  role : Role
  deriving DecidableEq, Repr

def summary (owner : UserRow) : UserSummary :=
  ⟨owner.id, owner.email, owner.displayName, owner.role⟩

def listenPathFor (namespaceName slug : String) : String := "/" ++ namespaceName ++ "/" ++ slug

def invokeUrlFor (listenPath : String) (gatewayUrl : Option String) : Option String :=
  gatewayUrl.map fun origin => origin ++ listenPath

/-- An API in the catalog: its row less the upstream's address. -/
structure CatalogApi (π : Type) where
  id : ℕ
  name : String
  slug : Slug
  description : String
  ownerUserId : ℕ
  namespaceName : String
  version : String
  requestable : Bool
  agents : Option Agents.ApiAgents
  status : ApiStatus
  visibility : ApiVisibility
  createdAt : ℕ
  policy : π
  listenPath : String
  invokeUrl : Option String
  owner : Option UserSummary
  accessState : CatalogAccessState

def accessState (viewer : UserRow) (api : ApiRow π) (grant : Option GrantRow)
    (request : Option RequestRow) : CatalogAccessState :=
  if api.ownerUserId == viewer.id then .owner
  else if grant.any fun grant => grant.status == .active then .granted
  else
    let otherwise := if !api.requestable then CatalogAccessState.opened else .nothing
    match request with
    | none => otherwise
    | some row =>
      match row.status with
      | .pending => .pending
      | .denied => .denied
      | .revoked => .revoked
      | _ => otherwise

def catalogApi (viewer : UserRow) (api : ApiRow π) (owner : Option UserRow)
    (grant : Option GrantRow) (request : Option RequestRow) (gatewayUrl : Option String) :
    CatalogApi π where
  id := api.id
  name := api.name
  slug := api.slug
  description := api.description
  ownerUserId := api.ownerUserId
  namespaceName := api.namespaceName
  version := api.version
  requestable := api.requestable
  agents := api.agents
  status := api.status
  visibility := api.visibility
  createdAt := api.createdAt
  policy := api.policy
  listenPath := listenPathFor api.namespaceName api.slug
  invokeUrl := invokeUrlFor (listenPathFor api.namespaceName api.slug) gatewayUrl
  owner := owner.map summary
  accessState := accessState viewer api grant request

/-- The reference embedded in access requests, grants and threads. -/
structure ApiSummary where
  id : ℕ
  name : String
  slug : Slug
  version : String
  ownerUserId : ℕ
  listenPath : String
  invokeUrl : Option String
  agents : Option Agents.ApiAgents
  deriving DecidableEq, Repr

def presentApiSummary (api : ApiRow π) (gatewayUrl : Option String) : ApiSummary where
  id := api.id
  name := api.name
  slug := api.slug
  version := api.version
  ownerUserId := api.ownerUserId
  listenPath := listenPathFor api.namespaceName api.slug
  invokeUrl := invokeUrlFor (listenPathFor api.namespaceName api.slug) gatewayUrl
  agents := api.agents

/-! ## The list -/

/-- The filters of the browse list. -/
structure CatalogFilter where
  q : Option String := none
  requestable : Option Bool := none
  visibility : Option ApiVisibility := none
  ownerUserId : Option ℕ := none

/-- `visible_to`: the ids and the openly listed rows of one account's list. -/
structure ApiViewerFilter where
  ownerUserId : ℕ
  grantedApiIds : List ℕ
  authorizedApiIds : List ℕ
  openStatus : ApiStatus
  openVisibilities : List ApiVisibility

/-- The disjunction of the query. A list that is empty drops its disjunct. -/
def apiViewerCondition (filter : ApiViewerFilter) (api : ApiRow π) : Bool :=
  api.ownerUserId == filter.ownerUserId || filter.grantedApiIds.contains api.id ||
    filter.authorizedApiIds.contains api.id ||
    (api.status == filter.openStatus && filter.openVisibilities.contains api.visibility)

/-- `instr(lower(coalesce(column, '')), needle) > 0` for one of the columns. -/
def addSearch (toLowerCase : String → String) (term : Option String) (columns : List String) :
    Bool :=
  match term with
  | none => true
  | some term =>
    if (trim term).isEmpty then true
    else
      columns.any fun column =>
        decide ((toLowerCase (trim term)).toList <:+: (sqlLower column).toList)

/-- The conditions of the query, less the viewer's. -/
def matchesFilter (toLowerCase : String → String) (filter : CatalogFilter) (api : ApiRow π) :
    Bool :=
  filter.ownerUserId.all (fun id => api.ownerUserId == id) &&
    filter.visibility.all (fun visibility => api.visibility == visibility) &&
    addSearch toLowerCase filter.q [api.name, api.slug, api.description] &&
    filter.requestable.all (fun requestable => api.requestable == requestable)

def visibleTo (s : Store π) (viewer : UserRow) : Option ApiViewerFilter :=
  if roleAtLeast viewer.role .admin then none
  else
    some
      { ownerUserId := viewer.id
        grantedApiIds := (listActiveByUser s viewer.id).map (·.apiId)
        authorizedApiIds := listApiIdsByUser s viewer.id
        openStatus := .published
        openVisibilities := [.ofPublic] }

/-- `apis.list(filter, { limit, offset })`. -/
def listApis (toLowerCase : String → String) (s : Store π) (filter : CatalogFilter)
    (viewer : Option ApiViewerFilter) (limit offset : ℕ) : Paginated (ApiRow π) :=
  pageOf (·.createdAt) (·.id) (s.apis.filter fun api =>
    matchesFilter toLowerCase filter api && viewer.all fun viewer => apiViewerCondition viewer api)
    limit offset

/-- The last entry of a list under a key, as `new Map(entries)` keeps it. -/
def lastUnder {α : Type} (key : α → ℕ) (entries : List α) (id : ℕ) : Option α :=
  entries.reverse.find? fun entry => key entry == id

def list (toLowerCase : String → String) (s : Store π) (viewer : UserRow)
    (filter : CatalogFilter := {}) (options : ListOptions := {}) : Paginated (CatalogApi π) :=
  let grants := listActiveByUser s viewer.id
  let found := listApis toLowerCase s filter (visibleTo s viewer) (clampPageSize options.limit)
    (clampOffset options.offset)
  let page := found.items
  let owners := s.users.filter fun user => (page.map (·.ownerUserId)).contains user.id
  let requests := listLatestForUser s viewer.id (page.map (·.id))
  { items := page.map fun api =>
      catalogApi viewer api (lastUnder (·.id) owners api.ownerUserId)
        (lastUnder (·.apiId) grants api.id) (lastUnder (·.apiId) requests api.id) s.gatewayUrl
    total := found.total }

/-! ## The pages of one API -/

/-- `notFound('API', slug)`. -/
def slugNotFound (slug : String) : NexusError :=
  ⟨.notFound, if slug.isEmpty then "API was not found" else "API '" ++ slug ++ "' was not found",
    none⟩

def viewableApi (toLowerCase : String → String) (s : Store π) (viewer : UserRow) (slug : String) :
    Except NexusError (ApiRow π) :=
  match findBySlug toLowerCase s slug with
  | none => .error (slugNotFound slug)
  | some api =>
    if canViewApi viewer api (resolveReadAccess s viewer api) then .ok api
    else .error (slugNotFound slug)

/-- The revision's metadata, which is all of it but the document. -/
structure SpecSummary where
  id : ℕ
  apiId : ℕ
  version : String
  parsedTitle : Option String
  parsedVersion : Option String
  deriving DecidableEq, Repr

def findCurrentByApi (s : Store π) (apiId : ℕ) : Option SpecRow :=
  s.specs.find? fun spec => spec.apiId == apiId && spec.isCurrent

def SpecRow.summary (spec : SpecRow) : SpecSummary :=
  ⟨spec.id, spec.apiId, spec.version, spec.parsedTitle, spec.parsedVersion⟩

structure CatalogDetail (π : Type) where
  api : CatalogApi π
  spec : Option SpecSummary
  myRequest : Option RequestRow
  myGrant : Option GrantRow

def detail (toLowerCase : String → String) (s : Store π) (viewer : UserRow) (slug : String) :
    Except NexusError (CatalogDetail π) := do
  let api ← viewableApi toLowerCase s viewer slug
  let grant := (resolveReadAccess s viewer api).grant
  let request := findLatestByApiAndUser s api.id viewer.id
  pure
    { api := catalogApi viewer api (findUser s api.ownerUserId) grant request s.gatewayUrl
      spec := (findCurrentByApi s api.id).map SpecRow.summary
      myRequest := request
      myGrant := grant }

structure IdentityAccess where
  application : Option ApplicationRow
  request : Option RequestRow
  grant : Option GrantRow
  deriving DecidableEq, Repr

/-- One of the caller's own applications, or the account itself. -/
def ownApplication (s : Store π) (viewer : UserRow) :
    Option ℕ → Except NexusError (Option ApplicationRow)
  | none => .ok none
  | some applicationId =>
    match s.applications.find? fun application => application.id == applicationId with
    | some application =>
      if application.ownerUserId == viewer.id then .ok (some application)
      else .error (notFound "Application" applicationId)
    | none => .error (notFound "Application" applicationId)

def identityAccess (toLowerCase : String → String) (s : Store π) (viewer : UserRow) (slug : String)
    (applicationId : Option ℕ) : Except NexusError IdentityAccess := do
  let api ← viewableApi toLowerCase s viewer slug
  let application ← ownApplication s viewer applicationId
  let requests := s.requests.filter fun row =>
    row.apiId == api.id && row.userId == viewer.id && row.applicationId == applicationId
  pure
    { application := application
      request := (pageOf (·.createdAt) (·.id) requests 1 0).items.head?
      grant := findActiveByApiAndUser s api.id viewer.id applicationId }

def MAX_SPEC_CHANGE_PAGE_SIZE : ℕ := 20

def listByApi (s : Store π) (apiId limit offset : ℕ) : Paginated ChangeRow :=
  pageOf (·.createdAt) (·.id) (s.changes.filter fun row => row.apiId == apiId) limit offset

def changes (toLowerCase : String → String) (s : Store π) (viewer : UserRow) (slug : String)
    (options : ListOptions := {}) : Except NexusError (Paginated ChangeRow) := do
  let api ← viewableApi toLowerCase s viewer slug
  pure (listByApi s api.id (min (clampPageSize options.limit) MAX_SPEC_CHANGE_PAGE_SIZE)
    (clampOffset options.offset))

def change (toLowerCase : String → String) (s : Store π) (viewer : UserRow) (slug : String)
    (revisionId : ℕ) : Except NexusError ChangeRow := do
  let api ← viewableApi toLowerCase s viewer slug
  match s.changes.find? fun row => row.apiId == api.id && row.revisionId == revisionId with
  | none => .error (notFound "Change summary for revision" revisionId)
  | some row => pure row

/-- A normalised document, or none where the stored one does not parse or is too
large. -/
structure Rendering where
  rawSpec : String
  contentType : String
  deriving DecidableEq, Repr

structure CatalogSpec where
  apiId : ℕ
  version : String
  rendering : Rendering
  parsedTitle : Option String
  parsedVersion : Option String
  deriving DecidableEq, Repr

def specNotFound (slug : String) : NexusError :=
  ⟨.notFound, if slug.isEmpty then "Specification for API was not found"
    else "Specification for API '" ++ slug ++ "' was not found", none⟩

/-- Why a document is not served. -/
inductive SpecError
  | nexus (error : NexusError)
  | specInvalid (message : String)
  deriving DecidableEq, Repr

def spec (toLowerCase : String → String) (renderSpec : SpecRow → String → π → Option Rendering)
    (s : Store π) (viewer : UserRow) (slug : String) : Except SpecError CatalogSpec := do
  let api ← (viewableApi toLowerCase s viewer slug).mapError .nexus
  match findCurrentByApi s api.id with
  | none => .error (.nexus (specNotFound slug))
  | some record =>
    let listenPath := listenPathFor api.namespaceName api.slug
    match renderSpec record ((invokeUrlFor listenPath s.gatewayUrl).getD listenPath) api.policy with
    | none => .error (.specInvalid "The catalog specification could not be normalized")
    | some rendering =>
      pure ⟨api.id, record.version, rendering, record.parsedTitle, record.parsedVersion⟩

/-! ## Listings that embed a summary -/

/-- The summary of each row's API, where the reader may be shown it. -/
def embedApis {α : Type} (apiId : α → Option ℕ) (s : Store π) (rows : List α) (reader : UserRow) :
    List (α × Option ApiSummary) :=
  let apis := filterReadableApis s reader (findManyByIds s (rows.filterMap apiId))
  rows.map fun row =>
    (row, (apiId row).bind fun id =>
      (lastUnder (·.id) apis id).map fun api => presentApiSummary api s.gatewayUrl)

def decorateRequests (s : Store π) (rows : List RequestRow) (reader : UserRow) :
    List (RequestRow × Option ApiSummary) :=
  embedApis (fun row => some row.apiId) s rows reader

def decorateGrants (s : Store π) (rows : List GrantRow) (reader : UserRow) :
    List (GrantRow × Option ApiSummary) :=
  embedApis (fun row => some row.apiId) s rows reader

/-- A message thread, which may be about an API. -/
structure ThreadRow where
  id : ℕ
  apiId : Option ℕ
  participantA : ℕ
  participantB : Option ℕ
  deriving DecidableEq, Repr

def decorate (s : Store π) (threads : List ThreadRow) (reader : UserRow) :
    List (ThreadRow × Option ApiSummary) :=
  embedApis ThreadRow.apiId s threads reader

/-! ## Requests that name an API -/

/-- The API an access request or a new thread may name. -/
def namedApi (s : Store π) (user : UserRow) (apiId : ℕ) : Except NexusError (ApiRow π) :=
  match findById s apiId with
  | none => .error (notFound "API" apiId)
  | some api =>
    if api.visibility == .ofPrivate && !canViewApi user api (resolveReadAccess s user api) then
      .error (notFound "API" apiId)
    else .ok api

/-- What a new access request is checked for. -/
def request (s : Store π) (user : UserRow) (apiId : ℕ) (applicationId : Option ℕ) :
    Except NexusError (ApiRow π) := do
  let api ← namedApi s user apiId
  if api.ownerUserId == user.id then .error (conflict "You already own this API")
  else if api.status != .published then
    .error (conflict "This API is retired and is no longer accepting access requests")
  else if !api.requestable then .error (conflict "This API does not accept access requests")
  else if (findActiveByApiAndUser s api.id user.id applicationId).isSome then
    .error (conflict (if applicationId.isNone then "You already have access to this API"
      else "This application already has access to this API"))
  else pure api

/-- The API a new thread is attached to. -/
def startThread (s : Store π) (actor : UserRow) (apiId : ℕ) : Except NexusError ℕ := do
  let api ← namedApi s actor apiId
  pure api.id

/-! ## Notices -/

structure Notice where
  title : String
  body : String
  link : String
  deriving DecidableEq, Repr

/-- The notice of a declined request names the API to a requester who may read
it. -/
def denialNotice (s : Store π) (actor requester : UserRow) (api : ApiRow π) (label : String)
    (tools : Bool) : Notice :=
  let named := canReadApiSummary s requester api
  let apiLabel := if named then api.name else label
  let heading := if tools then "Agent tools declined" else "Access declined"
  { title := if named then heading ++ ": " ++ api.name else heading
    body :=
      if tools then
        actor.displayName ++ " declined your request for more agent tools on " ++ apiLabel ++ ". " ++
          "Your existing access is unchanged."
      else actor.displayName ++ " declined your request for " ++ apiLabel ++ "."
    link := if named then "/catalog/" ++ api.slug.val else "/" }

/-- The notice sent once a grant is revoked names the API it was for. -/
def revocationNotice (actor : UserRow) (api : ApiRow π) : Notice where
  title := "Access revoked: " ++ api.name
  body := actor.displayName ++ " revoked your access to " ++ api.name ++ "."
  link := "/catalog/" ++ api.slug.val

/-! ## New slugs -/

/-- The slug of a new API, as `slugify` makes it. -/
def resolveSlug (toLowerCase slugify : String → String) (s : Store π) (requested : Option String)
    (name : String) : Except NexusError String :=
  let given := requested.filter fun slug => !(trim slug).isEmpty
  let slug := slugify (given.getD name)
  if slug.isEmpty then
    .error ⟨.validationFailed, "A URL-safe slug could not be derived from the name", none⟩
  else if (findBySlug toLowerCase s slug).isSome then
    .error (conflict ("The slug '" ++ slug ++ "' is already in use by another API"))
  else .ok slug

end FerrumNexus.Catalog
