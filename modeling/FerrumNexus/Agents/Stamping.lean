import FerrumNexus.Agents.Tools
import FerrumNexus.OpenApi.PathItems
import FerrumNexus.Platform.Groups

/-!
# The document an agent API is published with

Every path of the stamped document holds its own copy of the Path Item it
resolves to. An operation is exposed by the `x-ferrum-mcp` member of its own
object, which the stamp writes for every operation after it has dropped what the
upload says there. Its size is bounded before any copy is made.
-/
namespace FerrumNexus.Agents

open OpenApi Platform

variable {ι : Type}

/-! ## Sizes -/

/-- Bytes of one character of a string in compact JSON. -/
def jsonCharBytes (c : Char) : ℕ :=
  if c = '"' ∨ c = '\\' then 2
  else if c.toNat ∈ [8, 9, 10, 12, 13] then 2
  else if c.toNat < 32 then 6
  else c.utf8Size

def jsonStringBytes (text : String) : ℕ := 2 + (text.toList.map jsonCharBytes).sum

def arrayBytes (sizes : List ℕ) : ℕ := 2 + sizes.sum + (sizes.length - 1)

def recordBytes (members : List (String × ℕ)) : ℕ :=
  2 + (members.map fun member => jsonStringBytes member.1 + 1 + member.2).sum + (members.length - 1)

/-- The size of a value below the nodes in `active`. There is none for a node
below itself. -/
def jsonBytes [DecidableEq ι] (doc : Document ι) : ℕ → List ι → Value ι → Option ℕ
  | _, _, .null => some 4
  | _, _, .bool true => some 4
  | _, _, .bool false => some 5
  | _, _, .number text => some (if text ∈ ["NaN", "Infinity", "-Infinity"] then 4
      else (numberString text).length)
  | _, _, .string text => some (jsonStringBytes text)
  | 0, _, .node _ => none
  | fuel + 1, active, .node id =>
    if id ∈ active then none
    else match doc.nodes id with
      | .array items => (items.mapM (jsonBytes doc fuel (id :: active))).map arrayBytes
      | .record members => (members.entries.mapM fun entry =>
          (jsonBytes doc fuel (id :: active) entry.2).map (entry.1, ·)).map recordBytes

/-! ## Operations and routes -/

/-- `method.toUpperCase()`. -/
def upper : OperationMethod → HttpMethod
  | .get => .GET
  | .put => .PUT
  | .post => .POST
  | .delete => .DELETE
  | .options => .OPTIONS
  | .head => .HEAD
  | .patch => .PATCH
  | .trace => .TRACE

def isReadOnlyAgentMethod (method : HttpMethod) : Bool := method = .GET || method = .HEAD

def agentToolName (slug : String) (tool : AgentTool) : String := slug ++ "." ++ tool.name

def agentEndpointPath (listenPath : String) : String := listenPath ++ "/mcp"

def REGEX_SPECIAL_CHARACTERS : List Char :=
  ['\\', '.', '+', '*', '?', '(', ')', '|', '[', ']', '\x7b', '\x7d', '^', '$', '#', '&', '-', '~']

def escapeRegex (value : List Char) : List Char :=
  value.flatMap fun c => if c ∈ REGEX_SPECIAL_CHARACTERS then ['\\', c] else [c]

/-- The text of the pattern whose tokens are `pathRegex`. -/
def pathRegexText (path : String) : String :=
  String.ofList (['^'] ++ (pathRegex none path.toList).flatMap (fun token =>
    match token with
    | none => "[^/]+".toList
    | some c => escapeRegex [c]) ++ ['$'])

/-- Where an operation of a path is served. -/
def mounted (listenPath path : String) : String := if path = "/" then listenPath else listenPath ++ path

structure Route where
  method : HttpMethod
  path_template : String
  path_regex : List (Option Char)
  deriving DecidableEq, Repr

/-! ## The bound -/

def MAX_AGENT_DOCUMENT_BYTES : ℕ := 2 * MAX_SPEC_EXPANDED_BYTES

def OPERATION_STAMP_BYTES : ℕ := 128

def TOOL_STAMP_BYTES : ℕ := 512

/-- Why a document is not measured: it is too large, or a path of it does not
resolve. -/
inductive StampError
  | tooLarge
  | pathItem (failure : PathItemFailure)
  deriving DecidableEq, Repr

/-- Charge each cost as it is measured. -/
def charge : List (Option ℕ) → ℕ → Except StampError ℕ
  | [], used => .ok used
  | none :: _, _ => .error .tooLarge
  | some cost :: costs, used =>
    if MAX_AGENT_DOCUMENT_BYTES < used + cost then .error .tooLarge else charge costs (used + cost)

section Bound

variable [DecidableEq ι] [Fintype ι] (doc : Document ι)

/-- `jsonSizer`. A node is measured once and remembered, which changes no size. -/
def size (value : Value ι) : Option ℕ := jsonBytes doc (Fintype.card ι + 1) [] value

/-- What an operation's route is charged, at the longest place it may be served. -/
def routeBytes (listenPaths : List String) (path : String) : ℕ :=
  listenPaths.foldl (fun route listenPath => max route (OPERATION_STAMP_BYTES +
    jsonStringBytes (mounted listenPath path) +
    jsonStringBytes (pathRegexText (mounted listenPath path)))) OPERATION_STAMP_BYTES

/-- The charges for one path. -/
def pathCosts (listenPaths : List String) (path : String) (item : AgentPathItem ι) : List (Option ℕ) :=
  [some (jsonStringBytes path + 2)] ++ item.chain.map (fun node => size doc (.node node)) ++
    [size doc (.node item.target)] ++
    (operationsOf doc path (agentPathItemMember doc item)).map fun _ =>
      some (routeBytes listenPaths path)

/-- The loop over the paths. -/
def chargePaths (listenPaths : List String) :
    PathItemMemo ι → List (String × Value ι) → ℕ → Except StampError ℕ
  | _, [], used => .ok used
  | memo, (path, value) :: rest, used =>
    match (doc.record? (some value)).filter fun _ => path.toList.head? = some '/' with
    | none => chargePaths listenPaths memo rest used
    | some raw =>
      match resolveAgentPathItem doc memo raw with
      | .error error => .error (.pathItem ⟨path, error⟩)
      | .ok (item, memo) =>
        match charge (pathCosts doc listenPaths path item) used with
        | .error error => .error error
        | .ok used => chargePaths listenPaths memo rest used

/-- The charges for the root members that are kept. -/
def rootCosts : List (Option ℕ) :=
  match doc.record? (some doc.root) with
  | none => []
  | some root => ((doc.members root).entries.filter fun entry => entry.1 != "paths" &&
      entry.1 != "servers" && !"x-ferrum-".toList.isPrefixOf entry.1.toList).map fun entry =>
        (size doc entry.2).map (jsonStringBytes entry.1 + 2 + ·)

def toolBytes (slug : ℕ) (tool : AgentTool) : ℕ :=
  3 * jsonStringBytes tool.name + jsonStringBytes tool.description + 2 * slug + TOOL_STAMP_BYTES

/-- `{ servers: [{ url: '/' }], paths: {} }`. -/
def scaffoldBytes : ℕ :=
  recordBytes [("servers", arrayBytes [recordBytes [("url", jsonStringBytes "/")]]),
    ("paths", recordBytes [])]

def stampedAgentDocumentBytes (listenPaths : List String) (agents : ApiAgents) : Except StampError ℕ := do
  let used ← charge (some scaffoldBytes :: rootCosts doc) 0
  let used ← chargePaths doc listenPaths (fun _ => none) (pathEntries doc) used
  let slug := (listenPaths.map jsonStringBytes).foldl max 0
  charge (agents.operations.map fun tool => some (toolBytes slug tool)) used

/-! ## What a selection is checked against -/

def failureMessage (failure : PathItemFailure) : String :=
  match failure.error with
  | .needsAcyclicReference =>
    "Agent operation " ++ failure.path ++ " needs an acyclic local Path Item reference"
  | .cannotResolve => "Cannot resolve agent operation " ++ failure.path

def agentOperationsMessage : AgentOperationsError → String
  | .pathItem failure => failureMessage failure
  | .tooMany maxOperations =>
    "OpenAPI document resolves to more than " ++ toString maxOperations ++ " operations"

def agentOperation (listed : ListedOperation ι) : AgentOperation where
  method := upper listed.method
  path := listed.path
  supported := upper listed.method ∈ [.GET, .POST, .PUT, .PATCH, .DELETE]

/-- `agentDocumentTooLarge`. A path that does not resolve throws without a
field; a selection is not measured before its paths resolve. -/
def stampErrorInvalid : StampError → SpecInvalid
  | .tooLarge => ⟨"With AI agents enabled, the document sent to the gateway would be larger than the " ++
      toString (MAX_AGENT_DOCUMENT_BYTES / 1024) ++ " KiB limit: every path holds its own copy " ++
      "of the Path Item it references. Write fewer paths that reference large Path Items, or " ++
      "turn AI agents off", "agents"⟩
  | .pathItem failure => ⟨failureMessage failure, ""⟩

/-- The checks of a selection, over documents. -/
def documentReader (digest : Document ι → List AgentToolSelection → ℕ → String)
    (sha256 : String → String) : AgentReader (Document ι) where
  agentOperations doc maxOperations :=
    ((agentOperations doc maxOperations).map fun operations =>
      operations.map agentOperation).mapError agentOperationsMessage
  stampedAgentDocumentBytes doc listenPaths agents :=
    (stampedAgentDocumentBytes doc listenPaths agents).mapError stampErrorInvalid
  digest := digest
  sha256 := sha256

end Bound

/-! ## The stamp -/

/-- The `x-ferrum-mcp` member of an operation. -/
inductive ExposureMark
  | hidden
  | exposed (name description : String) (readOnlyHint : Bool)
  deriving DecidableEq, Repr

/-- A copy of an operation: the members it keeps, and its mark. -/
structure StampedOperation (ι : Type) where
  members : List (String × Value ι)
  mark : ExposureMark
  deriving DecidableEq

inductive StampedMember (ι : Type)
  | kept (value : Value ι)
  | operation (operation : StampedOperation ι)
  deriving DecidableEq

/-- A plugin config on the gateway, as far as the stamp reads it. -/
structure LivePlugin where
  id : String
  plugin_name : String
  api_spec_id : Option String
  deriving DecidableEq, Repr

/-- The settings of the plugins, less those that are the same for every API. -/
inductive PluginSettings
  | openapi_validator (operations : List Route) (bypass : String)
  | mcp_gateway (endpoint : String) (tools : List (String × List String))
  | ai_tool_governor (tools : List (String × Bool))
  | ai_prompt_shield
  | rate_limiting (endpoint : String) (redis_key : Option String)
  deriving DecidableEq, Repr

/-- A plugin config of the document, with the row whose operator fields it
carries. -/
structure PluginWrite where
  id : String
  plugin_name : String
  settings : PluginSettings
  trigger : Bool
  live : Option LivePlugin
  deriving DecidableEq, Repr

structure Proxy where
  id : String
  listen_path : String
  deriving DecidableEq, Repr

/-- `toolId` is the text of an exposure id. -/
structure AgentDeployment where
  apiId : Uuid
  slug : String
  agents : ApiAgents
  toolId : ℕ → Uuid
  redis : Bool
  live : Option (List LivePlugin)
  specId : Option String

structure StampedDocument (ι : Type) where
  members : List (String × Value ι)
  paths : List (String × List (String × StampedMember ι))
  endpoint : String
  tool_namespace : String
  plugins : List PluginWrite
  deriving DecidableEq

inductive StampFailure
  | pathItem (failure : PathItemFailure)
  | occupied (id : String)
  | multipleValidators
  deriving DecidableEq, Repr

section Stamp

variable (doc : Document ι)

/-- The tool of an operation: the map holds the last one of a key. -/
def toolOf (agents : ApiAgents) (method : HttpMethod) (path : String) : Option AgentTool :=
  agents.operations.reverse.find? fun tool =>
    operationKey tool.method tool.path == operationKey method path

def exposureMark (agents : ApiAgents) (method : HttpMethod) (path : String) : ExposureMark :=
  match toolOf agents method path with
  | some tool => .exposed tool.name tool.description (isReadOnlyAgentMethod method)
  | none => .hidden

/-- What an operation's copy keeps. -/
def cleanMembers (operation : ι) : List (String × Value ι) :=
  (doc.members operation).entries.filter fun entry =>
    entry.1 != "servers" && !"x-ferrum-".toList.isPrefixOf entry.1.toList

/-- A member of a Path Item's copy. -/
def stampMember (agents : ApiAgents) (path : String) (entry : String × Value ι) : StampedMember ι :=
  match OPENAPI_OPERATION_METHODS.find? (fun method => method.key == entry.1), doc.record? (some entry.2) with
  | some method, some operation =>
    .operation ⟨cleanMembers doc operation, exposureMark agents (upper method) path⟩
  | _, _ => .kept entry.2

def stampPathItem (agents : ApiAgents) (path : String) (item : Members ι) :
    List (String × StampedMember ι) :=
  (item.entries.filter fun entry => entry.1 != "servers").map fun entry =>
    (entry.1, stampMember doc agents path entry)

def routeOf (listenPath : String) (listed : ListedOperation ι) : Route where
  method := upper listed.method
  path_template := mounted listenPath listed.path
  path_regex := pathRegex none (mounted listenPath listed.path).toList

/-- The routes of the copies. Without its `servers` member a Path Item has the
same operations. -/
def stampRoutes (listenPath : String) (items : List (String × Members ι)) : List Route :=
  (mergedOperations doc items).map (routeOf listenPath)

def toolGroups (deployment : AgentDeployment) (tool : AgentTool) : List String :=
  mcpAllGroupForApi deployment.apiId ::
    ((tool.id.map fun id => mcpToolGroupForApi deployment.apiId (deployment.toolId id)).toList)

/-- `Object.fromEntries`: the last entry of a name, where the first one stood. -/
def fromEntries {α : Type} (entries : List (String × α)) : List (String × α) :=
  (entries.map Prod.fst).eraseDups.filterMap fun name =>
    entries.reverse.find? fun entry => entry.1 == name

def toolPolicy (deployment : AgentDeployment) : List (String × List String) :=
  fromEntries (deployment.agents.operations.map fun tool =>
    (agentToolName deployment.slug tool, toolGroups deployment tool))

/-- The tools the governor allows, with whether their risk is low. -/
def governorPolicy (deployment : AgentDeployment) : List (String × Bool) :=
  fromEntries (deployment.agents.operations.map fun tool =>
    (agentToolName deployment.slug tool, isReadOnlyAgentMethod tool.method))

/-- The row a plugin takes over, or why it may not. -/
def livePlugin (deployment : AgentDeployment) (role name id : String) :
    Except StampFailure (Option LivePlugin) :=
  let rows := deployment.live.getD []
  match rows.find? (·.id == id) with
  | some live =>
    if deployment.specId = none ∨ live.plugin_name ≠ name ∨ live.api_spec_id ≠ deployment.specId then
      .error (.occupied id)
    else .ok (some live)
  | none =>
    if role = "routes" ∧ deployment.specId ≠ none then
      let validators := rows.filter fun row =>
        row.plugin_name = name ∧ row.api_spec_id = deployment.specId
      if 1 < validators.length then .error .multipleValidators else .ok validators.head?
    else .ok none

def addPlugin (proxy : Proxy) (deployment : AgentDeployment) (role name : String)
    (settings : PluginSettings) (trigger : Bool) : Except StampFailure PluginWrite := do
  let id := proxy.id ++ "-nexus-" ++ role
  let live ← livePlugin deployment role name id
  .ok ⟨id, name, settings, trigger, live⟩

def stampPlugins (proxy : Proxy) (deployment : AgentDeployment) (routes : List Route) :
    Except StampFailure (List PluginWrite) := do
  let endpoint := agentEndpointPath proxy.listen_path
  let bypass := String.ofList (['^'] ++ escapeRegex endpoint.toList ++ ['$'])
  let add := addPlugin proxy deployment
  let redis := if deployment.redis then some ("nexus:" ++ deployment.apiId.text ++ ":mcp") else none
  let validator ← add "routes" "openapi_validator" (.openapi_validator routes bypass) false
  let mcp ← add "mcp" "mcp_gateway" (.mcp_gateway endpoint (toolPolicy deployment)) false
  let governor ← add "governor" "ai_tool_governor" (.ai_tool_governor (governorPolicy deployment)) true
  let shield ← add "shield" "ai_prompt_shield" .ai_prompt_shield true
  let budget ← add "tool-budget" "rate_limiting" (.rate_limiting endpoint redis) true
  .ok [validator, mcp, governor, shield, budget]

/-- The root members that are neither replaced nor dropped. -/
def stampedRoot : List (String × Value ι) :=
  match doc.record? (some doc.root) with
  | none => []
  | some root => (doc.members root).entries.filter fun entry =>
      entry.1 ∉ ["paths", "x-ferrum-validate", "x-ferrum-mcp", "x-ferrum-plugins"]

def stampAgentDocument [DecidableEq ι] (proxy : Proxy) (deployment : AgentDeployment) :
    Except StampFailure (StampedDocument ι) :=
  match agentPathItems doc with
  | .error failure => .error (.pathItem failure)
  | .ok items => do
    let plugins ← stampPlugins proxy deployment (stampRoutes doc proxy.listen_path items)
    .ok { members := stampedRoot doc
          paths := items.map fun entry =>
            (entry.1, stampPathItem doc deployment.agents entry.1 entry.2)
          endpoint := agentEndpointPath proxy.listen_path
          tool_namespace := deployment.slug
          plugins := plugins }

def PluginSettings.routes : PluginSettings → List Route
  | .openapi_validator operations _ => operations
  | _ => []

def PluginSettings.tools : PluginSettings → List (String × List String)
  | .mcp_gateway _ tools => tools
  | _ => []

/-- The route table of the validator. -/
def StampedDocument.routes (stamped : StampedDocument ι) : List Route :=
  stamped.plugins.flatMap (·.settings.routes)

/-- The tools the gateway allows, with the groups that may call them. -/
def StampedDocument.toolPolicy (stamped : StampedDocument ι) : List (String × List String) :=
  stamped.plugins.flatMap (·.settings.tools)

end Stamp

end FerrumNexus.Agents
