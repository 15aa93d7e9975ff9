import Mathlib.Data.List.Nodup
import FerrumNexus.Publishing.Gateway
import FerrumNexus.Platform.Text

/-!
# Agent tools and their exposure ids

An API may expose some of its operations as tools. A provider selects them by
method, path and name; the server gives each an exposure id and a hash of its
published definition bound to that id. `identifyAgentTools` carries an id over
to the next selection only for the same operation under the same name with an
unchanged definition. Ids are numbers drawn from a counter. What a document
resolves to, the size of the stamped document and the digests of a build are
read through `AgentReader`, for any document type.
-/
namespace FerrumNexus.Agents

open Publishing (Level)
open Platform

/-- `HttpMethod`. -/
inductive HttpMethod
  | GET
  | POST
  | PUT
  | PATCH
  | DELETE
  | HEAD
  | OPTIONS
  | TRACE
  | CONNECT
  deriving DecidableEq, Repr

def HttpMethod.text : HttpMethod → String
  | .GET => "GET"
  | .POST => "POST"
  | .PUT => "PUT"
  | .PATCH => "PATCH"
  | .DELETE => "DELETE"
  | .HEAD => "HEAD"
  | .OPTIONS => "OPTIONS"
  | .TRACE => "TRACE"
  | .CONNECT => "CONNECT"

/-- The selection fields a tool's identity and definition depend on. -/
structure AgentToolSelection where
  method : HttpMethod
  path : String
  name : String
  description : String
  deriving DecidableEq, Repr

/-- A selection with the fields the server owns. A client may send any values
for them, and a tool stored before hashes were recorded has no hash. -/
structure AgentTool extends AgentToolSelection where
  id : Option ℕ
  definition_hash : Option String
  deriving DecidableEq, Repr

structure ApiAgents where
  operations : List AgentTool
  deriving DecidableEq, Repr

/-- One operation of a document, as far as a selection is checked against it. -/
structure AgentOperation where
  method : HttpMethod
  path : String
  supported : Bool
  deriving DecidableEq, Repr

/-- A refused specification: every refusal here names the field `agents`. -/
structure SpecInvalid where
  message : String
  field : String
  deriving DecidableEq, Repr

/-- What the checks and the hashing read of a document. `digest d tools i` is
the digest of the `i`-th of `tools` when they are hashed in one build, since a
build that runs out of budget hashes every tool by the whole document. -/
structure AgentReader (Doc : Type) where
  agentOperations : Doc → Option ℕ → Except String (List AgentOperation)
  stampedAgentDocumentBytes : Doc → List String → ApiAgents → Except SpecInvalid ℕ
  digest : Doc → List AgentToolSelection → ℕ → String
  sha256 : String → String

section Checks

def MAX_AGENT_DESCRIPTION_LENGTH : ℕ := 2048
def MAX_SPEC_OPERATIONS : ℕ := 3000

/-- `AGENT_TOOL_NAME_PATTERN`. -/
def isAgentToolName (name : String) : Bool :=
  let cs := name.toList
  1 ≤ cs.length && cs.length ≤ 128 && cs.all fun c => c.isAlphanum || ['_', '.', '-'].contains c

def isControlCharacter (c : Char) : Bool := c.toNat ≤ 0x1F || c.toNat == 0x7F

def isPlainDescription (text : String) : Bool :=
  trim text != "" && utf16Length text ≤ MAX_AGENT_DESCRIPTION_LENGTH &&
    !(text.toList.any isControlCharacter)

/-- `UNSAFE_PATH_CHARACTER`. -/
def isUnsafePathCharacter (c : Char) : Bool :=
  ['%', '\\', '?', '#', ';'].contains c || c.toNat ≤ 0x20 || 0x7F ≤ c.toNat

def isBrace (c : Char) : Bool := c == '{' || c == '}'

/-- `TEMPLATED_SEGMENT`: one brace pair around the whole segment. -/
def isTemplatedSegment (segment : List Char) : Bool :=
  segment.head? == some '{' && segment.getLast? == some '}' && 3 ≤ segment.length &&
    !((segment.drop 1).dropLast.any isBrace)

/-- `pathRegex`, as the tokens of the pattern: `none` stands for `[^/]+` and
`some c` for an escaped character. `opened` is the text since the last `{` that
may still close as a path parameter, latest character first. -/
def pathRegex (opened : Option (List Char)) : List Char → List (Option Char)
  | [] => (opened.map fun text => some '{' :: text.reverse.map some).getD []
  | c :: rest =>
    match opened with
    | none => if c = '{' then pathRegex (some []) rest else some c :: pathRegex none rest
    | some text =>
      if c = '}' ∧ text ≠ [] then none :: pathRegex none rest
      else if c = '{' then
        (some '{' :: text.reverse.map some) ++ pathRegex (some []) rest
      else if c = '}' ∨ c = '/' then
        (some '{' :: text.reverse.map some) ++ some c :: pathRegex none rest
      else pathRegex (some (c :: text)) rest

/-- Whether the whole of a text matches the tokens of `pathRegex`. -/
def matchesPath : List (Option Char) → List Char → Bool
  | [], [] => true
  | some c :: tokens, d :: rest => c == d && matchesPath tokens rest
  | none :: tokens, d :: rest =>
    d != '/' && (matchesPath tokens rest || matchesPath (none :: tokens) rest)
  | _, _ => false

/-- A path Edge matches whole segment by whole segment. -/
def isCanonicalPath (path : List Char) : Bool :=
  let segments := path.splitOn '/'
  !(path.any isUnsafePathCharacter) &&
    !(segments.any fun segment => segment == ['.'] || segment == ['.', '.']) &&
    !((path.zip path.tail).contains ('/', '/')) &&
    !(segments.any fun segment => segment.any isBrace && !isTemplatedSegment segment)

/-- Whether a REST path covers the endpoint the tools are served at. -/
def coversEndpoint (path : List Char) : Bool :=
  let lower := path.map Char.toLower
  matchesPath (pathRegex none path) "/mcp".toList || "/mcp/".toList.isPrefixOf lower ||
    lower == "/mcp".toList || isTemplatedSegment (((path.splitOn '/')[1]?).getD [])

variable {Doc : Type} (reader : AgentReader Doc)

def invalid {α : Type} (message : String) : Except SpecInvalid α := .error ⟨message, "agents"⟩

def resolvedAgentOperations (document : Doc) (maxOperations : Option ℕ) :
    Except SpecInvalid (List AgentOperation) :=
  match reader.agentOperations document maxOperations with
  | .ok operations => .ok operations
  | .error message => invalid message

def operationKey (method : HttpMethod) (path : String) : String := method.text ++ " " ++ path

/-- The selections in order, with the names and operations already taken. -/
def checkSelections (operations : List AgentOperation) (methods : Option (List HttpMethod)) :
    List AgentTool → (names selected : List String) → Except SpecInvalid Unit
  | [], _, _ => .ok ()
  | tool :: rest, names, selected =>
    let key := operationKey tool.method tool.path
    -- The operations become a map, where the last entry of a key wins.
    let operation := operations.reverse.find? fun item => operationKey item.method item.path == key
    if !((operation.map (·.supported)).getD false) then
      invalid ("Unsupported or missing agent operation: " ++ key)
    else if (methods.map fun allowed => !allowed.contains tool.method).getD false then
      invalid ("The method allow-list does not permit " ++ key)
    else if !isAgentToolName tool.name || names.contains tool.name || selected.contains key then
      invalid ("Agent tool names and operations must be valid and unique: " ++ key)
    else if !isPlainDescription tool.description then
      invalid ("Provide a plain-text description for " ++ key)
    else checkSelections operations methods rest (tool.name :: names) (key :: selected)

/-- The operations a selection names, as the keys it is checked by. -/
def ApiAgents.keys (agents : ApiAgents) : List String :=
  agents.operations.map fun tool => operationKey tool.method tool.path

variable {methods : Option (List HttpMethod)}

theorem checkSelections_nodup {operations : List AgentOperation}
    {tools : List AgentTool} {names selected : List String}
    (h : checkSelections operations methods tools names selected = .ok ()) :
    (ApiAgents.keys ⟨tools⟩).Nodup ∧ ∀ key ∈ ApiAgents.keys ⟨tools⟩, key ∉ selected := by
  induction tools generalizing names selected with
  | nil => simp [ApiAgents.keys]
  | cons tool rest ih =>
    simp only [checkSelections, invalid] at h
    split at h
    · contradiction
    split at h
    · contradiction
    split at h
    · contradiction
    rename_i htaken
    split at h
    · contradiction
    obtain ⟨hnodup, hfree⟩ := ih h
    simp only [ApiAgents.keys, List.map_cons] at hnodup hfree ⊢
    constructor
    · refine List.nodup_cons.mpr ⟨?_, hnodup⟩
      intro hmem
      exact hfree _ hmem List.mem_cons_self
    · intro key hkey
      rcases List.mem_cons.mp hkey with heq | htail
      · subst heq
        simpa using fun hmem => htaken (by simp [hmem])
      · exact fun hmem => hfree key htail (List.mem_cons_of_mem _ hmem)

/-- Accepted tools have names of their own, and each is a supported operation. -/
theorem checkSelections_tools {operations : List AgentOperation}
    {tools : List AgentTool} {names selected : List String}
    (h : checkSelections operations methods tools names selected = .ok ()) :
    (tools.map (·.name)).Nodup ∧ (∀ tool ∈ tools, tool.name ∉ names) ∧
      ∀ tool ∈ tools, ∃ operation ∈ operations,
        operationKey operation.method operation.path = operationKey tool.method tool.path := by
  induction tools generalizing names selected with
  | nil => simp
  | cons tool rest ih =>
    simp only [checkSelections, invalid] at h
    split at h
    · contradiction
    rename_i hsupported
    split at h
    · contradiction
    split at h
    · contradiction
    rename_i htaken
    split at h
    · contradiction
    obtain ⟨hnodup, hfree, hfound⟩ := ih h
    simp only [List.map_cons, List.nodup_cons, List.forall_mem_cons]
    refine ⟨⟨fun hmem => ?_, hnodup⟩, ⟨fun hmem => htaken (by simp [hmem]), fun other hother hmem => ?_⟩,
      ?_, hfound⟩
    · obtain ⟨other, hother, hname⟩ := List.mem_map.mp hmem
      exact hfree other hother (by simp [hname])
    · exact hfree other hother (List.mem_cons_of_mem _ hmem)
    · cases hfind : operations.reverse.find? fun item =>
          operationKey item.method item.path == operationKey tool.method tool.path with
      | none => simp [hfind] at hsupported
      | some operation =>
        exact ⟨operation, List.mem_reverse.mp (List.mem_of_find?_eq_some hfind),
          by simpa using List.find?_some hfind⟩

/-- The paths of all REST operations, those not exposed included. -/
def checkPaths : List AgentOperation → Except SpecInvalid Unit
  | [] => .ok ()
  | operation :: rest =>
    if !isCanonicalPath operation.path.toList then
      invalid ("Agent APIs require canonical paths with whole-segment parameters: "
        ++ operation.path)
    else if coversEndpoint operation.path.toList then
      invalid ("The MCP endpoint collides with a REST operation: " ++ operation.path)
    else checkPaths rest

/-- `listenPaths` is `none` for an edit that may not stamp the document. -/
def validateAgents (agents : Option ApiAgents) (document : Doc) (enforcement : Level)
    (requestable : Bool) (methods : Option (List HttpMethod)) (listenPaths : Option (List String))
    (maxOperations : Option ℕ) : Except SpecInvalid Unit :=
  match agents with
  | none => .ok ()
  | some agents =>
    if enforcement ≠ .routes then invalid "AI agents require routes enforcement"
    else if !requestable then invalid "AI agents require approved access requests"
    else if (methods.map fun allowed => !allowed.contains .POST).getD false then
      invalid "AI agents require POST in the method allow-list for the MCP endpoint"
    else if agents.operations.length = 0 ∨ MAX_AGENT_TOOLS < agents.operations.length then
      invalid ("Select between 1 and " ++ toString MAX_AGENT_TOOLS ++ " agent operations")
    else do
      let operations ← resolvedAgentOperations reader document maxOperations
      checkSelections operations methods agents.operations [] []
      checkPaths operations
      match listenPaths with
      | none => pure ()
      | some listenPaths =>
        let _ ← reader.stampedAgentDocumentBytes document listenPaths agents
        pure ()

variable {reader}

/-- What an accepted selection was checked against. -/
theorem validateAgents_checks {agents : ApiAgents} {document : Doc} {enforcement : Level}
    {requestable : Bool} {listenPaths : Option (List String)} {maxOperations : Option ℕ}
    (h : validateAgents reader (some agents) document enforcement requestable methods listenPaths
      maxOperations = .ok ()) :
    ∃ operations, reader.agentOperations document maxOperations = .ok operations ∧
      checkSelections operations methods agents.operations [] [] = .ok () ∧
      checkPaths operations = .ok () := by
  simp only [validateAgents, invalid] at h
  split at h
  · contradiction
  split at h
  · contradiction
  split at h
  · contradiction
  split at h
  · contradiction
  cases hoperations : reader.agentOperations document maxOperations with
  | error message =>
    simp [resolvedAgentOperations, hoperations, invalid, bind, Except.bind] at h
  | ok operations =>
    simp only [resolvedAgentOperations, hoperations, bind, Except.bind] at h
    cases hcheck : checkSelections operations methods agents.operations [] [] with
    | error refused =>
      rw [hcheck] at h
      contradiction
    | ok done =>
      rw [hcheck] at h
      cases hpaths : checkPaths operations with
      | error refused =>
        rw [hpaths] at h
        contradiction
      | ok done => exact ⟨operations, rfl, hcheck, hpaths⟩

/-- A selection that is accepted names no operation twice. -/
theorem validateAgents_nodup {agents : ApiAgents} {document : Doc} {enforcement : Level}
    {requestable : Bool} {listenPaths : Option (List String)} {maxOperations : Option ℕ}
    (h : validateAgents reader (some agents) document enforcement requestable methods listenPaths
      maxOperations = .ok ()) : agents.keys.Nodup := by
  obtain ⟨operations, -, hcheck, -⟩ := validateAgents_checks h
  exact (checkSelections_nodup hcheck).1

end Checks

section Identity

variable {Doc : Type} (reader : AgentReader Doc)

/-- What a tool is published as: the operation and the tool's name. -/
structure Binding where
  method : HttpMethod
  path : String
  name : String
  deriving DecidableEq, Repr

def AgentToolSelection.binding (tool : AgentToolSelection) : Binding :=
  ⟨tool.method, tool.path, tool.name⟩

/-- The tool a selection publishes under a binding. -/
def findTool (agents : Option ApiAgents) (binding : Binding) : Option AgentTool :=
  agents.bind fun agents => agents.operations.find? fun item => item.binding = binding

/-- The same with its position, which tells two equal stored tools apart. -/
def findPrior (agents : Option ApiAgents) (binding : Binding) : Option (ℕ × AgentTool) :=
  agents.bind fun agents =>
    (agents.operations.findIdx? fun item => item.binding = binding).bind fun i =>
      agents.operations[i]?.map fun item => (i, item)

def agentToolDefinitionDigests (document : Doc) (tools : List AgentToolSelection) : List String :=
  tools.mapIdx fun i _ => reader.digest document tools i

/-- A definition digest bound to the id that consent was given under. -/
def boundDefinitionHash (id : ℕ) (digest : String) : String :=
  reader.sha256 (toString id ++ "\n" ++ digest)

/-- The id a tool keeps: its prior's, unless the definition changed. -/
def keptId (legacy : List ℕ) (legacyDigests : List String) (digest : String) :
    Option (ℕ × AgentTool) → Option ℕ
  | none => none
  | some (position, prior) =>
    match prior.id, prior.definition_hash with
    | none, _ => none
    | some priorId, none =>
      if legacyDigests[legacy.idxOf position]? = some digest then some priorId else none
    | some priorId, some hash =>
      if hash = boundDefinitionHash reader priorId digest then some priorId else none

/-- A selection stored under an id. -/
def AgentToolSelection.stored (tool : AgentToolSelection) (id : ℕ) (digest : String) : AgentTool where
  toAgentToolSelection := tool
  id := some id
  definition_hash := some (boundDefinitionHash reader id digest)

/-- Each tool under the id it keeps, or under a new one. -/
def assignIds (kept : String → Binding → Option ℕ) :
    List (AgentToolSelection × String) → ℕ → List AgentTool × ℕ
  | [], fresh => ([], fresh)
  | (tool, digest) :: rest, fresh =>
    match kept digest tool.binding with
    | some id =>
      let (tools, last) := assignIds kept rest fresh
      (tool.stored reader id digest :: tools, last)
    | none =>
      let (tools, last) := assignIds kept rest (fresh + 1)
      (tool.stored reader fresh digest :: tools, last)

/-- The next selection with server-owned ids and hashes; the ids and hashes the
client sent are dropped first. The second component is the next unused id. -/
def identifyAgentTools (next : Option ApiAgents) (document : Doc) (previous : Option ApiAgents)
    (previousDocument : Doc) (fresh : ℕ) : Option ApiAgents × ℕ :=
  match next with
  | none => (none, fresh)
  | some next =>
    let tools := next.operations.map (·.toAgentToolSelection)
    let digests := agentToolDefinitionDigests reader document tools
    let priors := tools.filterMap fun tool => findPrior previous tool.binding
    let legacy := priors.filter fun prior => prior.2.definition_hash = none
    let legacyDigests := agentToolDefinitionDigests reader previousDocument
      (legacy.map (·.2.toAgentToolSelection))
    let kept := fun digest binding =>
      keptId reader (legacy.map (·.1)) legacyDigests digest (findPrior previous binding)
    let (operations, last) := assignIds reader kept (tools.zip digests) fresh
    (some ⟨operations⟩, last)

/-- The tools of `previous` still published under the same binding but with a
new id in `next`. -/
def rotatedAgentTools (previous next : Option ApiAgents) : List AgentTool :=
  ((previous.map (·.operations)).getD []).filter fun tool =>
    tool.id.isSome &&
      ((findTool next tool.binding).map fun current => current.id != tool.id).getD false

end Identity

end FerrumNexus.Agents
