import FerrumNexus.Agents.Identity
import FerrumNexus.Saga.Histories

/-!
# Histories of one API's exposure ids

The events that read or write the selection of one API or the subset of a
grant on it: the publication, a new specification revision (a rollback is
one), a PATCH, an approval, a widened grant, a revocation. Each holds the key
of the API's proxy while it reads and commits, so one event is one step; an
event that is refused changes nothing. Ids are also drawn for other APIs.
-/
namespace FerrumNexus.Agents

open Publishing (Level)
open Saga.History (replay Leads)

variable {Doc : Type}

/-- The columns of an `apis` row the selection depends on, with the current
revision's document. -/
structure ApiRow (Doc : Type) where
  document : Doc
  agents : Option ApiAgents
  specEnforcement : Level
  requestable : Bool
  allowedMethods : Option (List HttpMethod)
  retired : Bool
  proxied : Bool
  listenPaths : List String
  deriving DecidableEq

/-- A grant on the API. `approved_tools` is `none` for all tools. -/
structure Grant where
  id : ℕ
  approved_tools : Option (List ℕ)
  active : Bool
  deriving DecidableEq, Repr

/-- `fresh` is the next id `newId` draws. -/
structure ExposureState (Doc : Type) where
  fresh : ℕ
  api : Option (ApiRow Doc)
  grants : List Grant
  deriving DecidableEq

/-- A PATCH body: `none` for a field left out. -/
structure ApiPatch where
  agents : Option (Option ApiAgents)
  spec_enforcement : Option Level
  requestable : Option Bool
  allowed_methods : Option (Option (List HttpMethod))
  retired : Option Bool

inductive ExposureEvent (Doc : Type)
  | publish (row : ApiRow Doc)
  | updateSpec (document : Doc)
  | update (patch : ApiPatch)
  | approve (requested : Option (List ℕ)) (approved : Option (Option (List ℕ)))
  | approveTools (grant : ℕ) (requested : List ℕ) (approved : Option (Option (List ℕ)))
  | revoke (grant : ℕ)
  | newId

/-- The selection in force. -/
def ExposureState.agents (s : ExposureState Doc) : Option ApiAgents := s.api.bind (·.agents)

/-- The tools a selection publishes. -/
def publishedTools (agents : Option ApiAgents) : List AgentTool :=
  (agents.map (·.operations)).getD []

def publishedIds (agents : Option ApiAgents) : List (Option ℕ) :=
  (publishedTools agents).map (·.id)

/-- Drop every id that is no longer published from the explicit subsets. -/
def pruneToolSubsets (next : Option ApiAgents) (grants : List Grant) : List Grant :=
  grants.map fun grant =>
    if grant.active then
      { grant with approved_tools := grant.approved_tools.map fun ids =>
          ids.filter fun id => (publishedIds next).contains (some id) }
    else grant

/-- Whether a subset may be requested or approved. -/
def validateToolSubset (agents : Option ApiAgents) (tools : Option (List ℕ)) : Bool :=
  match tools with
  | none => true
  | some tools =>
    !((publishedIds agents).contains none) && tools.length ≤ Platform.MAX_AGENT_TOOLS && tools.Nodup &&
      tools.all fun id => (publishedIds agents).contains (some id)

/-- Whether an approval asks for no more than the request did. -/
def withinRequest (requested tools : Option (List ℕ)) : Bool :=
  match requested, tools with
  | none, _ => true
  | some _, none => false
  | some requested, some tools => tools.all requested.contains

section Steps

variable (reader : AgentReader Doc)

/-- `publish`: the row as the request asks for it. -/
def publishStep (row : ApiRow Doc) (s : ExposureState Doc) : Option (ExposureState Doc) :=
  match s.api with
  | some _ => none
  | none => do
    (validateAgents reader row.agents row.document row.specEnforcement row.requestable
      row.allowedMethods (some row.listenPaths) (some MAX_SPEC_OPERATIONS)).toOption
    let (agents, fresh) :=
      identifyAgentTools reader row.agents row.document none row.document s.fresh
    some { s with fresh := fresh, api := some { row with agents := agents } }

/-- `updateSpec` and a rollback: the same selection over another document. -/
def updateSpecStep (document : Doc) (s : ExposureState Doc) : Option (ExposureState Doc) := do
  let row ← s.api
  (validateAgents reader row.agents document row.specEnforcement row.requestable
    row.allowedMethods (some row.listenPaths) (some MAX_SPEC_OPERATIONS)).toOption
  let (agents, fresh) :=
    identifyAgentTools reader row.agents document row.agents row.document s.fresh
  let changedTools := rotatedAgentTools row.agents agents
  some { fresh := fresh, api := some { row with document := document, agents := agents },
         grants := if changedTools ≠ [] then pruneToolSubsets agents s.grants else s.grants }

/-- The selection a PATCH asks for; one that leaves the field out keeps it. -/
def patchedAgents (patch : ApiPatch) (row : ApiRow Doc) (fresh : ℕ) : Option ApiAgents × ℕ :=
  match patch.agents with
  | none => (row.agents, fresh)
  | some next => identifyAgentTools reader next row.document row.agents row.document fresh

/-- The bounds on a PATCH that admits a selection or stamps the document. -/
def admitPatch (row : ApiRow Doc) (agents : Option ApiAgents) (enforcement : Level) :
    Except SpecInvalid Unit :=
  match agents with
  | none => .ok ()
  | some selection =>
    if some selection ≠ row.agents ∨ enforcement ≠ row.specEnforcement then do
      let _ ← resolvedAgentOperations reader row.document (some MAX_SPEC_OPERATIONS)
      if row.proxied then
        let _ ← reader.stampedAgentDocumentBytes row.document row.listenPaths selection
        pure ()
      else pure ()
    else .ok ()

/-- `update`, as far as it concerns the selection. -/
def updateStep (patch : ApiPatch) (s : ExposureState Doc) : Option (ExposureState Doc) := do
  let row ← s.api
  let enforcement := patch.spec_enforcement.getD row.specEnforcement
  let requestable := patch.requestable.getD row.requestable
  let methods := patch.allowed_methods.getD row.allowedMethods
  (validateAgents reader (patch.agents.getD row.agents) row.document enforcement requestable
    methods none none).toOption
  let (agents, fresh) := patchedAgents reader patch row s.fresh
  (admitPatch reader row agents enforcement).toOption
  some { fresh := fresh,
         api := some { row with
           agents := agents, specEnforcement := enforcement, requestable := requestable,
           allowedMethods := methods, retired := patch.retired.getD row.retired },
         grants := if agents ≠ row.agents then pruneToolSubsets agents s.grants else s.grants }

/-- `approve` of a request that names no grant. -/
def approveStep (requested : Option (List ℕ)) (approved : Option (Option (List ℕ)))
    (s : ExposureState Doc) : Option (ExposureState Doc) := do
  let row ← s.api
  let tools := approved.getD requested
  if !row.retired && row.requestable && validateToolSubset row.agents tools &&
      withinRequest requested tools then
    some { s with
      fresh := s.fresh + 1, grants := ⟨s.fresh, tools, true⟩ :: s.grants }
  else none

/-- `approveTools`: the grant's subset with the tools added. -/
def approveToolsStep (grantId : ℕ) (requested : List ℕ) (approved : Option (Option (List ℕ)))
    (s : ExposureState Doc) : Option (ExposureState Doc) := do
  let row ← s.api
  let grant ← s.grants.find? fun grant => grant.id = grantId
  let current ← grant.approved_tools
  let added ← approved.getD (some requested)
  if !row.retired && row.requestable && grant.active && added ≠ [] &&
      added.all requested.contains && !(added.any current.contains) &&
      validateToolSubset row.agents (some added) then
    some { s with
      grants := s.grants.map fun other =>
        if other.id = grantId then { other with approved_tools := some (current ++ added) }
        else other }
  else none

/-- A grant that stops being active keeps its subset. -/
def revokeStep (grantId : ℕ) (s : ExposureState Doc) : ExposureState Doc :=
  { s with
    grants := s.grants.map fun grant =>
      if grant.id = grantId then { grant with active := false } else grant }

def exposureStep (s : ExposureState Doc) : ExposureEvent Doc → Option (ExposureState Doc)
  | .publish row => publishStep reader row s
  | .updateSpec document => updateSpecStep reader document s
  | .update patch => updateStep reader patch s
  | .approve requested approved => approveStep requested approved s
  | .approveTools grant requested approved => approveToolsStep grant requested approved s
  | .revoke grant => some (revokeStep grant s)
  | .newId => some { s with fresh := s.fresh + 1 }

end Steps

section Invariant

variable {reader : AgentReader Doc} {s s' : ExposureState Doc}

/-- A grant holds no id that was not drawn yet. -/
def Minted (fresh : ℕ) (grants : List Grant) : Prop :=
  ∀ grant ∈ grants, ∀ ids, grant.approved_tools = some ids → ∀ id ∈ ids, id < fresh

/-- The stored selection is identified, and the grants hold drawn ids. -/
structure Sound (reader : AgentReader Doc) (s : ExposureState Doc) : Prop where
  identified : ∀ row agents, s.api = some row → row.agents = some agents →
    Identified reader row.document s.fresh agents
  minted : Minted s.fresh s.grants

/-- From `s` to `s'`, ids are drawn upwards and none changes its meaning. -/
structure Later (s s' : ExposureState Doc) : Prop where
  fresh_le : s.fresh ≤ s'.fresh
  carried : Carried s.fresh s.agents s'.agents

theorem Later.refl (s : ExposureState Doc) : Later s s := ⟨le_rfl, Saga.Evolves.refl _ _⟩

theorem Later.trans {s₁ : ExposureState Doc} (h : Later s s₁) (h' : Later s₁ s') : Later s s' :=
  ⟨h.fresh_le.trans h'.fresh_le, Saga.Evolves.trans h.fresh_le h.carried h'.carried⟩

variable {grants : List Grant}

theorem Minted.mono {fresh fresh' : ℕ} (h : Minted fresh grants) (hle : fresh ≤ fresh') :
    Minted fresh' grants :=
  fun grant hgrant ids hids id hid => (h grant hgrant ids hids id hid).trans_le hle

theorem Minted.prune {fresh : ℕ} (h : Minted fresh grants) (next : Option ApiAgents) :
    Minted fresh (pruneToolSubsets next grants) := by
  intro grant hgrant ids hids id hid
  obtain ⟨old, hold, rfl⟩ := List.mem_map.mp hgrant
  split at hids
  · obtain ⟨kept, hkept, rfl⟩ := Option.map_eq_some_iff.mp hids
    exact h old hold kept hkept id (List.mem_of_mem_filter hid)
  · exact h old hold ids hids id hid

/-- An accepted subset names drawn ids only. -/
theorem Sound.subset_minted (h : Sound reader s) {row : ApiRow Doc} (hrow : s.api = some row)
    {ids : List ℕ} (hids : validateToolSubset row.agents (some ids) = true) :
    ∀ id ∈ ids, id < s.fresh := by
  simp only [validateToolSubset, Bool.and_eq_true, List.all_eq_true] at hids
  intro id hid
  have hmem := hids.2 id hid
  simp only [publishedIds, publishedTools, List.contains_eq_mem, List.mem_map,
    decide_eq_true_eq] at hmem
  obtain ⟨tool, htool, heq⟩ := hmem
  rcases hagents : row.agents with _ | agents
  · simp [hagents] at htool
  · rw [hagents] at htool
    obtain ⟨id', hlt, hid', -⟩ := (h.identified row agents hrow hagents).of_mem htool
    have hsame : id' = id := Option.some.inj (hid'.symm.trans heq)
    exact hsame ▸ hlt

/-- The row is stored with the selection identified against the last one. -/
theorem step_identify (previousDocument : Doc) {next : Option ApiAgents} {document : Doc}
    {row : ApiRow Doc} {agents : Option ApiAgents} {fresh : ℕ}
    (hprevious : ∀ agents, s.agents = some agents →
      Identified reader previousDocument s.fresh agents)
    (hnext : ∀ agents, next = some agents → agents.keys.Nodup)
    (hresult : identifyAgentTools reader next document s.agents previousDocument s.fresh =
      (agents, fresh))
    (hdocument : row.document = document) (hagents : row.agents = agents)
    (hgrants : Minted s.fresh grants) :
    Sound reader ⟨fresh, some row, grants⟩ ∧ Later s ⟨fresh, some row, grants⟩ := by
  obtain ⟨hle, hidentified, hcarried⟩ := identifyAgentTools_spec hnext hprevious hresult
  refine ⟨⟨?_, hgrants.mono hle⟩, hle, ?_⟩
  · rintro row' selection ⟨⟩ hselection
    subst hdocument
    exact hidentified selection (hagents ▸ hselection)
  · simpa only [ExposureState.agents, Option.bind_some, hagents] using hcarried

theorem keys_of_validate {agents : Option ApiAgents} {document : Doc} {enforcement : Level}
    {requestable : Bool} {methods : Option (List HttpMethod)} {listenPaths : Option (List String)}
    {maxOperations : Option ℕ} {u : Unit}
    (h : (validateAgents reader agents document enforcement requestable methods listenPaths
      maxOperations).toOption = some u) :
    ∀ selection, agents = some selection → selection.keys.Nodup := by
  rintro selection rfl
  rcases hv : validateAgents reader (some selection) document enforcement requestable methods
    listenPaths maxOperations with e | ⟨⟩
  · simp [hv, Except.toOption] at h
  · exact validateAgents_nodup hv

theorem publishStep_spec (h : Sound reader s) {row : ApiRow Doc}
    (hs' : publishStep reader row s = some s') : Sound reader s' ∧ Later s s' := by
  unfold publishStep at hs'
  split at hs'
  · contradiction
  rename_i hapi
  simp only [Option.bind_eq_bind, Option.bind_eq_some_iff, Option.some.injEq] at hs'
  obtain ⟨u, hvalid, rfl⟩ := hs'
  have hagents : s.agents = none := by simp [ExposureState.agents, hapi]
  exact step_identify row.document (by simp [hagents])
    (keys_of_validate hvalid) (by rw [hagents]) rfl rfl h.minted

theorem updateSpecStep_spec (h : Sound reader s) {document : Doc}
    (hs' : updateSpecStep reader document s = some s') : Sound reader s' ∧ Later s s' := by
  simp only [updateSpecStep, Option.bind_eq_bind, Option.bind_eq_some_iff,
    Option.some.injEq] at hs'
  obtain ⟨row, hrow, u, hvalid, rfl⟩ := hs'
  have hagents : s.agents = row.agents := by simp [ExposureState.agents, hrow]
  refine step_identify row.document ?_ (keys_of_validate hvalid)
    (by rw [hagents]) rfl rfl ?_
  · intro agents hsome
    exact h.identified row agents hrow (hagents ▸ hsome)
  · split
    · exact h.minted.prune _
    · exact h.minted

theorem updateStep_spec (h : Sound reader s) {patch : ApiPatch}
    (hs' : updateStep reader patch s = some s') : Sound reader s' ∧ Later s s' := by
  simp only [updateStep, Option.bind_eq_bind, Option.bind_eq_some_iff, Option.some.injEq] at hs'
  obtain ⟨row, hrow, u, hvalid, u', -, rfl⟩ := hs'
  have hagents : s.agents = row.agents := by simp [ExposureState.agents, hrow]
  have hprevious : ∀ agents, s.agents = some agents →
      Identified reader row.document s.fresh agents :=
    fun agents hsome => h.identified row agents hrow (hagents ▸ hsome)
  have hgrants : ∀ agents, Minted s.fresh
      (if agents ≠ row.agents then pruneToolSubsets agents s.grants else s.grants) := by
    intro agents
    split
    · exact h.minted.prune _
    · exact h.minted
  rcases hpatch : patch.agents with _ | next
  · simp only [patchedAgents, hpatch]
    refine ⟨⟨?_, hgrants _⟩, le_rfl, ?_⟩
    · rintro row' agents ⟨⟩ hsome
      exact h.identified row agents hrow hsome
    · simp only [ExposureState.agents, Option.bind_some, hrow]
      exact Saga.Evolves.refl _ _
  · simp only [patchedAgents, hpatch]
    rw [hpatch, Option.getD_some] at hvalid
    exact step_identify row.document hprevious (keys_of_validate hvalid) (by rw [hagents]) rfl rfl (hgrants _)

/-- A step that leaves the row alone and adds drawn ids to grants. -/
theorem step_grants (h : Sound reader s) {fresh : ℕ} (hle : s.fresh ≤ fresh)
    (hgrants : Minted fresh grants) :
    Sound reader { s with fresh := fresh, grants := grants } ∧
      Later s { s with fresh := fresh, grants := grants } :=
  ⟨⟨fun row agents hrow hagents => (h.identified row agents hrow hagents).mono hle, hgrants⟩,
    hle, Saga.Evolves.refl _ _⟩

theorem approveStep_spec (h : Sound reader s) {requested : Option (List ℕ)}
    {approved : Option (Option (List ℕ))} (hs' : approveStep requested approved s = some s') :
    Sound reader s' ∧ Later s s' := by
  simp only [approveStep, Option.bind_eq_bind, Option.bind_eq_some_iff] at hs'
  obtain ⟨row, hrow, hs'⟩ := hs'
  split at hs'
  · rename_i hok
    cases hs'
    simp only [Bool.and_eq_true] at hok
    refine step_grants h (Nat.le_succ _) ?_
    intro grant hgrant ids hids id hid
    rcases List.mem_cons.mp hgrant with heq | hold
    · subst heq
      have htools : approved.getD requested = some ids := hids
      rw [htools] at hok
      have := h.subset_minted hrow hok.1.2 id hid
      omega
    · have := h.minted grant hold ids hids id hid
      omega
  · contradiction

theorem approveToolsStep_spec (h : Sound reader s) {grantId : ℕ} {requested : List ℕ}
    {approved : Option (Option (List ℕ))}
    (hs' : approveToolsStep grantId requested approved s = some s') :
    Sound reader s' ∧ Later s s' := by
  simp only [approveToolsStep, Option.bind_eq_bind, Option.bind_eq_some_iff] at hs'
  obtain ⟨row, hrow, grant, hgrant, current, hcurrent, added, hadded, hs'⟩ := hs'
  split at hs'
  · rename_i hok
    cases hs'
    simp only [Bool.and_eq_true] at hok
    refine step_grants h le_rfl ?_
    intro other hother ids hids id hid
    obtain ⟨old, hold, rfl⟩ := List.mem_map.mp hother
    split at hids
    · cases hids
      rcases List.mem_append.mp hid with hcur | hadd
      · exact h.minted grant (List.mem_of_find?_eq_some hgrant) current hcurrent id hcur
      · exact h.subset_minted hrow hok.2 id hadd
    · exact h.minted old hold ids hids id hid
  · contradiction

theorem revokeStep_spec (h : Sound reader s) (grantId : ℕ) :
    Sound reader (revokeStep grantId s) ∧ Later s (revokeStep grantId s) := by
  refine step_grants h le_rfl ?_
  intro grant hgrant ids hids id hid
  obtain ⟨old, hold, rfl⟩ := List.mem_map.mp hgrant
  split at hids
  · exact h.minted old hold ids hids id hid
  · exact h.minted old hold ids hids id hid

theorem exposureStep_spec (s : ExposureState Doc) (e : ExposureEvent Doc) (s' : ExposureState Doc)
    (h : Sound reader s) (hs' : exposureStep reader s e = some s') :
    Sound reader s' ∧ Later s s' := by
  cases e with
  | publish row => exact publishStep_spec h hs'
  | updateSpec document => exact updateSpecStep_spec h hs'
  | update patch => exact updateStep_spec h hs'
  | approve requested approved => exact approveStep_spec h hs'
  | approveTools grant requested approved => exact approveToolsStep_spec h hs'
  | revoke grant =>
    cases hs'
    exact revokeStep_spec h grant
  | newId =>
    cases hs'
    exact step_grants h (Nat.le_succ _) (h.minted.mono (Nat.le_succ _))

theorem sound_later_of_leads (h : Sound reader s) (hleads : Leads (exposureStep reader) s s') :
    Sound reader s' ∧ Later s s' :=
  hleads.relates (fun s _ => Later.refl s) (fun _ _ _ => Later.trans) exposureStep_spec h

end Invariant

section Meaning

variable {reader : AgentReader Doc} {s₀ s s' : ExposureState Doc}

/-- Where a history starts: no selection, and grants that hold drawn ids. -/
def NoAgents (s : ExposureState Doc) : Prop := s.agents = none ∧ Minted s.fresh s.grants

theorem NoAgents.sound (h : NoAgents s) : Sound reader s := by
  refine ⟨?_, h.2⟩
  intro row agents hrow hagents
  have hnone := h.1
  simp only [ExposureState.agents, hrow, Option.bind_some, hagents] at hnone
  contradiction

/-- `digest` is that of the definition a state publishes a tool with. -/
def DefinedBy (reader : AgentReader Doc) (s : ExposureState Doc) (tool : AgentTool)
    (digest : String) : Prop :=
  ∃ row i, s.api = some row ∧ (publishedTools row.agents)[i]? = some tool ∧
    reader.digest row.document ((publishedTools row.agents).map (·.toAgentToolSelection)) i = digest

/-- Two states publish the same tool: one binding, one hash, one definition. -/
structure SameTool (reader : AgentReader Doc) (s s' : ExposureState Doc)
    (tool tool' : AgentTool) : Prop where
  method : tool.method = tool'.method
  path : tool.path = tool'.path
  name : tool.name = tool'.name
  definition_hash : tool.definition_hash = tool'.definition_hash
  definition : ∀ digest digest', DefinedBy reader s tool digest →
    DefinedBy reader s' tool' digest' → digest = digest'

/-- The tools an explicit subset covers. -/
def Grant.Covers (grant : Grant) (tool : AgentTool) : Prop :=
  ∃ ids, grant.approved_tools = some ids ∧ ∃ id ∈ ids, tool.id = some id

variable {tool tool' : AgentTool}

theorem Sound.of_tool (h : Sound reader s) (hmem : tool ∈ publishedTools s.agents) :
    ∃ row agents, s.api = some row ∧ s.agents = some agents ∧ tool ∈ agents.operations ∧
      Identified reader row.document s.fresh agents := by
  rcases hrow : s.api with _ | row
  · simp [ExposureState.agents, hrow, publishedTools] at hmem
  rcases hagents : row.agents with _ | agents
  · simp [ExposureState.agents, hrow, publishedTools, hagents] at hmem
  have hsome : s.agents = some agents := by simp [ExposureState.agents, hrow, hagents]
  refine ⟨row, agents, rfl, hsome, ?_, h.identified row agents hrow hagents⟩
  rwa [hsome] at hmem

/-- The hash of a published tool is its id bound to its definition. -/
theorem Sound.hash_of_definedBy (h : Sound reader s) {digest : String}
    (hdigest : DefinedBy reader s tool digest) :
    ∃ id, tool.id = some id ∧
      tool.definition_hash = some (boundDefinitionHash reader id digest) := by
  obtain ⟨row, i, hrow, htool, rfl⟩ := hdigest
  rcases hagents : row.agents with _ | agents
  · simp [publishedTools, hagents] at htool
  rw [hagents] at htool
  obtain ⟨id, -, heq⟩ := (h.identified row agents hrow hagents).described i tool htool
  rw [heq]
  exact ⟨id, rfl, rfl⟩

theorem sameTool_of_id (hsha : reader.sha256.Injective) (h : Sound reader s)
    (h' : Sound reader s') (hlater : Later s s') (hmem : tool ∈ publishedTools s.agents)
    (hmem' : tool' ∈ publishedTools s'.agents) (hid : tool.id = tool'.id) :
    SameTool reader s s' tool tool' := by
  obtain ⟨row, agents, -, hagents, hin, hidentified⟩ := h.of_tool hmem
  obtain ⟨row', agents', -, hagents', hin', hidentified'⟩ := h'.of_tool hmem'
  have hcarried := hlater.carried
  rw [hagents, hagents'] at hcarried
  obtain ⟨hbinding, hhash⟩ := hcarried.same hidentified hidentified' hin hin' hid
  simp only [AgentToolSelection.binding, Binding.mk.injEq] at hbinding
  refine ⟨hbinding.1, hbinding.2.1, hbinding.2.2, hhash, ?_⟩
  intro digest digest' hdigest hdigest'
  obtain ⟨id, htool, hbound⟩ := h.hash_of_definedBy hdigest
  obtain ⟨id', htool', hbound'⟩ := h'.hash_of_definedBy hdigest'
  have hsame : id = id' := Option.some.inj (htool.symm.trans (hid.trans htool'))
  rw [hbound, hbound', hsame] at hhash
  exact digest_of_hash hsha (Option.some.inj hhash)

theorem publishedIds_nodup (h : Sound reader s) : (publishedIds s.agents).Nodup := by
  rcases hrow : s.api with _ | row
  · simp [publishedIds, publishedTools, ExposureState.agents, hrow]
  rcases hagents : row.agents with _ | agents
  · simp [publishedIds, publishedTools, ExposureState.agents, hrow, hagents]
  have hids := (h.identified row agents hrow hagents).ids
  simpa [publishedIds, publishedTools, ExposureState.agents, hrow, hagents] using hids

/-- What an explicit subset covers later, it covers already: an id a grant
holds is not published anew. -/
theorem covered_before (hsha : reader.sha256.Injective) (h : Sound reader s)
    (h' : Sound reader s') (hlater : Later s s') {grant : Grant} (hgrant : grant ∈ s.grants)
    (hmem' : tool' ∈ publishedTools s'.agents) (hcovers : grant.Covers tool') :
    ∃ tool ∈ publishedTools s.agents, tool.id = tool'.id ∧ SameTool reader s s' tool tool' := by
  obtain ⟨ids, hids, id, hid, htool'⟩ := hcovers
  have hlt : id < s.fresh := h.minted grant hgrant ids hids id hid
  obtain ⟨row', agents', -, hagents', hin', hidentified'⟩ := h'.of_tool hmem'
  have htoken : toolToken tool' < s.fresh := by simpa [toolToken, htool'] using hlt
  have hcarried := hlater.carried
  rw [hagents'] at hcarried
  obtain ⟨tool, hfound, hsame, -⟩ :=
    hcarried.of_token (findTool_of_mem hidentified'.keys hin') htoken
  have hmem : tool ∈ publishedTools s.agents := by
    rcases hagents : s.agents with _ | agents
    · simp [hagents, findTool] at hfound
    · rw [hagents] at hfound
      exact (binding_of_findTool hfound).1
  obtain ⟨row, agents, -, -, hin, hidentified⟩ := h.of_tool hmem
  obtain ⟨id', -, hid', -⟩ := hidentified.of_mem hin
  have heq : tool.id = tool'.id := by
    simp only [toolToken, hid', htool', Option.getD_some] at hsame
    rw [hid', htool', hsame]
  exact ⟨tool, hmem, heq, sameTool_of_id hsha h h' hlater hmem hmem' heq⟩

/-- Rotation between two states: the ids that are gone while the tool's binding
is still published. -/
theorem rotated_ids (h : Sound reader s) (h' : Sound reader s') (hlater : Later s s') (id : ℕ) :
    some id ∈ (rotatedAgentTools s.agents s'.agents).map (·.id) ↔
      some id ∉ publishedIds s'.agents ∧ ∃ tool ∈ publishedTools s.agents, tool.id = some id ∧
        ∃ other ∈ publishedTools s'.agents, other.binding = tool.binding := by
  have hiff : ∀ tool, tool ∈ rotatedAgentTools s.agents s'.agents ↔
      tool ∈ publishedTools s.agents ∧
        (∃ other ∈ publishedTools s'.agents, other.binding = tool.binding) ∧
          ∀ other ∈ publishedTools s'.agents, other.id ≠ tool.id := by
    intro tool
    by_cases hmem : tool ∈ publishedTools s.agents
    · obtain ⟨row, agents, -, hagents, hin, hidentified⟩ := h.of_tool hmem
      rcases hagents' : s'.agents with _ | agents'
      · simp [rotatedAgentTools, publishedTools, findTool]
      have hsome : s'.api.bind (·.agents) = some agents' := hagents'
      obtain ⟨row', hrow', hrowAgents⟩ := Option.bind_eq_some_iff.mp hsome
      have hcarried := hlater.carried
      rw [hagents, hagents'] at hcarried
      rw [hagents, mem_rotatedAgentTools hcarried hidentified
        (h'.identified row' agents' hrow' hrowAgents)]
      rfl
    · constructor
      · intro hrotated
        exact absurd (List.mem_of_mem_filter hrotated) hmem
      · exact fun hparts => absurd hparts.1 hmem
  simp only [List.mem_map, hiff, publishedIds]
  constructor
  · rintro ⟨tool, ⟨hmem, hstill, hgone⟩, hid⟩
    refine ⟨?_, tool, hmem, hid, hstill⟩
    rintro ⟨other, hother, heq⟩
    exact hgone other hother (heq.trans hid.symm)
  · rintro ⟨hgone, tool, hmem, hid, hstill⟩
    refine ⟨tool, ⟨hmem, hstill, ?_⟩, hid⟩
    intro other hother heq
    exact hgone ⟨other, hother, heq.trans hid⟩

/-- Exposure ids never change meaning: in any history from no selection, ids
are distinct in every state, an id of two states stands for one tool, a subset
covers later only what it covers now, and `rotatedAgentTools` lists exactly the
ids that left while their binding is still published. -/
theorem exposure_ids_keep_meaning (hsha : reader.sha256.Injective) (h₀ : NoAgents s₀)
    (hs : Leads (exposureStep reader) s₀ s) (hs' : Leads (exposureStep reader) s s') :
    (publishedIds s.agents).Nodup ∧
    (∀ tool ∈ publishedTools s.agents, ∀ tool' ∈ publishedTools s'.agents, tool.id = tool'.id →
      SameTool reader s s' tool tool') ∧
    (∀ grant ∈ s.grants, ∀ tool' ∈ publishedTools s'.agents, grant.Covers tool' →
      ∃ tool ∈ publishedTools s.agents, tool.id = tool'.id ∧ SameTool reader s s' tool tool') ∧
    ∀ id, some id ∈ (rotatedAgentTools s.agents s'.agents).map (·.id) ↔
      some id ∉ publishedIds s'.agents ∧ ∃ tool ∈ publishedTools s.agents, tool.id = some id ∧
        ∃ other ∈ publishedTools s'.agents, other.binding = tool.binding := by
  have hsound := (sound_later_of_leads h₀.sound hs).1
  obtain ⟨hsound', hlater⟩ := sound_later_of_leads hsound hs'
  refine ⟨publishedIds_nodup hsound, ?_, ?_, rotated_ids hsound hsound' hlater⟩
  · intro tool hmem tool' hmem' hid
    exact sameTool_of_id hsha hsound hsound' hlater hmem hmem' hid
  · intro grant hgrant tool' hmem' hcovers
    exact covered_before hsha hsound hsound' hlater hgrant hmem' hcovers

end Meaning

section Runs

/-- Documents are numbers: they define `/pets`, and leave `/stores` alone. -/
def petReader : AgentReader ℕ where
  agentOperations _ _ := .ok [⟨.GET, "/pets", true⟩, ⟨.GET, "/stores", true⟩]
  stampedAgentDocumentBytes _ _ _ := .ok 0
  digest document tools i :=
    if (tools[i]?.map (·.path)) = some "/pets" then toString document else "stores"
  sha256 text := text

def petTool (id : Option ℕ) : AgentTool := ⟨⟨.GET, "/pets", "pets", "Lists pets"⟩, id, none⟩

def storeTool (id : Option ℕ) : AgentTool := ⟨⟨.GET, "/stores", "stores", "Lists stores"⟩, id, none⟩

def petRow : ApiRow ℕ where
  document := 1
  agents := some ⟨[petTool (some 7), storeTool none]⟩
  specEnforcement := .routes
  requestable := true
  allowedMethods := none
  retired := false
  proxied := true
  listenPaths := []

def noApi : ExposureState ℕ := ⟨0, none, []⟩

def editAgents (agents : Option ApiAgents) : ExposureEvent ℕ :=
  .update ⟨some agents, none, none, none, none⟩

theorem noAgents_noApi : NoAgents noApi := ⟨rfl, by simp [Minted, noApi]⟩

theorem leads_of_replay (es : List (ExposureEvent ℕ)) (s : ExposureState ℕ)
    (P : ExposureState ℕ → Bool)
    (h : ((replay (exposureStep petReader) es s).any P) = true) :
    ∃ s', Leads (exposureStep petReader) s s' ∧ P s' = true := by
  obtain ⟨s', hs', hP⟩ := (Option.any_eq_true _ _).mp h
  exact ⟨s', ⟨es, hs'⟩, hP⟩

/-- A grant approved for both tools keeps the unchanged one over a revision. -/
theorem exposure_ids_keep_meaning_revised :
    ∃ s s' : ExposureState ℕ, (publishedIds s.agents).Nodup ∧
      publishedIds s.agents = [some 0, some 1] ∧ publishedIds s'.agents = [some 3, some 1] ∧
      s'.grants.map (·.approved_tools) = [some [1]] ∧
      ∀ tool ∈ publishedTools s.agents, ∀ tool' ∈ publishedTools s'.agents, tool.id = tool'.id →
        SameTool petReader s s' tool tool' := by
  obtain ⟨s, hs, hP⟩ := leads_of_replay
    [.publish petRow, .approve none (some (some [0, 1]))] noApi
    (fun s => publishedIds s.agents = [some 0, some 1] &&
      (replay (exposureStep petReader) [.updateSpec 2] s).any fun s' =>
        publishedIds s'.agents = [some 3, some 1] &&
          s'.grants.map (·.approved_tools) = [some [1]]) (by decide +kernel)
  simp only [Bool.and_eq_true, decide_eq_true_eq] at hP
  obtain ⟨s', hs', hids'⟩ := leads_of_replay _ _ _ hP.2
  simp only [Bool.and_eq_true, decide_eq_true_eq] at hids'
  have h := exposure_ids_keep_meaning (fun _ _ heq => heq) noAgents_noApi hs hs'
  exact ⟨s, s', h.1, hP.1, hids'.1, hids'.2, h.2.1⟩

/-- A tool taken out of the selection is gone afterwards, and not rotated. -/
theorem removed_tool_not_rotated :
    ∃ s s' : ExposureState ℕ, Leads (exposureStep petReader) noApi s ∧
      exposureStep petReader s (editAgents (some ⟨[petTool (some 0)]⟩)) = some s' ∧
      some 1 ∈ publishedIds s.agents ∧ some 1 ∉ publishedIds s'.agents ∧
      some 1 ∉ (rotatedAgentTools s.agents s'.agents).map (·.id) := by
  obtain ⟨s, hs, hP⟩ := leads_of_replay [.publish petRow] noApi
    (fun s => (publishedIds s.agents).contains (some 1) &&
      (exposureStep petReader s (editAgents (some ⟨[petTool (some 0)]⟩))).any fun s' =>
        !(publishedIds s'.agents).contains (some 1) &&
          !((rotatedAgentTools s.agents s'.agents).map (·.id)).contains (some 1))
    (by decide +kernel)
  simp only [Bool.and_eq_true, List.contains_eq_mem, decide_eq_true_eq] at hP
  obtain ⟨s', hs', hrest⟩ := (Option.any_eq_true _ _).mp hP.2
  simp only [Bool.and_eq_true, Bool.not_eq_true', decide_eq_false_iff_not] at hrest
  exact ⟨s, s', hs, hs', hP.1, hrest.1, hrest.2⟩

end Runs

end FerrumNexus.Agents
