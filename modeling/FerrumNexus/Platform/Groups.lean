import Mathlib.Tactic

/-!
# Names of access groups

The groups of a gateway consumer are strings. The portal owns those it can read
an API id out of: the group of approved access and the groups of agent tools. An
id is a text without a colon, so that a name is read back as it was built.
-/
namespace FerrumNexus.Platform

/-- An id the portal drew. -/
structure Uuid where
  text : String
  nonempty : text ≠ ""
  plain : ':' ∉ text.toList
  deriving DecidableEq

def ACL_GROUP_PREFIX : String := "nexus:api:"

def ACL_GROUP_APPROVED_SUFFIX : String := ":approved"

def aclGroupForApi (apiId : Uuid) : String :=
  ACL_GROUP_PREFIX ++ apiId.text ++ ACL_GROUP_APPROVED_SUFFIX

def mcpAllGroupForApi (apiId : Uuid) : String := "nexus:api:" ++ apiId.text ++ ":mcp:all"

def mcpToolGroupForApi (apiId : Uuid) (toolId : Uuid) : String :=
  "nexus:api:" ++ apiId.text ++ ":mcp:tool:" ++ toolId.text

def mcpGroupsForGrant (apiId : Uuid) (subset : Option (List Uuid)) : List String :=
  match subset with
  | none => [mcpAllGroupForApi apiId]
  | some subset => subset.map (mcpToolGroupForApi apiId)

/-- The id `MCP_ACL_GROUP` captures: its parts hold no colon. -/
def mcpAclGroup (group : String) : Option String :=
  match (group.toList.splitOn ':').map String.ofList with
  | [nexus, api, id, mcp, all] =>
    if nexus = "nexus" ∧ api = "api" ∧ id ≠ "" ∧ mcp = "mcp" ∧ all = "all" then some id else none
  | [nexus, api, id, mcp, tool, toolId] =>
    if nexus = "nexus" ∧ api = "api" ∧ id ≠ "" ∧ mcp = "mcp" ∧ tool = "tool" ∧ toolId ≠ "" then some id
    else none
  | _ => none

def apiIdFromAclGroup (group : String) : Option String :=
  match mcpAclGroup group with
  | some id => some id
  | none =>
    let text := group.toList
    let before := ACL_GROUP_PREFIX.toList
    let suffix := ACL_GROUP_APPROVED_SUFFIX.toList
    if !before.isPrefixOf text || !suffix.isSuffixOf text then none
    else
      let id := String.ofList ((text.take (text.length - suffix.length)).drop before.length)
      if id ≠ "" then some id else none

/-! ## Names read back -/

/-- Parts without a colon are read back from the group they make. -/
theorem mcpAclGroup_parts {group : String} {parts : List String}
    (h : group.toList = [':'].intercalate (parts.map String.toList)) (hne : parts ≠ [])
    (hplain : ∀ part ∈ parts, ':' ∉ part.toList) :
    (group.toList.splitOn ':').map String.ofList = parts := by
  have hsplit : group.toList.splitOn ':' = parts.map String.toList := by
    rw [h]
    refine List.splitOn_intercalate ':' (fun part hpart => ?_) (by simpa using hne)
    obtain ⟨text, htext, rfl⟩ := List.mem_map.mp hpart
    exact hplain text htext
  rw [hsplit, List.map_map]
  simp

/-- The name of approved access has four parts, so it is no tool's. -/
theorem mcpAclGroup_approved (apiId : Uuid) : mcpAclGroup (aclGroupForApi apiId) = none := by
  have hparts : ((aclGroupForApi apiId).toList.splitOn ':').map String.ofList =
      ["nexus", "api", apiId.text, "approved"] := by
    refine mcpAclGroup_parts ?_ (List.cons_ne_nil _ _) ?_
    · simp [aclGroupForApi, ACL_GROUP_PREFIX, ACL_GROUP_APPROVED_SUFFIX, List.intercalate]
    · simp [apiId.plain]
  rw [mcpAclGroup, hparts]

theorem apiIdFromAclGroup_approved (apiId : Uuid) :
    apiIdFromAclGroup (aclGroupForApi apiId) = some apiId.text := by
  have htext : (aclGroupForApi apiId).toList =
      ACL_GROUP_PREFIX.toList ++ apiId.text.toList ++ ACL_GROUP_APPROVED_SUFFIX.toList := by
    simp only [aclGroupForApi, String.toList_append]
  have hbefore : ACL_GROUP_PREFIX.toList.isPrefixOf (aclGroupForApi apiId).toList = true := by
    rw [List.isPrefixOf_iff_prefix, htext, List.append_assoc]
    exact List.prefix_append _ _
  have hsuffix : ACL_GROUP_APPROVED_SUFFIX.toList.isSuffixOf (aclGroupForApi apiId).toList = true := by
    rw [List.isSuffixOf_iff_suffix, htext]
    exact List.suffix_append _ _
  have hid : ((aclGroupForApi apiId).toList.take ((aclGroupForApi apiId).toList.length -
      ACL_GROUP_APPROVED_SUFFIX.toList.length)).drop ACL_GROUP_PREFIX.toList.length =
        apiId.text.toList := by
    rw [htext, List.length_append, Nat.add_sub_cancel, List.take_left, List.drop_left]
  simp only [apiIdFromAclGroup, mcpAclGroup_approved, hbefore, hsuffix, hid]
  simp [apiId.nonempty]

theorem apiIdFromAclGroup_mcpAll (apiId : Uuid) :
    apiIdFromAclGroup (mcpAllGroupForApi apiId) = some apiId.text := by
  have hparts : ((mcpAllGroupForApi apiId).toList.splitOn ':').map String.ofList =
      ["nexus", "api", apiId.text, "mcp", "all"] := by
    refine mcpAclGroup_parts ?_ (List.cons_ne_nil _ _) ?_
    · simp [mcpAllGroupForApi, List.intercalate]
    · simp [apiId.plain]
  simp [apiIdFromAclGroup, mcpAclGroup, hparts, apiId.nonempty]

theorem apiIdFromAclGroup_mcpTool (apiId toolId : Uuid) :
    apiIdFromAclGroup (mcpToolGroupForApi apiId toolId) = some apiId.text := by
  have hparts : ((mcpToolGroupForApi apiId toolId).toList.splitOn ':').map String.ofList =
      ["nexus", "api", apiId.text, "mcp", "tool", toolId.text] := by
    refine mcpAclGroup_parts ?_ (List.cons_ne_nil _ _) ?_
    · simp [mcpToolGroupForApi, List.intercalate]
    · simp [apiId.plain, toolId.plain]
  simp [apiIdFromAclGroup, mcpAclGroup, hparts, apiId.nonempty, toolId.nonempty]

/-- Every group of a grant is one the portal owns. -/
theorem apiIdFromAclGroup_mcp {apiId : Uuid} {subset : Option (List Uuid)} {group : String}
    (h : group ∈ mcpGroupsForGrant apiId subset) : apiIdFromAclGroup group = some apiId.text := by
  cases subset with
  | none =>
    rw [List.mem_singleton.mp h]
    exact apiIdFromAclGroup_mcpAll apiId
  | some subset =>
    obtain ⟨toolId, -, rfl⟩ := List.mem_map.mp h
    exact apiIdFromAclGroup_mcpTool apiId toolId

end FerrumNexus.Platform
