import FerrumNexus.Agents.Tools
import FerrumNexus.Saga.Fencing

/-!
# What an exposure id stands for

A stored selection is identified when every tool of it has an id of its own
already drawn, and a hash that binds the id to the digest of its definition in
the document it was published with. Identifying the next selection against an
identified one gives an identified one again, in which every id is new or
still stands for the same binding under the same hash.
-/
namespace FerrumNexus.Agents

variable {Doc : Type} {reader : AgentReader Doc}

section Lookups

variable {agents : ApiAgents} {tool : AgentTool} {binding : Binding}

theorem binding_of_findTool (h : findTool (some agents) binding = some tool) :
    tool ∈ agents.operations ∧ tool.binding = binding := by
  have hfind : agents.operations.find? (fun item => item.binding = binding) = some tool := h
  exact ⟨List.mem_of_find?_eq_some hfind, by simpa using List.find?_some hfind⟩

/-- With operations named once, a tool is the one found under its binding. -/
theorem findTool_of_mem (hkeys : agents.keys.Nodup) (hmem : tool ∈ agents.operations) :
    findTool (some agents) tool.binding = some tool := by
  have hsome : (findTool (some agents) tool.binding).isSome := by
    simp only [findTool, Option.bind_some, List.find?_isSome]
    exact ⟨tool, hmem, by simp⟩
  obtain ⟨other, hother⟩ := Option.isSome_iff_exists.mp hsome
  obtain ⟨hmem', hbinding⟩ := binding_of_findTool hother
  have hkey : operationKey other.method other.path = operationKey tool.method tool.path := by
    simp only [AgentToolSelection.binding, Binding.mk.injEq] at hbinding
    rw [hbinding.1, hbinding.2.1]
  rw [hother, List.inj_on_of_nodup_map hkeys hmem' hmem hkey]

theorem findPrior_spec {previous : Option ApiAgents} {position : ℕ} {prior : AgentTool}
    (h : findPrior previous binding = some (position, prior)) :
    findTool previous binding = some prior := by
  cases previous with
  | none => contradiction
  | some agents =>
    simp only [findPrior, Option.bind_some, Option.bind_eq_some_iff] at h
    obtain ⟨i, hi, hget⟩ := h
    obtain ⟨item, hitem, heq⟩ := Option.map_eq_some_iff.mp hget
    simp only [Prod.mk.injEq] at heq
    simp only [findTool, Option.bind_some, List.find?_eq_bind_findIdx?_getElem?, hi]
    exact heq.2 ▸ hitem

end Lookups

section Hashes

/-- With digests that never collide, one id under one hash has one definition. -/
theorem digest_of_hash (hsha : reader.sha256.Injective) {id : ℕ} {digest digest' : String}
    (h : boundDefinitionHash reader id digest = boundDefinitionHash reader id digest') :
    digest = digest' := by
  have happend := hsha h
  exact String.append_right_inj _ |>.mp happend

/-- A kept id is the prior's, and its hash binds it to the new digest unless
the prior has none. -/
theorem keptId_spec {legacy : List ℕ} {legacyDigests : List String} {digest : String}
    {prior : Option (ℕ × AgentTool)} {id : ℕ}
    (h : keptId reader legacy legacyDigests digest prior = some id) :
    ∃ position tool, prior = some (position, tool) ∧ tool.id = some id ∧
      ∀ hash, tool.definition_hash = some hash → hash = boundDefinitionHash reader id digest := by
  rcases prior with _ | ⟨position, tool⟩
  · contradiction
  refine ⟨position, tool, rfl, ?_⟩
  rcases hid : tool.id with _ | priorId <;> rcases hhash : tool.definition_hash with _ | hash
  · simp [keptId, hid] at h
  · simp [keptId, hid] at h
  · simp only [keptId, hid, hhash] at h
    split at h
    · exact ⟨h, by simp⟩
    · contradiction
  · simp only [keptId, hid, hhash] at h
    split at h
    · rename_i hsame
      cases h
      exact ⟨rfl, by simp [hsame]⟩
    · contradiction

end Hashes

section Assignment

variable {kept : String → Binding → Option ℕ}

/-- The id given to one selection: the kept one, or one drawn in between. -/
def Given (reader : AgentReader Doc) (kept : String → Binding → Option ℕ) (fresh last : ℕ)
    (item : AgentToolSelection × String) (tool : AgentTool) : Prop :=
  ∃ id, tool = item.1.stored reader id item.2 ∧
    (kept item.2 item.1.binding = some id ∨ fresh ≤ id ∧ id < last)

theorem Given.mono {fresh fresh' last : ℕ} {item : AgentToolSelection × String} {tool : AgentTool}
    (hle : fresh ≤ fresh') (h : Given reader kept fresh' last item tool) :
    Given reader kept fresh last item tool := by
  obtain ⟨id, htool, hkept | hdrawn⟩ := h
  · exact ⟨id, htool, .inl hkept⟩
  · exact ⟨id, htool, .inr ⟨hle.trans hdrawn.1, hdrawn.2⟩⟩

theorem assignIds_selections (reader : AgentReader Doc) (kept : String → Binding → Option ℕ)
    (items : List (AgentToolSelection × String)) (fresh : ℕ) :
    (assignIds reader kept items fresh).1.map (·.toAgentToolSelection) = items.map (·.1) := by
  induction items generalizing fresh with
  | nil => rfl
  | cons item rest ih =>
    obtain ⟨tool, digest⟩ := item
    cases hkept : kept digest tool.binding <;>
      simp [assignIds, hkept, ih, AgentToolSelection.stored]

theorem assignIds_spec (reader : AgentReader Doc) (kept : String → Binding → Option ℕ)
    (items : List (AgentToolSelection × String)) (fresh : ℕ) :
    fresh ≤ (assignIds reader kept items fresh).2 ∧
      ∀ (i : ℕ) (tool : AgentTool), (assignIds reader kept items fresh).1[i]? = some tool →
        ∃ item, items[i]? = some item ∧
          Given reader kept fresh (assignIds reader kept items fresh).2 item tool := by
  induction items generalizing fresh with
  | nil => simp [assignIds]
  | cons item rest ih =>
    obtain ⟨tool, digest⟩ := item
    rcases hkept : kept digest tool.binding with _ | id
    · obtain ⟨hle, hall⟩ := ih (fresh + 1)
      simp only [assignIds, hkept]
      refine ⟨by omega, ?_⟩
      intro i tool' htool'
      cases i with
      | zero =>
        cases htool'
        exact ⟨_, rfl, fresh, rfl, .inr ⟨le_rfl, by omega⟩⟩
      | succ i =>
        obtain ⟨item', hitem', hgiven⟩ := hall i tool' htool'
        exact ⟨item', hitem', hgiven.mono (by omega)⟩
    · obtain ⟨hle, hall⟩ := ih fresh
      simp only [assignIds, hkept]
      refine ⟨hle, ?_⟩
      intro i tool' htool'
      cases i with
      | zero =>
        cases htool'
        exact ⟨_, rfl, id, rfl, .inl hkept⟩
      | succ i => exact hall i tool' htool'

theorem given_of_mem {items : List (AgentToolSelection × String)} {fresh : ℕ} {tool : AgentTool}
    (hmem : tool ∈ (assignIds reader kept items fresh).1) :
    ∃ item ∈ items, Given reader kept fresh (assignIds reader kept items fresh).2 item tool := by
  obtain ⟨i, hi⟩ := List.mem_iff_getElem?.mp hmem
  obtain ⟨item, hitem, hgiven⟩ := (assignIds_spec reader kept items fresh).2 i tool hi
  exact ⟨item, List.mem_of_getElem? hitem, hgiven⟩

/-- Ids kept from before the counter, each by one selection at most, stay
distinct from each other and from the ones drawn. -/
theorem assignIds_nodup {items : List (AgentToolSelection × String)} {fresh : ℕ}
    (hold : ∀ item ∈ items, ∀ id, kept item.2 item.1.binding = some id → id < fresh)
    (honce : items.Pairwise fun a b => ∀ id, kept a.2 a.1.binding = some id →
      kept b.2 b.1.binding ≠ some id) :
    ((assignIds reader kept items fresh).1.map (·.id)).Nodup := by
  induction items generalizing fresh with
  | nil => exact List.nodup_nil
  | cons item rest ih =>
    obtain ⟨tool, digest⟩ := item
    obtain ⟨hhead, hrest⟩ := List.pairwise_cons.mp honce
    have holdRest : ∀ item ∈ rest, ∀ id, kept item.2 item.1.binding = some id → id < fresh :=
      fun item hitem => hold item (List.mem_cons_of_mem _ hitem)
    rcases hkept : kept digest tool.binding with _ | id
    · simp only [assignIds, hkept, List.map_cons, List.nodup_cons]
      refine ⟨?_, ih (fun item hitem id hid => (holdRest item hitem id hid).trans (by omega)) hrest⟩
      intro hmem
      obtain ⟨other, hother, hid⟩ := List.mem_map.mp hmem
      obtain ⟨item', hitem', id, rfl, hcase⟩ := given_of_mem hother
      have heq : id = fresh := Option.some.inj hid
      rcases hcase with hcase | hcase
      · have := holdRest item' hitem' id hcase
        omega
      · omega
    · simp only [assignIds, hkept, List.map_cons, List.nodup_cons]
      refine ⟨?_, ih holdRest hrest⟩
      intro hmem
      obtain ⟨other, hother, hid⟩ := List.mem_map.mp hmem
      obtain ⟨item', hitem', id', rfl, hcase⟩ := given_of_mem hother
      have heq : id' = id := Option.some.inj hid
      rcases hcase with hcase | hcase
      · exact hhead item' hitem' id hkept (heq ▸ hcase)
      · have := hold _ List.mem_cons_self id hkept
        omega

end Assignment

section Identification

/-- A stored selection in order: operations named once, ids drawn and distinct,
every hash that of the tool's id and its definition in `document`. -/
structure Identified (reader : AgentReader Doc) (document : Doc) (fresh : ℕ)
    (agents : ApiAgents) : Prop where
  keys : agents.keys.Nodup
  ids : (agents.operations.map (·.id)).Nodup
  described : ∀ (i : ℕ) (tool : AgentTool), agents.operations[i]? = some tool → ∃ id < fresh,
    tool = tool.stored reader id
      (reader.digest document (agents.operations.map (·.toAgentToolSelection)) i)

/-- The token of a tool, for comparing two selections of one history. -/
def toolToken (tool : AgentTool) : ℕ := tool.id.getD 0

/-- From `previous` to `next`, every id is new or stands for what it did. -/
def Carried (fresh : ℕ) (previous next : Option ApiAgents) : Prop :=
  Saga.Evolves toolToken (·.definition_hash) fresh (findTool previous) (findTool next)

variable {document previousDocument : Doc} {fresh : ℕ} {agents : ApiAgents}

theorem Identified.mono {fresh' : ℕ} (h : Identified reader document fresh agents)
    (hle : fresh ≤ fresh') : Identified reader document fresh' agents where
  keys := h.keys
  ids := h.ids
  described i tool htool := by
    obtain ⟨id, hid, heq⟩ := h.described i tool htool
    exact ⟨id, hid.trans_le hle, heq⟩

theorem Identified.of_mem (h : Identified reader document fresh agents) {tool : AgentTool}
    (hmem : tool ∈ agents.operations) :
    ∃ id < fresh, tool.id = some id ∧ tool.definition_hash.isSome := by
  obtain ⟨i, hi⟩ := List.mem_iff_getElem?.mp hmem
  obtain ⟨id, hid, heq⟩ := h.described i tool hi
  rw [heq]
  exact ⟨id, hid, rfl, rfl⟩

/-- Two tools of an identified selection under one id are one tool. -/
theorem Identified.eq_of_id (h : Identified reader document fresh agents) {tool other : AgentTool}
    (hmem : tool ∈ agents.operations) (hmem' : other ∈ agents.operations)
    (hid : tool.id = other.id) : tool = other :=
  List.inj_on_of_nodup_map h.ids hmem hmem' hid

/-- The digests of one build are those of its selections by position. -/
theorem digest_of_zip {tools : List AgentToolSelection} {i : ℕ}
    {item : AgentToolSelection × String}
    (h : (tools.zip (agentToolDefinitionDigests reader document tools))[i]? = some item) :
    item.2 = reader.digest document tools i := by
  obtain ⟨-, hdigest⟩ := List.getElem?_zip_eq_some.mp h
  simp only [agentToolDefinitionDigests, List.getElem?_mapIdx] at hdigest
  obtain ⟨tool, -, heq⟩ := Option.map_eq_some_iff.mp hdigest
  exact heq.symm

theorem map_fst_zip_digests (tools : List AgentToolSelection) :
    (tools.zip (agentToolDefinitionDigests reader document tools)).map (·.1) = tools :=
  List.map_fst_zip (by simp [agentToolDefinitionDigests])

/-- Where no id is kept by two selections, the assigned tools are identified. -/
theorem identified_assignIds {tools : List AgentToolSelection} {kept : String → Binding → Option ℕ}
    (hkeys : (tools.map fun tool => operationKey tool.method tool.path).Nodup)
    (hold : ∀ digest binding id, kept digest binding = some id → id < fresh)
    (honce : ∀ digest digest' (a b : AgentToolSelection) id, kept digest a.binding = some id →
      kept digest' b.binding = some id → a.binding = b.binding) :
    Identified reader document
      (assignIds reader kept (tools.zip (agentToolDefinitionDigests reader document tools)) fresh).2
      ⟨(assignIds reader kept
        (tools.zip (agentToolDefinitionDigests reader document tools)) fresh).1⟩ := by
  set items := tools.zip (agentToolDefinitionDigests reader document tools) with hitems
  have hfst : items.map (·.1) = tools := map_fst_zip_digests tools
  have hselections := assignIds_selections reader kept items fresh
  rw [hfst] at hselections
  have hspec := assignIds_spec reader kept items fresh
  refine ⟨?_, ?_, ?_⟩
  · simp only [ApiAgents.keys]
    rwa [← hselections, List.map_map] at hkeys
  · refine assignIds_nodup (fun item _ id hid => hold _ _ id hid) ?_
    rw [← hfst, List.map_map, List.Nodup, List.pairwise_map] at hkeys
    refine hkeys.imp ?_
    intro a b hne id ha hb
    have hbinding := honce _ _ a.1 b.1 id ha hb
    simp only [AgentToolSelection.binding, Binding.mk.injEq] at hbinding
    exact hne (by simp [hbinding.1, hbinding.2.1])
  · intro i tool htool
    obtain ⟨item, hitem, id, rfl, hid⟩ := hspec.2 i tool htool
    have hdigest := digest_of_zip hitem
    refine ⟨id, ?_, ?_⟩
    · rcases hid with hkept | hdrawn
      · exact (hold _ _ id hkept).trans_le hspec.1
      · exact hdrawn.2
    · simp only [hselections, ← hdigest]
      rfl

/-- A kept id is that of the tool published under the binding so far, under a
hash that already binds it to the new definition. -/
theorem kept_of_identified {previous : Option ApiAgents}
    (hprevious : ∀ agents, previous = some agents → Identified reader previousDocument fresh agents)
    {legacy : List ℕ} {legacyDigests : List String} {digest : String} {binding : Binding} {id : ℕ}
    (h : keptId reader legacy legacyDigests digest (findPrior previous binding) = some id) :
    id < fresh ∧ ∃ tool, findTool previous binding = some tool ∧ tool.id = some id ∧
      tool.definition_hash = some (boundDefinitionHash reader id digest) := by
  obtain ⟨position, tool, hprior, hid, hhash⟩ := keptId_spec h
  have hfound := findPrior_spec hprior
  cases previous with
  | none => contradiction
  | some agents =>
    obtain ⟨id', hlt, hid', hsome⟩ :=
      (hprevious agents rfl).of_mem (binding_of_findTool hfound).1
    have heq : id' = id := Option.some.inj (hid'.symm.trans hid)
    obtain ⟨hash, hsome⟩ := Option.isSome_iff_exists.mp hsome
    exact ⟨heq ▸ hlt, tool, hfound, hid, by rw [hsome, hhash hash hsome]⟩

theorem identifyAgentTools_spec {next previous : Option ApiAgents}
    (hnext : ∀ agents, next = some agents → agents.keys.Nodup)
    (hprevious : ∀ agents, previous = some agents →
      Identified reader previousDocument fresh agents)
    {result : Option ApiAgents × ℕ}
    (hresult : identifyAgentTools reader next document previous previousDocument fresh = result) :
    fresh ≤ result.2 ∧
      (∀ agents, result.1 = some agents → Identified reader document result.2 agents) ∧
      Carried fresh previous result.1 := by
  subst hresult
  cases next with
  | none => exact ⟨le_rfl, by simp [identifyAgentTools], by simp [Carried, Saga.Evolves, findTool,
      identifyAgentTools]⟩
  | some next =>
    have hkeys := hnext next rfl
    simp only [identifyAgentTools]
    set tools := next.operations.map (·.toAgentToolSelection) with htools
    set items := tools.zip (agentToolDefinitionDigests reader document tools)
    set priors := tools.filterMap fun tool => findPrior previous tool.binding
    set legacy := priors.filter fun prior => prior.2.definition_hash = none
    set legacyDigests := agentToolDefinitionDigests reader previousDocument
      (legacy.map (·.2.toAgentToolSelection))
    set kept := fun digest binding =>
      keptId reader (legacy.map (·.1)) legacyDigests digest (findPrior previous binding) with hkeptdef
    have hkept : ∀ digest binding id, kept digest binding = some id →
        id < fresh ∧ ∃ tool, findTool previous binding = some tool ∧ tool.id = some id ∧
          tool.definition_hash = some (boundDefinitionHash reader id digest) :=
      fun digest binding id h => kept_of_identified hprevious h
    have honce : ∀ digest digest' (a b : AgentToolSelection) id, kept digest a.binding = some id →
        kept digest' b.binding = some id → a.binding = b.binding := by
      intro digest digest' a b id ha hb
      obtain ⟨-, tool, hfound, hid, -⟩ := hkept _ _ _ ha
      obtain ⟨-, other, hfound', hid', -⟩ := hkept _ _ _ hb
      cases previous with
      | none => contradiction
      | some agents =>
        obtain ⟨hmem, hbinding⟩ := binding_of_findTool hfound
        obtain ⟨hmem', hbinding'⟩ := binding_of_findTool hfound'
        have heq := (hprevious agents rfl).eq_of_id hmem hmem' (hid.trans hid'.symm)
        rw [← hbinding, ← hbinding', heq]
    have hidentified : Identified reader document (assignIds reader kept items fresh).2
        ⟨(assignIds reader kept items fresh).1⟩ := by
      refine identified_assignIds ?_ (fun d b id h => (hkept d b id h).1) honce
      rwa [htools, List.map_map]
    refine ⟨(assignIds_spec reader kept items fresh).1, ?_, ?_⟩
    · rintro agents ⟨⟩
      exact hidentified
    · intro binding tool htool
      obtain ⟨hmem, hbinding⟩ := binding_of_findTool htool
      obtain ⟨item, -, id, rfl, hid | hid⟩ := given_of_mem hmem
      · obtain ⟨-, prior, hfound, hid', hhash⟩ := hkept _ _ _ hid
        have hitem : item.1.binding = binding := hbinding
        refine .inr ⟨prior, hitem ▸ hfound, ?_, ?_⟩
        · simp [toolToken, hid', AgentToolSelection.stored]
        · simp [hhash, AgentToolSelection.stored]
      · exact .inl hid.1

end Identification

section Meaning

variable {document document' : Doc} {fresh fresh' : ℕ} {previous next : ApiAgents}
  {tool current : AgentTool}

/-- An id of both selections stands for one binding under one hash. -/
theorem Carried.same (h : Carried fresh (some previous) (some next))
    (hprevious : Identified reader document fresh previous)
    (hnext : Identified reader document' fresh' next) (hmem : tool ∈ previous.operations)
    (hmem' : current ∈ next.operations) (hid : tool.id = current.id) :
    tool.binding = current.binding ∧ tool.definition_hash = current.definition_hash := by
  obtain ⟨id, hlt, htool, -⟩ := hprevious.of_mem hmem
  have hcurrent : toolToken current = id := by simp [toolToken, ← hid, htool]
  obtain ⟨prior, hfound, htoken, hhash⟩ :=
    h.of_token (findTool_of_mem hnext.keys hmem') (hcurrent ▸ hlt)
  obtain ⟨hprior, hbinding⟩ := binding_of_findTool hfound
  obtain ⟨id', -, hid', -⟩ := hprevious.of_mem hprior
  have hsame : prior.id = tool.id := by
    rw [hcurrent] at htoken
    simp only [toolToken, hid', Option.getD_some] at htoken
    rw [hid', htool, htoken]
  have heq := hprevious.eq_of_id hprior hmem hsame
  exact heq ▸ ⟨hbinding, hhash⟩

/-- A rotated tool is one whose binding is still published and whose id is
not, under any binding. -/
theorem mem_rotatedAgentTools (h : Carried fresh (some previous) (some next))
    (hprevious : Identified reader document fresh previous)
    (hnext : Identified reader document' fresh' next) :
    tool ∈ rotatedAgentTools (some previous) (some next) ↔ tool ∈ previous.operations ∧
      (∃ other ∈ next.operations, other.binding = tool.binding) ∧
        ∀ other ∈ next.operations, other.id ≠ tool.id := by
  simp only [rotatedAgentTools, Option.map_some, Option.getD_some, List.mem_filter,
    Bool.and_eq_true]
  constructor
  · rintro ⟨hmem, -, hnew⟩
    rcases hfound : findTool (some next) tool.binding with _ | other
    · simp [hfound] at hnew
    obtain ⟨hother, hbinding⟩ := binding_of_findTool hfound
    refine ⟨hmem, ⟨other, hother, hbinding⟩, ?_⟩
    intro third hthird hid
    have hsame := h.same hprevious hnext hmem hthird hid.symm
    have hthirdFound := findTool_of_mem hnext.keys hthird
    rw [← hsame.1, hfound] at hthirdFound
    have heq : other = third := Option.some.inj hthirdFound
    simp [hfound, heq, hid] at hnew
  · rintro ⟨hmem, ⟨other, hother, hbinding⟩, hgone⟩
    obtain ⟨id, -, hid, -⟩ := hprevious.of_mem hmem
    have hfound := findTool_of_mem hnext.keys hother
    rw [hbinding] at hfound
    refine ⟨hmem, by simp [hid], ?_⟩
    simpa [hfound] using hgone other hother

end Meaning

end FerrumNexus.Agents
