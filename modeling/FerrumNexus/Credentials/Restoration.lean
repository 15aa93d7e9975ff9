import FerrumNexus.Platform.Groups
import FerrumNexus.Portal.World

/-!
# Gateway access given back to a re-enabled account

Each consumer of the account gets the groups of its own identity's active
grants. Groups the portal owns come from nowhere else, and an operator's groups
stay. The consumers are written one after the other, and the gateway may refuse
any of them.
-/
namespace FerrumNexus.Credentials.Restoration

open Platform

/-- A row of `consumers`: the gateway consumer of an account or application. -/
structure ConsumerRow where
  user_id : ℕ
  application_id : Option ℕ
  ferrum_consumer_id : ℕ
  deriving DecidableEq, Repr

/-- A row of `grants`, which every approval names after its API. -/
structure GrantRow where
  api_id : Uuid
  user_id : ℕ
  application_id : Option ℕ
  acl_group : String
  approved_tools : Option (List Uuid)
  active : Bool
  named : acl_group = aclGroupForApi api_id

/-- A row of `apis`, as far as it says whether the API has agents. -/
structure ApiRow where
  agents : Bool
  deriving DecidableEq, Repr

structure Tables where
  users : ℕ → Option UserStatus
  consumers : List ConsumerRow
  grants : List GrantRow
  apis : Uuid → Option ApiRow
  /-- `ux_consumers_ferrum_id`. -/
  distinct : (consumers.map ConsumerRow.ferrum_consumer_id).Nodup

/-- A consumer as the gateway holds it. `rest` is what a replacement sends back
as it was read: labels, names and credentials. -/
structure EdgeConsumer (ρ : Type) where
  acl_groups : Option (List String)
  rest : ρ

/-- The gateway, and the consumers it cannot read or will not write. -/
structure Gateway (ρ : Type) where
  consumers : ℕ → Option (EdgeConsumer ρ)
  unreadable : ℕ → Bool
  refuses : ℕ → Bool

inductive RestoreError
  | unmapped (identities : List (Option ℕ))
  | userDisabled
  | noConsumer
  | gateway
  deriving DecidableEq, Repr

variable {ρ : Type}

def EdgeConsumer.groups (consumer : EdgeConsumer ρ) : List String := consumer.acl_groups.getD []

def Tables.listConsumers (tables : Tables) (userId : ℕ) : List ConsumerRow :=
  tables.consumers.filter fun row => row.user_id = userId

/-- `listActiveByUser`: `identity` is left out or the identity to read. -/
def Tables.listActiveByUser (tables : Tables) (userId : ℕ) (identity : Option (Option ℕ)) :
    List GrantRow :=
  tables.grants.filter fun grant => grant.user_id = userId && grant.active &&
    (identity.map (grant.application_id == ·)).getD true

/-- The groups one grant gives. -/
def Tables.grantGroups (tables : Tables) (grant : GrantRow) : List String :=
  grant.acl_group ::
    if ((tables.apis grant.api_id).map (·.agents)).getD false then
      mcpGroupsForGrant grant.api_id grant.approved_tools
    else []

section Restore

variable (tables : Tables) (userId : ℕ)

/-- What is written, unless there is nothing to write. -/
def restoredGroups (grants : List GrantRow) (current : List String) : Option (List String) :=
  let retained := current.filter fun group => apiIdFromAclGroup group = none
  let groups := (retained ++ grants.flatMap tables.grantGroups).eraseDups
  let stray := current.any fun group => apiIdFromAclGroup group ≠ none && !groups.contains group
  if grants.length = 0 ∧ !stray then none else some groups

def consumerWithAclGroups (live : EdgeConsumer ρ) (aclGroups : List String) : EdgeConsumer ρ :=
  { live with acl_groups := some aclGroups }

/-- One consumer, under its key. -/
def restoreConsumer (gateway : Gateway ρ) (consumer : ConsumerRow) :
    Except RestoreError (Gateway ρ) :=
  let id := consumer.ferrum_consumer_id
  if tables.users userId ≠ some .active then .error .userDisabled
  else if gateway.unreadable id then .error .gateway
  else
    let grants := tables.listActiveByUser userId (some consumer.application_id)
    match gateway.consumers id with
    | none => if grants.length = 0 then .ok gateway else .error .noConsumer
    | some live =>
      match restoredGroups tables grants live.groups with
      | none => .ok gateway
      | some groups =>
        if gateway.refuses id then .error .gateway
        else
          let written := some (consumerWithAclGroups live groups)
          .ok { gateway with consumers := Function.update gateway.consumers id written }

def restoreGatewayAccess (gateway : Gateway ρ) : Except RestoreError (Gateway ρ) :=
  let consumers := tables.listConsumers userId
  let mapped := consumers.map ConsumerRow.application_id
  let granted := ((tables.listActiveByUser userId none).map GrantRow.application_id).eraseDups
  let unmapped := granted.filter fun identity => !mapped.contains identity
  if unmapped.length > 0 then .error (.unmapped unmapped)
  else consumers.foldlM (restoreConsumer tables userId) gateway

end Restore

/-! ## What a consumer holds afterwards -/

variable {tables : Tables} {userId : ℕ}

theorem mem_listActiveByUser {identity : Option ℕ} {grant : GrantRow} :
    grant ∈ tables.listActiveByUser userId (some identity) ↔ grant ∈ tables.grants ∧
      grant.user_id = userId ∧ grant.active = true ∧ grant.application_id = identity := by
  simp [Tables.listActiveByUser, and_assoc]

/-- The portal owns every group it gives. -/
theorem grantGroups_owned {grant : GrantRow} {group : String} (h : group ∈ tables.grantGroups grant) :
    apiIdFromAclGroup group = some grant.api_id.text := by
  rcases List.mem_cons.mp h with rfl | h
  · rw [grant.named]
    exact apiIdFromAclGroup_approved grant.api_id
  · split at h
    · exact apiIdFromAclGroup_mcp h
    · cases h

variable (tables userId) in
/-- A consumer before and after it was restored. -/
def Restored (consumer : ConsumerRow) : Option (EdgeConsumer ρ) → Option (EdgeConsumer ρ) → Prop
  | none, after =>
    after = none ∧ tables.listActiveByUser userId (some consumer.application_id) = []
  | some live, after => ∃ live', after = some live' ∧ live'.rest = live.rest ∧
      ∀ group, group ∈ live'.groups ↔ (group ∈ live.groups ∧ apiIdFromAclGroup group = none) ∨
        ∃ grant ∈ tables.listActiveByUser userId (some consumer.application_id),
          group ∈ tables.grantGroups grant

variable (tables) in
/-- Nothing is written only where the groups are as they should be. -/
theorem mem_restoredGroups (grants : List GrantRow) (current : List String) (group : String) :
    group ∈ (restoredGroups tables grants current).getD current ↔
      (group ∈ current ∧ apiIdFromAclGroup group = none) ∨
        ∃ grant ∈ grants, group ∈ tables.grantGroups grant := by
  rw [restoredGroups]
  split
  · rename_i hquiet
    obtain ⟨hnone, hstray⟩ := hquiet
    obtain rfl := List.length_eq_zero_iff.mp hnone
    have hclean : ∀ group ∈ current, apiIdFromAclGroup group = none := by
      intro group hgroup
      by_contra howned
      simp only [List.any_eq_true, Bool.not_eq_true', Bool.eq_false_iff, ne_eq, not_exists, not_and,
        Bool.and_eq_true, decide_eq_true_eq, List.contains_iff_mem] at hstray
      refine hstray group hgroup howned ?_
      simp [howned, List.mem_eraseDups]
    simpa using hclean group
  · simp [List.mem_eraseDups, List.mem_flatMap]

theorem restoreConsumer_spec {gateway after : Gateway ρ} {consumer : ConsumerRow}
    (h : restoreConsumer tables userId gateway consumer = .ok after) :
    Restored tables userId consumer (gateway.consumers consumer.ferrum_consumer_id)
        (after.consumers consumer.ferrum_consumer_id) ∧
      ∀ id, id ≠ consumer.ferrum_consumer_id → after.consumers id = gateway.consumers id := by
  simp only [restoreConsumer] at h
  split at h
  · cases h
  split at h
  · cases h
  split at h
  · rename_i hlive
    split at h
    · rename_i hnone
      cases h
      rw [hlive]
      exact ⟨⟨rfl, List.length_eq_zero_iff.mp hnone⟩, fun _ _ => rfl⟩
    · cases h
  · rename_i live hlive
    have hgroups := mem_restoredGroups tables
      (tables.listActiveByUser userId (some consumer.application_id)) live.groups
    rw [hlive]
    split at h
    · rename_i hquiet
      cases h
      rw [hquiet] at hgroups
      exact ⟨⟨live, hlive, rfl, hgroups⟩, fun _ _ => rfl⟩
    · rename_i groups hwrite
      rw [hwrite] at hgroups
      split at h
      · cases h
      · cases h
        refine ⟨⟨_, Function.update_self .., rfl, hgroups⟩, fun id hid => ?_⟩
        exact Function.update_of_ne hid ..

/-- The consumers are different ones, so each is restored once. -/
theorem restoreConsumers_spec {consumers : List ConsumerRow} {gateway after : Gateway ρ}
    (hdistinct : (consumers.map ConsumerRow.ferrum_consumer_id).Nodup)
    (h : consumers.foldlM (restoreConsumer tables userId) gateway = .ok after) :
    (∀ consumer ∈ consumers, Restored tables userId consumer
        (gateway.consumers consumer.ferrum_consumer_id)
        (after.consumers consumer.ferrum_consumer_id)) ∧
      ∀ id, id ∉ consumers.map ConsumerRow.ferrum_consumer_id →
        after.consumers id = gateway.consumers id := by
  induction consumers generalizing gateway with
  | nil =>
    cases h
    exact ⟨by simp, fun _ _ => rfl⟩
  | cons first rest ih =>
    obtain ⟨hfirst, hdistinct⟩ := List.nodup_cons.mp hdistinct
    rw [List.foldlM_cons] at h
    cases hstep : restoreConsumer tables userId gateway first with
    | error error =>
      rw [hstep] at h
      cases h
    | ok next =>
      rw [hstep] at h
      obtain ⟨hrestored, hframe⟩ := restoreConsumer_spec hstep
      obtain ⟨hrest, hrestFrame⟩ := ih hdistinct h
      constructor
      · intro consumer hmem
        rcases List.mem_cons.mp hmem with rfl | hmem
        · rw [hrestFrame _ hfirst]
          exact hrestored
        · have hne : consumer.ferrum_consumer_id ≠ first.ferrum_consumer_id := by
            intro heq
            exact hfirst (List.mem_map.mpr ⟨consumer, hmem, heq⟩)
          rw [← hframe _ hne]
          exact hrest consumer hmem
      · intro id hid
        rw [List.map_cons, List.mem_cons, not_or] at hid
        rw [hrestFrame id hid.2, hframe id hid.1]

variable (tables userId) in
/-- The active grants of one identity. -/
def Granted (identity : Option ℕ) (grant : GrantRow) : Prop :=
  grant ∈ tables.grants ∧ grant.user_id = userId ∧ grant.application_id = identity ∧
    grant.active = true

/-- Whatever groups the consumers had: each ends with those of its identity's
active grants, the ones the portal does not own, and no other. A consumer the
gateway no longer has was granted nothing, and nobody else's is touched. -/
theorem restoreGatewayAccess_exact {gateway after : Gateway ρ}
    (h : restoreGatewayAccess tables userId gateway = .ok after) :
    (∀ consumer ∈ tables.consumers, consumer.user_id = userId →
      match gateway.consumers consumer.ferrum_consumer_id with
      | none => ∀ grant, ¬ Granted tables userId consumer.application_id grant
      | some live =>
        ∃ restored, after.consumers consumer.ferrum_consumer_id = some restored ∧
          restored.rest = live.rest ∧
          (∀ group, apiIdFromAclGroup group ≠ none → (group ∈ restored.groups ↔
            ∃ grant, Granted tables userId consumer.application_id grant ∧
              group ∈ tables.grantGroups grant)) ∧
          (∀ group, apiIdFromAclGroup group = none →
            (group ∈ restored.groups ↔ group ∈ live.groups)) ∧
          ∀ grant ∈ tables.grants, ¬ Granted tables userId consumer.application_id grant →
            ∀ group ∈ grant.acl_group :: mcpGroupsForGrant grant.api_id grant.approved_tools,
              group ∈ restored.groups →
                ∃ other, Granted tables userId consumer.application_id other ∧
                  group ∈ tables.grantGroups other) ∧
    ∀ id, (∀ consumer ∈ tables.consumers, consumer.user_id = userId →
      consumer.ferrum_consumer_id ≠ id) → after.consumers id = gateway.consumers id := by
  simp only [restoreGatewayAccess] at h
  split at h
  · cases h
  have hdistinct : ((tables.listConsumers userId).map ConsumerRow.ferrum_consumer_id).Nodup :=
    tables.distinct.sublist (List.filter_sublist.map _)
  obtain ⟨hrestored, hframe⟩ := restoreConsumers_spec hdistinct h
  have hgranted (identity : Option ℕ) (grant : GrantRow) :
      grant ∈ tables.listActiveByUser userId (some identity) ↔
        Granted tables userId identity grant := by
    rw [mem_listActiveByUser, Granted]
    tauto
  constructor
  · intro consumer hmem huser
    have hconsumer := hrestored consumer (List.mem_filter.mpr ⟨hmem, by simpa using huser⟩)
    cases hlive : gateway.consumers consumer.ferrum_consumer_id with
    | none =>
      rw [hlive] at hconsumer
      intro grant hgrant
      have hactive := (hgranted consumer.application_id grant).mpr hgrant
      rw [hconsumer.2] at hactive
      cases hactive
    | some live =>
      rw [hlive] at hconsumer
      obtain ⟨restored, hafter, hrest, hgroups⟩ := hconsumer
      simp only [hgranted] at hgroups
      have howned (group : String) (h : apiIdFromAclGroup group ≠ none) :
          group ∈ restored.groups ↔ ∃ grant, Granted tables userId consumer.application_id grant ∧
            group ∈ tables.grantGroups grant := by
        rw [hgroups]
        exact or_iff_right fun hkept => h hkept.2
      refine ⟨restored, hafter, hrest, howned, fun group h => ?_, ?_⟩
      · rw [hgroups]
        refine ⟨fun hin => ?_, fun hin => .inl ⟨hin, h⟩⟩
        rcases hin with hkept | ⟨grant, -, hgrant⟩
        · exact hkept.1
        · rw [grantGroups_owned hgrant] at h
          cases h
      · intro grant _ _ group hgroup hin
        have hportal : apiIdFromAclGroup group = some grant.api_id.text := by
          rcases List.mem_cons.mp hgroup with rfl | hgroup
          · rw [grant.named]
            exact apiIdFromAclGroup_approved grant.api_id
          · exact apiIdFromAclGroup_mcp hgroup
        exact (howned group (by rw [hportal]; exact Option.some_ne_none _)).mp hin
  · intro id hid
    refine hframe id fun hmem => ?_
    obtain ⟨consumer, hconsumer, rfl⟩ := List.mem_map.mp hmem
    obtain ⟨hmem, huser⟩ := List.mem_filter.mp hconsumer
    exact hid consumer hmem (by simpa using huser) rfl

/-! An account whose grant on one API was revoked while it was disabled. -/

def orders : Uuid := ⟨"orders", by decide, by decide⟩

def billing : Uuid := ⟨"billing", by decide, by decide⟩

def reenabledTables : Tables where
  users id := if id = 1 then some .active else none
  consumers := [⟨1, none, 7⟩]
  grants := [⟨orders, 1, none, _, none, true, rfl⟩, ⟨billing, 1, none, _, none, false, rfl⟩]
  apis id := if id = orders then some ⟨true⟩ else none
  distinct := by decide

def strippedGateway : Gateway Unit where
  consumers id := if id = 7 then some ⟨some ["operators", "nexus:api:billing:approved"], ()⟩ else none
  unreadable _ := false
  refuses _ := false

theorem restoreGatewayAccess_exact_reenabled :
    ∃ after restored, restoreGatewayAccess reenabledTables 1 strippedGateway = .ok after ∧
      after.consumers 7 = some restored ∧ "operators" ∈ restored.groups ∧
      "nexus:api:orders:approved" ∈ restored.groups ∧
      "nexus:api:billing:approved" ∉ restored.groups := by
  have hok : (restoreGatewayAccess reenabledTables 1 strippedGateway).toOption.isSome = true := by
    decide
  cases h : restoreGatewayAccess reenabledTables 1 strippedGateway with
  | error error =>
    rw [h] at hok
    cases hok
  | ok after =>
    obtain ⟨restored, hafter, -, howned, hkept, -⟩ :=
      (restoreGatewayAccess_exact h).1 ⟨1, none, 7⟩ (by decide) rfl
    refine ⟨after, restored, rfl, hafter, ?_, ?_, ?_⟩
    · exact (hkept "operators" (by decide)).mpr (by decide)
    · refine (howned _ (by decide)).mpr ⟨⟨orders, 1, none, _, none, true, rfl⟩, ?_, by decide⟩
      exact ⟨List.mem_cons_self, rfl, rfl, rfl⟩
    · intro hin
      obtain ⟨grant, ⟨hmem, -, -, hactive⟩, hgroup⟩ := (howned _ (by decide)).mp hin
      have hgrants : grant = ⟨orders, 1, none, _, none, true, rfl⟩ ∨
          grant = ⟨billing, 1, none, _, none, false, rfl⟩ := by
        simpa [reenabledTables] using hmem
      rcases hgrants with rfl | rfl
      · exact absurd hgroup (by decide)
      · cases hactive

end FerrumNexus.Credentials.Restoration
