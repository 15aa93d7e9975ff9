import FerrumNexus.Platform.Calls

/-!
# Putting a plugin on a proxy, and taking it off again

The calls of `edge-plugins.ts` that a holder of a proxy's lease makes. A plugin
config is inert until the proxy's own list names it. Replacing a resource
replaces every field of it but those the gateway owns, so a write carries the
fields an operator set. A write that is rejected may have been applied, so each
undo step is registered before the write it undoes; the steps registered so far
are a part of the state.
-/
namespace FerrumNexus.Publishing.EdgePlugins

open Saga Platform

/-- Fields of a resource, with null for one a read reports as unset. -/
abbrev Fields (J : Type) := List (String × Option J)

/-- `{ ...fields, ...updates }`. -/
def spread {J : Type} (fields updates : Fields J) : Fields J :=
  (fields.map fun old => (updates.find? (·.1 == old.1)).getD old) ++
    updates.filter fun entry => !fields.any (·.1 == entry.1)

/-- A proxy-scoped plugin config. `rest` is every field not named here. -/
structure EdgePluginConfig (J : Type) where
  id : ℕ
  pluginName : String
  proxyId : ℕ
  enabled : Bool
  config : Option J
  trigger : Option J
  rest : Fields J
  deriving DecidableEq

/-- The body of a create or a replace. Its scope is `proxy`. -/
structure EdgePluginConfigWrite (J : Type) where
  pluginName : String
  proxyId : ℕ
  enabled : Bool
  config : Option J
  trigger : Option J
  rest : Fields J
  deriving DecidableEq

structure EdgeProxy (J : Type) where
  plugins : List ℕ
  rest : Fields J
  deriving DecidableEq

/-- The proxies and plugin configs of the gateway. -/
structure Gateway (J : Type) where
  proxies : ℕ → Option (EdgeProxy J)
  configs : ℕ → Option (EdgePluginConfig J)

def SERVER_OWNED_PROXY_FIELDS : List String := ["namespace", "created_at", "updated_at"]

def PORTAL_OWNED_PLUGIN_FIELDS : List String :=
  ["plugin_name", "scope", "proxy_id", "enabled", "config", "trigger"]

def SERVER_OWNED_PLUGIN_FIELDS : List String :=
  ["id", "namespace", "api_spec_id", "created_at", "updated_at"]

variable {J : Type}

/-- What is neither the portal's to set nor the gateway's to own. A null is how
a read reports "unset". -/
def operatorOwned (entry : String × Option J) : Bool :=
  !(PORTAL_OWNED_PLUGIN_FIELDS.contains entry.1 || SERVER_OWNED_PLUGIN_FIELDS.contains entry.1) &&
    entry.2.isSome

def operatorOwnedFields : Option (EdgePluginConfig J) → Fields J
  | none => []
  | some live => live.rest.filter operatorOwned

/-- `EdgePluginOptions`. -/
structure EdgePluginOptions (J : Type) where
  enabled : Option Bool := none
  trigger : Option J := none
  priorityOverride : Option J := none
  id : Option ℕ := none

/-- The portal's fields written over whatever `live` already carries. -/
def writeBody (proxyId : ℕ) (pluginName : String) (pluginConfig : Option J)
    (options : EdgePluginOptions J) (live : Option (EdgePluginConfig J)) :
    EdgePluginConfigWrite J where
  pluginName
  proxyId
  enabled := options.enabled.getD true
  config := pluginConfig
  trigger := options.trigger
  rest := spread (options.priorityOverride.toList.map fun priority =>
    ("priority_override", some priority)) (operatorOwnedFields live)

/-! ## The gateway -/

/-- What a replace leaves as it is: the gateway's own fields, and the labels
where the body has none. -/
def retained (body : EdgePluginConfigWrite J) (entry : String × Option J) : Bool :=
  SERVER_OWNED_PLUGIN_FIELDS.contains entry.1 ||
    (entry.1 == "labels" && !body.rest.any (·.1 == "labels"))

def EdgePluginConfig.replacedBy (stored : EdgePluginConfig J) (body : EdgePluginConfigWrite J) :
    EdgePluginConfig J where
  id := stored.id
  pluginName := body.pluginName
  proxyId := body.proxyId
  enabled := body.enabled
  config := body.config
  trigger := body.trigger
  rest := body.rest ++ stored.rest.filter (retained body)

/-- A config made from a body. The gateway labels it with its origin unless it is
told to leave the labels alone or given some. -/
def created (origin : J) (id : ℕ) (body : EdgePluginConfigWrite J) (preserveLabels : Bool) :
    EdgePluginConfig J where
  id
  pluginName := body.pluginName
  proxyId := body.proxyId
  enabled := body.enabled
  config := body.config
  trigger := body.trigger
  rest := body.rest ++
    if preserveLabels || body.rest.any (·.1 == "labels") then [] else [("labels", some origin)]

namespace Gateway

/-- The proxy's list names the config. -/
def Lists (e : Gateway J) (proxyId id : ℕ) : Prop :=
  ∃ proxy, e.proxies proxyId = some proxy ∧ id ∈ proxy.plugins

instance (e : Gateway J) (proxyId id : ℕ) : Decidable (e.Lists proxyId id) :=
  decidable_of_iff ((e.proxies proxyId).any (·.plugins.contains id) = true)
    (by simp [Lists, Option.any_eq_true])

def putConfig (e : Gateway J) (id : ℕ) (config : Option (EdgePluginConfig J)) : Gateway J :=
  { e with configs := Function.update e.configs id config }

def putProxy (e : Gateway J) (id : ℕ) (proxy : EdgeProxy J) : Gateway J :=
  { e with proxies := Function.update e.proxies id (some proxy) }

/-- `PUT /proxies/{id}`: every field but the gateway's own. -/
def replaceProxy (id : ℕ) (body : EdgeProxy J) (e : Gateway J) :
    Except NexusError (Unit × Gateway J) :=
  match e.proxies id with
  | none => .error (edgeFailure (some 404))
  | some stored =>
    .ok ((), e.putProxy id ⟨body.plugins, body.rest ++
      stored.rest.filter fun entry => SERVER_OWNED_PROXY_FIELDS.contains entry.1⟩)

/-- `POST /plugins/config`. -/
def createConfig (origin : J) (id : ℕ) (body : EdgePluginConfigWrite J) (preserveLabels : Bool)
    (e : Gateway J) : Except NexusError (EdgePluginConfig J × Gateway J) :=
  match e.proxies body.proxyId, e.configs id with
  | none, _ => .error (edgeFailure (some 400))
  | _, some _ => .error (edgeFailure (some 409))
  | some _, none =>
    let config := created origin id body preserveLabels
    .ok (config, e.putConfig id (some config))

/-- `PUT /plugins/config/{id}`, by a caller who expects the proxy to name it. -/
def replaceConfig (id : ℕ) (body : EdgePluginConfigWrite J) (e : Gateway J) :
    Except NexusError (EdgePluginConfig J × Gateway J) :=
  match e.configs id with
  | none => .error (edgeFailure (some 404))
  | some stored =>
    let config := stored.replacedBy body
    .ok (config, e.putConfig id (some config))

/-- `DELETE /plugins/config/{id}`, by a caller who expects no proxy to name it;
the client tolerates a 404. -/
def deleteConfig (id : ℕ) (e : Gateway J) : Except NexusError (Unit × Gateway J) :=
  match e.configs id with
  | none => .ok ((), e)
  | some stored =>
    if e.Lists stored.proxyId id then .error (edgeFailure (some 412))
    else .ok ((), e.putConfig id none)

end Gateway

/-! ## The binder -/

/-- An undo step, by what it is to undo. -/
inductive Undo (J : Type)
  | removal (config : EdgePluginConfig J)
  | replacement (existing : EdgePluginConfig J)
  | association (id : ℕ)
  | attachment (id : ℕ)

/-- The gateway, and the undo steps registered so far. -/
structure Held (J : Type) where
  edge : Gateway J
  undo : List (Undo J)

abbrev PluginService (J α : Type) := Service (Held J) α

def write {α : Type} (f : Gateway J → Except NexusError (α × Gateway J)) : PluginService J α :=
  edgeWrite fun s => (f s.edge).map fun answer => (answer.1, { s with edge := answer.2 })

/-- `edge.assertBackendEgress()`. -/
def assertBackendEgress : PluginService J Unit := edgeRead fun _ => ()

/-- `undo.push(step)`. -/
def pushUndo (step : Undo J) : PluginService J Unit :=
  atomic fun s _ => some (.ok (), { s with undo := s.undo ++ [step] })

/-- What `change` answers with is written back, or nothing is. -/
def writeProxy (proxyId : ℕ) (current : EdgeProxy J) :
    Option (EdgeProxy J) → PluginService J (EdgeProxy J)
  | none => pure current
  | some body => do
    write (Gateway.replaceProxy proxyId { body with
      rest := body.rest.filter fun entry => !SERVER_OWNED_PROXY_FIELDS.contains entry.1 })
    pure current

/-- `mutateProxyLocked`, from the document the gateway returned. -/
def mutateFound (proxyId : ℕ) (change : EdgeProxy J → PluginService J (Option (EdgeProxy J))) :
    Option (EdgeProxy J) → PluginService J (EdgeProxy J)
  | none => throw (notFound "Proxy" proxyId)
  | some current => do writeProxy proxyId current (← change current)

def mutateProxyLocked (proxyId : ℕ)
    (change : EdgeProxy J → PluginService J (Option (EdgeProxy J))) :
    PluginService J (EdgeProxy J) := do
  mutateFound proxyId change (← edgeRead fun s => s.edge.proxies proxyId)

def associateLocked (proxyId : ℕ) (configIds : List ℕ) : PluginService J Unit := do
  let _ ← mutateProxyLocked proxyId fun proxy =>
    let additions := configIds.filter (!proxy.plugins.contains ·)
    pure (if additions.length = 0 then none
      else some { proxy with plugins := proxy.plugins ++ additions })

def disassociateLocked (proxyId : ℕ) (configIds : List ℕ) : PluginService J Unit := do
  let _ ← mutateProxyLocked proxyId fun proxy =>
    let kept := proxy.plugins.filter (!configIds.contains ·)
    pure (if kept.length = proxy.plugins.length then none else some { proxy with plugins := kept })

/-- `attach`, under an id the caller has minted or taken over from `live`. -/
def attach (origin : J) (proxyId : ℕ) (pluginName : String) (pluginConfig : Option J)
    (options : EdgePluginOptions J) (id : ℕ) (live : Option (EdgePluginConfig J)) :
    PluginService J (EdgePluginConfig J) := do
  assertBackendEgress
  write (Gateway.createConfig origin id (writeBody proxyId pluginName pluginConfig options live)
    (live.any (·.id == id)))

def undoAttachLocked (proxyId configId : ℕ) : PluginService J Unit := do
  disassociateLocked proxyId [configId]
  write (Gateway.deleteConfig configId)

/-- A config that the delete left is associated again, one that it removed is
recreated under its own id first. -/
def restoreRemoved (origin : J) (proxyId : ℕ) (config : EdgePluginConfig J) :
    Option (EdgePluginConfig J) → PluginService J Unit
  | some _ => associateLocked proxyId [config.id]
  | none => do
    let recreated ← attach origin proxyId config.pluginName config.config
      { enabled := some config.enabled, trigger := config.trigger } config.id (some config)
    associateLocked proxyId [recreated.id]

def undoRemovalLocked (origin : J) (proxyId : ℕ) (config : EdgePluginConfig J) :
    PluginService J Unit := do
  assertBackendEgress
  restoreRemoved origin proxyId config (← edgeRead fun s => s.edge.configs config.id)

/-- The step that writes the original of a replaced config back. -/
def undoReplacement (proxyId : ℕ) (existing : EdgePluginConfig J) : PluginService J Unit := do
  assertBackendEgress
  let _ ← write (Gateway.replaceConfig existing.id (writeBody proxyId existing.pluginName
    existing.config { enabled := some existing.enabled, trigger := existing.trigger }
    (some existing)))

def Undo.run (origin : J) (proxyId : ℕ) : Undo J → PluginService J Unit
  | .removal config => undoRemovalLocked origin proxyId config
  | .replacement existing => undoReplacement proxyId existing
  | .association id => disassociateLocked proxyId [id]
  | .attachment id => undoAttachLocked proxyId id

/-- Registered steps, one after the other. -/
def runUndo (origin : J) (proxyId : ℕ) : List (Undo J) → PluginService J Unit
  | [] => pure ()
  | step :: steps => do
    step.run origin proxyId
    runUndo origin proxyId steps

/-- The association of a replaced config is repaired, and the undo step for that
registered before the write. -/
def repairAssociation (proxyId : ℕ) (existing : EdgePluginConfig J) :
    PluginService J (EdgeProxy J) :=
  mutateProxyLocked proxyId fun proxy =>
    if proxy.plugins.contains existing.id then pure none
    else do
      pushUndo (.association existing.id)
      pure (some { proxy with plugins := proxy.plugins ++ [existing.id] })

/-- Removes the config. -/
def reconcileRemoval (proxyId : ℕ) (existing : EdgePluginConfig J) :
    PluginService J (Option (EdgePluginConfig J)) := do
  pushUndo (.removal existing)
  disassociateLocked proxyId [existing.id]
  write (Gateway.deleteConfig existing.id)
  pure none

/-- Replaces the config, under its id. -/
def reconcileReplacement (proxyId : ℕ) (existing : EdgePluginConfig J) (pluginName : String)
    (settings : J) (options : EdgePluginOptions J) :
    PluginService J (Option (EdgePluginConfig J)) := do
  pushUndo (.replacement existing)
  let replaced ← write (Gateway.replaceConfig existing.id
    (writeBody proxyId pluginName (some settings) options (some existing)))
  let _ ← repairAssociation proxyId existing
  pure (some replaced)

/-- Creates a config under `id`. -/
def reconcileCreation (origin : J) (proxyId : ℕ) (pluginName : String) (settings : J)
    (options : EdgePluginOptions J) (id : ℕ) : PluginService J (Option (EdgePluginConfig J)) := do
  pushUndo (.attachment id)
  let attached ← attach origin proxyId pluginName (some settings) options id none
  associateLocked proxyId [attached.id]
  pure (some attached)

/-- What follows the egress assertion. `newId` is what `newId()` answers. -/
def reconcile (origin : J) (proxyId : ℕ) (pluginName : String) (options : EdgePluginOptions J)
    (newId : ℕ) : Option J → Option (EdgePluginConfig J) →
    PluginService J (Option (EdgePluginConfig J))
  | none, none => pure none
  | none, some existing => reconcileRemoval proxyId existing
  | some settings, some existing =>
    reconcileReplacement proxyId existing pluginName settings options
  | some settings, none =>
    reconcileCreation origin proxyId pluginName settings options (options.id.getD newId)

def reconcileOptionalPluginLocked (origin : J) (proxyId : ℕ)
    (existing : Option (EdgePluginConfig J)) (pluginName : String) (pluginSettings : Option J)
    (options : EdgePluginOptions J) (newId : ℕ) : PluginService J (Option (EdgePluginConfig J)) := do
  assertBackendEgress
  reconcile origin proxyId pluginName options newId pluginSettings existing

end FerrumNexus.Publishing.EdgePlugins
