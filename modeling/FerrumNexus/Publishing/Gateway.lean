import FerrumNexus.Platform.Calls

/-!
# Proxies, plugin configs and specifications on the gateway

The resources of Ferrum Edge that publishing writes. A plugin config scoped to
a proxy runs only while it is enabled and the proxy's own list names it. A
proxy imported with a specification belongs to it, and so do the configs the
importer generated; a second import of the specification re-inserts the proxy
and regenerates those, and leaves the configs made by hand and their
associations alone. Every write moves the namespace token that conditional
writes compare. JSON values the portal only carries around are of an
arbitrary type `J`.
-/
namespace FerrumNexus.Publishing

open Platform

/-- `SpecEnforcementLevel`. -/
inductive Level
  | docsOnly
  | routes
  deriving DecidableEq, Repr

/-- `/<namespace>/<slug>`, or a staging path with a fresh id in it. -/
inductive ListenPath
  | slug (slug : String)
  | staging (id : ℕ)
  deriving DecidableEq, Repr

/-- The submittable fields of a proxy. `settings` is every field the portal
does not change in a rebuild: name, backend, hosts, timeouts, origins. -/
structure ProxyBody (J : Type) where
  id : ℕ
  listenPath : ListenPath
  allowedMethods : Option (List String)
  settings : J
  deriving DecidableEq

/-- A proxy as the gateway holds it, with its association list and the
specification that owns it. -/
structure Proxy (J : Type) where
  body : ProxyBody J
  plugins : List ℕ
  apiSpecId : Option ℕ
  deriving DecidableEq

/-- A plugin config scoped to a proxy. `operator` is every field that is
neither the portal's nor the gateway's. -/
structure PluginConfig (J : Type) where
  id : ℕ
  pluginName : String
  proxyId : ℕ
  enabled : Bool
  config : J
  trigger : Option J
  operator : J
  apiSpecId : Option ℕ
  deriving DecidableEq

/-- A document submitted to the importer: the OpenAPI part, `x-ferrum-proxy`
and `x-ferrum-plugins`. -/
structure SubmittedSpec (J : Type) where
  document : J
  proxy : ProxyBody J
  plugins : List (PluginConfig J)
  deriving DecidableEq

structure ApiSpec (J : Type) where
  id : ℕ
  proxyId : ℕ
  submitted : SubmittedSpec J
  deriving DecidableEq

/-- The gateway's resources in the portal's namespace. -/
structure Edge (J : Type) where
  proxies : ℕ → Option (Proxy J)
  configs : List (PluginConfig J)
  specs : List (ApiSpec J)
  etag : ℕ
  fresh : ℕ

def OPENAPI_VALIDATOR_PLUGIN : String := "openapi_validator"

/-- What `handOwnedPlugins` keeps: neither owned by a specification nor a
validator. -/
def PluginConfig.handOwned {J : Type} (config : PluginConfig J) : Bool :=
  config.apiSpecId == none && config.pluginName != OPENAPI_VALIDATOR_PLUGIN

def handOwnedPlugins {J : Type} (configs : List (PluginConfig J)) : List (PluginConfig J) :=
  configs.filter (·.handOwned)

namespace Edge

variable {J : Type}

/-- `GET /plugins/config` for one proxy. -/
def listByProxy (e : Edge J) (proxyId : ℕ) : List (PluginConfig J) :=
  e.configs.filter (·.proxyId == proxyId)

def findSpecByProxy (e : Edge J) (proxyId : ℕ) : Option (ApiSpec J) :=
  e.specs.find? (·.proxyId == proxyId)

/-- What the gateway does on `proxyId`: the enabled configs the proxy names. -/
def Runs (e : Edge J) (proxyId : ℕ) (config : PluginConfig J) : Prop :=
  config ∈ e.configs ∧ config.proxyId = proxyId ∧ config.enabled = true ∧
    ∃ proxy, e.proxies proxyId = some proxy ∧ config.id ∈ proxy.plugins

instance [DecidableEq J] (e : Edge J) (proxyId : ℕ) (config : PluginConfig J) :
    Decidable (e.Runs proxyId config) :=
  decidable_of_iff (config ∈ e.configs ∧ config.proxyId = proxyId ∧ config.enabled = true ∧
    (e.proxies proxyId).any (config.id ∈ ·.plugins) = true)
    (by simp [Runs, Option.any_eq_true])

/-- Every write gives the namespace a new token. -/
def touch (e : Edge J) : Edge J := { e with etag := e.etag + 1 }

/-- The answer to a request the gateway refuses by itself. -/
def refusal (status : ℕ) : NexusError := edgeFailure (some status)

def putProxy (id : ℕ) (proxy : Option (Proxy J)) (e : Edge J) : Edge J :=
  { e with proxies := Function.update e.proxies id proxy }

/-- `POST /proxies`. -/
def createProxy (body : ProxyBody J) (e : Edge J) : Except NexusError (Unit × Edge J) :=
  match e.proxies body.id with
  | some _ => .error (refusal 409)
  | none => .ok ((), touch (putProxy body.id (some ⟨body, [], none⟩) e))

/-- `PUT /proxies/{id}`: the whole resource but its owner. -/
def replaceProxy (id : ℕ) (body : ProxyBody J) (plugins : List ℕ) (e : Edge J) :
    Except NexusError (Unit × Edge J) :=
  match e.proxies id with
  | none => .error (refusal 404)
  | some proxy => .ok ((), touch (putProxy id (some ⟨body, plugins, proxy.apiSpecId⟩) e))

/-- `POST /plugins/config`. -/
def createConfig (config : PluginConfig J) (e : Edge J) : Except NexusError (Unit × Edge J) :=
  if e.proxies config.proxyId = none then .error (refusal 422)
  else if e.configs.any (·.id == config.id) then .error (refusal 409)
  else .ok ((), touch { e with configs := e.configs ++ [config] })

/-- `DELETE /plugins/config/{id}` takes the associations of the config along;
the client tolerates a 404. -/
def deleteConfig (id : ℕ) (e : Edge J) : Except NexusError (Unit × Edge J) :=
  if e.configs.any (·.id == id) then
    let proxies := fun i =>
      (e.proxies i).map fun proxy => { proxy with plugins := proxy.plugins.filter (· != id) }
    .ok ((), touch { e with proxies, configs := e.configs.filter (·.id != id) })
  else .ok ((), e)

/-- What the importer makes of a document for a proxy and a specification. -/
def generated (importer : SubmittedSpec J → List (PluginConfig J)) (submitted : SubmittedSpec J)
    (proxyId specId : ℕ) : List (PluginConfig J) :=
  (importer submitted).map fun config => { config with proxyId := proxyId, apiSpecId := some specId }

/-- `POST /api-specs`: the proxy and its generated configs, all named by it.
An id that is taken refuses the import. -/
def importSpec (importer : SubmittedSpec J → List (PluginConfig J)) (submitted : SubmittedSpec J)
    (e : Edge J) : Except NexusError ((ℕ × ℕ) × Edge J) :=
  let proxyId := submitted.proxy.id
  let configs := generated importer submitted proxyId e.fresh
  if (e.proxies proxyId).isSome then .error (refusal 409)
  else if ¬ ((e.configs ++ configs).map (·.id)).Nodup then .error (refusal 409)
  else
    let proxy : Proxy J := ⟨submitted.proxy, configs.map (·.id), some e.fresh⟩
    let spec : ApiSpec J := ⟨e.fresh, proxyId, submitted⟩
    let e := { e with configs := e.configs ++ configs, specs := e.specs ++ [spec] }
    .ok ((proxyId, spec.id), touch (putProxy proxyId (some proxy) { e with fresh := e.fresh + 1 }))

/-- `PUT /api-specs/{id}`: the proxy is re-inserted from the document and the
generated configs made again; everything else on the proxy stays. -/
def reimportSpec (importer : SubmittedSpec J → List (PluginConfig J)) (specId : ℕ)
    (submitted : SubmittedSpec J) (e : Edge J) : Except NexusError (Unit × Edge J) :=
  match e.specs.find? (·.id == specId) with
  | none => .error (refusal 404)
  | some spec =>
    match e.proxies spec.proxyId with
    | none => .error (refusal 404)
    | some proxy =>
      let kept := e.configs.filter (·.apiSpecId != some specId)
      let configs := generated importer submitted spec.proxyId specId
      if submitted.proxy.id ≠ spec.proxyId then .error (refusal 422)
      else if ¬ ((kept ++ configs).map (·.id)).Nodup then .error (refusal 409)
      else
        let dropped := (e.configs.filter (·.apiSpecId == some specId)).map (·.id)
        let plugins := proxy.plugins.filter (!dropped.contains ·) ++ configs.map (·.id)
        let specs := e.specs.map fun row => if row.id = specId then { row with submitted } else row
        let e := { e with configs := kept ++ configs, specs }
        .ok ((), touch (putProxy spec.proxyId (some ⟨submitted.proxy, plugins, some specId⟩) e))

/-- `DELETE /proxies/{id}` takes its configs and its specification along. -/
def removeProxy (id : ℕ) (e : Edge J) : Except NexusError (Unit × Edge J) :=
  match e.proxies id with
  | none => .error (refusal 404)
  | some _ =>
    let e := { e with
      configs := e.configs.filter (·.proxyId != id)
      specs := e.specs.filter (·.proxyId != id) }
    .ok ((), touch (putProxy id none e))

/-- `edge.proxies.delete`, which tolerates a 404. -/
def deleteProxy (id : ℕ) (e : Edge J) : Except NexusError (Unit × Edge J) :=
  match removeProxy id e with
  | .ok answer => .ok answer
  | .error _ => .ok ((), e)

/-- A conditional write: refused unless the namespace still has the token. -/
def ifMatch {α : Type} (etag : ℕ) (f : Edge J → Except NexusError (α × Edge J)) (e : Edge J) :
    Except NexusError (α × Edge J) :=
  if e.etag = etag then f e else .error (refusal 412)

/-- The keys of the gateway's tables. -/
structure WellFormed (e : Edge J) : Prop where
  ids : (e.configs.map (·.id)).Nodup
  keyed : ∀ id proxy, e.proxies id = some proxy → proxy.body.id = id

end Edge

end FerrumNexus.Publishing
