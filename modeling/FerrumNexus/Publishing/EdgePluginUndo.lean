import FerrumNexus.Publishing.EdgePlugins

/-!
# Taking a reconciliation back

What one config and its place in the proxy's list are at each point of
`reconcileOptionalPluginLocked`, next to everything that is never touched, and
what the registered steps make of it.
-/
namespace FerrumNexus.Publishing.EdgePlugins

open Saga Platform

variable {J : Type} {origin : J}

/-- What the proxy runs: the enabled configs of its own that its list names. -/
def Gateway.Runs (e : Gateway J) (proxyId id : ℕ) : Prop :=
  e.Lists proxyId id ∧
    ∃ config, e.configs id = some config ∧ config.proxyId = proxyId ∧ config.enabled = true

/-- Name, enabled flag, trigger, settings and operator-owned fields. -/
def EdgePluginConfig.settings (config : EdgePluginConfig J) :
    String × Bool × Option J × Option J × Fields J :=
  (config.pluginName, config.enabled, config.trigger, config.config,
    operatorOwnedFields (some config))

/-- The fields of a proxy that are neither its list nor the gateway's own. -/
def EdgeProxy.fields (proxy : EdgeProxy J) : Fields J :=
  proxy.rest.filter fun entry => !SERVER_OWNED_PROXY_FIELDS.contains entry.1

/-- Between `e₀` and `e`, only the config `id` and its place in the list of the
proxy may differ. -/
structure Untouched (proxyId id : ℕ) (e₀ e : Gateway J) : Prop where
  proxies : ∀ p, p ≠ proxyId → e.proxies p = e₀.proxies p
  fields : (e.proxies proxyId).map EdgeProxy.fields = (e₀.proxies proxyId).map EdgeProxy.fields
  lists : ∀ i, i ≠ id → (e.Lists proxyId i ↔ e₀.Lists proxyId i)
  configs : ∀ i, i ≠ id → e.configs i = e₀.configs i

/-- The proxy runs what it ran, and every config is set as it was. -/
structure Restored (proxyId : ℕ) (e₀ e : Gateway J) : Prop where
  runs : ∀ i, e.Runs proxyId i ↔ e₀.Runs proxyId i
  settings : ∀ i, (e.configs i).map EdgePluginConfig.settings =
    (e₀.configs i).map EdgePluginConfig.settings

/-- `e` as it came from `e₀`, with the given config, listed or not. -/
structure Amid (proxyId id : ℕ) (e₀ : Gateway J) (config : Option (EdgePluginConfig J))
    (listed : Prop) (e : Gateway J) : Prop where
  untouched : Untouched proxyId id e₀ e
  present : (e.proxies proxyId).isSome
  config : e.configs id = config
  listed : e.Lists proxyId id ↔ listed

variable {proxyId id : ℕ} {e₀ e : Gateway J} {config : Option (EdgePluginConfig J)}
  {listed : Prop}

theorem Untouched.refl (proxyId id : ℕ) (e₀ : Gateway J) : Untouched proxyId id e₀ e₀ where
  proxies := fun _ _ => rfl
  fields := rfl
  lists := fun _ _ => Iff.rfl
  configs := fun _ _ => rfl

variable (id) in
theorem Amid.start (hpresent : (e₀.proxies proxyId).isSome) :
    Amid proxyId id e₀ (e₀.configs id) (e₀.Lists proxyId id) e₀ :=
  ⟨.refl proxyId id e₀, hpresent, rfl, Iff.rfl⟩

theorem Amid.putConfig (h : Amid proxyId id e₀ config listed e)
    (config' : Option (EdgePluginConfig J)) :
    Amid proxyId id e₀ config' listed (e.putConfig id config') where
  untouched := {
    proxies := h.untouched.proxies
    fields := h.untouched.fields
    lists := h.untouched.lists
    configs := by
      intro i hi
      simp only [Gateway.putConfig, Function.update_of_ne hi]
      exact h.untouched.configs i hi }
  present := h.present
  config := Function.update_self ..
  listed := h.listed

/-- The list of the proxy is written, and only the given config comes or goes. -/
theorem Amid.putProxy (h : Amid proxyId id e₀ config listed e) {proxy : EdgeProxy J}
    (hproxy : e.proxies proxyId = some proxy) (written : EdgeProxy J)
    (hfields : written.fields = proxy.fields)
    (hothers : ∀ i, i ≠ id → (i ∈ written.plugins ↔ i ∈ proxy.plugins)) :
    Amid proxyId id e₀ config (id ∈ written.plugins) (e.putProxy proxyId written) := by
  have hwritten : (e.putProxy proxyId written).proxies proxyId = some written :=
    Function.update_self ..
  have hlists : ∀ i, (e.putProxy proxyId written).Lists proxyId i ↔ i ∈ written.plugins := by
    intro i
    unfold Gateway.Lists
    rw [hwritten]
    simp
  refine ⟨⟨fun p hp => ?_, ?_, fun i hi => ?_, h.untouched.configs⟩, ?_, h.config, hlists id⟩
  · simp only [Gateway.putProxy, Function.update_of_ne hp]
    exact h.untouched.proxies p hp
  · rw [← h.untouched.fields, hwritten, hproxy, Option.map_some, Option.map_some, hfields]
  · rw [hlists, hothers i hi, ← h.untouched.lists i hi]
    unfold Gateway.Lists
    rw [hproxy]
    simp
  · rw [hwritten]
    rfl

theorem Amid.relist (h : Amid proxyId id e₀ config listed e) {listed' : Prop}
    (hlisted : e.Lists proxyId id ↔ listed') : Amid proxyId id e₀ config listed' e :=
  { h with listed := hlisted }

theorem Gateway.lists_iff {proxy : EdgeProxy J} (h : e.proxies proxyId = some proxy) (i : ℕ) :
    e.Lists proxyId i ↔ i ∈ proxy.plugins := by
  unfold Gateway.Lists
  rw [h]
  simp

/-- A proxy as it stands after its own fields are written back with another
list. -/
def EdgeProxy.withPlugins (proxy : EdgeProxy J) (plugins : List ℕ) : EdgeProxy J :=
  ⟨plugins, proxy.fields ++
    proxy.rest.filter fun entry => SERVER_OWNED_PROXY_FIELDS.contains entry.1⟩

theorem EdgeProxy.fields_withPlugins (proxy : EdgeProxy J) (plugins : List ℕ) :
    (proxy.withPlugins plugins).fields = proxy.fields := by
  simp [EdgeProxy.withPlugins, EdgeProxy.fields, List.filter_filter]

theorem Gateway.replaceProxy_own {proxy : EdgeProxy J} (h : e.proxies proxyId = some proxy)
    (plugins : List ℕ) : Gateway.replaceProxy proxyId ⟨plugins, proxy.fields⟩ e =
      .ok ((), e.putProxy proxyId (proxy.withPlugins plugins)) := by
  rw [Gateway.replaceProxy, h]
  rfl

/-! ## One call -/

section Calls

variable {s : Held J} {α : Type} {Q : Unit → Held J → Prop} {E : NexusError → Held J → Prop}

/-- Every state a call leaves differs from the first only in the given config. -/
def Within (proxyId id : ℕ) (e₀ : Gateway J) (_ s : Held J) : Prop :=
  Untouched proxyId id e₀ s.edge

theorem wpe_assertBackendEgress
    (h : Amid proxyId id e₀ config listed s.edge) (hQ : Q () s) (hE : ∀ e, E e s) :
    wpe Eq (Within proxyId id e₀) assertBackendEgress Q E s := by
  apply wpe_edgeRead
  rintro _ rfl
  exact ⟨h.untouched, hQ, fun _ => hE _⟩

theorem wpe_pushUndo {step : Undo J} (h : Amid proxyId id e₀ config listed s.edge)
    (hQ : Q () { s with undo := s.undo ++ [step] }) :
    wpe Eq (Within proxyId id e₀) (pushUndo step) Q E s := by
  rw [pushUndo, wpe_atomic]
  rintro _ rfl c r s' hf
  cases hf
  exact ⟨h.untouched, hQ⟩

/-- A write that is applied and acknowledged, applied and not acknowledged, or
not applied. -/
theorem wpe_write {f : Gateway J → Except NexusError (α × Gateway J)} {a : α} {e' : Gateway J}
    {config' : Option (EdgePluginConfig J)} {listed' : Prop} {Q : α → Held J → Prop}
    (h : Amid proxyId id e₀ config listed s.edge)
    (hf : f s.edge = .ok (a, e')) (h' : Amid proxyId id e₀ config' listed' e')
    (hQ : Q a { s with edge := e' }) (hE : ∀ e, E e s ∧ E e { s with edge := e' }) :
    wpe Eq (Within proxyId id e₀) (write f) Q E s := by
  apply wpe_edgeWrite
  · rintro _ rfl b s' hok
    rw [hf] at hok
    cases hok
    exact ⟨h'.untouched, hQ, fun _ _ => (hE _).2⟩
  · rintro _ rfl e herr
    rw [hf] at herr
    cases herr
  · rintro _ rfl
    exact ⟨h.untouched, fun _ => (hE _).1⟩

theorem wpe_writeProxy {proxy : EdgeProxy J} {plugins : List ℕ}
    {Q : EdgeProxy J → Held J → Prop}
    (h : Amid proxyId id e₀ config listed s.edge) (hproxy : s.edge.proxies proxyId = some proxy)
    (hothers : ∀ i, i ≠ id → (i ∈ plugins ↔ i ∈ proxy.plugins))
    (hQ : ∀ e', Amid proxyId id e₀ config (id ∈ plugins) e' → Q proxy { s with edge := e' })
    (hE : ∀ e, E e s ∧ ∀ e', Amid proxyId id e₀ config (id ∈ plugins) e' →
      E e { s with edge := e' }) :
    wpe Eq (Within proxyId id e₀) (writeProxy proxyId proxy (some { proxy with plugins })) Q E
      s := by
  have hwritten := h.putProxy hproxy (proxy.withPlugins plugins)
    (proxy.fields_withPlugins plugins) hothers
  rw [writeProxy, wpe_bind]
  apply wpe_write h (Gateway.replaceProxy_own hproxy plugins) hwritten
  · exact hQ _ hwritten
  · exact fun e => ⟨(hE e).1, (hE e).2 _ hwritten⟩

/-- The proxy that a mutation reads is there. -/
theorem wpe_mutateProxyLocked
    {change : EdgeProxy J → PluginService J (Option (EdgeProxy J))}
    {Q : EdgeProxy J → Held J → Prop}
    (h : Amid proxyId id e₀ config listed s.edge)
    (hchange : ∀ proxy, s.edge.proxies proxyId = some proxy →
      wpe Eq (Within proxyId id e₀) (change proxy >>= writeProxy proxyId proxy) Q E s)
    (hE : ∀ e, E e s) : wpe Eq (Within proxyId id e₀) (mutateProxyLocked proxyId change) Q E s := by
  obtain ⟨proxy, hproxy⟩ := Option.isSome_iff_exists.mp h.present
  rw [mutateProxyLocked, wpe_bind]
  apply wpe_edgeRead
  rintro _ rfl
  refine ⟨h.untouched, ?_, fun _ => hE _⟩
  rw [hproxy]
  exact hchange proxy hproxy

/-- A mutation rewrites the associations of the proxy it reads, unless the config
is listed as wanted already. -/
theorem wpe_relistLocked {p : EdgeProxy J → Prop} [DecidablePred p]
    {edit : EdgeProxy J → List ℕ} {wanted : Prop}
    (h : Amid proxyId id e₀ config listed s.edge)
    (hdone : ∀ proxy, p proxy → (id ∈ proxy.plugins ↔ wanted))
    (hedit : ∀ proxy, id ∈ edit proxy ↔ wanted)
    (hothers : ∀ proxy i, i ≠ id → (i ∈ edit proxy ↔ i ∈ proxy.plugins))
    (hQ : ∀ e', Amid proxyId id e₀ config wanted e' → Q () { s with edge := e' })
    (hE : ∀ e, E e s ∧ ∀ e', Amid proxyId id e₀ config wanted e' → E e { s with edge := e' }) :
    wpe Eq (Within proxyId id e₀) (do
      let _ ← mutateProxyLocked proxyId fun proxy =>
        pure (if p proxy then none else some { proxy with plugins := edit proxy })) Q E s := by
  rw [wpe_bind]
  apply wpe_mutateProxyLocked h _ fun err => (hE err).1
  intro proxy hproxy
  have hlists := Gateway.lists_iff hproxy id
  rw [wpe_bind, wpe_pure]
  by_cases hp : p proxy
  · rw [if_pos hp]
    exact hQ s.edge (h.relist (hlists.trans (hdone proxy hp)))
  · rw [if_neg hp]
    apply wpe_writeProxy h hproxy (hothers proxy)
    · exact fun e' he' => hQ e' (he'.relist (he'.listed.trans (hedit proxy)))
    · exact fun err => ⟨(hE err).1,
        fun e' he' => (hE err).2 e' (he'.relist (he'.listed.trans (hedit proxy)))⟩

theorem wpe_associateLocked
    (h : Amid proxyId id e₀ config listed s.edge)
    (hQ : ∀ e', Amid proxyId id e₀ config True e' → Q () { s with edge := e' })
    (hE : ∀ e, E e s ∧ ∀ e', Amid proxyId id e₀ config True e' → E e { s with edge := e' }) :
    wpe Eq (Within proxyId id e₀) (associateLocked proxyId [id]) Q E s := by
  apply wpe_relistLocked h _ _ _ hQ hE
  · intro proxy hdone
    simpa using hdone
  · intro proxy
    by_cases hmem : id ∈ proxy.plugins <;> simp [hmem]
  · intro proxy i hi
    simp [hi]

theorem wpe_disassociateLocked
    (h : Amid proxyId id e₀ config listed s.edge)
    (hQ : ∀ e', Amid proxyId id e₀ config False e' → Q () { s with edge := e' })
    (hE : ∀ e, E e s ∧ ∀ e', Amid proxyId id e₀ config False e' → E e { s with edge := e' }) :
    wpe Eq (Within proxyId id e₀) (disassociateLocked proxyId [id]) Q E s := by
  apply wpe_relistLocked h _ _ _ hQ hE
  · intro proxy hdone
    have hkept := List.length_filter_eq_length_iff.mp hdone id
    simpa using hkept
  · intro proxy
    simp
  · intro proxy i hi
    simp [hi]

/-- An unlisted config may be deleted, and one that is gone already is. -/
theorem wpe_deleteConfig
    (h : Amid proxyId id e₀ config False s.edge)
    (hown : ∀ stored, config = some stored → stored.proxyId = proxyId)
    (hQ : ∀ e', Amid proxyId id e₀ none False e' → Q () { s with edge := e' })
    (hE : ∀ e, E e s ∧ ∀ e', Amid proxyId id e₀ none False e' → E e { s with edge := e' }) :
    wpe Eq (Within proxyId id e₀) (write (Gateway.deleteConfig id)) Q E s := by
  cases hconfig : config with
  | none =>
    rw [hconfig] at h
    apply wpe_write h (a := ()) _ h
    · exact hQ _ h
    · exact fun err => ⟨(hE err).1, (hE err).1⟩
    · rw [Gateway.deleteConfig, h.config]
  | some stored =>
    have hgone := h.putConfig none
    apply wpe_write h (a := ()) _ hgone
    · exact hQ _ hgone
    · exact fun err => ⟨(hE err).1, (hE err).2 _ hgone⟩
    · have hunlisted : ¬ s.edge.Lists stored.proxyId id := by
        rw [hown stored hconfig, h.listed]
        exact not_false
      rw [Gateway.deleteConfig, h.config, hconfig]
      exact if_neg hunlisted

theorem wpe_createConfig {body : EdgePluginConfigWrite J} {preserveLabels : Bool}
    {Q : EdgePluginConfig J → Held J → Prop}
    (h : Amid proxyId id e₀ none listed s.edge) (hbody : body.proxyId = proxyId)
    (hQ : ∀ e', Amid proxyId id e₀ (some (created origin id body preserveLabels)) listed e' →
      Q (created origin id body preserveLabels) { s with edge := e' })
    (hE : ∀ e, E e s ∧ ∀ e', Amid proxyId id e₀ (some (created origin id body preserveLabels))
      listed e' → E e { s with edge := e' }) :
    wpe Eq (Within proxyId id e₀)
      (write (Gateway.createConfig origin id body preserveLabels)) Q E s := by
  have hmade := h.putConfig (some (created origin id body preserveLabels))
  obtain ⟨proxy, hproxy⟩ := Option.isSome_iff_exists.mp h.present
  apply wpe_write h _ hmade
  · exact hQ _ hmade
  · exact fun err => ⟨(hE err).1, (hE err).2 _ hmade⟩
  · rw [Gateway.createConfig, hbody, hproxy, h.config]

theorem wpe_replaceConfig {stored : EdgePluginConfig J} {body : EdgePluginConfigWrite J}
    {Q : EdgePluginConfig J → Held J → Prop}
    (h : Amid proxyId id e₀ (some stored) listed s.edge)
    (hQ : ∀ e', Amid proxyId id e₀ (some (stored.replacedBy body)) listed e' →
      Q (stored.replacedBy body) { s with edge := e' })
    (hE : ∀ e, E e s ∧ ∀ e', Amid proxyId id e₀ (some (stored.replacedBy body)) listed e' →
      E e { s with edge := e' }) :
    wpe Eq (Within proxyId id e₀) (write (Gateway.replaceConfig id body)) Q E s := by
  have hmade := h.putConfig (some (stored.replacedBy body))
  apply wpe_write h _ hmade
  · exact hQ _ hmade
  · exact fun err => ⟨(hE err).1, (hE err).2 _ hmade⟩
  · rw [Gateway.replaceConfig, h.config]

end Calls

/-! ## Bodies that put a config back -/

theorem spread_nil (updates : Fields J) : spread [] updates = updates := by
  simp [spread]

theorem mem_spread {fields updates : Fields J} {entry : String × Option J}
    (h : entry ∈ spread fields updates) :
    (∃ old ∈ fields, old.1 = entry.1 ∧ entry = old) ∨ entry ∈ updates := by
  rw [spread, List.mem_append, List.mem_map, List.mem_filter] at h
  rcases h with ⟨old, hold, heq⟩ | ⟨hupdate, -⟩
  · cases hfound : updates.find? (·.1 == old.1) with
    | none =>
      rw [hfound] at heq
      exact Or.inl ⟨old, hold, congrArg Prod.fst heq, heq.symm⟩
    | some found =>
      rw [hfound] at heq
      exact Or.inr (heq ▸ List.mem_of_find?_eq_some hfound)
  · exact Or.inr hupdate

theorem operatorOwned_filter (live : EdgePluginConfig J) :
    (operatorOwnedFields (some live)).filter operatorOwned = operatorOwnedFields (some live) := by
  simp [operatorOwnedFields, List.filter_filter]

/-- The body an undo step writes for a config. -/
def restoringBody (proxyId : ℕ) (config : EdgePluginConfig J) : EdgePluginConfigWrite J :=
  writeBody proxyId config.pluginName config.config
    { enabled := some config.enabled, trigger := config.trigger } (some config)

/-- Labels come from the original. -/
def LabelsFrom (original config : EdgePluginConfig J) : Prop :=
  ∀ labels, ("labels", some labels) ∈ config.rest → ∃ labels, ("labels", some labels) ∈ original.rest

theorem restoringBody_rest (config : EdgePluginConfig J) :
    (restoringBody proxyId config).rest = operatorOwnedFields (some config) :=
  spread_nil _

theorem operatorOwned_labels (labels : J) : operatorOwned ("labels", some labels) = true := rfl

/-- Nothing an operator owns is kept besides what the body carries. -/
theorem retained_operatorOwned {original stored : EdgePluginConfig J}
    (h : LabelsFrom original stored) :
    (stored.rest.filter (retained (restoringBody proxyId original))).filter operatorOwned = [] := by
  rw [List.filter_filter, List.filter_eq_nil_iff]
  rintro ⟨name, value⟩ hmem hboth
  rw [Bool.and_eq_true] at hboth
  obtain ⟨howned, hretained⟩ := hboth
  rw [retained, Bool.or_eq_true] at hretained
  rcases hretained with hserver | hlabels
  · simp only [operatorOwned, hserver, Bool.or_true, Bool.not_true, Bool.false_and] at howned
    cases howned
  · rw [Bool.and_eq_true, beq_iff_eq] at hlabels
    obtain ⟨hname, hmissing⟩ := hlabels
    obtain ⟨labels, hvalue⟩ : ∃ labels, value = some labels := by
      apply Option.isSome_iff_exists.mp
      rw [operatorOwned, Bool.and_eq_true] at howned
      exact howned.2
    dsimp only at hname
    subst hname hvalue
    obtain ⟨carried, hcarried⟩ := h labels hmem
    rw [restoringBody_rest, Bool.not_eq_true', List.any_eq_false] at hmissing
    exact hmissing _ (List.mem_filter.mpr ⟨hcarried, operatorOwned_labels carried⟩) (by simp)

theorem settings_replacedBy {original stored : EdgePluginConfig J}
    (h : LabelsFrom original stored) :
    (stored.replacedBy (restoringBody proxyId original)).settings = original.settings := by
  have hrest : operatorOwnedFields (some (stored.replacedBy (restoringBody proxyId original))) =
      operatorOwnedFields (some original) := by
    show List.filter operatorOwned (_ ++ _) = _
    rw [List.filter_append, restoringBody_rest, operatorOwned_filter, retained_operatorOwned h,
      List.append_nil]
  unfold EdgePluginConfig.settings
  rw [hrest]
  rfl

theorem settings_created (original : EdgePluginConfig J) :
    (created origin original.id (restoringBody proxyId original) true).settings =
      original.settings := by
  have hrest : operatorOwnedFields
      (some (created origin original.id (restoringBody proxyId original) true)) =
      operatorOwnedFields (some original) := by
    show List.filter operatorOwned (_ ++ []) = _
    rw [List.append_nil, restoringBody_rest, operatorOwned_filter]
  unfold EdgePluginConfig.settings
  rw [hrest]
  rfl

/-- A replace for a config takes its labels from nowhere else. -/
theorem labelsFrom_replacedBy (original : EdgePluginConfig J) (pluginName : String)
    (settings : Option J) (options : EdgePluginOptions J) :
    LabelsFrom original
      (original.replacedBy (writeBody proxyId pluginName settings options (some original))) := by
  intro labels hmem
  rcases List.mem_append.mp hmem with hbody | hkept
  · rcases mem_spread hbody with ⟨old, hold, -, heq⟩ | howned
    · rw [← heq, List.mem_map] at hold
      obtain ⟨priority, -, hpriority⟩ := hold
      simp at hpriority
    · exact ⟨labels, (List.mem_filter.mp howned).1⟩
  · exact ⟨labels, (List.mem_filter.mp hkept).1⟩

/-! ## The registered steps -/

/-- The proxy and every other config are as they were, and so is the given one. -/
theorem Amid.restored (h : Amid proxyId id e₀ config listed e)
    (hsettings : config.map EdgePluginConfig.settings =
      (e₀.configs id).map EdgePluginConfig.settings)
    (hruns : (listed ∧ ∃ c, config = some c ∧ c.proxyId = proxyId ∧ c.enabled = true) ↔
      e₀.Runs proxyId id) : Restored proxyId e₀ e where
  runs := by
    intro i
    by_cases hi : i = id
    · subst hi
      rw [← hruns, ← h.listed, ← h.config]
      rfl
    · unfold Gateway.Runs
      rw [h.untouched.lists i hi, h.untouched.configs i hi]
  settings := by
    intro i
    by_cases hi : i = id
    · subst hi
      rw [h.config]
      exact hsettings
    · rw [h.untouched.configs i hi]

/-- The registered steps, run in reverse order, restore the proxy if they
succeed. -/
def UndoRestores (origin : J) (proxyId id : ℕ) (e₀ : Gateway J) (s : Held J) : Prop :=
  wpe Eq (Within proxyId id e₀) (runUndo origin proxyId s.undo.reverse)
    (fun _ s' => Restored proxyId e₀ s'.edge) (fun _ _ => True) s

/-- Whatever the outcome of each call, the registered steps restore the proxy,
and nothing but the config and its place in the list is ever changed. -/
def Undoable (origin : J) (proxyId : ℕ) (e₀ : Gateway J) (existing : Option (EdgePluginConfig J))
    (pluginName : String) (pluginSettings : Option J) (options : EdgePluginOptions J)
    (newId : ℕ) : Prop :=
  let id := (existing.map (·.id)).getD (options.id.getD newId)
  wpe Eq (Within proxyId id e₀)
    (reconcileOptionalPluginLocked origin proxyId existing pluginName pluginSettings options newId)
    (fun _ s => UndoRestores origin proxyId id e₀ s)
    (fun _ s => UndoRestores origin proxyId id e₀ s) ⟨e₀, []⟩

section Steps

variable {s : Held J} {existing : EdgePluginConfig J}

/-- What runs of a config that is there, in the proxy's own scope. -/
theorem runs_iff (hconfig : e₀.configs id = some existing) (hown : existing.proxyId = proxyId) :
    e₀.Runs proxyId id ↔ e₀.Lists proxyId id ∧ existing.enabled = true := by
  unfold Gateway.Runs
  rw [hconfig]
  simp [hown]

/-- A config that is back, or never went, is listed by the step. -/
theorem restored_listed (hconfig : e₀.configs existing.id = some existing)
    (hown : existing.proxyId = proxyId)
    (hlisted : e₀.Lists proxyId existing.id ∨ existing.enabled = false)
    {back : EdgePluginConfig J} (hsettings : back.settings = existing.settings)
    (hback : back.proxyId = proxyId) (h : Amid proxyId existing.id e₀ (some back) True e) :
    Restored proxyId e₀ e := by
  have henabled : back.enabled = existing.enabled :=
    congrArg (fun settings => settings.2.1) hsettings
  apply h.restored
  · rw [hconfig, Option.map_some, Option.map_some, hsettings]
  · rw [runs_iff hconfig hown]
    simp only [Option.some.injEq, exists_eq_left', hback, henabled, true_and]
    constructor
    · intro hruns
      rcases hlisted with hlisted | hdisabled
      · exact ⟨hlisted, hruns⟩
      · rw [hdisabled] at hruns
        cases hruns
    · exact And.right

theorem undo_removal (hconfig : e₀.configs existing.id = some existing)
    (hown : existing.proxyId = proxyId)
    (hlisted : e₀.Lists proxyId existing.id ∨ existing.enabled = false)
    (hundo : s.undo = [.removal existing]) (h : Amid proxyId existing.id e₀ config listed s.edge)
    (hamid : config = some existing ∨ config = none) :
    UndoRestores origin proxyId existing.id e₀ s := by
  unfold UndoRestores
  rw [hundo]
  refine wpe_call (M := fun _ s' => Restored proxyId e₀ s'.edge) (F := fun _ _ => True) ?_
    (fun _ _ hrestored => hrestored) fun _ _ _ => trivial
  show wpe Eq _ (undoRemovalLocked origin proxyId existing) _ _ s
  rw [undoRemovalLocked, wpe_bind]
  apply wpe_assertBackendEgress h _ fun _ => trivial
  rw [wpe_bind]
  apply wpe_edgeRead
  rintro _ rfl
  refine ⟨h.untouched, ?_, fun _ => trivial⟩
  rw [h.config]
  rcases hamid with rfl | rfl
  · apply wpe_associateLocked h
    · exact fun e' he' => restored_listed hconfig hown hlisted rfl hown he'
    · exact fun _ => ⟨trivial, fun _ _ => trivial⟩
  · show wpe Eq _ (attach origin proxyId existing.pluginName existing.config _ existing.id
      (some existing) >>= fun recreated => associateLocked proxyId [recreated.id]) _ _ _
    rw [wpe_bind, attach, wpe_bind]
    apply wpe_assertBackendEgress h _ fun _ => trivial
    have hlabels : (some existing).any (·.id == existing.id) = true := by simp
    rw [hlabels]
    apply wpe_createConfig h rfl
    · intro e' he'
      apply wpe_associateLocked he'
      · exact fun e'' he'' => restored_listed hconfig hown hlisted (settings_created existing) rfl
          he''
      · exact fun _ => ⟨trivial, fun _ _ => trivial⟩
    · exact fun _ => ⟨trivial, fun _ _ => trivial⟩

theorem undo_attachment (hnew : e₀.configs id = none) (hundo : s.undo = [.attachment id])
    (h : Amid proxyId id e₀ config listed s.edge)
    (hown : ∀ made, config = some made → made.proxyId = proxyId) :
    UndoRestores origin proxyId id e₀ s := by
  unfold UndoRestores
  rw [hundo]
  refine wpe_call (M := fun _ s' => Restored proxyId e₀ s'.edge) (F := fun _ _ => True) ?_
    (fun _ _ hrestored => hrestored) fun _ _ _ => trivial
  show wpe Eq _ (undoAttachLocked proxyId id) _ _ s
  rw [undoAttachLocked, wpe_bind]
  apply wpe_disassociateLocked h
  · intro e' he'
    apply wpe_deleteConfig he' hown
    · intro e'' he''
      apply he''.restored
      · rw [hnew]
      · unfold Gateway.Runs
        rw [hnew]
        simp
    · exact fun _ => ⟨trivial, fun _ _ => trivial⟩
  · exact fun _ => ⟨trivial, fun _ _ => trivial⟩

variable {stored : EdgePluginConfig J}

/-- The original of a replaced config is written back, its list being as it was. -/
theorem restores_replacement {E : NexusError → Held J → Prop}
    (hconfig : e₀.configs existing.id = some existing) (hown : existing.proxyId = proxyId)
    (h : Amid proxyId existing.id e₀ (some stored) (e₀.Lists proxyId existing.id) s.edge)
    (hlabels : LabelsFrom existing stored) (hE : ∀ err s', E err s') :
    wpe Eq (Within proxyId existing.id e₀) (undoReplacement proxyId existing)
      (fun _ s' => Restored proxyId e₀ s'.edge) E s := by
  have hsettings : (stored.replacedBy (restoringBody proxyId existing)).settings =
      existing.settings := settings_replacedBy hlabels
  have henabled : (stored.replacedBy (restoringBody proxyId existing)).enabled =
      existing.enabled := rfl
  rw [undoReplacement, wpe_bind]
  apply wpe_assertBackendEgress h _ fun _ => hE _ _
  rw [wpe_bind]
  apply wpe_replaceConfig h
  · intro e' he'
    apply he'.restored
    · rw [hconfig, Option.map_some, Option.map_some]
      exact congrArg some hsettings
    · rw [runs_iff hconfig hown]
      constructor
      · rintro ⟨hlisted, back, hback, -, hruns⟩
        rw [← Option.some.inj hback] at hruns
        exact ⟨hlisted, hruns⟩
      · exact fun ⟨hlisted, hruns⟩ => ⟨hlisted, _, rfl, rfl, hruns⟩
  · exact fun _ => ⟨hE _ _, fun _ _ => hE _ _⟩

theorem undo_replacement (hconfig : e₀.configs existing.id = some existing)
    (hown : existing.proxyId = proxyId) (hlabels : LabelsFrom existing stored)
    (hundo : s.undo = [.replacement existing])
    (h : Amid proxyId existing.id e₀ (some stored) (e₀.Lists proxyId existing.id) s.edge) :
    UndoRestores origin proxyId existing.id e₀ s := by
  unfold UndoRestores
  rw [hundo]
  refine wpe_call (M := fun _ s' => Restored proxyId e₀ s'.edge) (F := fun _ _ => True) ?_
    (fun _ _ hrestored => hrestored) fun _ _ _ => trivial
  exact restores_replacement hconfig hown h hlabels fun _ _ => trivial

/-- The association a replace repaired goes first. -/
theorem undo_association (hconfig : e₀.configs existing.id = some existing)
    (hown : existing.proxyId = proxyId) (hunlisted : ¬ e₀.Lists proxyId existing.id)
    (hlabels : LabelsFrom existing stored)
    (hundo : s.undo = [.replacement existing, .association existing.id])
    (h : Amid proxyId existing.id e₀ (some stored) listed s.edge) :
    UndoRestores origin proxyId existing.id e₀ s := by
  unfold UndoRestores
  rw [hundo]
  show wpe Eq _ (disassociateLocked proxyId [existing.id] >>= fun _ =>
    undoReplacement proxyId existing >>= fun _ => pure ()) _ _ s
  rw [wpe_bind]
  apply wpe_disassociateLocked h
  · intro e' he'
    rw [wpe_bind]
    have hback := he'.relist (he'.listed.trans (iff_of_false not_false hunlisted))
    exact restores_replacement hconfig hown hback hlabels fun _ _ => trivial
  · exact fun _ => ⟨trivial, fun _ _ => trivial⟩

end Steps

/-! ## Reconciliation -/

section Reconciliation

variable {existing : EdgePluginConfig J} {s : Held J}

theorem undoable_removal (hpresent : (e₀.proxies proxyId).isSome)
    (hconfig : e₀.configs existing.id = some existing) (hown : existing.proxyId = proxyId)
    (hlisted : e₀.Lists proxyId existing.id ∨ existing.enabled = false) :
    wpe Eq (Within proxyId existing.id e₀) (reconcileRemoval proxyId existing)
      (fun _ s => UndoRestores origin proxyId existing.id e₀ s)
      (fun _ s => UndoRestores origin proxyId existing.id e₀ s) ⟨e₀, []⟩ := by
  have hstart := Amid.start existing.id hpresent
  rw [hconfig] at hstart
  have hundo : ∀ {config listed e'}, config = some existing ∨ config = none →
      Amid proxyId existing.id e₀ config listed e' →
      UndoRestores origin proxyId existing.id e₀ ⟨e', [.removal existing]⟩ :=
    fun hamid h => undo_removal hconfig hown hlisted rfl h hamid
  rw [reconcileRemoval, wpe_bind]
  apply wpe_pushUndo hstart
  rw [wpe_bind]
  apply wpe_disassociateLocked hstart
  · intro e' he'
    rw [wpe_bind]
    apply wpe_deleteConfig he'
    · intro stored hstored
      rw [← Option.some.inj hstored]
      exact hown
    · exact fun e'' he'' => hundo (Or.inr rfl) he''
    · exact fun _ => ⟨hundo (Or.inl rfl) he', fun e'' he'' => hundo (Or.inr rfl) he''⟩
  · exact fun _ => ⟨hundo (Or.inl rfl) hstart, fun e' he' => hundo (Or.inl rfl) he'⟩

/-- The repair of an association: the undo step for it is registered before the
write, and only where there is something to repair. -/
theorem wpe_repairAssociation {stored : EdgePluginConfig J} {Q : EdgeProxy J → Held J → Prop}
    {E : NexusError → Held J → Prop}
    (h : Amid proxyId existing.id e₀ (some stored) listed s.edge)
    (hlisted : listed → ∀ proxy, Q proxy s)
    (hrepaired : ¬ listed → ∀ proxy e' listed',
      Amid proxyId existing.id e₀ (some stored) listed' e' →
      Q proxy ⟨e', s.undo ++ [.association existing.id]⟩ ∧
        ∀ err, E err ⟨e', s.undo ++ [.association existing.id]⟩)
    (hE : ∀ err, E err s) :
    wpe Eq (Within proxyId existing.id e₀) (repairAssociation proxyId existing) Q E s := by
  apply wpe_mutateProxyLocked h
  · intro proxy hproxy
    have hlists := Gateway.lists_iff hproxy existing.id
    rw [h.listed] at hlists
    by_cases hmem : existing.id ∈ proxy.plugins
    · rw [if_pos (by simp [hmem])]
      exact hlisted (hlists.mpr hmem) proxy
    · have hunlisted : ¬ listed := fun hl => hmem (hlists.mp hl)
      rw [if_neg (by simp [hmem]), wpe_bind, wpe_bind]
      apply wpe_pushUndo h
      have hpushed : Amid proxyId existing.id e₀ (some stored) listed
          (⟨s.edge, s.undo ++ [.association existing.id]⟩ : Held J).edge := h
      rw [wpe_pure]
      apply wpe_writeProxy hpushed hproxy
      · intro i hi
        simp [hi]
      · exact fun e' he' => (hrepaired hunlisted proxy e' _ he').1
      · exact fun err => ⟨(hrepaired hunlisted proxy _ _ h).2 err,
          fun e' he' => (hrepaired hunlisted proxy e' _ he').2 err⟩
  · exact hE

theorem undoable_replacement (pluginName : String) (settings : J) (options : EdgePluginOptions J)
    (hpresent : (e₀.proxies proxyId).isSome)
    (hconfig : e₀.configs existing.id = some existing) (hown : existing.proxyId = proxyId) :
    wpe Eq (Within proxyId existing.id e₀)
      (reconcileReplacement proxyId existing pluginName settings options)
      (fun _ s => UndoRestores origin proxyId existing.id e₀ s)
      (fun _ s => UndoRestores origin proxyId existing.id e₀ s) ⟨e₀, []⟩ := by
  have hstart := Amid.start existing.id hpresent
  rw [hconfig] at hstart
  have hsame : LabelsFrom existing existing := fun labels hmem => ⟨labels, hmem⟩
  have hreplaced : LabelsFrom existing (existing.replacedBy
      (writeBody proxyId pluginName (some settings) options (some existing))) :=
    labelsFrom_replacedBy existing pluginName (some settings) options
  rw [reconcileReplacement, wpe_bind]
  apply wpe_pushUndo hstart
  rw [wpe_bind]
  apply wpe_replaceConfig hstart
  · intro e' he'
    have hundo : UndoRestores origin proxyId existing.id e₀ ⟨e', [.replacement existing]⟩ :=
      undo_replacement hconfig hown hreplaced rfl he'
    rw [wpe_bind]
    apply wpe_repairAssociation he'
    · exact fun _ _ => hundo
    · intro hunlisted proxy e'' listed' he''
      have hboth : UndoRestores origin proxyId existing.id e₀
          ⟨e'', [.replacement existing, .association existing.id]⟩ :=
        undo_association hconfig hown hunlisted hreplaced rfl he''
      exact ⟨hboth, fun _ => hboth⟩
    · exact fun _ => hundo
  · exact fun _ => ⟨undo_replacement hconfig hown hsame rfl hstart,
      fun e' he' => undo_replacement hconfig hown hreplaced rfl he'⟩

theorem undoable_creation (pluginName : String) (settings : J) (options : EdgePluginOptions J)
    (hpresent : (e₀.proxies proxyId).isSome) (hnew : e₀.configs id = none) :
    wpe Eq (Within proxyId id e₀)
      (reconcileCreation origin proxyId pluginName settings options id)
      (fun _ s => UndoRestores origin proxyId id e₀ s)
      (fun _ s => UndoRestores origin proxyId id e₀ s) ⟨e₀, []⟩ := by
  have hstart := Amid.start id hpresent
  rw [hnew] at hstart
  have hnone : UndoRestores origin proxyId id e₀ ⟨e₀, [.attachment id]⟩ :=
    undo_attachment hnew rfl hstart (by simp)
  have hmade : ∀ {made : EdgePluginConfig J} {listed e'}, made.proxyId = proxyId →
      Amid proxyId id e₀ (some made) listed e' →
      UndoRestores origin proxyId id e₀ ⟨e', [.attachment id]⟩ := by
    intro made listed e' hproxy h
    apply undo_attachment hnew rfl h
    intro found hfound
    rw [← Option.some.inj hfound]
    exact hproxy
  rw [reconcileCreation, wpe_bind]
  apply wpe_pushUndo hstart
  rw [wpe_bind, attach, wpe_bind]
  apply wpe_assertBackendEgress hstart
  · apply wpe_createConfig hstart rfl
    · intro e' he'
      rw [wpe_bind]
      apply wpe_associateLocked he'
      · exact fun e'' he'' => hmade rfl he''
      · exact fun _ => ⟨hmade rfl he', fun e'' he'' => hmade rfl he''⟩
    · exact fun _ => ⟨hnone, fun e' he' => hmade rfl he'⟩
  · exact fun _ => hnone

end Reconciliation

/-! ## Exactly when -/

section Exactness

variable {s : Held J} {α : Type} {R G : Held J → Held J → Prop} {E : NexusError → Held J → Prop}

/-- One outcome of a read. -/
theorem edgeRead_of_wpe {f : Held J → α} {Q : α → Held J → Prop}
    (h : wpe Eq G (edgeRead f) Q E s) :
    Q (f s) s ∧ E (edgeFailure none) s := by
  rw [edgeRead, wpe_atomic] at h
  exact ⟨(h s rfl .ok (.ok (f s)) s rfl).2,
    (h s rfl (.refused none) (.error (edgeFailure none)) s rfl).2⟩

/-- An acknowledged write. -/
theorem write_of_wpe {f : Gateway J → Except NexusError (α × Gateway J)} {a : α}
    {e' : Gateway J} {Q : α → Held J → Prop} (h : wpe Eq G (write f) Q E s)
    (hf : f s.edge = .ok (a, e')) : Q a { s with edge := e' } := by
  rw [write, edgeWrite, wpe_atomic] at h
  exact (h s rfl .ok (.ok a) { s with edge := e' } (by simp only [hf]; rfl)).2

theorem pushUndo_of_wpe {step : Undo J} {Q : Unit → Held J → Prop}
    (h : wpe Eq G (pushUndo step) Q E s) :
    Q () { s with undo := s.undo ++ [step] } := by
  rw [pushUndo, wpe_atomic] at h
  exact (h s rfl .ok (.ok ()) _ rfl).2

/-- The step for a removal lists a config that the proxy did not name. -/
theorem not_undoRestores_removal {existing : EdgePluginConfig J} {proxy : EdgeProxy J}
    (hproxy : e₀.proxies proxyId = some proxy) (hconfig : e₀.configs existing.id = some existing)
    (hown : existing.proxyId = proxyId) (hunlisted : ¬ e₀.Lists proxyId existing.id)
    (henabled : existing.enabled = true) :
    ¬ UndoRestores origin proxyId existing.id e₀ ⟨e₀, [.removal existing]⟩ := by
  intro h
  have hmem : existing.id ∉ proxy.plugins :=
    fun hmem => hunlisted ((Gateway.lists_iff hproxy existing.id).mpr hmem)
  change wpe Eq _ (undoRemovalLocked origin proxyId existing >>= fun _ => pure ()) _ _ _ at h
  rw [wpe_bind, undoRemovalLocked, wpe_bind] at h
  have hread := (edgeRead_of_wpe h).1
  rw [wpe_bind] at hread
  have hfound := (edgeRead_of_wpe hread).1
  dsimp only at hfound
  rw [hconfig] at hfound
  change wpe Eq _ (associateLocked proxyId [existing.id]) _ _ _ at hfound
  rw [associateLocked, wpe_bind, mutateProxyLocked, wpe_bind] at hfound
  have hmutate := (edgeRead_of_wpe hfound).1
  dsimp only at hmutate
  rw [hproxy] at hmutate
  rw [mutateFound, wpe_bind, wpe_pure, if_neg (by simp [hmem]), writeProxy, wpe_bind] at hmutate
  have hrestored : Restored proxyId e₀ (e₀.putProxy proxyId (proxy.withPlugins _)) :=
    write_of_wpe hmutate (Gateway.replaceProxy_own hproxy _)
  have hruns := (hrestored.runs existing.id).mp
    ⟨⟨_, Function.update_self .., by simp [EdgeProxy.withPlugins, hmem]⟩, existing, hconfig, hown,
      henabled⟩
  exact hunlisted hruns.1

/-- An enabled config that the proxy does not name is to be removed, and the
first call after the step is registered is refused. -/
theorem not_undoable_removal (existing : EdgePluginConfig J) {pluginName : String}
    {options : EdgePluginOptions J} {newId : ℕ} (hpresent : (e₀.proxies proxyId).isSome)
    (hconfig : e₀.configs existing.id = some existing) (hown : existing.proxyId = proxyId)
    (hunlisted : ¬ e₀.Lists proxyId existing.id) (henabled : existing.enabled = true) :
    ¬ Undoable origin proxyId e₀ (some existing) pluginName none options newId := by
  intro h
  obtain ⟨proxy, hproxy⟩ := Option.isSome_iff_exists.mp hpresent
  unfold Undoable reconcileOptionalPluginLocked at h
  rw [wpe_bind] at h
  have hreconcile := (edgeRead_of_wpe h).1
  change wpe Eq _ (reconcileRemoval proxyId existing) _ _ _ at hreconcile
  rw [reconcileRemoval, wpe_bind] at hreconcile
  have hpushed := pushUndo_of_wpe hreconcile
  rw [wpe_bind, disassociateLocked, wpe_bind, mutateProxyLocked, wpe_bind] at hpushed
  exact not_undoRestores_removal hproxy hconfig hown hunlisted henabled
    (edgeRead_of_wpe hpushed).2

/-- The proxy is there and, if a config is given, it is a live one of the
proxy's own; the id of a new config is nobody's. Then the steps registered at
any point of a reconciliation restore the proxy, except where an enabled config
that the proxy does not name is to be removed. -/
theorem undoable_iff (origin : J) (proxyId : ℕ) (e₀ : Gateway J)
    (existing : Option (EdgePluginConfig J)) (pluginName : String) (pluginSettings : Option J)
    (options : EdgePluginOptions J) (newId : ℕ) (hpresent : (e₀.proxies proxyId).isSome)
    (hlive : ∀ config, existing = some config →
      e₀.configs config.id = some config ∧ config.proxyId = proxyId)
    (hnew : existing = none → e₀.configs (options.id.getD newId) = none) :
    Undoable origin proxyId e₀ existing pluginName pluginSettings options newId ↔
      ¬ (pluginSettings = none ∧ ∃ config, existing = some config ∧
        ¬ e₀.Lists proxyId config.id ∧ config.enabled = true) := by
  have hidle : ∀ id, UndoRestores origin proxyId id e₀ ⟨e₀, []⟩ :=
    fun id => (Amid.start id hpresent).restored rfl Iff.rfl
  constructor
  · rintro h ⟨rfl, existing, rfl, hunlisted, henabled⟩
    obtain ⟨hconfig, hown⟩ := hlive existing rfl
    exact not_undoable_removal existing hpresent hconfig hown hunlisted henabled h
  · intro hcondition
    unfold Undoable reconcileOptionalPluginLocked
    rw [wpe_bind]
    apply wpe_assertBackendEgress (Amid.start _ hpresent) _ fun _ => hidle _
    cases pluginSettings with
    | none =>
      cases existing with
      | none => exact hidle (options.id.getD newId)
      | some existing =>
        obtain ⟨hconfig, hown⟩ := hlive existing rfl
        apply undoable_removal hpresent hconfig hown
        by_contra hneither
        rw [not_or, Bool.not_eq_false] at hneither
        exact hcondition ⟨rfl, existing, rfl, hneither⟩
    | some settings =>
      cases existing with
      | none => exact undoable_creation pluginName settings options hpresent (hnew rfl)
      | some existing =>
        obtain ⟨hconfig, hown⟩ := hlive existing rfl
        exact undoable_replacement pluginName settings options hpresent hconfig hown

/-- A proxy with one enabled rate limit of its own, which it names or not. -/
def limitedProxy (named : Bool) : Gateway ℕ where
  proxies := fun id => if id = 1 then some ⟨if named then [7] else [], []⟩ else none
  configs := fun id => if id = 7 then some ⟨7, "rate_limiting", 1, true, some 60, none, []⟩ else none

theorem undoable_iff_named :
    Undoable 0 1 (limitedProxy true) (some ⟨7, "rate_limiting", 1, true, some 60, none, []⟩)
      "rate_limiting" none {} 8 ↔ ¬ ((none : Option ℕ) = none ∧ ∃ config,
        some (⟨7, "rate_limiting", 1, true, some 60, none, []⟩ : EdgePluginConfig ℕ) = some config ∧
        ¬ (limitedProxy true).Lists 1 config.id ∧ config.enabled = true) :=
  undoable_iff 0 1 (limitedProxy true) _ "rate_limiting" none {} 8 rfl
    (fun config hconfig => by rw [← Option.some.inj hconfig]; exact ⟨rfl, rfl⟩)
    (fun hnone => by cases hnone)

theorem removal_not_undoable :
    ¬ ∀ (origin : ℕ) (proxyId : ℕ) (e₀ : Gateway ℕ) (existing : Option (EdgePluginConfig ℕ))
      (pluginName : String) (pluginSettings : Option ℕ) (options : EdgePluginOptions ℕ)
      (newId : ℕ), (e₀.proxies proxyId).isSome →
      (∀ config, existing = some config →
        e₀.configs config.id = some config ∧ config.proxyId = proxyId) →
      (existing = none → e₀.configs (options.id.getD newId) = none) →
      Undoable origin proxyId e₀ existing pluginName pluginSettings options newId := by
  intro h
  have hundoable := h 0 1 (limitedProxy false)
    (some ⟨7, "rate_limiting", 1, true, some 60, none, []⟩) "rate_limiting" none {} 8 rfl
    (fun config hconfig => by rw [← Option.some.inj hconfig]; exact ⟨rfl, rfl⟩)
    (fun hnone => by cases hnone)
  exact not_undoable_removal ⟨7, "rate_limiting", 1, true, some 60, none, []⟩ rfl rfl rfl
    (by decide) rfl hundoable

end Exactness

end FerrumNexus.Publishing.EdgePlugins
