import FerrumNexus.Publishing.ConversionSteps

/-!
# What a conversion leaves of its proxy

A rebuild starts once nothing of the proxy is left. It ends with the proxy's
own fields at the public path and with every hand-owned config it found, each
of them named by the proxy; where it fails, what is left belongs to a
specification exactly if the level asked for one, and so cannot be taken for
the original. A conversion therefore keeps what ran exactly when every enabled
hand-owned config had been named before.
-/
namespace FerrumNexus.Publishing

open Saga Saga.Scope Platform

section Stages

variable {J : Type}

/-- What a rebuild at `level` may have left when it failed. -/
def Leftover (k : Custody J) (level : Level) (h : Held J) : Prop :=
  h = .gone ∨ ∃ proxy, h.proxy = some proxy ∧ proxy.body.id = k.proxyId ∧
    (proxy.apiSpecId.isSome ↔ level = .routes)

/-- The proxy `body`, owned as `level` asks, with the hand-owned `configs`. -/
def Staged (level : Level) (body : ProxyBody J) (configs : List (PluginConfig J)) (h : Held J) :
    Prop :=
  handOwnedPlugins h.configs = configs ∧ ∃ proxy, h.proxy = some proxy ∧ proxy.body = body ∧
    (proxy.apiSpecId.isSome ↔ level = .routes)

/-- A staged proxy that also names its hand-owned configs. -/
def Rebuilt (level : Level) (body : ProxyBody J) (configs : List (PluginConfig J)) (h : Held J) :
    Prop :=
  Staged level body configs h ∧ h.Covered configs

variable {k : Custody J} {level : Level} {body : ProxyBody J} {configs : List (PluginConfig J)}
  {h : Held J}

theorem Staged.leftover (hs : Staged level body configs h) (hid : body.id = k.proxyId) :
    Leftover k level h := by
  obtain ⟨-, proxy, hproxy, rfl, howner⟩ := hs
  exact .inr ⟨proxy, hproxy, hid, howner⟩

theorem Staged.not_serves {path : ListenPath} (hs : Staged level body configs h)
    (hpath : body.listenPath ≠ path) : ¬ h.Serves path := by
  obtain ⟨-, proxy, hproxy, rfl, -⟩ := hs
  rintro ⟨served, hserved, heq⟩
  rw [hproxy] at hserved
  cases hserved
  exact hpath heq

end Stages

section Rebuild

variable {J : Type} [DecidableEq J] {docs : Documents J} {k : Custody J} {h : Held J}
  {journal : Option (JournalView J)} {n : ℕ} {level : Level} {body : ProxyBody J}
  {E : NexusError → OwnView J → Prop}

theorem does_createStaged {api : ApiRecord J} {agents : Option J} {document : J}
    {preserved : Option (List (PluginConfig J))} {Q : Option ℕ → OwnView J → Prop}
    (hid : body.id = k.proxyId) (hpath : body.listenPath ≠ k.path)
    (hQ : ∀ specId h', Staged level body [] h' → Q specId ⟨h', journal, n⟩)
    (hE : ∀ error h', Leftover k level h' → E error ⟨h', journal, n⟩) :
    k.scope.Does ⟨.gone, journal, n⟩
      (createStaged docs k.slot api level agents body document preserved) Q E := by
  have hgone : ∀ error, E error ⟨.gone, journal, n⟩ := fun error => hE error _ (.inl rfl)
  cases level with
  | routes =>
    refine does_bind ?_
    refine does_bind (does_buildSpecDocument (fun built hbuilt => ?_) hgone)
    have hsame : (withPreserved docs preserved built).proxy = body := by
      cases preserved with
      | none => exact hbuilt
      | some _ => exact hbuilt
    refine does_bind (does_saveDigest ?_ hgone)
    refine does_writeEdge ?_ hgone
    intro e hids hheld ref e' hok
    obtain ⟨hids', hown, plugins, hproxy⟩ := importSpec_ok ((congrArg _ hsame).trans hid) hok
    rw [hheld] at hown
    have hstaged : Staged .routes body [] (e'.held k.proxyId) :=
      ⟨hown, _, hproxy, hsame, by simp⟩
    refine ⟨hids', Held.Step.of_unserved (hstaged.not_serves hpath), ?_, ?_⟩
    · refine does_bind (does_remember_attempt (fun _ => ?_) ?_)
      · rfl
      · refine does_bind (does_saveConversionRecovery ?_ fun error => hE error _ (hstaged.leftover hid))
        exact does_pure (hQ _ _ hstaged)
    · exact fun error => hE error _ (hstaged.leftover hid)
  | docsOnly =>
    refine does_bind (does_writeEdge ?_ hgone)
    intro e hids hheld _ e' hok
    obtain ⟨hconfigs, hproxy⟩ := createProxy_ok hid hok
    rw [hheld] at hproxy
    have hstaged : Staged .docsOnly body [] (e'.held k.proxyId) := by
      rw [hproxy]
      exact ⟨rfl, _, rfl, rfl, by simp⟩
    refine ⟨hconfigs ▸ hids, Held.Step.of_unserved (hstaged.not_serves hpath), ?_, ?_⟩
    · exact does_pure (hQ _ _ hstaged)
    · exact fun error => hE error _ (hstaged.leftover hid)

/-- Each hand-owned config comes back as it was. -/
theorem does_recreatePlugins {api : ApiRecord J} {Q : Unit → OwnView J → Prop}
    (hid : body.id = k.proxyId) (hpath : body.listenPath ≠ k.path)
    (configs done : List (PluginConfig J))
    (hown : ∀ config ∈ configs, config.handOwned = true ∧ config.proxyId = k.proxyId)
    (hstaged : Staged level body done h)
    (hQ : ∀ h', Staged level body (done ++ configs) h' → Q () ⟨h', journal, n⟩)
    (hE : ∀ error h', Leftover k level h' → E error ⟨h', journal, n⟩) :
    k.scope.Does ⟨h, journal, n⟩
      (recreatePlugins k.proxyId (observeConversionAttempt k.slot api) configs) Q E := by
  induction configs generalizing done h with
  | nil => exact does_pure (hQ h (by simpa using hstaged))
  | cons config configs ih =>
    obtain ⟨⟨hconfig, hplace⟩, hrest⟩ := List.forall_mem_cons.mp hown
    have hsame : { config with proxyId := k.proxyId, apiSpecId := none } = config := by
      have hspec : config.apiSpecId = none := by
        simp only [PluginConfig.handOwned, Bool.and_eq_true, beq_iff_eq] at hconfig
        exact hconfig.1
      cases config
      cases hplace
      cases hspec
      rfl
    rw [recreatePlugins, hsame]
    refine does_bind (does_writeEdge ?_ fun error => hE error _ (hstaged.leftover hid))
    intro e hids hheld _ e' hok
    obtain ⟨hids', hheld'⟩ := createConfig_ok hids hplace hok
    rw [hheld] at hheld'
    have hnext : Staged level body (done ++ [config]) (e'.held k.proxyId) := by
      rw [hheld']
      obtain ⟨hdone, hproxy⟩ := hstaged
      refine ⟨?_, hproxy⟩
      simp only [handOwnedPlugins, List.filter_append] at hdone ⊢
      rw [hdone]
      simp [hconfig]
    refine ⟨hids', Held.Step.of_unserved (hnext.not_serves hpath), ?_, ?_⟩
    · refine does_bind (does_observeConversionAttempt ?_ fun error =>
        hE error _ (hnext.leftover hid))
      refine ih (done ++ [config]) hrest hnext fun h' hh => hQ h' ?_
      simpa using hh
    · exact fun error => hE error _ (hnext.leftover hid)

/-- The whole set is associated, whatever was named before. -/
theorem does_restorePluginsLocked {api : ApiRecord J} {Q : Unit → OwnView J → Prop}
    (hid : body.id = k.proxyId) (hpath : body.listenPath ≠ k.path)
    (hown : ∀ config ∈ k.configs, config.handOwned = true ∧ config.proxyId = k.proxyId)
    (hstaged : Staged level body [] h)
    (hQ : ∀ h', Rebuilt level body k.configs h' → Q () ⟨h', journal, n⟩)
    (hE : ∀ error h', Leftover k level h' → E error ⟨h', journal, n⟩) :
    k.scope.Does ⟨h, journal, n⟩
      (restorePluginsLocked k.proxyId k.configs (observeConversionAttempt k.slot api)) Q E := by
  refine does_bind (does_assertBackendEgress ?_ fun error => hE error _ (hstaged.leftover hid))
  refine does_bind (does_recreatePlugins hid hpath k.configs [] hown hstaged ?_ hE)
  intro h₁ hstaged₁
  rw [List.nil_append] at hstaged₁
  have hleft : ∀ error, E error ⟨h₁, journal, n⟩ := fun error => hE error _ (hstaged₁.leftover hid)
  obtain ⟨hconfigs, proxy, hproxy, hbody, howner⟩ := id hstaged₁
  refine does_whenever (fun _ => ?_) fun hempty => hQ h₁ ⟨hstaged₁, hconfigs, proxy, hproxy, ?_⟩
  · refine does_bind (does_readEdge (fun e hheld => ?_) hleft)
    simp only [Edge.proxies_of_held hheld hproxy]
    split
    · rename_i hnone
      refine does_pure (hQ h₁ ⟨hstaged₁, hconfigs, proxy, hproxy, ?_⟩)
      split_ifs at hnone with hadd
      intro config hconfig
      by_contra hnot
      have hmem : config.id ∈ (k.configs.map (·.id)).filter (!proxy.plugins.contains ·) :=
        List.mem_filter.mpr ⟨List.mem_map_of_mem hconfig, by simpa using hnot⟩
      rw [List.isEmpty_iff.mp hadd] at hmem
      exact absurd hmem List.not_mem_nil
    · rename_i body' plugins' hsome
      split_ifs at hsome with hadd
      cases hsome
      refine does_writeEdge ?_ hleft
      intro e₁ hids hheld₁ _ e' hok
      have hp₁ : (e₁.held k.proxyId).proxy = some proxy := hheld₁ ▸ hproxy
      obtain ⟨hsame, hheld'⟩ := replaceProxy_ok hp₁ hok
      rw [hheld₁] at hheld'
      have hnext : Rebuilt level body k.configs (e'.held k.proxyId) := by
        rw [hheld']
        refine ⟨⟨hconfigs, _, rfl, hbody, howner⟩, hconfigs, _, rfl, ?_⟩
        intro config hconfig
        by_cases hnamed : config.id ∈ proxy.plugins
        · exact List.mem_append_left _ hnamed
        · refine List.mem_append_right _ (List.mem_filter.mpr ⟨List.mem_map_of_mem hconfig, ?_⟩)
          simpa using hnamed
      refine ⟨hsame ▸ hids, Held.Step.of_unserved (hnext.1.not_serves hpath), hQ _ hnext, ?_⟩
      exact fun error => hE error _ (hnext.1.leftover hid)
  · intro config hconfig
    rw [Bool.not_eq_false', List.isEmpty_iff] at hempty
    rw [hempty] at hconfig
    exact absurd hconfig List.not_mem_nil

end Rebuild

section Cutover

variable {J : Type} [DecidableEq J] {docs : Documents J} {k : Custody J} {h : Held J}
  {original : Proxy J} {plugins : List (PluginConfig J)} {mutations : List (Mutation J)} {n : ℕ}
  {level : Level} {body : ProxyBody J} {E : NexusError → OwnView J → Prop}

theorem does_replaceObserved {api : ApiRecord J} {id : ℕ} {submitted : SubmittedSpec J}
    {proxy : Proxy J} {Q : Unit → OwnView J → Prop} (hid : submitted.proxy.id = k.proxyId)
    (hproxy : h.proxy = some proxy) (hunserved : ¬ h.Serves k.path) (hcovered : h.Covered k.configs)
    (hQ : ∀ h' mutations', Reimported h proxy submitted.proxy h' →
      Q () ⟨h', some ⟨original, plugins, mutations'⟩, n⟩)
    (hE : ∀ error h' mutations', h' = h ∨ Reimported h proxy submitted.proxy h' →
      E error ⟨h', some ⟨original, plugins, mutations'⟩, n⟩) :
    k.scope.Does ⟨h, some ⟨original, plugins, mutations⟩, n⟩
      (replaceObserved docs k.slot api id submitted) Q E := by
  refine does_bind (does_readMemory fun recovery _ => ?_)
  cases recovery.attempt.bind (·.observed) with
  | none => exact does_throw (hE _ h _ (.inl rfl))
  | some observed =>
    refine does_mutateRecoveryDeployment (Reimported h proxy submitted.proxy) ?_ hQ
      (fun error => hE error h _ (.inl rfl)) fun error h' pending hh _ => hE error h' pending hh
    intro call journal Q' E' hQ' hE'
    exact does_sendReplace hid hproxy hunserved hcovered hQ' hE'

/-- The cutover moves a rebuilt proxy onto its public path and changes nothing
else of it. -/
theorem does_cutOverToListenPathLocked {api : ApiRecord J} {document : J} {specId : Option ℕ}
    {agents : Option J} {Q : Unit → OwnView J → Prop} (hid : body.id = k.proxyId)
    (hpath : body.listenPath ≠ k.path) (hrebuilt : Rebuilt level body k.configs h)
    (hQ : ∀ h' mutations', Rebuilt level { body with listenPath := k.path } k.configs h' →
      Q () ⟨h', some ⟨original, plugins, mutations'⟩, n⟩)
    (hE : ∀ error h' mutations', Leftover k level h' →
      E error ⟨h', some ⟨original, plugins, mutations'⟩, n⟩) :
    k.scope.Does ⟨h, some ⟨original, plugins, mutations⟩, n⟩
      (cutOverToListenPathLocked docs k.proxyId level k.path document specId agents
        (admitCutover k.slot) fun id submitted => do
          saveDigest k.slot api submitted
          replaceObserved docs k.slot api id submitted) Q E := by
  obtain ⟨hstaged, hcovered⟩ := hrebuilt
  have hunserved := hstaged.not_serves hpath
  have hleft : ∀ error mutations', E error ⟨h, some ⟨original, plugins, mutations'⟩, n⟩ :=
    fun error mutations' => hE error h mutations' (hstaged.leftover hid)
  obtain ⟨hconfigs, proxy, hproxy, hbody, howner⟩ := id hstaged
  cases level with
  | docsOnly =>
    refine does_bind (does_readEdge (fun e hheld => ?_) fun error => hleft error _)
    simp only [Edge.proxies_of_held hheld hproxy]
    refine does_writeEdge ?_ fun error => hleft error _
    intro e₁ hids hheld₁ _ e' hok
    obtain ⟨hsame, hheld'⟩ := replaceProxy_ok ((congrArg Held.proxy hheld₁).trans hproxy) hok
    rw [hheld₁] at hheld'
    have hcovered' : (e'.held k.proxyId).Covered k.configs := by
      rw [hheld']
      obtain ⟨hown, named, hnamed, hids'⟩ := hcovered
      rw [hproxy] at hnamed
      cases hnamed
      exact ⟨hown, _, rfl, hids'⟩
    have hnext : Rebuilt .docsOnly { body with listenPath := k.path } k.configs
        (e'.held k.proxyId) := by
      refine ⟨?_, hcovered'⟩
      rw [hheld']
      exact ⟨hconfigs, _, rfl, by rw [hbody], howner⟩
    refine ⟨hsame ▸ hids, ⟨fun hs => absurd hs hunserved, fun _ _ => hcovered'⟩, hQ _ _ hnext, ?_⟩
    exact fun error => hE error _ _ (hnext.1.leftover hid)
  | routes =>
    have hrest : ∀ id, k.scope.Does ⟨h, some ⟨original, plugins, mutations⟩, n⟩
        (cutOverSpec docs k.proxyId k.path document agents (admitCutover k.slot) fun submitted => do
          saveDigest k.slot api submitted
          replaceObserved docs k.slot api id submitted) Q E := by
      intro id
      refine does_bind (does_readEdge (fun e hheld => ?_) fun error => hleft error _)
      simp only [Edge.proxies_of_held hheld hproxy]
      refine does_bind (does_admitCutover ?_ fun error => hleft error _)
      refine does_bind (does_buildSpecDocument (fun submitted hsub => ?_) fun error => hleft error _)
      have hrebuilt : ∀ h', Reimported h proxy submitted.proxy h' →
          Rebuilt .routes { body with listenPath := k.path } k.configs h' := by
        intro h' hr
        refine ⟨?_, hr.covered hproxy hcovered⟩
        obtain ⟨hown, replaced, hreplaced, hbody', hspec, -⟩ := hr
        refine ⟨hown.trans hconfigs, replaced, hreplaced, ?_, by simpa using hspec⟩
        rw [hbody', hsub, hbody]
      have hsubId : submitted.proxy.id = k.proxyId := by
        rw [hsub, hbody]
        exact hid
      refine does_bind (does_saveDigest ?_ fun error => hleft error _)
      refine does_replaceObserved hsubId hproxy hunserved hcovered
        (fun h' mutations' hr => hQ h' mutations' (hrebuilt h' hr)) ?_
      rintro error h' mutations' (rfl | hr)
      · exact hleft error mutations'
      · exact hE error h' mutations' ((hrebuilt h' hr).1.leftover hid)
    cases specId with
    | some id => exact hrest id
    | none =>
      refine does_bind ?_
      refine does_bind (does_readEdge (fun e _ => ?_) fun error => hleft error _)
      cases e.findSpecByProxy k.proxyId with
      | none => exact does_throw (hleft _ _)
      | some spec => exact does_pure (hrest spec.id)

end Cutover

section Conversion

variable {J : Type} [DecidableEq J] {docs : Documents J} {k : Custody J} {h : Held J}
  {original : Proxy J} {plugins : List (PluginConfig J)} {mutations : List (Mutation J)} {n : ℕ}
  {api : ApiRecord J} {E : NexusError → OwnView J → Prop}

/-- The proxy a rebuild ends with. -/
def rebuiltBody (original : ProxyBody J) (path : ListenPath) (agents : Option J)
    (methods : Option (List String)) (cors : Option J) : ProxyBody J :=
  { original with
    listenPath := path
    allowedMethods := if agents.isSome then proxyAllowedMethods methods cors
      else original.allowedMethods }

/-- The journal is about the proxy in custody and the configs found on it. -/
structure Journalled (k : Custody J) (api : ApiRecord J) (original : Proxy J)
    (plugins : List (PluginConfig J)) : Prop where
  id : original.body.id = k.proxyId
  path : listenPathFor api.shape.slug = k.path
  configs : handOwnedPlugins plugins = k.configs
  placed : ∀ config ∈ plugins, config.proxyId = k.proxyId

variable {Q : Unit → OwnView J → Prop} {level target : Level}

theorem does_rebuildConversionLocked {agents : Option J} {methods : Option (List String)}
    {preserveGenerated : Bool} (hj : Journalled k api original plugins)
    (hQ : ∀ h' mutations', Rebuilt level
        (rebuiltBody original.body k.path agents methods api.shape.cors) k.configs h' →
      Q () ⟨h', some ⟨original, plugins, mutations'⟩, n⟩)
    (hE : ∀ error h' mutations', Leftover k level h' →
      E error ⟨h', some ⟨original, plugins, mutations'⟩, n⟩) :
    k.scope.Does ⟨.gone, some ⟨original, plugins, mutations⟩, n⟩
      (rebuildConversionLocked docs k.slot api level agents methods preserveGenerated none) Q E := by
  have hgone : ∀ error, E error ⟨.gone, some ⟨original, plugins, mutations⟩, n⟩ :=
    fun error => hE error _ _ (.inl rfl)
  have hown : ∀ config ∈ k.configs, config.handOwned = true ∧ config.proxyId = k.proxyId := by
    intro config hconfig
    rw [← hj.configs] at hconfig
    obtain ⟨hmem, hhand⟩ := List.mem_filter.mp hconfig
    exact ⟨hhand, hj.placed config hmem⟩
  refine does_bind (does_assertRecoveryAcknowledged (fun _ => ?_) hgone)
  refine does_bind (does_newId fun path => ?_)
  refine does_bind (does_readMemory fun recovery hrecovery => ?_)
  cases hrecovery
  let staged := stagedBody recovery agents methods api.shape.cors path
  have hid : staged.id = k.proxyId := hj.id
  have hpath : staged.listenPath ≠ k.path := by
    rw [← hj.path]
    exact ListenPath.noConfusion
  refine does_bind (does_remember_attempt (fun _ => ?_) ?_)
  · rfl
  refine does_bind (does_saveConversionRecovery ?_ hgone)
  refine does_bind (does_createStaged hid hpath (fun specId h₁ hstaged => ?_)
    fun error h' hleft => hE error h' _ hleft)
  have hleft₁ : ∀ error, E error ⟨h₁, some recovery.view, n⟩ :=
    fun error => hE error h₁ _ (hstaged.leftover hid)
  refine does_bind (does_observeConversionAttempt ?_ hleft₁)
  rw [hj.id, hj.configs]
  refine does_bind (does_restorePluginsLocked hid hpath hown hstaged (fun h₂ hrebuilt => ?_)
    fun error h' hleft => hE error h' _ hleft)
  have hleft₂ : ∀ error, E error ⟨h₂, some recovery.view, n⟩ :=
    fun error => hE error h₂ _ (hrebuilt.1.leftover hid)
  refine does_bind (does_observeConversionAttempt ?_ hleft₂)
  rw [hj.path]
  refine does_bind (does_cutOverToListenPathLocked hid hpath hrebuilt ?_ hE)
  intro h₃ mutations' hfinal
  refine does_observeConversionAttempt (hQ h₃ mutations' hfinal) fun error => ?_
  exact hE error h₃ mutations' (hfinal.1.leftover hid)

/-- What `deploymentMatches` found of the original before its removal. -/
structure Deployed (k : Custody J) (api : ApiRecord J) (original : Proxy J) : Prop where
  path : original.body.listenPath = k.path
  methods : original.body.allowedMethods = proxyAllowedMethods api.shape.allowedMethods api.shape.cors
  owner : original.apiSpecId.isSome ↔ api.shape.specEnforcement = .routes

omit [DecidableEq J] in
theorem Deployed.rebuiltBody_eq (hd : Deployed k api original) :
    rebuiltBody original.body k.path api.shape.agents api.shape.allowedMethods api.shape.cors =
      original.body := by
  simp only [rebuiltBody, ← hd.path, ← hd.methods, ite_self]

omit [DecidableEq J] in
theorem deployed_of_matches {e : Edge J} {spec : ApiSpecRecord J}
    (hpath : listenPathFor api.shape.slug = k.path)
    (hm : deploymentMatches docs e api.shape spec original (listenPathFor api.shape.slug) = true) :
    Deployed k api original := by
  simp only [deploymentMatches, Bool.and_eq_true, beq_iff_eq] at hm
  obtain ⟨⟨⟨hlisten, hmethods⟩, howner⟩, -⟩ := hm
  refine ⟨hlisten.trans hpath, hmethods, ?_⟩
  cases hlevel : api.shape.specEnforcement with
  | docsOnly =>
    simp only [hlevel, Bool.and_eq_true, beq_iff_eq] at howner
    simp [howner.2]
  | routes =>
    simp only [hlevel, Option.any_eq_true, beq_iff_eq] at howner
    obtain ⟨spec, -, hspec⟩ := howner
    simp [hspec]

/-- A proxy that matches the baseline has the original's owner. -/
theorem does_conversionBaselineMatches {Q : Bool → OwnView J → Prop}
    (hj : Journalled k api original plugins)
    (hQ : ∀ matched : Bool,
      (matched = true → ∃ live, h.proxy = some live ∧ live.apiSpecId = original.apiSpecId) →
      Q matched ⟨h, some ⟨original, plugins, mutations⟩, n⟩)
    (hE : ∀ error, E error ⟨h, some ⟨original, plugins, mutations⟩, n⟩) :
    k.scope.Does ⟨h, some ⟨original, plugins, mutations⟩, n⟩
      (conversionBaselineMatches k.slot) Q E := by
  refine does_bind (does_readMemory fun recovery hrecovery => ?_)
  cases hrecovery
  refine does_bind (does_readEdge (fun e hheld => ?_) hE)
  have hfound : e.proxies recovery.proxy.body.id = h.proxy := by
    rw [hj.id]
    exact Edge.proxies_of_held hheld rfl
  simp only [hfound]
  cases hproxy : h.proxy with
  | none => exact does_pure (hQ false (nomatch ·))
  | some live =>
    simp only
    split_ifs with hdiff
    · exact does_pure (hQ false (nomatch ·))
    · have howner : live.apiSpecId = recovery.proxy.apiSpecId := by
        by_contra hne
        exact hdiff (.inl hne)
      refine does_bind (does_readEdge (fun _ _ => ?_) hE)
      split_ifs
      · exact does_pure (hQ false (nomatch ·))
      · refine does_bind (does_readEdge (fun _ _ => ?_) hE)
        exact does_pure (hQ _ fun _ => ⟨live, hproxy, howner⟩)

theorem does_admitPartial {Q : Option (Proxy J × Snapshot J) → OwnView J → Prop}
    (hj : Journalled k api original plugins)
    (hQ : ∀ admitted : Option (Proxy J × Snapshot J), h.proxy = admitted.map (·.1) →
      Q admitted ⟨h, some ⟨original, plugins, mutations⟩, n⟩)
    (hE : ∀ error, E error ⟨h, some ⟨original, plugins, mutations⟩, n⟩) :
    k.scope.Does ⟨h, some ⟨original, plugins, mutations⟩, n⟩ (admitPartial k.slot) Q E := by
  refine does_bind (does_readMemory fun recovery hrecovery => ?_)
  cases hrecovery
  refine does_bind (does_readEdge (fun e hheld => ?_) hE)
  have hfound : e.proxies recovery.proxy.body.id = h.proxy := by
    rw [hj.id]
    exact Edge.proxies_of_held hheld rfl
  simp only [hfound]
  cases hproxy : h.proxy with
  | none => exact does_pure (hQ none hproxy)
  | some live =>
    cases recovery.attempt with
    | none => exact does_throw (hE _)
    | some attempt =>
      refine does_bind (does_require (fun _ => ?_) hE)
      refine does_bind (does_require (fun _ => ?_) hE)
      refine does_bind (does_readEdge (fun _ _ => ?_) hE)
      refine does_bind (does_require (fun _ => ?_) hE)
      refine does_bind (does_readEdge (fun _ _ => ?_) hE)
      refine does_bind (does_require (fun _ => ?_) hE)
      refine does_bind (does_readEdge (fun _ _ => ?_) hE)
      refine does_bind (does_require (fun _ => ?_) hE)
      refine does_bind (does_require (fun _ => ?_) hE)
      cases attempt.observed with
      | none => exact does_throw (hE _)
      | some expected =>
        refine does_bind (does_require (fun _ => ?_) hE)
        refine does_bind (does_readEdge (fun _ _ => ?_) hE)
        refine does_bind (does_require (fun _ => ?_) hE)
        refine does_bind (does_readEdge (fun _ _ => ?_) hE)
        refine does_bind (does_require (fun _ => ?_) hE)
        exact does_pure (hQ _ hproxy)

/-- Once it returned, nothing is left of what a rebuild left. -/
theorem does_removeConversionPartialLocked (hj : Journalled k api original plugins)
    (hleft : Leftover k level h)
    (hQ : ∀ mutations', Q () ⟨.gone, some ⟨original, plugins, mutations'⟩, n⟩)
    (hE : ∀ error h' mutations', E error ⟨h', some ⟨original, plugins, mutations'⟩, n⟩) :
    k.scope.Does ⟨h, some ⟨original, plugins, mutations⟩, n⟩
      (removeConversionPartialLocked docs k.slot (some api)) Q E := by
  have hthrow := fun error => hE error h mutations
  refine does_bind (does_assertRecoveryAcknowledged (fun _ => ?_) hthrow)
  refine does_bind (does_admitPartial hj (fun admitted hadmitted => ?_) hthrow)
  rcases hleft with rfl | ⟨proxy, hproxy, hid, -⟩
  · cases admitted with
    | none => exact does_pure (hQ mutations)
    | some target => cases hadmitted
  · rw [hproxy] at hadmitted
    cases admitted with
    | none => cases hadmitted
    | some target =>
      obtain ⟨live, snapshot⟩ := target
      cases hadmitted
      refine does_mutateRecoveryDeployment (· = .gone) ?_ ?_ hthrow ?_
      · intro call journal Q' E' hQ' hE'
        rw [hid]
        exact does_sendRemove (hQ' _ rfl) hE'
      · rintro h' marked rfl
        exact hQ marked
      · exact fun error h' pending _ _ => hE error h' pending

/-- A rollback that completes has rebuilt the original: what it found cannot
be the baseline, since its owner is the one of the other level. -/
theorem does_restoreConversion {specId : ℕ} (hj : Journalled k api original plugins)
    (hd : Deployed k api original) (hmoved : level ≠ api.shape.specEnforcement)
    (hleft : Leftover k level h) (hQ : ∀ h' mutations' n', n' = n ∨ n' = n + 1 ∧
        Rebuilt api.shape.specEnforcement original.body k.configs h' →
      Q () ⟨h', some ⟨original, plugins, mutations'⟩, n'⟩)
    (hE : ∀ error h' mutations', E error ⟨h', some ⟨original, plugins, mutations'⟩, n⟩) :
    k.scope.Does ⟨h, some ⟨original, plugins, mutations⟩, n⟩
      (restoreConversion docs k.slot api k.proxyId specId) Q E := by
  have hthrow := fun error => hE error h mutations
  refine does_bind (does_assertRecoveryAcknowledged (fun _ => ?_) hthrow)
  refine does_bind (does_assertBackendEgress ?_ hthrow)
  refine does_bind (does_conversionBaselineMatches hj (fun matched hmatched => ?_) hthrow)
  have hfalse : matched = false := by
    by_contra htrue
    obtain ⟨live, hlive, howner⟩ := hmatched (by simpa using htrue)
    rcases hleft with rfl | ⟨proxy, hproxy, -, hlevel⟩
    · cases hlive
    · rw [hproxy] at hlive
      cases hlive
      rw [howner, hd.owner] at hlevel
      cases level <;> cases hspec : api.shape.specEnforcement <;> simp_all
  subst hfalse
  refine does_bind (does_removeConversionPartialLocked hj hleft (fun mutations₁ => ?_) hE)
  refine does_bind (does_storeRead (fun row => ?_) fun error => hE error _ _)
  cases row with
  | none =>
    refine does_bind (does_transaction ?_ fun error => hE error _ _)
    intro s hroll _ s' hok
    cases hapi : s.api with
    | some _ => simp [hapi] at hok
    | none =>
      cases hpending : s.recovery with
      | none => simp [hapi, hpending] at hok
      | some pending =>
        simp only [hapi, hpending] at hok
        split_ifs at hok
        cases hok
        exact ⟨rfl, rfl, does_bind (does_pure (does_pure (hQ _ _ _ (.inl hroll))))⟩
  | some _ =>
    refine does_bind (does_rebuildConversionLocked hj (fun h' mutations' hrebuilt => ?_)
      fun error h' mutations' _ => hE error h' mutations')
    rw [hd.rebuiltBody_eq] at hrebuilt
    refine does_bind (does_pure ?_)
    have hthrow' := fun error => hE error h' mutations'
    refine does_bind (does_storeRead (fun current => ?_) hthrow')
    refine does_bind (does_readEdge (fun _ _ => ?_) hthrow')
    refine does_bind (does_readEdge (fun _ _ => ?_) hthrow')
    refine does_bind (does_require (fun _ => ?_) hthrow')
    refine does_bind (does_readEdge (fun _ _ => ?_) hthrow')
    refine does_bind (does_readMemory fun recovery _ => does_transaction ?_ hthrow')
    intro s hroll _ s' hok
    cases hapi : s.api with
    | none => simp [hapi] at hok
    | some latest =>
      simp only [hapi] at hok
      split_ifs at hok
      cases hok
      exact ⟨rfl, rfl, hQ h' mutations' _ (.inr ⟨congrArg (· + 1) hroll, hrebuilt⟩)⟩

omit [DecidableEq J] in
/-- Enrolment writes elsewhere in the namespace. -/
theorem does_touch {v : OwnView J} {condition : Bool} (hQ : Q () v) (hE : ∀ error, E error v) :
    k.scope.Does v (whenever condition (writeEdge fun e => .ok ((), e.touch))) Q E := by
  refine does_whenever (fun _ => does_writeEdge ?_ hE) fun _ => hQ
  intro e hids hheld _ e' hok
  cases hok
  rw [Edge.held_touch, hheld]
  exact ⟨hids, Held.Step.refl _, hQ, hE⟩

/-- The forward direction. Where it fails with every entry of the journal
acknowledged and a removal among them, the original is gone and the rebuild is
at most half done. -/
theorem does_convertAdmitted {specDocument : Option (SubmittedSpec J)}
    {originalSpec : ApiSpecRecord J} {nextAgents : Option J} {nextMethods : Option (List String)}
    (hj : Journalled k api original plugins)
    (hQ : ∀ h' mutations', Deployed k api original → Rebuilt target
        (rebuiltBody original.body k.path nextAgents nextMethods api.shape.cors) k.configs h' →
      Q () ⟨h', some ⟨original, plugins, mutations'⟩, n⟩)
    (hE : ∀ error h' (mutations' : List (Mutation J)),
      (mutations'.all (·.acknowledged) = true → mutations'.any (·.kind == .remove) = true →
        Deployed k api original ∧ Leftover k target h') →
      E error ⟨h', some ⟨original, plugins, mutations'⟩, n⟩) :
    k.scope.Does ⟨h, some ⟨original, plugins, []⟩, n⟩
      (convertAdmitted docs k.slot api original plugins specDocument originalSpec target nextAgents
        nextMethods) Q E := by
  have hthrow : ∀ error, E error ⟨h, some ⟨original, plugins, []⟩, n⟩ :=
    fun error => hE error h [] fun _ hany => by simp at hany
  refine does_bind (does_touch ?_ hthrow)
  refine does_bind (does_readEdge (fun _ _ => ?_) hthrow)
  refine does_bind (does_require (fun _ => ?_) hthrow)
  refine does_bind (does_readEdge (fun e _ => ?_) hthrow)
  refine does_bind (does_require (fun hmatches => ?_) hthrow)
  have hd : Deployed k api original := deployed_of_matches hj.path hmatches
  refine does_bind (does_remember_attempt (fun _ => ?_) ?_)
  · rfl
  refine does_bind (does_saveConversionRecovery ?_ hthrow)
  refine does_bind (does_require (fun _ => ?_) hthrow)
  refine does_bind (does_mutateRecoveryDeployment (· = .gone) ?_ ?_ hthrow ?_)
  · intro call journal Q' E' hQ' hE'
    rw [hj.id]
    exact does_sendRemove (hQ' _ rfl) hE'
  · rintro h' marked rfl
    have hgone : ∀ error, E error ⟨.gone, some ⟨original, plugins, marked⟩, n⟩ :=
      fun error => hE error _ _ fun _ _ => ⟨hd, .inl rfl⟩
    refine does_bind (does_storeRead (fun row => ?_) hgone)
    refine does_bind (does_ensure (fun _ => ?_) (hgone _))
    refine does_rebuildConversionLocked hj (fun h' mutations' hr => hQ h' mutations' hd hr) ?_
    exact fun error h' mutations' hleft => hE error h' mutations' fun _ _ => ⟨hd, hleft⟩
  · intro error h' pending _ hunacked
    refine hE error h' pending fun hall _ => ?_
    rw [hunacked] at hall
    cases hall

/-- A conversion that returns has rebuilt the proxy at the target level, and
one that throws after it wrote a rollback on record has rebuilt the original. -/
theorem does_convertEnforcementLocked {document : J} {nextAgents : Option J}
    {nextMethods : Option (List String)} {v : OwnView J} {Q : ℕ → OwnView J → Prop}
    (hpath : listenPathFor api.shape.slug = k.path)
    (hconfigs : handOwnedPlugins v.held.configs = k.configs)
    (hplaced : ∀ config ∈ v.held.configs, config.proxyId = k.proxyId)
    (hkeyed : ∀ proxy, v.held.proxy = some proxy → proxy.body.id = k.proxyId)
    (hmoved : target ≠ api.shape.specEnforcement)
    (hQ : ∀ specId original h' mutations', v.held.proxy = some original →
      Journalled k api original v.held.configs → Deployed k api original →
      Rebuilt target (rebuiltBody original.body k.path nextAgents nextMethods api.shape.cors)
        k.configs h' →
      Q specId ⟨h', some ⟨original, v.held.configs, mutations'⟩, v.rollbacks⟩)
    (hE : ∀ error v', v'.rollbacks = v.rollbacks ∨ v'.rollbacks = v.rollbacks + 1 ∧
        (∃ original, v.held.proxy = some original ∧
          Rebuilt api.shape.specEnforcement original.body k.configs v'.held) →
      E error v') :
    k.scope.Does v
      (convertEnforcementLocked docs k.slot api k.proxyId target document nextAgents nextMethods)
      Q E := by
  have hthrow : ∀ error, E error v := fun error => hE error v (.inl rfl)
  refine does_bind (does_assertBackendEgress ?_ hthrow)
  refine does_bind (does_readEdge (fun e hheld => ?_) hthrow)
  rw [Edge.proxies_of_held hheld rfl]
  cases hproxy : v.held.proxy with
  | none => exact does_throw (hthrow _)
  | some original =>
    refine does_bind (does_readEdge (fun e hheld => ?_) hthrow)
    have hplugins : e.listByProxy k.proxyId = v.held.configs := congrArg Held.configs hheld
    rw [hplugins]
    refine does_bind (does_storeRead (fun current => ?_) hthrow)
    cases current with
    | none => exact does_throw (hthrow _)
    | some originalSpec =>
      have hj : Journalled k api original v.held.configs :=
        ⟨hkeyed original hproxy, hpath, hconfigs, hplaced⟩
      refine does_bind (does_readEdge (fun _ _ => ?_) hthrow)
      refine does_bind (does_openJournal ?_)
      refine does_bind (does_saveConversionRecovery ?_ fun error => hE error _ (.inl rfl))
      refine does_bind (does_tryCatch (does_convertAdmitted hj (fun h' mutations' hd hr => ?_) ?_))
      · exact does_pure (hQ _ original h' mutations' hproxy hj hd hr)
      · intro error h' mutations' hfailed
        have hsame : ∀ error h' mutations',
            E error ⟨h', some ⟨original, v.held.configs, mutations'⟩, v.rollbacks⟩ :=
          fun error h' mutations' => hE error _ (.inl rfl)
        have hreport : ∀ h' mutations', k.scope.Does
            ⟨h', some ⟨original, v.held.configs, mutations'⟩, v.rollbacks⟩
            (reportUnrepairableProxy k.proxyId) (fun _ => E error) E :=
          fun h' mutations' => does_reportUnrepairableProxy (hsame _ _ _) (hsame · _ _)
        refine does_bind (Does.mono (Q := fun _ => E error) ?_ (fun _ _ => does_throw) fun _ _ => id)
        refine does_tryCatch (does_bind (does_assertRecoveryAcknowledged ?_ ?_))
        · intro hall
          refine does_bind (does_readMemory fun recovery hrecovery => ?_)
          have hmutations : mutations' = recovery.mutations :=
            congrArg JournalView.mutations (Option.some.inj hrecovery)
          rw [← hmutations]
          refine does_bind (does_ensure (fun hany => ?_) (hreport _ _))
          obtain ⟨hd, hleft⟩ := hfailed (hall _ rfl) hany
          refine does_restoreConversion hj hd hmoved hleft ?_ fun _ h' mutations' => hreport h' mutations'
          intro h'' mutations'' n' hn
          refine hE error _ ?_
          rcases hn with hn | ⟨hn, hr⟩
          · exact .inl hn
          · exact .inr ⟨hn, original, hproxy, hr⟩
        · exact fun _ => hreport _ _

/-- The undo step rebuilds the original from what the conversion left. -/
theorem does_undoConversion {specId : ℕ} (hj : Journalled k api original plugins)
    (hd : Deployed k api original) (hmoved : level ≠ api.shape.specEnforcement)
    (hleft : Leftover k level h) (hQ : ∀ h' mutations' n', n' = n ∨ n' = n + 1 ∧
        Rebuilt api.shape.specEnforcement original.body k.configs h' →
      Q () ⟨h', some ⟨original, plugins, mutations'⟩, n'⟩)
    (hE : ∀ error h' mutations', E error ⟨h', some ⟨original, plugins, mutations'⟩, n⟩) :
    k.scope.Does ⟨h, some ⟨original, plugins, mutations⟩, n⟩
      (undoConversion docs k.slot api k.proxyId specId) Q E := by
  have hreport : ∀ error h' mutations', k.scope.Does ⟨h', some ⟨original, plugins, mutations'⟩, n⟩
      (do
        reportUnrepairableProxy k.proxyId
        throw error) Q E := by
    intro error h' mutations'
    refine does_bind (does_reportUnrepairableProxy ?_ (hE · _ _))
    exact does_throw (hE _ _ _)
  refine does_tryCatch ?_
  refine does_bind (does_storeRead (fun row => ?_) (hreport · _ _))
  refine does_bind (does_whenever (fun _ => does_saveConversionRecovery ?_ (hreport · _ _)) fun _ => ?_)
  · exact does_restoreConversion hj hd hmoved hleft hQ hreport
  · exact does_restoreConversion hj hd hmoved hleft hQ hreport

end Conversion

section Frame

variable {J : Type} {e e' : Edge J} {proxyId : ℕ}

/-- From `e` to `e'` the hand-owned configs that run on the proxy are the same,
and so are its fields, with `agents` up to the allowed methods. Which
disabled configs the proxy names is not compared: none of them runs. -/
structure ModeOnly (proxyId : ℕ) (agents : Bool) (e e' : Edge J) : Prop where
  running : ∀ config, config.handOwned = true →
    (e'.Runs proxyId config ↔ e.Runs proxyId config)
  fields : ∀ proxy, e.proxies proxyId = some proxy → ∃ proxy', e'.proxies proxyId = some proxy' ∧
    ((agents = false → proxy'.body = proxy.body) ∧
      { proxy'.body with allowedMethods := none } = { proxy.body with allowedMethods := none })

/-- Every enabled hand-owned config scoped to the proxy is named by it. -/
def EnabledNamed (proxyId : ℕ) (e : Edge J) : Prop :=
  ∀ config ∈ e.configs, config.proxyId = proxyId → config.handOwned = true →
    config.enabled = true → ∃ proxy, e.proxies proxyId = some proxy ∧ config.id ∈ proxy.plugins

theorem mem_handOwned_held {config : PluginConfig J} :
    config ∈ handOwnedPlugins (e.held proxyId).configs ↔
      config ∈ e.configs ∧ config.proxyId = proxyId ∧ config.handOwned = true := by
  simp only [handOwnedPlugins, Edge.held, Edge.listByProxy, List.mem_filter, beq_iff_eq, and_assoc]

/-- On a rebuilt proxy a hand-owned config runs if it is enabled. -/
theorem Rebuilt.runs_iff {level : Level} {body : ProxyBody J} {config : PluginConfig J}
    (hr : Rebuilt level body (handOwnedPlugins (e.held proxyId).configs) (e'.held proxyId))
    (hown : config.handOwned = true) :
    e'.Runs proxyId config ↔
      config ∈ e.configs ∧ config.proxyId = proxyId ∧ config.enabled = true := by
  obtain ⟨-, hsame, proxy, hproxy, hnamed⟩ := hr
  have hmem : config ∈ e'.configs ∧ config.proxyId = proxyId ↔
      config ∈ e.configs ∧ config.proxyId = proxyId := by
    have hiff := @mem_handOwned_held J e' proxyId config
    rw [hsame, mem_handOwned_held] at hiff
    simpa [hown] using hiff.symm
  constructor
  · rintro ⟨hconfig, hplace, henabled, -⟩
    obtain ⟨hbefore, -⟩ := hmem.mp ⟨hconfig, hplace⟩
    exact ⟨hbefore, hplace, henabled⟩
  · rintro ⟨hbefore, hplace, henabled⟩
    obtain ⟨hconfig, -⟩ := hmem.mpr ⟨hbefore, hplace⟩
    refine ⟨hconfig, hplace, henabled, proxy, hproxy, hnamed config ?_⟩
    exact mem_handOwned_held.mpr ⟨hbefore, hplace, hown⟩

/-- What a rebuild leaves is the same mode-only change exactly if no enabled
hand-owned config was unnamed. -/
theorem Rebuilt.modeOnly_iff {level : Level} {body : ProxyBody J} {agents : Bool}
    {original : Proxy J}
    (hr : Rebuilt level body (handOwnedPlugins (e.held proxyId).configs) (e'.held proxyId))
    (hproxy : (e.held proxyId).proxy = some original)
    (hexact : agents = false → body = original.body)
    (hfields : { body with allowedMethods := none } = { original.body with allowedMethods := none }) :
    ModeOnly proxyId agents e e' ↔ EnabledNamed proxyId e := by
  constructor
  · intro hmode config hconfig hplace hown henabled
    have hruns := (hr.runs_iff hown).mpr ⟨hconfig, hplace, henabled⟩
    exact ((hmode.running config hown).mp hruns).2.2.2
  · intro hnamed
    refine ⟨fun config hown => ?_, fun proxy hbefore => ?_⟩
    · rw [hr.runs_iff hown]
      constructor
      · rintro ⟨hconfig, hplace, henabled⟩
        exact ⟨hconfig, hplace, henabled, hnamed config hconfig hplace hown henabled⟩
      · rintro ⟨hconfig, hplace, henabled, -⟩
        exact ⟨hconfig, hplace, henabled⟩
    · have hsame : some proxy = some original := hbefore.symm.trans hproxy
      cases hsame
      obtain ⟨⟨-, rebuilt, hrebuilt, hbody, -⟩, -⟩ := hr
      exact ⟨rebuilt, hrebuilt, hbody ▸ hexact, hbody ▸ hfields⟩

variable [DecidableEq J]

/-- A conversion that returns, one that throws and rolled back, and the undo of
a conversion that returned change the mode and nothing else that runs, exactly
if every enabled hand-owned config had been named by the proxy. Whatever it
does in between, the public path is served unchanged or with every hand-owned
config on the proxy and named. -/
theorem conversion_changes_mode_alone (docs : Documents J) (slot : ℕ) (api : ApiRecord J)
    (proxyId : ℕ) (target : Level) (document : J) (nextAgents : Option J)
    (nextMethods : Option (List String)) (s : PublishingState J) (hwf : s.edge.WellFormed)
    (hmoved : target ≠ api.shape.specEnforcement) :
    let k : Custody J := ⟨proxyId, slot, listenPathFor api.shape.slug,
      handOwnedPlugins (s.edge.listByProxy proxyId)⟩
    wpe k.scope.Others k.scope.Moves
      (convertEnforcementLocked docs slot api proxyId target document nextAgents nextMethods)
      (fun specId s' =>
        (ModeOnly proxyId nextAgents.isSome s.edge s'.edge ↔ EnabledNamed proxyId s.edge) ∧
        wpe k.scope.Others k.scope.Moves (undoConversion docs slot api proxyId specId)
          (fun _ s'' => s''.rollbacks = s'.rollbacks + 1 →
            (ModeOnly proxyId false s.edge s''.edge ↔ EnabledNamed proxyId s.edge))
          (fun _ _ => True) s')
      (fun _ s' => s'.rollbacks = s.rollbacks + 1 →
        (ModeOnly proxyId false s.edge s'.edge ↔ EnabledNamed proxyId s.edge)) s := by
  intro k
  let Restored (v : OwnView J) : Prop := ∀ e' : Edge J, e'.held proxyId = v.held →
    (ModeOnly proxyId false s.edge e' ↔ EnabledNamed proxyId s.edge)
  have hrestored : ∀ (original : Proxy J) (v : OwnView J),
      (s.edge.held proxyId).proxy = some original →
      Rebuilt api.shape.specEnforcement original.body k.configs v.held → Restored v := by
    intro original v hproxy hr e' hheld
    exact Rebuilt.modeOnly_iff (hheld ▸ hr) hproxy (fun _ => rfl) rfl
  have hdoes : k.scope.Does (k.scope.view s)
      (convertEnforcementLocked docs slot api proxyId target document nextAgents nextMethods)
      (fun specId v' =>
        (∀ e' : Edge J, e'.held proxyId = v'.held →
          (ModeOnly proxyId nextAgents.isSome s.edge e' ↔ EnabledNamed proxyId s.edge)) ∧
        k.scope.Does v' (undoConversion docs slot api proxyId specId)
          (fun _ v'' => v''.rollbacks = v'.rollbacks + 1 → Restored v'') fun _ _ => True)
      fun _ v' => v'.rollbacks = s.rollbacks + 1 → Restored v' := by
    refine does_convertEnforcementLocked (k := k) rfl rfl ?_ (hwf.keyed proxyId) hmoved ?_ ?_
    · exact fun config hconfig => by simpa using (List.mem_filter.mp hconfig).2
    · intro specId original h' mutations' hproxy hj hd hr
      refine ⟨fun e' (hheld : e'.held proxyId = h') => ?_, ?_⟩
      · refine Rebuilt.modeOnly_iff (hheld ▸ hr) hproxy (fun hagents => ?_) ?_
        · simp only [rebuiltBody, hagents, ← hd.path, Bool.false_eq_true, if_false]
        · simp only [rebuiltBody, ← hd.path]
      · refine does_undoConversion hj hd hmoved (hr.1.leftover hj.id) ?_ fun _ _ _ => trivial
        intro h'' mutations'' n' hn hcount
        rcases hn with hn | ⟨-, hr'⟩
        · exact absurd (hcount.symm.trans hn) (Nat.succ_ne_self _)
        · exact hrestored original _ hproxy hr'
    · intro error v' hv' hcount
      rcases hv' with hn | ⟨-, original, hproxy, hr⟩
      · exact absurd (hcount.symm.trans hn) (Nat.succ_ne_self _)
      · exact hrestored original v' hproxy hr
  refine wpe_mono (hdoes s rfl hwf.ids) ?_ ?_
  · rintro specId s' ⟨hsound, hmode, hundo⟩
    refine ⟨hmode s'.edge rfl, wpe_mono (hundo s' rfl hsound) ?_ fun _ _ _ => trivial⟩
    exact fun _ s'' ⟨_, hs''⟩ hcount => hs'' hcount s''.edge rfl
  · exact fun _ s' ⟨_, hs'⟩ hcount => hs' hcount s'.edge rfl

end Frame

section Worlds

/-- An importer that generates the validator alone. -/
def validatorDocuments : Documents ℕ where
  rewrite document _ := document
  policy _ _ _ _ := []
  preserve generated _ := generated
  importer submitted :=
    [⟨100, OPENAPI_VALIDATOR_PLUGIN, submitted.proxy.id, true, submitted.document, none, 0, none⟩]
  policyMatches _ _ _ _ := true
  unenrolled _ := false
  replayable _ _ := true

def ordersApi : ApiRecord ℕ := ⟨⟨"orders", .docsOnly, none, none, none, 0⟩, some 1, .deployed⟩

def keyAuthConfig : PluginConfig ℕ := ⟨10, "key_auth", 1, true, 0, none, 0, none⟩

def ipRestrictionConfig : PluginConfig ℕ := ⟨11, "ip_restriction", 1, true, 0, none, 0, none⟩

/-- A deployed API whose proxy names `plugins`. -/
def ordersWorld (plugins : List ℕ) : PublishingState ℕ where
  edge := {
    proxies := fun id => if id = 1 then some ⟨⟨1, .slug "orders", none, 0⟩, plugins, none⟩ else none
    configs := [keyAuthConfig, ipRestrictionConfig]
    specs := []
    etag := 0
    fresh := 50 }
  api := some ordersApi
  currentSpec := some ⟨5, 7⟩
  palette := []
  recovery := none
  cleanup := none
  memory := fun _ => none
  rebuild := fun _ => none
  fresh := 0
  rollbacks := 0
  sent := []
  acked := []

theorem ordersWorld_wellFormed (plugins : List ℕ) : (ordersWorld plugins).edge.WellFormed where
  ids := by simp [ordersWorld, keyAuthConfig, ipRestrictionConfig]
  keyed := by
    intro id proxy hproxy
    simp only [ordersWorld] at hproxy
    split_ifs at hproxy with hid
    cases hproxy
    exact hid.symm

/-- The conversion of the API, every call of it answered. -/
def convertOrders (plugins : List ℕ) : Option (Except NexusError ℕ × PublishingState ℕ) :=
  (convertEnforcementLocked validatorDocuments 0 ordersApi 1 .routes 7 none none).run.exec
    (List.replicate 200 .ok) (ordersWorld plugins)

/-- Where both configs are named, the conversion succeeds and both still run. -/
theorem conversion_changes_mode_alone_named :
    ∃ specId s', convertOrders [10, 11] = some (.ok specId, s') ∧
      ModeOnly 1 false (ordersWorld [10, 11]).edge s'.edge ∧
      s'.edge.Runs 1 ipRestrictionConfig := by
  have hdone : (convertOrders [10, 11]).any (fun r => r.1.toBool) = true := by decide +kernel
  obtain ⟨⟨result, s'⟩, hexec, hok⟩ := (Option.any_eq_true _ _).mp hdone
  cases result with
  | error _ => cases hok
  | ok specId =>
    have hall := conversion_changes_mode_alone validatorDocuments 0 ordersApi 1 .routes 7 none none
      (ordersWorld [10, 11]) (ordersWorld_wellFormed _) (by decide)
    have hmode := (wp_exec (fun s => ⟨rfl, id⟩) hall hexec).1.mpr (by
      intro config hconfig _ _ _
      refine ⟨⟨⟨1, .slug "orders", none, 0⟩, [10, 11], none⟩, rfl, ?_⟩
      rcases List.mem_pair.mp hconfig with rfl | rfl
      · decide
      · decide)
    exact ⟨specId, s', hexec, hmode, (hmode.running _ (by decide)).mpr (by decide)⟩

/-- A config the proxy did not name runs on it after the conversion. -/
theorem unnamed_config_runs_after_conversion :
    ∃ specId s', convertOrders [10] = some (.ok specId, s') ∧
      ¬ (ordersWorld [10]).edge.Runs 1 ipRestrictionConfig ∧
      s'.edge.Runs 1 ipRestrictionConfig ∧
      ¬ ModeOnly 1 false (ordersWorld [10]).edge s'.edge := by
  have hdone : (convertOrders [10]).any (fun r => r.1.toBool &&
      decide (r.2.edge.Runs 1 ipRestrictionConfig)) = true := by decide +kernel
  obtain ⟨⟨result, s'⟩, hexec, hok⟩ := (Option.any_eq_true _ _).mp hdone
  rw [Bool.and_eq_true, decide_eq_true_eq] at hok
  have hbefore : ¬ (ordersWorld [10]).edge.Runs 1 ipRestrictionConfig := by decide
  cases result with
  | error _ => cases hok.1
  | ok specId =>
    refine ⟨specId, s', hexec, hbefore, hok.2, fun hmode => ?_⟩
    exact hbefore ((hmode.running _ (by decide)).mp hok.2)

end Worlds

end FerrumNexus.Publishing
