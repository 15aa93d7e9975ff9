import FerrumNexus.Publishing.Restore

/-!
# Disciplines of a conversion

What the programs of a conversion are made of. Many of them only read. A
discipline is a property of programs that is closed under sequencing and holds
of the primitive writes; it then holds of the composite steps up to a whole
rebuild. The journal a program finds in memory is known to be `held`, and the
proxies it may create to be `mine`.
-/
namespace FerrumNexus.Publishing

open Saga Platform

section Reading

variable {J α : Type} {slot : ℕ}

theorem reads_readEdge (f : Edge J → α) : Reads (readEdge f) := reads_edgeRead _

theorem reads_require (condition : Bool) (message : String) :
    Reads (require (J := J) condition message) := reads_ensure condition _

theorem reads_assertBackendEgress : Reads (assertBackendEgress (J := J)) := reads_readEdge _

theorem reads_readMemory : Reads (readMemory (J := J) slot) := by
  refine reads_atomic ?_
  intro s c r s' hf
  cases hmem : s.memory slot with
  | none => simp [hmem] at hf
  | some recovery =>
    simp only [hmem, Option.map_some, Option.some.injEq, Prod.mk.injEq] at hf
    exact hf.2

theorem reads_readRebuild : Reads (readRebuild (J := J) slot) := by
  refine reads_atomic ?_
  intro s c r s' hf
  cases hmem : s.rebuild slot with
  | none => simp [hmem] at hf
  | some attempt =>
    simp only [hmem, Option.map_some, Option.some.injEq, Prod.mk.injEq] at hf
    exact hf.2

/-- A transaction that only writes the audit log. -/
theorem reads_audited :
    Reads (transaction fun s : PublishingState J => Except.ok ((), s)) := by
  refine reads_atomic ?_
  intro s c r s' hf
  cases c <;> cases hf <;> rfl

theorem reads_loadApi : Reads (loadApi (J := J)) := by
  refine (reads_storeRead _).bind fun row => ?_
  cases row with
  | none => exact reads_throw _
  | some api => exact reads_pure api

theorem reads_buildSpecDocument (docs : Documents J) (document : J) (body : ProxyBody J)
    (agents : Option J) : Reads (buildSpecDocument docs document body agents) := by
  refine reads_assertBackendEgress.bind fun _ => ?_
  refine (reads_readEdge _).bind fun _ => ?_
  exact (reads_readEdge _).bind fun _ => reads_pure _

theorem reads_specIdForProxy (proxyId : ℕ) : Reads (specIdForProxy (J := J) proxyId) := by
  refine (reads_readEdge _).bind fun spec => ?_
  cases spec with
  | none => exact reads_throw _
  | some spec => exact reads_pure _

theorem reads_prepare (kind : MutationKind) (id : ℕ) (original : Snapshot J) :
    Reads (prepare kind id original) :=
  (reads_require _ _).bind fun _ => reads_assertBackendEgress

theorem reads_assertRecoveryAcknowledged : Reads (assertRecoveryAcknowledged (J := J) slot) :=
  reads_readMemory.bind fun _ => reads_require _ _

variable [DecidableEq J]

theorem reads_readConversionRecovery (api : ApiRecord J) : Reads (readConversionRecovery api) := by
  refine (reads_storeRead _).bind fun stored => ?_
  cases stored with
  | none => exact reads_pure _
  | some recovery => exact (reads_require _ _).bind fun _ => reads_pure _

theorem reads_observedAuthority : Reads (observedAuthority (J := J) slot) := by
  refine reads_readMemory.bind fun recovery => ?_
  cases recovery.attempt.bind (·.observed) with
  | none => exact reads_throw _
  | some observed => exact (reads_require _ _).bind fun _ => reads_pure _

theorem reads_admitCutover (proxy : Proxy J) : Reads (admitCutover slot proxy) :=
  reads_observedAuthority.bind fun _ => reads_require _ _

theorem reads_conversionBaselineMatches : Reads (conversionBaselineMatches (J := J) slot) := by
  refine reads_readMemory.bind fun recovery => ?_
  refine (reads_readEdge _).bind fun found => ?_
  cases found with
  | none => exact reads_pure _
  | some live =>
    simp only
    split_ifs
    · exact reads_pure _
    · refine (reads_readEdge _).bind fun _ => ?_
      split_ifs
      · exact reads_pure _
      · exact (reads_readEdge _).bind fun _ => reads_pure _

theorem reads_originalConversionMatches (api : ApiRecord J) (current : ApiSpecRecord J) :
    Reads (originalConversionMatches slot api current) := by
  refine reads_readMemory.bind fun recovery => ?_
  split_ifs
  · exact reads_pure _
  · refine (reads_readEdge _).bind fun live => ?_
    split_ifs
    · exact reads_pure _
    · refine (reads_readEdge _).bind fun plugins => ?_
      split_ifs
      · exact reads_pure _
      · exact (reads_readEdge _).bind fun _ => reads_pure _

theorem reads_admitPartial : Reads (admitPartial (J := J) slot) := by
  refine reads_readMemory.bind fun recovery => ?_
  refine (reads_readEdge _).bind fun found => ?_
  cases found with
  | none => exact reads_pure _
  | some live =>
    cases recovery.attempt with
    | none => exact reads_throw _
    | some attempt =>
      refine (reads_require _ _).bind fun _ => (reads_require _ _).bind fun _ => ?_
      refine (reads_readEdge _).bind fun _ => (reads_require _ _).bind fun _ => ?_
      refine (reads_readEdge _).bind fun _ => (reads_require _ _).bind fun _ => ?_
      refine (reads_readEdge _).bind fun _ => (reads_require _ _).bind fun _ => ?_
      refine (reads_require _ _).bind fun _ => ?_
      cases attempt.observed with
      | none => exact reads_throw _
      | some expected =>
        refine (reads_require _ _).bind fun _ => ?_
        refine (reads_readEdge _).bind fun _ => (reads_require _ _).bind fun _ => ?_
        exact (reads_readEdge _).bind fun _ => (reads_require _ _).bind fun _ => reads_pure _

theorem reads_stagedAuthority (proxyId : ℕ) : Reads (stagedAuthority (J := J) proxyId) := by
  refine (reads_readEdge _).bind fun original => (reads_readEdge _).bind fun found => ?_
  cases found with
  | none => exact reads_throw _
  | some staged =>
    refine (reads_readEdge _).bind fun _ => (reads_readEdge _).bind fun _ => ?_
    exact (reads_require _ _).bind fun _ => reads_pure _

end Reading

/-- A property of programs, closed under sequencing, that reads and the writes
of configs and of existing proxies have. -/
structure Discipline (J : Type) where
  Good : {α : Type} → PublishingService J α → Prop
  reads : ∀ {α : Type} {p : PublishingService J α}, Reads p → Good p
  bind : ∀ {α β : Type} {p : PublishingService J α} {g : α → PublishingService J β},
    Good p → (∀ a, Good (g a)) → Good (p >>= g)
  newId : Good newId
  createConfig : ∀ config, Good (writeEdge (Edge.createConfig config))
  mutateProxy : ∀ proxyId {change : Proxy J → Option (ProxyBody J × List ℕ)},
    (∀ proxy body plugins, change proxy = some (body, plugins) → body.id = proxy.body.id) →
      Good (mutateProxyLocked proxyId change)

namespace Discipline

variable {J : Type} (d : Discipline J) {docs : Documents J}

theorem whenever {condition : Bool} {p : PublishingService J Unit} (h : d.Good p) :
    d.Good (whenever condition p) := by
  cases condition with
  | true => exact h
  | false => exact d.reads (reads_pure ())

theorem associate (proxyId : ℕ) (configIds : List ℕ) : d.Good (associateLocked proxyId configIds) := by
  refine d.mutateProxy proxyId ?_
  intro proxy body plugins hchange
  simp only at hchange
  split_ifs at hchange
  cases hchange
  rfl

/-- The cutover has the discipline of its write. -/
theorem cutOver (proxyId : ℕ) (level : Level) (listenPath : ListenPath) (document : J)
    (specId : Option ℕ) (agents : Option J) {checkRead : Proxy J → PublishingService J Unit}
    {write : ℕ → SubmittedSpec J → PublishingService J Unit} (hcheck : ∀ proxy, Reads (checkRead proxy))
    (hwrite : ∀ id submitted, d.Good (write id submitted)) :
    d.Good (cutOverToListenPathLocked docs proxyId level listenPath document specId agents checkRead
      write) := by
  have hspec : ∀ id, d.Good
      (cutOverSpec docs proxyId listenPath document agents checkRead (write id)) := by
    intro id
    refine d.bind (d.reads (reads_readEdge _)) fun found => ?_
    cases found with
    | none => exact d.reads (reads_throw _)
    | some proxy =>
      refine d.bind (d.reads (hcheck proxy)) fun _ => ?_
      exact d.bind (d.reads (reads_buildSpecDocument docs _ _ _)) fun submitted => hwrite id submitted
  cases level with
  | docsOnly =>
    have hmove : d.Good (mutateProxyLocked proxyId fun proxy =>
        some ({ proxy.body with listenPath := listenPath }, proxy.plugins)) := by
      refine d.mutateProxy proxyId ?_
      intro proxy body plugins hchange
      cases hchange
      rfl
    exact hmove
  | routes =>
    cases specId with
    | some id => exact hspec id
    | none => exact d.bind (d.reads (reads_specIdForProxy proxyId)) fun id => hspec id

end Discipline

/-- The discipline of the request that holds a journal in `slot`. -/
structure ConversionDiscipline (J : Type) [DecidableEq J] (slot : ℕ) extends Discipline J where
  held : ConversionRecovery J → Prop
  mine : ℕ → Prop
  mine_of_held : ∀ r, held r → mine r.proxy.body.id
  readMemory : ∀ {α : Type} {g : ConversionRecovery J → PublishingService J α},
    (∀ r, held r → Good (g r)) → Good (readMemory slot >>= g)
  remember : ∀ {f : ConversionRecovery J → ConversionRecovery J},
    (∀ r, (f r).proxy = r.proxy ∧ (f r).mutations = r.mutations ∧
      (f r).originalAuthority = r.originalAuthority) → Good (remember slot f)
  save : ∀ api, Good (saveConversionRecovery slot api false)
  mutate : ∀ docs api kind id original document,
    Good (mutateRecoveryDeployment docs slot api kind id original document)
  createProxy : ∀ body : ProxyBody J, mine body.id → Good (writeEdge (Edge.createProxy body))
  importSpec : ∀ importer (submitted : SubmittedSpec J), mine submitted.proxy.id →
    Good (writeEdge (Edge.importSpec importer submitted))

namespace ConversionDiscipline

variable {J : Type} [DecidableEq J] {slot : ℕ} (d : ConversionDiscipline J slot)
  {docs : Documents J}

theorem observeConversionAttempt (api : ApiRecord J) :
    d.Good (observeConversionAttempt slot api) := by
  refine d.bind (d.reads reads_readMemory) fun recovery => ?_
  refine d.bind (d.reads (reads_readEdge _)) fun found => ?_
  cases found with
  | none => exact d.reads (reads_throw _)
  | some proxy =>
    cases recovery.attempt with
    | none => exact d.reads (reads_throw _)
    | some attempt =>
      refine d.bind (d.reads (reads_readEdge _)) fun _ => ?_
      refine d.bind (d.reads (reads_readEdge _)) fun _ => ?_
      refine d.bind (d.reads (reads_require _ _)) fun _ => ?_
      refine d.bind (d.reads (reads_readEdge _)) fun _ => ?_
      refine d.bind (d.reads (reads_require _ _)) fun _ => ?_
      exact d.bind (d.remember fun _ => ⟨rfl, rfl, rfl⟩) fun _ => d.save api

theorem removeConversionPartialLocked (originalApi : Option (ApiRecord J)) :
    d.Good (removeConversionPartialLocked docs slot originalApi) := by
  refine d.bind (d.reads reads_assertRecoveryAcknowledged) fun _ => ?_
  refine d.bind (d.reads reads_admitPartial) fun admitted => ?_
  cases admitted with
  | none => exact d.reads (reads_pure _)
  | some target =>
    cases originalApi with
    | some api => exact d.mutate docs api _ _ _ _
    | none => exact d.bind (d.reads reads_loadApi) fun api => d.mutate docs api _ _ _ _

theorem saveDigest (api : ApiRecord J) (submitted : SubmittedSpec J) :
    d.Good (saveDigest slot api submitted) :=
  d.bind (d.remember fun _ => ⟨rfl, rfl, rfl⟩) fun _ => d.save api

theorem replaceObserved (api : ApiRecord J) (id : ℕ) (submitted : SubmittedSpec J) :
    d.Good (replaceObserved docs slot api id submitted) := by
  refine d.bind (d.reads reads_readMemory) fun recovery => ?_
  cases recovery.attempt.bind (·.observed) with
  | none => exact d.reads (reads_throw _)
  | some observed => exact d.mutate docs api _ _ _ _

theorem importCorrection (api : ApiRecord J) (proxyId specId : ℕ) (fix : Corrected J) :
    d.Good (importCorrection docs slot api proxyId specId fix) := by
  refine d.bind (d.reads (reads_readEdge _)) fun found => ?_
  cases found with
  | none => exact d.reads (reads_throw _)
  | some live =>
    refine d.bind (d.reads reads_observedAuthority) fun _ => ?_
    refine d.bind (d.reads (reads_buildSpecDocument docs _ _ _)) fun submitted => ?_
    refine d.bind (d.remember fun _ => ⟨rfl, rfl, rfl⟩) fun _ => ?_
    exact d.bind (d.replaceObserved api specId submitted) fun _ => d.observeConversionAttempt api

/-- What is submitted is about the proxy it was built for. -/
theorem createSpecOwnedProxy (document : J) (body : ProxyBody J) (agents : Option J)
    (preserved : Option (List (PluginConfig J)))
    {beforeWrite : SubmittedSpec J → PublishingService J Unit}
    (hbefore : ∀ submitted, d.Good (beforeWrite submitted)) (hmine : d.mine body.id) :
    d.Good (createSpecOwnedProxy docs document body agents preserved beforeWrite) := by
  simp only [Publishing.createSpecOwnedProxy, buildSpecDocument, bind_assoc, pure_bind]
  refine d.bind (d.reads reads_assertBackendEgress) fun _ => ?_
  refine d.bind (d.reads (reads_readEdge _)) fun live => ?_
  refine d.bind (d.reads (reads_readEdge _)) fun spec => ?_
  refine d.bind (hbefore _) fun _ => d.importSpec _ _ ?_
  cases preserved with
  | none => exact hmine
  | some _ => exact hmine

theorem createStaged (api : ApiRecord J) (level : Level) (agents : Option J) (body : ProxyBody J)
    (document : J) (preserved : Option (List (PluginConfig J))) (hmine : d.mine body.id) :
    d.Good (createStaged docs slot api level agents body document preserved) := by
  cases level with
  | routes =>
    refine d.bind (d.createSpecOwnedProxy _ _ _ _ (fun s => d.saveDigest api s) hmine) fun ref => ?_
    refine d.bind (d.remember fun _ => ⟨rfl, rfl, rfl⟩) fun _ => ?_
    exact d.bind (d.save api) fun _ => d.reads (reads_pure _)
  | docsOnly => exact d.bind (d.createProxy body hmine) fun _ => d.reads (reads_pure _)

theorem recreatePlugins (api : ApiRecord J) (proxyId : ℕ) (configs : List (PluginConfig J)) :
    d.Good (recreatePlugins proxyId (Publishing.observeConversionAttempt slot api) configs) := by
  induction configs with
  | nil => exact d.reads (reads_pure ())
  | cons config configs ih =>
    refine d.bind (d.createConfig _) fun _ => ?_
    exact d.bind (d.observeConversionAttempt api) fun _ => ih

theorem restorePluginsLocked (api : ApiRecord J) (proxyId : ℕ) (configs : List (PluginConfig J)) :
    d.Good (restorePluginsLocked proxyId configs (Publishing.observeConversionAttempt slot api)) := by
  refine d.bind (d.reads reads_assertBackendEgress) fun _ => ?_
  refine d.bind (d.recreatePlugins api proxyId configs) fun _ => ?_
  exact d.whenever (d.associate proxyId _)

theorem rebuildConversionLocked (api : ApiRecord J) (level : Level) (agents : Option J)
    (methods : Option (List String)) (preserveGenerated : Bool) (corrected : Option (Corrected J)) :
    d.Good (rebuildConversionLocked docs slot api level agents methods preserveGenerated
      corrected) := by
  refine d.bind (d.reads reads_assertRecoveryAcknowledged) fun _ => ?_
  refine d.bind d.newId fun path => ?_
  refine d.readMemory fun recovery hheld => ?_
  refine d.bind (d.remember fun _ => ⟨rfl, rfl, rfl⟩) fun _ => ?_
  refine d.bind (d.save api) fun _ => ?_
  refine d.bind (d.createStaged api _ _ _ _ _ (d.mine_of_held recovery hheld)) fun specId => ?_
  refine d.bind (d.observeConversionAttempt api) fun _ => ?_
  refine d.bind (d.restorePluginsLocked api _ _) fun _ => ?_
  refine d.bind (d.observeConversionAttempt api) fun _ => ?_
  have hcutover : ∀ document agents, d.Good (do
      cutOverToListenPathLocked docs recovery.proxy.body.id level (listenPathFor api.shape.slug)
        document specId agents (admitCutover slot) fun id submitted => do
          Publishing.saveDigest slot api submitted
          Publishing.replaceObserved docs slot api id submitted
      Publishing.observeConversionAttempt slot api) := by
    intro document agents
    refine d.bind ?_ fun _ => d.observeConversionAttempt api
    refine d.cutOver _ _ _ _ _ _ reads_admitCutover fun id submitted => ?_
    exact d.bind (d.saveDigest api submitted) fun _ => d.replaceObserved api id submitted
  cases corrected with
  | none => exact hcutover _ _
  | some fix =>
    have hverified : ∀ p : PublishingService J Unit, d.Good p → d.Good (do
        let found ← readEdge fun e => e.proxies recovery.proxy.body.id
        let e ← readEdge id
        require (found.any fun live => deploymentMatches docs e fix.api.shape fix.spec live
            (stagedBody recovery agents methods api.shape.cors path).listenPath)
          "The staged recovery does not match the API deployment"
        p) := by
      intro p hp
      refine d.bind (d.reads (reads_readEdge _)) fun _ => ?_
      refine d.bind (d.reads (reads_readEdge _)) fun _ => ?_
      exact d.bind (d.reads (reads_require _ _)) fun _ => hp
    cases specId with
    | none => exact hverified _ (hcutover _ _)
    | some id =>
      refine d.bind (d.whenever (d.importCorrection api _ id fix)) fun _ => ?_
      exact hverified _ (hcutover _ _)

/-- The corrected document onto a baseline that is still the original. -/
theorem replaceOriginal (latest : ApiRecord J) (current : ApiSpecRecord J) (live : Option (Proxy J)) :
    d.Good (replaceOriginal docs slot latest current live) := by
  refine d.bind (d.reads reads_readMemory) fun snapshot => ?_
  split
  · refine d.bind (d.reads (reads_require _ _)) fun _ => ?_
    refine d.bind (d.reads (reads_require _ _)) fun _ => ?_
    refine d.bind (d.reads (reads_buildSpecDocument docs _ _ _)) fun submitted => ?_
    exact d.mutate docs latest _ _ _ _
  · exact d.reads (reads_throw _)

theorem recoverDeployment {policies : Policies J} (latest : ApiRecord J) (current : ApiSpecRecord J) :
    d.Good (recoverDeployment docs policies slot latest current) := by
  refine d.bind (d.reads reads_assertRecoveryAcknowledged) fun _ => ?_
  refine d.bind (d.reads reads_readMemory) fun snapshot => ?_
  refine d.bind (d.reads (reads_readEdge _)) fun live => ?_
  refine d.bind (d.reads (reads_readEdge _)) fun e => ?_
  split_ifs
  · exact d.reads (reads_pure _)
  · refine d.bind (d.reads (reads_require _ _)) fun _ => ?_
    refine d.bind (d.reads (reads_edgeRead _)) fun _ => ?_
    refine d.bind (d.reads reads_conversionBaselineMatches) fun matched => ?_
    cases matched with
    | true =>
      exact d.bind (d.replaceOriginal latest current live) fun _ => d.reads (reads_pure _)
    | false =>
      refine d.bind (d.removeConversionPartialLocked none) fun _ => ?_
      exact d.bind (d.rebuildConversionLocked _ _ _ _ _ _) fun _ => d.reads (reads_pure _)

end ConversionDiscipline

end FerrumNexus.Publishing
