import FerrumNexus.Publishing.Held

/-!
# What the steps of a conversion do to its proxy

One specification for each step, over what the conversion owns. Everything
that only reads, checks or saves the journal leaves the view as it is. A
conditional write either returns, and was applied, or throws; after it threw,
the journal in memory has an unacknowledged entry or the view is unchanged.
-/
namespace FerrumNexus.Publishing

open Saga Saga.Scope Platform

section Rules

variable {J α : Type} {k : Custody J} {v : OwnView J} {Q : α → OwnView J → Prop}
  {E : NexusError → OwnView J → Prop}

theorem does_readEdge {f : Edge J → α}
    (hQ : ∀ e : Edge J, e.held k.proxyId = v.held → Q (f e) v) (hE : ∀ error, E error v) :
    k.scope.Does v (readEdge f) Q E :=
  does_edgeRead (fun s hv => hQ s.edge (congrArg OwnView.held hv)) hE

theorem does_storeRead {f : PublishingState J → α} (hQ : ∀ a, Q a v)
    (hE : ∀ error, E error v) : k.scope.Does v (storeRead f) Q E :=
  Platform.does_storeRead (fun _ _ => hQ _) hE

/-- A transaction that leaves the gateway and the journal in memory alone. -/
theorem does_transaction {f : PublishingState J → Except NexusError (α × PublishingState J)}
    (hf : ∀ s, s.rollbacks = v.rollbacks → ∀ a s', f s = .ok (a, s') →
      s'.edge = s.edge ∧ s'.memory = s.memory ∧ Q a { v with rollbacks := s'.rollbacks })
    (hE : ∀ error, E error v) : k.scope.Does v (transaction f) Q E := by
  refine Platform.does_transaction ?_ hE
  rintro s rfl hs a s' hfs
  obtain ⟨hedge, hmem, hq⟩ := hf s rfl a s' hfs
  have hview : k.scope.view s' = { ownView k.proxyId k.slot s with rollbacks := s'.rollbacks } := by
    simp only [Custody.scope, ownView, hedge, hmem]
  refine ⟨?_, ?_, ?_⟩
  · simpa only [Custody.scope, hedge] using hs
  · rw [hview]
    exact k.scope.moves_refl (k.scope.view s)
  · rw [hview]
    exact hq

/-- A write to the gateway. A lost one was applied and throws all the same. -/
theorem does_writeEdge {f : Edge J → Except NexusError (α × Edge J)}
    (hok : ∀ e : Edge J, (e.configs.map (·.id)).Nodup → e.held k.proxyId = v.held →
      ∀ a e', f e = .ok (a, e') → (e'.configs.map (·.id)).Nodup ∧
        Held.Step k.path k.configs v.held (e'.held k.proxyId) ∧
        Q a { v with held := e'.held k.proxyId } ∧
        ∀ error, E error { v with held := e'.held k.proxyId })
    (hE : ∀ error, E error v) : k.scope.Does v (writeEdge f) Q E := by
  rintro s rfl hs
  refine wpe_writeEdge (fun s₁ hr a e' hfe => ?_) fun s₁ hr => ?_
  · obtain ⟨hids, hmoves, hq, herr⟩ := hok s₁.edge (hr.2 hs) (congrArg OwnView.held hr.1) a e' hfe
    rw [← hr.1] at hmoves hq herr
    exact ⟨hmoves, ⟨hids, hq⟩, fun _ => ⟨hids, herr _⟩⟩
  · exact ⟨k.scope.moves_refl _, fun _ => ⟨hr.2 hs, hr.1 ▸ hE _⟩⟩

variable {Q : Unit → OwnView J → Prop} {f : ConversionRecovery J → ConversionRecovery J}

theorem does_sendConditional {request : Request} {f : Edge J → Except NexusError (Unit × Edge J)}
    (hok : ∀ e : Edge J, (e.configs.map (·.id)).Nodup → e.held k.proxyId = v.held →
      ∀ e', f e = .ok ((), e') → (e'.configs.map (·.id)).Nodup ∧
        Held.Step k.path k.configs v.held (e'.held k.proxyId) ∧
        Q () { v with held := e'.held k.proxyId } ∧
        ∀ error, E error { v with held := e'.held k.proxyId })
    (hE : ∀ error, E error v) : k.scope.Does v (sendConditional request f) Q E := by
  rintro s rfl hs
  refine wpe_sendConditional (fun s₁ hr e' hfe => ?_) fun s₁ hr => ?_
  · obtain ⟨hids, hmoves, hq, herr⟩ := hok s₁.edge (hr.2 hs) (congrArg OwnView.held hr.1) e' hfe
    rw [← hr.1] at hmoves hq herr
    exact ⟨⟨hmoves, hids, hq⟩, hmoves, fun _ => ⟨hids, herr _⟩⟩
  · exact ⟨k.scope.moves_refl (k.scope.view s₁), fun _ => ⟨hr.2 hs, hr.1 ▸ hE _⟩⟩

theorem does_readMemory {Q : ConversionRecovery J → OwnView J → Prop}
    (hQ : ∀ recovery : ConversionRecovery J, v.journal = some recovery.view → Q recovery v) :
    k.scope.Does v (readMemory k.slot) Q E := by
  refine does_atomic ?_
  rintro s rfl hs c r s' hf
  have hm := k.scope.moves_refl (k.scope.view s)
  cases hmem : s.memory k.slot with
  | none => simp [hmem] at hf
  | some recovery =>
    simp only [hmem, Option.map_some, Option.some.injEq, Prod.mk.injEq] at hf
    obtain ⟨rfl, rfl⟩ := hf
    refine ⟨hs, hm, hQ recovery ?_⟩
    simp [Custody.scope, ownView, hmem]

theorem does_openJournal {recovery : ConversionRecovery J}
    (hQ : Q () { v with journal := some recovery.view }) :
    k.scope.Does v (openJournal k.slot recovery) Q E := by
  refine does_atomic ?_
  rintro s rfl hs c r s' hstep
  cases hstep
  have hview : k.scope.view { s with memory := Function.update s.memory k.slot (some recovery) } =
      { k.scope.view s with journal := some recovery.view } := by
    simp only [Custody.scope, ownView, Function.update_self, Option.map_some]
  refine ⟨hs, Held.Step.refl _, ?_⟩
  rw [hview]
  exact hQ

/-- An edit of the journal, as its view sees it. -/
theorem does_remember (g : JournalView J → JournalView J)
    (hf : ∀ recovery, (f recovery).view = g recovery.view)
    (hQ : Q () { v with journal := v.journal.map g }) :
    k.scope.Does v (remember k.slot f) Q E := by
  refine does_atomic ?_
  rintro s rfl hs c r s' hstep
  cases hstep
  have hview : k.scope.view (editMemory k.slot f s) =
      { ownView k.proxyId k.slot s with journal := (ownView k.proxyId k.slot s).journal.map g } := by
    simp only [Custody.scope, ownView, editMemory, Function.update_self, Option.map_map]
    congr 1
    cases s.memory k.slot with
    | none => rfl
    | some recovery => simp [hf]
  refine ⟨hs, ?_, ?_⟩
  · rw [hview]
    exact Held.Step.refl _
  · rw [hview]
    exact hQ

/-- An edit of the staged rebuild in the journal is not seen. -/
theorem does_remember_attempt (hf : ∀ recovery, (f recovery).view = recovery.view) (hQ : Q () v) :
    k.scope.Does v (remember k.slot f) Q E := by
  refine does_remember id hf ?_
  simpa using hQ

theorem does_newId {Q : ℕ → OwnView J → Prop} (hQ : ∀ id, Q id v) :
    k.scope.Does v newId Q E := by
  refine does_atomic ?_
  rintro s rfl hs c r s' hstep
  cases hstep
  exact ⟨hs, k.scope.moves_refl _, hQ _⟩

end Rules

section Quiet

variable {J : Type} [DecidableEq J] {k : Custody J} {v : OwnView J} {Q : Unit → OwnView J → Prop}
  {E : NexusError → OwnView J → Prop}

omit [DecidableEq J] in
theorem does_assertBackendEgress (hQ : Q () v) (hE : ∀ error, E error v) :
    k.scope.Does v assertBackendEgress Q E :=
  does_readEdge (fun _ _ => hQ) hE

variable {api : ApiRecord J}

theorem does_saveConversionRecovery {start : Bool} (hQ : Q () v) (hE : ∀ error, E error v) :
    k.scope.Does v (saveConversionRecovery k.slot api start) Q E := by
  refine does_bind (does_readMemory fun recovery _ => does_transaction ?_ hE)
  intro s hroll a s' h
  obtain ⟨latest, -, -, rfl⟩ := saveRecovery_ok h
  exact ⟨rfl, rfl, by simpa only [hroll] using hQ⟩

omit [DecidableEq J] in
theorem does_assertRecoveryAcknowledged
    (hQ : (∀ journal, v.journal = some journal → journal.mutations.all (·.acknowledged)) → Q () v)
    (hE : ∀ error, E error v) : k.scope.Does v (assertRecoveryAcknowledged k.slot) Q E := by
  refine does_bind (does_readMemory fun recovery hjournal => does_require ?_ hE)
  intro hall
  refine hQ fun journal hj => ?_
  rw [hjournal] at hj
  cases hj
  exact hall

theorem does_observeConversionAttempt (hQ : Q () v) (hE : ∀ error, E error v) :
    k.scope.Does v (observeConversionAttempt k.slot api) Q E := by
  refine does_bind (does_readMemory fun recovery _ => ?_)
  refine does_bind (does_readEdge (fun e _ => ?_) hE)
  cases e.proxies recovery.proxy.body.id with
  | none => exact does_throw (hE _)
  | some proxy =>
    cases recovery.attempt with
    | none => exact does_throw (hE _)
    | some attempt =>
      refine does_bind (does_readEdge (fun _ _ => ?_) hE)
      refine does_bind (does_readEdge (fun _ _ => ?_) hE)
      refine does_bind (does_require (fun _ => ?_) hE)
      refine does_bind (does_readEdge (fun _ _ => ?_) hE)
      refine does_bind (does_require (fun _ => ?_) hE)
      refine does_bind (does_remember_attempt ?_ (does_saveConversionRecovery hQ hE))
      exact fun _ => rfl

omit [DecidableEq J] in
theorem does_prepare {kind : MutationKind} {id : ℕ} {original : Snapshot J} (hQ : Q () v)
    (hE : ∀ error, E error v) : k.scope.Does v (prepare kind id original) Q E :=
  does_bind (does_require (fun _ => does_assertBackendEgress hQ hE) hE)

theorem does_persist {kind : MutationKind} (hQ : Q () v) (hE : ∀ error, E error v) :
    k.scope.Does v (persist k.slot api kind) Q E := by
  refine does_bind (does_storeRead (fun row => ?_) hE)
  cases row with
  | some _ => exact does_saveConversionRecovery hQ hE
  | none =>
    refine does_bind (does_ensure (fun _ => ?_) (hE _))
    refine does_bind (does_readMemory fun recovery _ => does_transaction ?_ hE)
    intro s hroll a s' h
    split_ifs at h
    cases h
    exact ⟨rfl, rfl, by simpa only [hroll] using hQ⟩

omit [DecidableEq J] in
theorem does_buildSpecDocument {docs : Documents J} {document : J} {body : ProxyBody J}
    {agents : Option J} {Q : SubmittedSpec J → OwnView J → Prop}
    (hQ : ∀ submitted : SubmittedSpec J, submitted.proxy = body → Q submitted v)
    (hE : ∀ error, E error v) :
    k.scope.Does v (buildSpecDocument docs document body agents) Q E := by
  refine does_bind (does_assertBackendEgress ?_ hE)
  refine does_bind (does_readEdge (fun _ _ => ?_) hE)
  refine does_bind (does_readEdge (fun _ _ => ?_) hE)
  exact does_pure (hQ _ rfl)

theorem does_saveDigest {submitted : SubmittedSpec J} (hQ : Q () v) (hE : ∀ error, E error v) :
    k.scope.Does v (saveDigest k.slot api submitted) Q E := by
  refine does_bind (does_remember_attempt ?_ (does_saveConversionRecovery hQ hE))
  exact fun _ => rfl

theorem does_observedAuthority {Q : Observed J → OwnView J → Prop} (hQ : ∀ observed, Q observed v)
    (hE : ∀ error, E error v) : k.scope.Does v (observedAuthority k.slot) Q E := by
  refine does_bind (does_readMemory fun recovery _ => ?_)
  cases recovery.attempt.bind (·.observed) with
  | none => exact does_throw (hE _)
  | some observed => exact does_bind (does_require (fun _ => does_pure (hQ _)) hE)

theorem does_admitCutover {proxy : Proxy J} (hQ : Q () v) (hE : ∀ error, E error v) :
    k.scope.Does v (admitCutover k.slot proxy) Q E :=
  does_bind (does_observedAuthority (fun _ => does_require (fun _ => hQ) hE) hE)

omit [DecidableEq J] in
theorem does_reportUnrepairableProxy {proxyId : ℕ} (hQ : Q () v) (hE : ∀ error, E error v) :
    k.scope.Does v (reportUnrepairableProxy proxyId) Q E := by
  refine does_transaction ?_ hE
  intro s hroll a s' h
  have hq : Q () { v with rollbacks := s.rollbacks } := by simpa only [hroll] using hQ
  cases hapi : s.api with
  | none =>
    simp only [hapi] at h
    cases h
    exact ⟨rfl, rfl, hq⟩
  | some latest =>
    simp only [hapi] at h
    split_ifs at h
    all_goals
      cases h
      exact ⟨rfl, rfl, hq⟩

end Quiet

section Mutations

variable {J : Type} [DecidableEq J] {docs : Documents J} {k : Custody J} {h : Held J}
  {original : Proxy J} {plugins : List (PluginConfig J)} {mutations : List (Mutation J)} {n : ℕ}
  {Q : Unit → OwnView J → Prop} {E : NexusError → OwnView J → Prop}

omit [DecidableEq J] in
theorem does_pushMutation {mutation : Mutation J}
    (hQ : Q () ⟨h, some ⟨original, plugins, mutations ++ [mutation]⟩, n⟩) :
    k.scope.Does ⟨h, some ⟨original, plugins, mutations⟩, n⟩
      (remember k.slot (pushMutation mutation)) Q E :=
  does_remember (fun j => { j with mutations := j.mutations ++ [mutation] }) (fun _ => rfl) hQ

omit [DecidableEq J] in
theorem does_popMutation (hQ : Q () ⟨h, some ⟨original, plugins, mutations.dropLast⟩, n⟩) :
    k.scope.Does ⟨h, some ⟨original, plugins, mutations⟩, n⟩ (remember k.slot popMutation) Q E :=
  does_remember (fun j => { j with mutations := j.mutations.dropLast }) (fun _ => rfl) hQ

omit [DecidableEq J] in
theorem does_markMutation {call : ℕ} {acknowledged : Bool}
    (hQ : ∀ marked : List (Mutation J),
      (acknowledged = false → (∃ m ∈ mutations, m.call = call) →
        marked.all (·.acknowledged) = false) →
      (∀ m ∈ mutations, m.call = call → ∃ m' ∈ marked, m'.call = call) →
      Q () ⟨h, some ⟨original, plugins, marked⟩, n⟩) :
    k.scope.Does ⟨h, some ⟨original, plugins, mutations⟩, n⟩
      (remember k.slot (markMutation call acknowledged)) Q E := by
  refine does_remember (fun j => { j with mutations := j.mutations.map fun mutation =>
    if mutation.call = call then { mutation with acknowledged } else mutation })
    (fun _ => rfl) (hQ _ ?_ ?_)
  · rintro rfl ⟨m, hm, hcall⟩
    refine List.all_eq_false.mpr ⟨{ m with acknowledged := false }, ?_, by simp⟩
    exact List.mem_map.mpr ⟨m, hm, by simp [hcall]⟩
  · intro m hm hcall
    exact ⟨{ m with acknowledged }, List.mem_map.mpr ⟨m, hm, by simp [hcall]⟩, hcall⟩

variable {snapshot : Snapshot J}

/-- A conditional write returns only once it was applied and its journal entry
is acknowledged. It throws with the view it found, or with an unacknowledged
entry in the journal. -/
theorem does_mutateRecoveryDeployment {api : ApiRecord J} {kind : MutationKind} {id : ℕ}
    {document : Option (SubmittedSpec J)} (Sent : Held J → Prop)
    (hsend : ∀ (call : ℕ) (journal : Option (JournalView J)) (Q' : Unit → OwnView J → Prop)
      (E' : NexusError → OwnView J → Prop), (∀ h', Sent h' → Q' () ⟨h', journal, n⟩) →
      (∀ error h', h' = h ∨ Sent h' → E' error ⟨h', journal, n⟩) →
      k.scope.Does ⟨h, journal, n⟩ (sendMutation docs call kind id snapshot document) Q' E')
    (hQ : ∀ h' marked, Sent h' → Q () ⟨h', some ⟨original, plugins, marked⟩, n⟩)
    (hE : ∀ error, E error ⟨h, some ⟨original, plugins, mutations⟩, n⟩)
    (hpending : ∀ error h' (pending : List (Mutation J)), h' = h ∨ Sent h' →
      pending.all (·.acknowledged) = false →
      E error ⟨h', some ⟨original, plugins, pending⟩, n⟩) :
    k.scope.Does ⟨h, some ⟨original, plugins, mutations⟩, n⟩
      (mutateRecoveryDeployment docs k.slot api kind id snapshot document) Q E := by
  refine does_bind (does_assertRecoveryAcknowledged (fun _ => ?_) hE)
  refine does_bind (does_require (fun _ => ?_) hE)
  refine does_bind (does_prepare ?_ hE)
  refine does_bind (does_newId fun call => ?_)
  let mutation : Mutation J := ⟨kind, id, snapshot, false, call⟩
  have hunacked : (mutations ++ [mutation]).all (·.acknowledged) = false := by simp [mutation]
  have hentry : ∃ m ∈ mutations ++ [mutation], m.call = call :=
    ⟨mutation, List.mem_append_right _ (List.mem_singleton_self _), rfl⟩
  refine does_bind (does_pushMutation ?_)
  refine does_bind (does_persist ?_ fun error => hpending error h _ (.inl rfl) hunacked)
  refine does_bind (Q := Q) (does_tryCatch (does_map (does_prepare ?_ ?_)))
  · refine does_bind (hsend _ _ _ _ ?_ fun error h' hh => hpending error h' _ hh hunacked)
    intro h' hsent
    refine does_bind (does_markMutation fun marked _ hkept => ?_)
    refine does_tryCatch (does_persist (hQ h' marked hsent) fun error => ?_)
    obtain ⟨m, hm, hcall⟩ := hentry
    refine does_bind (does_markMutation fun unmarked hfalse _ => does_throw ?_)
    exact hpending error h' unmarked (.inr hsent) (hfalse rfl (hkept m hm hcall))
  · intro error
    refine does_pure ?_
    refine does_bind (does_popMutation ?_)
    rw [List.dropLast_concat]
    refine does_bind (does_tryCatch (does_persist ?_ fun _ => does_pushMutation ?_))
    · exact does_throw (hE error)
    · exact does_throw (hpending error h _ (.inl rfl) hunacked)

omit [DecidableEq J] in
/-- The conditional removal takes everything of the proxy. -/
theorem does_sendRemove {v : OwnView J} {call : ℕ} {document : Option (SubmittedSpec J)}
    (hQ : Q () { v with held := .gone })
    (hE : ∀ error h', h' = v.held ∨ h' = .gone → E error { v with held := h' }) :
    k.scope.Does v (sendMutation docs call .remove k.proxyId snapshot document) Q E := by
  refine does_sendConditional ?_ fun error => hE error v.held (.inl rfl)
  intro e hids _ e' hok
  obtain ⟨hids', hgone⟩ := removeProxy_ok hids (ifMatch_ok hok)
  rw [hgone]
  exact ⟨hids', Held.Step.of_unserved (Held.not_serves_gone _), hQ, fun error => hE error _ (.inr rfl)⟩

/-- What a replacement of the staged specification leaves. -/
def Reimported (h : Held J) (proxy : Proxy J) (body : ProxyBody J) (h' : Held J) : Prop :=
  handOwnedPlugins h'.configs = handOwnedPlugins h.configs ∧
    ∃ replaced, h'.proxy = some replaced ∧ replaced.body = body ∧ replaced.apiSpecId.isSome ∧
      ∀ config ∈ handOwnedPlugins h.configs, config.id ∈ proxy.plugins →
        config.id ∈ replaced.plugins

omit [DecidableEq J] in
theorem Reimported.covered {h h' : Held J} {proxy : Proxy J} {body : ProxyBody J}
    {configs : List (PluginConfig J)} (hr : Reimported h proxy body h')
    (hproxy : h.proxy = some proxy) (hc : h.Covered configs) : h'.Covered configs := by
  obtain ⟨hsame, replaced, hreplaced, -, -, hnamed⟩ := hr
  obtain ⟨hown, owner, howner, hids⟩ := hc
  rw [hproxy] at howner
  cases howner
  refine ⟨hsame.trans hown, replaced, hreplaced, ?_⟩
  intro config hconfig
  exact hnamed config (hown ▸ hconfig) (hids config hconfig)

omit [DecidableEq J] in
theorem does_sendReplace {v : OwnView J} {call id : ℕ} {submitted : SubmittedSpec J}
    {proxy : Proxy J} (hid : submitted.proxy.id = k.proxyId) (hproxy : v.held.proxy = some proxy)
    (hstaged : ¬ v.held.Serves k.path) (hcovered : v.held.Covered k.configs)
    (hQ : ∀ h', Reimported v.held proxy submitted.proxy h' → Q () { v with held := h' })
    (hE : ∀ error h', h' = v.held ∨ Reimported v.held proxy submitted.proxy h' →
      E error { v with held := h' }) :
    k.scope.Does v (sendMutation docs call .replace id snapshot (some submitted)) Q E := by
  refine does_sendConditional ?_ fun error => hE error v.held (.inl rfl)
  intro e hids hheld e' hok
  obtain ⟨hids', hsame, plugins, hplaced, hnamed⟩ :=
    reimportSpec_ok hids hid (hheld ▸ hproxy) (ifMatch_ok hok)
  rw [hheld] at hsame hnamed
  have hr : Reimported v.held proxy submitted.proxy (e'.held k.proxyId) :=
    ⟨hsame, _, hplaced, rfl, rfl, hnamed⟩
  refine ⟨hids', ⟨fun hs => absurd hs hstaged, fun _ _ => hr.covered hproxy hcovered⟩, hQ _ hr, ?_⟩
  exact fun error => hE error _ (.inr hr)

end Mutations

end FerrumNexus.Publishing
