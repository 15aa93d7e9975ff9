import FerrumNexus.Publishing.EstateSteps

/-!
# Builds, rebuilds and deletions of a deployment

Publishing and a plain rebuild make a proxy under an id they minted, which
nothing but their own memory names until a row does. `Building` is what they
keep until then. A build ends with the row naming the proxy; a failed rebuild
ends with the proxy gone, or with the row naming what is left. A deletion that
succeeds leaves nothing the row named.
-/
namespace FerrumNexus.Publishing

open Saga Saga.Abstraction Platform

namespace Estate

/-- An attempt on the proxy `q` is all that is unaccounted for. -/
structure Building (k : Estate) (q : ℕ) (d : Deed) : Prop where
  row : d.row = k.beside
  attempt : d.rebuild = some q
  allowed : q ∈ d.may
  rest : ∀ id ∈ d.may, id ∈ k.excused ∨ id = q

/-- The row is there and names no proxy. -/
structure Vacated (k : Estate) (d : Deed) : Prop where
  row : d.row = some none
  settled : k.Settled d

end Estate

section Building

variable {J : Type} {k : Estate} {d : Deed} {q : ℕ} {docs : Documents J}

theorem Estate.Vacated.excused (h : k.Vacated d) : ∀ id ∈ d.may, id ∈ k.excused := by
  intro id hid
  rcases h.settled id hid with hexcused | hrow
  · exact hexcused
  · rw [h.row] at hrow
    cases hrow

theorem building_note {f : RebuildAttempt J → RebuildAttempt J} (hbuilds : k.builds = true)
    (hf : ∀ a, a.proxyId = q → (f a).proxyId = a.proxyId) :
    k.abstraction.Keeps (k.Building q) (noteRebuild k.slot f) := by
  refine fun d hd => holds_noteRebuild (fun a ha => hf a ?_) hbuilds hd
  exact Option.some.inj (ha.symm.trans hd.attempt)

/-- What the importer answers is about the proxy that was submitted. -/
theorem building_createSpecOwnedProxy {E : NexusError → Deed → Prop} (document : J)
    (body : ProxyBody J) (agents : Option J) (hbody : body.id = q) (hd : k.Building q d)
    (hE : ∀ error, E error d) :
    k.abstraction.Does d (createSpecOwnedProxy docs document body agents none fun _ => pure ())
      (fun ref d' => ref.1 = q ∧ k.Building q d') E := by
  simp only [createSpecOwnedProxy, buildSpecDocument, bind_assoc, pure_bind, withPreserved]
  refine does_bind (does_reads reads_assertBackendEgress (fun _ => ?_) hE)
  refine does_bind (does_reads (reads_readEdge _) (fun live => ?_) hE)
  refine does_bind (does_reads (reads_readEdge _) (fun spec => ?_) hE)
  have hadds : ∀ submitted : SubmittedSpec J, submitted.proxy.id = q →
      Edge.Adds d.may (Edge.importSpec docs.importer submitted) := fun submitted hid =>
    (Edge.adds_importSpec _ submitted).mono (Set.singleton_subset_iff.mpr (hid ▸ hd.allowed))
  refine holds_writeEdge (hadds _ hbody) (fun s hs ref e' hfe => ?_) hE
  refine ⟨d, hs.write (hadds _ hbody) hfe, ?_, hd⟩
  simp only [Edge.importSpec] at hfe
  split_ifs at hfe
  cases hfe
  exact hbody

theorem building_attach (hbuilds : k.builds = true) (proxyId : ℕ) (config : PluginConfig J) :
    k.abstraction.Keeps (k.Building q) (attach k.slot proxyId config) := by
  refine (keeps_reads reads_assertBackendEgress).bind fun _ => deeds_newId.bind fun id => ?_
  refine Keeps.bind (keeps_writeEdge ?_) fun _ => ?_
  · exact fun _ _ => (Edge.adds_createConfig _).of_empty
  refine Keeps.bind (building_note hbuilds ?_) fun _ => keeps_reads (reads_pure _)
  exact fun _ _ => rfl

theorem building_attachAll (hbuilds : k.builds = true) (proxyId : ℕ)
    (configs : List (PluginConfig J)) :
    k.abstraction.Keeps (k.Building q) (attachAll k.slot proxyId configs) := by
  induction configs with
  | nil => exact keeps_reads (reads_pure _)
  | cons config configs ih =>
    refine (building_attach hbuilds proxyId config).bind fun _ => ih.bind fun _ => ?_
    exact keeps_reads (reads_pure _)

theorem building_associateLocked (proxyId : ℕ) (configIds : List ℕ) :
    k.abstraction.Keeps (k.Building q) (associateLocked (J := J) proxyId configIds) :=
  (k.discipline (k.Building q)).associate proxyId configIds

/-- The staged proxy of a rebuild is the one its attempt names. -/
theorem building_createMissing (hbuilds : k.builds = true) (api : ApiRecord J)
    (current : ApiSpecRecord J) (body : ProxyBody J) (hbody : body.id = q)
    (hd : k.Building q d) :
    k.abstraction.Does d (createMissing docs k.slot api current body)
      (fun proxyId d' => proxyId = q ∧ k.Building q d') fun _ => k.Building q := by
  have hadds : Edge.Adds d.may (Edge.createProxy body) :=
    (Edge.adds_createProxy body).mono (Set.singleton_subset_iff.mpr (hbody ▸ hd.allowed))
  rw [createMissing]
  cases api.shape.specEnforcement with
  | routes =>
    refine does_bind ((building_createSpecOwnedProxy _ _ _ hbody hd fun _ => hd).mono
      (fun ref d hd => ?_) fun _ _ h => h)
    obtain ⟨hid, hd⟩ := hd
    refine does_bind ((building_note hbuilds ?_ d hd).mono (fun _ d hd => ?_) fun _ _ h => h)
    · exact fun a ha => hid.trans ha.symm
    refine does_bind (does_reads (reads_readEdge _) (fun live => ?_) fun _ => hd)
    refine does_bind (does_reads (reads_readEdge _) (fun document => ?_) fun _ => hd)
    refine does_bind (does_reads (reads_readEdge _) (fun generated => ?_) fun _ => hd)
    refine does_bind ((building_note hbuilds ?_ d hd).mono (fun _ d hd => ?_) fun _ _ h => h)
    · exact fun _ _ => rfl
    · exact does_pure ⟨hid, hd⟩
  | docsOnly =>
    refine does_bind (holds_writeEdge hadds (fun s hs _ e' hfe => ?_) fun _ => hd)
    refine ⟨d, hs.write hadds hfe, ?_⟩
    refine does_bind ((building_note hbuilds ?_ d hd).mono (fun _ d hd => ?_) fun _ _ h => h)
    · exact fun _ _ => rfl
    · exact does_pure ⟨hbody, hd⟩

/-- A transaction on the cleanup journal. -/
theorem keeps_cleanup {α : Type} {A : Deed → Prop}
    {f : PublishingState J → Except NexusError (α × PublishingState J)}
    (hf : ∀ s a s', f s = .ok (a, s') → ∃ cleanup, s' = { s with cleanup := cleanup }) :
    k.abstraction.Keeps A (transaction f) := by
  refine fun d hd => holds_transaction (fun s hs a s' hok => ?_) fun _ _ _ _ => hd
  obtain ⟨cleanup, rfl⟩ := hf s a s' hok
  exact ⟨d, ⟨hs.live, hs.others, hs.keyed, hs.row, hs.recovery, hs.memory, hs.rebuild, hs.titled,
    hs.journalled⟩, hd⟩

variable [DecidableEq J] {policies : Policies J}

theorem keeps_persistCutover {A : Deed → Prop} (api : ApiRecord J) (current : ApiSpecRecord J)
    (journal : CleanupJournal J) (start : Bool) :
    k.abstraction.Keeps A (persistCutover api current journal start) := by
  refine keeps_cleanup fun s a s' hok => ?_
  cases hapi : s.api with
  | none => simp [hapi] at hok
  | some latest =>
    simp only [hapi] at hok
    split_ifs at hok
    cases hok
    exact ⟨some journal, rfl⟩

omit [DecidableEq J] in
theorem keeps_persistRemoval {A : Deed → Prop} (proxyId : ℕ) (entry : Mutation J) :
    k.abstraction.Keeps A (persistRemoval proxyId entry) := by
  refine keeps_cleanup fun s a s' hok => ?_
  split_ifs at hok
  cases hok
  exact ⟨_, rfl⟩

theorem keeps_conditionalCutover {A : Deed → Prop} (api : ApiRecord J) (current : ApiSpecRecord J)
    (proxyId : ℕ) (original : Snapshot J) (id : ℕ) (document : SubmittedSpec J) :
    k.abstraction.Keeps A (conditionalCutover docs api current proxyId original id document) := by
  refine deeds_newId.bind fun call => (keeps_persistCutover api current _ _).bind fun _ => ?_
  refine (keeps_reads (reads_prepare _ _ _)).bind fun _ => ?_
  exact (keeps_sendMutation _ _ _ _ _).bind fun _ => keeps_persistCutover api current _ _

theorem building_cutOverMissing (hbuilds : k.builds = true) (api : ApiRecord J)
    (current : ApiSpecRecord J) (proxyId : ℕ) :
    k.abstraction.Keeps (k.Building q) (cutOverMissing docs k.slot api current proxyId) := by
  have hnote : ∀ f : RebuildAttempt J → RebuildAttempt J, (∀ a, (f a).proxyId = a.proxyId) →
      k.abstraction.Keeps (k.Building q) (noteRebuild k.slot f) :=
    fun f hf => building_note hbuilds fun a _ => hf a
  have hstarted := hnote (fun a => { a with cutoverStarted := true }) fun _ => rfl
  rw [cutOverMissing]
  cases api.shape.specEnforcement with
  | docsOnly =>
    refine hstarted.bind fun _ => ?_
    exact (k.discipline (k.Building q)).cutOver _ _ _ _ _ _ (fun _ => reads_pure ())
      fun _ _ => keeps_reads (reads_pure ())
  | routes =>
    refine (keeps_reads (reads_stagedAuthority proxyId)).bind fun original => ?_
    refine hstarted.bind fun _ => (keeps_reads reads_readRebuild).bind fun attempt => ?_
    refine (k.discipline (k.Building q)).cutOver _ _ _ _ _ _ (fun _ => reads_pure ())
      fun id submitted => ?_
    refine Keeps.bind (hnote (fun a => { a with specDocument := some submitted }) fun _ => rfl)
      fun _ => ?_
    exact keeps_conditionalCutover api current proxyId original id submitted

omit [DecidableEq J] in
/-- A proxy the row comes to name is accounted for. -/
theorem Estate.Building.named (h : k.Building q d) :
    k.Settled { d with row := some (some q) } := by
  intro id hid
  rcases h.rest id hid with hexcused | rfl
  · exact .inl hexcused
  · exact .inr rfl

omit [DecidableEq J] in
theorem Estate.Fits.named {s s' : PublishingState J} (h : k.Fits s d) (hd : k.Building q d)
    (hrow : s'.rowProxy = some (some q))
    (hedge : s'.edge = s.edge) (hrecovery : s'.recovery = s.recovery)
    (hmemory : s'.memory = s.memory) (hrebuild : s'.rebuild = s.rebuild) :
    k.Fits s' { d with row := some (some q) } := by
  refine ⟨hedge ▸ h.live, h.others, hedge ▸ h.keyed, hrow, ?_, ?_, ?_, ?_, ?_⟩
  · rw [hrecovery]
    exact h.recovery
  · rw [hmemory]
    exact h.memory
  · rw [hrebuild]
    exact h.rebuild
  · exact fun id hid => (hd.named id hid).imp_right .inl
  · intro id hid
    exact absurd (hd.row.symm.trans (h.journalled id hid)) (k.unnamed id)

theorem building_adoptRebuild (api : ApiRecord J) (current : ApiSpecRecord J)
    (palette : List (PaletteRow J)) (hd : k.Building q d) :
    k.abstraction.Does d (adoptRebuild api current q palette)
      (fun _ => k.Settled) fun _ => k.Building q := by
  refine holds_transaction (fun s hs a s' hok => ?_) fun _ _ _ _ => hd
  cases hapi : s.api with
  | none => simp [hapi] at hok
  | some latest =>
    simp only [hapi] at hok
    split_ifs at hok
    cases hok
    exact ⟨_, hs.named hd rfl rfl rfl rfl rfl, hd.named⟩

theorem building_buildMissing (hbuilds : k.builds = true) (api : ApiRecord J)
    (current : ApiSpecRecord J) (body : ProxyBody J) (palette : List (PaletteRow J))
    (hbody : body.id = q) (hd : k.Building q d) :
    k.abstraction.Does d (buildMissing docs policies k.slot api current body palette)
      (fun _ => k.Settled) fun _ => k.Building q := by
  refine does_bind ((building_createMissing hbuilds api current body hbody hd).mono
    (fun proxyId d hd => ?_) fun _ _ h => h)
  obtain ⟨rfl, hd⟩ := hd
  refine does_bind ((building_attachAll hbuilds _ _ d hd).mono (fun owned d hd => ?_) fun _ _ h => h)
  refine does_bind ((building_attachAll hbuilds _ _ d hd).mono (fun chosen d hd => ?_) fun _ _ h => h)
  refine does_bind ((building_associateLocked _ _ d hd).mono (fun _ d hd => ?_) fun _ _ h => h)
  refine does_bind ((building_cutOverMissing hbuilds api current _ d hd).mono (fun _ d hd => ?_)
    fun _ _ h => h)
  refine does_bind ((building_note hbuilds ?_ d hd).mono (fun _ d hd => ?_) fun _ _ h => h)
  · exact fun _ _ => rfl
  · exact building_adoptRebuild api current _ hd

end Building

section Restoring

variable {J : Type} {k : Estate} {d : Deed} {q : ℕ} {docs : Documents J} {policies : Policies J}

/-- The attempt is over once its proxy is gone. -/
theorem Estate.Building.withdrawn (h : k.Building q d) (hbeside : k.beside = some none) :
    k.Vacated { d with may := (d.may \ {q}) ∪ k.others } := by
  refine ⟨h.row.trans hbeside, ?_⟩
  rintro id (⟨hid, hne⟩ | hid)
  · exact (h.rest id hid).imp_right fun heq => absurd heq hne
  · exact .inl (k.others_excused hid)

variable [DecidableEq J]

/-- A withdrawal that returns has found the proxy of its attempt gone, or has
removed it. -/
theorem building_withdrawAttempt (hbuilds : k.builds = true) (hbeside : k.beside = some none)
    (api : ApiRecord J) (hd : k.Building q d) :
    k.abstraction.Does d (withdrawAttempt docs policies k.slot api)
      (fun _ => k.Vacated) fun _ => k.Building q := by
  have hthrow : ∀ _ : NexusError, k.Building q d := fun _ => hd
  refine does_bind (holds_readRebuild hbuilds fun attempt hattempt => ?_)
  have hq : attempt.proxyId = q := Option.some.inj (hattempt.symm.trans hd.attempt)
  refine does_bind (does_reads (reads_require _ _) (fun _ => ?_) hthrow)
  refine does_bind (holds_readEdge (fun s hs => ?_) hthrow)
  cases hfound : s.edge.proxies q with
  | none =>
    refine ⟨_, hs.without (Edge.notMem_live hfound), ?_⟩
    simp only [hq, hfound]
    exact does_pure (hd.withdrawn hbeside)
  | some present =>
    have hid : present.body.id = q := hs.keyed q present hfound
    refine ⟨d, hs, ?_⟩
    simp only [hq, hfound]
    subst hid
    cases attempt.proxy with
    | none => exact does_throw hd
    | some attempted =>
      simp only
      cases deploymentTarget ⟨s.edge⟩ present.body.id with
      | none => exact does_throw hd
      | some target =>
        refine does_bind (does_reads (reads_require _ _) (fun _ => ?_) hthrow)
        refine does_bind (holds_newId fun call => ?_)
        refine does_bind ((keeps_persistRemoval _ _ d hd).mono (fun _ d hd => ?_) fun _ _ h => h)
        refine does_bind (does_reads (reads_prepare _ _ _) (fun _ => ?_) fun _ => hd)
        have hadds : Edge.Adds d.may (Edge.ifMatch s.edge.etag
            (Edge.removeProxy (J := J) present.body.id)) := (Edge.adds_removeProxy _).ifMatch.of_empty
        refine holds_sendConditional hadds (fun s' hs' e' hfe => ?_) fun _ => hd
        obtain ⟨-, hlive⟩ := Edge.removeProxy_ok (Edge.ifMatch_eq_ok hfe)
        have hgone : present.body.id ∉ e'.live := by
          rw [hlive]
          exact fun h => h.2 rfl
        exact ⟨_, (hs'.write hadds hfe).without hgone, hd.withdrawn hbeside⟩

omit [DecidableEq J] in
/-- What is left of a failed rebuild is named by the row. -/
theorem settled_recordFailure_stranded (hbeside : k.beside = some none) (hd : k.Building q d) :
    k.abstraction.Does d (recordFailure (J := J) (some q)) (fun _ => k.Settled) fun _ => k.Settled := by
  refine holds_transaction (fun s hs a s' hok => ?_) ?_
  · have hrow := hs.row.trans hd.row
    rw [hbeside] at hrow
    cases hok
    refine ⟨_, hs.named hd ?_ rfl rfl rfl rfl, hd.named⟩
    cases hapi : s.api with
    | none => simp [PublishingState.rowProxy, hapi] at hrow
    | some latest =>
      have hnone : latest.ferrumProxyId = none := by
        rw [rowProxy_of_api hapi] at hrow
        exact Option.some.inj hrow
      simp [PublishingState.rowProxy, hnone]
  · intro s _ error h
    cases h

omit [DecidableEq J] in
theorem settled_recordFailure_none (hd : k.Vacated d) :
    k.abstraction.Does d (recordFailure (J := J) none) (fun _ => k.Settled) fun _ => k.Settled := by
  refine holds_transaction (fun s hs a s' hok => ?_) ?_
  · have hrow := hs.row.trans hd.row
    cases hok
    refine ⟨d, ⟨hs.live, hs.others, hs.keyed, ?_, hs.recovery, hs.memory, hs.rebuild, hs.titled,
      hs.journalled⟩, hd.settled⟩
    rw [← hs.row]
    cases hapi : s.api with
    | none => simp [PublishingState.rowProxy, hapi]
    | some latest =>
      have hnone : latest.ferrumProxyId = none := by
        rw [rowProxy_of_api hapi] at hrow
        exact Option.some.inj hrow
      simp [PublishingState.rowProxy, hapi, hnone]
  · intro s _ error h
    cases h

/-- A rebuild leaves no proxy that the row does not name. -/
theorem settled_rebuildMissing (hbuilds : k.builds = true) (hbeside : k.beside = some none) (api : ApiRecord J)
    (current : ApiSpecRecord J) (hd : k.Vacated d) :
    k.abstraction.Does d (rebuildMissing docs policies k.slot api current)
      (fun _ => k.Settled) fun _ => k.Settled := by
  have hthrow : ∀ _ : NexusError, k.Settled d := fun _ => hd.settled
  refine does_bind (does_reads (reads_require _ _) (fun _ => ?_) hthrow)
  refine does_bind (does_reads (reads_edgeRead _) (fun _ => ?_) hthrow)
  refine does_bind (holds_newId fun path => ?_)
  refine does_bind (does_reads (reads_storeRead _) (fun palette => ?_) hthrow)
  refine does_bind (holds_newId fun q => ?_)
  refine does_bind (does_reads reads_audited (fun _ => ?_) hthrow)
  have hrow : d.row = k.beside := hd.row.trans hbeside.symm
  refine does_bind (holds_openRebuild hbuilds hd.settled hrow ?_)
  have hbuilding : k.Building q { d with may := insert q d.may, rebuild := some q } := by
    refine ⟨hrow, rfl, Set.mem_insert _ _, ?_⟩
    rintro id (rfl | hid)
    · exact .inr rfl
    · exact .inl (hd.excused id hid)
  refine does_tryCatch ((building_buildMissing hbuilds api current _ palette rfl
    hbuilding).mono (fun _ _ h => h) fun error d hd => ?_)
  refine does_bind (describes_attempt ((building_withdrawAttempt hbuilds hbeside api hd).mono
    (fun _ d hd => ?_) fun failure d hd => ?_))
  · -- Nothing of the attempt is left.
    refine does_bind (does_reads reads_readRebuild (fun attempt => ?_) fun _ => hd.settled)
    refine does_bind (describes_bestEffort (settled_recordFailure_none hd |>.mono
      (fun _ _ h => does_throw h) fun _ _ h => does_throw h))
  · refine does_bind (holds_readRebuild hbuilds fun attempt hattempt => ?_)
    have hq : attempt.proxyId = q := Option.some.inj (hattempt.symm.trans hd.attempt)
    rw [hq]
    refine does_bind (describes_bestEffort (settled_recordFailure_stranded hbeside hd |>.mono
      (fun _ _ h => does_throw h) fun _ _ h => does_throw h))

/-- A proxy that is not there is not claimed any more. -/
theorem deeded_clearPresent (api : ApiRecord J) (current : ApiSpecRecord J) (recorded : ℕ)
    (hd : k.Deeded recorded d) :
    k.abstraction.Does d (clearPresent docs api current recorded)
      (fun present d' => k.Settled d' ∧ (present = false → ∀ id ∈ d'.may, id ∈ k.excused))
      fun _ => k.Settled := by
  have hthrow : ∀ _ : NexusError, k.Settled d := fun _ => hd.settled
  refine does_bind (does_reads reads_loadApi (fun latest => ?_) hthrow)
  refine does_bind (does_reads (reads_storeRead _) (fun latestSpec => ?_) hthrow)
  refine does_bind (does_reads (reads_require _ _) (fun _ => ?_) hthrow)
  refine does_bind (does_reads (reads_storeRead _) (fun journal => ?_) hthrow)
  refine does_bind (does_reads (reads_require _ _) (fun _ => ?_) hthrow)
  refine does_bind (holds_readEdge (fun s hs => ?_) hthrow)
  cases hfound : s.edge.proxies recorded with
  | none =>
    have hexcused := hd.without
    exact ⟨_, hs.without (Edge.notMem_live hfound),
      does_pure ⟨fun id hid => .inl (hexcused id hid), fun _ => hexcused⟩⟩
  | some live =>
    refine ⟨d, hs, ?_⟩
    refine does_bind (does_reads (reads_readEdge _) (fun e => ?_) hthrow)
    refine does_bind (does_reads (reads_require _ _) (fun _ => ?_) hthrow)
    refine does_bind (does_reads (reads_require _ _) (fun _ => ?_) hthrow)
    refine holds_transaction (fun s hs a s' hok => ?_) fun _ _ error _ => hd.settled
    cases hapi : s.api with
    | none => simp [hapi] at hok
    | some final =>
      simp only [hapi] at hok
      split_ifs at hok
      cases hok
      have hsame := clerical_flag hapi .deployed
      refine ⟨d, ⟨hs.live, hs.others, hs.keyed, hsame.row.trans hs.row, hs.recovery, hs.memory,
        hs.rebuild, hs.titled, hs.journalled⟩, hd.settled, nofun⟩

omit [DecidableEq J] in
theorem vacated_dropReference (recorded : ℕ) (hexcused : ∀ id ∈ d.may, id ∈ k.excused) :
    k.abstraction.Does d (dropReference (J := J) recorded) (fun _ => k.Vacated)
      fun _ => k.Settled := by
  have hsettled : ∀ id ∈ d.may, id ∈ k.excused ∨ d.row = some (some id) :=
    fun id hid => .inl (hexcused id hid)
  refine holds_transaction (fun s hs a s' hok => ?_) fun _ _ _ _ => hsettled
  cases hapi : s.api with
  | none => simp [hapi] at hok
  | some latest =>
    simp only [hapi] at hok
    split_ifs at hok with _ hjournal
    cases hok
    have hrecovery : d.recovery = none := by
      rw [← hs.recovery, Option.not_isSome_iff_eq_none.mp hjournal]
      rfl
    refine ⟨{ d with row := some none }, ⟨hs.live, hs.others, hs.keyed, rfl, hs.recovery,
      hs.memory, hs.rebuild, fun id hid => .inl (hexcused id hid), ?_⟩, rfl,
      fun id hid => .inl (hexcused id hid)⟩
    intro id hid
    rw [hrecovery] at hid
    cases hid

/-- Both branches of a restore leave no proxy that the row does not name. -/
theorem settled_restoreGateway (hbuilds : k.builds = true) (hbeside : k.beside = some none)
    (hd : k.Settled d) :
    k.abstraction.Does d (restoreGateway docs policies k.slot) (fun _ => k.Settled)
      fun _ => k.Settled := by
  have hthrow : ∀ _ : NexusError, k.Settled d := fun _ => hd
  refine does_bind (holds_loadApi (fun api hrow => ?_) hthrow)
  refine does_bind (does_reads (reads_storeRead _) (fun cleanup => ?_) hthrow)
  refine does_bind (does_reads (reads_require _ _) (fun _ => ?_) hthrow)
  refine does_bind (does_reads reads_assertBackendEgress (fun _ => ?_) hthrow)
  refine does_bind (does_reads (reads_storeRead _) (fun found => ?_) hthrow)
  cases found with
  | none => exact does_throw hd
  | some current =>
    refine does_bind (does_reads (reads_readConversionRecovery api) (fun recovery => ?_) hthrow)
    cases recovery with
    | some recovery => exact settled_recoverConversion current hd
    | none =>
      cases hproxy : api.ferrumProxyId with
      | none =>
        have hvacated : k.Vacated d := ⟨hproxy ▸ hrow, hd⟩
        exact settled_rebuildMissing hbuilds hbeside api current hvacated
      | some recorded =>
        have hdeeded : k.Deeded recorded d := ⟨hproxy ▸ hrow, hd⟩
        refine does_bind ((deeded_clearPresent api current recorded hdeeded).mono
          (fun present d hd => ?_) fun _ _ h => h)
        obtain ⟨hsettled, hexcused⟩ := hd
        cases present with
        | true => exact does_pure hsettled
        | false =>
          refine does_bind ((vacated_dropReference recorded (hexcused rfl)).mono
            (fun _ d hd => ?_) fun _ _ h => h)
          exact settled_rebuildMissing hbuilds hbeside api current hd

end Restoring

section Publishing

variable {J : Type} {k : Estate} {d : Deed} {q : ℕ} {docs : Documents J} {policies : Policies J}

theorem building_createPublished (hbuilds : k.builds = true) (shape : ApiShape J) (document : J)
    (body : ProxyBody J) (hbody : body.id = q) (hd : k.Building q d) :
    k.abstraction.Does d (createPublished docs k.slot shape document body)
      (fun proxyId d' => proxyId = q ∧ k.Building q d') fun _ => k.Building q := by
  rw [createPublished]
  cases shape.specEnforcement with
  | routes =>
    refine does_bind ((building_createSpecOwnedProxy _ _ _ hbody hd fun _ => hd).mono
      (fun ref d hd => ?_) fun _ _ h => h)
    obtain ⟨hid, hd⟩ := hd
    refine does_bind ((building_note hbuilds ?_ d hd).mono (fun _ d hd => ?_) fun _ _ h => h)
    · exact fun a ha => hid.trans ha.symm
    · exact does_pure ⟨hid, hd⟩
  | docsOnly =>
    have hadds : Edge.Adds d.may (Edge.createProxy body) :=
      (Edge.adds_createProxy body).mono (Set.singleton_subset_iff.mpr (hbody ▸ hd.allowed))
    refine does_bind (holds_writeEdge hadds (fun s hs _ e' hfe => ?_) fun _ => hd)
    exact ⟨d, hs.write hadds hfe, does_pure ⟨hbody, hd⟩⟩

theorem building_createRow (shape : ApiShape J) (document : J) (hd : k.Building q d) :
    k.abstraction.Does d (createRow shape document q) (fun _ => k.Settled)
      fun _ => k.Building q := by
  refine holds_transaction (fun s hs a s' hok => ?_) fun _ _ _ _ => hd
  cases hapi : s.api with
  | some _ => simp [hapi] at hok
  | none =>
    simp only [hapi] at hok
    cases hok
    exact ⟨_, hs.named hd rfl rfl rfl rfl rfl, hd.named⟩

theorem building_buildPublished (hbuilds : k.builds = true) (shape : ApiShape J) (document : J)
    (body : ProxyBody J) (hbody : body.id = q) (hd : k.Building q d) :
    k.abstraction.Does d (buildPublished docs policies k.slot shape document body)
      (fun _ => k.Settled) fun _ => k.Building q := by
  refine does_bind ((building_createPublished hbuilds shape document body hbody hd).mono
    (fun proxyId d hd => ?_) fun _ _ h => h)
  obtain ⟨-, hd⟩ := hd
  refine does_bind ((building_attachAll hbuilds _ _ d hd).mono (fun owned d hd => ?_) fun _ _ h => h)
  refine does_bind ((building_associateLocked _ _ d hd).mono (fun _ d hd => ?_) fun _ _ h => h)
  refine does_bind (does_reads reads_readRebuild (fun created => ?_) fun _ => hd)
  have hcutover : k.abstraction.Keeps (k.Building q) (cutOverToListenPathLocked docs proxyId
      shape.specEnforcement (listenPathFor shape.slug) document created.specId shape.agents
      (fun _ => pure ()) fun specId submitted =>
        writeEdge (Edge.reimportSpec docs.importer specId submitted)) := by
    refine (k.discipline (k.Building q)).cutOver _ _ _ _ _ _ (fun _ => reads_pure ())
      fun id submitted => ?_
    exact keeps_writeEdge fun _ _ => (Edge.adds_reimportSpec _ _ _).of_empty
  refine does_bind ((hcutover d hd).mono (fun _ d hd => ?_) fun _ _ h => h)
  refine does_bind (holds_readRebuild hbuilds fun created hcreated => ?_)
  have hq : created.proxyId = q := Option.some.inj (hcreated.symm.trans hd.attempt)
  rw [hq]
  exact building_createRow shape document hd

/-- A publish that returns has a row for the proxy it made. -/
theorem settled_publish (hbuilds : k.builds = true) (hbeside : k.beside = none)
    (shape : ApiShape J) (document : J) (hrow : d.row = none) (hd : k.Settled d) :
    k.abstraction.Does d (publish docs policies k.slot shape document) (fun _ => k.Settled)
      fun _ _ => True := by
  have hthrow : ∀ _ : NexusError, True := fun _ => trivial
  refine does_bind (does_reads (reads_require _ _) (fun _ => ?_) hthrow)
  refine does_bind (does_reads (reads_edgeRead _) (fun _ => ?_) hthrow)
  refine does_bind (does_reads reads_assertBackendEgress (fun _ => ?_) hthrow)
  refine does_bind (holds_newId fun path => ?_)
  refine does_bind (does_reads reads_assertBackendEgress (fun _ => ?_) hthrow)
  refine does_bind (holds_newId fun q => ?_)
  have hsame : d.row = k.beside := hrow.trans hbeside.symm
  refine does_bind (holds_openRebuild hbuilds hd hsame ?_)
  have hbuilding : k.Building q { d with may := insert q d.may, rebuild := some q } := by
    refine ⟨hsame, rfl, Set.mem_insert _ _, ?_⟩
    rintro id (rfl | hid)
    · exact .inr rfl
    · refine .inl ((hd id hid).resolve_right ?_)
      rw [hrow]
      exact nofun
  refine does_tryCatch ((building_buildPublished hbuilds shape document _ rfl hbuilding).mono
    (fun _ _ h => h) fun error d hd => ?_)
  -- The proxy is deleted, and the error thrown again.
  have hsweep : k.abstraction.Keeps (fun _ => True) (writeEdge (Edge.deleteProxy (J := J) q)) :=
    keeps_writeEdge fun _ _ => (Edge.adds_deleteProxy q).of_empty
  refine does_bind (holds_readRebuild hbuilds fun created hcreated => ?_)
  have hq : created.proxyId = q := Option.some.inj (hcreated.symm.trans hd.attempt)
  rw [hq]
  refine does_bind ((keeps_attempt hsweep d trivial).mono (fun deleted d _ => ?_) fun _ _ h => h)
  have hwhenever : k.abstraction.Keeps (fun _ => True)
      (whenever deleted.toBool (sweepConfigs (J := J) (created.plugins.map (·.id)))) :=
    (k.discipline fun _ => True).whenever (keeps_sweepConfigs _)
  exact does_bind ((hwhenever d trivial).mono (fun _ _ h => does_throw h) fun _ _ h => h)

end Publishing

section Removing

variable {J : Type} [DecidableEq J] {k : Estate} {d : Deed}

omit [DecidableEq J] in
/-- The last transaction of a deletion, once nothing the row named is left. -/
theorem removed_deleteRow (hd : ∀ id ∈ d.may, id ∈ k.excused) :
    k.abstraction.Does d (transaction fun s : PublishingState J =>
        if s.api.isNone then .error (notFound "API" 0)
        else .ok ((), { s with api := none, currentSpec := none, recovery := none, palette := [] }))
      (fun _ d' => d'.row = none ∧ k.Settled d') fun _ => k.Settled := by
  have hsettled : ∀ row, ∀ id ∈ d.may, id ∈ k.excused ∨ row = some (some id) :=
    fun _ id hid => .inl (hd id hid)
  refine holds_transaction (fun s hs a s' hok => ?_) fun _ _ _ _ => hsettled d.row
  split_ifs at hok
  cases hok
  exact ⟨{ d with row := none, recovery := none }, ⟨hs.live, hs.others, hs.keyed, rfl, rfl,
    hs.memory, hs.rebuild, fun id hid => .inl (hd id hid), nofun⟩, rfl, hsettled none⟩

/-- A deletion that returns leaves no row, and no proxy the row named. -/
theorem removed_remove (initial : Option ℕ) (hd : k.Settled d) :
    k.abstraction.Does d (remove (J := J) initial) (fun _ d' => d'.row = none ∧ k.Settled d')
      fun _ => k.Settled := by
  have hthrow : ∀ _ : NexusError, k.Settled d := fun _ => hd
  have htouch : ∀ A : Deed → Prop, k.abstraction.Keeps A
      (writeEdge fun e : Edge J => .ok ((), e.touch)) :=
    fun A => keeps_writeEdge fun _ _ => Edge.adds_touch.of_empty
  have hdelete : ∀ d, (∀ id ∈ d.may, id ∈ k.excused) → k.abstraction.Does d (do
      writeEdge fun e : Edge J => .ok ((), e.touch)
      transaction fun s : PublishingState J =>
        if s.api.isNone then .error (notFound "API" 0)
        else .ok ((), { s with api := none, currentSpec := none, recovery := none, palette := [] }))
      (fun _ d' => d'.row = none ∧ k.Settled d') fun _ => k.Settled := by
    intro d hd
    refine does_bind ((htouch (fun d => ∀ id ∈ d.may, id ∈ k.excused) d hd).mono
      (fun _ d hd => removed_deleteRow hd) fun _ d hd => ?_)
    exact fun id hid => .inl (hd id hid)
  refine does_bind (holds_loadApi (fun api hrow => ?_) hthrow)
  refine does_bind (does_reads (reads_require _ _) (fun _ => ?_) hthrow)
  refine does_bind (does_reads (reads_storeRead _) (fun _ => ?_) hthrow)
  refine does_bind (does_reads ?_ (fun _ => ?_) hthrow)
  · -- The custody check is a transaction that writes nothing.
    refine reads_atomic fun s c r s' hf => ?_
    by_cases hcustody : deletionCustody s api = true
    · simp only [hcustody, if_true] at hf
      cases c <;> cases hf <;> rfl
    · simp only [hcustody] at hf
      cases c <;> cases hf <;> rfl
  cases hproxy : api.ferrumProxyId with
  | none =>
    have hvacated : k.Vacated d := ⟨hproxy ▸ hrow, hd⟩
    exact hdelete d hvacated.excused
  | some proxyId =>
    refine does_bind (does_reads (reads_readEdge _) (fun attached => ?_) hthrow)
    refine does_bind (does_reads (reads_storeRead _) (fun rows => ?_) hthrow)
    have hadds : Edge.Adds d.may (Edge.deleteProxy (J := J) proxyId) :=
      (Edge.adds_deleteProxy proxyId).of_empty
    refine does_bind (holds_writeEdge hadds (fun s hs _ e' hfe => ?_) hthrow)
    obtain ⟨-, hlive⟩ := Edge.deleteProxy_ok hfe
    have hgone : proxyId ∉ e'.live := by
      rw [hlive]
      exact fun h => h.2 rfl
    refine ⟨_, (hs.write hadds hfe).without hgone, ?_⟩
    have hdeeded : k.Deeded proxyId d := ⟨hproxy ▸ hrow, hd⟩
    refine does_bind ((keeps_sweepConfigs (A := fun d => ∀ id ∈ d.may, id ∈ k.excused) _ _
      hdeeded.without).mono (fun _ d hd => hdelete d hd) fun _ d hd => ?_)
    exact fun id hid => .inl (hd id hid)

end Removing

end FerrumNexus.Publishing
