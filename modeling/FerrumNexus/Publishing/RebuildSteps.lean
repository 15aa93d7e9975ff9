import FerrumNexus.Publishing.JournalOperations

/-!
# Rebuilds and deletions keep the ledger

A plain rebuild runs beside no conversion journal. `Site` is what it knows
until it adopts its proxy or gives it up: its own cleanup journal names the
conditional cutover, and then the removal of a failed attempt. Where the
cutover was started and not acknowledged nothing is withdrawn, so a removal is
journalled over an acknowledged cutover only.
-/
namespace FerrumNexus.Publishing

open Saga Saga.Scope Platform

section Building

variable {J : Type} {slot : ℕ} {v : Desk J} {E : NexusError → Desk J → Prop}

theorem desk_readRebuild {Q : RebuildAttempt J → Desk J → Prop}
    (hQ : ∀ attempt, v.rebuild = some attempt → Q attempt v) :
    (deskScope slot).Does v (readRebuild slot) Q E := by
  refine does_atomic ?_
  rintro s rfl - c r s' hf
  cases hmem : s.rebuild slot with
  | none => simp [hmem] at hf
  | some attempt =>
    simp only [hmem, Option.map_some, Option.some.injEq, Prod.mk.injEq] at hf
    obtain ⟨rfl, rfl⟩ := hf
    exact ⟨trivial, (deskScope slot).moves_refl _, hQ attempt hmem⟩

variable {Q : Unit → Desk J → Prop}

/-- Both ways a rebuild edits what it knows of its attempt. -/
theorem desk_setRebuild {f : Option (RebuildAttempt J) → Option (RebuildAttempt J)}
    (hQ : Q () { v with rebuild := f v.rebuild }) : (deskScope slot).Does v (atomic fun s _ =>
      some (.ok (), { s with rebuild := Function.update s.rebuild slot (f (s.rebuild slot)) }) :
        PublishingService J Unit) Q E := by
  refine does_atomic ?_
  rintro s rfl - c r s' hstep
  cases hstep
  refine ⟨trivial, Ledger.Guar.refl _, ?_⟩
  have hdesk : (deskScope slot).view
      { s with rebuild := Function.update s.rebuild slot (f (s.rebuild slot)) } =
      { desk slot s with rebuild := f (desk slot s).rebuild } := by
    simp only [deskScope, desk, PublishingState.ledger, Function.update_self]
  rw [hdesk]
  exact hQ

theorem desk_noteRebuild {f : RebuildAttempt J → RebuildAttempt J}
    (hQ : Q () { v with rebuild := v.rebuild.map f }) :
    (deskScope slot).Does v (noteRebuild slot f) Q E :=
  desk_setRebuild hQ

theorem desk_openRebuild {attempt : RebuildAttempt J}
    (hQ : Q () { v with rebuild := some attempt }) :
    (deskScope slot).Does v (openRebuild slot attempt) Q E :=
  desk_setRebuild (f := fun _ => some attempt) hQ

/-- A rebuild in progress: no conversion is journalled, and the row does not
serve the proxy it will adopt. -/
structure Site (v : Desk J) : Prop where
  inv : v.ledger.Inv
  recovery : v.ledger.recovery = none
  undeployed : ∀ row, v.ledger.api = some row →
    row.ferrumProxyId = none ∨ row.gatewayState = .repairRequired

/-- A cleanup journal that waits for nothing. -/
def Settled (cleanup : Option (CleanupJournal J)) : Prop :=
  ∀ c, cleanup = some c → c.entry.acknowledged = true ∧ c.cutover = none

theorem settled_none : Settled (none : Option (CleanupJournal J)) := nofun

theorem Site.pending (h : Site v) (hsettled : Settled v.ledger.cleanup) :
    v.ledger.pending = [] := by
  have hnone : v.ledger.stored.filter (!·.acknowledged) = [] := by
    refine List.filter_eq_nil_iff.mpr fun m hm => ?_
    simp only [Ledger.stored, storedConversion, h.recovery, Option.elim_none, List.nil_append] at hm
    cases hc : v.ledger.cleanup with
    | none => simp [hc, storedCleanup] at hm
    | some c =>
      obtain ⟨hacked, hcutover⟩ := hsettled c hc
      simp only [hc, storedCleanup, Option.elim_some, CleanupJournal.entries, hcutover,
        Option.toList_none, List.mem_singleton] at hm
      rw [hm, hacked]
      decide
  rw [Ledger.pending, hnone, List.map_nil]

/-- A site moves with the ledger as long as the row and the conversion stay. -/
theorem Site.move {l : Ledger J} {rebuild : Option (RebuildAttempt J)} (h : Site v)
    (hguar : v.ledger.Guar l) (hapi : l.api = v.ledger.api)
    (hrecovery : l.recovery = v.ledger.recovery) : Site { v with ledger := l, rebuild } := by
  refine ⟨(hguar h.inv).2, hrecovery.trans h.recovery, fun row hrow => h.undeployed row ?_⟩
  rw [← hapi]
  exact hrow

theorem Site.newId (h : Site v) :
    Site { v with ledger := { v.ledger with fresh := v.ledger.fresh + 1 } } :=
  ⟨h.inv.newId, h.recovery, h.undeployed⟩

/-- Nothing is journalled, and nothing is deployed. -/
structure Vacant (v : Desk J) : Prop where
  site : Site v
  cleanup : v.ledger.cleanup = none

theorem vacant_newId : (deskScope (J := J) slot).Keeps Vacant newId :=
  fun _ hv => desk_newId ⟨hv.site.newId, hv.cleanup⟩

/-- Before the cutover nothing is journalled. -/
structure Staging (v : Desk J) : Prop where
  site : Site v
  cleanup : v.ledger.cleanup = none
  attempt : ∀ a, v.rebuild = some a → a.cutoverAcknowledged = false

/-- The cutover was started and nothing has confirmed it. -/
structure Cutting (v : Desk J) : Prop where
  site : Site v
  attempt : ∀ a, v.rebuild = some a → a.cutoverStarted = true ∧ a.cutoverAcknowledged = false

/-- Where a failed rebuild may be withdrawn, nothing is pending. -/
structure Fallen (v : Desk J) : Prop where
  site : Site v
  settled : ∀ a, v.rebuild = some a → (a.cutoverStarted && !a.cutoverAcknowledged) = false →
    Settled v.ledger.cleanup

theorem Vacant.staging (h : Vacant v) {a : RebuildAttempt J} (ha : a.cutoverAcknowledged = false) :
    Staging { v with rebuild := some a } := by
  refine ⟨⟨h.site.inv, h.site.recovery, h.site.undeployed⟩, h.cleanup, ?_⟩
  rintro a' ⟨⟩
  exact ha

theorem Staging.fallen (h : Staging v) : Fallen v :=
  ⟨h.site, fun _ _ _ => h.cleanup ▸ settled_none⟩

theorem Cutting.fallen (h : Cutting v) : Fallen v := by
  refine ⟨h.site, fun a ha hopen => ?_⟩
  obtain ⟨hstarted, hacknowledged⟩ := h.attempt a ha
  simp [hstarted, hacknowledged] at hopen

theorem keeps_noteRebuild {f : RebuildAttempt J → RebuildAttempt J}
    (hf : ∀ a, (f a).cutoverAcknowledged = a.cutoverAcknowledged) :
    (deskScope slot).Keeps Staging (noteRebuild slot f) := by
  intro v hv
  refine desk_noteRebuild ⟨⟨hv.site.inv, hv.site.recovery, hv.site.undeployed⟩, hv.cleanup, ?_⟩
  intro a ha
  obtain ⟨a₀, ha₀, rfl⟩ := Option.map_eq_some_iff.mp ha
  rw [hf]
  exact hv.attempt a₀ ha₀

theorem staging_newId : (deskScope (J := J) slot).Keeps Staging newId :=
  fun _ hv => desk_newId ⟨hv.site.newId, hv.cleanup, hv.attempt⟩

theorem keeps_attach (proxyId : ℕ) (config : PluginConfig J) :
    (deskScope slot).Keeps Staging (attach slot proxyId config) := by
  refine reads_assertBackendEgress.keeps.bind fun _ => ?_
  refine staging_newId.bind fun id => (idle_writeEdge _).keeps.bind fun _ => ?_
  refine (keeps_noteRebuild ?_).bind fun _ => (idle_pure _).keeps
  exact fun _ => rfl

theorem keeps_attachAll (proxyId : ℕ) (configs : List (PluginConfig J)) :
    (deskScope slot).Keeps Staging (attachAll slot proxyId configs) := by
  induction configs with
  | nil => exact (idle_pure _).keeps
  | cons config configs ih =>
    exact (keeps_attach proxyId config).bind fun _ => ih.bind fun _ => (idle_pure _).keeps

variable {docs : Documents J}

theorem keeps_createMissing (api : ApiRecord J) (current : ApiSpecRecord J) (body : ProxyBody J) :
    (deskScope slot).Keeps Staging (createMissing docs slot api current body) := by
  rw [createMissing]
  cases api.shape.specEnforcement with
  | routes =>
    refine Keeps.bind ?_ fun ref => ?_
    · refine (reads_buildSpecDocument docs _ _ _).keeps.bind fun built => ?_
      exact (idle_pure _).keeps.bind fun _ => (idle_writeEdge _).keeps
    refine (keeps_noteRebuild ?_).bind fun _ => ?_
    · exact fun _ => rfl
    refine (reads_readEdge _).keeps.bind fun live => (reads_readEdge _).keeps.bind fun document => ?_
    refine (reads_readEdge _).keeps.bind fun generated => ?_
    refine (keeps_noteRebuild ?_).bind fun _ => (idle_pure _).keeps
    exact fun _ => rfl
  | docsOnly =>
    refine (idle_writeEdge _).keeps.bind fun _ => ?_
    refine (keeps_noteRebuild ?_).bind fun _ => (idle_pure _).keeps
    exact fun _ => rfl

variable [DecidableEq J] {policies : Policies J}

theorem desk_persistCutover {api : ApiRecord J} {current : ApiSpecRecord J}
    {journal : CleanupJournal J} {start : Bool}
    (hguar : v.ledger.Guar { v.ledger with cleanup := some journal })
    (hQ : Q () { v with ledger := { v.ledger with cleanup := some journal } })
    (hE : ∀ error, E error v) :
    (deskScope slot).Does v (persistCutover api current journal start) Q E := by
  refine desk_transaction ?_ hE
  rintro s rfl a s' hok
  cases hapi : s.api with
  | none => simp [hapi] at hok
  | some latest =>
    simp only [hapi] at hok
    split_ifs at hok
    cases hok
    refine ⟨?_, ?_⟩
    · simpa only [desk, PublishingState.ledger, hapi] using hguar
    · simpa only [desk, PublishingState.ledger, hapi] using hQ

/-- The conditional cutover. Its entry is journalled before it is sent and
marked after it is acknowledged; wherever it stops before that, the attempt
counts as started and not acknowledged. -/
theorem desk_conditionalCutover (hv : Cutting v) (hcleanup : v.ledger.cleanup = none)
    (api : ApiRecord J) (current : ApiSpecRecord J) (proxyId : ℕ) (original : Snapshot J) (id : ℕ)
    (document : SubmittedSpec J) :
    (deskScope slot).Does v (conditionalCutover docs api current proxyId original id document)
      (fun _ v' => Cutting v' ∧ Settled v'.ledger.cleanup) fun _ => Cutting := by
  refine does_bind (desk_newId ?_)
  let entry : Mutation J := ⟨.replace, id, original, false, v.ledger.fresh⟩
  let v₁ : Desk J := { v with ledger := { v.ledger with fresh := v.ledger.fresh + 1 } }
  have hcutting₁ : Cutting v₁ := ⟨hv.site.newId, hv.attempt⟩
  have hguar₂ : v₁.ledger.Guar { v₁.ledger with cleanup := some ⟨proxyId, entry, none⟩ } := by
    refine Ledger.guar_saveCleanup hv.site.recovery ?_ ?_ ?_ hv.site.undeployed
    · intro m hm hack
      rw [List.mem_singleton.mp hm] at hack
      cases hack
    · intro m hm
      rw [List.mem_singleton.mp hm]
      exact Nat.lt_succ_self _
    · intro stored hs
      rw [show v₁.ledger.cleanup = none from hcleanup] at hs
      cases hs
  refine does_bind (desk_persistCutover hguar₂ ?_ fun _ => hcutting₁)
  let v₂ : Desk J := { v₁ with ledger := { v₁.ledger with cleanup := some ⟨proxyId, entry, none⟩ } }
  have hcutting₂ : Cutting v₂ := ⟨hcutting₁.site.move hguar₂ rfl rfl, hv.attempt⟩
  have hpending : v₂.ledger.pending = [entry.request] := by
    simp [Ledger.pending, Ledger.stored, storedConversion, storedCleanup, v₂, v₁,
      hv.site.recovery, CleanupJournal.entries, entry]
  have hunsent : entry.request ∉ v₂.ledger.sent := fun hsent =>
    absurd (hv.site.inv.sent _ hsent) (lt_irrefl _)
  refine does_bind ((reads_prepare _ _ _).does (fun _ => ?_) fun _ => hcutting₂)
  have hsent : ∀ acked, (∀ a ∈ v₂.ledger.acked, a ∈ acked) → Cutting { v₂ with ledger :=
      { v₂.ledger with sent := entry.request :: v₂.ledger.sent, acked := acked } } := by
    intro acked hacked
    exact ⟨hcutting₂.site.move (Ledger.guar_send hpending hunsent acked hacked) rfl rfl, hv.attempt⟩
  refine does_bind (desk_sendMutation hpending hunsent (.inr rfl) ?_ fun _ => hsent _ fun _ h => h)
  have hcutting₃ := hsent (entry.request :: v₂.ledger.acked) fun _ h => List.mem_cons_of_mem _ h
  have hguar₄ := Ledger.guar_saveCleanup (c := ⟨proxyId, { entry with acknowledged := true }, none⟩)
    hcutting₃.site.recovery ?_ ?_ ?_ hcutting₃.site.undeployed
  · refine desk_persistCutover hguar₄ ⟨⟨hcutting₃.site.move hguar₄ rfl rfl, hv.attempt⟩, ?_⟩
      fun _ => hcutting₃
    rintro c ⟨⟩
    exact ⟨rfl, rfl⟩
  · intro m hm _
    rw [List.mem_singleton.mp hm]
    exact List.mem_cons_self
  · intro m hm
    rw [List.mem_singleton.mp hm]
    exact Nat.lt_succ_self _
  · rintro stored ⟨⟩ m hm
    refine ⟨_, List.mem_singleton_self _, ?_⟩
    rw [List.mem_singleton.mp hm]
    rfl

/-- The cutover of a rebuild ends with nothing pending, or as `Cutting`. -/
theorem desk_cutOverMissing (hv : Staging v) (api : ApiRecord J) (current : ApiSpecRecord J)
    (proxyId : ℕ) :
    (deskScope slot).Does v (cutOverMissing docs slot api current proxyId)
      (fun _ v' => Site v' ∧ Settled v'.ledger.cleanup) fun _ => Fallen := by
  have hstarted : ∀ f : RebuildAttempt J → RebuildAttempt J,
      (∀ a, (f a).cutoverStarted = true ∧ (f a).cutoverAcknowledged = a.cutoverAcknowledged) →
      Cutting { v with rebuild := v.rebuild.map f } := by
    intro f hf
    refine ⟨⟨hv.site.inv, hv.site.recovery, hv.site.undeployed⟩, fun a ha => ?_⟩
    obtain ⟨a₀, ha₀, rfl⟩ := Option.map_eq_some_iff.mp ha
    obtain ⟨hstarted, hsame⟩ := hf a₀
    exact ⟨hstarted, hsame.trans (hv.attempt a₀ ha₀)⟩
  have hcutting := hstarted (fun a => { a with cutoverStarted := true }) fun _ => ⟨rfl, rfl⟩
  have hsettled : Settled v.ledger.cleanup := hv.cleanup ▸ settled_none
  rw [cutOverMissing]
  cases api.shape.specEnforcement with
  | docsOnly =>
    refine does_bind (desk_noteRebuild ?_)
    refine desk_cutOverToListenPathLocked (fun _ => reads_pure ()) (fun _ => ?_) nofun
      fun _ => hcutting.fallen
    exact ⟨hcutting.site, hsettled⟩
  | routes =>
    refine does_bind ((reads_stagedAuthority proxyId).does (fun original => ?_) fun _ => hv.fallen)
    refine does_bind (desk_noteRebuild ?_)
    refine does_bind (desk_readRebuild fun attempt _ => ?_)
    refine desk_cutOverToListenPathLocked (fun _ => reads_pure ()) nofun (fun _ id submitted => ?_)
      fun _ => hcutting.fallen
    refine does_bind (desk_noteRebuild ?_)
    rw [Option.map_map]
    have hnoted := hstarted ((fun a => { a with specDocument := some submitted }) ∘
      fun a => { a with cutoverStarted := true }) fun _ => ⟨rfl, rfl⟩
    exact (desk_conditionalCutover hnoted hv.cleanup api current proxyId original id submitted).mono
      (fun _ _ h => ⟨h.1.site, h.2⟩) fun _ _ h => h.fallen

/-- The adoption of a proxy. -/
theorem desk_adoptRebuild (hv : Site v) (hsettled : Settled v.ledger.cleanup) (api : ApiRecord J)
    (current : ApiSpecRecord J) (proxyId : ℕ) (palette : List (PaletteRow J))
    (hE : ∀ error, E error v) :
    (deskScope slot).Does v (adoptRebuild api current proxyId palette) (fun _ _ => True) E := by
  refine desk_transaction ?_ hE
  rintro s rfl a s' hok
  have hpending := hv.pending hsettled
  cases hapi : s.api with
  | none => simp [hapi] at hok
  | some latest =>
    simp only [hapi] at hok
    split_ifs at hok
    cases hok
    refine ⟨Ledger.guar_endCleanup ?_ fun _ _ => .inr (.inr ⟨hpending, hv.recovery⟩), trivial⟩
    rw [hpending]
    exact fun _ h => absurd h List.not_mem_nil

theorem desk_buildMissing (hv : Staging v) (api : ApiRecord J) (current : ApiSpecRecord J)
    (body : ProxyBody J) (palette : List (PaletteRow J)) :
    (deskScope slot).Does v (buildMissing docs policies slot api current body palette)
      (fun _ _ => True) fun _ => Fallen := by
  have hfallen : ∀ (_ : NexusError) (v : Desk J), Staging v → Fallen v := fun _ _ h => h.fallen
  refine does_bind ((keeps_createMissing api current body v hv).mono (fun proxyId v hv => ?_) hfallen)
  refine does_bind ((keeps_attachAll proxyId _ v hv).mono (fun owned v hv => ?_) hfallen)
  refine does_bind ((keeps_attachAll proxyId _ v hv).mono (fun chosen v hv => ?_) hfallen)
  refine does_bind ((idle_mutateProxyLocked proxyId _).does (fun _ => ?_) fun _ => hv.fallen)
  refine does_bind ((desk_cutOverMissing hv api current proxyId).mono (fun _ v hv => ?_)
    fun _ _ h => h)
  refine does_bind (desk_noteRebuild ?_)
  have hsite : Site { v with rebuild := v.rebuild.map fun a => { a with cutoverAcknowledged := true } } :=
    ⟨hv.1.inv, hv.1.recovery, hv.1.undeployed⟩
  exact desk_adoptRebuild hsite hv.2 api current proxyId _ fun _ => ⟨hsite, fun _ _ _ => hv.2⟩

omit [DecidableEq J] in
/-- The removal of a failed attempt is journalled over a cutover that is
acknowledged, and keeps it. -/
theorem desk_persistRemoval {proxyId : ℕ} {entry : Mutation J} (hv : Site v)
    (hsettled : Settled v.ledger.cleanup) (hpending : entry.acknowledged = false)
    (hdrawn : entry.call < v.ledger.fresh)
    (hQ : ∀ l, v.ledger.Guar l → l.pending = [entry.request] → l.sent = v.ledger.sent →
      l.api = v.ledger.api → l.recovery = v.ledger.recovery → Q () { v with ledger := l })
    (hE : ∀ error, E error v) :
    (deskScope slot).Does v (persistRemoval proxyId entry) Q E := by
  refine desk_transaction ?_ hE
  rintro s rfl a s' hok
  split_ifs at hok
  cases hok
  let journal : CleanupJournal J := ⟨proxyId, entry, s.cleanup.map (·.entry)⟩
  -- What the journal keeps of the old one is its acknowledged cutover.
  have hentries : ∀ m ∈ journal.entries, m = entry ∨
      ∃ c, s.cleanup = some c ∧ m = c.entry ∧ m ∈ (desk slot s).ledger.stored := by
    intro m hm
    rcases List.mem_cons.mp hm with hnew | hold
    · exact .inl hnew
    · obtain ⟨c, hc, rfl⟩ := Option.map_eq_some_iff.mp (Option.mem_toList.mp hold)
      refine .inr ⟨c, hc, rfl, List.mem_append_right _ ?_⟩
      rw [show (desk slot s).ledger.cleanup = some c from hc]
      exact List.mem_cons_self
  have hguar : (desk slot s).ledger.Guar { (desk slot s).ledger with cleanup := some journal } := by
    refine Ledger.guar_saveCleanup hv.recovery ?_ ?_ ?_ hv.undeployed
    · intro m hm hack
      rcases hentries m hm with rfl | ⟨c, hc, rfl, hstored⟩
      · rw [hpending] at hack
        cases hack
      · exact hv.inv.acked _ hstored hack
    · intro m hm
      rcases hentries m hm with rfl | ⟨c, hc, rfl, hstored⟩
      · exact hdrawn
      · exact hv.inv.drawn _ hstored
    · intro stored hs m hm
      have hcutover := (hsettled stored hs).2
      simp only [CleanupJournal.entries, hcutover, Option.toList_none, List.mem_singleton] at hm
      have hkept : s.cleanup.map (·.entry) = some stored.entry := by
        rw [show s.cleanup = some stored from hs, Option.map_some]
      exact ⟨stored.entry, List.mem_cons_of_mem _ (Option.mem_toList.mpr hkept), by rw [hm]⟩
  refine ⟨hguar, hQ _ hguar ?_ rfl rfl rfl⟩
  have hrest : (s.cleanup.map (·.entry)).toList.filter (!·.acknowledged) = [] := by
    refine List.filter_eq_nil_iff.mpr fun m hm => ?_
    obtain ⟨c, hc, rfl⟩ := Option.map_eq_some_iff.mp (Option.mem_toList.mp hm)
    simp [(hsettled c hc).1]
  simp only [Ledger.pending, Ledger.stored, storedConversion, storedCleanup,
    PublishingState.ledger, Option.elim_some, CleanupJournal.entries]
  rw [show s.recovery = none from hv.recovery, Option.elim_none, List.nil_append,
    List.filter_cons_of_pos (by simp [hpending]), hrest]
  rfl

/-- The gateway acknowledged whatever the cleanup of a failed rebuild sent. -/
theorem desk_withdrawAttempt (hv : Fallen v) (api : ApiRecord J) :
    (deskScope slot).Does v (withdrawAttempt docs policies slot api)
      (fun _ v' => ∀ request ∈ v'.ledger.pending, request ∈ v'.ledger.acked) fun _ _ => True := by
  have hE : ∀ error : NexusError, True := fun _ => trivial
  refine does_bind (desk_readRebuild fun attempt hattempt => ?_)
  refine does_bind (does_require (fun hclosed => ?_) hE)
  have hsettled := hv.settled attempt hattempt (by
    simpa only [Bool.not_eq_true'] using hclosed)
  refine does_bind ((reads_readEdge _).does (fun original => ?_) hE)
  split
  · refine does_pure ?_
    rw [hv.site.pending hsettled]
    exact fun _ h => absurd h List.not_mem_nil
  · exact does_throw trivial
  · rename_i present attempted _ _
    cases deploymentTarget original present.body.id with
    | none => exact does_throw trivial
    | some target =>
      refine does_bind ((reads_require _ _).does (fun _ => ?_) hE)
      refine does_bind (desk_newId ?_)
      let entry : Mutation J := ⟨.remove, present.body.id, original, false, v.ledger.fresh⟩
      refine does_bind (desk_persistRemoval hv.site.newId hsettled rfl (Nat.lt_succ_self _)
        (fun l _ hpending hsent _ _ => ?_) hE)
      have hunsent : entry.request ∉ l.sent := by
        rw [hsent]
        exact fun hmem => absurd (hv.site.inv.sent _ hmem) (lt_irrefl _)
      refine does_bind ((reads_prepare _ _ _).does (fun _ => ?_) hE)
      refine desk_sendMutation hpending hunsent (.inl rfl) ?_ hE
      intro request hrequest
      rw [show request = entry.request from List.mem_singleton.mp (hpending ▸ hrequest)]
      exact List.mem_cons_self

omit [DecidableEq J] in
theorem sound_recordFailure {stranded : Option ℕ}
    (hv : stranded = none → ∀ request ∈ v.ledger.pending, request ∈ v.ledger.acked) :
    Sound slot v (recordFailure stranded) := by
  refine desk_transaction ?_ fun _ => trivial
  rintro s rfl a s' hok
  cases hok
  refine ⟨?_, trivial⟩
  have hapi : ∀ row', (s.api.map fun latest =>
      if latest.ferrumProxyId = none ∨ latest.ferrumProxyId = stranded then
        { latest with ferrumProxyId := stranded, gatewayState := .repairRequired }
      else latest) = some row' → s.api = some row' ∨ row'.gatewayState = .repairRequired := by
    intro row' hrow
    obtain ⟨latest, hlatest, rfl⟩ := Option.map_eq_some_iff.mp hrow
    split_ifs
    · exact .inr rfl
    · exact .inl hlatest
  cases stranded with
  | none =>
    refine Ledger.guar_endCleanup (hv rfl) fun row' hrow => ?_
    exact (hapi row' hrow).elim .inl fun hrepair => .inr (.inl hrepair)
  | some proxyId => exact Ledger.guar_of_journals rfl rfl le_rfl rfl rfl hapi

theorem sound_rebuildMissing (hv : Vacant v) (api : ApiRecord J) (current : ApiSpecRecord J) :
    Sound slot v (rebuildMissing docs policies slot api current) := by
  refine Sound.bind (reads_require _ _).keeps hv fun _ v hv => ?_
  refine Sound.bind (reads_edgeRead _).keeps hv fun _ v hv => ?_
  refine Sound.bind vacant_newId hv fun path v hv => ?_
  refine Sound.bind (reads_storeRead _).keeps hv fun palette v hv => ?_
  refine Sound.bind vacant_newId hv fun proxyId v hv => ?_
  refine Sound.bind reads_audited.keeps hv fun _ v hv => ?_
  refine does_bind (desk_openRebuild (does_tryCatch ?_))
  refine (desk_buildMissing (hv.staging rfl) api current _ palette).mono (fun _ _ h => h)
    fun error v hv => ?_
  refine does_bind (does_attempt ((desk_withdrawAttempt hv api).mono (fun _ v hv => ?_)
    fun failure v _ => ?_))
  · refine does_bind (desk_readRebuild fun attempt _ => ?_)
    refine does_bind (does_bestEffort ?_)
    have hrecords : Sound slot v (recordFailure none) := sound_recordFailure fun _ => hv
    exact hrecords.mono (fun _ _ _ => does_throw trivial) fun _ _ _ => does_throw trivial
  · refine does_bind (desk_readRebuild fun attempt _ => ?_)
    refine does_bind (does_bestEffort ?_)
    have hrecords : Sound slot v (recordFailure (some attempt.proxyId)) :=
      sound_recordFailure nofun
    exact hrecords.mono (fun _ _ _ => does_throw trivial) fun _ _ _ => does_throw trivial

end Building

section Restoring

variable {J : Type} [DecidableEq J] {slot : ℕ} {v : Desk J} {docs : Documents J}
  {policies : Policies J}

/-- Clearing a stale flag needs a row without journals; otherwise nothing
changes. -/
theorem desk_clearPresent (hrecovery : v.ledger.recovery = none) (hcleanup : v.ledger.cleanup = none)
    (api : ApiRecord J) (current : ApiSpecRecord J) (recorded : ℕ) :
    (deskScope slot).Does v (clearPresent docs api current recorded)
      (fun present v' => present = false → v' = v) fun _ _ => True := by
  have hE : ∀ error : NexusError, True := fun _ => trivial
  refine does_bind (reads_loadApi.does (fun latest => ?_) hE)
  refine does_bind ((reads_storeRead _).does (fun latestSpec => ?_) hE)
  refine does_bind ((reads_require _ _).does (fun _ => ?_) hE)
  refine does_bind ((reads_storeRead _).does (fun journal => ?_) hE)
  refine does_bind ((reads_require _ _).does (fun _ => ?_) hE)
  refine does_bind ((reads_readEdge _).does (fun found => ?_) hE)
  cases found with
  | none => exact does_pure fun _ => rfl
  | some live =>
    refine does_bind ((reads_readEdge _).does (fun e => ?_) hE)
    refine does_bind ((reads_require _ _).does (fun _ => ?_) hE)
    refine does_bind ((reads_require _ _).does (fun _ => ?_) hE)
    refine desk_transaction ?_ hE
    rintro s rfl a s' hok
    cases hapi : s.api with
    | none => simp [hapi] at hok
    | some final =>
      simp only [hapi] at hok
      split_ifs at hok
      cases hok
      refine ⟨?_, nofun⟩
      have hguar : ∀ api, (desk slot s).ledger.Guar { (desk slot s).ledger with api := api } := by
        intro api
        have hends : (desk slot s).ledger.Guar
            { (desk slot s).ledger with api := api, recovery := none } := by
          refine Ledger.guar_endConversion hcleanup fun r hr => ?_
          rw [hrecovery] at hr
          cases hr
        rwa [← hrecovery] at hends
      exact hguar _

omit [DecidableEq J] in
theorem desk_dropReference {Q : Unit → Desk J → Prop} {E : NexusError → Desk J → Prop}
    (hinv : v.ledger.Inv) (hcleanup : v.ledger.cleanup = none) (recorded : ℕ)
    (hQ : ∀ v', Vacant v' → Q () v') (hE : ∀ error, E error v) :
    (deskScope slot).Does v (dropReference recorded) Q E := by
  refine desk_transaction ?_ hE
  rintro s rfl a s' hok
  cases hapi : s.api with
  | none => simp [hapi] at hok
  | some latest =>
    simp only [hapi] at hok
    split_ifs at hok with _ hjournal
    cases hok
    have hguar : (desk slot s).ledger.Guar { (desk slot s).ledger with
        api := some { latest with ferrumProxyId := none, gatewayState := .repairRequired } } := by
      refine Ledger.guar_of_journals rfl rfl le_rfl rfl rfl fun row' hrow => .inr ?_
      cases hrow
      rfl
    have hrecovery : s.recovery = none := by simpa using hjournal
    refine ⟨hguar, hQ _ ⟨⟨(hguar hinv).2, hrecovery, fun row hrow => ?_⟩, hcleanup⟩⟩
    cases hrow
    exact .inl rfl

theorem sound_restoreGateway (hinv : v.ledger.Inv) :
    Sound slot v (restoreGateway docs policies slot) := by
  have hE : ∀ error : NexusError, True := fun _ => trivial
  refine does_bind (desk_loadApi (fun api hapi => ?_) hE)
  refine does_bind (desk_storeRead (fun s hs => ?_) hE)
  refine does_bind (does_require (fun hclean => ?_) hE)
  have hcleanup : v.ledger.cleanup = none := by
    have hnone : s.cleanup = none := by simpa using hclean
    rw [← hs]
    exact hnone
  refine does_bind (reads_assertBackendEgress.does (fun _ => ?_) hE)
  refine does_bind ((reads_storeRead _).does (fun found => ?_) hE)
  cases found with
  | none => exact does_throw trivial
  | some current =>
    refine does_bind (desk_readConversionRecovery (fun stored hstored => ?_) hE)
    cases stored with
    | some _ => exact sound_recoverConversion hinv hcleanup current
    | none =>
      cases hproxy : api.ferrumProxyId with
      | none =>
        refine sound_rebuildMissing ⟨⟨hinv, hstored, fun row hrow => ?_⟩, hcleanup⟩ api current
        rw [hapi] at hrow
        cases hrow
        exact .inl hproxy
      | some recorded =>
        refine does_bind ((desk_clearPresent hstored hcleanup api current recorded).mono
          (fun present v' hsame => ?_) fun _ _ h => h)
        cases present with
        | true => exact does_pure trivial
        | false =>
          rw [hsame rfl]
          refine does_bind (desk_dropReference hinv hcleanup recorded (fun v' hv' => ?_) hE)
          exact sound_rebuildMissing hv' api current

omit [DecidableEq J] in
/-- The last write of a deletion, where nothing is pending. -/
theorem desk_deleteRow {E : NexusError → Desk J → Prop} (hcleanup : v.ledger.cleanup = none)
    (hall : ∀ r, v.ledger.recovery = some r → r.mutations.all (·.acknowledged) = true)
    (hE : ∀ error, E error v) :
    (deskScope slot).Does v (transaction fun s =>
      if s.api.isNone then .error (notFound "API" 0)
      else .ok ((), { s with api := none, currentSpec := none, recovery := none, palette := [] }))
      (fun _ _ => True) E := by
  refine desk_transaction ?_ hE
  rintro s rfl a s' hok
  split_ifs at hok
  cases hok
  exact ⟨Ledger.guar_endConversion hcleanup hall, trivial⟩

/-- A deletion passes its custody check only where nothing is pending. -/
theorem sound_remove (initial : Option ℕ) : Sound (J := J) slot v (remove initial) := by
  have hE : ∀ error : NexusError, True := fun _ => trivial
  refine does_bind (reads_loadApi.does (fun api => ?_) hE)
  refine does_bind ((reads_require _ _).does (fun _ => ?_) hE)
  refine does_bind ((reads_storeRead _).does (fun _ => ?_) hE)
  refine does_bind (desk_transaction ?_ hE)
  rintro s rfl a s' hok
  split_ifs at hok with hcustody
  cases hok
  refine ⟨Ledger.Guar.refl _, ?_⟩
  simp only [deletionCustody, Bool.and_eq_true, Option.isNone_iff_eq_none] at hcustody
  obtain ⟨hrecovery, hcleanup⟩ := hcustody
  have hall : ∀ r, s.recovery = some r → r.mutations.all (·.acknowledged) = true := by
    intro r hr
    rw [hr, Option.all_some] at hrecovery
    simp only [Bool.and_eq_true] at hrecovery
    exact hrecovery.1.2
  cases api.ferrumProxyId with
  | none =>
    refine does_bind ((idle_writeEdge _).does (fun _ => ?_) hE)
    exact desk_deleteRow hcleanup hall hE
  | some proxyId =>
    refine does_bind ((reads_readEdge _).does (fun attached => ?_) hE)
    refine does_bind ((reads_storeRead _).does (fun rows => ?_) hE)
    refine does_bind ((idle_writeEdge _).does (fun _ => ?_) hE)
    refine does_bind ((idle_tryWrites _).does (fun _ => ?_) hE)
    refine does_bind ((idle_writeEdge _).does (fun _ => ?_) hE)
    exact desk_deleteRow hcleanup hall hE

end Restoring

end FerrumNexus.Publishing
