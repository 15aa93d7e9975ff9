import FerrumNexus.Publishing.Ledger
import FerrumNexus.Publishing.Disciplines

/-!
# Conversions keep the ledger

What the steps of a conversion and of its restores do to the ledger and to the
journal in memory. A request that holds a journal is its custodian: saving the
journal is allowed at any time, and once it is acknowledged in memory it is
acknowledged in the store. Only a conditional write moves away from that, by
four actions, and ends with a custodian again.
-/
namespace FerrumNexus.Publishing

open Saga Saga.Scope Platform

/-- What a request in one slot sees of the ledger, with its own memory. -/
structure Desk (J : Type) where
  ledger : Ledger J
  memory : Option (ConversionRecovery J)
  rebuild : Option (RebuildAttempt J)

section Rules

variable {J α : Type}

def desk (slot : ℕ) (s : PublishingState J) : Desk J := ⟨s.ledger, s.memory slot, s.rebuild slot⟩

def deskScope (slot : ℕ) : Scope (PublishingState J) (Desk J) where
  view := desk slot
  sound _ := True
  moves v v' := v.ledger.Guar v'.ledger
  moves_refl v := Ledger.Guar.refl v.ledger

variable {slot : ℕ} {v : Desk J} {Q : α → Desk J → Prop} {E : NexusError → Desk J → Prop}

theorem idle_writeEdge (f : Edge J → Except NexusError (α × Edge J)) :
    (deskScope slot).Idle (writeEdge f) := by
  rintro _ s rfl -
  refine wpe_writeEdge (fun s₁ hr a e _ => ?_) fun s₁ hr => ?_
  · exact ⟨Ledger.Guar.refl _, ⟨trivial, hr.1⟩, fun _ => ⟨trivial, hr.1⟩⟩
  · exact ⟨Ledger.Guar.refl _, fun _ => ⟨trivial, hr.1⟩⟩

theorem desk_storeRead {f : PublishingState J → α}
    (hQ : ∀ s : PublishingState J, desk slot s = v → Q (f s) v) (hE : ∀ error, E error v) :
    (deskScope slot).Does v (storeRead f) Q E :=
  Platform.does_storeRead hQ hE

theorem desk_transaction {f : PublishingState J → Except NexusError (α × PublishingState J)}
    (hf : ∀ s : PublishingState J, desk slot s = v → ∀ a s', f s = .ok (a, s') →
      v.ledger.Guar s'.ledger ∧ Q a (desk slot s'))
    (hE : ∀ error, E error v) : (deskScope slot).Does v (transaction f) Q E :=
  Platform.does_transaction (fun s hv _ a s' hfs => ⟨trivial, hf s hv a s' hfs⟩) hE

theorem desk_readMemory {Q : ConversionRecovery J → Desk J → Prop}
    (hQ : ∀ recovery, v.memory = some recovery → Q recovery v) :
    (deskScope slot).Does v (readMemory slot) Q E := by
  refine does_atomic ?_
  rintro s rfl - c r s' hf
  cases hmem : s.memory slot with
  | none => simp [hmem] at hf
  | some recovery =>
    simp only [hmem, Option.map_some, Option.some.injEq, Prod.mk.injEq] at hf
    obtain ⟨rfl, rfl⟩ := hf
    exact ⟨trivial, (deskScope slot).moves_refl _, hQ recovery hmem⟩

variable {Q : Unit → Desk J → Prop}

theorem desk_remember {f : ConversionRecovery J → ConversionRecovery J}
    (hQ : Q () { v with memory := v.memory.map f }) :
    (deskScope slot).Does v (remember slot f) Q E := by
  refine does_atomic ?_
  rintro s rfl - c r s' hstep
  cases hstep
  have hdesk : (deskScope slot).view (editMemory slot f s) =
      { desk slot s with memory := (desk slot s).memory.map f } := by
    simp only [deskScope, desk, editMemory, PublishingState.ledger, Function.update_self]
  refine ⟨trivial, Ledger.Guar.refl _, ?_⟩
  rw [hdesk]
  exact hQ

theorem desk_openJournal {recovery : ConversionRecovery J}
    (hQ : Q () { v with memory := some recovery }) :
    (deskScope slot).Does v (openJournal slot recovery) Q E := by
  refine does_atomic ?_
  rintro s rfl - c r s' hstep
  cases hstep
  refine ⟨trivial, Ledger.Guar.refl _, ?_⟩
  have hdesk : (deskScope slot).view
      { s with memory := Function.update s.memory slot (some recovery) } =
      { desk slot s with memory := some recovery } := by
    simp only [deskScope, desk, PublishingState.ledger, Function.update_self]
  rw [hdesk]
  exact hQ

theorem desk_newId {Q : ℕ → Desk J → Prop}
    (hQ : Q v.ledger.fresh { v with ledger := { v.ledger with fresh := v.ledger.fresh + 1 } }) :
    (deskScope slot).Does v newId Q E := by
  refine does_atomic ?_
  rintro s rfl - c r s' hstep
  cases hstep
  refine ⟨trivial, ?_, hQ⟩
  exact Ledger.guar_of_journals rfl rfl (Nat.le_succ _) rfl rfl fun _ h => .inl h

/-- A request is sent where it is the one pending entry; it is on record as
acknowledged only where it answers. -/
theorem desk_sendConditional {request : Request}
    {f : Edge J → Except NexusError (Unit × Edge J)} (hpending : v.ledger.pending = [request])
    (hunsent : request ∉ v.ledger.sent) (hQ : Q () { v with ledger := { v.ledger with
      sent := request :: v.ledger.sent, acked := request :: v.ledger.acked } })
    (hE : ∀ error, E error { v with ledger := { v.ledger with sent := request :: v.ledger.sent } }) :
    (deskScope slot).Does v (sendConditional request f) Q E := by
  have hsent : v.ledger.Guar { v.ledger with sent := request :: v.ledger.sent } :=
    Ledger.guar_send hpending hunsent _ fun _ h => h
  have hacked := Ledger.guar_send hpending hunsent (request :: v.ledger.acked)
    fun _ h => List.mem_cons_of_mem _ h
  rintro s rfl -
  refine wpe_sendConditional (fun s₁ hr e _ => ?_) fun s₁ hr => ?_
  all_goals
    have hdesk : desk slot s₁ = (deskScope slot).view s := hr.1
    rw [← hdesk] at hsent hacked hQ hE
  · exact ⟨⟨hacked, trivial, hQ⟩, hsent, fun _ => ⟨trivial, hE _⟩⟩
  · exact ⟨hsent, fun _ => ⟨trivial, hE _⟩⟩

end Rules

section Custodians

variable {J : Type}

/-- A request that holds the journal of a conversion. -/
structure Custodian (v : Desk J) : Prop where
  inv : v.ledger.Inv
  cleanup : v.ledger.cleanup = none
  journalled : v.ledger.recovery.isSome
  memory : ∃ r, v.memory = some r ∧ v.ledger.Fits r ∧ v.ledger.Agreed r

variable {slot : ℕ} {v : Desk J} {r : ConversionRecovery J} {E : NexusError → Desk J → Prop}

theorem Ledger.Inv.newId {l : Ledger J} (h : l.Inv) : ({ l with fresh := l.fresh + 1 } : Ledger J).Inv :=
  have hguar : l.Guar { l with fresh := l.fresh + 1 } :=
    Ledger.guar_of_journals rfl rfl (Nat.le_succ _) rfl rfl fun _ h => .inl h
  (hguar h).2

theorem Ledger.Fits.newId {l : Ledger J} (h : l.Fits r) :
    ({ l with fresh := l.fresh + 1 } : Ledger J).Fits r :=
  ⟨h.acked, fun m hm => (h.drawn m hm).trans (Nat.lt_succ_self _), h.kept⟩

theorem keeps_newId : (deskScope (J := J) slot).Keeps Custodian newId := by
  intro v hv
  obtain ⟨r, hr, hfits, hagreed⟩ := hv.memory
  have hnext : Custodian { v with ledger := { v.ledger with fresh := v.ledger.fresh + 1 } } :=
    ⟨hv.inv.newId, hv.cleanup, hv.journalled, r, hr, hfits.newId, hagreed⟩
  exact desk_newId hnext

/-- An edit of the staged rebuild. -/
theorem keeps_remember {f : ConversionRecovery J → ConversionRecovery J}
    (hf : ∀ r, (f r).mutations = r.mutations ∧ (f r).originalAuthority = r.originalAuthority) :
    (deskScope slot).Keeps Custodian (remember slot f) := by
  intro v hv
  obtain ⟨r, hr, hfits, hagreed⟩ := hv.memory
  obtain ⟨hmutations, hauthority⟩ := hf r
  refine desk_remember ⟨hv.inv, hv.cleanup, hv.journalled, f r, by rw [hr, Option.map_some], ?_, ?_⟩
  · refine ⟨?_, ?_, ?_⟩
    · rw [hmutations]
      exact hfits.acked
    · rw [hmutations]
      exact hfits.drawn
    · rw [hmutations, hauthority]
      exact hfits.kept
  · rw [Ledger.Agreed, hmutations]
    exact hagreed

variable [DecidableEq J] {Q : Unit → Desk J → Prop}

/-- Saving the journal in memory. -/
theorem desk_saveConversionRecovery {api : ApiRecord J} (hinv : v.ledger.Inv)
    (hcleanup : v.ledger.cleanup = none) (hjournalled : v.ledger.recovery.isSome)
    (hr : v.memory = some r) (hfits : v.ledger.Fits r)
    (hQ : Q () { v with ledger := { v.ledger with recovery := some r } })
    (hE : ∀ error, E error v) :
    (deskScope slot).Does v (saveConversionRecovery slot api false) Q E := by
  refine does_bind (desk_readMemory fun recovery hrecovery => desk_transaction ?_ hE)
  rw [hr] at hrecovery
  cases hrecovery
  rintro s rfl a s' hok
  obtain ⟨latest, hapi, -, rfl⟩ := saveRecovery_ok hok
  have hdesk : desk slot { s with recovery := some r, api := some latest } =
      { desk slot s with ledger := { (desk slot s).ledger with recovery := some r } } := by
    simp only [desk, PublishingState.ledger, hapi]
  simp only [Bool.false_eq_true, if_false]
  rw [hdesk]
  refine ⟨?_, hQ⟩
  exact Ledger.guar_save hcleanup hfits fun row hrow =>
    hinv.converting hjournalled row (hapi.trans hrow)

theorem desk_persist {api : ApiRecord J} {kind : MutationKind} (hinv : v.ledger.Inv)
    (hcleanup : v.ledger.cleanup = none) (hjournalled : v.ledger.recovery.isSome)
    (hr : v.memory = some r) (hfits : v.ledger.Fits r)
    (hQ : Q () { v with ledger := { v.ledger with recovery := some r } })
    (hE : ∀ error, E error v) : (deskScope slot).Does v (persist slot api kind) Q E := by
  refine does_bind ((reads_storeRead _).does (fun row => ?_) hE)
  cases row with
  | some _ => exact desk_saveConversionRecovery hinv hcleanup hjournalled hr hfits hQ hE
  | none =>
    refine does_bind ((reads_ensure _ _).does (fun _ => ?_) hE)
    refine does_bind (desk_readMemory fun recovery hrecovery => desk_transaction ?_ hE)
    rw [hr] at hrecovery
    cases hrecovery
    rintro s rfl a s' hok
    split_ifs at hok
    cases hok
    refine ⟨?_, hQ⟩
    exact Ledger.guar_save hcleanup hfits (hinv.converting hjournalled)

theorem keeps_saveConversionRecovery (api : ApiRecord J) :
    (deskScope slot).Keeps Custodian (saveConversionRecovery slot api false) := by
  intro v hv
  obtain ⟨r, hr, hfits, hagreed⟩ := hv.memory
  refine desk_saveConversionRecovery hv.inv hv.cleanup hv.journalled hr hfits ?_ fun _ => hv
  have hinv := hv.inv.save hv.cleanup hv.journalled hfits
  exact ⟨hinv, hv.cleanup, rfl, r, hr, Ledger.fits_self hinv rfl, Ledger.agreed_self rfl⟩

omit [DecidableEq J] in
/-- Sending an entry of a conversion journal, or nothing. -/
theorem desk_sendMutation {docs : Documents J} {call : ℕ} {kind : MutationKind} {id : ℕ}
    {original : Snapshot J} {document : Option (SubmittedSpec J)}
    (hpending : v.ledger.pending = [⟨kind, id, call⟩]) (hunsent : ⟨kind, id, call⟩ ∉ v.ledger.sent)
    (hdocument : kind = .remove ∨ document.isSome)
    (hQ : Q () { v with ledger := { v.ledger with
      sent := ⟨kind, id, call⟩ :: v.ledger.sent, acked := ⟨kind, id, call⟩ :: v.ledger.acked } })
    (hE : ∀ error, E error
      { v with ledger := { v.ledger with sent := ⟨kind, id, call⟩ :: v.ledger.sent } }) :
    (deskScope slot).Does v (sendMutation docs call kind id original document) Q E := by
  cases kind with
  | remove => exact desk_sendConditional hpending hunsent hQ hE
  | replace =>
    cases document with
    | none => simp at hdocument
    | some submitted => exact desk_sendConditional hpending hunsent hQ hE

/-- The journal in memory, with one more entry than an acknowledged one. -/
structure Pushed (v : Desk J) (r : ConversionRecovery J) (entry : Mutation J) : Prop where
  inv : v.ledger.Inv
  cleanup : v.ledger.cleanup = none
  journalled : v.ledger.recovery.isSome
  memory : v.memory = some (pushMutation entry r)
  fits : v.ledger.Fits r
  unsent : entry.request ∉ v.ledger.sent
  drawn : entry.call < v.ledger.fresh
  pending : entry.acknowledged = false
  clean : r.mutations.all (·.acknowledged) = true

omit [DecidableEq J] in
theorem Pushed.fits_pushed {entry : Mutation J} (h : Pushed v r entry) :
    v.ledger.Fits (pushMutation entry r) := by
  refine ⟨?_, ?_, ?_⟩
  · intro m hm hack
    rcases List.mem_append.mp hm with hm | hm
    · exact h.fits.acked m hm hack
    · rw [List.mem_singleton.mp hm, h.pending] at hack
      cases hack
  · intro m hm
    rcases List.mem_append.mp hm with hm | hm
    · exact h.fits.drawn m hm
    · rw [List.mem_singleton.mp hm]
      exact h.drawn
  · intro stored hs
    obtain ⟨hkept, hauthority⟩ := h.fits.kept stored hs
    refine ⟨fun m hm hsent => ?_, hauthority⟩
    obtain ⟨m', hm', heq⟩ := hkept m hm hsent
    exact ⟨m', List.mem_append_left _ hm', heq⟩

omit [DecidableEq J] in
theorem Pushed.custodian {entry : Mutation J} (h : Pushed v r entry) : Custodian v := by
  refine ⟨h.inv, h.cleanup, h.journalled, _, h.memory, h.fits_pushed, ?_⟩
  intro hall
  simp [pushMutation, h.pending] at hall

omit [DecidableEq J] in
theorem popMutation_pushMutation (entry : Mutation J) (r : ConversionRecovery J) :
    popMutation (pushMutation entry r) = r := by
  simp [popMutation, pushMutation]

omit [DecidableEq J] in
/-- Marking entries whose requests were acknowledged, or taking marks back. -/
theorem Ledger.Fits.mark {l : Ledger J} {call : ℕ} {acknowledged : Bool} (h : l.Fits r)
    (hacked : acknowledged = true → ∀ m ∈ r.mutations, m.call = call → m.request ∈ l.acked) :
    l.Fits (markMutation call acknowledged r) := by
  refine ⟨?_, ?_, ?_⟩
  · intro m' hm' hack
    obtain ⟨m, hm, rfl⟩ := List.mem_map.mp hm'
    split_ifs at hack ⊢ with hcall
    · exact hacked hack m hm hcall
    · exact h.acked m hm hack
  · intro m' hm'
    obtain ⟨m, hm, rfl⟩ := List.mem_map.mp hm'
    split_ifs
    · exact h.drawn m hm
    · exact h.drawn m hm
  · intro stored hs
    obtain ⟨hkept, hauthority⟩ := h.kept stored hs
    refine ⟨fun m₀ hm₀ hsent => ?_, hauthority⟩
    obtain ⟨m, hm, heq⟩ := hkept m₀ hm₀ hsent
    refine ⟨_, List.mem_map_of_mem hm, ?_⟩
    split_ifs
    · exact heq
    · exact heq

omit [DecidableEq J] in
/-- A custodian whose journal is the stored one. -/
theorem custodian_of_stored (hinv : v.ledger.Inv) (hcleanup : v.ledger.cleanup = none)
    (hrecovery : v.ledger.recovery = some r) (hr : v.memory = some r) : Custodian v :=
  ⟨hinv, hcleanup, by rw [hrecovery]; rfl, r, hr, Ledger.fits_self hinv hrecovery,
    Ledger.agreed_self hrecovery⟩

/-- A conditional write begins and ends with a custodian. Its request is sent
while its own entry is the one that is pending in the store. -/
theorem keeps_mutateRecoveryDeployment {docs : Documents J} (api : ApiRecord J)
    (kind : MutationKind) (id : ℕ) (original : Snapshot J) (document : Option (SubmittedSpec J)) :
    (deskScope slot).Keeps Custodian
      (mutateRecoveryDeployment docs slot api kind id original document) := by
  intro v hv
  have hthrow : ∀ _ : NexusError, Custodian v := fun _ => hv
  obtain ⟨r, hr, hfits, -⟩ := hv.memory
  refine does_bind (does_bind (desk_readMemory fun r' hr' => ?_))
  rw [hr] at hr'
  cases hr'
  refine does_require (fun hclean => ?_) hthrow
  refine does_bind (does_require (fun hdocument => ?_) hthrow)
  refine does_bind ((reads_prepare kind id original).does (fun _ => ?_) hthrow)
  refine does_bind (desk_newId ?_)
  let entry : Mutation J := ⟨kind, id, original, false, v.ledger.fresh⟩
  let drawn : Ledger J := { v.ledger with fresh := v.ledger.fresh + 1 }
  refine does_bind (desk_remember ?_)
  -- From here on the journal in memory ends with the entry.
  let v₁ : Desk J := ⟨drawn, some (pushMutation entry r), v.rebuild⟩
  have hpushed : Pushed v₁ r entry := by
    refine ⟨hv.inv.newId, hv.cleanup, hv.journalled, rfl, hfits.newId, ?_, ?_, rfl, hclean⟩
    · intro hsent
      exact absurd (hv.inv.sent _ hsent) (lt_irrefl _)
    · exact Nat.lt_succ_self _
  rw [hr, Option.map_some]
  refine does_bind (desk_persist hpushed.inv hpushed.cleanup hpushed.journalled rfl
    hpushed.fits_pushed ?_ fun _ => hpushed.custodian)
  let v₂ : Desk J := { v₁ with ledger := { drawn with recovery := some (pushMutation entry r) } }
  have hinv₂ : v₂.ledger.Inv :=
    hpushed.inv.save hpushed.cleanup hpushed.journalled hpushed.fits_pushed
  have hpending : v₂.ledger.pending = [entry.request] := by
    have hold : r.mutations.filter (!·.acknowledged) = [] := by
      refine List.filter_eq_nil_iff.mpr fun m hm => ?_
      simpa using List.all_eq_true.mp hclean m hm
    have hstored : v₂.ledger.stored = r.mutations ++ [entry] := by
      simp [Ledger.stored, storedConversion, storedCleanup, v₂, drawn, hv.cleanup, pushMutation]
    rw [Ledger.pending, hstored, List.filter_append, hold]
    rfl
  have hcustodian₂ : Custodian v₂ := custodian_of_stored hinv₂ hv.cleanup rfl rfl
  refine does_bind (does_attempt ((reads_prepare kind id original).does (fun _ => ?_) fun error => ?_))
  · have hkind : kind = .remove ∨ document.isSome := by
      simpa using hdocument
    have hsent : ∀ acked, (∀ a ∈ v₂.ledger.acked, a ∈ acked) →
        ({ v₂.ledger with sent := entry.request :: v₂.ledger.sent, acked := acked } : Ledger J).Inv :=
      fun acked hacked => (Ledger.guar_send hpending hpushed.unsent acked hacked hinv₂).2
    refine does_bind (desk_sendMutation hpending hpushed.unsent hkind ?_ fun _ => ?_)
    · -- The answer came: the entry is marked in memory, and then in the store.
      have hinv₃ := hsent (entry.request :: v₂.ledger.acked) fun _ h => List.mem_cons_of_mem _ h
      have hfits₃ := Ledger.fits_self hinv₃ rfl
      have hmarked : Ledger.Fits _ (markMutation entry.call true (pushMutation entry r)) :=
        hfits₃.mark fun _ m hm hcall => by
          rcases List.mem_append.mp hm with hold | hnew
          · exact absurd (hfits.drawn m hold) (by rw [hcall]; exact lt_irrefl _)
          · rw [List.mem_singleton.mp hnew]
            exact List.mem_cons_self
      refine does_bind (desk_remember ?_)
      refine does_tryCatch (desk_persist hinv₃ hv.cleanup rfl rfl hmarked ?_ fun _ => ?_)
      · exact custodian_of_stored (hinv₃.save hv.cleanup rfl hmarked) hv.cleanup rfl rfl
      · refine does_bind (desk_remember ?_)
        refine does_throw ⟨hinv₃, hv.cleanup, rfl, _, rfl, hmarked.mark fun h => absurd h Bool.false_ne_true, ?_⟩
        intro hall
        simp [markMutation, pushMutation] at hall
    · exact custodian_of_stored (hsent _ fun _ h => h) hv.cleanup rfl rfl
  · -- The client refused before it sent: the entry is taken back.
    refine does_bind (desk_remember ?_)
    have hpopped : v₂.ledger.Fits r := by
      refine ⟨hfits.acked, hpushed.fits.drawn, ?_⟩
      intro stored hs
      cases hs
      refine ⟨fun m hm hsent => ?_, fun _ h => h⟩
      rcases List.mem_append.mp hm with hold | hnew
      · exact ⟨m, hold, rfl⟩
      · rw [List.mem_singleton.mp hnew] at hsent
        exact absurd hsent hpushed.unsent
    have hmemory : (v₂.memory.map popMutation) = some r := by
      rw [show v₂.memory = some (pushMutation entry r) from rfl, Option.map_some,
        popMutation_pushMutation]
    refine does_bind (does_tryCatch (desk_persist hinv₂ hv.cleanup rfl hmemory hpopped ?_ fun _ => ?_))
    · exact does_throw
        (custodian_of_stored (hinv₂.save hv.cleanup rfl hpopped) hv.cleanup rfl hmemory)
    · refine desk_remember (does_throw ?_)
      rw [hmemory]
      exact hcustodian₂

end Custodians

section Reads

variable {J : Type} {slot : ℕ}

theorem idle_whenever {condition : Bool} {p : PublishingService J Unit}
    (h : (deskScope slot).Idle p) : (deskScope slot).Idle (whenever condition p) := by
  cases condition with
  | true => exact h
  | false => exact idle_pure ()

theorem keeps_whenever {A : Desk J → Prop} {condition : Bool} {p : PublishingService J Unit}
    (h : (deskScope slot).Keeps A p) : (deskScope slot).Keeps A (whenever condition p) := by
  cases condition with
  | true => exact h
  | false => exact (idle_pure ()).keeps

theorem idle_mutateProxyLocked (proxyId : ℕ) (change : Proxy J → Option (ProxyBody J × List ℕ)) :
    (deskScope slot).Idle (mutateProxyLocked proxyId change) := by
  refine (reads_readEdge _).idle.bind fun found => ?_
  cases found with
  | none => exact idle_throw _
  | some proxy =>
    simp only
    cases change proxy with
    | none => exact idle_pure ()
    | some next => exact idle_writeEdge _

theorem idle_runWrites (writes : List (Edge J → Except NexusError (Unit × Edge J))) :
    (deskScope slot).Idle (runWrites writes) := by
  induction writes with
  | nil => exact idle_pure ()
  | cons write writes ih => exact (idle_writeEdge write).bind fun _ => ih

theorem idle_tryWrites (writes : List (Edge J → Except NexusError (Unit × Edge J))) :
    (deskScope slot).Idle (tryWrites writes) := by
  induction writes with
  | nil => exact idle_pure ()
  | cons write writes ih =>
    refine Idle.bind (fun v => ?_) fun _ => ih
    exact does_bestEffort ((idle_writeEdge write).does (fun _ => rfl) fun _ => rfl)

end Reads

section Rebuilding

variable {J : Type} [DecidableEq J] {slot : ℕ} {docs : Documents J}

omit [DecidableEq J] in
/-- The cutover does what its write does; without a specification it only moves
the proxy. -/
theorem desk_cutOverToListenPathLocked {v : Desk J} {Q : Unit → Desk J → Prop}
    {E : NexusError → Desk J → Prop} {proxyId : ℕ} {level : Level} {listenPath : ListenPath}
    {document : J} {specId : Option ℕ} {agents : Option J}
    {checkRead : Proxy J → PublishingService J Unit}
    {write : ℕ → SubmittedSpec J → PublishingService J Unit}
    (hcheck : ∀ proxy, Reads (checkRead proxy))
    (hmoved : level = .docsOnly → Q () v)
    (hwrite : level = .routes → ∀ id submitted, (deskScope slot).Does v (write id submitted) Q E)
    (hE : ∀ error, E error v) :
    (deskScope slot).Does v (cutOverToListenPathLocked docs proxyId level listenPath document
      specId agents checkRead write) Q E := by
  have hspec : level = .routes → ∀ id, (deskScope slot).Does v
      (cutOverSpec docs proxyId listenPath document agents checkRead (write id)) Q E := by
    intro hlevel id
    refine does_bind ((reads_readEdge _).does (fun found => ?_) hE)
    cases found with
    | none => exact does_throw (hE _)
    | some proxy =>
      refine does_bind ((hcheck proxy).does (fun _ => ?_) hE)
      refine does_bind ((reads_buildSpecDocument docs _ _ _).does (fun submitted => ?_) hE)
      exact hwrite hlevel id submitted
  cases level with
  | docsOnly =>
    have hmove : (deskScope (J := J) slot).Idle (mutateProxyLocked proxyId fun proxy =>
        some ({ proxy.body with listenPath := listenPath }, proxy.plugins)) :=
      idle_mutateProxyLocked proxyId _
    exact hmove.does (fun _ => hmoved rfl) hE
  | routes =>
    cases specId with
    | some id => exact hspec rfl id
    | none => exact does_bind ((reads_specIdForProxy proxyId).does (fun id => hspec rfl id) hE)

/-- Custodians are disciplined: what a conversion does in between keeps the
journal in their hands. -/
def custodians : ConversionDiscipline J slot where
  Good p := (deskScope slot).Keeps Custodian p
  reads h := h.keeps
  bind hp hg := hp.bind hg
  newId := keeps_newId
  createConfig _ := (idle_writeEdge _).keeps
  mutateProxy proxyId _ _ := (idle_mutateProxyLocked proxyId _).keeps
  held _ := True
  mine _ := True
  mine_of_held _ _ := trivial
  readMemory hg := (reads_readMemory.keeps).bind fun r => hg r trivial
  remember hf := keeps_remember fun r => (hf r).2
  save := keeps_saveConversionRecovery
  mutate _ api _ _ _ _ := keeps_mutateRecoveryDeployment api _ _ _ _
  createProxy _ _ := (idle_writeEdge _).keeps
  importSpec _ _ _ := (idle_writeEdge _).keeps

end Rebuilding

end FerrumNexus.Publishing
