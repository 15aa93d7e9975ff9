import FerrumNexus.Access.Revocation
import FerrumNexus.Access.Rows
import FerrumNexus.Credentials.MirrorRuns

/-!
# What recovery leaves

The identity, the API and the subject of a job have a dossier: the rows and the
gateway consumer a recovery reads. Other programs may do anything that leaves the
dossier as it is, and any call may fail. A completed recovery of an approval has
set the groups of the API to what the active grant gives and settled the request
by that grant; a completed recovery of a revocation has taken the groups off.
-/
namespace FerrumNexus.Access

open Saga Saga.Scope Platform Portal Credentials

structure Dossier where
  api : Option ApiRecord
  account : Option UserRecord
  mapping : Option ConsumerRecord
  consumer : Option EdgeConsumer
  live : Option GrantRecord
  grant : Option GrantRecord
  request : Option AccessRequestRecord
  pending : Option AccessRequestRecord

def dossier (job : AccessGatewayJobRecord) (s : World) : Dossier where
  api := s.apis job.apiId
  account := s.users job.userId
  mapping := findConsumer s job.identity
  consumer := (findConsumer s job.identity).bind fun m => s.consumers m.ferrumConsumerId
  live := findActive s job.apiId job.identity
  grant := s.grants job.subjectId
  request := s.requests job.subjectId
  pending := (s.requests job.subjectId).bind fun row => findPending s row.apiId row.identity

/-- `findById` answers with the row of that id. -/
structure Keyed (s : World) : Prop where
  api : ∀ id api, s.apis id = some api → api.id = id
  request : ∀ id request, s.requests id = some request → request.id = id

def dossierScope (job : AccessGatewayJobRecord) : Scope World Dossier where
  view := dossier job
  sound := Keyed
  moves _ _ := True
  moves_refl _ := trivial

/-- The groups an active grant gives, as an approval writes them. -/
def grantedGroups (api : ApiRecord) : Option GrantRecord → List AclGroup
  | none => []
  | some live => aclGroupForApi api.id ::
      if api.agents.isSome then mcpGroupsForGrant api.id live.approvedTools else []

/-- The groups `reconcileGroups` writes over `groups`. -/
def reconciled (api : ApiRecord) (seen : Option GrantRecord × Bool) (groups : List AclGroup) :
    List AclGroup :=
  let kept := groups.filter fun entry =>
    !isGroupOfApi api.id entry || (grantedGroups api seen.1).contains entry
  kept ++ if seen.2 then (grantedGroups api seen.1).filter fun entry => !kept.contains entry else []

def Dossier.active (v : Dossier) : Bool :=
  v.account.any (·.status == .active)

/-- The dossier with other groups on the consumer, if there is one. -/
def Dossier.regroup (v : Dossier) (change : List AclGroup → List AclGroup) : Dossier where
  __ := v
  consumer := v.consumer.map fun consumer =>
    { consumer with aclGroups := change consumer.aclGroups }

/-! ## One call -/

section Calls

variable {job : AccessGatewayJobRecord} {slot : ℕ} {v : Dossier} {α : Type}
  {Q : α → Dossier → Prop} {E : NexusError → Dossier → Prop}

/-- A write to the gateway that keeps the rows keyed. -/
theorem does_write {f : World → Except NexusError (α × World)}
    (h : ∀ s a s', dossier job s = v → Keyed s → f s = .ok (a, s') →
      Keyed s' ∧ Q a (dossier job s') ∧ ∀ e, E e (dossier job s'))
    (hE : ∀ e, E e v) : (dossierScope job).Does v (edgeWrite f) Q E := by
  refine does_edgeWrite (fun s hv hs a s' hf => ?_) hE
  obtain ⟨hkeyed, hQ, hlost⟩ := h s a s' hv hs hf
  exact ⟨hkeyed, trivial, hQ, hlost⟩

theorem does_commit {body : Tx α}
    (h : ∀ s a s', dossier job s = v → Keyed s → body s = .ok (a, s') →
      Keyed s' ∧ Q a (dossier job s'))
    (hE : ∀ e, E e v) : (dossierScope job).Does v (commit body) Q E := by
  refine does_transaction (fun s hv hs a s' hf => ?_) hE
  obtain ⟨hkeyed, hQ⟩ := h s a s' hv hs hf
  exact ⟨hkeyed, trivial, hQ⟩

theorem idle_acquire (key : Key) : (dossierScope job).Idle (acquire slot key) := by
  apply idle_atomic
  intro s o r s' hf
  split at hf <;> cases hf <;> exact ⟨rfl, fun hs => ⟨hs.api, hs.request⟩⟩

theorem does_release {key : Key} {Q : Unit → Dossier → Prop} (hQ : Q () v) :
    (dossierScope job).Does v (release key) Q E := by
  apply does_atomic
  rintro s rfl hs o r s' hf
  cases hf
  exact ⟨⟨hs.api, hs.request⟩, trivial, hQ⟩

theorem does_serializePerKey {key : Key} {p : AccessService α}
    (h : (dossierScope job).Does v p Q E) (hE : ∀ e, E e v) :
    (dossierScope job).Does v (serializePerKey slot key p) Q E := by
  apply does_bind
  apply (idle_acquire key).does _ hE
  intro _
  apply does_bind
  apply does_tryCatch
  apply h.mono
  · intro a v' hQ
    apply does_bind
    apply does_release
    exact does_pure hQ
  · intro error v' he
    apply does_bind
    apply does_release
    exact does_throw he

end Calls

/-! ## A change of groups -/

section Groups

variable {job : AccessGatewayJobRecord} {slot : ℕ} {v : Dossier} {γ : Type}
  {mapping : ConsumerRecord} {E : NexusError → Dossier → Prop}

theorem dossier_setGroups {s : World} {consumer : EdgeConsumer}
    (hm : findConsumer s job.identity = some mapping)
    (hc : s.consumers mapping.ferrumConsumerId = some consumer)
    (change : List AclGroup → List AclGroup) :
    dossier job (setGroups mapping.ferrumConsumerId (change consumer.aclGroups) s) =
      (dossier job s).regroup change := by
  have hmapping : findConsumer
      (setGroups mapping.ferrumConsumerId (change consumer.aclGroups) s) job.identity =
        some mapping := by
    simp only [setGroups, hc]
    exact hm
  simp only [dossier, Dossier.regroup, hmapping, hm, Option.bind_some, hc, Option.map_some]
  simp only [setGroups, hc, Function.update_self]
  rfl

theorem Keyed.setGroups {s : World} (hs : Keyed s) (consumerId : ConsumerId)
    (groups : List AclGroup) : Keyed (setGroups consumerId groups s) := by
  unfold Credentials.setGroups
  split
  · exact ⟨hs.api, hs.request⟩
  · exact hs

/-- A write that was not refused, of a consumer that may be gone already. -/
theorem does_writeGroups {options : MutateAclGroups γ Unit} {seen : γ}
    (hm : v.mapping = some mapping) (habsent : options.absentIsDone = true)
    (hafter : options.afterWrite = pure ()) :
    (dossierScope job).Does v
      (writeGroups mapping.ferrumConsumerId options seen (v.consumer.map (·.aclGroups)))
      (fun _ v' => v' = v.regroup (options.change seen)) (fun _ _ => True) := by
  cases hc : v.consumer with
  | none =>
    simp only [Option.map_none, writeGroups, habsent, if_true]
    apply does_pure
    rw [Dossier.regroup, hc, Option.map_none, ← hc]
  | some consumer =>
    simp only [Option.map_some, writeGroups, hafter]
    apply does_bind
    apply does_write
    · intro s a s' hv hs hf
      have hmapping : findConsumer s job.identity = some mapping := by
        rw [← hm, ← hv]
        rfl
      have hconsumer : s.consumers mapping.ferrumConsumerId = some consumer := by
        rw [← hc, ← hv]
        simp only [dossier, hmapping, Option.bind_some]
      simp only [hconsumer, if_true, Except.ok.injEq, Prod.mk.injEq] at hf
      obtain ⟨-, rfl⟩ := hf
      refine ⟨hs.setGroups _ _, ?_, fun _ => trivial⟩
      rw [dossier_setGroups hmapping hconsumer, hv]
      exact does_map (does_pure rfl)
    · exact fun _ => trivial

/-- A guard that answers as `A` says and changes nothing decides whether the
groups are changed. An exception comes from before the change. -/
theorem does_mutateAclGroups {options : MutateAclGroups γ Unit} {A : γ × Bool → Prop}
    (hm : v.mapping = some mapping) (huser : options.requireActiveUser = none)
    (habsent : options.absentIsDone = true) (hafter : options.afterWrite = pure ())
    (hguard : (dossierScope job).Does v options.guard (fun answer v' => A answer ∧ v' = v) E)
    (hE : ∀ e, E e v) :
    (dossierScope job).Does v (mutateAclGroups slot mapping.ferrumConsumerId options)
      (fun answer v' => (A (answer.1, false) ∧ v' = v) ∨ (A (answer.1, true) ∧
        ∀ done, answer.2 = .ok done → v' = v.regroup (options.change answer.1))) E := by
  apply does_serializePerKey _ hE
  rw [huser]
  apply does_bind
  apply does_pure
  apply does_bind
  apply does_edgeRead _ hE
  intro s hv
  have hsnapshot : (s.consumers mapping.ferrumConsumerId).map (·.aclGroups) =
      v.consumer.map (·.aclGroups) := by
    have hmapping : findConsumer s job.identity = some mapping := by
      rw [← hm, ← hv]
      rfl
    rw [← hv]
    simp only [dossierScope, dossier, hmapping, Option.bind_some]
  rw [hsnapshot]
  apply does_bind
  apply hguard.mono _ fun _ _ h => h
  rintro ⟨seen, proceed⟩ _ ⟨hA, rfl⟩
  cases proceed with
  | false =>
    apply does_pure
    exact .inl ⟨hA, rfl⟩
  | true =>
    apply does_bind
    apply does_attempt
    apply (does_writeGroups hm habsent hafter).mono
    · intro done v' hv'
      apply does_pure
      exact .inr ⟨hA, fun _ _ => hv'⟩
    · intro error v' _
      apply does_pure
      exact .inr ⟨hA, nofun⟩

/-- An identity without a mapping has no consumer in its dossier. -/
theorem regroup_of_mapping {s : World} (hv : dossier job s = v) (hm : v.mapping = none)
    (change : List AclGroup → List AclGroup) : v.regroup change = v := by
  have hconsumer : v.consumer = none := by
    rw [← hv] at hm ⊢
    simp only [dossier] at hm ⊢
    rw [hm]
    rfl
  rw [Dossier.regroup, hconsumer, Option.map_none, ← hconsumer]

/-! ### After an approval -/

/-- What the guard of `reconcileGroups` reads in the consumer's section. -/
theorem does_readLive {apiId : ℕ} {Q : (Option GrantRecord × Bool) × Bool → Dossier → Prop}
    (hid : apiId = job.apiId) (h : Q ((v.live, v.active), true) v) :
    (dossierScope job).Does v (do
      let live ← storeRead fun s => findActive s apiId job.identity
      let active ← storeRead fun s => (s.users job.identity.userId).any (·.status == .active)
      pure ((live, active), true) : AccessService ((Option GrantRecord × Bool) × Bool))
      Q (fun _ _ => True) := by
  apply does_bind
  apply does_storeRead _ fun _ => trivial
  intro s hv
  apply does_bind
  apply does_storeRead _ fun _ => trivial
  intro s' hv'
  apply does_pure
  have hlive : findActive s apiId job.identity = v.live := by
    rw [← hv, hid]
    rfl
  have hactive : (s'.users job.identity.userId).any (·.status == .active) = v.active := by
    rw [← hv']
    rfl
  rw [hlive, hactive]
  exact h

/-- The groups are reconciled with the grant that is live then. -/
theorem does_reconcileGroups {api : ApiRecord} (hid : api.id = job.apiId) :
    (dossierScope job).Does v (reconcileGroups slot job.identity api)
      (fun live v' => live = v.live ∧ v' = v.regroup (reconciled api (v.live, v.active)))
      (fun _ _ => True) := by
  apply does_bind
  apply does_storeRead _ fun _ => trivial
  intro s hv
  have hmapping : findConsumer s job.identity = v.mapping := by
    rw [← hv]
    rfl
  rw [hmapping]
  cases hm : v.mapping with
  | none =>
    apply does_bind
    apply does_readLive hid
    apply does_pure
    exact ⟨rfl, (regroup_of_mapping hv hm _).symm⟩
  | some mapping =>
    apply does_bind
    have hguard := does_readLive hid (Q := fun answer v' => answer = ((v.live, v.active), true) ∧ v' = v) ⟨rfl, rfl⟩
    apply (does_mutateAclGroups hm rfl rfl rfl hguard fun _ => trivial).mono _ fun _ _ _ => trivial
    rintro ⟨seen, result⟩ v' hpost
    apply does_bind
    cases result with
    | error error =>
      apply does_throw
      exact trivial
    | ok done =>
      apply does_pure
      apply does_pure
      rcases hpost with ⟨hA, -⟩ | ⟨hA, hwritten⟩
      · cases hA
      · cases hA
        exact ⟨rfl, hwritten done rfl⟩

/-! ### After a revocation -/

/-- Why a removal is not owed, for a job that is still this generation's. -/
def Dossier.obsolete (v : Dossier) : Option Obsolete :=
  if v.grant.any (·.status == .active) then some .grantActive
  else if v.live.isSome then some .regranted else none

/-- A later job may supersede this one; else its own rows decide. -/
theorem does_revocationObsolete (hE : ∀ e, E e v) :
    (dossierScope job).Does v (revocationObsolete job)
      (fun answer v' => (answer = some .superseded ∨ answer = v.obsolete) ∧ v' = v) E := by
  apply does_bind
  apply does_storeRead _ hE
  intro s _
  cases owned s job with
  | false =>
    apply does_pure
    exact ⟨.inl rfl, rfl⟩
  | true =>
    apply does_bind
    apply does_storeRead _ hE
    intro s₁ hv₁
    have hgrant : s₁.grants job.subjectId = v.grant := by
      rw [← hv₁]
      rfl
    rw [hgrant]
    split
    · rename_i hactive
      apply does_pure
      exact ⟨.inr (if_pos hactive).symm, rfl⟩
    · rename_i hactive
      apply does_bind
      apply does_storeRead _ hE
      intro s₂ hv₂
      have hlive : findActive s₂ job.apiId job.identity = v.live := by
        rw [← hv₂]
        rfl
      rw [hlive]
      apply does_pure
      exact ⟨.inr (if_neg hactive).symm, rfl⟩

/-- The guard is asked first, and a removal takes every group of the API. -/
theorem does_removeMembership (hE : ∀ e, E e v) :
    (dossierScope job).Does v
      (removeMembership slot job.identity job.apiId true (revocationGuard job))
      (fun answer v' => match answer with
        | none => v' = v ∧ ∀ change, v.regroup change = v
        | some (obsolete, result) =>
          (obsolete = some .superseded ∨ obsolete = v.obsolete) ∧
          (obsolete ≠ none → v' = v) ∧ ∀ done, obsolete = none → result = .ok done →
            v' = v.regroup fun groups => groups.filter (!isGroupOfApi job.apiId ·)) E := by
  apply does_bind
  apply does_storeRead _ hE
  intro s hv
  have hmapping : findConsumer s job.identity = v.mapping := by
    rw [← hv]
    rfl
  rw [hmapping]
  cases hm : v.mapping with
  | none =>
    apply does_pure
    exact ⟨rfl, regroup_of_mapping hv hm⟩
  | some mapping =>
    apply does_map
    have hguard : (dossierScope job).Does v (revocationGuard job)
        (fun answer v' => ((answer.1 = some .superseded ∨ answer.1 = v.obsolete) ∧
          answer.2 = answer.1.isNone) ∧ v' = v) E := by
      apply does_bind
      apply (does_revocationObsolete hE).mono _ fun _ _ h => h
      rintro obsolete v' ⟨hobsolete, rfl⟩
      apply does_pure
      exact ⟨⟨hobsolete, rfl⟩, rfl⟩
    apply (does_mutateAclGroups hm rfl rfl rfl hguard hE).mono _ fun _ _ h => h
    rintro ⟨obsolete, result⟩ v' (⟨⟨hobsolete, hnone⟩, rfl⟩ | ⟨⟨hobsolete, hnone⟩, hwritten⟩)
    · refine ⟨hobsolete, fun _ => rfl, fun done h => ?_⟩
      rw [h] at hnone
      cases hnone
    · refine ⟨hobsolete, fun h => ?_, fun done _ hresult => hwritten done hresult⟩
      exact absurd (Option.isNone_iff_eq_none.mp hnone.symm) h

end Groups

/-! ## The jobs -/

section Jobs

variable {job : AccessGatewayJobRecord} {slot : ℕ} {v : Dossier}

theorem dossier_eraseJob (id : ℕ) (s : World) : dossier job (eraseJob id s) = dossier job s := rfl

theorem Keyed.eraseJob {s : World} (hs : Keyed s) (id : ℕ) : Keyed (eraseJob id s) :=
  ⟨hs.api, hs.request⟩

theorem does_dropJob {E : NexusError → Dossier → Prop} (hE : ∀ e, E e v) :
    (dossierScope job).Does v (dropJob job)
      (fun outcome v' => outcome ≠ .completed ∧ v' = v) E := by
  apply does_map
  apply does_commit _ hE
  intro s mine s' hv hs h
  rcases deleteClaimed_cases h with ⟨rfl, rfl, -⟩ | ⟨rfl, rfl, -⟩
  · exact ⟨hs, nofun, hv⟩
  · exact ⟨hs.eraseJob _, nofun, hv⟩

/-- The removal of the groups of the API, which is owed. -/
def GroupsOff (job : AccessGatewayJobRecord) (v v' : Dossier) : Prop :=
  v.obsolete = none ∧ v' = v.regroup fun groups => groups.filter (!isGroupOfApi job.apiId ·)

/-- Only a revocation that is not obsolete completes, with the groups off. -/
theorem does_finishRevocation {v₀ : Dossier} {obsolete : Option Obsolete}
    (hcompleted : obsolete = none → GroupsOff job v₀ v) (hidle : v₀.obsolete ≠ none → v = v₀)
    (hmay : obsolete = none → v₀.obsolete = none) :
    (dossierScope job).Does v (finishRevocation job obsolete)
      (fun outcome v' => (outcome = .completed → GroupsOff job v₀ v') ∧
        (v₀.obsolete ≠ none → outcome ≠ .completed ∧ v' = v₀))
      (fun _ v' => v₀.obsolete ≠ none → v' = v₀) := by
  have hdrop : (dossierScope job).Does v (dropJob job)
      (fun outcome v' => (outcome = .completed → GroupsOff job v₀ v') ∧
        (v₀.obsolete ≠ none → outcome ≠ .completed ∧ v' = v₀))
      (fun _ v' => v₀.obsolete ≠ none → v' = v₀) := by
    apply (does_dropJob fun _ => hidle).mono _ fun _ _ h => h
    rintro outcome v' ⟨houtcome, rfl⟩
    exact ⟨fun h => absurd h houtcome, fun h => ⟨houtcome, hidle h⟩⟩
  cases obsolete with
  | none =>
    apply does_map
    apply does_commit _ fun _ => hidle
    intro s mine s' hv hs h
    obtain ⟨claimed, s₁, h₁, h⟩ := tx_bind h
    rcases deleteClaimed_cases h₁ with ⟨rfl, rfl, -⟩ | ⟨rfl, rfl, -⟩
    · obtain ⟨rfl, rfl⟩ := tx_pure h
      exact ⟨hs, nofun, fun hne => absurd (hmay rfl) hne⟩
    · obtain ⟨u, s₂, h₂, h⟩ := tx_bind h
      obtain ⟨rfl, rfl⟩ := tx_pure h
      cases h₂
      refine ⟨⟨hs.api, hs.request⟩, ?_, fun hne => absurd (hmay rfl) hne⟩
      intro _
      have hview : dossier job s = v := hv
      exact hview ▸ hcompleted rfl
  | some obsolete =>
    cases obsolete with
    | superseded =>
      apply does_pure
      exact ⟨nofun, fun h => ⟨nofun, hidle h⟩⟩
    | grantActive => exact hdrop
    | regranted => exact hdrop

/-- A revocation that completes took the groups off; an obsolete one does nothing. -/
theorem does_recoverRevocation : (dossierScope job).Does v (recoverRevocation slot job)
    (fun outcome v' => (outcome = .completed → GroupsOff job v v') ∧
      (v.obsolete ≠ none → outcome ≠ .completed ∧ v' = v))
    (fun _ v' => v.obsolete ≠ none → v' = v) := by
  have hE : ∀ e : NexusError, v.obsolete ≠ none → v = v := fun _ _ => rfl
  apply does_bind
  apply does_storeRead _ hE
  intro s _
  cases s.users job.userId with
  | none =>
    apply (does_dropJob hE).mono _ fun _ _ h => h
    rintro outcome v' ⟨houtcome, rfl⟩
    exact ⟨fun h => absurd h houtcome, fun _ => ⟨houtcome, rfl⟩⟩
  | some grantee =>
    apply does_bind
    apply (does_removeMembership hE).mono _ fun _ _ h => h
    intro answer v' hanswer
    cases answer with
    | none =>
      obtain ⟨rfl, hsame⟩ := hanswer
      apply does_bind
      apply (does_revocationObsolete hE).mono _ fun _ _ h => h
      rintro obsolete v' ⟨hobsolete, rfl⟩
      have hmay : obsolete = none → v'.obsolete = none := by
        rintro rfl
        exact (hobsolete.resolve_left nofun).symm
      apply does_finishRevocation
      · exact fun h => ⟨hmay h, (hsame _).symm⟩
      · exact fun _ => rfl
      · exact hmay
    | some answer =>
      obtain ⟨obsolete, result⟩ := answer
      obtain ⟨hobsolete, hkept, hwritten⟩ := hanswer
      have hmay : obsolete = none → v.obsolete = none := by
        rintro rfl
        exact (hobsolete.resolve_left nofun).symm
      have hidle : v.obsolete ≠ none → v' = v := by
        intro hne
        exact hkept fun h => hne (hmay h)
      apply does_bind
      cases result with
      | error error =>
        apply does_throw
        exact hidle
      | ok done =>
        apply does_pure
        apply does_finishRevocation _ hidle hmay
        exact fun h => ⟨hmay h, hwritten done h rfl⟩

/-! ### The request of an approval -/

/-- What a settled request becomes: the pending slot may be taken. -/
def settledRequest (request : AccessRequestRecord) (live : Option GrantRecord)
    (pending : Option AccessRequestRecord) : AccessRequestRecord :=
  match settlement request live with
  | .kept => request
  | .cancel => cancelledByRecovery request
  | .release => if pending.isSome then cancelledByRecovery request else released request

variable {request : AccessRequestRecord}

theorem approved_of_settlement {live : Option GrantRecord} (h : settlement request live ≠ .kept) :
    request.status = .approved := by
  by_contra hne
  exact h (if_pos hne)

/-- The compare-and-set finds the row it read, and a release a free slot. -/
theorem updateRequest_found {id : ℕ} {s s' : World}
    {patch : AccessRequestRecord → AccessRequestRecord} {moved : Option AccessRequestRecord}
    (hr : s.requests id = some request) (hst : request.status = .approved)
    (h : updateRequestIfStatus id .approved patch s = .ok (moved, s')) :
    s' = putRequest id (patch request) s ∧ ((patch request).status = .pending →
      findPending s request.apiId request.identity = none) := by
  simp only [updateRequestIfStatus, hr, hst] at h
  split at h
  · contradiction
  split at h
  · cases h
  · rename_i hfree
    cases h
    refine ⟨rfl, fun hpending => ?_⟩
    by_contra hsome
    exact hfree ⟨by decide, hpending, Option.isSome_iff_ne_none.mpr hsome⟩

theorem settleRequestTx_found {live : Option GrantRecord} {s s' : World} {u : Unit}
    (hr : s.requests request.id = some request)
    (h : settleRequestTx request (settlement request live) s = .ok (u, s')) :
    s' = s ∧ settlement request live = .kept ∨ s' = putRequest request.id
      (settledRequest request live (findPending s request.apiId request.identity)) s := by
  obtain ⟨occupied, s₁, h₁, h⟩ := tx_bind h
  obtain ⟨rfl, rfl⟩ := tx_read h₁
  unfold settledRequest
  cases hsettle : settlement request live with
  | kept =>
    rw [hsettle] at h
    exact .inl ⟨(tx_pure h).2.symm, rfl⟩
  | cancel =>
    have hst : request.status = .approved := approved_of_settlement (by rw [hsettle]; nofun)
    rw [hsettle] at h
    obtain ⟨moved, s₂, h₂, h⟩ := tx_bind h
    obtain ⟨-, rfl⟩ := tx_pure h
    exact .inr (updateRequest_found hr hst h₂).1
  | release =>
    have hst : request.status = .approved := approved_of_settlement (by rw [hsettle]; nofun)
    rw [hsettle] at h
    right
    simp only at h ⊢
    split at h
    · rename_i hother
      obtain ⟨moved, s₂, h₂, h⟩ := tx_bind h
      obtain ⟨-, rfl⟩ := tx_pure h
      have hsome : (findPending s request.apiId request.identity).isSome := by
        cases hp : findPending s request.apiId request.identity with
        | none =>
          rw [hp] at hother
          cases hother
        | some other => rfl
      rw [if_pos hsome]
      exact (updateRequest_found hr hst h₂).1
    · obtain ⟨moved, s₂, h₂, h⟩ := tx_bind h
      obtain ⟨-, rfl⟩ := tx_pure h
      obtain ⟨hs', hfree⟩ := updateRequest_found hr hst h₂
      rw [hfree rfl]
      exact hs'

theorem dossier_putRequest {s : World} (id : ℕ) (request : AccessRequestRecord)
    (hid : id = job.subjectId) : ∃ pending, dossier job (putRequest id request s) =
      { dossier job s with request := some request, pending := pending } := by
  subst hid
  refine ⟨findPending (putRequest job.subjectId request s) request.apiId request.identity, ?_⟩
  simp only [dossier, requests_putRequest, if_true, Option.bind_some]
  rfl

/-- What a completed recovery of an approval has done. -/
def ApprovalSettled (v v' : Dossier) : Prop :=
  ∃ api request pending, v.api = some api ∧ v.request = some request ∧
    v' = { v.regroup (reconciled api (v.live, v.active)) with
      request := some (settledRequest request v.live v.pending), pending := pending }

/-- A job that completes leaves the request settled by the grant that is live. -/
theorem does_settleTx {api : ApiRecord} (hreq : v.request = some request)
    (hid : request.id = job.subjectId) :
    (dossierScope job).Does (v.regroup (reconciled api (v.live, v.active)))
      (completedIf <$>
        commit (settleApprovalTx job request (settlement request v.live)))
      (fun outcome v' => outcome = .completed → ∃ pending,
        v' = { v.regroup (reconciled api (v.live, v.active)) with
          request := some (settledRequest request v.live v.pending), pending := pending })
      (fun _ _ => True) := by
  apply does_map
  apply does_commit _ fun _ => trivial
  intro s mine s' hv hs h
  have hrow : s.requests request.id = some request := by
    rw [hid, ← hreq]
    exact congrArg Dossier.request hv
  have hpending : findPending s request.apiId request.identity = v.pending := by
    have hp : (s.requests job.subjectId).bind (fun row => findPending s row.apiId row.identity) =
        v.pending := congrArg Dossier.pending hv
    rw [← hid, hrow] at hp
    exact hp
  obtain ⟨claimed, s₁, h₁, h⟩ := tx_bind h
  rcases deleteClaimed_cases h₁ with ⟨rfl, rfl, -⟩ | ⟨rfl, rfl, -⟩
  · obtain ⟨rfl, rfl⟩ := tx_pure h
    exact ⟨hs, nofun⟩
  obtain ⟨u₂, s₂, h₂, h⟩ := tx_bind h
  obtain ⟨u₃, s₃, h₃, h⟩ := tx_bind h
  obtain ⟨rfl, rfl⟩ := tx_pure h
  cases h₃
  have hpending' : findPending (eraseJob job.subjectId s) request.apiId request.identity =
      v.pending := hpending
  have hrow' : (eraseJob job.subjectId s).requests request.id = some request := hrow
  rcases settleRequestTx_found hrow' h₂ with ⟨rfl, hkept⟩ | hs₂
  · refine ⟨⟨hs.api, hs.request⟩, fun _ => ⟨v.pending, ?_⟩⟩
    have hsame : settledRequest request v.live v.pending = request := by
      simp only [settledRequest, hkept]
    rw [hsame, ← hreq]
    exact hv
  · rw [hpending'] at hs₂
    subst hs₂
    refine ⟨⟨hs.api, ?_⟩, fun _ => ?_⟩
    · intro id row hrow'
      have hrow' : (putRequest request.id (settledRequest request v.live v.pending)
          (eraseJob job.subjectId s)).requests id = some row := hrow'
      rw [requests_putRequest] at hrow'
      split at hrow'
      · rename_i hid'
        rw [hid', ← Option.some.inj hrow', settledRequest]
        split
        · rfl
        · rfl
        · split <;> rfl
      · exact hs.request id row hrow'
    · obtain ⟨pending, hview⟩ := dossier_putRequest (s := eraseJob job.subjectId s) request.id
        (settledRequest request v.live v.pending) hid
      refine ⟨pending, hview.trans ?_⟩
      rw [dossier_eraseJob, ← hv]

/-- An approval that completes has its groups and its request settled. -/
theorem does_settleApproval : (dossierScope job).Does v (settleApproval slot job v.api)
    (fun outcome v' => outcome = .completed → ApprovalSettled v v') (fun _ _ => True) := by
  intro s₀ hv₀ hs₀
  have hapi : ∀ api, v.api = some api → api.id = job.apiId := by
    rw [← hv₀]
    exact fun api => hs₀.api job.apiId api
  have hrequest : ∀ request, v.request = some request → request.id = job.subjectId := by
    rw [← hv₀]
    exact fun request => hs₀.request job.subjectId request
  suffices hdoes : (dossierScope job).Does v (settleApproval slot job v.api)
      (fun outcome v' => outcome = .completed → ApprovalSettled v v') (fun _ _ => True) from
    hdoes s₀ hv₀ hs₀
  have hdrop : (dossierScope job).Does v (dropJob job)
      (fun outcome v' => outcome = .completed → ApprovalSettled v v') (fun _ _ => True) :=
    (does_dropJob fun _ => trivial).mono (fun _ _ h hc => absurd hc h.1) fun _ _ h => h
  apply does_bind
  apply does_storeRead _ fun _ => trivial
  intro s _
  cases owned s job with
  | false =>
    apply does_pure
    nofun
  | true =>
    apply does_bind
    apply does_storeRead _ fun _ => trivial
    intro s₁ hv₁
    have hrow : s₁.requests job.subjectId = v.request := congrArg Dossier.request hv₁
    rw [hrow]
    apply does_bind
    apply does_storeRead _ fun _ => trivial
    intro s₂ _
    cases ha : v.api with
    | none => exact hdrop
    | some api =>
      cases hr : v.request with
      | none => exact hdrop
      | some request =>
        cases s₂.users job.userId with
        | none => exact hdrop
        | some requester =>
          apply does_bind
          apply (does_reconcileGroups (hapi api ha)).mono _ fun _ _ h => h
          rintro live v' ⟨rfl, rfl⟩
          apply (does_settleTx hr (hrequest request hr)).mono _ fun _ _ h => h
          intro outcome v' hsettled hcompleted
          obtain ⟨pending, hpending⟩ := hsettled hcompleted
          exact ⟨api, request, pending, ha, hr, hpending⟩

theorem does_recoverUnderProxy (proxyId : ℕ) :
    (dossierScope job).Does v (recoverUnderProxy slot job proxyId)
      (fun settled v' => match settled with
        | none => v' = v
        | some outcome => outcome = .completed → ApprovalSettled v v') (fun _ _ => True) := by
  apply does_serializePerKey _ fun _ => trivial
  apply does_bind
  apply does_storeRead _ fun _ => trivial
  intro s hv
  have hapi : s.apis job.apiId = v.api := congrArg Dossier.api hv
  rw [hapi]
  split
  · apply does_pure
    rfl
  · apply does_map
    exact does_settleApproval

/-- The proxy may change between any two attempts: each starts from the same
dossier. -/
theorem does_recoverApproval (attempts : ℕ) :
    (dossierScope job).Does v (recoverApproval slot job attempts)
      (fun outcome v' => outcome = .completed → ApprovalSettled v v') (fun _ _ => True) := by
  induction attempts with
  | zero =>
    apply does_throw
    trivial
  | succ attempts ih =>
    apply does_bind
    apply does_storeRead _ fun _ => trivial
    intro s hv
    have hapi : s.apis job.apiId = v.api := congrArg Dossier.api hv
    rw [hapi]
    cases v.api.bind (·.ferrumProxyId) with
    | none => exact does_settleApproval
    | some proxyId =>
      apply does_bind
      apply (does_recoverUnderProxy proxyId).mono _ fun _ _ h => h
      intro settled v' hsettled
      cases settled with
      | none =>
        subst hsettled
        exact ih
      | some outcome =>
        apply does_pure
        exact hsettled

end Jobs


/-! ## Recovery is exact -/

section Exactness

variable {api : ApiRecord} {live : Option GrantRecord} {active : Bool} {before : List AclGroup}
  {group : AclGroup}

theorem isGroupOfApi_granted (h : group ∈ grantedGroups api live) :
    isGroupOfApi api.id group = true := by
  cases live with
  | none => cases h
  | some live =>
    rcases List.mem_cons.mp h with rfl | h
    · simp [isGroupOfApi]
    split at h
    · cases htools : live.approvedTools with
      | none =>
        rw [htools] at h
        simp only [mcpGroupsForGrant, List.mem_singleton] at h
        simp [h, isGroupOfApi, isMcpGroupForApi]
      | some tools =>
        rw [htools] at h
        obtain ⟨tool, -, rfl⟩ := List.mem_map.mp h
        simp [isGroupOfApi, isMcpGroupForApi]
    · cases h

/-- Groups of other APIs stay; of this one, those the live grant gives. -/
theorem mem_reconciled : group ∈ reconciled api (live, active) before ↔
    (group ∈ before ∧ (isGroupOfApi api.id group = false ∨ group ∈ grantedGroups api live)) ∨
      (active = true ∧ group ∈ grantedGroups api live) := by
  simp only [reconciled, List.mem_append, List.mem_filter, Bool.or_eq_true, Bool.not_eq_true',
    List.contains_iff_mem]
  constructor
  · rintro (h | h)
    · exact .inl h
    · cases active with
      | false => cases h
      | true => exact .inr ⟨rfl, (List.mem_filter.mp h).1⟩
  · rintro (h | ⟨rfl, h⟩)
    · exact .inl h
    · by_cases hb : group ∈ before
      · exact .inl ⟨hb, .inr h⟩
      · right
        apply List.mem_filter.mpr
        refine ⟨h, ?_⟩
        simp [hb]

/-- The groups after a recovery: of other APIs and of operators those there
were; of the API those the active grant gives, and for an account that is not
active only those of them there were. -/
structure GroupsExact (api : ApiRecord) (v : Dossier) (before after : List AclGroup) : Prop where
  others : ∀ group, isGroupOfApi api.id group = false → (group ∈ after ↔ group ∈ before)
  active : v.active = true → ∀ group, isGroupOfApi api.id group = true →
    (group ∈ after ↔ group ∈ grantedGroups api v.live)
  inactive : v.active = false → ∀ group, isGroupOfApi api.id group = true →
    (group ∈ after ↔ group ∈ before ∧ group ∈ grantedGroups api v.live)

theorem groupsExact_reconciled (v : Dossier) :
    GroupsExact api v before (reconciled api (v.live, v.active) before) where
  others group h := by
    have hnot : group ∉ grantedGroups api v.live := fun hg => by
      rw [isGroupOfApi_granted hg] at h
      cases h
    rw [mem_reconciled]
    simp [h, hnot]
  active ha group h := by
    rw [mem_reconciled]
    simp only [h, ha]
    constructor
    · rintro (⟨-, h | h⟩ | ⟨-, h⟩)
      · cases h
      · exact h
      · exact h
    · exact fun h => .inr ⟨trivial, h⟩
  inactive ha group h := by
    rw [mem_reconciled]
    simp [h, ha]

/-- The active grant came from the request; or it is the one a request for more
tools names, and covers every tool approved there. -/
def StandsBehind (live : Option GrantRecord) (request : AccessRequestRecord) : Prop :=
  ∃ grant, live = some grant ∧
    match request.grantId with
    | none => grant.accessRequestId = some request.id
    | some grantId => grant.id = grantId ∧ ∀ tools, grant.approvedTools = some tools →
        ∀ tool ∈ request.approvedTools.getD [], tool ∈ tools

/-- An approved request is kept while a grant stands behind it. -/
theorem settlement_eq_kept {request : AccessRequestRecord} (hst : request.status = .approved) :
    settlement request live = .kept ↔ StandsBehind live request := by
  unfold settlement StandsBehind
  rw [if_neg (not_not.mpr hst)]
  cases request.grantId with
  | none =>
    cases live with
    | none => simp
    | some grant => by_cases h : grant.accessRequestId = some request.id <;> simp [h]
  | some grantId =>
    cases live with
    | none => simp
    | some grant =>
      by_cases hid : grant.id = grantId
      · cases htools : grant.approvedTools with
        | none => simp [hid, htools]
        | some tools => simp [hid, htools]
      · simp [hid]

/-- An approved request stays so just if a grant stands behind it, and is
released only into a free slot. Any other request is left alone. -/
structure RequestExact (v : Dossier) (request request' : AccessRequestRecord) : Prop where
  undecided : request.status ≠ .approved → request' = request
  kept : request.status = .approved →
    (request'.status = .approved ↔ StandsBehind v.live request)
  otherwise : request.status = .approved → ¬ StandsBehind v.live request →
    request'.status = .pending ∨ request'.status = .cancelled
  free : request.status = .approved → request'.status = .pending → v.pending = none

/-- Settling gives the request the fate that the live grant calls for. -/
theorem requestExact_settled (v : Dossier) (request : AccessRequestRecord) :
    RequestExact v request (settledRequest request v.live v.pending) := by
  have hcases : request.status = .approved → settlement request v.live ≠ .kept →
      ((settledRequest request v.live v.pending).status = .pending ∧ v.pending = none) ∨
        (settledRequest request v.live v.pending).status = .cancelled := by
    intro _ hne
    unfold settledRequest
    cases hsettle : settlement request v.live with
    | kept => contradiction
    | cancel => exact .inr rfl
    | release =>
      cases hp : v.pending with
      | none => exact .inl ⟨rfl, rfl⟩
      | some other => exact .inr rfl
  have hkept : settlement request v.live = .kept →
      settledRequest request v.live v.pending = request := by
    intro h
    simp only [settledRequest, h]
  constructor
  · intro hst
    exact hkept (if_pos hst)
  · intro hst
    rw [← settlement_eq_kept hst]
    constructor
    · intro happroved
      by_contra hne
      rcases hcases hst hne with ⟨h, -⟩ | h
      · rw [h] at happroved
        cases happroved
      · rw [h] at happroved
        cases happroved
    · intro h
      rw [hkept h]
      exact hst
  · intro hst hno
    rcases hcases hst (mt (settlement_eq_kept hst).mp hno) with ⟨h, -⟩ | h
    · exact .inl h
    · exact .inr h
  · intro hst hpending
    by_cases h : settlement request v.live = .kept
    · rw [hkept h, hst] at hpending
      cases hpending
    · rcases hcases hst h with ⟨-, h⟩ | h
      · exact h
      · rw [h] at hpending
        cases hpending

/-- A completed recovery of an approval. -/
structure ApprovalExact (v v' : Dossier) : Prop where
  frame : v'.api = v.api ∧ v'.account = v.account ∧ v'.mapping = v.mapping ∧ v'.live = v.live ∧
    v'.grant = v.grant
  absent : v.consumer = none → v'.consumer = none
  groups : ∃ api, v.api = some api ∧ ∀ consumer, v.consumer = some consumer → ∃ after,
    v'.consumer = some { consumer with aclGroups := after } ∧
      GroupsExact api v consumer.aclGroups after
  request : ∃ request request', v.request = some request ∧ v'.request = some request' ∧
    RequestExact v request request'

theorem ApprovalSettled.exact {v v' : Dossier} (h : ApprovalSettled v v') : ApprovalExact v v' := by
  obtain ⟨api, request, pending, hapi, hrequest, rfl⟩ := h
  constructor
  · exact ⟨rfl, rfl, rfl, rfl, rfl⟩
  · intro hnone
    simp [Dossier.regroup, hnone]
  · refine ⟨api, hapi, fun consumer hconsumer => ?_⟩
    refine ⟨reconciled api (v.live, v.active) consumer.aclGroups, ?_, groupsExact_reconciled v⟩
    simp [Dossier.regroup, hconsumer]
  · exact ⟨request, _, hrequest, rfl, requestExact_settled v request⟩

/-- A completed recovery of a revocation: the groups of the API are off, all
others are on as before, and nothing else changed. -/
structure RevocationExact (job : AccessGatewayJobRecord) (v v' : Dossier) : Prop where
  owed : v.grant.all (·.status ≠ .active) ∧ v.live = none
  rest : v' = { v with consumer := v'.consumer }
  absent : v.consumer = none → v'.consumer = none
  groups : ∀ consumer, v.consumer = some consumer → ∃ after,
    v'.consumer = some { consumer with aclGroups := after } ∧ ∀ group,
      (group ∈ after ↔ group ∈ consumer.aclGroups ∧ isGroupOfApi job.apiId group = false)

theorem obsolete_eq_none {v : Dossier} :
    v.obsolete = none ↔ v.grant.all (·.status ≠ .active) ∧ v.live = none := by
  unfold Dossier.obsolete
  cases v.grant with
  | none => cases v.live <;> simp
  | some grant => by_cases h : grant.status = .active <;> cases v.live <;> simp [h]

theorem GroupsOff.exact {job : AccessGatewayJobRecord} {v v' : Dossier} (h : GroupsOff job v v') :
    RevocationExact job v v' := by
  obtain ⟨howed, rfl⟩ := h
  constructor
  · exact obsolete_eq_none.mp howed
  · rfl
  · intro hnone
    simp [Dossier.regroup, hnone]
  · intro consumer hconsumer
    refine ⟨consumer.aclGroups.filter (!isGroupOfApi job.apiId ·), ?_, ?_⟩
    · simp [Dossier.regroup, hconsumer]
    · simp [List.mem_filter]

/-- Whatever others do outside the dossier and whichever calls fail, recovery
adds no access and is exact. -/
theorem recovery_is_exact {job : AccessGatewayJobRecord} {slot : ℕ} {s s' : World}
    {result : Except NexusError AccessGatewayJobOutcome} (hs : Keyed s)
    (hrun : (recoverGatewayJob slot job).run.Ends (dossierScope job).Others s result s') :
    (job.kind = .approve → result = .ok .completed →
      ApprovalExact (dossier job s) (dossier job s')) ∧
    (job.kind = .revoke → result = .ok .completed →
      RevocationExact job (dossier job s) (dossier job s')) ∧
    (job.kind = .revoke → (dossier job s).grant.any (·.status = .active) ∨
      (dossier job s).live ≠ none →
        result ≠ .ok .completed ∧ dossier job s' = dossier job s) := by
  cases hkind : job.kind with
  | approve =>
    refine ⟨fun _ hresult => ?_, nofun, nofun⟩
    subst hresult
    rw [recoverGatewayJob, hkind] at hrun
    exact ((wp_ends (does_recoverApproval _ s rfl hs) hrun).2 rfl).exact
  | revoke =>
    rw [recoverGatewayJob, hkind] at hrun
    have hpost := wp_ends (does_recoverRevocation s rfl hs) hrun
    refine ⟨nofun, fun _ hresult => ?_, fun _ hlive => ?_⟩
    · subst hresult
      exact (hpost.2.1 rfl).exact
    · have hne : (dossier job s).obsolete ≠ none := by
        intro hnone
        obtain ⟨hgrant, hnolive⟩ := obsolete_eq_none.mp hnone
        rcases hlive with h | h
        · obtain ⟨grant, hg, hst⟩ := (Option.any_eq_true _ _).mp h
          rw [hg] at hgrant
          simp [of_decide_eq_true hst] at hgrant
        · exact h hnolive
      cases result with
      | error error => exact ⟨nofun, hpost.2 hne⟩
      | ok outcome =>
        obtain ⟨houtcome, hsame⟩ := hpost.2.2 hne
        exact ⟨fun h => houtcome (Except.ok.inj h), hsame⟩

/-! ### A stranded approval -/

/-- An API of account 2 that exposes no tools to agents. -/
def strandedApi : ApiRecord where
  id := 5
  ownerUserId := 2
  ferrumProxyId := none
  published := true
  requestable := true
  viewers := none
  agents := none

/-- A grant to every tool, made for an earlier request of account 1. -/
def heldGrant : GrantRecord where
  id := 7
  apiId := 5
  userId := 1
  applicationId := none
  accessRequestId := some 6
  approvedTools := none
  status := .active
  revokedBy := none
  revokedAt := none

def strandedRequest (status : AccessRequestStatus) : AccessRequestRecord where
  id := 8
  apiId := 5
  userId := 1
  applicationId := none
  requestedTools := none
  approvedTools := none
  grantId := none
  status := status
  decidedBy := none
  decidedAt := none

def strandedJob : AccessGatewayJobRecord where
  id := 9
  generation := 10
  kind := .approve
  subjectId := 8
  apiId := 5
  userId := 1
  applicationId := none
  requestedBy := 2
  status := .sending
  attempts := 1

/-- The consumer of the account has lost its groups. -/
def stranded (status : AccessRequestStatus) : World where
  __ := newAccount
  apis id := if id = 5 then some strandedApi else none
  grants id := if id = 7 then some heldGrant else none
  requests id := if id = 8 then some (strandedRequest status) else none
  jobs id := if id = 8 then some strandedJob else none
  fresh := 11

theorem keyed_stranded (status : AccessRequestStatus) : Keyed (stranded status) := by
  constructor
  · intro id api h
    simp only [stranded] at h
    split at h
    · rename_i hid
      cases h
      exact hid.symm
    · cases h
  · intro id request h
    simp only [stranded] at h
    split at h
    · rename_i hid
      cases h
      exact hid.symm
    · cases h

/-- The worker alone, no call failing. -/
def strandedRun (status : AccessRequestStatus) :
    Option (Except NexusError AccessGatewayJobOutcome × World) :=
  (recoverGatewayJob 0 strandedJob).run.exec (List.replicate 12 .ok) (stranded status)

/-- The grant covers every tool, but an API without tools gives no MCP group;
and a request that is not approved any more is neither released nor cancelled. -/
theorem mcp_group_and_decision_left_out :
    (∃ s', strandedRun .approved = some (.ok .completed, s') ∧
      (dossier strandedJob (stranded .approved)).active = true ∧
      findActive s' 5 ⟨1, none⟩ = some heldGrant ∧
      AclGroup.mcpAll 5 ∈ mcpGroupsForGrant 5 heldGrant.approvedTools ∧
      (s'.consumers ownConsumer).map (·.aclGroups) = some [.api 5]) ∧
    ∃ s', strandedRun .revoked = some (.ok .completed, s') ∧
      heldGrant.accessRequestId ≠ some 8 ∧
      (s'.requests 8).map (·.status) = some .revoked := by
  constructor
  · exact ⟨_, rfl, rfl, rfl, by decide, rfl⟩
  · exact ⟨_, rfl, by decide, rfl⟩

theorem recovery_is_exact_stranded : Keyed (stranded .approved) ∧
    ∃ s', strandedRun .approved = some (.ok .completed, s') ∧
      ApprovalExact (dossier strandedJob (stranded .approved)) (dossier strandedJob s') := by
  refine ⟨keyed_stranded _, _, rfl, ?_⟩
  have hrun := Program.ends_of_exec (R := (dossierScope strandedJob).Others)
    (fun s => ⟨rfl, fun hs => hs⟩) (show strandedRun .approved = some (.ok .completed, _) from rfl)
  exact (recovery_is_exact (keyed_stranded _) hrun).1 rfl rfl

end Exactness

end FerrumNexus.Access
