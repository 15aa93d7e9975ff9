import FerrumNexus.Access.Entries

/-!
# No transaction touches an API

The access service reads the catalogue and writes none of it.
-/
namespace FerrumNexus.Access

open Saga Platform Portal Credentials

def LeavesApis {α : Type} (body : Tx α) : Prop :=
  ∀ s a s', body s = .ok (a, s') → s'.apis = s.apis

section LeavesApis

variable {α β : Type}

theorem leavesApis_pure (a : α) : LeavesApis (pure a : Tx α) := by
  intro s b s' h
  obtain ⟨-, rfl⟩ := tx_pure h
  rfl

theorem leavesApis_throw (e : NexusError) : LeavesApis (throw e : Tx α) :=
  fun _ _ _ h => (tx_throw h).elim

theorem leavesApis_txRead (f : World → α) : LeavesApis (txRead f) := by
  intro s b s' h
  obtain ⟨-, rfl⟩ := tx_read h
  rfl

theorem LeavesApis.bind {x : Tx β} {f : β → Tx α} (hx : LeavesApis x)
    (hf : ∀ b, LeavesApis (f b)) : LeavesApis (x >>= f) := by
  intro s a s' h
  obtain ⟨b, s₁, h₁, h₂⟩ := tx_bind h
  exact (hf b s₁ a s' h₂).trans (hx s b s₁ h₁)

/-- What is done with a row, where there is one. -/
theorem LeavesApis.onSome {p : Tx (Option α)} {f : Option α → Tx β} (hp : LeavesApis p)
    (hnone : LeavesApis (f none)) (hsome : ∀ a, LeavesApis (f (some a))) : LeavesApis (p >>= f) := by
  refine hp.bind fun a => ?_
  cases a with
  | none => exact hnone
  | some a => exact hsome a

theorem leavesApis_ite {c : Prop} [Decidable c] {x y : Tx α} (hx : LeavesApis x)
    (hy : LeavesApis y) : LeavesApis (if c then x else y) := by
  split
  · exact hx
  · exact hy

theorem leavesApis_record (action : AuditAction) (id : ℕ) : LeavesApis (record action id) := by
  intro s u s' h
  cases h
  rfl

theorem leavesApis_updateRequestIfStatus (id : ℕ) (expected : AccessRequestStatus)
    (patch : AccessRequestRecord → AccessRequestRecord) :
    LeavesApis (updateRequestIfStatus id expected patch) := by
  intro s moved s' h
  simp only [updateRequestIfStatus] at h
  split at h
  · cases h
    rfl
  split at h
  · cases h
    rfl
  split at h
  · cases h
  · cases h
    rfl

theorem leavesApis_updateGrantIfStatus (id : ℕ) (expected : GrantStatus)
    (patch : GrantRecord → GrantRecord) : LeavesApis (updateGrantIfStatus id expected patch) := by
  intro s moved s' h
  rcases updateGrantIfStatus_cases h with ⟨-, rfl⟩ | ⟨_, _, _, _, rfl⟩
  · rfl
  · rfl

theorem leavesApis_createRequest (apiId : ℕ) (identity : Identity) (tools : Option (List ℕ))
    (grantId : Option ℕ) : LeavesApis (createRequest apiId identity tools grantId) := by
  intro s request s' h
  simp only [createRequest] at h
  split at h
  · cases h
  · cases h
    rfl

theorem leavesApis_createGrant (apiId : ℕ) (identity : Identity) (requestId : ℕ)
    (tools : Option (List ℕ)) : LeavesApis (createGrant apiId identity requestId tools) := by
  intro s grant s' h
  simp only [createGrant] at h
  split at h
  · cases h
  · cases h
    rfl

theorem leavesApis_deleteClaimed (job : AccessGatewayJobRecord) :
    LeavesApis (deleteClaimed job) := by
  intro s mine s' h
  rcases deleteClaimed_cases h with ⟨-, rfl, -⟩ | ⟨-, rfl, -⟩
  · rfl
  · rfl

theorem leavesApis_upsertClaimed (input : JobInput) : LeavesApis (upsertClaimed input) := by
  intro s job s' h
  cases h
  rfl

theorem leavesApis_decideTx (actor : UserRecord) (request : AccessRequestRecord)
    (status : AccessRequestStatus) (action : AuditAction) (decidedAt : ℕ) :
    LeavesApis (decideTx actor request status action decidedAt) := by
  refine (leavesApis_updateRequestIfStatus _ _ _).onSome (leavesApis_pure _) fun moved => ?_
  exact (leavesApis_record _ _).bind fun _ => leavesApis_pure _

theorem leavesApis_closeStale (user : UserRecord) (decidedAt : ℕ)
    (pending : Option AccessRequestRecord) : LeavesApis (closeStale user decidedAt pending) := by
  cases pending with
  | none => exact leavesApis_pure _
  | some pending =>
    refine (leavesApis_txRead _).bind fun extended => leavesApis_ite ?_ (leavesApis_throw _)
    refine (leavesApis_updateRequestIfStatus _ _ _).bind fun closed => ?_
    exact leavesApis_ite (leavesApis_record _ _) (leavesApis_throw _)

theorem leavesApis_requestTx (user : UserRecord) (apiId : ℕ) (identity : Identity)
    (tools : Option (List ℕ)) (decidedAt : ℕ) :
    LeavesApis (requestTx user apiId identity tools decidedAt) := by
  refine (leavesApis_txRead _).bind fun pending => (leavesApis_closeStale _ _ _).bind fun _ => ?_
  refine (leavesApis_createRequest _ _ _ _).bind fun inserted => ?_
  exact (leavesApis_record _ _).bind fun _ => leavesApis_pure _

theorem leavesApis_requestToolsTx (apiId grantId : ℕ) (identity : Identity) (tools : List ℕ) :
    LeavesApis (requestToolsTx apiId grantId identity tools) := by
  refine (leavesApis_txRead _).bind fun grant => leavesApis_ite ?_ (leavesApis_throw _)
  refine (leavesApis_txRead _).bind fun pending => leavesApis_ite (leavesApis_throw _) ?_
  refine (leavesApis_createRequest _ _ _ _).bind fun inserted => ?_
  exact (leavesApis_record _ _).bind fun _ => leavesApis_pure _

theorem leavesApis_noteReclaim (request : AccessRequestRecord) :
    LeavesApis (noteReclaim request) := by
  intro s u s' h
  obtain ⟨slips, rfl, -⟩ := noteReclaim_spec h
  rfl

theorem leavesApis_claimTx (actor : UserRecord) (request : AccessRequestRecord)
    (tools : Option (List ℕ)) (decidedAt : ℕ) :
    LeavesApis (claimTx actor request tools decidedAt) := by
  refine (leavesApis_updateRequestIfStatus _ _ _).onSome (leavesApis_pure _) fun updated => ?_
  refine (leavesApis_noteReclaim _).bind fun _ => (leavesApis_upsertClaimed _).bind fun job => ?_
  exact leavesApis_pure _

theorem leavesApis_settleOwn (job : AccessGatewayJobRecord) (id : ℕ)
    (patch : AccessRequestRecord → AccessRequestRecord) : LeavesApis (do
      let mine ← txRead fun s => owned s job
      if mine then updateRequestIfStatus id .approved patch else pure none : Tx _) :=
  (leavesApis_txRead _).bind fun _ =>
    leavesApis_ite (leavesApis_updateRequestIfStatus _ _ _) (leavesApis_pure _)

theorem leavesApis_txApplicationActive (identity : Identity) :
    LeavesApis (txApplicationActive identity) := by
  intro s u s' h
  obtain rfl := txApplicationActive_spec h
  rfl

theorem leavesApis_grantTx (api : ApiRecord) (request : AccessRequestRecord)
    (tools : Option (List ℕ)) (job : AccessGatewayJobRecord) :
    LeavesApis (grantTx api request tools job) := by
  refine (leavesApis_txApplicationActive _).bind fun _ => ?_
  refine (leavesApis_createGrant _ _ _ _).bind fun created => ?_
  refine (leavesApis_record _ _).bind fun _ => (leavesApis_deleteClaimed _).bind fun mine => ?_
  exact leavesApis_ite (leavesApis_pure _) (leavesApis_throw _)

theorem leavesApis_widenTx (request : AccessRequestRecord) (grantId : ℕ) (current next : List ℕ)
    (job : AccessGatewayJobRecord) : LeavesApis (widenTx request grantId current next job) := by
  refine (leavesApis_txApplicationActive _).bind fun _ => ?_
  refine (leavesApis_txRead _).bind fun live => leavesApis_ite ?_ (leavesApis_throw _)
  refine (leavesApis_updateGrantIfStatus _ _ _).onSome (leavesApis_throw _) fun widened => ?_
  refine (leavesApis_deleteClaimed _).bind fun mine => leavesApis_ite ?_ (leavesApis_throw _)
  exact (leavesApis_record _ _).bind fun _ => leavesApis_pure _

theorem leavesApis_moveRequestToRevoked (grant : GrantRecord) (actorId revokedAt : ℕ) :
    LeavesApis (moveRequestToRevoked grant actorId revokedAt) := by
  refine (leavesApis_txRead _).onSome (leavesApis_pure _) fun request => ?_
  exact (leavesApis_updateRequestIfStatus _ _ _).bind fun _ => leavesApis_pure _

theorem leavesApis_cancelPendingToolRequest (grant : GrantRecord) (actorId revokedAt : ℕ) :
    LeavesApis (cancelPendingToolRequest grant actorId revokedAt) := by
  refine (leavesApis_txRead _).bind fun pending => ?_
  cases hmine : pending.filter (·.grantId == some grant.id) with
  | none => exact leavesApis_pure _
  | some pending =>
    refine (leavesApis_updateRequestIfStatus _ _ _).onSome (leavesApis_pure _) fun closed => ?_
    exact (leavesApis_record _ _).bind fun _ => leavesApis_pure _

theorem leavesApis_revokeTx (actor : UserRecord) (grant : GrantRecord) (revokedAt : ℕ) :
    LeavesApis (revokeTx actor grant revokedAt) := by
  refine (leavesApis_updateGrantIfStatus _ _ _).onSome (leavesApis_pure _) fun claimed => ?_
  refine (leavesApis_moveRequestToRevoked _ _ _).bind fun request => ?_
  refine (leavesApis_cancelPendingToolRequest _ _ _).bind fun toolRequest => ?_
  refine (leavesApis_upsertClaimed _).bind fun job => (leavesApis_record _ _).bind fun _ => ?_
  exact leavesApis_pure _

theorem leavesApis_sweepTx (actor : UserRecord) (grant : GrantRecord) (revokedAt : ℕ) :
    LeavesApis (sweepTx actor grant revokedAt) := by
  refine (leavesApis_updateGrantIfStatus _ _ _).onSome (leavesApis_pure _) fun claimed => ?_
  refine (leavesApis_moveRequestToRevoked _ _ _).bind fun request => ?_
  refine (leavesApis_cancelPendingToolRequest _ _ _).bind fun toolRequest => ?_
  exact (leavesApis_record _ _).bind fun _ => leavesApis_pure _

theorem leavesApis_restoreRevoked (claim : GrantRecord)
    (request toolRequest : Option AccessRequestRecord)
    (present : Bool) : LeavesApis (restoreRevoked claim request toolRequest present) := by
  refine (leavesApis_txRead _).bind fun current => (leavesApis_txRead _).bind fun refused => ?_
  refine leavesApis_ite ?_ (leavesApis_pure _)
  refine (leavesApis_updateGrantIfStatus _ _ _).onSome (leavesApis_pure _) fun back => ?_
  have hdeleted : LeavesApis (deleteBySubject claim.id) := by
    intro s u s' h
    cases h
    rfl
  have hrequest : LeavesApis (restoreRequest request) := by
    cases request with
    | none => exact leavesApis_pure _
    | some request =>
      exact (leavesApis_updateRequestIfStatus _ _ _).bind fun _ => leavesApis_pure _
  have htool : LeavesApis (restoreTool claim toolRequest) := by
    cases toolRequest with
    | none => exact leavesApis_pure _
    | some request =>
      refine (leavesApis_txRead _).bind fun _ => (leavesApis_txRead _).bind fun _ => ?_
      refine (leavesApis_txRead _).bind fun _ => leavesApis_ite ?_ (leavesApis_pure _)
      exact (leavesApis_updateRequestIfStatus _ _ _).bind fun _ => leavesApis_pure _
  exact hdeleted.bind fun _ => hrequest.bind fun _ => htool

theorem leavesApis_completeRevocation (job : AccessGatewayJobRecord) :
    LeavesApis (completeRevocation job) :=
  (leavesApis_deleteClaimed _).bind fun _ =>
    leavesApis_ite ((leavesApis_record _ _).bind fun _ => leavesApis_pure _) (leavesApis_pure _)

theorem leavesApis_settleApprovalTx (job : AccessGatewayJobRecord) (request : AccessRequestRecord)
    (settle : Settle) : LeavesApis (settleApprovalTx job request settle) := by
  have hsettle : LeavesApis (settleRequestTx request settle) := by
    refine (leavesApis_txRead _).bind fun occupied => ?_
    cases settle with
    | kept => exact leavesApis_pure _
    | cancel => exact (leavesApis_updateRequestIfStatus _ _ _).bind fun _ => leavesApis_pure _
    | release =>
      refine leavesApis_ite ?_ ?_
      · exact (leavesApis_updateRequestIfStatus _ _ _).bind fun _ => leavesApis_pure _
      · exact (leavesApis_updateRequestIfStatus _ _ _).bind fun _ => leavesApis_pure _
  refine (leavesApis_deleteClaimed _).bind fun mine => leavesApis_ite ?_ (leavesApis_pure _)
  exact hsettle.bind fun _ => (leavesApis_record _ _).bind fun _ => leavesApis_pure _

theorem leavesApis_reschedule (job : AccessGatewayJobRecord) : LeavesApis (reschedule job) := by
  intro s mine s' h
  simp only [reschedule] at h
  split at h
  · cases h
    rfl
  · cases h
    rfl

theorem leavesApis_claimDue (subjectId : ℕ) : LeavesApis (claimDue subjectId) := by
  intro s claimed s' h
  simp only [claimDue] at h
  split at h
  · cases h
    rfl
  split at h
  · cases h
    rfl
  · cases h
    rfl

theorem leavesApis_releaseStale (subjectId : ℕ) : LeavesApis (releaseStale subjectId) := by
  intro s u s' h
  cases h
  rfl

end LeavesApis

end FerrumNexus.Access
