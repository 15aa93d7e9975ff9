import FerrumNexus.Access.Ledger
import FerrumNexus.Access.Rows

/-!
# What each transaction enters in the books

Every transaction of the access service as a chain of entries. Nothing is
assumed of the row or the job it is about, except where a grant is made or
widened: there the request it answers must still be the one that was loaded.
-/
namespace FerrumNexus.Access

open Saga Platform Portal Credentials

def books (s : World) : Books where
  requests := s.requests
  grants := s.grants
  audits := s.audits
  fresh := s.fresh

/-- From orderly books, a chain of entries. -/
def Enters (s s' : World) : Prop := (books s).Orderly → Books.Entries (books s) (books s')

section Transactions

variable {s s₁ s' : World}

theorem Enters.refl (s : World) : Enters s s := fun _ => Relation.ReflTransGen.refl

theorem Enters.orderly (h : Enters s s') (ho : (books s).Orderly) : (books s').Orderly :=
  (ho.entries (h ho)).1

theorem Enters.kept (h : Enters s s') (ho : (books s).Orderly) : (books s).Kept (books s') :=
  (ho.entries (h ho)).2

theorem Enters.trans (h : Enters s s₁) (h' : Enters s₁ s') : Enters s s' :=
  fun ho => Relation.ReflTransGen.trans (h ho) (h' (h.orderly ho))

theorem enters_of_entry (h : (books s).Orderly → Entry (books s) (books s')) : Enters s s' :=
  fun ho => Relation.ReflTransGen.single (h ho)

/-- Ids drawn for rows of other tables. -/
theorem enters_of_draw (hr : s'.requests = s.requests) (hg : s'.grants = s.grants)
    (ha : s'.audits = s.audits) (hf : s.fresh ≤ s'.fresh) : Enters s s' := by
  refine enters_of_entry fun _ => ?_
  have hbooks : books s' = (books s).draw s'.fresh := by
    simp [books, Books.draw, hr, hg, ha]
  exact hbooks ▸ Entry.draw hf

theorem enters_of_books (h : books s' = books s) : Enters s s' := by
  intro _
  rw [h]
  exact Relation.ReflTransGen.refl

/-! ## Rows -/

variable {actorId apiId decidedAt grantId id revokedAt subjectId : ℕ} {identity k : Identity}
  {closed moved : Option AccessRequestRecord} {patch : AccessRequestRecord → AccessRequestRecord}
  {action : AuditAction} {request : AccessRequestRecord} {u : Unit} {job : AccessGatewayJobRecord}
  {actor user : UserRecord} {tools : Option (List ℕ)} {claim grant : GrantRecord}

theorem noneActive_of_findActive (h : findActive s apiId k = none) (hs : (books s).Sole) :
    (books s).NoneActive apiId k := by
  intro id grant hg hapi hident hst
  have hmem : grant ∈ rowsOf s s.grants :=
    List.mem_filterMap.mpr ⟨id, List.mem_range.mpr (hs.grantId id grant hg).2, hg⟩
  have hnot := List.find?_eq_none.mp h grant hmem
  simp [hapi, hident, hst] at hnot

theorem nonePending_books (h : findPending s apiId k = none) (hs : (books s).Sole) :
    (books s).NonePending apiId k := by
  intro id request hr hapi hident hst
  have hmem : request ∈ rowsOf s s.requests :=
    List.mem_filterMap.mpr ⟨id, List.mem_range.mpr (hs.requestId id request hr).2, hr⟩
  have hnot := List.find?_eq_none.mp h request hmem
  simp [hapi, hident, hst] at hnot

/-- A compare-and-set of a request: nothing, or a turn of a row with the
expected status. -/
theorem updateRequestIfStatus_turns {expected : AccessRequestStatus}
    (h : updateRequestIfStatus id expected patch s = .ok (moved, s')) :
    (moved = none ∧ s = s') ∨ ∃ request, s.requests id = some request ∧ request.status = expected ∧
      moved = some (patch request) ∧ books s' = (books s).putRequest id (patch request) ∧
      ((books s).Sole → expected ≠ .pending → (patch request).status = .pending →
        (books s).NonePending request.apiId request.identity) := by
  simp only [updateRequestIfStatus] at h
  split at h
  · cases h
    exact .inl ⟨rfl, rfl⟩
  rename_i request hr
  split at h
  · cases h
    exact .inl ⟨rfl, rfl⟩
  rename_i hst
  split at h
  · cases h
  rename_i hfree
  cases h
  have hst : request.status = expected := not_not.mp hst
  refine .inr ⟨request, hr, hst, rfl, rfl, fun hs hne hpending => nonePending_books ?_ hs⟩
  cases hfind : findPending s request.apiId request.identity with
  | none => rfl
  | some other => exact absurd ⟨hst ▸ hne, hpending, by simp [hfind]⟩ hfree

/-- A turn that leaves no audit row of its own. -/
theorem enters_updateRequest {expected : AccessRequestStatus}
    (h : updateRequestIfStatus id expected patch s = .ok (moved, s'))
    (hsame : ∀ request, SameRequest request (patch request))
    (hturn : ∀ request, request.status = expected → Turn request (patch request) none) :
    Enters s s' := by
  rcases updateRequestIfStatus_turns h with ⟨-, rfl⟩ | ⟨request, hr, hst, -, hbooks, hnone⟩
  · exact Enters.refl s
  refine enters_of_entry fun ho => ?_
  have he : Entry (books s) (((books s).putRequest id (patch request)).noteIf none id) := by
    refine Entry.turn hr (hsame request) (hturn request hst) fun hpending => ?_
    refine hnone ho.sole ?_ hpending
    rintro rfl
    cases hturn request hst <;> simp_all
  rwa [Books.noteIf_none, ← hbooks] at he

/-- A turn with its audit row. -/
theorem enters_recorded (h : updateRequestIfStatus id .pending patch s = .ok (moved, s₁))
    (hmoved : moved = some request)
    (h' : record action id s₁ = .ok (u, s')) (hsame : ∀ row, SameRequest row (patch row))
    (hturn : ∀ row, row.status = .pending → Turn row (patch row) (some action)) : Enters s s' := by
  rcases updateRequestIfStatus_turns h with ⟨hnone, -⟩ | ⟨row, hr, hst, -, hbooks, -⟩
  · simp [hnone] at hmoved
  cases h'
  refine enters_of_entry fun ho => ?_
  have he : Entry (books s) (((books s).putRequest id (patch row)).noteIf (some action) id) := by
    refine Entry.turn hr (hsame row) (hturn row hst) fun hpending => ?_
    cases hturn row hst <;> simp_all
  have heq : books { s₁ with audits := s₁.audits ++ [⟨action, id⟩] } =
      (books s₁).note action id := by
    simp [books, Books.note]
  rwa [Books.noteIf_some, ← hbooks, ← heq] at he

theorem enters_remark (hremark : remarks action = true) (h : record action id s = .ok (u, s')) :
    Enters s s' := by
  cases h
  exact enters_of_entry fun _ => Entry.remark id hremark

theorem enters_deleteClaimed {mine : Bool} (h : deleteClaimed job s = .ok (mine, s')) :
    Enters s s' := by
  rcases deleteClaimed_cases h with ⟨-, rfl, -⟩ | ⟨-, rfl, -⟩
  · exact Enters.refl s
  · exact enters_of_books (by simp [books, eraseJob])

theorem enters_upsertClaimed {input : JobInput} (h : upsertClaimed input s = .ok (job, s')) :
    Enters s s' := by
  obtain ⟨rfl, -⟩ := upsertClaimed_spec h
  exact enters_of_draw (by simp [putJob]) (by simp [putJob]) (by simp [putJob]) (by simp [putJob])

/-! ## Requests -/

theorem enters_decideTx {status : AccessRequestStatus}
    (hdecision : status = .denied ∧ action = .accessDeny ∨
      status = .cancelled ∧ action = .accessCancel)
    (h : decideTx actor request status action decidedAt s = .ok (moved, s')) : Enters s s' := by
  obtain ⟨r, s₁, h₁, h⟩ := tx_bind h
  cases r with
  | none =>
    obtain ⟨-, rfl⟩ := tx_pure h
    rcases updateRequestIfStatus_turns h₁ with ⟨-, rfl⟩ | ⟨_, _, _, hmoved, _⟩
    · exact Enters.refl s
    · cases hmoved
  | some row =>
    obtain ⟨u, s₂, h₂, h⟩ := tx_bind h
    obtain ⟨-, rfl⟩ := tx_pure h
    refine enters_recorded h₁ rfl h₂ (fun _ => ⟨rfl, rfl, rfl, rfl, rfl⟩) fun row hst => ?_
    rcases hdecision with ⟨rfl, rfl⟩ | ⟨rfl, rfl⟩
    · exact Turn.deny hst rfl
    · exact Turn.cancel hst rfl

theorem enters_closeStale {pending : Option AccessRequestRecord}
    (h : closeStale user decidedAt pending s = .ok (u, s')) : Enters s s' := by
  cases pending with
  | none =>
    obtain ⟨-, rfl⟩ := tx_pure h
    exact Enters.refl s
  | some pending =>
    obtain ⟨extended, s₁, h₁, h⟩ := tx_bind h
    obtain ⟨-, rfl⟩ := tx_read h₁
    split at h
    · obtain ⟨closed, s₂, h₂, h⟩ := tx_bind h
      split at h
      · rename_i hsome
        obtain ⟨row, hrow⟩ := Option.isSome_iff_exists.mp hsome
        exact enters_recorded h₂ hrow h (fun _ => ⟨rfl, rfl, rfl, rfl, rfl⟩)
          fun _ hst => Turn.cancel hst rfl
      · exact (tx_throw h).elim
    · exact (tx_throw h).elim

theorem enters_createRequest {grantId : Option ℕ}
    (hgrant : ∀ id, grantId = some id → ∃ grant, GrantFor s apiId identity id grant)
    (haction : action = if grantId.isSome then .accessToolsRequest else .accessRequest)
    (h : createRequest apiId identity tools grantId s = .ok (request, s₁))
    (h' : record action request.id s₁ = .ok (u, s')) : Enters s s' := by
  simp only [createRequest] at h
  split at h
  · cases h
  rename_i hfree
  cases h
  cases h'
  refine enters_of_entry fun ho => ?_
  have hnone : findPending s apiId identity = none := by simpa using hfree
  subst haction
  exact Entry.ask (b := books s) rfl rfl rfl (nonePending_books hnone ho.sole) hgrant

theorem enters_requestTx (h : requestTx user apiId identity tools decidedAt s = .ok (request, s')) :
    Enters s s' := by
  obtain ⟨pending, s₁, h₁, h⟩ := tx_bind h
  obtain ⟨-, rfl⟩ := tx_read h₁
  obtain ⟨u, s₂, h₂, h⟩ := tx_bind h
  obtain ⟨inserted, s₃, h₃, h⟩ := tx_bind h
  obtain ⟨u', s₄, h₄, h⟩ := tx_bind h
  obtain ⟨-, rfl⟩ := tx_pure h
  exact (enters_closeStale h₂).trans (enters_createRequest (by simp) (by simp) h₃ h₄)

theorem enters_requestToolsTx {tools : List ℕ}
    (hgrant : ∃ grant, GrantFor s apiId identity grantId grant)
    (h : requestToolsTx apiId grantId identity tools s = .ok (request, s')) : Enters s s' := by
  obtain ⟨grant, s₁, h₁, h⟩ := tx_bind h
  obtain ⟨-, rfl⟩ := tx_read h₁
  split at h
  · obtain ⟨pending, s₁, h₁, h⟩ := tx_bind h
    obtain ⟨-, rfl⟩ := tx_read h₁
    split at h
    · exact (tx_throw h).elim
    obtain ⟨inserted, s₂, h₂, h⟩ := tx_bind h
    obtain ⟨u, s₃, h₃, h⟩ := tx_bind h
    obtain ⟨-, rfl⟩ := tx_pure h
    refine enters_createRequest ?_ (by simp) h₂ h₃
    rintro id ⟨⟩
    exact hgrant
  · exact (tx_throw h).elim

/-! ## Approvals -/

theorem enters_noteReclaim (h : noteReclaim request s = .ok (u, s')) : Enters s s' := by
  obtain ⟨slips, rfl, -⟩ := noteReclaim_spec h
  exact enters_of_books (by simp [books])

theorem enters_claimTx {claimed : Option (AccessRequestRecord × AccessGatewayJobRecord)}
    (h : claimTx actor request tools decidedAt s = .ok (claimed, s')) : Enters s s' := by
  obtain ⟨moved, s₁, h₁, h⟩ := tx_bind h
  have hmoved : Enters s s₁ := enters_updateRequest h₁ (fun _ => ⟨rfl, rfl, rfl, rfl, rfl⟩)
    fun _ hst => Turn.approve hst rfl
  cases moved with
  | none =>
    obtain ⟨-, rfl⟩ := tx_pure h
    exact hmoved
  | some updated =>
    obtain ⟨u, s₂, h₂, h⟩ := tx_bind h
    obtain ⟨job, s₃, h₃, h⟩ := tx_bind h
    obtain ⟨-, rfl⟩ := tx_pure h
    exact (hmoved.trans (enters_noteReclaim h₂)).trans (enters_upsertClaimed h₃)

/-- What an approval's compensation and recovery make of its request. -/
theorem enters_settled (hpatch : patch = released ∨ patch = cancelledByRecovery)
    (h : updateRequestIfStatus id .approved patch s = .ok (moved, s')) : Enters s s' := by
  rcases hpatch with rfl | rfl
  · exact enters_updateRequest h (fun _ => ⟨rfl, rfl, rfl, rfl, rfl⟩) fun _ hst =>
      Turn.reopen hst rfl rfl
  · exact enters_updateRequest h (fun _ => ⟨rfl, rfl, rfl, rfl, rfl⟩) fun _ hst =>
      Turn.close hst rfl rfl

theorem enters_settleOwnRequestTx (hpatch : patch = released ∨ patch = cancelledByRecovery) (h : (do
      let mine ← txRead fun s => owned s job
      if mine then updateRequestIfStatus id .approved patch else pure none : Tx _) s
        = .ok (moved, s')) : Enters s s' := by
  obtain ⟨mine, s₁, h₁, h⟩ := tx_bind h
  obtain ⟨-, rfl⟩ := tx_read h₁
  cases mine with
  | false =>
    obtain ⟨-, rfl⟩ := tx_pure h
    exact Enters.refl s
  | true => exact enters_settled hpatch h

/-- A compare-and-set of a grant: nothing, or a write of a row with the expected
status, which revives none while another is active. -/
theorem updateGrantIfStatus_writes {expected : GrantStatus} {patch : GrantRecord → GrantRecord}
    {moved : Option GrantRecord} (h : updateGrantIfStatus id expected patch s = .ok (moved, s')) :
    (moved = none ∧ s = s') ∨ ∃ grant, s.grants id = some grant ∧ grant.status = expected ∧
      moved = some (patch grant) ∧ s' = putGrant id (patch grant) s ∧
      ((books s).Sole → expected = .revoked → (patch grant).status = .active →
        (books s).NoneActive grant.apiId grant.identity) := by
  have hfree : ∀ grant, s.grants id = some grant → grant.status = expected →
      expected = .revoked → (patch grant).status = .active →
        findActive s grant.apiId grant.identity = none := by
    intro grant hg hst hrevoked hactive
    by_contra hsome
    have hfound : (findActive s grant.apiId grant.identity).isSome = true :=
      Option.isSome_iff_ne_none.mpr hsome
    simp [updateGrantIfStatus, hg, hst, hrevoked, hactive, hfound] at h
  rcases updateGrantIfStatus_cases h with ⟨hnone, rfl⟩ | ⟨grant, hg, hst, hmoved, hs'⟩
  · exact .inl ⟨hnone, rfl⟩
  · refine .inr ⟨grant, hg, hst, hmoved, hs', fun hs hrevoked hactive => ?_⟩
    exact noneActive_of_findActive (hfree grant hg hst hrevoked hactive) hs

/-- The grant, its audit row and the end of its job. -/
theorem enters_grantTx {api : ApiRecord} (hknown : Known s request)
    (hasked : request.grantId = none) (hapi : request.apiId = api.id)
    (htools : WithinRequest tools request)
    (h : grantTx api request tools job s = .ok (grant, s')) : Enters s s' := by
  obtain ⟨row, hrow, hsame⟩ := hknown
  obtain ⟨u, s₁, h₁, h⟩ := tx_bind h
  obtain ⟨created, s₂, h₂, h⟩ := tx_bind h
  obtain ⟨u', s₃, h₃, h⟩ := tx_bind h
  obtain ⟨mine, s₄, h₄, h⟩ := tx_bind h
  obtain rfl := txApplicationActive_spec h₁
  have hcreated : Enters s s₃ := by
    simp only [createGrant] at h₂
    split at h₂
    · cases h₂
    rename_i hfree
    cases h₂
    cases h₃
    have hnone : findActive s api.id request.identity = none := by simpa using hfree
    refine enters_of_entry fun ho => Entry.grant (b := books s) rfl rfl
      (noneActive_of_findActive hnone ho.sole) rfl hrow ?_ ?_ hsame.2.2.1 ?_
    · exact hsame.2.2.2.2.trans hasked
    · exact hsame.2.1.trans hapi
    · intro asked hall
      exact htools asked (hsame.2.2.2.1.symm.trans hall)
  cases mine with
  | false => exact (tx_throw h).elim
  | true =>
    obtain ⟨-, rfl⟩ := tx_pure h
    exact hcreated.trans (enters_deleteClaimed h₄)

/-- Only tools that were asked for are added to a grant. -/
theorem enters_widenTx {current added : List ℕ} (hknown : Known s request)
    (hasked : request.grantId = some grantId) (htools : added ⊆ request.requestedTools.getD [])
    (h : widenTx request grantId current (current ++ added) job s = .ok (grant, s')) :
    Enters s s' := by
  obtain ⟨row, hrow, hsame⟩ := hknown
  obtain ⟨u, s₁, h₁, h⟩ := tx_bind h
  obtain rfl := txApplicationActive_spec h₁
  obtain ⟨live, s₁, h₁, h⟩ := tx_bind h
  obtain ⟨rfl, rfl⟩ := tx_read h₁
  split at h
  · rename_i hlive
    obtain ⟨old, hold, hcurrent⟩ := (Option.any_eq_true _ _).mp hlive
    simp only [Bool.and_eq_true, beq_iff_eq] at hcurrent
    obtain ⟨widened, s₂, h₂, h⟩ := tx_bind h
    rcases updateGrantIfStatus_writes h₂ with ⟨rfl, rfl⟩ | ⟨old', hold', hst, rfl, rfl, -⟩
    · exact (tx_throw h).elim
    obtain rfl := Option.some.inj (hold.symm.trans hold')
    obtain ⟨mine, s₃, h₃, h⟩ := tx_bind h
    cases mine with
    | false => exact (tx_throw h).elim
    | true =>
      obtain ⟨u, s₄, h₄, h⟩ := tx_bind h
      obtain ⟨-, rfl⟩ := tx_pure h
      cases h₄
      rcases deleteClaimed_cases h₃ with ⟨hno, -, -⟩ | ⟨-, rfl, -⟩
      · cases hno
      refine enters_of_entry fun _ => Entry.widen (b := books s) hold hst
        ⟨rfl, rfl, rfl, rfl⟩ hst hcurrent.2 rfl hrow (hsame.2.2.2.2.trans hasked) ?_
      rw [hsame.2.2.2.1]
      exact htools
  · exact (tx_throw h).elim

/-! ## Revocations -/

/-- A change of requests, with its audit rows, whatever the grants are. -/
def TurnsRequests (s s' : World) : Prop :=
  s'.grants = s.grants ∧ s'.fresh = s.fresh ∧ ∃ rows, s'.audits = s.audits ++ rows ∧
    ∀ grants audits fresh, Books.Entries ⟨s.requests, grants, audits, fresh⟩
      ⟨s'.requests, grants, audits ++ rows, fresh⟩

theorem TurnsRequests.refl (s : World) : TurnsRequests s s := by
  refine ⟨rfl, rfl, [], by simp, fun grants audits fresh => ?_⟩
  rw [List.append_nil]
  exact Relation.ReflTransGen.refl

theorem TurnsRequests.trans (h : TurnsRequests s s₁) (h' : TurnsRequests s₁ s') :
    TurnsRequests s s' := by
  obtain ⟨hg, hf, rows, ha, hchain⟩ := h
  obtain ⟨hg', hf', rows', ha', hchain'⟩ := h'
  refine ⟨hg'.trans hg, hf'.trans hf, rows ++ rows', by simp [ha', ha], ?_⟩
  intro grants audits fresh
  rw [← List.append_assoc]
  exact (hchain grants audits fresh).trans (hchain' grants _ fresh)

theorem entries_turn {old new : AccessRequestRecord} {row : Option AuditAction}
    (hold : s.requests id = some old) (hsame : SameRequest old new) (hturn : Turn old new row)
    (hst : new.status ≠ .pending) (grants : ℕ → Option GrantRecord) (audits : List AuditRecord)
    (fresh : ℕ) : Books.Entries ⟨s.requests, grants, audits, fresh⟩
      ⟨((books s).putRequest id new).requests, grants, audits ++ row.toList.map (⟨·, id⟩), fresh⟩ :=
  Relation.ReflTransGen.single (Entry.turn (b := ⟨s.requests, grants, audits, fresh⟩) hold
    hsame hturn fun hpending => absurd hpending hst)

/-- The request behind a grant is revoked with it. -/
theorem turnsRequests_moveRequestToRevoked
    (h : moveRequestToRevoked grant actorId revokedAt s = .ok (moved, s')) :
    TurnsRequests s s' := by
  obtain ⟨request, s₁, h₁, h⟩ := tx_bind h
  obtain ⟨-, rfl⟩ := tx_read h₁
  cases request with
  | none =>
    obtain ⟨-, rfl⟩ := tx_pure h
    exact TurnsRequests.refl s
  | some request =>
    obtain ⟨r, s₂, h₂, h⟩ := tx_bind h
    obtain ⟨-, rfl⟩ := tx_pure h
    rcases updateRequestIfStatus_turns h₂ with ⟨-, rfl⟩ | ⟨row, hr, hst, -, hbooks, -⟩
    · exact TurnsRequests.refl s
    refine ⟨congrArg Books.grants hbooks, congrArg Books.fresh hbooks, [], ?_,
      fun grants audits fresh => ?_⟩
    · rw [List.append_nil]
      exact congrArg Books.audits hbooks
    have hrequests : s₂.requests = _ := congrArg Books.requests hbooks
    let revoked : AccessRequestRecord :=
      { row with status := .revoked, decidedBy := some actorId, decidedAt := some revokedAt }
    rw [hrequests]
    exact @entries_turn s request.id row revoked none hr ⟨rfl, rfl, rfl, rfl, rfl⟩
      (Turn.revoke hst rfl) (by simp [revoked]) grants audits fresh

theorem turnsRequests_cancelPendingToolRequest
    (h : cancelPendingToolRequest grant actorId revokedAt s = .ok (closed, s')) :
    TurnsRequests s s' := by
  obtain ⟨pending, s₁, h₁, h⟩ := tx_bind h
  obtain ⟨-, rfl⟩ := tx_read h₁
  cases hmine : pending.filter (·.grantId == some grant.id) with
  | none =>
  rw [hmine] at h
  obtain ⟨-, rfl⟩ := tx_pure h
  exact TurnsRequests.refl s
  | some pending =>
  rw [hmine] at h
  obtain ⟨r, s₂, h₂, h⟩ := tx_bind h
  rcases updateRequestIfStatus_turns h₂ with ⟨rfl, rfl⟩ | ⟨row, hr, hst, rfl, hbooks, -⟩
  · obtain ⟨-, rfl⟩ := tx_pure h
    exact TurnsRequests.refl s
  obtain ⟨u, s₃, h₃, h⟩ := tx_bind h
  obtain ⟨-, rfl⟩ := tx_pure h
  cases h₃
  refine ⟨congrArg Books.grants hbooks, congrArg Books.fresh hbooks,
    [⟨.accessCancel, pending.id⟩], ?_, fun grants audits fresh => ?_⟩
  · have haudits : s₂.audits = s.audits := congrArg Books.audits hbooks
    simp [haudits]
  have hrequests : s₂.requests = _ := congrArg Books.requests hbooks
  let cancelled : AccessRequestRecord :=
    { row with status := .cancelled, decidedBy := some actorId, decidedAt := some revokedAt }
  simp only [hrequests]
  exact @entries_turn s pending.id row cancelled (some .accessCancel) hr ⟨rfl, rfl, rfl, rfl, rfl⟩
    (Turn.cancel hst rfl) (by simp [cancelled]) grants audits fresh

/-- The claim of a revocation: the requests that hang on the grant, and the
grant with its audit row. -/
theorem enters_revocation {claimed : Option GrantRecord} {s₂ : World}
    (h : updateGrantIfStatus grant.id .active (fun row => { row with
      status := .revoked, revokedBy := some actor.id, revokedAt := some revokedAt }) s
        = .ok (claimed, s₁)) (hsome : claimed.isSome = true) (hturns : TurnsRequests s₁ s₂)
    (hfresh : s₂.fresh ≤ s'.fresh) (hrequests : s'.requests = s₂.requests)
    (hgrants : s'.grants = s₂.grants)
    (haudits : s'.audits = s₂.audits ++ [⟨.accessRevoke, grant.id⟩]) : Enters s s' := by
  intro _
  rcases updateGrantIfStatus_writes h with ⟨rfl, -⟩ | ⟨old, hold, hst, -, rfl, -⟩
  · cases hsome
  obtain ⟨hg, hf, rows, ha, hchain⟩ := hturns
  have hfirst : Books.Entries (books s) ⟨s₂.requests, s.grants, s.audits ++ rows, s.fresh⟩ :=
    hchain s.grants s.audits s.fresh
  let revoked : GrantRecord :=
    { old with status := .revoked, revokedBy := some actor.id, revokedAt := some revokedAt }
  have hrevoke : Entry ⟨s₂.requests, s.grants, s.audits ++ rows, s.fresh⟩ _ :=
    @Entry.revoke _ grant.id old revoked hold hst ⟨rfl, rfl, rfl, rfl⟩ rfl rfl
  have hdraw := (hfirst.tail hrevoke).tail (Entry.draw (hf ▸ hfresh : s.fresh ≤ s'.fresh))
  refine (congrArg (Books.Entries (books s)) ?_).mp hdraw
  simp [books, Books.draw, Books.note, Books.putGrant, putGrant, revoked, hrequests, hgrants,
    haudits, hg, ha]

theorem enters_revokeTx {claim : Option RevocationClaim}
    (h : revokeTx actor grant revokedAt s = .ok (claim, s')) :
    Enters s s' := by
  obtain ⟨claimed, s₁, h₁, h⟩ := tx_bind h
  cases claimed with
  | none =>
    obtain ⟨-, rfl⟩ := tx_pure h
    rcases updateGrantIfStatus_writes h₁ with ⟨-, rfl⟩ | ⟨_, _, _, hsome, _⟩
    · exact Enters.refl s
    · cases hsome
  | some claimed =>
    obtain ⟨request, s₂, h₂, h⟩ := tx_bind h
    obtain ⟨toolRequest, s₃, h₃, h⟩ := tx_bind h
    obtain ⟨job, s₄, h₄, h⟩ := tx_bind h
    obtain ⟨u, s₅, h₅, h⟩ := tx_bind h
    obtain ⟨-, rfl⟩ := tx_pure h
    have hturns := (turnsRequests_moveRequestToRevoked h₂).trans
      (turnsRequests_cancelPendingToolRequest h₃)
    obtain ⟨rfl, -⟩ := upsertClaimed_spec h₄
    cases h₅
    exact enters_revocation h₁ rfl hturns (by simp [putJob]) (by simp [putJob]) (by simp [putJob])
      (by simp [putJob])

theorem enters_sweepTx {claim : Option GrantRecord}
    (h : sweepTx actor grant revokedAt s = .ok (claim, s')) :
    Enters s s' := by
  obtain ⟨claimed, s₁, h₁, h⟩ := tx_bind h
  cases claimed with
  | none =>
    obtain ⟨-, rfl⟩ := tx_pure h
    rcases updateGrantIfStatus_writes h₁ with ⟨-, rfl⟩ | ⟨_, _, _, hsome, _⟩
    · exact Enters.refl s
    · cases hsome
  | some claimed =>
    obtain ⟨request, s₂, h₂, h⟩ := tx_bind h
    obtain ⟨toolRequest, s₃, h₃, h⟩ := tx_bind h
    obtain ⟨u, s₅, h₅, h⟩ := tx_bind h
    obtain ⟨-, rfl⟩ := tx_pure h
    have hturns := (turnsRequests_moveRequestToRevoked h₂).trans
      (turnsRequests_cancelPendingToolRequest h₃)
    cases h₅
    exact enters_revocation h₁ rfl hturns (by simp) (by simp) (by simp) (by simp)

/-- The request a revocation moved was approved. -/
theorem moveRequestToRevoked_moved
    (hid : ∀ id request, s.requests id = some request → request.id = id)
    (h : moveRequestToRevoked grant actorId revokedAt s = .ok (moved, s')) :
    ∀ request, moved = some request → request.status = .approved := by
  intro request hmoved
  obtain ⟨found, s₁, h₁, h⟩ := tx_bind h
  obtain ⟨hfound, rfl⟩ := tx_read h₁
  cases found with
  | none =>
    obtain ⟨hnone, -⟩ := tx_pure h
    simp [hmoved] at hnone
  | some found =>
    obtain ⟨r, s₂, h₂, h⟩ := tx_bind h
    obtain ⟨heq, -⟩ := tx_pure h
    rcases updateRequestIfStatus_turns h₂ with ⟨rfl, -⟩ | ⟨row, hr, hst, rfl, -, -⟩
    · simp [hmoved] at heq
    -- the row was read under its own id
    obtain ⟨requestId, -, hrow⟩ := Option.bind_eq_some_iff.mp hfound
    obtain rfl := hid requestId found hrow
    obtain rfl := Option.some.inj (hrow.symm.trans hr)
    simp only [Option.map_some, hmoved, Option.some.injEq] at heq
    exact heq ▸ hst

/-- It makes no request pending. -/
theorem moveRequestToRevoked_pending
    (h : moveRequestToRevoked grant actorId revokedAt s = .ok (moved, s'))
    (hr : s'.requests id = some request) (hst : request.status = .pending) :
    s.requests id = some request := by
  obtain ⟨found, s₁, h₁, h⟩ := tx_bind h
  obtain ⟨-, rfl⟩ := tx_read h₁
  cases found with
  | none =>
    obtain ⟨-, rfl⟩ := tx_pure h
    exact hr
  | some found =>
    obtain ⟨r, s₂, h₂, h⟩ := tx_bind h
    obtain ⟨-, rfl⟩ := tx_pure h
    rcases updateRequestIfStatus_turns h₂ with ⟨-, rfl⟩ | ⟨row, -, -, -, hbooks, -⟩
    · exact hr
    have hrequests : s₂.requests = _ := congrArg Books.requests hbooks
    rw [hrequests, Books.requests_putRequest] at hr
    split at hr
    · obtain rfl := Option.some.inj hr
      simp at hst
    · exact hr

/-- The request for more tools that a revocation cancelled, nobody had decided. -/
theorem cancelPendingToolRequest_undecided
    (hundecided : ∀ id request, s.requests id = some request →
      request.status = .pending → request.decidedBy = none)
    (h : cancelPendingToolRequest grant actorId revokedAt s = .ok (closed, s')) :
    ∀ request, closed = some request → request.decidedBy = none := by
  intro request hclosed
  obtain ⟨pending, s₁, h₁, h⟩ := tx_bind h
  obtain ⟨hfind, rfl⟩ := tx_read h₁
  cases hmine : pending.filter (·.grantId == some grant.id) with
  | none =>
    rw [hmine] at h
    obtain ⟨hnone, -⟩ := tx_pure h
    simp [hclosed] at hnone
  | some row =>
    rw [hmine] at h
    obtain ⟨r, s₂, h₂, h⟩ := tx_bind h
    have hrow : closed = some row ∨ closed = none := by
      cases r with
      | none =>
        obtain ⟨hnone, -⟩ := tx_pure h
        exact .inr hnone.symm
      | some r =>
        obtain ⟨u, s₃, h₃, h⟩ := tx_bind h
        obtain ⟨hsome, -⟩ := tx_pure h
        exact .inl hsome.symm
    obtain ⟨rfl, -⟩ := Option.filter_eq_some_iff.mp hmine
    have hp := List.find?_some hfind
    simp only [Bool.and_eq_true, beq_iff_eq] at hp
    obtain ⟨id, -, hid⟩ := List.mem_filterMap.mp (List.mem_of_find?_eq_some hfind)
    rcases hrow with hrow | hrow
    · obtain rfl := Option.some.inj (hrow.symm.trans hclosed)
      exact hundecided id row hid hp.2
    · simp [hrow] at hclosed

/-- What a revocation knows of the requests it may have to put back. -/
theorem revokeTx_claim {claim : RevocationClaim} (ho : (books s).Orderly)
    (h : revokeTx actor grant revokedAt s = .ok (some claim, s')) :
    (∀ request, claim.request = some request → request.status = .approved) ∧
      ∀ request, claim.toolRequest = some request → request.decidedBy = none := by
  obtain ⟨claimed, s₁, h₁, h⟩ := tx_bind h
  have hrequests : s₁.requests = s.requests := by
    rcases updateGrantIfStatus_writes h₁ with ⟨-, rfl⟩ | ⟨_, _, _, _, rfl, _⟩
    · rfl
    · simp [putGrant]
  cases claimed with
  | none =>
    obtain ⟨hnone, -⟩ := tx_pure h
    cases hnone
  | some claimed =>
    obtain ⟨request, s₂, h₂, h⟩ := tx_bind h
    obtain ⟨toolRequest, s₃, h₃, h⟩ := tx_bind h
    obtain ⟨job, s₄, h₄, h⟩ := tx_bind h
    obtain ⟨u, s₅, h₅, h⟩ := tx_bind h
    obtain ⟨hclaim, -⟩ := tx_pure h
    cases hclaim
    constructor
    · refine moveRequestToRevoked_moved (fun id row hr => ?_) h₂
      rw [hrequests] at hr
      exact (ho.sole.requestId id row hr).1
    · refine cancelPendingToolRequest_undecided (fun id row hr hst => ?_) h₃
      have hold := moveRequestToRevoked_pending h₂ hr hst
      rw [hrequests] at hold
      exact ho.balanced.undecided id row hold hst

theorem enters_restoreRequest {request : Option AccessRequestRecord}
    (happroved : ∀ row, request = some row → row.status = .approved)
    (h : restoreRequest request s = .ok (u, s')) : Enters s s' := by
  cases request with
  | none =>
    obtain ⟨-, rfl⟩ := tx_pure h
    exact Enters.refl s
  | some request =>
    obtain ⟨moved, s₁, h₁, h⟩ := tx_bind h
    obtain ⟨-, rfl⟩ := tx_pure h
    exact enters_updateRequest h₁ (fun _ => ⟨rfl, rfl, rfl, rfl, rfl⟩)
      fun _ hst => Turn.restore hst (happroved request rfl)

theorem enters_restoreTool {request : Option AccessRequestRecord}
    (hundecided : ∀ row, request = some row → row.decidedBy = none)
    (h : restoreTool claim request s = .ok (u, s')) : Enters s s' := by
  cases request with
  | none =>
    obtain ⟨-, rfl⟩ := tx_pure h
    exact Enters.refl s
  | some request =>
    obtain ⟨current, s₁, h₁, h⟩ := tx_bind h
    obtain ⟨-, rfl⟩ := tx_read h₁
    obtain ⟨pending, s₁, h₁, h⟩ := tx_bind h
    obtain ⟨-, rfl⟩ := tx_read h₁
    obtain ⟨occupied, s₁, h₁, h⟩ := tx_bind h
    obtain ⟨-, rfl⟩ := tx_read h₁
    split at h
    · obtain ⟨moved, s₂, h₂, h⟩ := tx_bind h
      obtain ⟨-, rfl⟩ := tx_pure h
      exact enters_updateRequest h₂ (fun _ => ⟨rfl, rfl, rfl, rfl, rfl⟩)
        fun _ hst => Turn.uncancel hst rfl (hundecided request rfl)
    · obtain ⟨-, rfl⟩ := tx_pure h
      exact Enters.refl s

/-- A restore undoes what the revocation of the same grant claimed. -/
theorem enters_restoreRevoked {request toolRequest : Option AccessRequestRecord} {present : Bool}
    (happroved : ∀ row, request = some row → row.status = .approved)
    (hundecided : ∀ row, toolRequest = some row → row.decidedBy = none)
    (h : restoreRevoked claim request toolRequest present s = .ok (u, s')) : Enters s s' := by
  obtain ⟨current, s₁, h₁, h⟩ := tx_bind h
  obtain ⟨-, rfl⟩ := tx_read h₁
  obtain ⟨refused, s₁, h₁, h⟩ := tx_bind h
  obtain ⟨-, rfl⟩ := tx_read h₁
  split at h
  · obtain ⟨back, s₁, h₁, h⟩ := tx_bind h
    have hback : Enters s s₁ := by
      rcases updateGrantIfStatus_writes h₁ with ⟨-, rfl⟩ | ⟨row, hg, hst, -, rfl, hnone⟩
      · exact Enters.refl s
      · exact enters_of_entry fun ho => Entry.restore (b := books s) hg hst
          ⟨rfl, rfl, rfl, rfl⟩ rfl rfl (hnone ho.sole rfl rfl)
    cases back with
    | none =>
      obtain ⟨-, rfl⟩ := tx_pure h
      exact hback
    | some grant =>
      obtain ⟨u, s₂, h₂, h⟩ := tx_bind h
      cases h₂
      obtain ⟨u, s₃, h₃, h⟩ := tx_bind h
      have hdeleted : Enters s₁ { s₁ with jobs := Function.update s₁.jobs claim.id none } :=
        enters_of_books (by simp [books])
      exact ((hback.trans hdeleted).trans (enters_restoreRequest happroved h₃)).trans
        (enters_restoreTool hundecided h)
  · obtain ⟨-, rfl⟩ := tx_pure h
    exact Enters.refl s

/-! ## The worker -/

theorem enters_completeRevocation {mine : Bool} (h : completeRevocation job s = .ok (mine, s')) :
    Enters s s' := by
  obtain ⟨mine, s₁, h₁, h⟩ := tx_bind h
  cases mine with
  | false =>
    obtain ⟨-, rfl⟩ := tx_pure h
    exact enters_deleteClaimed h₁
  | true =>
    obtain ⟨u, s₂, h₂, h⟩ := tx_bind h
    obtain ⟨-, rfl⟩ := tx_pure h
    exact (enters_deleteClaimed h₁).trans (enters_remark (by simp [remarks]) h₂)

theorem enters_settleRequestTx {settle : Settle}
    (h : settleRequestTx request settle s = .ok (u, s')) : Enters s s' := by
  obtain ⟨occupied, s₁, h₁, h⟩ := tx_bind h
  obtain ⟨-, rfl⟩ := tx_read h₁
  cases settle with
  | kept =>
    obtain ⟨-, rfl⟩ := tx_pure h
    exact Enters.refl s
  | cancel =>
    obtain ⟨moved, s₂, h₂, h⟩ := tx_bind h
    obtain ⟨-, rfl⟩ := tx_pure h
    exact enters_settled (.inr rfl) h₂
  | release =>
    by_cases hnewer : occupied.any (·.id != request.id) = true
    · rw [if_pos hnewer] at h
      obtain ⟨moved, s₂, h₂, h⟩ := tx_bind h
      obtain ⟨-, rfl⟩ := tx_pure h
      exact enters_settled (.inr rfl) h₂
    · rw [if_neg hnewer] at h
      obtain ⟨moved, s₂, h₂, h⟩ := tx_bind h
      obtain ⟨-, rfl⟩ := tx_pure h
      exact enters_settled (.inl rfl) h₂

theorem enters_settleApprovalTx {settle : Settle} {mine : Bool}
    (h : settleApprovalTx job request settle s = .ok (mine, s')) :
    Enters s s' := by
  obtain ⟨mine, s₁, h₁, h⟩ := tx_bind h
  cases mine with
  | false =>
    obtain ⟨-, rfl⟩ := tx_pure h
    exact enters_deleteClaimed h₁
  | true =>
    obtain ⟨u, s₂, h₂, h⟩ := tx_bind h
    obtain ⟨u, s₃, h₃, h⟩ := tx_bind h
    obtain ⟨-, rfl⟩ := tx_pure h
    have hremark : remarks (rollbackAction request) = true := by
      unfold rollbackAction
      split <;> simp [remarks]
    exact ((enters_deleteClaimed h₁).trans (enters_settleRequestTx h₂)).trans
      (enters_remark hremark h₃)

theorem enters_reschedule {mine : Bool} (h : reschedule job s = .ok (mine, s')) : Enters s s' := by
  simp only [reschedule] at h
  split at h
  · cases h
    exact enters_of_books (by simp [books, requeue])
  · cases h
    exact Enters.refl s

theorem enters_claimDue {claimed : Option AccessGatewayJobRecord}
    (h : claimDue subjectId s = .ok (claimed, s')) : Enters s s' := by
  simp only [claimDue] at h
  split at h
  · cases h
    exact Enters.refl s
  · split at h
    · cases h
      exact Enters.refl s
    · cases h
      exact enters_of_draw (by simp) (by simp) (by simp) (by simp)

theorem enters_releaseStale (h : releaseStale subjectId s = .ok (u, s')) : Enters s s' := by
  cases h
  exact enters_of_books (by simp [books, requeue])

end Transactions

end FerrumNexus.Access
