import FerrumNexus.Access.Bookkeeping

/-!
# The programs of the access service, one by one

Each keeps the books whatever it remembers. A grant is made or widened only
from a request that was loaded before and still is about the same identity,
API and tools.
-/
namespace FerrumNexus.Access

open Saga Platform Portal Credentials

section Programs

variable {K : World → Prop} {α γ δ : Type} {slot : ℕ}

/-! ## The gateway -/

theorem books_setGroups (consumerId : ConsumerId) (groups : List AclGroup) (s : World) :
    books (setGroups consumerId groups s) = books s ∧
      (setGroups consumerId groups s).apis = s.apis := by
  unfold setGroups
  split <;> simp [books]

theorem bookkeeps_replaceSnapshot (hK : Remembers K) (consumerId : ConsumerId)
    (snapshot groups : List AclGroup) :
    KeepsBooks K (replaceSnapshot consumerId snapshot groups) := by
  refine bookkeeps_edgeWrite hK fun s a s' h => ?_
  split at h
  · cases h
  · split at h
    · cases h
      exact books_setGroups consumerId groups s
    · cases h

theorem bookkeeps_createConsumer (hK : Remembers K) (consumerId : ConsumerId) (username : Username)
    (groups : List AclGroup) :
    KeepsBooks K (createConsumer consumerId username groups) := by
  refine bookkeeps_edgeWrite hK fun s a s' h => ?_
  split at h
  · cases h
  · cases h
    simp [books]

theorem bookkeeps_ensureOnGateway (hK : Remembers K) (username : Username) :
    KeepsBooks K (ensureOnGateway username) := by
  refine (bookkeeps_edgeRead hK _).andThen fun existing => ?_
  cases existing with
  | some view =>
    exact (bookkeeps_ensure.forget).andThen fun _ => keepsBooks_pure _
  | none =>
    refine Steady.tryCatch ?_ fun error => ?_
    · exact (bookkeeps_createConsumer hK _ _ _).andThen fun _ => keepsBooks_pure _
    · refine steady_ite (fun _ => ?_) fun _ => steady_throw error
      refine (bookkeeps_edgeRead hK _).andThen fun legacy => ?_
      cases legacy with
      | some consumerId => exact keepsBooks_pure _
      | none => exact steady_throw error

theorem move_createMapping {identity : Identity} {consumerId : ConsumerId} {s s' : World}
    {mapping : ConsumerRecord} (h : createMapping identity consumerId s = .ok (mapping, s')) :
    Move s s' := by
  simp only [createMapping] at h
  split at h
  · cases h
  · cases h
    exact ⟨enters_of_draw (by simp) (by simp) (by simp) (by simp), fun ha => ha⟩

theorem bookkeeps_assertApplicationUsable (hK : Remembers K) (owner : ℕ)
    (applicationId : Option ℕ) :
    KeepsBooks K (assertApplicationUsable owner applicationId) := by
  cases applicationId with
  | none => exact keepsBooks_pure _
  | some applicationId =>
    refine (bookkeeps_storeRead hK fun _ _ => trivial).andThen fun application => ?_
    cases application with
    | none => exact steady_throw _
    | some application => exact bookkeeps_ensure.forget.andThen fun _ => bookkeeps_ensure.forget

theorem bookkeeps_ensureConsumer (hK : Remembers K) (identity : Identity) :
    KeepsBooks K (ensureConsumer slot identity) := by
  refine bookkeeps_serializePerKey hK ?_
  refine (bookkeeps_assertApplicationUsable hK _ _).andThen fun _ => ?_
  refine (bookkeeps_storeRead hK fun _ _ => trivial).andThen fun cached => ?_
  cases cached with
  | some mapping => exact keepsBooks_pure _
  | none =>
    refine (bookkeeps_ensureOnGateway hK _).andThen fun consumerId => ?_
    exact bookkeeps_transaction hK fun _ _ _ _ h => ⟨move_createMapping h, trivial⟩

/-- A change of groups does to the books what its guard and what follows its
write do. -/
theorem bookkeeps_mutateAclGroups (hK : Remembers K) (consumerId : ConsumerId)
    {options : MutateAclGroups γ δ} (hguard : KeepsBooks K options.guard)
    (hafter : KeepsBooks K options.afterWrite) :
    KeepsBooks K (mutateAclGroups slot consumerId options) := by
  refine bookkeeps_serializePerKey hK ?_
  have hactive : KeepsBooks K (assertRequiredActive options.requireActiveUser) := by
    cases options.requireActiveUser with
    | none => exact keepsBooks_pure _
    | some userId =>
      exact (bookkeeps_storeRead hK fun _ _ => trivial).andThen fun owner => bookkeeps_ensure.forget
  refine hactive.andThen fun _ => (bookkeeps_edgeRead hK _).andThen fun snapshot => ?_
  refine hguard.andThen fun seen => ?_
  refine steady_ite (fun _ => ?_) fun _ => keepsBooks_pure _
  have hwrite : KeepsBooks K (writeGroups consumerId options seen.1 snapshot) := by
    cases snapshot with
    | none =>
      exact steady_ite (fun _ => keepsBooks_pure _) fun _ => steady_throw _
    | some groups =>
      exact (bookkeeps_replaceSnapshot hK _ _ _).andThen fun _ => Steady.map hafter
  exact (bookkeeps_attempt hwrite).andThen fun _ => keepsBooks_pure _

theorem bookkeeps_addMembership (hK : Remembers K) (identity : Identity) (apiId : ℕ)
    (tools : Option (List ℕ)) {guard : AccessService (γ × Bool)} {afterWrite : AccessService δ}
    (hguard : KeepsBooks K guard)
    (hafter : KeepsBooks K afterWrite) :
    KeepsBooks K (addMembership slot identity apiId tools guard afterWrite) := by
  refine (bookkeeps_storeRead hK fun _ _ => trivial).andThen fun api => ?_
  refine (bookkeeps_ensureConsumer hK _).andThen fun consumer => ?_
  exact bookkeeps_mutateAclGroups hK _ hguard hafter

theorem bookkeeps_removeMembership (hK : Remembers K) (identity : Identity) (apiId : ℕ)
    (absentIsDone : Bool) {guard : AccessService (γ × Bool)}
    (hguard : KeepsBooks K guard) :
    KeepsBooks K (removeMembership slot identity apiId absentIsDone guard) := by
  refine (bookkeeps_storeRead hK fun _ _ => trivial).andThen fun consumer => ?_
  cases consumer with
  | none => exact keepsBooks_pure _
  | some consumer =>
    exact Steady.map (bookkeeps_mutateAclGroups hK _ hguard (keepsBooks_pure _))

/-! ## Reads -/

theorem bookkeeps_read (hK : Remembers K) (f : World → α) :
    KeepsBooks K (storeRead f) :=
  bookkeeps_storeRead hK fun _ _ => trivial

theorem bookkeeps_load (hK : Remembers K) {what : String} {id : ℕ} {f : World → Option α}
    {Q : α → World → Prop} (h : ∀ s a, K s → f s = some a → Q a s) :
    Bookkeeps K (load what id f) Q := by
  have hread : Bookkeeps K (storeRead f) fun found s => ∀ a, found = some a → Q a s :=
    bookkeeps_storeRead hK fun s hs a ha => h s a hs ha
  refine hread.bind fun found => ?_
  cases found with
  | none => exact steady_throw _
  | some a => exact steady_pure fun s hs => hs.2 a rfl

theorem bookkeeps_find (hK : Remembers K) (what : String) (id : ℕ) (f : World → Option α) :
    KeepsBooks K (load what id f) :=
  bookkeeps_load hK fun _ _ _ _ => trivial

/-- The request and the API of a decision. -/
structure Loaded (loaded : LoadedRequest) (s : World) : Prop where
  known : Known s loaded.request
  api : loaded.request.apiId = loaded.api.id

theorem lasting_loaded (loaded : LoadedRequest) : Lasting (Loaded loaded) :=
  fun s s' hs h hmove => ⟨lasting_known loaded.request s s' hs h.known hmove, h.api⟩

theorem bookkeeps_loadRequest (hK : Remembers K) (requestId : ℕ) :
    Bookkeeps K (loadRequest requestId) Loaded := by
  have hrequest : Bookkeeps K (load "Access request" requestId fun s => s.requests requestId)
      fun request s => Known s request := by
    refine bookkeeps_load hK fun s request hs hr => ?_
    obtain ⟨rfl, -⟩ := (hK.inOrder s hs).orderly.sole.requestId requestId request hr
    exact ⟨request, hr, SameRequest.refl request⟩
  refine hrequest.bind fun request => ?_
  have hK₁ := hK.and (lasting_known request)
  have hapi : Bookkeeps (fun s => K s ∧ Known s request)
      (load "API" request.apiId fun s => s.apis request.apiId)
      fun api _ => request.apiId = api.id := by
    refine bookkeeps_load hK₁ fun s api hs ha => ?_
    exact ((hK.inOrder s hs.1).apis request.apiId api ha).symm
  refine hapi.bind fun api => ?_
  have hK₂ := hK₁.and (lasting_const (request.apiId = api.id))
  refine (bookkeeps_find hK₂ _ _ _).andThen fun requester => ?_
  exact steady_pure fun s hs => ⟨hs.1.2, hs.2⟩

theorem bookkeeps_assertApplicationActive (hK : Remembers K) (identity : Identity) :
    KeepsBooks K (assertApplicationActive identity) :=
  (bookkeeps_read hK _).andThen fun _ => bookkeeps_check.forget

theorem bookkeeps_underProxy (hK : Remembers K) (proxyId : Option ℕ) {p : AccessService α}
    (h : KeepsBooks K p) :
    KeepsBooks K (underProxy slot proxyId p) := by
  cases proxyId with
  | none => exact h
  | some proxyId => exact bookkeeps_serializePerKey hK h

theorem bookkeeps_underApplicationName (hK : Remembers K) (applicationId : Option ℕ)
    {p : AccessService α} (h : KeepsBooks K p) :
    KeepsBooks K (underApplicationName slot applicationId p) := by
  cases applicationId with
  | none => exact h
  | some applicationId => exact bookkeeps_serializePerKey hK h

theorem bookkeeps_decisionConflict (hK : Remembers K) (requestId : ℕ) :
    KeepsBooks K (decisionConflict requestId : AccessService α) := by
  refine (bookkeeps_read hK _).andThen fun current => ?_
  cases current with
  | none => exact steady_throw _
  | some request => exact steady_throw _

theorem bookkeeps_revocationConflict (hK : Remembers K) (grantId : ℕ) :
    KeepsBooks K (revocationConflict grantId : AccessService α) := by
  refine (bookkeeps_read hK _).andThen fun current => ?_
  cases current with
  | none => exact steady_throw _
  | some grant => exact steady_throw _

/-! ## Requests -/

theorem bookkeeps_assertStillRequestable (hK : Remembers K) (user : UserRecord) (api : ApiRecord)
    (missing : NexusError) :
    KeepsBooks K (assertStillRequestable user api missing) := by
  refine (bookkeeps_read hK _).andThen fun found => bookkeeps_check.forget.andThen fun fresh => ?_
  exact bookkeeps_ensure.forget.andThen fun _ => keepsBooks_pure _

theorem bookkeeps_request (hK : Remembers K) (user : UserRecord) (apiId : ℕ)
    (applicationId : Option ℕ) (requestedTools : Option (List ℕ)) :
    KeepsBooks K (request slot user apiId applicationId requestedTools) := by
  refine (bookkeeps_find hK _ _ _).andThen fun api => ?_
  refine bookkeeps_check.forget.andThen fun _ => ?_
  refine (bookkeeps_read hK _).andThen fun held => bookkeeps_check.forget.andThen fun _ => ?_
  refine bookkeeps_underProxy hK _ (bookkeeps_underApplicationName hK _ ?_)
  refine (bookkeeps_assertStillRequestable hK _ _ _).andThen fun fresh => ?_
  refine bookkeeps_check.forget.andThen fun _ => ?_
  refine (bookkeeps_assertApplicationActive hK _).andThen fun _ => ?_
  refine (bookkeeps_nowIso hK).andThen fun decidedAt => ?_
  exact keepsBooks_commit hK (leavesApis_requestTx _ _ _ _ _) fun _ _ _ _ => enters_requestTx

/-- What `assertExtensible` lets through: an active grant of the user. -/
theorem assertExtensible_ok {user : UserRecord} {requestedTools : List ℕ}
    {found : Option GrantRecord} {grant : GrantRecord}
    (h : assertExtensible user requestedTools found = .ok grant) :
    found = some grant ∧ grant.userId = user.id := by
  cases found with
  | none => cases h
  | some found =>
    simp only [assertExtensible] at h
    split at h
    · rename_i hactive
      cases htools : found.approvedTools with
      | none => simp [htools] at h
      | some covered =>
        simp only [htools] at h
        split at h
        · cases h
        · cases h
          exact ⟨rfl, hactive.2⟩
    · cases h

/-- What the checks read may be gone at the commit, which reads the grant again. -/
theorem bookkeeps_requestTools (hK : Remembers K) (user : UserRecord) (grantId : ℕ)
    (requestedTools : List ℕ) :
    KeepsBooks K (requestTools slot user grantId requestedTools) := by
  have hinitial : Bookkeeps K (load "Grant" grantId fun s => s.grants grantId)
      fun initial s => KnownGrant s grantId initial :=
    bookkeeps_load hK fun s initial _ hg => ⟨initial, hg, SameGrant.refl initial⟩
  refine hinitial.bind fun initial => ?_
  have hK₁ := hK.and (lasting_knownGrant grantId initial)
  refine bookkeeps_ensure.forget.andThen fun _ => ?_
  have hapi : Bookkeeps (fun s => K s ∧ KnownGrant s grantId initial)
      (load "Grant" grantId fun s => s.apis initial.apiId) fun api _ => api.id = initial.apiId :=
    bookkeeps_load hK₁ fun s api hs ha => (hK.inOrder s hs.1).apis initial.apiId api ha
  refine hapi.bind fun api => ?_
  have hK₂ := hK₁.and (lasting_const (api.id = initial.apiId))
  refine bookkeeps_check.forget.andThen fun _ => ?_
  refine bookkeeps_underProxy hK₂ _ (bookkeeps_underApplicationName hK₂ _ ?_)
  refine (bookkeeps_assertStillRequestable hK₂ _ _ _).andThen fun fresh => ?_
  refine bookkeeps_ensure.forget.andThen fun _ => bookkeeps_check.forget.andThen fun _ => ?_
  have hfound : Bookkeeps _ (storeRead fun s => s.grants grantId) fun found s =>
      ∀ grant, found = some grant → KnownGrant s grantId grant :=
    bookkeeps_storeRead hK₂ fun s _ grant hg => ⟨grant, hg, SameGrant.refl grant⟩
  refine hfound.bind fun found => ?_
  have hK₃ := hK₂.and (L := fun s => ∀ grant, found = some grant → KnownGrant s grantId grant)
    fun s s' hs h hmove grant hg => lasting_knownGrant grantId grant s s' hs (h grant hg) hmove
  refine bookkeeps_checkThen fun grant hextensible => ?_
  refine (bookkeeps_assertApplicationActive hK₃ _).andThen fun _ => ?_
  refine bookkeeps_commit hK₃ fun s request s' hs h =>
    ⟨(leavesApis_requestToolsTx _ _ _ _).move (enters_requestToolsTx ?_ h) h, trivial⟩
  obtain ⟨⟨⟨-, hknown⟩, hapi⟩, hfound⟩ := hs
  obtain ⟨rfl, huser⟩ := assertExtensible_ok hextensible
  -- the row is the grant of both reads
  obtain ⟨row, hg, hsame⟩ := hknown
  obtain ⟨row', hg', hsame'⟩ := hfound grant rfl
  obtain rfl := Option.some.inj (hg.symm.trans hg')
  refine ⟨row, hg, hsame.2.1.trans hapi.symm, hsame'.2.2.1.trans ?_⟩
  simp [GrantRecord.identity, huser]

/-! ## Decisions -/

theorem bookkeeps_decideAlone (hK : Remembers K) (actor : UserRecord)
    (request : AccessRequestRecord) {status : AccessRequestStatus} {action : AuditAction}
    (hdecision : status = .denied ∧ action = .accessDeny ∨
      status = .cancelled ∧ action = .accessCancel) :
    KeepsBooks K (decideAlone actor request status action) := by
  refine bookkeeps_ensure.forget.andThen fun _ => (bookkeeps_nowIso hK).andThen fun decidedAt => ?_
  have hdecide : KeepsBooks K (commit (decideTx actor request status action decidedAt)) :=
    keepsBooks_commit hK (leavesApis_decideTx _ _ _ _ _) fun _ _ _ _ => enters_decideTx hdecision
  refine hdecide.andThen fun updated => ?_
  cases updated with
  | none => exact bookkeeps_decisionConflict hK _
  | some updated => exact keepsBooks_pure _

theorem bookkeeps_cancel (hK : Remembers K) (user : UserRecord) (requestId : ℕ) :
    KeepsBooks K (cancel user requestId) := by
  refine (bookkeeps_loadRequest hK _).forget.andThen fun loaded => ?_
  exact bookkeeps_ensure.forget.andThen fun _ => bookkeeps_decideAlone hK _ _ (by simp)

theorem bookkeeps_deny (hK : Remembers K) (actor : UserRecord) (requestId : ℕ) :
    KeepsBooks K (deny actor requestId) := by
  refine (bookkeeps_loadRequest hK _).forget.andThen fun loaded => ?_
  exact bookkeeps_ensure.forget.andThen fun _ => bookkeeps_decideAlone hK _ _ (by simp)

/-! ## Approvals -/

theorem bookkeeps_record (hK : Remembers K) {action : AuditAction} (id : ℕ)
    (hremark : remarks action = true) :
    KeepsBooks K (commit (record action id)) :=
  keepsBooks_commit hK (leavesApis_record _ _) fun _ _ _ _ => enters_remark hremark

theorem bookkeeps_settleOwnedJob (hK : Remembers K) (job : AccessGatewayJobRecord) (done : Bool) :
    KeepsBooks K (settleOwnedJob job done) := by
  refine bookkeeps_bestEffort (bookkeeps_commit hK fun _ _ _ _ h => ⟨?_, trivial⟩)
  cases done with
  | true => exact (leavesApis_deleteClaimed _).move (enters_deleteClaimed h) h
  | false => exact (leavesApis_reschedule _).move (enters_reschedule h) h

theorem bookkeeps_settleOwnRequest (hK : Remembers K) (job : AccessGatewayJobRecord) (id : ℕ)
    {patch : AccessRequestRecord → AccessRequestRecord}
    (hpatch : patch = released ∨ patch = cancelledByRecovery) :
    KeepsBooks K (settleOwnRequest job id patch) :=
  keepsBooks_commit hK (leavesApis_settleOwn _ _ _) fun _ _ _ _ => enters_settleOwnRequestTx hpatch

theorem bookkeeps_readActive (hK : Remembers K) (apiId : ℕ) (identity : Identity) :
    KeepsBooks K (readActive apiId identity) :=
  Steady.map (bookkeeps_read hK _).swallow

theorem bookkeeps_reconcileGroups (hK : Remembers K) (identity : Identity) (api : ApiRecord) :
    KeepsBooks K (reconcileGroups slot identity api) := by
  have hlive : KeepsBooks K (do
      let live ← storeRead fun s => findActive s api.id identity
      let active ← storeRead fun s => (s.users identity.userId).any (·.status == .active)
      pure ((live, active), true) : AccessService ((Option GrantRecord × Bool) × Bool)) :=
    (bookkeeps_read hK _).andThen fun _ => (bookkeeps_read hK _).andThen fun _ =>
      keepsBooks_pure _
  refine (bookkeeps_read hK _).andThen fun consumer => ?_
  cases consumer with
  | none => exact hlive.andThen fun _ => keepsBooks_pure _
  | some consumer =>
    refine (bookkeeps_mutateAclGroups hK _ hlive (keepsBooks_pure _)).andThen ?_
    exact fun _ => bookkeeps_check.forget.andThen fun _ => keepsBooks_pure _

theorem bookkeeps_claimApproval (hK : Remembers K) (actor : UserRecord)
    (request : AccessRequestRecord) (tools : Option (List ℕ)) :
    KeepsBooks K (claimApproval actor request tools) := by
  refine (bookkeeps_nowIso hK).andThen fun decidedAt => ?_
  have hclaim : KeepsBooks K (commit (claimTx actor request tools decidedAt)) :=
    keepsBooks_commit hK (leavesApis_claimTx _ _ _ _) fun _ _ _ _ => enters_claimTx
  refine hclaim.andThen fun claimed => ?_
  cases claimed with
  | none => exact bookkeeps_decisionConflict hK _
  | some claimed => exact keepsBooks_pure _

theorem bookkeeps_takeBackGroups (hK : Remembers K) (apiId : ℕ) (identity : Identity)
    (absentIsDone : Bool) :
    KeepsBooks K (takeBackGroups slot apiId identity absentIsDone) := by
  refine Steady.tryCatch ?_ fun _ => keepsBooks_pure _
  refine (bookkeeps_removeMembership hK _ _ _ ?_).andThen fun outcome => ?_
  · exact (bookkeeps_read hK _).andThen fun _ => keepsBooks_pure _
  · rcases outcome with - | ⟨regrant, error | done⟩
    · exact keepsBooks_pure _
    · exact keepsBooks_pure _
    · exact keepsBooks_pure _

theorem bookkeeps_unwindApproval (hK : Remembers K) (api : ApiRecord)
    (request : AccessRequestRecord) (groupAdded : Bool) (job : AccessGatewayJobRecord) :
    KeepsBooks K (unwindApproval slot api request groupAdded job) := by
  have hgroup : KeepsBooks K (unwindGroup slot api request groupAdded job) := by
    have hback : KeepsBooks K (if groupAdded then takeBackGroups slot api.id request.identity false
        else pure (none, true)) :=
      steady_ite (fun _ => bookkeeps_takeBackGroups hK _ _ _)
        fun _ => keepsBooks_pure _
    refine hback.andThen fun found => ?_
    obtain ⟨regrant, removed⟩ := found
    cases regrant with
    | some regrant => exact keepsBooks_pure _
    | none =>
      refine (bookkeeps_settleOwnRequest hK _ _ (.inl rfl)).swallow.andThen fun _ => ?_
      exact keepsBooks_pure _
  refine (bookkeeps_readActive hK _ _).andThen fun live => ?_
  have hrecord := bookkeeps_bestEffort
    (@bookkeeps_record K hK .accessApproveRollback request.id (by simp [remarks]))
  cases live with
  | some live =>
    refine Steady.andThen (keepsBooks_pure _) fun settled => ?_
    exact hrecord.andThen fun _ => keepsBooks_pure _
  | none => exact hgroup.andThen fun _ => hrecord.andThen fun _ => keepsBooks_pure _

theorem bookkeeps_approvalGuard (hK : Remembers K) (job : AccessGatewayJobRecord) (apiId : ℕ)
    (identity : Identity) (allowed : Option GrantRecord → Bool) :
    KeepsBooks K (approvalGuard job apiId identity allowed) := by
  refine (bookkeeps_read hK _).andThen fun mine => ?_
  refine steady_ite (fun _ => ?_) fun _ => keepsBooks_pure _
  refine (bookkeeps_read hK _).andThen fun holder => ?_
  exact steady_ite (fun _ => keepsBooks_pure _) fun _ => keepsBooks_pure _

theorem bookkeeps_concludeApproval (hK : Remembers K) (job : AccessGatewayJobRecord)
    {unwind : NexusError → AccessService Bool} (regranted : NexusError)
    (hunwind : ∀ e, KeepsBooks K (unwind e))
    (outcome : Except NexusError (Ownership × Except NexusError (Option GrantRecord))) :
    KeepsBooks K (concludeApproval job unwind regranted outcome) := by
  have hfailed : ∀ e, KeepsBooks K (do
      let settled ← unwind e
      settleOwnedJob job settled
      throw e : AccessService GrantRecord) := fun e =>
    (hunwind e).andThen fun _ => (bookkeeps_settleOwnedJob hK _ _).andThen fun _ => steady_throw e
  rcases outcome with error | ⟨seen, result⟩
  · exact hfailed error
  cases seen with
  | superseded => exact steady_throw _
  | regranted => exact (bookkeeps_settleOwnedJob hK _ _).andThen fun _ => steady_throw _
  | mine =>
    rcases result with error | - | grant
    · exact hfailed error
    · exact steady_throw _
    · exact keepsBooks_pure _

variable {request : AccessRequestRecord}

theorem bookkeeps_approveAccess (hK : Remembers K) (actor : UserRecord)
    {api : ApiRecord} (approvedTools : Option (Option (List ℕ)))
    (hknown : ∀ s, K s → Known s request) (hapi : request.apiId = api.id)
    (hasked : request.grantId = none) :
    KeepsBooks K (approveAccess slot actor request api approvedTools) := by
  refine (bookkeeps_read hK _).andThen fun existing => bookkeeps_ensure.forget.andThen fun _ => ?_
  refine bookkeeps_check.forget.andThen fun _ => bookkeeps_ensureThen fun hnarrow => ?_
  have hwithin : WithinRequest (approvedTools.getD request.requestedTools) request := by
    intro asked hall
    rw [hall] at hnarrow
    cases htools : approvedTools.getD (some asked) with
    | none => simp [htools] at hnarrow
    | some tools =>
      simp only [htools, List.all_eq_true, List.contains_iff_mem] at hnarrow
      exact ⟨tools, by rw [hall, htools], hnarrow⟩
  refine (bookkeeps_claimApproval hK _ _ _).andThen fun claimed => ?_
  refine Steady.andThen (bookkeeps_attempt ?_) fun outcome => ?_
  · refine bookkeeps_addMembership hK _ _ _ (bookkeeps_approvalGuard hK _ _ _ _) ?_
    refine bookkeeps_commit hK fun s grant s' hs h => ⟨?_, trivial⟩
    exact (leavesApis_grantTx _ _ _ _).move (enters_grantTx (hknown s hs) hasked hapi hwithin h) h
  · exact bookkeeps_concludeApproval hK _ _ (fun _ => bookkeeps_unwindApproval hK _ _ _ _) _

/-! ## Tool approvals -/

theorem bookkeeps_takeBackTools (hK : Remembers K) (apiId : ℕ) (identity : Identity)
    (uncovered : List ℕ) :
    KeepsBooks K (takeBackTools slot apiId identity uncovered) := by
  refine Steady.tryCatch ?_ fun _ => keepsBooks_pure _
  refine (bookkeeps_read hK _).andThen fun consumer => ?_
  cases consumer with
  | none => exact keepsBooks_pure _
  | some consumer =>
    refine Steady.andThen (bookkeeps_mutateAclGroups hK _ ?_ (keepsBooks_pure _))
      fun found => keepsBooks_pure _
    exact (bookkeeps_read hK _).andThen fun _ => keepsBooks_pure _

theorem bookkeeps_unwindTools (hK : Remembers K) (apiId : ℕ) (identity : Identity)
    (holder : Option GrantRecord) (uncovered : List ℕ) (attempted : Bool) :
    KeepsBooks K (unwindTools slot apiId identity holder uncovered attempted) := by
  refine steady_ite (fun _ => Steady.map (bookkeeps_takeBackGroups hK _ _ _)) fun _ => ?_
  exact steady_ite (fun _ => bookkeeps_takeBackTools hK _ _ _) fun _ =>
    keepsBooks_pure _

theorem bookkeeps_unwindUncovered (hK : Remembers K) (api : ApiRecord)
    (request : AccessRequestRecord) (active holder : Option GrantRecord) (added : List ℕ)
    (attempted : Bool) (job : AccessGatewayJobRecord) :
    KeepsBooks K (unwindUncovered slot api request active holder added attempted job) := by
  refine (bookkeeps_unwindTools hK _ _ _ _ _).andThen fun unwound => ?_
  refine steady_ite (fun _ => keepsBooks_pure _) fun _ => ?_
  have hpatch : ∀ live : Bool, (if live then released else cancelledByRecovery) = released ∨
      (if live then released else cancelledByRecovery) = cancelledByRecovery := by
    intro live
    cases live <;> simp
  refine (bookkeeps_settleOwnRequest hK _ _ (hpatch _)).swallow.andThen fun _ => ?_
  exact keepsBooks_pure _

theorem bookkeeps_readHolder (hK : Remembers K) (apiId : ℕ) (identity : Identity) :
    KeepsBooks K (readHolder apiId identity) := by
  refine bookkeeps_quiet hK fun s o r s' h => ?_
  split at h
  · cases h
    exact ⟨rfl, rfl⟩
  · split at h
    · cases h
      exact ⟨by simp [books], rfl⟩
    · cases h
      exact ⟨rfl, rfl⟩

theorem bookkeeps_unwindToolApproval (hK : Remembers K) (api : ApiRecord)
    (request : AccessRequestRecord) (grantId : ℕ) (added : List ℕ) (attempted : Bool)
    (job : AccessGatewayJobRecord) :
    KeepsBooks K (unwindToolApproval slot api request grantId added attempted job) := by
  refine Steady.andThen (Steady.map (bookkeeps_read hK _).swallow) fun live => ?_
  refine Steady.andThen ?_ fun holder => Steady.andThen ?_ fun settled => ?_
  · cases live.filter (·.status == .active) with
    | some grant => exact keepsBooks_pure _
    | none => exact bookkeeps_readHolder hK _ _
  · refine steady_ite (fun _ => Steady.map (bookkeeps_reconcileGroups hK _ _).swallow) fun _ => ?_
    exact steady_ite (fun _ => keepsBooks_pure _) fun _ =>
      bookkeeps_unwindUncovered hK _ _ _ _ _ _ _
  · have hrecord := bookkeeps_bestEffort
      (@bookkeeps_record K hK .accessToolsApproveRollback request.id (by simp [remarks]))
    exact hrecord.andThen fun _ => keepsBooks_pure _

/-- What `addedTools` lets through was asked for. -/
theorem addedTools_subset {current added : List ℕ} {approvedTools : Option (Option (List ℕ))}
    (h : addedTools request current approvedTools = .ok added) :
    added ⊆ request.requestedTools.getD [] := by
  simp only [addedTools] at h
  split at h
  · cases h
  split at h
  · cases h
  split at h
  · cases h
  rename_i hrequested
  split at h
  · cases h
  · cases h
    intro tool htool
    have hin := hrequested
    simp only [List.any_eq_true, Bool.not_eq_true', not_exists, not_and, Bool.not_eq_false] at hin
    simpa using hin tool htool

theorem bookkeeps_approveTools (hK : Remembers K) (actor : UserRecord)
    (api : ApiRecord) {grantId : ℕ} (approvedTools : Option (Option (List ℕ)))
    (hknown : ∀ s, K s → Known s request) (hasked : request.grantId = some grantId) :
    KeepsBooks K (approveTools slot actor request api grantId approvedTools) := by
  refine (bookkeeps_read hK _).andThen fun grant => bookkeeps_check.forget.andThen fun current => ?_
  refine bookkeeps_checkThen fun added hadded => bookkeeps_check.forget.andThen fun _ => ?_
  refine (bookkeeps_claimApproval hK _ _ _).andThen fun claimed => ?_
  refine Steady.andThen (bookkeeps_attempt ?_) fun outcome => ?_
  · refine bookkeeps_addMembership hK _ _ _ (bookkeeps_approvalGuard hK _ _ _ _) ?_
    refine bookkeeps_commit hK fun s widened s' hs h => ⟨?_, trivial⟩
    have henters := enters_widenTx (hknown s hs) hasked (addedTools_subset hadded) h
    exact (leavesApis_widenTx _ _ _ _ _).move henters h
  · exact bookkeeps_concludeApproval hK _ _
      (fun _ => bookkeeps_unwindToolApproval hK _ _ _ _ _ _) _

theorem bookkeeps_decideApproval (hK : Remembers K) (actor : UserRecord) (requestId : ℕ)
    (proxyId : Option ℕ) (approvedTools : Option (Option (List ℕ))) :
    KeepsBooks K (decideApproval slot actor requestId proxyId approvedTools) := by
  refine (bookkeeps_loadRequest hK _).bind fun loaded => ?_
  have hK₁ := hK.and (lasting_loaded loaded)
  refine bookkeeps_ensure.forget.andThen fun _ => bookkeeps_ensure.forget.andThen fun _ => ?_
  refine bookkeeps_ensure.forget.andThen fun _ => bookkeeps_ensure.forget.andThen fun _ => ?_
  refine bookkeeps_ensure.forget.andThen fun _ => ?_
  have happlication : KeepsBooks (fun s => K s ∧ Loaded loaded s)
      (assertRequestApplication loaded.request.applicationId) := by
    cases loaded.request.applicationId with
    | none => exact keepsBooks_pure _
    | some applicationId =>
      exact (bookkeeps_read hK₁ _).andThen fun _ => bookkeeps_ensure.forget
  refine happlication.andThen fun _ => ?_
  cases hasked : loaded.request.grantId with
  | some grantId => exact bookkeeps_approveTools hK₁ _ _ _ (fun s hs => hs.2.known) hasked
  | none =>
    -- the API is read off what is known of the state
    refine fun s hs => ?_
    exact bookkeeps_approveAccess hK₁ _ _ (fun s hs => hs.2.known) hs.2.api hasked s hs

theorem bookkeeps_approve (hK : Remembers K) (actor : UserRecord) (requestId : ℕ)
    (approvedTools : Option (Option (List ℕ))) :
    KeepsBooks K (approve slot actor requestId approvedTools) := by
  refine (bookkeeps_loadRequest hK _).forget.andThen fun initial => ?_
  refine bookkeeps_ensure.forget.andThen fun _ => ?_
  exact bookkeeps_underProxy hK _ (bookkeeps_decideApproval hK _ _ _ _)

/-! ## Revocations -/

theorem bookkeeps_restoreOnce (hK : Remembers K) (claim : GrantRecord) (proxyId : Option ℕ)
    {body : Bool → Tx Unit}
    (hbody : ∀ present, KeepsBooks K (commit (body present))) :
    KeepsBooks K (restoreOnce slot claim proxyId body) := by
  have hkeys : ∀ present, KeepsBooks K (serializePerKey slot (.lifecycle claim.userId)
      (serializePerKey slot (.recovery claim.userId) (commit (body present)))) :=
    fun present => bookkeeps_serializePerKey hK (bookkeeps_serializePerKey hK (hbody present))
  refine (bookkeeps_read hK _).andThen fun consumer => ?_
  cases consumer with
  | none => exact hkeys false
  | some consumer =>
    refine bookkeeps_serializePerKey hK ((bookkeeps_read hK _).andThen fun api => ?_)
    refine Steady.andThen ?_ fun present => hkeys present
    refine Steady.tryCatch ?_ fun _ => keepsBooks_pure _
    exact (bookkeeps_edgeRead hK _).andThen fun _ => keepsBooks_pure _

theorem bookkeeps_restoreUnderKeys (hK : Remembers K) (claim : GrantRecord) (proxyId : Option ℕ)
    {body : Bool → Tx Unit} (hbody : ∀ present, KeepsBooks K (commit (body present)))
    (retries : ℕ) :
    KeepsBooks K (restoreUnderKeys slot claim proxyId body retries) := by
  induction retries with
  | zero => exact bookkeeps_restoreOnce hK claim proxyId hbody
  | succ retries ih =>
    refine (bookkeeps_restoreOnce hK claim proxyId hbody).tryCatch fun error => ?_
    exact steady_ite (fun _ => ih) fun _ => steady_throw error

theorem bookkeeps_unwindRevocation (hK : Remembers K) (claim : GrantRecord)
    {request toolRequest : Option AccessRequestRecord} (proxyId : Option ℕ) (retries : ℕ)
    (happroved : ∀ row, request = some row → row.status = .approved)
    (hundecided : ∀ row, toolRequest = some row → row.decidedBy = none) :
    KeepsBooks K (unwindRevocation slot claim request toolRequest proxyId retries) := by
  have hrestored : ∀ present, LeavesApis (restoreRevoked claim request toolRequest present) :=
    leavesApis_restoreRevoked claim request toolRequest
  refine Steady.tryCatch (bookkeeps_restoreUnderKeys hK _ _ (fun present => ?_) _) fun _ => ?_
  · refine bookkeeps_commit hK fun s u s' _ h => ⟨?_, trivial⟩
    refine ((hrestored present).bind fun _ => leavesApis_record _ _).move ?_ h
    obtain ⟨u, s₁, h₁, h₂⟩ := tx_bind h
    exact (enters_restoreRevoked happroved hundecided h₁).trans
      (enters_remark (by simp [remarks]) h₂)
  · refine (bookkeeps_bestEffort (bookkeeps_restoreUnderKeys hK _ _ (fun present => ?_) _)).andThen
      fun _ => bookkeeps_bestEffort (bookkeeps_record hK _ (by simp [remarks]))
    exact keepsBooks_commit hK (hrestored present) fun _ _ _ _ =>
      enters_restoreRevoked happroved hundecided

theorem bookkeeps_revocationObsolete (hK : Remembers K) (job : AccessGatewayJobRecord) :
    KeepsBooks K (revocationObsolete job) := by
  refine (bookkeeps_read hK _).andThen fun mine => ?_
  refine steady_ite (fun _ => ?_) fun _ => keepsBooks_pure _
  refine (bookkeeps_read hK _).andThen fun grant => ?_
  refine steady_ite (fun _ => keepsBooks_pure _) fun _ => ?_
  exact (bookkeeps_read hK _).andThen fun _ => keepsBooks_pure _

theorem bookkeeps_revocationGuard (hK : Remembers K) (job : AccessGatewayJobRecord) :
    KeepsBooks K (revocationGuard job) :=
  (bookkeeps_revocationObsolete hK job).andThen fun _ => keepsBooks_pure _

theorem bookkeeps_concludeRevocation (hK : Remembers K) (claim : RevocationClaim)
    (proxyId : Option ℕ) (retries : ℕ)
    (happroved : ∀ row, claim.request = some row → row.status = .approved)
    (hundecided : ∀ row, claim.toolRequest = some row → row.decidedBy = none)
    (outcome : Except NexusError (Option (Option Obsolete × Except NexusError (Option Unit)))) :
    KeepsBooks K (concludeRevocation slot claim proxyId retries outcome) := by
  have hback : ∀ e, KeepsBooks K (concludeRevocation.rollBack slot claim proxyId retries e) := by
    intro e
    refine (bookkeeps_unwindRevocation hK _ _ _ happroved hundecided).andThen fun _ => ?_
    exact (bookkeeps_settleOwnedJob hK _ _).andThen fun _ => steady_throw e
  have hdone : KeepsBooks K (do
      settleOwnedJob claim.job true
      pure claim.grant : AccessService GrantRecord) :=
    (bookkeeps_settleOwnedJob hK _ _).andThen fun _ => keepsBooks_pure _
  rcases outcome with error | - | ⟨obsolete, error | result⟩
  · exact hback error
  · exact hdone
  · rcases obsolete with - | - | - | - <;> exact hback error
  · rcases obsolete with - | - | - | -
    · exact hdone
    · exact keepsBooks_pure _
    · exact hdone
    · exact hdone

theorem bookkeeps_withdrawGroups (hK : Remembers K) (grantee : Option UserRecord)
    (claim : RevocationClaim) :
    KeepsBooks K (withdrawGroups slot grantee claim) := by
  cases grantee with
  | none => exact keepsBooks_pure _
  | some grantee => exact bookkeeps_removeMembership hK _ _ _ (bookkeeps_revocationGuard hK _)

theorem bookkeeps_withdraw (hK : Remembers K) (actor : UserRecord) (grantId : ℕ)
    (mode : WithdrawMode) (proxyId : Option ℕ) (retries : ℕ) :
    KeepsBooks K (withdraw slot actor grantId mode proxyId retries) := by
  refine (bookkeeps_find hK _ _ _).andThen fun grant => bookkeeps_ensure.forget.andThen fun _ => ?_
  refine (bookkeeps_find hK _ _ _).andThen fun api => ?_
  have hreview : KeepsBooks K (assertMayReview actor api mode) :=
    steady_ite (fun _ => bookkeeps_ensure.forget) fun _ => keepsBooks_pure _
  refine hreview.andThen fun _ => bookkeeps_ensure.forget.andThen fun _ => ?_
  refine (bookkeeps_read hK _).andThen fun grantee => ?_
  refine (bookkeeps_nowIso hK).andThen fun revokedAt => ?_
  have hclaim : Bookkeeps K (commit (revokeTx actor grant revokedAt)) fun claimed _ =>
      ∀ claim, claimed = some claim →
        (∀ row, claim.request = some row → row.status = .approved) ∧
          ∀ row, claim.toolRequest = some row → row.decidedBy = none := by
    refine bookkeeps_commit hK fun s claimed s' hs h =>
      ⟨(leavesApis_revokeTx _ _ _).move (enters_revokeTx h) h, ?_⟩
    rintro claim rfl
    exact revokeTx_claim (hK.inOrder s hs).orderly h
  refine hclaim.bind fun claimed => ?_
  cases claimed with
  | none =>
    exact bookkeeps_revocationConflict (hK.and (lasting_const _)) _
  | some claim =>
    refine fun s hs => ?_
    have hK₁ := hK.and (lasting_const (∀ other, some claim = some other →
      (∀ row, other.request = some row → row.status = .approved) ∧
        ∀ row, other.toolRequest = some row → row.decidedBy = none))
    obtain ⟨happroved, hundecided⟩ := hs.2 claim rfl
    have hgroups := bookkeeps_attempt (@bookkeeps_withdrawGroups _ slot hK₁ grantee claim)
    exact (hgroups.andThen fun outcome =>
      bookkeeps_concludeRevocation hK₁ claim proxyId retries happroved hundecided outcome) s hs

theorem bookkeeps_withdrawGrant (hK : Remembers K) (actor : UserRecord) (grantId : ℕ)
    (mode : WithdrawMode) (retries : ℕ) :
    KeepsBooks K (withdrawGrant slot actor grantId mode retries) := by
  refine (bookkeeps_find hK _ _ _).andThen fun initial => ?_
  refine bookkeeps_ensure.forget.andThen fun _ => ?_
  refine (bookkeeps_find hK _ _ _).andThen fun api => ?_
  have hreview : KeepsBooks K (assertMayReview actor api mode) :=
    steady_ite (fun _ => bookkeeps_ensure.forget) fun _ => keepsBooks_pure _
  refine hreview.andThen fun _ => bookkeeps_ensure.forget.andThen fun _ => ?_
  exact bookkeeps_underProxy hK _ (bookkeeps_withdraw hK _ _ _ _ _)

theorem bookkeeps_sweepGrant (hK : Remembers K) (actor : UserRecord) (userId : ℕ)
    (grant : GrantRecord) : KeepsBooks K (sweepGrant slot actor userId grant) := by
  refine (bookkeeps_nowIso hK).andThen fun revokedAt => ?_
  have hclaim : KeepsBooks K (commit (sweepTx actor grant revokedAt)) :=
    keepsBooks_commit hK (leavesApis_sweepTx _ _ _) fun _ _ _ _ => enters_sweepTx
  have hlookup : KeepsBooks K (lookupGrantee userId grant) := by
    refine (bookkeeps_read hK _).andThen fun api => (bookkeeps_read hK _).andThen fun grantee => ?_
    exact steady_ite (fun _ => bookkeeps_read hK _) fun _ => keepsBooks_pure _
  have hgroups : ∀ consumer, KeepsBooks K (sweepGroups slot grant consumer) := by
    intro consumer
    cases consumer with
    | none => exact keepsBooks_pure _
    | some consumer =>
      refine (bookkeeps_mutateAclGroups hK _ (keepsBooks_pure _)
        (keepsBooks_pure _)).andThen fun _ => ?_
      exact bookkeeps_check.forget.andThen fun _ => keepsBooks_pure _
  refine (bookkeeps_attempt hclaim).andThen fun claimed => ?_
  rcases claimed with error | - | claimed
  · exact keepsBooks_pure _
  · exact keepsBooks_pure _
  refine (bookkeeps_attempt hlookup).andThen fun looked => ?_
  cases looked with
  | error e => exact keepsBooks_pure _
  | ok consumer => exact (hgroups consumer).swallow.andThen fun _ => keepsBooks_pure _

theorem bookkeeps_revokeAllForUser (hK : Remembers K) (actor : UserRecord) (userId : ℕ) :
    KeepsBooks K (revokeAllForUser slot actor userId) := by
  refine (bookkeeps_read hK _).andThen fun grants => ?_
  induction grants with
  | nil => exact keepsBooks_pure _
  | cons grant grants ih =>
    refine (bookkeeps_sweepGrant hK _ _ _).andThen fun swept => ih.andThen fun revoked => ?_
    exact keepsBooks_pure _

/-! ## The worker -/

theorem bookkeeps_dropJob (hK : Remembers K) (job : AccessGatewayJobRecord) :
    KeepsBooks K (dropJob job) :=
  Steady.map (keepsBooks_commit hK (leavesApis_deleteClaimed _) fun _ _ _ _ =>
    enters_deleteClaimed)

theorem bookkeeps_finishRevocation (hK : Remembers K) (job : AccessGatewayJobRecord)
    (obsolete : Option Obsolete) :
    KeepsBooks K (finishRevocation job obsolete) := by
  rcases obsolete with - | - | - | -
  · exact Steady.map (keepsBooks_commit hK (leavesApis_completeRevocation _) fun _ _ _ _ =>
      enters_completeRevocation)
  · exact keepsBooks_pure _
  · exact bookkeeps_dropJob hK job
  · exact bookkeeps_dropJob hK job

theorem bookkeeps_recoverRevocation (hK : Remembers K) (job : AccessGatewayJobRecord) :
    KeepsBooks K (recoverRevocation slot job) := by
  refine (bookkeeps_read hK _).andThen fun grantee => ?_
  cases grantee with
  | none => exact bookkeeps_dropJob hK job
  | some grantee =>
    refine (bookkeeps_removeMembership hK _ _ _ (bookkeeps_revocationGuard hK _)).andThen
      fun outcome => ?_
    cases outcome with
    | none =>
      exact (bookkeeps_revocationObsolete hK _).andThen fun _ => bookkeeps_finishRevocation hK _ _
    | some outcome =>
      exact bookkeeps_check.forget.andThen fun _ => bookkeeps_finishRevocation hK _ _

theorem bookkeeps_settleApproval (hK : Remembers K) (job : AccessGatewayJobRecord)
    (api : Option ApiRecord) : KeepsBooks K (settleApproval slot job api) := by
  refine (bookkeeps_read hK _).andThen fun mine => ?_
  refine steady_ite (fun _ => ?_) fun _ => keepsBooks_pure _
  refine (bookkeeps_read hK _).andThen fun request => ?_
  refine (bookkeeps_read hK _).andThen fun requester => ?_
  rcases api with - | api
  · exact bookkeeps_dropJob hK job
  rcases request with - | request
  · exact bookkeeps_dropJob hK job
  rcases requester with - | requester
  · exact bookkeeps_dropJob hK job
  refine (bookkeeps_reconcileGroups hK _ _).andThen fun live => ?_
  exact Steady.map (keepsBooks_commit hK (leavesApis_settleApprovalTx _ _ _) fun _ _ _ _ =>
    enters_settleApprovalTx)

theorem bookkeeps_recoverApproval (hK : Remembers K) (job : AccessGatewayJobRecord) (attempts : ℕ) :
    KeepsBooks K (recoverApproval slot job attempts) := by
  induction attempts with
  | zero => exact steady_throw _
  | succ attempts ih =>
    refine (bookkeeps_read hK _).andThen fun seen => ?_
    cases seen.bind (·.ferrumProxyId) with
    | none => exact bookkeeps_settleApproval hK _ _
    | some proxyId =>
      refine Steady.andThen (bookkeeps_serializePerKey hK ?_) fun settled => ?_
      · refine (bookkeeps_read hK _).andThen fun api => ?_
        exact steady_ite (fun _ => keepsBooks_pure _) fun _ =>
          Steady.map (bookkeeps_settleApproval hK _ _)
      · cases settled with
        | some done => exact keepsBooks_pure _
        | none => exact ih

theorem bookkeeps_runJob (hK : Remembers K) (subjectId : ℕ) :
    KeepsBooks K (runJob slot subjectId) := by
  have hclaim : KeepsBooks K (commit (claimDue subjectId)) :=
    keepsBooks_commit hK (leavesApis_claimDue _) fun _ _ _ _ => enters_claimDue
  refine hclaim.andThen fun claimed => ?_
  cases claimed with
  | none => exact keepsBooks_pure _
  | some job =>
    have hrecover : KeepsBooks K (recoverGatewayJob slot job) := by
      unfold recoverGatewayJob
      cases job.kind with
      | revoke => exact bookkeeps_recoverRevocation hK job
      | approve => exact bookkeeps_recoverApproval hK job _
    refine (hrecover.andThen fun _ => keepsBooks_pure _).tryCatch fun _ => ?_
    have hretry : KeepsBooks K (commit (reschedule job)) :=
      keepsBooks_commit hK (leavesApis_reschedule _) fun _ _ _ _ => enters_reschedule
    exact hretry.andThen fun _ => keepsBooks_pure _

end Programs

end FerrumNexus.Access
