import FerrumNexus.Access.BookkeepingPrograms
import FerrumNexus.Access.Untouched

/-!
# Runs of the access service

Any number of requests, decisions and revocations, the worker's ticks, what
other services do to the same tables and the rest of the portal, interleaved in
any order and each broken off anywhere. No API and no application is deleted in
them: either deletion takes its rows of these tables along.

A revision of an API drops the tools it no longer publishes from every subset
on it, and the first trusted proof of an account's mailbox cancels what the
account had asked for. Both run inside a larger transaction, whose other rows
are not kept here.
-/
namespace FerrumNexus.Access

open Saga Platform Portal Credentials

/-! ## Other services -/

def listActiveByApi (s : World) (apiId : ℕ) : List GrantRecord :=
  (rowsOf s s.grants).filter fun grant => grant.apiId == apiId && grant.status == .active

/-- `grants.update`. -/
def updateGrant (id : ℕ) (patch : GrantRecord → GrantRecord) : Tx Unit := fun s =>
  .ok ((), { s with grants := Function.update s.grants id ((s.grants id).map patch) })

def pruneGrant (kept : List ℕ) (grant : GrantRecord) : Tx Unit :=
  match grant.approvedTools with
  | none => pure ()
  | some tools =>
    if tools.all kept.contains then pure ()
    else updateGrant grant.id fun row =>
      { row with approvedTools := some (tools.filter kept.contains) }

def pruneGrants (kept : List ℕ) : List GrantRecord → Tx Unit
  | [] => pure ()
  | grant :: grants => do
    pruneGrant kept grant
    pruneGrants kept grants

/-- `pruneToolSubsets`: `kept` are the tools still published. -/
def pruneToolSubsets (apiId : ℕ) (kept : List ℕ) : Tx Unit := do
  let grants ← txRead fun s => listActiveByApi s apiId
  pruneGrants kept grants

def listPendingByUser (s : World) (userId : ℕ) : List AccessRequestRecord :=
  (rowsOf s s.requests).filter fun request =>
    request.userId == userId && request.status == .pending

def cancelAll : List AccessRequestRecord → Tx Unit
  | [] => pure ()
  | request :: requests => do
    let _ ← updateRequestIfStatus request.id .pending fun row => { row with status := .cancelled }
    cancelAll requests

/-- The part of a password reset that touches requests, less its paging. -/
def cancelRequestsOf (userId : ℕ) : Tx Unit := do
  let requests ← txRead fun s => listPendingByUser s userId
  cancelAll requests

section Neighbours

variable {s s₁ s' : World}

theorem enters_cancelAll {requests : List AccessRequestRecord} {u : Unit}
    (h : cancelAll requests s = .ok (u, s')) : Enters s s' := by
  induction requests generalizing s with
  | nil =>
    obtain ⟨-, rfl⟩ := tx_pure h
    exact Enters.refl s
  | cons request requests ih =>
    obtain ⟨moved, s₁, h₁, h⟩ := tx_bind h
    have hreset : Enters s s₁ := enters_updateRequest h₁ (fun _ => ⟨rfl, rfl, rfl, rfl, rfl⟩)
      fun _ hst => Turn.reset hst rfl rfl
    exact hreset.trans (ih h)

theorem enters_cancelRequestsOf {userId : ℕ} {u : Unit}
    (h : cancelRequestsOf userId s = .ok (u, s')) : Enters s s' := by
  obtain ⟨requests, s₁, h₁, h⟩ := tx_bind h
  obtain ⟨-, rfl⟩ := tx_read h₁
  exact enters_cancelAll h

/-- The grants read at the start are still there, with no tool lost that is
still published. -/
def StillListed (kept : List ℕ) (s s' : World) : Prop :=
  ∀ id grant, s.grants id = some grant → ∃ row, s'.grants id = some row ∧ SameGrant grant row ∧
    ∀ tools, grant.approvedTools = some tools → ∃ current, row.approvedTools = some current ∧
      tools.filter kept.contains ⊆ current

theorem StillListed.refl (kept : List ℕ) (s : World) : StillListed kept s s := by
  refine fun id grant hg => ⟨grant, hg, SameGrant.refl grant, fun tools htools => ?_⟩
  exact ⟨tools, htools, List.filter_subset_self tools⟩

theorem enters_pruneGrant {kept : List ℕ} {grant : GrantRecord} {u : Unit}
    (hlisted : StillListed kept s s₁) (hg : s.grants grant.id = some grant)
    (h : pruneGrant kept grant s₁ = .ok (u, s')) : Enters s₁ s' ∧ StillListed kept s s' := by
  unfold pruneGrant at h
  cases htools : grant.approvedTools with
  | none =>
    rw [htools] at h
    obtain ⟨-, rfl⟩ := tx_pure h
    exact ⟨Enters.refl s₁, hlisted⟩
  | some tools =>
    simp only [htools] at h
    split at h
    · obtain ⟨-, rfl⟩ := tx_pure h
      exact ⟨Enters.refl s₁, hlisted⟩
    obtain ⟨row, hrow, hsame, hcovers⟩ := hlisted grant.id grant hg
    obtain ⟨current, hcurrent, hsub⟩ := hcovers tools htools
    cases h
    simp only [hrow, Option.map_some]
    constructor
    · exact enters_of_entry fun _ => Entry.narrow (b := books s₁) hrow ⟨rfl, rfl, rfl, rfl⟩ rfl
        hcurrent rfl hsub
    · intro id other ho
      by_cases hid : id = grant.id
      · subst hid
        obtain rfl := Option.some.inj (hg.symm.trans ho)
        refine ⟨_, Function.update_self _ _ _, hsame, fun tools' htools' => ?_⟩
        obtain rfl := Option.some.inj (htools.symm.trans htools')
        exact ⟨_, rfl, List.Subset.refl _⟩
      · simpa [Function.update_of_ne hid] using hlisted id other ho

theorem enters_pruneGrants {kept : List ℕ} {grants : List GrantRecord} {u : Unit}
    (hlisted : StillListed kept s s₁) (hg : ∀ grant ∈ grants, s.grants grant.id = some grant)
    (h : pruneGrants kept grants s₁ = .ok (u, s')) : Enters s₁ s' := by
  induction grants generalizing s₁ with
  | nil =>
    obtain ⟨-, rfl⟩ := tx_pure h
    exact Enters.refl s₁
  | cons grant grants ih =>
    obtain ⟨v, s₂, h₁, h⟩ := tx_bind h
    obtain ⟨henters, hlisted'⟩ := enters_pruneGrant hlisted (hg grant (by simp)) h₁
    exact henters.trans (ih hlisted' (fun other ho => hg other (by simp [ho])) h)

theorem enters_pruneToolSubsets {apiId : ℕ} {kept : List ℕ} {u : Unit}
    (h : pruneToolSubsets apiId kept s = .ok (u, s')) : Enters s s' := by
  obtain ⟨grants, s₁, h₁, h⟩ := tx_bind h
  obtain ⟨rfl, rfl⟩ := tx_read h₁
  intro ho
  refine enters_pruneGrants (StillListed.refl kept s) (fun grant hmem => ?_) h ho
  obtain ⟨id, -, hid⟩ := List.mem_filterMap.mp (List.mem_of_mem_filter hmem)
  obtain ⟨rfl, -⟩ := ho.sole.grantId id grant hid
  exact hid

theorem leavesApis_cancelRequestsOf (userId : ℕ) : LeavesApis (cancelRequestsOf userId) := by
  refine (leavesApis_txRead _).bind fun requests => ?_
  induction requests with
  | nil => exact leavesApis_pure _
  | cons request requests ih => exact (leavesApis_updateRequestIfStatus _ _ _).bind fun _ => ih

theorem leavesApis_pruneToolSubsets (apiId : ℕ) (kept : List ℕ) :
    LeavesApis (pruneToolSubsets apiId kept) := by
  have hgrant : ∀ grant, LeavesApis (pruneGrant kept grant) := by
    intro grant
    unfold pruneGrant
    cases grant.approvedTools with
    | none => exact leavesApis_pure _
    | some tools =>
      refine leavesApis_ite (leavesApis_pure _) ?_
      intro s u s' h
      cases h
      rfl
  refine (leavesApis_txRead _).bind fun grants => ?_
  induction grants with
  | nil => exact leavesApis_pure _
  | cons grant grants ih => exact (hgrant grant).bind fun _ => ih

end Neighbours

/-! ## The operations -/

/-- A change elsewhere in the portal, or the passing of time. Deletions of APIs
and of applications are none. -/
structure Beside where
  change : World → World
  requests : ∀ s, (change s).requests = s.requests
  grants : ∀ s, (change s).grants = s.grants
  audits : ∀ s, (change s).audits = s.audits
  fresh : ∀ s, s.fresh ≤ (change s).fresh
  apis : ∀ s, ApisById s → ApisById (change s)

inductive AccessOp
  | request (user : UserRecord) (apiId : ℕ) (applicationId : Option ℕ) (tools : Option (List ℕ))
  | requestTools (user : UserRecord) (grantId : ℕ) (tools : List ℕ)
  | cancel (user : UserRecord) (requestId : ℕ)
  | deny (actor : UserRecord) (requestId : ℕ)
  | approve (actor : UserRecord) (requestId : ℕ) (tools : Option (Option (List ℕ)))
  | withdraw (actor : UserRecord) (grantId : ℕ) (mode : WithdrawMode) (retries : ℕ)
  | revokeAllForUser (actor : UserRecord) (userId : ℕ)
  | runJob (subjectId : ℕ)
  | releaseStale (subjectId : ℕ)
  | pruneToolSubsets (apiId : ℕ) (kept : List ℕ)
  | cancelRequestsOf (userId : ℕ)
  | beside (beside : Beside)

def besideStep (beside : Beside) : AccessService Unit :=
  atomic fun s _ => some (.ok (), beside.change s)

def accessProgram (slot : ℕ) : AccessOp → Program World Outcome Unit
  | .request user apiId applicationId tools =>
    (request slot user apiId applicationId tools).toProgram
  | .requestTools user grantId tools => (requestTools slot user grantId tools).toProgram
  | .cancel user requestId => (cancel user requestId).toProgram
  | .deny actor requestId => (deny actor requestId).toProgram
  | .approve actor requestId tools => (approve slot actor requestId tools).toProgram
  | .withdraw actor grantId mode retries =>
    (withdrawGrant slot actor grantId mode retries).toProgram
  | .revokeAllForUser actor userId => (revokeAllForUser slot actor userId).toProgram
  | .runJob subjectId => (runJob slot subjectId).toProgram
  | .releaseStale subjectId => (commit (releaseStale subjectId)).toProgram
  | .pruneToolSubsets apiId kept => (commit (pruneToolSubsets apiId kept)).toProgram
  | .cancelRequestsOf userId => (commit (cancelRequestsOf userId)).toProgram
  | .beside beside => (besideStep beside).toProgram

/-- The keys of a crashed operation expire. -/
def vacate (slot : ℕ) (s : World) : World where
  __ := s
  holders := fun key => if s.holders key = some slot then none else s.holders key

/-- A portal in which nobody has asked for anything yet. -/
structure Unused (s : World) : Prop where
  requests : s.requests = fun _ => none
  grants : s.grants = fun _ => none
  audits : s.audits = []
  apis : ApisById s

theorem Unused.inOrder {s : World} (h : Unused s) : InOrder s where
  orderly := by
    have hbooks : books s = ⟨fun _ => none, fun _ => none, [], s.fresh⟩ := by
      simp [books, h.requests, h.grants, h.audits]
    rw [hbooks]
    exact Books.orderly_empty s.fresh
  apis := h.apis

section Runs

theorem bookkeeps_beside {K : World → Prop} (hK : Remembers K) (beside : Beside) :
    KeepsBooks K (besideStep beside) := by
  refine bookkeeps_atomic hK fun s o r s' _ h => ?_
  cases h
  refine ⟨⟨?_, beside.apis s⟩, fun _ _ => trivial⟩
  exact enters_of_draw (beside.requests s) (beside.grants s) (beside.audits s) (beside.fresh s)

/-- Each operation, one after the other. -/
theorem bookkeeps_accessProgram (slot : ℕ) {s : World} (op : AccessOp) (hs : InOrder s) :
    wp Move Move (accessProgram slot op) (fun _ _ => True) s := by
  have hK := remembers_inOrder
  cases op with
  | request user apiId applicationId tools =>
    exact (bookkeeps_request hK user apiId applicationId tools).toProgram hs
  | requestTools user grantId tools =>
    exact (bookkeeps_requestTools hK user grantId tools).toProgram hs
  | cancel user requestId => exact (bookkeeps_cancel hK user requestId).toProgram hs
  | deny actor requestId => exact (bookkeeps_deny hK actor requestId).toProgram hs
  | approve actor requestId tools => exact (bookkeeps_approve hK actor requestId tools).toProgram hs
  | withdraw actor grantId mode retries =>
    exact (bookkeeps_withdrawGrant hK actor grantId mode retries).toProgram hs
  | revokeAllForUser actor userId => exact (bookkeeps_revokeAllForUser hK actor userId).toProgram hs
  | runJob subjectId => exact (bookkeeps_runJob hK subjectId).toProgram hs
  | releaseStale subjectId =>
    have hcommit : KeepsBooks InOrder (commit (releaseStale subjectId)) :=
      keepsBooks_commit hK (leavesApis_releaseStale _) fun _ _ _ _ => enters_releaseStale
    exact hcommit.toProgram hs
  | pruneToolSubsets apiId kept =>
    have hcommit : KeepsBooks InOrder (commit (pruneToolSubsets apiId kept)) :=
      keepsBooks_commit hK (leavesApis_pruneToolSubsets _ _) fun _ _ _ _ => enters_pruneToolSubsets
    exact hcommit.toProgram hs
  | cancelRequestsOf userId =>
    have hcommit : KeepsBooks InOrder (commit (cancelRequestsOf userId)) :=
      keepsBooks_commit hK (leavesApis_cancelRequestsOf _) fun _ _ _ _ => enters_cancelRequestsOf
    exact hcommit.toProgram hs
  | beside beside => exact (bookkeeps_beside hK beside).toProgram hs

theorem move_vacate (slot : ℕ) (s : World) : Move s (vacate slot s) :=
  move_of_books (by simp [books, vacate]) (by simp [vacate])

abbrev AccessReachable (s : World) (ts : ℕ → Option (Program World Outcome Unit)) : Prop :=
  Pool.Reachable accessProgram Unused (fun _ _ => True) vacate s ts

variable {s s' : World} {ts : ℕ → Option (Program World Outcome Unit)}

theorem inOrder_of_reachable (h : AccessReachable s ts) : InOrder s :=
  (Pool.invariant_of_moves (fun _ hs => hs.inOrder) Move.refl (fun _ _ _ h h' => h.trans h')
    (fun _ _ h => h) move_vacate (fun _ _ hs hmove => hmove.inOrder hs)
    (fun slot _ op hs => bookkeeps_accessProgram slot op hs) h).1

/-- An API of somebody else, with two tools and no proxy. -/
def frontDesk : World where
  rows := []
  consumers _ := none
  users id := [⟨0, .client, .active⟩, ⟨1, .admin, .active⟩][id]?
  applications _ := none
  mappings := []
  identities := []
  apis id := [⟨0, 1, none, true, true, none, some [some 5, some 6]⟩][id]?
  grants _ := none
  requests _ := none
  jobs _ := none
  teardownJobs := []
  audits := []
  recoveryPending _ := false
  holders _ := none
  redacts := false
  fresh := 2
  now := 0
  removals := []
  slips := []

theorem unused_frontDesk : Unused frontDesk where
  requests := rfl
  grants := rfl
  audits := rfl
  apis id api h := by
    match id with
    | 0 =>
      cases h
      rfl
    | _ + 1 => simp [frontDesk] at h

def answered (slot n : ℕ) : List (Pool.Event AccessOp Outcome) :=
  List.replicate n (.step slot .ok)

/-- Somebody asks for both tools. -/
def bothAsked : List (Pool.Event AccessOp Outcome) :=
  .start 0 (.request ⟨0, .client, .active⟩ 0 none (some [5, 6])) :: answered 0 6 ++ [.finish 0]

/-- An admin approves the first of them, up to so many actions. -/
def oneApproved (n : ℕ) : List (Pool.Event AccessOp Outcome) :=
  bothAsked ++ .start 1 (.approve ⟨1, .admin, .active⟩ 2 (some (some [5]))) :: answered 1 n

/-- Nobody holds two grants for an API or waits twice for one, and every grant
goes back to what its holder asked for. -/
theorem justified_of_reachable (h : AccessReachable s ts) :
    (books s).Sole ∧ (books s).Justified :=
  ⟨(inOrder_of_reachable h).orderly.sole, (inOrder_of_reachable h).orderly.justified⟩

theorem justified_of_reachable_approved : ∃ s ts, AccessReachable s ts ∧
    s.grants 6 = some ⟨6, 0, 0, none, some 2, some [5], .active, none, none⟩ ∧
      (books s).Sole ∧ (books s).Justified := by
  obtain ⟨s, ts, hs, hgrant⟩ := Pool.exists_reachable_of_exec accessProgram Unused
    (fun _ _ => True) vacate (oneApproved 24)
    (fun s => s.grants 6 == some ⟨6, 0, 0, none, some 2, some [5], .active, none, none⟩)
    (fun _ _ => trivial) unused_frontDesk (by decide +kernel)
  exact ⟨s, ts, hs, beq_iff_eq.mp hgrant, justified_of_reachable hs⟩

/-- The audit rows account for every request and every grant. -/
theorem balanced_of_reachable (h : AccessReachable s ts) : (books s).Balanced :=
  (inOrder_of_reachable h).orderly.balanced

/-- The approval crashed before its gateway step, and the worker put the request
back. -/
theorem balanced_of_reachable_crashed : ∃ s ts, AccessReachable s ts ∧
    s.audits = [⟨.accessRequest, 2⟩, ⟨.accessApproveRollback, 2⟩] ∧ (books s).Balanced := by
  obtain ⟨s, ts, hs, haudits⟩ := Pool.exists_reachable_of_exec accessProgram Unused
    (fun _ _ => True) vacate (oneApproved 16 ++ [.crash 1, .start 2 (.releaseStale 2)] ++
      answered 2 1 ++ .finish 2 :: .start 3 (.runJob 2) :: answered 3 13)
    (fun s => s.audits == [⟨.accessRequest, 2⟩, ⟨.accessApproveRollback, 2⟩])
    (fun _ _ => trivial) unused_frontDesk (by decide +kernel)
  exact ⟨s, ts, hs, beq_iff_eq.mp haudits, balanced_of_reachable hs⟩

/-- Every action of every operation is a chain of entries in the books, so no
row goes away or changes whose it is, a denial is final, and the audit rows
only grow. -/
theorem entries_of_transition
    (h : Pool.Transition accessProgram Unused (fun _ _ => True) vacate s s') :
    Books.Entries (books s) (books s') ∧ (books s).Kept (books s') := by
  obtain ⟨hs, hmove⟩ := Pool.move_of_transition (fun _ hs => hs.inOrder) Move.refl
    (fun _ _ _ h h' => h.trans h') (fun _ _ h => h) move_vacate
    (fun _ _ hs hmove => hmove.inOrder hs)
    (fun slot _ op hs => bookkeeps_accessProgram slot op hs) h
  exact ⟨hmove.enters hs.orderly, hmove.kept hs⟩

/-- The action that commits a grant. -/
theorem entries_of_transition_approved : ∃ s s',
    Pool.Transition accessProgram Unused (fun _ _ => True) vacate s s' ∧ s.grants 6 = none ∧
      (s'.grants 6).isSome = true ∧ Books.Entries (books s) (books s') ∧
        (books s).Kept (books s') := by
  obtain ⟨s, s', h, hp⟩ := Pool.exists_transition accessProgram Unused (fun _ _ => True) vacate
    (oneApproved 22) 1 .ok (fun s s' => (s.grants 6).isNone && (s'.grants 6).isSome)
    (fun _ _ => trivial) unused_frontDesk (by decide +kernel)
  simp only [Bool.and_eq_true, Option.isNone_iff_eq_none] at hp
  exact ⟨s, s', h, hp.1, hp.2, entries_of_transition h⟩

end Runs

end FerrumNexus.Access
