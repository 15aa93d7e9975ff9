import FerrumNexus.Access.Rows
import Mathlib.Logic.Relation

/-!
# The books of the access service

What the access service decides is in three tables: its requests, its grants
and its audit rows. Whatever an operation does to them is a chain of entries,
each of which moves one row and writes the audit rows that go with it. This
module is about entries alone. It names no operation.
-/
namespace FerrumNexus.Access

open Platform Portal

structure Books where
  requests : ℕ → Option AccessRequestRecord
  grants : ℕ → Option GrantRecord
  audits : List AuditRecord
  fresh : ℕ

namespace Books

variable {b b' : Books} {id : ℕ}

def NonePending (b : Books) (apiId : ℕ) (k : Identity) : Prop :=
  ∀ id request, b.requests id = some request → request.apiId = apiId → request.identity = k →
    request.status ≠ .pending

def NoneActive (b : Books) (apiId : ℕ) (k : Identity) : Prop :=
  ∀ id grant, b.grants id = some grant → grant.apiId = apiId → grant.identity = k →
    grant.status ≠ .active

def putRequest (id : ℕ) (request : AccessRequestRecord) (b : Books) : Books :=
  { b with requests := Function.update b.requests id (some request) }

def putGrant (id : ℕ) (grant : GrantRecord) (b : Books) : Books :=
  { b with grants := Function.update b.grants id (some grant) }

def note (action : AuditAction) (targetId : ℕ) (b : Books) : Books :=
  { b with audits := b.audits ++ [⟨action, targetId⟩] }

def noteIf (row : Option AuditAction) (targetId : ℕ) (b : Books) : Books :=
  { b with audits := b.audits ++ row.toList.map (⟨·, targetId⟩) }

def draw (fresh : ℕ) (b : Books) : Books := { b with fresh := fresh }

/-- How often an action was recorded of a row. -/
def noted (b : Books) (action : AuditAction) (targetId : ℕ) : ℕ :=
  b.audits.count ⟨action, targetId⟩

/-- How many grants were made from a request. -/
def grantsFrom (b : Books) (requestId : ℕ) : ℕ :=
  (List.range b.fresh).countP fun id => (b.grants id).any (·.accessRequestId == some requestId)

section Rows

variable (id id' targetId fresh : ℕ) (request : AccessRequestRecord) (grant : GrantRecord)
  (action : AuditAction) (row : Option AuditAction) (b : Books)

@[simp] theorem requests_putRequest : (b.putRequest id request).requests id' =
    if id' = id then some request else b.requests id' := by
  simp [putRequest, Function.update_apply]

@[simp] theorem grants_putRequest : (b.putRequest id request).grants = b.grants := by
  simp [putRequest]

@[simp] theorem fresh_putRequest : (b.putRequest id request).fresh = b.fresh := by
  simp [putRequest]

@[simp] theorem noted_putRequest :
    (b.putRequest id request).noted action targetId = b.noted action targetId := by
  simp [putRequest, noted]

@[simp] theorem requests_putGrant : (b.putGrant id grant).requests = b.requests := by
  simp [putGrant]

@[simp] theorem grants_putGrant : (b.putGrant id grant).grants id' =
    if id' = id then some grant else b.grants id' := by
  simp [putGrant, Function.update_apply]

@[simp] theorem fresh_putGrant : (b.putGrant id grant).fresh = b.fresh := by
  simp [putGrant]

@[simp] theorem noted_putGrant :
    (b.putGrant id grant).noted action targetId = b.noted action targetId := by
  simp [putGrant, noted]

@[simp] theorem requests_note : (b.note action id).requests = b.requests := by
  simp [note]

@[simp] theorem grants_note : (b.note action id).grants = b.grants := by
  simp [note]

@[simp] theorem fresh_note : (b.note action id).fresh = b.fresh := by
  simp [note]

@[simp] theorem requests_noteIf : (b.noteIf row id).requests = b.requests := by
  simp [noteIf]

@[simp] theorem grants_noteIf : (b.noteIf row id).grants = b.grants := by
  simp [noteIf]

@[simp] theorem fresh_noteIf : (b.noteIf row id).fresh = b.fresh := by
  simp [noteIf]

@[simp] theorem requests_draw : (b.draw fresh).requests = b.requests := by
  simp [draw]

@[simp] theorem grants_draw : (b.draw fresh).grants = b.grants := by
  simp [draw]

@[simp] theorem fresh_draw : (b.draw fresh).fresh = fresh := by
  simp [draw]

@[simp] theorem noted_draw : (b.draw fresh).noted action targetId = b.noted action targetId := by
  simp [draw, noted]

theorem noteIf_none : b.noteIf none id = b := by
  simp [noteIf]

theorem noteIf_some : b.noteIf (some action) id = b.note action id := by
  simp [noteIf, note]

theorem noted_note (action' : AuditAction) : (b.note action id).noted action' targetId =
    b.noted action' targetId + if action = action' ∧ id = targetId then 1 else 0 := by
  simp [note, noted, List.count_append, List.count_singleton, beq_iff_eq]

theorem noted_noteIf (action' : AuditAction) : (b.noteIf row id).noted action' targetId =
    b.noted action' targetId + if row = some action' ∧ id = targetId then 1 else 0 := by
  cases row with
  | none => simp [noteIf, noted]
  | some action => simp [noteIf, noted, List.count_append, List.count_singleton, beq_iff_eq]

end Rows

end Books

/-- The rows that say what became of a gateway step, and decide nothing. -/
def remarks : AuditAction → Bool
  | .accessApproveRollback => true
  | .accessToolsApproveRollback => true
  | .accessRevokeRollback => true
  | .accessRevokeComplete => true
  | _ => false

/-- What the request of a grant, or of more tools on one, is recorded as. -/
def askedAs (request : AccessRequestRecord) : AuditAction :=
  if request.grantId.isSome then .accessToolsRequest else .accessRequest

/-- How a request moves, with the audit row of the move if it has one. -/
inductive Turn (old new : AccessRequestRecord) : Option AuditAction → Prop
  | deny (hold : old.status = .pending) (hnew : new.status = .denied) :
      Turn old new (some .accessDeny)
  | cancel (hold : old.status = .pending) (hnew : new.status = .cancelled) :
      Turn old new (some .accessCancel)
  | approve (hold : old.status = .pending) (hnew : new.status = .approved) : Turn old new none
  | reset (hold : old.status = .pending) (hnew : new.status = .cancelled)
      (hsame : new.decidedBy = old.decidedBy) : Turn old new none
  | reopen (hold : old.status = .approved) (hnew : new.status = .pending)
      (hnobody : new.decidedBy = none) : Turn old new none
  | close (hold : old.status = .approved) (hnew : new.status = .cancelled)
      (hnobody : new.decidedBy = none) : Turn old new none
  | revoke (hold : old.status = .approved) (hnew : new.status = .revoked) : Turn old new none
  | restore (hold : old.status = .revoked) (hnew : new.status = .approved) : Turn old new none
  | uncancel (hold : old.status = .cancelled) (hnew : new.status = .pending)
      (hnobody : new.decidedBy = none) : Turn old new none

variable {old new : AccessRequestRecord} {row : Option AuditAction}

theorem Turn.not_denied (h : Turn old new row) : old.status ≠ .denied := by
  cases h <;> simp_all

theorem Turn.denied_iff (h : Turn old new row) : new.status = .denied ↔ row = some .accessDeny := by
  cases h <;> simp_all

theorem Turn.cancelled (h : Turn old new row)
    (hundecided : old.status = .pending → old.decidedBy = none) (hst : new.status = .cancelled)
    (hdecided : new.decidedBy.isSome = true) :
    row = some .accessCancel := by
  cases h <;> simp_all

theorem Turn.undecided (h : Turn old new row) (hst : new.status = .pending) :
    new.decidedBy = none := by
  cases h <;> simp_all

theorem Turn.row_eq (h : Turn old new row) :
    row = none ∨ row = some .accessDeny ∨ row = some .accessCancel := by
  cases h <;> simp

/-- The tools of a new grant are among those its request asked for, which are
all of them if it names none. -/
def WithinRequest (tools : Option (List ℕ)) (request : AccessRequestRecord) : Prop :=
  ∀ asked, request.requestedTools = some asked → ∃ given, tools = some given ∧ given ⊆ asked

/-- One entry of the books. -/
inductive Entry (b : Books) : Books → Prop
  | draw {fresh : ℕ} (h : b.fresh ≤ fresh) : Entry b (b.draw fresh)
  | remark {action : AuditAction} (targetId : ℕ) (h : remarks action = true) :
      Entry b (b.note action targetId)
  | ask {request : AccessRequestRecord} (hid : request.id = b.fresh)
      (hst : request.status = .pending)
      (hnobody : request.decidedBy = none)
      (hnone : b.NonePending request.apiId request.identity)
      (hgrant : ∀ grantId, request.grantId = some grantId → ∃ grant, b.grants grantId = some grant ∧
        grant.apiId = request.apiId ∧ grant.identity = request.identity) :
      Entry b (((b.putRequest b.fresh request).draw (b.fresh + 1)).note (askedAs request) b.fresh)
  | turn {id : ℕ} {old new : AccessRequestRecord} {row : Option AuditAction}
      (hold : b.requests id = some old) (hsame : SameRequest old new) (hturn : Turn old new row)
      (hnone : new.status = .pending → b.NonePending old.apiId old.identity) :
      Entry b ((b.putRequest id new).noteIf row id)
  | grant {grant : GrantRecord} {requestId : ℕ} {request : AccessRequestRecord}
      (hid : grant.id = b.fresh) (hst : grant.status = .active)
      (hnone : b.NoneActive grant.apiId grant.identity)
      (hfrom : grant.accessRequestId = some requestId)
      (hrequest : b.requests requestId = some request) (hasked : request.grantId = none)
      (hapi : request.apiId = grant.apiId) (hidentity : request.identity = grant.identity)
      (htools : WithinRequest grant.approvedTools request) :
      Entry b (((b.putGrant b.fresh grant).draw (b.fresh + 1)).note .accessApprove requestId)
  | widen {id requestId : ℕ} {old new : GrantRecord} {request : AccessRequestRecord}
      {current added : List ℕ} (hold : b.grants id = some old) (hst : old.status = .active)
      (hsame : SameGrant old new) (hst' : new.status = .active)
      (hcurrent : old.approvedTools = some current)
      (hnext : new.approvedTools = some (current ++ added))
      (hrequest : b.requests requestId = some request) (hasked : request.grantId = some id)
      (htools : added ⊆ request.requestedTools.getD []) :
      Entry b ((b.putGrant id new).note .accessToolsApprove requestId)
  | narrow {id : ℕ} {old new : GrantRecord} {current kept : List ℕ} (hold : b.grants id = some old)
      (hsame : SameGrant old new) (hst : new.status = old.status)
      (hcurrent : old.approvedTools = some current) (hnext : new.approvedTools = some kept)
      (hkept : kept ⊆ current) : Entry b (b.putGrant id new)
  | revoke {id : ℕ} {old new : GrantRecord} (hold : b.grants id = some old)
      (hst : old.status = .active) (hsame : SameGrant old new) (hst' : new.status = .revoked)
      (htools : new.approvedTools = old.approvedTools) :
      Entry b ((b.putGrant id new).note .accessRevoke id)
  | restore {id : ℕ} {old new : GrantRecord} (hold : b.grants id = some old)
      (hst : old.status = .revoked) (hsame : SameGrant old new) (hst' : new.status = .active)
      (htools : new.approvedTools = old.approvedTools)
      (hnone : b.NoneActive old.apiId old.identity) : Entry b (b.putGrant id new)

/-! ## What the books keep -/

namespace Books

variable {b b' : Books} {id : ℕ}

/-- Every row stands under its own id, one that was drawn, and of an identity
and API at most one request is pending and one grant active. -/
structure Sole (b : Books) : Prop where
  requestId : ∀ id request, b.requests id = some request → request.id = id ∧ id < b.fresh
  grantId : ∀ id grant, b.grants id = some grant → grant.id = id ∧ id < b.fresh
  onePending : ∀ id id' request request', b.requests id = some request →
    b.requests id' = some request' → request.apiId = request'.apiId →
    request.identity = request'.identity → request.status = .pending →
    request'.status = .pending → id = id'
  oneActive : ∀ id id' grant grant', b.grants id = some grant → b.grants id' = some grant' →
    grant.apiId = grant'.apiId → grant.identity = grant'.identity → grant.status = .active →
    grant'.status = .active → id = id'

/-! ## One row each -/

theorem Sole.congr (h : b.Sole) (hr : b'.requests = b.requests) (hg : b'.grants = b.grants)
    (hf : b.fresh ≤ b'.fresh) : b'.Sole where
  requestId id request hreq := by
    obtain ⟨hid, hlt⟩ := h.requestId id request (hr ▸ hreq)
    exact ⟨hid, by omega⟩
  grantId id grant hgrant := by
    obtain ⟨hid, hlt⟩ := h.grantId id grant (hg ▸ hgrant)
    exact ⟨hid, by omega⟩
  onePending := by
    rw [hr]
    exact h.onePending
  oneActive := by
    rw [hg]
    exact h.oneActive

/-- A request put in a row: a new one, or the one that was there. -/
theorem Sole.putRequest {request : AccessRequestRecord} (h : b.Sole) (hid : request.id = id)
    (hlt : id < b.fresh)
    (hnone : request.status = .pending → b.NonePending request.apiId request.identity) :
    (b.putRequest id request).Sole where
  requestId id' request' hreq := by
    rw [requests_putRequest] at hreq
    split at hreq
    · obtain rfl := Option.some.inj hreq
      exact ⟨by omega, by simpa using by omega⟩
    · simpa using h.requestId id' request' hreq
  grantId := by simpa using h.grantId
  onePending id₁ id₂ r₁ r₂ h₁ h₂ hapi hident hp₁ hp₂ := by
    rw [requests_putRequest] at h₁ h₂
    split at h₁
    · obtain rfl := Option.some.inj h₁
      split at h₂
      · omega
      · exact absurd hp₂ (hnone hp₁ id₂ r₂ h₂ hapi.symm hident.symm)
    · split at h₂
      · obtain rfl := Option.some.inj h₂
        exact absurd hp₁ (hnone hp₂ id₁ r₁ h₁ hapi hident)
      · exact h.onePending id₁ id₂ r₁ r₂ h₁ h₂ hapi hident hp₁ hp₂
  oneActive := by simpa using h.oneActive

variable {grant : GrantRecord}

theorem Sole.putGrant (h : b.Sole) (hid : grant.id = id) (hlt : id < b.fresh)
    (hnone : grant.status = .active →
      ∀ id' other, b.grants id' = some other → id' ≠ id → other.apiId = grant.apiId →
        other.identity = grant.identity → other.status ≠ .active) :
    (b.putGrant id grant).Sole where
  requestId := by simpa using h.requestId
  grantId id' grant' hg := by
    rw [grants_putGrant] at hg
    split at hg
    · obtain rfl := Option.some.inj hg
      exact ⟨by omega, by simpa using by omega⟩
    · simpa using h.grantId id' grant' hg
  onePending := by simpa using h.onePending
  oneActive id₁ id₂ g₁ g₂ h₁ h₂ hapi hident ha₁ ha₂ := by
    rw [grants_putGrant] at h₁ h₂
    split at h₁
    · obtain rfl := Option.some.inj h₁
      split at h₂
      · omega
      · rename_i hne
        exact absurd ha₂ (hnone ha₁ id₂ g₂ h₂ hne hapi.symm hident.symm)
    · rename_i hne
      split at h₂
      · obtain rfl := Option.some.inj h₂
        exact absurd ha₁ (hnone ha₂ id₁ g₁ h₁ hne hapi hident)
      · exact h.oneActive id₁ id₂ g₁ g₂ h₁ h₂ hapi hident ha₁ ha₂

/-- The others are not active while one is. -/
theorem Sole.others (h : b.Sole) (hg : b.grants id = some grant) (hst : grant.status = .active)
    {id' : ℕ} {other : GrantRecord} (ho : b.grants id' = some other) (hne : id' ≠ id)
    (hapi : other.apiId = grant.apiId) (hident : other.identity = grant.identity) :
    other.status ≠ .active :=
  fun hst' => hne (h.oneActive id' id other grant ho hg hapi hident hst' hst)

/-- No entry makes a second pending request or active grant of an identity and API. -/
theorem Sole.entry (h : b.Sole) (he : Entry b b') : b'.Sole := by
  cases he with
  | draw hle => exact h.congr (by simp) (by simp) (by simpa using hle)
  | remark targetId _ => exact h.congr (by simp) (by simp) (by simp)
  | ask hid hst _ hnone _ =>
    have hdrawn : (b.draw (b.fresh + 1)).Sole := h.congr (by simp) (by simp) (by simp)
    have hput := hdrawn.putRequest hid (by simp) fun _ => hnone
    exact hput.congr (by simp [Books.draw, Books.putRequest]) (by simp) (by simp)
  | turn hold hsame _ hnone =>
    obtain ⟨hid, hlt⟩ := h.requestId _ _ hold
    have hput := h.putRequest (hsame.1.trans hid) hlt fun hst => ?_
    · exact hput.congr (by simp) (by simp) (by simp)
    · rw [hsame.2.1, hsame.2.2.1]
      exact hnone hst
  | grant hid _ hnone _ _ _ _ _ _ =>
    have hdrawn : (b.draw (b.fresh + 1)).Sole := h.congr (by simp) (by simp) (by simp)
    have hput := hdrawn.putGrant hid (by simp) fun _ id' other ho _ => hnone id' other ho
    exact hput.congr (by simp) (by simp [Books.draw, Books.putGrant]) (by simp)
  | widen hold hst hsame _ _ _ _ _ _ =>
    obtain ⟨hid, hlt⟩ := h.grantId _ _ hold
    have hput := h.putGrant (hsame.1.trans hid) hlt fun _ id' other ho hne hapi hident =>
      h.others hold hst ho hne (hapi.trans hsame.2.1) (hident.trans hsame.2.2.1)
    exact hput.congr (by simp) (by simp) (by simp)
  | narrow hold hsame hst _ _ _ =>
    obtain ⟨hid, hlt⟩ := h.grantId _ _ hold
    refine h.putGrant (hsame.1.trans hid) hlt fun hactive id' other ho hne hapi hident => ?_
    exact h.others hold (hst ▸ hactive) ho hne (hapi.trans hsame.2.1) (hident.trans hsame.2.2.1)
  | revoke hold hst hsame hst' _ =>
    obtain ⟨hid, hlt⟩ := h.grantId _ _ hold
    have hput := h.putGrant (hsame.1.trans hid) hlt fun hactive => by simp [hst'] at hactive
    exact hput.congr (by simp) (by simp) (by simp)
  | restore hold _ hsame _ _ hnone =>
    obtain ⟨hid, hlt⟩ := h.grantId _ _ hold
    refine h.putGrant (hsame.1.trans hid) hlt fun _ id' other ho _ hapi hident => ?_
    exact hnone id' other ho (hapi.trans hsame.2.1) (hident.trans hsame.2.2.1)

/-! ## What is never undone -/

/-- Rows never go away and stay about whom and what they are about, a denial is
final, and the audit rows only grow. -/
structure Kept (b b' : Books) : Prop where
  requests : ∀ id request, b.requests id = some request → ∃ request',
    b'.requests id = some request' ∧ SameRequest request request' ∧
      (request.status = .denied → request' = request)
  grants : ∀ id grant, b.grants id = some grant → ∃ grant', b'.grants id = some grant' ∧
    SameGrant grant grant'
  audits : b.audits <+: b'.audits
  fresh : b.fresh ≤ b'.fresh

theorem Kept.refl (b : Books) : b.Kept b where
  requests _ request h := ⟨request, h, SameRequest.refl request, fun _ => rfl⟩
  grants _ grant h := ⟨grant, h, SameGrant.refl grant⟩
  audits := List.prefix_rfl
  fresh := le_rfl

theorem Kept.trans {b'' : Books} (h : b.Kept b') (h' : b'.Kept b'') : b.Kept b'' where
  requests id request hr := by
    obtain ⟨r₁, hr₁, hsame₁, hfinal₁⟩ := h.requests id request hr
    obtain ⟨r₂, hr₂, hsame₂, hfinal₂⟩ := h'.requests id r₁ hr₁
    refine ⟨r₂, hr₂, hsame₁.trans hsame₂, fun hst => ?_⟩
    have heq := hfinal₁ hst
    exact (hfinal₂ (heq ▸ hst)).trans heq
  grants id grant hg := by
    obtain ⟨g₁, hg₁, hsame₁⟩ := h.grants id grant hg
    obtain ⟨g₂, hg₂, hsame₂⟩ := h'.grants id g₁ hg₁
    exact ⟨g₂, hg₂, hsame₁.trans hsame₂⟩
  audits := h.audits.trans h'.audits
  fresh := h.fresh.trans h'.fresh

/-- Putting a request where there was none, or one it may replace. -/
theorem kept_putRequest {request : AccessRequestRecord} (hold : ∀ old, b.requests id = some old →
    SameRequest old request ∧ old.status ≠ .denied) : b.Kept (b.putRequest id request) where
  requests id' old ho := by
    by_cases hid : id' = id
    · subst hid
      obtain ⟨hsame, hst⟩ := hold old ho
      exact ⟨request, by simp, hsame, fun h => absurd h hst⟩
    · exact ⟨old, by simpa [hid] using ho, SameRequest.refl old, fun _ => rfl⟩
  grants id' grant hg := ⟨grant, by simpa using hg, SameGrant.refl grant⟩
  audits := by simp [Books.putRequest]
  fresh := by simp

theorem kept_putGrant (hold : ∀ old, b.grants id = some old →
    SameGrant old grant) : b.Kept (b.putGrant id grant) where
  requests id' old ho := ⟨old, by simpa using ho, SameRequest.refl old, fun _ => rfl⟩
  grants id' old ho := by
    by_cases hid : id' = id
    · subst hid
      exact ⟨grant, by simp, hold old ho⟩
    · exact ⟨old, by simpa [hid] using ho, SameGrant.refl old⟩
  audits := by simp [Books.putGrant]
  fresh := by simp

theorem kept_replaceGrant {old : GrantRecord} (hold : b.grants id = some old)
    (hsame : SameGrant old grant) : b.Kept (b.putGrant id grant) :=
  kept_putGrant fun _ ho => Option.some.inj (hold.symm.trans ho) ▸ hsame

theorem kept_noteIf (row : Option AuditAction) (id : ℕ) : b.Kept (b.noteIf row id) where
  requests id' request h := ⟨request, by simpa using h, SameRequest.refl request, fun _ => rfl⟩
  grants id' grant h := ⟨grant, by simpa using h, SameGrant.refl grant⟩
  audits := by simp [noteIf]
  fresh := by simp

theorem kept_note (action : AuditAction) (id : ℕ) : b.Kept (b.note action id) := by
  simpa [note, noteIf] using kept_noteIf (b := b) (some action) id

theorem kept_draw {fresh : ℕ} (h : b.fresh ≤ fresh) : b.Kept (b.draw fresh) where
  requests id' request h := ⟨request, by simpa using h, SameRequest.refl request, fun _ => rfl⟩
  grants id' grant h := ⟨grant, by simpa using h, SameGrant.refl grant⟩
  audits := by simp [draw]
  fresh := by simpa using h

/-- An entry loses no row, and only adds to the audit log. -/
theorem Sole.entry_kept (h : b.Sole) (he : Entry b b') : b.Kept b' := by
  cases he with
  | draw hle => exact kept_draw hle
  | remark targetId _ => exact kept_note _ targetId
  | @ask request _ _ _ _ _ =>
    have hput : b.Kept (b.putRequest b.fresh request) := kept_putRequest fun old hold => by
      have := (h.requestId _ _ hold).2
      omega
    exact (hput.trans (kept_draw (by simp))).trans (kept_note _ _)
  | @turn id old new row hold hsame hturn _ =>
    have hput : b.Kept (b.putRequest id new) := kept_putRequest fun other ho => by
      obtain rfl := Option.some.inj (hold.symm.trans ho)
      exact ⟨hsame, hturn.not_denied⟩
    exact hput.trans (kept_noteIf _ _)
  | @grant grant _ _ _ _ _ _ _ _ _ _ _ =>
    have hput : b.Kept (b.putGrant b.fresh grant) := kept_putGrant fun old hold => by
      have := (h.grantId _ _ hold).2
      omega
    exact (hput.trans (kept_draw (by simp))).trans (kept_note _ _)
  | widen hold _ hsame _ _ _ _ _ _ => exact (kept_replaceGrant hold hsame).trans (kept_note _ _)
  | revoke hold _ hsame _ _ => exact (kept_replaceGrant hold hsame).trans (kept_note _ _)
  | narrow hold hsame _ _ _ _ => exact kept_replaceGrant hold hsame
  | restore hold _ hsame _ _ _ => exact kept_replaceGrant hold hsame

end Books

end FerrumNexus.Access
