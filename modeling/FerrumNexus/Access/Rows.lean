import FerrumNexus.Access.Revocation

/-!
# The rows a transaction writes

What never changes about a request or a grant, the single writes the
transactions of the access service are made of, and what each of their steps
can do.
-/
namespace FerrumNexus.Access

open Saga Platform Portal Credentials

/-! ## Requests and grants -/

/-- The grant with this id is one of the identity for the API. -/
def GrantFor (s : World) (apiId : ℕ) (k : Identity) (id : ℕ) (grant : GrantRecord) : Prop :=
  s.grants id = some grant ∧ grant.apiId = apiId ∧ grant.identity = k

/-- What never changes about a request. -/
def SameRequest (a b : AccessRequestRecord) : Prop :=
  b.id = a.id ∧ b.apiId = a.apiId ∧ b.identity = a.identity ∧
    b.requestedTools = a.requestedTools ∧ b.grantId = a.grantId

/-- What never changes about a grant. -/
def SameGrant (a b : GrantRecord) : Prop :=
  b.id = a.id ∧ b.apiId = a.apiId ∧ b.identity = a.identity ∧
    b.accessRequestId = a.accessRequestId

theorem SameRequest.refl (request : AccessRequestRecord) : SameRequest request request :=
  ⟨rfl, rfl, rfl, rfl, rfl⟩

theorem SameRequest.trans {a b c : AccessRequestRecord} (h : SameRequest a b)
    (h' : SameRequest b c) : SameRequest a c :=
  ⟨h'.1.trans h.1, h'.2.1.trans h.2.1, h'.2.2.1.trans h.2.2.1, h'.2.2.2.1.trans h.2.2.2.1,
    h'.2.2.2.2.trans h.2.2.2.2⟩

theorem SameGrant.refl (grant : GrantRecord) : SameGrant grant grant :=
  ⟨rfl, rfl, rfl, rfl⟩

theorem SameGrant.trans {a b c : GrantRecord} (h : SameGrant a b) (h' : SameGrant b c) :
    SameGrant a c :=
  ⟨h'.1.trans h.1, h'.2.1.trans h.2.1, h'.2.2.1.trans h.2.2.1, h'.2.2.2.trans h.2.2.2⟩

section Rows

variable {s s' : World} {α β : Type}

/-- The request an operation loaded is still there. -/
def Known (s : World) (request : AccessRequestRecord) : Prop :=
  ∃ row, s.requests request.id = some row ∧ SameRequest request row

/-! ## Single writes -/

def putJob (id : ℕ) (job : AccessGatewayJobRecord) (fresh : ℕ) (s : World) : World :=
  { s with jobs := Function.update s.jobs id (some job), fresh := fresh }

def eraseJob (id : ℕ) (s : World) : World :=
  { s with jobs := Function.update s.jobs id none }

def putRequest (id : ℕ) (request : AccessRequestRecord) (s : World) : World :=
  { s with requests := Function.update s.requests id (some request) }

theorem requests_putRequest (id id' : ℕ) (request : AccessRequestRecord) :
    (putRequest id request s).requests id' = if id' = id then some request else s.requests id' :=
  Function.update_apply s.requests id (some request) id'

def putGrant (id : ℕ) (grant : GrantRecord) (s : World) : World :=
  { s with grants := Function.update s.grants id (some grant) }

/-! ## Steps of a transaction -/

theorem tx_bind {x : Tx α} {f : α → Tx β} {b : β} (h : (x >>= f) s = .ok (b, s')) :
    ∃ a s₁, x s = .ok (a, s₁) ∧ f a s₁ = .ok (b, s') := by
  change (x s >>= fun r => f r.1 r.2) = .ok (b, s') at h
  cases hx : x s with
  | error e =>
    rw [hx] at h
    cases h
  | ok r =>
    rw [hx] at h
    exact ⟨r.1, r.2, rfl, h⟩

theorem tx_pure {a b : α} (h : (pure a : Tx α) s = .ok (b, s')) : a = b ∧ s = s' := by
  cases h
  exact ⟨rfl, rfl⟩

theorem tx_read {f : World → α} {a : α} (h : txRead f s = .ok (a, s')) : f s = a ∧ s = s' := by
  cases h
  exact ⟨rfl, rfl⟩

theorem tx_throw {e : NexusError} {a : α} (h : (throw e : Tx α) s = .ok (a, s')) : False := by
  cases h

theorem updateGrantIfStatus_cases {id : ℕ} {expected : GrantStatus}
    {patch : GrantRecord → GrantRecord} {moved : Option GrantRecord}
    (h : updateGrantIfStatus id expected patch s = .ok (moved, s')) :
    (moved = none ∧ s = s') ∨
    ∃ grant, s.grants id = some grant ∧ grant.status = expected ∧ moved = some (patch grant) ∧
      s' = putGrant id (patch grant) s := by
  simp only [updateGrantIfStatus] at h
  split at h
  · cases h
    exact .inl ⟨rfl, rfl⟩
  rename_i grant hg
  split at h
  · cases h
    exact .inl ⟨rfl, rfl⟩
  rename_i hst
  split at h
  · cases h
  cases h
  exact .inr ⟨grant, hg, by simpa using hst, rfl, rfl⟩

theorem deleteClaimed_cases {job : AccessGatewayJobRecord} {mine : Bool}
    (h : deleteClaimed job s = .ok (mine, s')) :
    (mine = false ∧ s = s' ∧ owned s job = false) ∨
      (mine = true ∧ s' = eraseJob job.subjectId s ∧ owned s job = true) := by
  simp only [deleteClaimed] at h
  split at h
  · rename_i hown
    cases h
    exact .inr ⟨rfl, rfl, hown⟩
  · rename_i hown
    cases h
    exact .inl ⟨rfl, rfl, by simpa using hown⟩

theorem upsertClaimed_spec {input : JobInput} {job : AccessGatewayJobRecord}
    (h : upsertClaimed input s = .ok (job, s')) :
    s' = putJob input.subjectId job (s.fresh + 2) s ∧ job.generation = s.fresh + 1 ∧
      job.kind = input.kind ∧ job.subjectId = input.subjectId ∧ job.apiId = input.apiId ∧
      job.identity = input.identity := by
  cases h
  exact ⟨rfl, rfl, rfl, rfl, rfl, rfl⟩

theorem noteReclaim_spec {request : AccessRequestRecord} {u : Unit}
    (h : noteReclaim request s = .ok (u, s')) : ∃ slips, s' = { s with slips := slips } ∧
      (slips = [] → s.slips = [] ∧
        (request.grantId.isSome = true → s.jobs request.id = none)) := by
  simp only [noteReclaim] at h
  split at h
  · cases h
    exact ⟨_, rfl, fun h => by cases h⟩
  · rename_i hno
    cases h
    refine ⟨s.slips, rfl, fun h => ⟨h, fun hsome => ?_⟩⟩
    cases hj : s.jobs request.id with
    | none => rfl
    | some j => exact absurd ⟨hsome, by rw [hj]; rfl⟩ hno

theorem txApplicationActive_spec {identity : Identity} {u : Unit}
    (h : txApplicationActive identity s = .ok (u, s')) : s = s' := by
  simp only [txApplicationActive] at h
  split at h
  · cases h
    rfl
  · cases h

end Rows

end FerrumNexus.Access
