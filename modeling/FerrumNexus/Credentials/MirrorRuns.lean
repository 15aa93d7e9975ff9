import FerrumNexus.Credentials.MirrorOperations

/-!
# Runs of the credential service on one consumer

Operations on one consumer follow one another under its key, each to its end or
to a crash. The service infers two things it cannot see: that the retiring row
of a pair with one row too many is the one whose entry is gone, and that equal
lengths (for HTTP Basic: no retiring row) mean equal positions. In a run whose
operations start where these inferences are right, every positional delete
takes the entry it was issued for and no entry outlives its row. Both
inferences can be wrong in a run the service allows, and then neither holds.
-/
namespace FerrumNexus.Credentials

open Saga Platform Portal Sequences

/-- The operations of a run on one consumer. An account's status changes when it
is disabled or enabled again, and its groups when access is granted or rebuilt. -/
inductive MirrorOp
  | issue (input : IssueInput)
  | rotate (user : UserRecord) (credentialId : ℕ)
  | revoke (user : UserRecord) (credentialId : ℕ) (clearType : Bool)
  | revokeInvalidated (actor : UserRecord) (credentialId : ℕ) (options : RevokeOptions)
  | reconcile (actor : UserRecord)
  | setAccountStatus (userId : ℕ) (status : UserStatus)
  | stripIdentity (userId : ℕ)
  | replaceGroups (groups : List AclGroup)
  | tick (elapsed : ℕ)

def withAccountStatus (userId : ℕ) (status : UserStatus) (s : World) : World :=
  let changed := (s.users userId).map fun user => { user with status := status }
  { s with users := Function.update s.users userId changed }

def setAccountStatus (userId : ℕ) (status : UserStatus) : CredentialService Unit :=
  transaction fun s => .ok ((), withAccountStatus userId status s)

/-- Time passes. -/
def tick (elapsed : ℕ) : CredentialService Unit :=
  atomic fun s _ => some (.ok (), { s with now := s.now + elapsed })

section Pair

variable (cap : ℕ) (c : ConsumerId) (t : CredentialType)

def mirrorProgram : MirrorOp → Program World Outcome Unit
  | .issue input => (issueForConsumer cap input).toProgram
  | .rotate user credentialId => (rotate cap user credentialId).toProgram
  | .revoke user credentialId clearType => (revoke user credentialId clearType).toProgram
  | .revokeInvalidated actor credentialId options =>
    (revokeInvalidated actor credentialId options).toProgram
  | .reconcile actor => (reconcile actor c t).toProgram
  | .setAccountStatus userId status => (setAccountStatus userId status).toProgram
  | .stripIdentity userId => (stripIdentity userId c).toProgram
  | .replaceGroups groups => (replaceGroups c groups).toProgram
  | .tick elapsed => (tick elapsed).toProgram

/-- The operation is one on this pair. -/
def MirrorOp.addresses (s : World) : MirrorOp → Prop
  | .issue input => input.consumerId = c ∧ input.credentialType = t
  | .rotate _ credentialId => Addresses c t credentialId s
  | .revoke _ credentialId _ => Addresses c t credentialId s
  | .revokeInvalidated _ credentialId _ => Addresses c t credentialId s
  | .reconcile _ => True
  | .setAccountStatus _ _ => True
  | .stripIdentity _ => True
  | .replaceGroups _ => True
  | .tick _ => True

/-- The inferences the operation will draw are right in the state it starts
from. -/
def MirrorOp.inferable (s : World) : MirrorOp → Prop
  | .issue _ => Settleable c t s
  | .rotate _ _ => Settleable c t s ∧ Located c t s
  | .revoke _ credentialId clearType =>
    Settleable c t s ∧ (Located c t s ∨ Emptying c t credentialId clearType s)
  | .revokeInvalidated _ credentialId options =>
    Settleable c t s ∧ (Located c t s ∨ Emptying c t credentialId options.clearType s)
  | .reconcile _ => True
  | .setAccountStatus _ _ => True
  | .stripIdentity _ => True
  | .replaceGroups _ => True
  | .tick _ => True

/-- A pair before any fault: the array holds the live rows' entries in order. -/
structure Synchronised (s : World) : Prop where
  mirrored : Mirrored c t s
  entries_eq : entries s c t = liveFingerprints c t s
  removals_eq : s.removals = []

/-- States of a run in which every operation addresses the pair. -/
def MirrorReachable (s : World) (p : Option (Program World Outcome Unit)) : Prop :=
  Serial.Reachable (mirrorProgram cap c t) (Synchronised c t) (fun s o => o.addresses c t s) s p

/-- States of a run in which moreover every inference is right. -/
def InferableReachable (s : World) (p : Option (Program World Outcome Unit)) : Prop :=
  Serial.Reachable (mirrorProgram cap c t) (Synchronised c t)
    (fun s o => o.addresses c t s ∧ o.inferable c t s) s p

variable {cap c t} {s : World} {p : Option (Program World Outcome Unit)}

theorem upholds_setAccountStatus (h : Mirrored c t s) (userId : ℕ) (status : UserStatus) :
    Upholds c t (setAccountStatus userId status) (fun _ s' => Mirrored c t s')
      (fun _ s' => Mirrored c t s') s := by
  refine wpe_transaction ?_ ?_ ?_
  · rintro _ rfl a s' hok
    cases hok
    have hm := h.untouched (withAccountStatus userId status s) rfl rfl rfl rfl
    exact ⟨hm, hm⟩
  · rintro _ rfl e herr
    cases herr
  · rintro _ rfl
    exact ⟨h, h⟩

theorem upholds_tick (h : Mirrored c t s) (elapsed : ℕ) :
    Upholds c t (tick elapsed) (fun _ s' => Mirrored c t s') (fun _ s' => Mirrored c t s') s := by
  refine (wpe_atomic _).mpr ?_
  rintro _ rfl o r s' hok
  cases hok
  have hm := h.untouched { s with now := s.now + elapsed } rfl rfl rfl rfl
  exact ⟨hm, hm⟩

/-- Each operation keeps the mirror at each of its calls. -/
theorem mirrorProgram_upholds (h : Mirrored c t s) (o : MirrorOp) (ha : o.addresses c t s)
    (hi : o.inferable c t s) :
    wp Eq (fun _ s' => Mirrored c t s') (mirrorProgram cap c t o) (fun _ _ => True) s := by
  have hrun : ∀ {α : Type} {p : CredentialService α},
      Upholds c t p (fun _ s' => Mirrored c t s') (fun _ s' => Mirrored c t s') s →
        wp Eq (fun _ s' => Mirrored c t s') p.toProgram (fun _ _ => True) s :=
    fun hp => wp_toProgram (wpe_mono hp (fun _ _ _ => trivial) fun _ _ _ => trivial)
  cases o with
  | issue input => exact hrun (upholds_issueForConsumer h hi cap ha.1 ha.2)
  | rotate user credentialId => exact hrun (upholds_rotate h hi.1 hi.2 cap user ha)
  | revoke user credentialId clearType => exact hrun (upholds_revoke h hi.1 hi.2 user ha)
  | revokeInvalidated actor credentialId options =>
    exact hrun (upholds_revokeInvalidated h hi.1 hi.2 actor ha)
  | reconcile actor => exact hrun (upholds_reconcile h actor)
  | setAccountStatus userId status => exact hrun (upholds_setAccountStatus h userId status)
  | stripIdentity userId => exact hrun (upholds_stripIdentity h userId)
  | replaceGroups groups => exact hrun (upholds_replaceGroups h groups)
  | tick elapsed => exact hrun (upholds_tick h elapsed)

theorem mirrored_of_inferable (h : InferableReachable cap c t s p) : Mirrored c t s :=
  Serial.invariant (fun _ hs => hs.mirrored) (fun _ o hm hok =>
    mirrorProgram_upholds hm o hok.1 hok.2) h

end Pair

/-! ## Concrete runs -/

def owner : UserRecord := ⟨1, .client, .active⟩

/-- One active account with an empty consumer. -/
def newAccount : World where
  rows := []
  consumers id :=
    if id = .derived (.ofUser 1) then some ⟨.ofUser 1, [], fun _ => []⟩ else none
  users id := if id = 1 then some owner else none
  applications _ := none
  mappings := [⟨0, 1, none, .derived (.ofUser 1), .ofUser 1⟩]
  identities := []
  apis _ := none
  grants _ := none
  requests _ := none
  jobs _ := none
  teardownJobs := []
  audits := []
  recoveryPending _ := false
  holders _ := none
  redacts := true
  fresh := 1
  now := 0
  removals := []
  slips := []

def ownConsumer : ConsumerId := .derived (.ofUser 1)

theorem synchronised_of_empty {c : ConsumerId} {t : CredentialType} {s : World}
    (hrows : s.rows = []) (hentries : entries s c t = []) (hremovals : s.removals = []) :
    Synchronised c t s := by
  have hpair : pairRows c t s = [] := by simp [pairRows, hrows]
  have hlive : liveFingerprints c t s = [] := by simp [liveFingerprints, livePair, hpair]
  refine ⟨⟨?_, ?_, ?_, ?_, ?_, ?_, ?_, ?_, ?_, ?_, ?_⟩, hentries.trans hlive.symm, hremovals⟩
  all_goals simp [hrows, hpair, hentries, hremovals, aligned_nil_left]

def issueOwn (t : CredentialType) : MirrorOp :=
  .issue ⟨owner, none, ownConsumer, t, false, true⟩

instance decidableAddresses (c : ConsumerId) (t : CredentialType) (id : ℕ) (s : World) :
    Decidable (Addresses c t id s) :=
  inferInstanceAs (Decidable (∀ row ∈ s.rows, row.id = id →
    row.ferrumConsumerId = c ∧ row.credentialType = t))

instance decidableMirrorOpAddresses (c : ConsumerId) (t : CredentialType) (s : World) :
    (o : MirrorOp) → Decidable (o.addresses c t s)
  | .issue input =>
    inferInstanceAs (Decidable (input.consumerId = c ∧ input.credentialType = t))
  | .rotate _ credentialId => decidableAddresses c t credentialId s
  | .revoke _ credentialId _ => decidableAddresses c t credentialId s
  | .revokeInvalidated _ credentialId _ => decidableAddresses c t credentialId s
  | .reconcile _ => .isTrue trivial
  | .setAccountStatus _ _ => .isTrue trivial
  | .stripIdentity _ => .isTrue trivial
  | .replaceGroups _ => .isTrue trivial
  | .tick _ => .isTrue trivial

instance decidableMirrorOpInferable (c : ConsumerId) (t : CredentialType) (s : World) :
    (o : MirrorOp) → Decidable (o.inferable c t s) := fun o => by
  cases o <;> unfold MirrorOp.inferable Settleable Located Emptying Confirmed <;> infer_instance

/-- Operations that execute on the new account, each where its inferences are
right, reach the state they lead to. -/
theorem exists_inferable (t : CredentialType) (ops : List (MirrorOp × List Outcome))
    {P : World → Bool} (he : (Serial.execAll (mirrorProgram 4 ownConsumer t)
      (fun s o => decide (o.addresses ownConsumer t s ∧ o.inferable ownConsumer t s)) ops
      newAccount).any P = true) :
    ∃ s, InferableReachable 4 ownConsumer t s none ∧ P s = true :=
  Serial.exists_reachable_of_execAll _ ops (fun _ _ h => of_decide_eq_true h)
    (.init (synchronised_of_empty rfl rfl rfl)) he

/-! ## Listed types -/

/-- In every run whose inferences are right, each positional delete took the
entry it was issued for, and no revoked row has an entry left. -/
theorem listed_mirror_faithful {cap : ℕ} {c : ConsumerId} {t : CredentialType} {s : World}
    {p : Option (Program World Outcome Unit)} (h : InferableReachable cap c t s p) :
    (∀ r ∈ s.removals, r.removed = r.intended) ∧
      ∀ row ∈ pairRows c t s, row.status = .revoked → row.fingerprint ∉ entries s c t :=
  ⟨(mirrored_of_inferable h).removalsRight, (mirrored_of_inferable h).revokedGone⟩

/-- One call that is answered otherwise, among calls that succeed. -/
def answeredAt (n : ℕ) (outcome : Outcome) : List Outcome :=
  List.replicate n .ok ++ outcome :: List.replicate 20 .ok

/-- Of three issues one loses the acknowledgement of its append, and of two
rotations one is refused its delete: both take their append back. A revocation
follows. -/
def withdrawnRun : List (MirrorOp × List Outcome) :=
  [(issueOwn .keyauth, List.replicate 20 .ok), (issueOwn .keyauth, List.replicate 20 .ok),
    (issueOwn .keyauth, answeredAt 5 (.lost none)), (.rotate owner 2, answeredAt 11 (.refused none)),
    (.rotate owner 2, List.replicate 20 .ok), (.revoke owner 4 false, List.replicate 20 .ok)]

theorem listed_mirror_faithful_withdrawn :
    ∃ s, InferableReachable 4 ownConsumer .keyauth s none ∧
      s.removals.length = 4 ∧ entries s ownConsumer .keyauth = [8] ∧
      (∀ r ∈ s.removals, r.removed = r.intended) ∧
      ∀ row ∈ pairRows ownConsumer .keyauth s, row.status = .revoked →
        row.fingerprint ∉ entries s ownConsumer .keyauth := by
  obtain ⟨s, h, hs⟩ := exists_inferable .keyauth withdrawnRun
    (P := fun s => s.removals.length = 4 ∧ entries s ownConsumer .keyauth = [8]) (by decide)
  obtain ⟨hremovals, hentries⟩ := of_decide_eq_true hs
  exact ⟨s, h, hremovals, hentries, listed_mirror_faithful h⟩

/-- A rotation whose delete is refused, and whose withdrawal of the replacement
is applied but neither acknowledged nor readable afterwards; then an issue. -/
def unreadWithdrawalRun : List (MirrorOp × List Outcome) :=
  [(issueOwn .keyauth, List.replicate 20 .ok),
    (.rotate owner 2, List.replicate 11 .ok ++ [.refused none, .ok, .lost none, .refused none]),
    (issueOwn .keyauth, List.replicate 20 .ok)]

/-- The issue settles the row whose entry is still there: the replacement's row
is the one too many, but the old row is the one retiring. -/
theorem listed_mirror_unfaithful :
    ¬ ∀ (cap : ℕ) (c : ConsumerId) (t : CredentialType) (s : World)
      (p : Option (Program World Outcome Unit)), t ≠ .basicauth → MirrorReachable cap c t s p →
      (∀ r ∈ s.removals, r.removed = r.intended) ∧
        ∀ row ∈ pairRows c t s, row.status = .revoked → row.fingerprint ∉ entries s c t := by
  intro hall
  obtain ⟨s, hs, hbad⟩ : ∃ s, MirrorReachable 4 ownConsumer .keyauth s none ∧
      decide (∃ row ∈ pairRows ownConsumer .keyauth s, row.status = .revoked ∧
        row.fingerprint ∈ entries s ownConsumer .keyauth) = true := by
    refine Serial.exists_reachable_of_execAll
      (fun s o => decide (o.addresses ownConsumer .keyauth s)) unreadWithdrawalRun
      (fun s o h => of_decide_eq_true h)
      (.init (synchronised_of_empty (s := newAccount) rfl rfl rfl)) ?_
    decide
  obtain ⟨row, hrow, hrev, hin⟩ := of_decide_eq_true hbad
  exact (hall 4 ownConsumer .keyauth s none (by decide) hs).2 row hrow hrev hin

/-! ## HTTP Basic -/

/-- In every run whose inferences are right, each HTTP Basic entry has a live
row, and each positional delete took the entry it was issued for. -/
theorem basic_mirror_faithful {cap : ℕ} {c : ConsumerId} {s : World}
    {p : Option (Program World Outcome Unit)} (h : InferableReachable cap c .basicauth s p) :
    (∀ m ∈ entries s c .basicauth, m ∈ liveFingerprints c .basicauth s) ∧
      ∀ r ∈ s.removals, r.removed = r.intended :=
  ⟨(mirrored_of_inferable h).backed rfl, (mirrored_of_inferable h).removalsRight⟩

/-- An append that is lost leaves its entry behind, so a rotation is refused and
the whole type is revoked; then an issue and a rotation succeed. -/
def clearedRun : List (MirrorOp × List Outcome) :=
  [(issueOwn .basicauth, List.replicate 20 .ok), (issueOwn .basicauth, answeredAt 6 (.lost none)),
    (.rotate owner 2, List.replicate 20 .ok), (.revoke owner 2 true, List.replicate 20 .ok),
    (issueOwn .basicauth, List.replicate 20 .ok), (.rotate owner 6, List.replicate 20 .ok)]

theorem basic_mirror_faithful_cleared :
    ∃ s, InferableReachable 4 ownConsumer .basicauth s none ∧
      s.removals.length = 1 ∧ entries s ownConsumer .basicauth = [7] ∧
      (∀ m ∈ entries s ownConsumer .basicauth,
        m ∈ liveFingerprints ownConsumer .basicauth s) ∧
      ∀ r ∈ s.removals, r.removed = r.intended := by
  obtain ⟨s, h, hs⟩ := exists_inferable .basicauth clearedRun
    (P := fun s => s.removals.length = 1 ∧ entries s ownConsumer .basicauth = [7]) (by decide)
  obtain ⟨hremovals, hentries⟩ := of_decide_eq_true hs
  exact ⟨s, h, hremovals, hentries, basic_mirror_faithful h⟩

/-- Two passwords; a disable whose strip empties the type and then fails; a
re-enable; a third password; and a revocation of the first. -/
def halfStripRun : List (MirrorOp × List Outcome) :=
  [(issueOwn .basicauth, List.replicate 20 .ok), (issueOwn .basicauth, List.replicate 20 .ok),
    (.setAccountStatus 1 .disabled, [.ok]),
    (.stripIdentity 1, List.replicate 5 .ok ++ [.refused none]),
    (.setAccountStatus 1 .active, [.ok]), (issueOwn .basicauth, List.replicate 20 .ok),
    (.revoke owner 2 false, List.replicate 20 .ok)]

/-- The rows of the emptied type stay active, so the revocation trusts their
count and deletes the third password in place of the first. -/
theorem basic_mirror_unfaithful :
    ¬ ∀ (cap : ℕ) (c : ConsumerId) (s : World) (p : Option (Program World Outcome Unit)),
      MirrorReachable cap c .basicauth s p →
      (∀ m ∈ entries s c .basicauth, m ∈ liveFingerprints c .basicauth s) ∧
        ∀ r ∈ s.removals, r.removed = r.intended := by
  intro hall
  obtain ⟨s, hs, hbad⟩ : ∃ s, MirrorReachable 4 ownConsumer .basicauth s none ∧
      decide (∃ r ∈ s.removals, r.removed ≠ r.intended) = true := by
    refine Serial.exists_reachable_of_execAll
      (fun s o => decide (o.addresses ownConsumer .basicauth s)) halfStripRun
      (fun s o h => of_decide_eq_true h)
      (.init (synchronised_of_empty (s := newAccount) rfl rfl rfl)) ?_
    decide
  obtain ⟨r, hr, hne⟩ := of_decide_eq_true hbad
  exact hne ((hall 4 ownConsumer s none hs).2 r hr)

end FerrumNexus.Credentials
