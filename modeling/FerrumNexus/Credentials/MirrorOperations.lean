import FerrumNexus.Credentials.MirrorPrograms

/-!
# Whole operations on one pair

Issue, rotation, revocation, reconciliation and the strip of a disabled account
keep the mirror of the consumer and type they address. A rotation is the long
case: its compensation must tell an array that still ends in the replacement
from one the failed delete has already shortened.
-/
namespace FerrumNexus.Credentials

open Saga Platform Portal Sequences

section Operations

variable {c : ConsumerId} {t : CredentialType} {s : World}

/-- The account and application checks only read. -/
theorem upholds_assertOwnerActive (h : Mirrored c t s) (userId : ℕ) :
    Upholds c t (assertOwnerActive userId) (fun _ s' => s = s') (fun _ s' => Mirrored c t s') s := by
  refine (upholds_storeRead h fun _ => h).andThen ?_
  rintro owner _ ⟨-, rfl⟩
  split
  · exact upholds_throw h
  · exact wpe_ensure (fun _ => rfl) fun _ => h

theorem upholds_assertNoPendingRecovery (h : Mirrored c t s) (userId : ℕ) :
    Upholds c t (assertNoPendingRecovery userId) (fun _ s' => s = s')
      (fun _ s' => Mirrored c t s') s := by
  refine (upholds_storeRead h fun _ => h).andThen ?_
  rintro pending _ ⟨-, rfl⟩
  exact wpe_ensure (fun _ => rfl) fun _ => h

theorem upholds_assertApplicationOwned (h : Mirrored c t s) (userId : ℕ)
    (applicationId : Option ℕ) :
    Upholds c t (assertApplicationOwned userId applicationId) (fun _ s' => s = s')
      (fun _ s' => Mirrored c t s') s := by
  cases applicationId with
  | none => exact upholds_pure rfl
  | some applicationId =>
    refine (upholds_storeRead h fun _ => h).andThen ?_
    rintro application _ ⟨-, rfl⟩
    split
    · exact upholds_throw h
    · refine Upholds.andThen (M := fun _ s' => s = s') (wpe_ensure (fun _ => rfl) fun _ => h) ?_
      rintro _ _ rfl
      exact wpe_ensure (fun _ => rfl) fun _ => h

theorem upholds_assertApplicationEnabled (h : Mirrored c t s) (applicationId : Option ℕ) :
    Upholds c t (assertApplicationEnabled applicationId) (fun _ s' => s = s')
      (fun _ s' => Mirrored c t s') s := by
  cases applicationId with
  | none => exact upholds_pure rfl
  | some applicationId =>
    refine (upholds_storeRead h fun _ => h).andThen ?_
    rintro application _ ⟨-, rfl⟩
    split
    · exact upholds_throw h
    · exact wpe_ensure (fun _ => rfl) fun _ => h

theorem upholds_ensure (h : Mirrored c t s) (condition : Bool) (error : NexusError) :
    Upholds c t (ensure condition error) (fun _ s' => s = s') (fun _ s' => Mirrored c t s') s :=
  wpe_ensure (fun _ => rfl) fun _ => h

theorem upholds_issueForConsumer (h : Mirrored c t s) (hs : Settleable c t s) (cap : ℕ)
    {input : IssueInput} (hc : input.consumerId = c) (ht : input.credentialType = t) :
    Upholds c t (issueForConsumer cap input) (fun _ s' => Mirrored c t s')
      (fun _ s' => Mirrored c t s') s := by
  rw [issueForConsumer, hc, ht]
  refine (upholds_assertOwnerActive h _).andThen ?_
  rintro _ _ rfl
  refine (upholds_assertApplicationOwned h _ _).andThen ?_
  rintro _ _ rfl
  refine (upholds_getConsumer h fun _ => h).andThen ?_
  rintro consumer _ ⟨rfl, rfl⟩
  cases hconsumer : s.consumers c with
  | none => exact upholds_throw h
  | some consumer =>
    refine (upholds_readLiveRows h fun _ => h).andThen ?_
    rintro live _ ⟨rfl, rfl⟩
    have hlen := edgeArrayLength_eq (t := t) hconsumer (livePair c t s).length
    refine (upholds_settleLostRetirement h hs hlen).andThen ?_
    intro rows s₁ hsettled
    have h₁ := hsettled.mirrored
    refine Upholds.andThen (M := fun _ s' => s₁ = s') (wpe_check (fun _ _ => rfl) fun _ _ => h₁) ?_
    rintro _ _ rfl
    refine (upholds_ensure h₁ _ _).andThen ?_
    rintro _ _ rfl
    refine Upholds.andThen (M := fun _ s' => s₁ = s')
      (wpe_whenever (fun _ => upholds_assertNoPendingRecovery h₁ _) fun _ => rfl) ?_
    rintro _ _ rfl
    refine (upholds_appendCredential h₁ rfl rfl ?_).imp ?_
    · intro hlisted
      rw [hsettled.entries_eq]
      exact hlen.trans (if_neg hlisted)
    · exact fun _ _ ⟨_, happ⟩ => happ.mirrored

variable {credentialId i length : ℕ}

/-- The compensation of an append-first rotation never returns. -/
theorem upholds_takeBackReplacement (h : Mirrored c t s) {current created : CredentialRecord}
    (hc : current.ferrumConsumerId = c) (ht : current.credentialType = t)
    (hlast : (entries s c t).length = length + 1 →
      (entries s c t)[length]? = some created.fingerprint) (error : NexusError) :
    Upholds c t (takeBackReplacement current created length error) (fun _ _ => False)
      (fun _ s' => Mirrored c t s') s := by
  rw [takeBackReplacement, hc, ht]
  refine (upholds_withdrawAppendedEntry h hlast).andThen ?_
  rintro withdrawal s₁ ⟨h₁, -, hbasic⟩
  refine Upholds.andThen (M := fun _ s' => Mirrored c t s') (wpe_whenever ?_ fun _ => h₁) ?_
  · intro hwithdrawn
    have hdeleted := h₁.deleteRow created.id fun hb => by
      rw [hbasic hb] at hwithdrawn
      cases hwithdrawn
    refine wpe_bestEffort ((upholds_commit h₁ hdeleted fun _ => h₁).imp ?_)
    rintro _ _ ⟨-, rfl⟩
    exact hdeleted
  · intro _ s₂ h₂
    refine Upholds.andThen (M := fun _ s' => Mirrored c t s')
      (wpe_whenever (fun _ => wpe_bestEffort ?_) fun _ => h₂) ?_
    · refine (upholds_setLive h₂ current.id .active rfl fun _ => h₂).imp ?_
      rintro _ _ rfl
      exact h₂.setLive _ _ rfl
    · intro _ s₃ h₃
      split
      · exact upholds_throw h₃
      · exact upholds_throw h₃

theorem upholds_rotateAppendFirst (h : Mirrored c t s) {current : CredentialRecord}
    (hc : current.ferrumConsumerId = c) (ht : current.credentialType = t)
    (hid : current.id < s.fresh) (hn : Names c t current s)
    (hi : (entries s c t)[i]? = some current.fingerprint)
    (hlen : t ≠ .basicauth → length = (entries s c t).length) :
    Upholds c t (rotateAppendFirst current i length) (fun _ s' => Mirrored c t s')
      (fun _ s' => Mirrored c t s') s := by
  refine (upholds_appendCredential h hc ht hlen).andThen ?_
  rintro created s₁ ⟨material, happ⟩
  have h₁ := happ.mirrored
  have hn₁ := happ.names current hid hn
  have hi₁ : (entries s₁ c t)[i]? = some current.fingerprint := by
    rw [happ.entries_eq, List.getElem?_append_left (List.getElem?_eq_some_iff.mp hi).1]
    exact hi
  -- the replacement is last unless the old entry is already gone
  have hlast : ∀ s', entries s' c t = entries s₁ c t ∨
      entries s' c t = (entries s₁ c t).eraseIdx i → t ≠ .basicauth →
      (entries s' c t).length = length + 1 →
      (entries s' c t)[length]? = some created.fingerprint := by
    intro s' hentries hlisted hlength
    have hlt := (List.getElem?_eq_some_iff.mp hi₁).1
    rcases hentries with heq | heq
    · rw [heq, happ.entries_eq, happ.fingerprint_eq hlisted, hlen hlisted]
      simp
    · rw [heq, List.length_eraseIdx_of_lt hlt, happ.entries_eq, List.length_append,
        ← hlen hlisted] at hlength
      simp at hlength
  have htake : ∀ s' error, Mirrored c t s' → (entries s' c t = entries s₁ c t ∨
      entries s' c t = (entries s₁ c t).eraseIdx i) →
      Upholds c t (takeBackReplacement current created length error) (fun _ _ => False)
        (fun _ s' => Mirrored c t s') s' := by
    intro s' error h' hentries
    by_cases hb : t = .basicauth
    · -- an HTTP Basic append is never withdrawn by position
      rw [takeBackReplacement, hc, ht, withdrawAppendedEntry, if_pos hb]
      exact upholds_throw h'
    · exact upholds_takeBackReplacement h' hc ht (hlast s' hentries hb) error
  refine Upholds.andThen (M := fun _ s' => Mirrored c t s' ∧ Gone c t current.id s') ?_ ?_
  · refine (wpe_tryCatch _ _).mpr ?_
    refine Upholds.bind (upholds_setLive h₁ current.id .retiring rfl
      (E := fun _ s' => s₁ = s') fun _ => rfl) ?_ ?_
    · rintro _ _ rfl
      rw [hc, ht]
      refine Upholds.mono (upholds_removeAt (h₁.setLive _ _ rfl) (.index i) (hn₁.updateStatus _ _)
        (by simp) ?_) ?_ ?_
      · rintro j ⟨⟩
        exact hi₁
      · exact fun _ _ hr => ⟨hr.mirrored, hr.gone⟩
      · rintro error s' ⟨h', hentries⟩
        exact (htake s' error h' (hentries i rfl)).imp (fun _ _ hf => hf.elim)
    · rintro error _ rfl
      exact (htake s₁ error h₁ (.inl rfl)).imp (fun _ _ hf => hf.elim)
  · rintro _ s₂ ⟨h₂, hgone⟩
    refine (upholds_setRevoked h₂ hgone fun _ => h₂).andThen ?_
    rintro _ _ rfl
    exact upholds_pure (h₂.setRevoked hgone)

theorem upholds_rotateDeleteFirst (h : Mirrored c t s) {current : CredentialRecord}
    (hc : current.ferrumConsumerId = c) (ht : current.credentialType = t)
    (hn : Names c t current s) (hi : (entries s c t)[i]? = some current.fingerprint)
    (hlen : t ≠ .basicauth → length = (entries s c t).length) :
    Upholds c t (rotateDeleteFirst current i length) (fun _ s' => Mirrored c t s')
      (fun _ s' => Mirrored c t s') s := by
  refine (upholds_retireAndRemove h (.index i) hc ht hn (by simp) ?_ length).andThen ?_
  · rintro j ⟨⟩
    exact hi
  intro _ s₁ hr
  refine (upholds_setRevoked hr.mirrored hr.gone fun _ => hr.mirrored).andThen ?_
  rintro _ _ rfl
  refine (wpe_tryCatch _ _).mpr (Upholds.mono (upholds_appendCredential
    (hr.mirrored.setRevoked hr.gone) hc ht ?_) ?_ ?_)
  · intro hlisted
    have hlt := (List.getElem?_eq_some_iff.mp hi).1
    rw [entries_updateStatus, hr.erased i rfl, entries_updateStatus,
      List.length_eraseIdx_of_lt hlt, ← hlen hlisted]
    rfl
  · exact fun _ _ ⟨_, happ⟩ => happ.mirrored
  · exact fun _ _ he => upholds_throw he

theorem upholds_rotateSection (h : Mirrored c t s) (hs : Settleable c t s) (hl : Located c t s)
    (cap : ℕ) (user : UserRecord) {target : CredentialRecord} (hc : target.ferrumConsumerId = c)
    (ht : target.credentialType = t) (ha : Addresses c t target.id s) :
    Upholds c t (rotateSection cap user target) (fun _ s' => Mirrored c t s')
      (fun _ s' => Mirrored c t s') s := by
  rw [rotateSection, hc, ht]
  refine (upholds_storeRead h fun _ => h).andThen ?_
  rintro found _ ⟨rfl, rfl⟩
  cases hfound : findById s target.id with
  | none => exact upholds_throw h
  | some current =>
    obtain ⟨hmem, hid⟩ := findById_mem hfound
    obtain ⟨hcc, hct⟩ := ha current hmem hid
    refine (upholds_ensure h _ _).andThen ?_
    rintro _ _ rfl
    refine (upholds_ensure h _ _).andThen ?_
    rintro _ _ rfl
    refine (upholds_assertOwnerActive h _).andThen ?_
    rintro _ _ rfl
    refine (upholds_assertApplicationEnabled h _).andThen ?_
    rintro _ _ rfl
    refine (upholds_getConsumer h fun _ => h).andThen ?_
    rintro consumer _ ⟨rfl, rfl⟩
    cases hconsumer : s.consumers c with
    | none => exact upholds_throw h
    | some consumer =>
      refine (upholds_readLiveRows h fun _ => h).andThen ?_
      rintro live _ ⟨rfl, rfl⟩
      have hlen := edgeArrayLength_eq (t := t) hconsumer (livePair c t s).length
      refine (upholds_settleLostRetirement h hs hlen).andThen ?_
      intro rows s₁ hsettled
      have h₁ := hsettled.mirrored
      refine Upholds.andThen (M := fun _ s' => s₁ = s' ∧ assertPositionsConfirmed rows t = .ok ())
        (wpe_check (fun _ hok => ⟨rfl, hok⟩) fun _ _ => h₁) ?_
      rintro _ _ ⟨rfl, hconfirmed⟩
      refine Upholds.andThen (M := fun position s' => s₁ = s' ∧
        resolveCredentialIndex rows current _ = .ok position)
        (wpe_check (fun _ hok => ⟨rfl, hok⟩) fun _ _ => h₁) ?_
      rintro position _ ⟨rfl, hposition⟩
      cases position with
      | notLive => exact upholds_throw h₁
      | wholeType => exact upholds_throw h₁
      | index i =>
        refine (upholds_assertNoPendingRecovery h₁ _).andThen ?_
        rintro _ _ rfl
        obtain ⟨hrows, row, hrow, hrid⟩ := resolveCredentialIndex_index hposition
        have hn := hsettled.names current (names_of_mem h hmem)
        have hi := entry_at_index hsettled (hsettled.located hl) hn hlen hrows
          (assertPositionsConfirmed_ok hconfirmed) hrow hrid
        have hlisted : t ≠ .basicauth →
            edgeArrayLength (projection s consumer) t (livePair c t s).length =
              (entries s₁ c t).length := by
          intro hb
          rw [hsettled.entries_eq]
          exact hlen.trans (if_neg hb)
        split
        · refine upholds_rotateAppendFirst h₁ hcc hct ?_ hn hi hlisted
          rw [hsettled.fresh_eq]
          exact h.idsFresh current hmem
        · exact upholds_rotateDeleteFirst h₁ hcc hct hn hi hlisted

/-! ## Entry points -/

theorem upholds_rotate (h : Mirrored c t s) (hs : Settleable c t s) (hl : Located c t s)
    (cap : ℕ) (user : UserRecord) (ha : Addresses c t credentialId s) :
    Upholds c t (rotate cap user credentialId) (fun _ s' => Mirrored c t s')
      (fun _ s' => Mirrored c t s') s := by
  refine Upholds.andThen (M := fun target s' => s = s' ∧ target ∈ s.rows ∧ target.id = credentialId)
    ?_ ?_
  · refine (upholds_assertNoPendingRecovery h _).andThen ?_
    rintro _ _ rfl
    refine (upholds_storeRead h fun _ => h).andThen ?_
    rintro loaded _ ⟨rfl, rfl⟩
    cases hloaded : findById s credentialId with
    | none => exact upholds_throw h
    | some target =>
      refine (upholds_ensure h _ _).andThen ?_
      rintro _ _ rfl
      refine (upholds_ensure h _ _).andThen ?_
      rintro _ _ rfl
      exact upholds_pure ⟨rfl, findById_mem hloaded⟩
  · rintro target _ ⟨rfl, hmem, rfl⟩
    obtain ⟨hc, ht⟩ := ha target hmem rfl
    exact upholds_rotateSection h hs hl cap user hc ht ha

theorem upholds_revoke (h : Mirrored c t s) (hs : Settleable c t s) {clearType : Bool}
    (hl : Located c t s ∨ Emptying c t credentialId clearType s) (user : UserRecord)
    (ha : Addresses c t credentialId s) :
    Upholds c t (revoke user credentialId clearType) (fun _ s' => Mirrored c t s')
      (fun _ s' => Mirrored c t s') s := by
  refine Upholds.andThen (M := fun target s' => s = s' ∧ target ∈ s.rows ∧ target.id = credentialId)
    ?_ ?_
  · refine (upholds_storeRead h fun _ => h).andThen ?_
    rintro loaded _ ⟨rfl, rfl⟩
    cases hloaded : findById s credentialId with
    | none => exact upholds_throw h
    | some target =>
      refine (upholds_ensure h _ _).andThen ?_
      rintro _ _ rfl
      exact upholds_pure ⟨rfl, findById_mem hloaded⟩
  · rintro target _ ⟨rfl, hmem, rfl⟩
    obtain ⟨hc, ht⟩ := ha target hmem rfl
    refine (upholds_ensure h _ _).andThen ?_
    rintro _ _ rfl
    split
    · exact upholds_pure h
    · refine (wpe_map _ _).mpr ?_
      exact upholds_revokeCredentialRow h hs hl hc ht ha user

theorem upholds_revokeInvalidated (h : Mirrored c t s) (hs : Settleable c t s)
    {options : RevokeOptions} (hl : Located c t s ∨ Emptying c t credentialId options.clearType s)
    (actor : UserRecord) (ha : Addresses c t credentialId s) :
    Upholds c t (revokeInvalidated actor credentialId options) (fun _ s' => Mirrored c t s')
      (fun _ s' => Mirrored c t s') s := by
  refine (upholds_storeRead h fun _ => h).andThen ?_
  rintro loaded _ ⟨rfl, rfl⟩
  cases hloaded : findById s credentialId with
  | none => exact upholds_pure h
  | some target =>
    obtain ⟨hmem, rfl⟩ := findById_mem hloaded
    obtain ⟨hc, ht⟩ := ha target hmem rfl
    dsimp only
    split
    · exact upholds_pure h
    · exact upholds_revokeCredentialRow h hs hl hc ht ha actor

/-- With the array empty every row may be called revoked. -/
theorem Mirrored.revokeRows (h : Mirrored c t s) (hempty : entries s c t = [])
    (rows : List CredentialRecord) :
    Mirrored c t (rows.foldl (fun s row => Credentials.updateStatus row.id .revoked s) s) := by
  induction rows generalizing s with
  | nil => exact h
  | cons row rows ih =>
    rw [List.foldl_cons]
    refine ih (h.setRevoked ?_) hempty
    intro row' _ _
    simp [hempty]

theorem entries_of_absent (hc : s.consumers c = none) : entries s c t = [] := by
  simp [entries, hc]

theorem upholds_reconcile (h : Mirrored c t s) (actor : UserRecord) :
    Upholds c t (reconcile actor c t) (fun _ s' => Mirrored c t s')
      (fun _ s' => Mirrored c t s') s := by
  have hcommit : ∀ s', Mirrored c t s' → entries s' c t = [] →
      Upholds c t (transaction fun s => .ok ((), revokeListed c t s))
        (fun _ s' => Mirrored c t s') (fun _ s' => Mirrored c t s') s' := by
    intro s' h' hempty
    have hrevoked : Mirrored c t (revokeListed c t s') := h'.revokeRows hempty _
    refine (upholds_commit h' hrevoked fun _ => h').imp ?_
    rintro _ _ ⟨-, rfl⟩
    exact hrevoked
  refine (upholds_ensure h _ _).andThen ?_
  rintro _ _ rfl
  refine (upholds_getConsumer h fun _ => h).andThen ?_
  rintro consumer _ ⟨rfl, rfl⟩
  refine (upholds_storeRead h fun _ => h).andThen ?_
  rintro owned _ ⟨-, rfl⟩
  refine (upholds_ensure h _ _).andThen ?_
  rintro _ _ rfl
  cases hconsumer : s.consumers c with
  | none => exact hcommit s h (entries_of_absent hconsumer)
  | some consumer =>
    refine Upholds.bind (upholds_deleteCredentialType h) ?_ (fun _ _ he => he.1)
    rintro _ s' ⟨hm, -, hempty⟩
    exact hcommit s' hm hempty

/-! ## The strip of a disabled account -/

theorem entries_setGroups (groups : List AclGroup) :
    entries (setGroups c groups s) c t = entries s c t := by
  simp only [setGroups]
  split
  · rename_i consumer hc
    simp [entries, hc]
  · rfl

theorem entries_setEntries_ne {t' : CredentialType} (hne : t' ≠ t) (array : List ℕ) :
    entries (setEntries c t' array s) c t = entries s c t := by
  simp only [setEntries]
  split
  · rename_i consumer hc
    simp [entries, hc, Function.update_of_ne hne.symm]
  · rfl

/-- A write that leaves the pair's rows and array alone. -/
theorem Mirrored.untouched (h : Mirrored c t s) (s' : World) (hrows : s'.rows = s.rows)
    (hfresh : s'.fresh = s.fresh) (hentries : entries s' c t = entries s c t)
    (hremovals : s'.removals = s.removals) : Mirrored c t s' :=
  h.of_entries hrows hfresh hentries h.entriesNodup h.entriesFresh h.aligned h.revokedGone h.backed
    (hremovals ▸ h.removalsRight)

theorem upholds_replaceGroups (h : Mirrored c t s) (groups : List AclGroup) :
    Upholds c t (replaceGroups c groups) (fun _ s' => Mirrored c t s')
      (fun _ s' => Mirrored c t s') s := by
  refine wpe_edgeWrite ?_ ?_ ?_
  · rintro _ rfl a s' hok
    split at hok
    · contradiction
    · cases hok
      have hm : Mirrored c t (setGroups c groups s) := by
        refine h.untouched _ ?_ ?_ (entries_setGroups groups) ?_
        all_goals
          simp only [setGroups]
          split <;> rfl
      exact ⟨hm, hm, fun _ _ => hm⟩
  · rintro _ rfl e _
    exact h
  · rintro _ rfl
    exact ⟨h, fun _ => h⟩

/-- Emptying some type of the consumer: this one, or another. -/
theorem upholds_deleteAnyType (h : Mirrored c t s) (t' : CredentialType) :
    Upholds c t (deleteCredentialType c t')
      (fun _ s' => Mirrored c t s' ∧ (t' = t ∨ entries s c t = [] → entries s' c t = []))
      (fun _ s' => Mirrored c t s') s := by
  by_cases ht : t' = t
  · subst ht
    refine Upholds.mono (upholds_deleteCredentialType h) ?_ (fun _ _ he => he.1)
    exact fun _ _ hs => ⟨hs.1, fun _ => hs.2.2⟩
  · refine wpe_edgeWrite ?_ ?_ ?_
    · rintro _ rfl a s' hok
      split at hok
      · contradiction
      · cases hok
        have hentries := entries_setEntries_ne (s := s) (c := c) ht []
        have hm : Mirrored c t (setEntries c t' [] s) :=
          h.untouched _ (rows_setEntries _) (fresh_setEntries _) hentries (removals_setEntries _)
        refine ⟨hm, ⟨hm, ?_⟩, fun _ _ => hm⟩
        rintro (heq | hempty)
        · exact absurd heq ht
        · rw [hentries, hempty]
    · rintro _ rfl e _
      exact h
    · rintro _ rfl
      exact ⟨h, fun _ => h⟩

theorem upholds_stripOnGateway (h : Mirrored c t s) :
    Upholds c t (stripOnGateway c ((s.consumers c).map (projection s)))
      (fun _ s' => Mirrored c t s' ∧ entries s' c t = []) (fun _ s' => Mirrored c t s') s := by
  cases hconsumer : s.consumers c with
  | none => exact upholds_pure ⟨h, entries_of_absent hconsumer⟩
  | some consumer =>
    refine (upholds_replaceGroups h []).andThen ?_
    intro _ s₁ h₁
    refine (upholds_deleteAnyType h₁ .keyauth).andThen ?_
    rintro _ s₂ ⟨h₂, hkey⟩
    refine (upholds_deleteAnyType h₂ .basicauth).andThen ?_
    rintro _ s₃ ⟨h₃, hbasic⟩
    refine (upholds_deleteAnyType h₃ .jwt).imp ?_
    rintro _ s₄ ⟨h₄, hjwt⟩
    refine ⟨h₄, ?_⟩
    cases t with
    | keyauth => exact hjwt (.inr (hbasic (.inr (hkey (.inl rfl)))))
    | basicauth => exact hjwt (.inr (hbasic (.inl rfl)))
    | jwt => exact hjwt (.inl rfl)

theorem upholds_stripIdentity (h : Mirrored c t s) (userId : ℕ) :
    Upholds c t (stripIdentity userId c) (fun _ s' => Mirrored c t s')
      (fun _ s' => Mirrored c t s') s := by
  refine Upholds.andThen (M := fun _ s' => s = s') ?_ ?_
  · refine (upholds_storeRead h fun _ => h).andThen ?_
    rintro owner _ ⟨-, rfl⟩
    split
    · exact upholds_pure rfl
    · exact upholds_ensure h _ _
  rintro _ _ rfl
  refine (upholds_getConsumer h fun _ => h).andThen ?_
  rintro live _ ⟨rfl, rfl⟩
  refine (upholds_stripOnGateway h).andThen ?_
  rintro _ s₁ ⟨h₁, hempty⟩
  have hrevoked : Mirrored c t (revokeAllRows c s₁) := h₁.revokeRows hempty _
  refine (upholds_commit h₁ hrevoked fun _ => h₁).imp ?_
  rintro _ _ ⟨-, rfl⟩
  exact hrevoked

end Operations

end FerrumNexus.Credentials
