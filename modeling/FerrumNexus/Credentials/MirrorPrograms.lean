import FerrumNexus.Credentials.Mirror

/-!
# The operations keep the mirror

Each operation is followed call by call, alone under the consumer key, from a
state in which the pair is mirrored. The only facts beyond the invariant that
an operation needs are about its first state: that a settlement would settle
the right row, and that positions are only confirmed when they are right.
-/
namespace FerrumNexus.Credentials

open Saga Platform Portal Sequences

section Pair

variable (c : ConsumerId) (t : CredentialType)

/-- A program run alone that leaves the pair mirrored after every call. -/
def Upholds {α : Type} (p : CredentialService α) (Q : α → World → Prop)
    (E : NexusError → World → Prop) (s : World) : Prop :=
  wpe Eq (fun _ s' => Mirrored c t s') p Q E s

/-- One row too many and one of them retiring: then the retiring row is the one
without an entry. -/
def Settleable (s : World) : Prop :=
  t ≠ .basicauth → (livePair c t s).length = (entries s c t).length + 1 →
    ((livePair c t s).filter fun row => row.status == .retiring).length = 1 →
      ∀ row ∈ livePair c t s, row.status = .active → row.fingerprint ∈ entries s c t

/-- What the service takes for proof that positions agree: equal lengths, or,
for the type no read shows, that no row is retiring. -/
def Confirmed (s : World) : Prop :=
  if t = .basicauth then ∀ row ∈ livePair c t s, row.status ≠ .retiring
  else (livePair c t s).length = (entries s c t).length

/-- Confirmed positions are right: no live row is without its entry. -/
def Located (s : World) : Prop :=
  Confirmed c t s → ∀ row ∈ livePair c t s, row.fingerprint ∈ entries s c t

variable {c t} {s : World} {α β : Type} {Q : α → World → Prop} {E : NexusError → World → Prop}
  {E F : NexusError → World → Prop} {i length material : ℕ} {current target : CredentialRecord}
  {rows : List CredentialRecord} {options : RevokeOptions} {consumer : EdgeConsumer}
  {input : AppendInput}

theorem Upholds.bind {p : CredentialService β} {g : β → CredentialService α}
    {M : β → World → Prop} (hp : Upholds c t p M F s)
    (hg : ∀ b s', M b s' → Upholds c t (g b) Q E s') (he : ∀ e s', F e s' → E e s') :
    Upholds c t (p >>= g) Q E s :=
  wpe_call hp hg he

/-- Where a failing first step fails the whole in the same way. -/
theorem Upholds.andThen {p : CredentialService β} {g : β → CredentialService α}
    {M : β → World → Prop} (hp : Upholds c t p M E s)
    (hg : ∀ b s', M b s' → Upholds c t (g b) Q E s') : Upholds c t (p >>= g) Q E s :=
  hp.bind hg fun _ _ he => he

theorem Upholds.mono {p : CredentialService α} {M : α → World → Prop}
    (hp : Upholds c t p M F s) (hq : ∀ a s', M a s' → Q a s') (he : ∀ e s', F e s' → E e s') :
    Upholds c t p Q E s :=
  wpe_mono hp hq he

theorem Upholds.imp {p : CredentialService α} {M : α → World → Prop} (hp : Upholds c t p M E s)
    (hq : ∀ a s', M a s' → Q a s') : Upholds c t p Q E s :=
  hp.mono hq fun _ _ he => he

theorem upholds_pure {a : α} (h : Q a s) : Upholds c t (pure a) Q E s := h

theorem upholds_throw {e : NexusError} (h : E e s) :
    Upholds c t (throw e : CredentialService α) Q E s := h

/-- A read answers from the state and leaves it. -/
theorem upholds_storeRead (h : Mirrored c t s) {f : World → α} (he : ∀ e, E e s) :
    Upholds c t (storeRead f) (fun a s' => a = f s ∧ s = s') E s := by
  refine wpe_storeRead ?_
  rintro _ rfl
  exact ⟨h, ⟨rfl, rfl⟩, he _⟩

theorem upholds_getConsumer (h : Mirrored c t s) {consumerId : ConsumerId}
    (he : ∀ e, E e s) :
    Upholds c t (getConsumer consumerId)
      (fun a s' => a = (s.consumers consumerId).map (projection s) ∧ s = s') E s := by
  refine wpe_edgeRead ?_
  rintro _ rfl
  exact ⟨h, ⟨rfl, rfl⟩, fun _ => he _⟩

/-- A re-read that swallows its error. -/
theorem upholds_reread (h : Mirrored c t s) {consumerId : ConsumerId} :
    Upholds c t (swallow (getConsumer consumerId))
      (fun a s' => (a = none ∨ a = some ((s.consumers consumerId).map (projection s))) ∧ s = s')
      E s := by
  refine (wpe_swallow _).mpr (Upholds.mono (upholds_getConsumer h fun _ => rfl) ?_ ?_)
  · rintro a s' ⟨rfl, rfl⟩
    exact ⟨.inr rfl, rfl⟩
  · rintro e s' rfl
    exact ⟨.inl rfl, rfl⟩

/-- A transaction that always commits when the store answers. -/
theorem upholds_commit (h : Mirrored c t s) {f : World → World} {a : α}
    (hf : Mirrored c t (f s)) (he : ∀ e, E e s) :
    Upholds c t (transaction fun s => .ok (a, f s)) (fun b s' => b = a ∧ s' = f s) E s := by
  refine wpe_transaction ?_ ?_ ?_
  · rintro _ rfl b s' hok
    cases hok
    exact ⟨hf, rfl, rfl⟩
  · rintro _ rfl e herr
    cases herr
  · rintro _ rfl
    exact ⟨h, he _⟩

theorem upholds_setLive (h : Mirrored c t s) (id : ℕ) (st : CredentialStatus)
    (hst : st.isLive = true) (he : ∀ e, E e s) :
    Upholds c t (setStatus id st) (fun _ s' => s' = updateStatus id st s) E s :=
  (upholds_commit h (f := updateStatus id st) (h.setLive id st hst) he).imp (fun _ _ hs => hs.2)

theorem upholds_setRevoked (h : Mirrored c t s) {id : ℕ} (hgone : Gone c t id s)
    (he : ∀ e, E e s) :
    Upholds c t (setStatus id .revoked) (fun _ s' => s' = updateStatus id .revoked s) E s :=
  (upholds_commit h (f := updateStatus id .revoked) (h.setRevoked hgone) he).imp
    fun _ _ hs => hs.2

theorem upholds_readLiveRows (h : Mirrored c t s) (he : ∀ e, E e s) :
    Upholds c t (readLiveRows c t) (fun a s' => a = livePair c t s ∧ s = s') E s := by
  refine (upholds_storeRead h he).imp ?_
  rintro a s' ⟨rfl, rfl⟩
  exact ⟨liveRows_eq h.sorted, rfl⟩

/-! ## The gateway's deletes -/

/-- Addressed by the entry's own index, a positional delete takes that entry or
does nothing. -/
theorem upholds_deleteCredentialAt (h : Mirrored c t s) {intended : ℕ}
    (hi : (entries s c t)[i]? = some intended) :
    Upholds c t (deleteCredentialAt c t i intended)
      (fun _ s' => Mirrored c t s' ∧ s'.rows = s.rows ∧
        entries s' c t = (entries s c t).eraseIdx i)
      (fun _ s' => Mirrored c t s' ∧ s'.rows = s.rows ∧
        (entries s' c t = entries s c t ∨ entries s' c t = (entries s c t).eraseIdx i)) s := by
  refine wpe_edgeWrite ?_ ?_ ?_
  · rintro _ rfl a s' hok
    split at hok
    · rename_i consumer removed hc hr
      rw [hi, Option.some.injEq] at hr
      subst hr
      cases hok
      have hentries : entries { setEntries c t ((entries s c t).eraseIdx i) s with
          removals := ⟨intended, intended⟩ :: s.removals } c t = (entries s c t).eraseIdx i :=
        entries_setEntries hc _
      have hm := h.shrink { setEntries c t ((entries s c t).eraseIdx i) s with
          removals := ⟨intended, intended⟩ :: s.removals } (rows_setEntries _)
        (fresh_setEntries _) hentries (eraseIdx_eq_filter h.entriesNodup hi) (by
          intro r hr
          rcases List.mem_cons.mp hr with rfl | hr
          · rfl
          · exact h.removalsRight r hr)
      exact ⟨hm, ⟨hm, rows_setEntries _, hentries⟩,
        fun _ _ => ⟨hm, rows_setEntries _, .inr hentries⟩⟩
    · contradiction
  · rintro _ rfl e _
    exact ⟨h, rfl, .inl rfl⟩
  · rintro _ rfl
    exact ⟨h, fun _ => ⟨h, rfl, .inl rfl⟩⟩

theorem upholds_deleteCredentialType (h : Mirrored c t s) :
    Upholds c t (deleteCredentialType c t)
      (fun _ s' => Mirrored c t s' ∧ s'.rows = s.rows ∧ entries s' c t = [])
      (fun _ s' => Mirrored c t s' ∧ s'.rows = s.rows) s := by
  refine wpe_edgeWrite ?_ ?_ ?_
  · rintro _ rfl a s' hok
    split at hok
    · contradiction
    · rename_i consumer hc
      cases hok
      have hentries := entries_setEntries (t := t) hc []
      have hm : Mirrored c t (setEntries c t [] s) :=
        h.shrink _ (p := fun _ => false) (rows_setEntries _) (fresh_setEntries _) hentries
          (by simp) (by
            rw [removals_setEntries]
            exact h.removalsRight)
      exact ⟨hm, ⟨hm, rows_setEntries _, hentries⟩, fun _ _ => ⟨hm, rows_setEntries _⟩⟩
  · rintro _ rfl e _
    exact ⟨h, rfl⟩
  · rintro _ rfl
    exact ⟨h, fun _ => ⟨h, rfl⟩⟩

/-! ## Settlement and position -/

/-- Whatever row of the pair carries the credential's id is the credential. -/
def Names (c : ConsumerId) (t : CredentialType) (current : CredentialRecord) (s : World) : Prop :=
  ∀ row ∈ pairRows c t s, row.id = current.id → row.fingerprint = current.fingerprint

theorem Names.updateStatus (h : Names c t current s) (id : ℕ) (st : CredentialStatus) :
    Names c t current (updateStatus id st s) := by
  intro row hrow hid
  obtain ⟨old, hold, hid', hfp, -⟩ := mem_updateStatus hrow
  rw [hfp]
  exact h old hold (hid'.symm.trans hid)

theorem Names.of_rows (h : Names c t current s) {s' : World} (hrows : s'.rows = s.rows) :
    Names c t current s' := by
  intro row hrow
  refine h row ?_
  rwa [pairRows, hrows] at hrow

theorem livePair_settle (id : ℕ) :
    livePair c t (updateStatus id .revoked s) =
      (livePair c t s).filter fun row => row.id != id := by
  rw [livePair, pairRows_updateStatus, List.filter_map, livePair, List.filter_filter]
  have hfilter : ((pairRows c t s).filter ((fun row => row.status.isLive) ∘ fun row =>
      if row.id = id then { row with status := .revoked, updatedAt := s.now } else row)) =
        (pairRows c t s).filter fun row => row.id != id && row.status.isLive := by
    apply List.filter_congr
    intro row _
    by_cases hid : row.id = id <;> simp [hid, CredentialStatus.isLive]
  rw [hfilter]
  conv_rhs => rw [← List.map_id ((pairRows c t s).filter fun row =>
    row.id != id && row.status.isLive)]
  apply List.map_congr_left
  intro row hrow
  have hid : row.id ≠ id := by
    simpa using (Bool.and_eq_true_iff.mp (List.mem_filter.mp hrow).2).1
  simp [hid]

/-- What an operation knows once `settleLostRetirement` has returned. -/
structure Settled (c : ConsumerId) (t : CredentialType) (s : World) (rows : List CredentialRecord)
    (s' : World) : Prop where
  mirrored : Mirrored c t s'
  rows_eq : rows = livePair c t s'
  entries_eq : entries s' c t = entries s c t
  names : ∀ current, Names c t current s → Names c t current s'
  located : Located c t s → Located c t s'
  fresh_eq : s'.fresh = s.fresh
  basic : t = .basicauth → s' = s

theorem settled_refl (h : Mirrored c t s) : Settled c t s (livePair c t s) s :=
  ⟨h, rfl, rfl, fun _ h => h, fun h => h, rfl, fun _ => rfl⟩

/-- Settling the one retiring row of a pair that has one row too many. -/
theorem settled_settleRow (h : Mirrored c t s) (hs : Settleable c t s) (ht : t ≠ .basicauth)
    (hlen : (livePair c t s).length = (entries s c t).length + 1) {retired : CredentialRecord}
    (hret : ((livePair c t s).filter fun row => row.status == .retiring) = [retired]) :
    Settled c t s ((livePair c t s).filter fun row => row.id != retired.id)
      (updateStatus retired.id .revoked s) := by
  have hpresent := hs ht hlen (by rw [hret]; rfl)
  have honly : ∀ row ∈ livePair c t s, row.id ≠ retired.id → row.status = .active := by
    intro row hrow hid
    have hlive := (mem_livePair.mp hrow).2
    cases hst : row.status with
    | active => rfl
    | retiring =>
      have hin : row ∈ (livePair c t s).filter fun row => row.status == .retiring := by
        simp [List.mem_filter, hrow, hst]
      rw [hret, List.mem_singleton] at hin
      exact absurd (congrArg _ hin) hid
    | revoked => simp [hst, CredentialStatus.isLive] at hlive
  have hothers : ∀ row ∈ livePair c t (updateStatus retired.id .revoked s),
      row.fingerprint ∈ entries s c t := by
    intro row hrow
    rw [livePair_settle, List.mem_filter] at hrow
    exact hpresent row hrow.1 (honly row hrow.1 (by simpa using hrow.2))
  -- the other rows fill the array, so the retiring row's entry is not in it
  have hgone : Gone c t retired.id s := by
    intro row hrow hid hin
    have hnodup : ((livePair c t s).map (·.fingerprint)).Nodup :=
      h.fingerprintsNodup.sublist (List.filter_sublist.map _)
    have hsub : ∀ m ∈ (livePair c t s).map (·.fingerprint), m ∈ entries s c t := by
      intro m hm
      obtain ⟨row', hrow', rfl⟩ := List.mem_map.mp hm
      by_cases hid' : row'.id = retired.id
      · have heq : row' = row := eq_of_id h.idsNodup
          (mem_pairRows.mp (mem_livePair.mp hrow').1).1 (mem_pairRows.mp hrow).1
          (hid'.trans hid.symm)
        exact heq ▸ hin
      · exact hpresent row' hrow' (honly row' hrow' hid')
    have hle := (List.subperm_of_subset hnodup hsub).length_le
    rw [List.length_map, hlen] at hle
    omega
  exact
    { mirrored := h.setRevoked hgone
      rows_eq := (livePair_settle _).symm
      entries_eq := rfl
      names := fun current hn => hn.updateStatus _ _
      located := fun _ _ row hrow => hothers row hrow
      fresh_eq := rfl
      basic := fun hb => absurd hb ht }

theorem upholds_settleLostRetirement (h : Mirrored c t s) (hs : Settleable c t s)
    (hlen : length = if t = .basicauth then (livePair c t s).length else (entries s c t).length) :
    Upholds c t (settleLostRetirement (livePair c t s) length)
      (fun rows s' => Settled c t s rows s') (fun _ s' => Mirrored c t s') s := by
  rw [settleLostRetirement]
  split
  · exact upholds_pure (settled_refl h)
  rename_i hone
  rw [not_not] at hone
  have ht : t ≠ .basicauth := by
    intro ht
    rw [hlen, if_pos ht] at hone
    omega
  rw [hlen, if_neg ht] at hone
  split
  · rename_i retired hret
    have hsettled := settled_settleRow h hs ht hone hret
    refine Upholds.bind (M := fun settled s' => settled = true ∧
      s' = updateStatus retired.id .revoked s ∨ settled = false ∧ s = s') ?_ ?_ (fun _ _ hs => hs)
    · refine wpe_transaction ?_ ?_ ?_
      · rintro _ rfl settled s' hok
        split at hok
        · cases hok
          exact ⟨h, .inr ⟨rfl, rfl⟩⟩
        · split at hok
          · cases hok
            exact ⟨h, .inr ⟨rfl, rfl⟩⟩
          · cases hok
            exact ⟨hsettled.mirrored, .inl ⟨rfl, rfl⟩⟩
      · rintro _ rfl e _
        exact h
      · rintro _ rfl
        exact ⟨h, h⟩
    · rintro settled s' (⟨rfl, rfl⟩ | ⟨rfl, rfl⟩)
      · exact upholds_pure hsettled
      · exact upholds_pure (settled_refl h)
  · exact upholds_pure (settled_refl h)

theorem resolveCredentialIndex_index
    (h : resolveCredentialIndex rows target length = .ok (.index i)) :
    rows.length = length ∧ ∃ row, rows[i]? = some row ∧ row.id = target.id := by
  rw [resolveCredentialIndex] at h
  split at h
  · cases h
  rename_i j hj
  split at h
  · split at h <;> cases h
  rename_i hlen
  split at h
  · cases h
  cases h
  obtain ⟨hlt, hid, -⟩ := List.findIdx?_eq_some_iff_getElem.mp hj
  exact ⟨not_not.mp hlen, rows[i], List.getElem?_eq_getElem hlt, by simpa using hid⟩

theorem resolveCredentialIndex_notLive
    (h : resolveCredentialIndex rows target length = .ok .notLive) :
    ∀ row ∈ rows, row.id ≠ target.id := by
  rw [resolveCredentialIndex] at h
  split at h
  · rename_i hj
    simpa using List.findIdx?_eq_none_iff.mp hj
  · split at h
    · split at h <;> cases h
    · split at h <;> cases h

theorem assertPositionsConfirmed_ok (h : assertPositionsConfirmed rows t = .ok ()) :
    t = .basicauth → ∀ row ∈ rows, row.status ≠ .retiring := by
  intro ht
  rw [assertPositionsConfirmed, if_neg (by simpa using ht)] at h
  split at h
  · rename_i hzero
    simpa [List.filter_eq_nil_iff] using List.length_eq_zero_iff.mp hzero
  · split at h <;> cases h

/-- Before a row is addressed by an index, its positions were confirmed. -/
theorem placeRevocation_index (h : placeRevocation rows current length options = .ok (.index i)) :
    rows.length = length ∧ (∃ row, rows[i]? = some row ∧ row.id = current.id) ∧
      (current.credentialType = .basicauth → (∀ row ∈ rows, row.status ≠ .retiring) ∧
        options.clearType = false ∧ ∃ row ∈ rows, row.id ≠ current.id ∧ row.status = .active) := by
  rw [placeRevocation] at h
  split at h
  · rename_i position hposition
    cases h
    rw [revokePosition] at hposition
    split at hposition
    · rename_i hlisted
      obtain ⟨hlen, hrow⟩ := resolveCredentialIndex_index hposition
      exact ⟨hlen, hrow, fun hb => absurd hb hlisted⟩
    · split at hposition
      · cases hposition
      · split at hposition
        · cases hposition
        · rename_i hclear
          split at hposition
          · cases hposition
          · rename_i hother
            split at hposition
            · cases hposition
            · rename_i hconfirmed
              obtain ⟨hlen, hrow⟩ := resolveCredentialIndex_index hposition
              refine ⟨hlen, hrow, fun hb => ⟨assertPositionsConfirmed_ok hconfirmed hb, ?_, ?_⟩⟩
              · simpa using hclear
              · simpa using hother
  · split at h <;> cases h

theorem placeRevocation_notLive (h : placeRevocation rows current length options = .ok .notLive) :
    ∀ row ∈ rows, row.id ≠ current.id := by
  rw [placeRevocation] at h
  split at h
  · rename_i position hposition
    cases h
    rw [revokePosition] at hposition
    split at hposition
    · exact resolveCredentialIndex_notLive hposition
    · split at hposition
      · rename_i hany
        simpa using hany
      · split at hposition
        · cases hposition
        · split at hposition
          · cases hposition
          · split at hposition
            · cases hposition
            · exact resolveCredentialIndex_notLive hposition
  · split at h <;> cases h

/-- Confirmed positions of a located pair: the array is the live rows' entries. -/
theorem entries_eq_of_confirmed (h : Mirrored c t s) (hl : Located c t s)
    (hc : Confirmed c t s) : entries s c t = liveFingerprints c t s := by
  have hsub : ∀ m ∈ liveFingerprints c t s, m ∈ entries s c t := by
    intro m hm
    obtain ⟨row, hrow, rfl⟩ := mem_liveFingerprints.mp hm
    exact hl hc row hrow
  by_cases ht : t = .basicauth
  · exact h.aligned.eq_of_mem hsub (h.backed ht)
  · rw [Confirmed, if_neg ht] at hc
    exact h.aligned.eq_of_length hsub (by simpa [liveFingerprints] using hc)

/-- The index of a row is the index of its entry. -/
theorem entry_at_index {s₀ : World} {row : CredentialRecord} (h : Settled c t s₀ rows s)
    (hl : Located c t s) (hn : Names c t current s)
    (hlen : length = if t = .basicauth then (livePair c t s₀).length else (entries s₀ c t).length)
    (hrows : rows.length = length) (hb : t = .basicauth → ∀ row ∈ rows, row.status ≠ .retiring)
    (hrow : rows[i]? = some row) (hid : row.id = current.id) :
    (entries s c t)[i]? = some current.fingerprint := by
  have hconfirmed : Confirmed c t s := by
    rw [Confirmed]
    split
    · rename_i ht
      rw [← h.rows_eq]
      exact hb ht
    · rename_i ht
      rw [← h.rows_eq, hrows, hlen, if_neg ht, h.entries_eq]
  rw [entries_eq_of_confirmed h.mirrored hl hconfirmed, liveFingerprints, ← h.rows_eq,
    List.getElem?_map, hrow]
  have hmem : row ∈ livePair c t s := h.rows_eq ▸ List.mem_of_getElem? hrow
  simpa using hn row (mem_livePair.mp hmem).1 hid

/-! ## Revocation -/

theorem upholds_deleteDidNotApply (h : Mirrored c t s) (length : ℕ) :
    Upholds c t (deleteDidNotApply c t length) (fun _ s' => s = s') E s := by
  rw [deleteDidNotApply]
  split
  · exact upholds_pure rfl
  · refine (upholds_reread (E := E) h).andThen ?_
    rintro live s' ⟨-, rfl⟩
    split
    · exact upholds_pure rfl
    · exact upholds_pure rfl

theorem upholds_unretire (h : Mirrored c t s) (id : ℕ) :
    Upholds c t (unretire id) (fun _ s' => Mirrored c t s') (fun _ s' => Mirrored c t s') s := by
  have hm := h.setLiveIf id .retiring .active rfl
  refine (upholds_commit h hm fun _ => h).imp ?_
  rintro a s' ⟨-, rfl⟩
  exact hm

theorem upholds_withdrawRetirement (h : Mirrored c t s) (credential : CredentialRecord) :
    Upholds c t (withdrawRetirement credential) (fun _ s' => Mirrored c t s') E s := by
  have hattempt : ∀ s, Mirrored c t s → Upholds c t (swallow (unretire credential.id))
      (fun _ s' => Mirrored c t s') E s :=
    fun s h => (wpe_swallow _).mpr (upholds_unretire h credential.id)
  refine (hattempt s h).andThen ?_
  intro first s₁ h₁
  split
  · exact upholds_pure h₁
  · refine (hattempt s₁ h₁).andThen ?_
    intro second s₂ h₂
    split
    · exact upholds_pure h₂
    · exact wpe_bestEffort (upholds_unretire h₂ credential.id)

/-- What a confirmed delete establishes about the row it was issued for. -/
structure Removed (c : ConsumerId) (t : CredentialType) (current : CredentialRecord)
    (position : Position) (s s' : World) : Prop where
  mirrored : Mirrored c t s'
  gone : Gone c t current.id s'
  emptied : position = .wholeType → entries s' c t = []
  erased : ∀ i, position = .index i → entries s' c t = (entries s c t).eraseIdx i
  rows_eq : s'.rows = s.rows

theorem upholds_removeAt (h : Mirrored c t s) (position : Position) (hn : Names c t current s)
    (hlive : position ≠ .notLive)
    (hi : ∀ i, position = .index i → (entries s c t)[i]? = some current.fingerprint) :
    Upholds c t (removeAt c t position current.fingerprint)
      (fun _ s' => Removed c t current position s s')
      (fun _ s' => Mirrored c t s' ∧ ∀ i, position = .index i → entries s' c t = entries s c t ∨
        entries s' c t = (entries s c t).eraseIdx i) s := by
  cases position with
  | index i =>
    refine Upholds.mono (upholds_deleteCredentialAt h (hi i rfl)) ?_ ?_
    · rintro _ s' ⟨hm, hrows, hentries⟩
      refine ⟨hm, ?_, by simp, ?_, hrows⟩
      · intro row hrow hid
        rw [hn.of_rows hrows row hrow hid, hentries, eraseIdx_eq_filter h.entriesNodup (hi i rfl)]
        simp
      · rintro j ⟨⟩
        exact hentries
    · rintro _ s' ⟨hm, -, hentries⟩
      refine ⟨hm, ?_⟩
      rintro j ⟨⟩
      exact hentries
  | wholeType =>
    refine Upholds.mono (upholds_deleteCredentialType h) ?_ ?_
    · rintro _ s' ⟨hm, hrows, hentries⟩
      refine ⟨hm, ?_, fun _ => hentries, by simp, hrows⟩
      intro row _ _
      simp [hentries]
    · exact fun _ s' hs => ⟨hs.1, by simp⟩
  | notLive => exact absurd rfl hlive

theorem upholds_removeRetiring (h : Mirrored c t s) (position : Position)
    (hc : current.ferrumConsumerId = c) (ht : current.credentialType = t) (hn : Names c t current s)
    (hlive : position ≠ .notLive)
    (hi : ∀ i, position = .index i → (entries s c t)[i]? = some current.fingerprint)
    (length : ℕ) :
    Upholds c t (removeRetiring current position length)
      (fun _ s' => Removed c t current position s s') (fun _ s' => Mirrored c t s') s := by
  rw [removeRetiring, hc, ht]
  refine (wpe_tryCatch _ _).mpr (Upholds.mono (upholds_removeAt h position hn hlive hi)
    (fun _ _ hs => hs) ?_)
  rintro error s' ⟨hm, -⟩
  refine (upholds_deleteDidNotApply hm length).andThen ?_
  rintro unapplied _ rfl
  split
  · refine (upholds_withdrawRetirement hm current).andThen ?_
    exact fun _ _ hs => upholds_throw hs
  · exact upholds_throw hm

theorem upholds_retireAndRemove (h : Mirrored c t s) (position : Position)
    (hc : current.ferrumConsumerId = c) (ht : current.credentialType = t) (hn : Names c t current s)
    (hlive : position ≠ .notLive)
    (hi : ∀ i, position = .index i → (entries s c t)[i]? = some current.fingerprint)
    (length : ℕ) :
    Upholds c t (retireAndRemove current position length)
      (fun _ s' => Removed c t current position (updateStatus current.id .retiring s) s')
      (fun _ s' => Mirrored c t s') s := by
  refine (upholds_setLive h current.id .retiring rfl fun _ => h).andThen ?_
  rintro _ _ rfl
  exact upholds_removeRetiring (h.setLive _ _ rfl) position hc ht (hn.updateStatus _ _) hlive hi
    length

theorem upholds_revokeAt (h : Mirrored c t s) {position : Position}
    (hc : current.ferrumConsumerId = c) (ht : current.credentialType = t) (hn : Names c t current s)
    (hdead : position = .notLive → Gone c t current.id s)
    (hi : ∀ i, position = .index i → (entries s c t)[i]? = some current.fingerprint)
    (actor : UserRecord) (options : RevokeOptions) (length : ℕ) :
    Upholds c t (revokeAt rows current actor options length position)
      (fun swept s' => Mirrored c t s' ∧ Gone c t current.id s' ∧
        ∀ row ∈ swept, Gone c t row.id s')
      (fun _ s' => Mirrored c t s') s := by
  cases position with
  | notLive => exact upholds_pure ⟨h, hdead rfl, by simp⟩
  | index i =>
    refine (upholds_retireAndRemove h _ hc ht hn (by simp) hi length).andThen ?_
    exact fun _ s' hs => upholds_pure ⟨hs.mirrored, hs.gone, by simp⟩
  | wholeType =>
    refine Upholds.andThen (M := fun _ s' => s = s') (wpe_ensure (fun _ => rfl) fun _ => h) ?_
    rintro _ _ rfl
    refine (upholds_retireAndRemove h _ hc ht hn (by simp) (by simp) length).andThen ?_
    refine fun _ s' hs => upholds_pure ⟨hs.mirrored, hs.gone, ?_⟩
    intro row _ row' _ _
    simp [hs.emptied rfl]

/-- The length an operation compares its rows with. -/
theorem edgeArrayLength_eq (hc : s.consumers c = some consumer) (fallback : ℕ) :
    edgeArrayLength (projection s consumer) t fallback =
      if t = .basicauth then fallback else (entries s c t).length := by
  rw [edgeArrayLength]
  split
  · rfl
  · rename_i ht
    simp [listed, projection, ht, entries, hc]

/-- A revocation that empties an HTTP Basic type: asked to, or because no other
row of the pair is active. It needs no position. -/
def Emptying (c : ConsumerId) (t : CredentialType) (credentialId : ℕ) (clearType : Bool)
    (s : World) : Prop :=
  t = .basicauth ∧
    (clearType = true ∨ ∀ row ∈ livePair c t s, row.id = credentialId ∨ row.status ≠ .active)

theorem upholds_revokeOnGateway (h : Mirrored c t s) (hs : Settleable c t s)
    (hl : Located c t s ∨ Emptying c t current.id options.clearType s)
    (hc : current.ferrumConsumerId = c) (ht : current.credentialType = t)
    (hn : Names c t current s) (actor : UserRecord) :
    Upholds c t (revokeOnGateway ((s.consumers c).map (projection s)) (livePair c t s) current
        actor options)
      (fun swept s' => Mirrored c t s' ∧ Gone c t current.id s' ∧
        ∀ row ∈ swept, Gone c t row.id s')
      (fun _ s' => Mirrored c t s') s := by
  cases hconsumer : s.consumers c with
  | none =>
    refine upholds_pure ⟨h, ?_, by simp⟩
    intro row _ _
    simp [entries, hconsumer]
  | some consumer =>
    have hlen := edgeArrayLength_eq (t := t) hconsumer (livePair c t s).length
    simp only [Option.map_some, revokeOnGateway, ht]
    refine (upholds_settleLostRetirement h hs hlen).andThen ?_
    intro rows s' hsettled
    refine Upholds.andThen (M := fun position s₁ => s' = s₁ ∧
      placeRevocation rows current _ options = .ok position)
      (wpe_check (fun _ hp => ⟨rfl, hp⟩) fun _ _ => hsettled.mirrored) ?_
    rintro position _ ⟨rfl, hposition⟩
    have hnames := hsettled.names current hn
    refine upholds_revokeAt hsettled.mirrored hc ht hnames ?_ ?_ actor options _
    · rintro rfl row hrow hid
      have hdead := placeRevocation_notLive hposition
      refine hsettled.mirrored.revokedGone row hrow ?_
      by_contra hlive
      exact hdead row (hsettled.rows_eq ▸ mem_livePair.mpr ⟨hrow, (isLive_iff _).mpr hlive⟩) hid
    · rintro i rfl
      obtain ⟨hrows, ⟨row, hrow, hid⟩, hb⟩ := placeRevocation_index hposition
      have hlocated : Located c t s := by
        rcases hl with hl | ⟨hbasic, hempty⟩
        · exact hl
        · obtain ⟨-, hclear, other, hother, hoid, hactive⟩ := hb (ht.trans hbasic)
          rw [hsettled.rows_eq, hsettled.basic hbasic] at hother
          rcases hempty with hempty | hempty
          · rw [hclear] at hempty
            cases hempty
          · rcases hempty other hother with heq | hne
            · exact absurd heq hoid
            · exact absurd hactive hne
      exact entry_at_index hsettled (hsettled.located hlocated) hnames hlen hrows
        (fun hbasic => (hb (ht.trans hbasic)).1) hrow hid

/-- The rows the service may act on: any row with the credential's id belongs to
the pair. -/
def Addresses (c : ConsumerId) (t : CredentialType) (id : ℕ) (s : World) : Prop :=
  ∀ row ∈ s.rows, row.id = id → row.ferrumConsumerId = c ∧ row.credentialType = t

theorem names_of_mem (h : Mirrored c t s) (hmem : current ∈ s.rows) :
    Names c t current s := by
  intro row hrow hid
  rw [eq_of_id h.idsNodup (mem_pairRows.mp hrow).1 hmem hid]

theorem upholds_revokeCredentialRow (h : Mirrored c t s) (hs : Settleable c t s)
    (hl : Located c t s ∨ Emptying c t target.id options.clearType s)
    (hc : target.ferrumConsumerId = c) (ht : target.credentialType = t)
    (ha : Addresses c t target.id s) (actor : UserRecord) :
    Upholds c t (revokeCredentialRow target actor options) (fun _ s' => Mirrored c t s')
      (fun _ s' => Mirrored c t s') s := by
  rw [revokeCredentialRow, hc, ht]
  refine (upholds_storeRead h fun _ => h).andThen ?_
  rintro found _ ⟨rfl, rfl⟩
  cases hfound : findById s target.id with
  | none => exact upholds_pure h
  | some current =>
    obtain ⟨hmem, hid⟩ := findById_mem hfound
    obtain ⟨hcc, hct⟩ := ha current hmem hid
    dsimp only
    split
    · exact upholds_pure h
    refine (upholds_getConsumer h fun _ => h).andThen ?_
    rintro consumer _ ⟨rfl, rfl⟩
    refine (upholds_readLiveRows h fun _ => h).andThen ?_
    rintro live _ ⟨rfl, rfl⟩
    refine Upholds.andThen (M := fun _ s₁ => s = s₁) (wpe_ensure (fun _ => rfl) fun _ => h) ?_
    rintro _ _ rfl
    refine (upholds_revokeOnGateway h hs (hid ▸ hl) hcc hct (names_of_mem h hmem) actor).andThen ?_
    rintro swept s' ⟨hm, hgone, hswept⟩
    have hsettled := hm.settleRevoked hgone hswept
    refine (upholds_commit hm hsettled fun _ => hm).imp ?_
    rintro _ _ ⟨-, rfl⟩
    exact hsettled

/-! ## Appending -/

theorem upholds_withdrawAppendedEntry (h : Mirrored c t s) {appendIndex fingerprint : ℕ}
    (hlast : (entries s c t).length = appendIndex + 1 →
      (entries s c t)[appendIndex]? = some fingerprint) :
    Upholds c t (withdrawAppendedEntry c t appendIndex fingerprint)
      (fun w s' => Mirrored c t s' ∧ s'.rows = s.rows ∧ (t = .basicauth → w.withdrawn = false))
      E s := by
  rw [withdrawAppendedEntry]
  split
  · exact upholds_pure ⟨h, rfl, fun _ => rfl⟩
  rename_i ht
  refine (upholds_reread (E := E) h).andThen ?_
  rintro live _ ⟨hlive, rfl⟩
  split
  · exact upholds_pure ⟨h, rfl, fun hb => absurd hb ht⟩
  · exact upholds_pure ⟨h, rfl, fun hb => absurd hb ht⟩
  · rename_i view
    obtain ⟨consumer, hconsumer, hview⟩ : ∃ consumer, s.consumers c = some consumer ∧
        view = projection s consumer := by
      rcases hlive with hlive | hlive
      · cases hlive
      · cases hconsumer : s.consumers c with
        | none => simp [hconsumer] at hlive
        | some consumer =>
          rw [hconsumer, Option.map_some, Option.some.injEq, Option.some.injEq] at hlive
          exact ⟨consumer, rfl, hlive⟩
    have hlisted : (listed view t).length = (entries s c t).length := by
      simp [hview, listed, projection, ht, entries, hconsumer]
    split
    · exact upholds_pure ⟨h, rfl, fun hb => absurd hb ht⟩
    · split
      · exact upholds_pure ⟨h, rfl, fun hb => absurd hb ht⟩
      · rename_i hshape
        rw [not_or, not_not, hlisted] at hshape
        refine (wpe_tryCatch _ _).mpr ?_
        refine Upholds.bind (upholds_deleteCredentialAt h (hlast hshape.1)) ?_ ?_
        · rintro _ s' ⟨hm, hrows, -⟩
          exact upholds_pure ⟨hm, hrows, fun hb => absurd hb ht⟩
        · rintro _ s' ⟨hm, hrows, -⟩
          refine (upholds_reread (E := E) hm).andThen ?_
          rintro after _ ⟨-, rfl⟩
          exact upholds_pure ⟨hm, hrows, fun hb => absurd hb ht⟩

/-- What an append that returned a row has done. -/
structure Appended (c : ConsumerId) (t : CredentialType) (material : ℕ) (s : World)
    (created : CredentialRecord) (s' : World) : Prop where
  mirrored : Mirrored c t s'
  entries_eq : entries s' c t = entries s c t ++ [material]
  fingerprint_eq : t ≠ .basicauth → created.fingerprint = material
  names : ∀ current, current.id < s.fresh → Names c t current s → Names c t current s'

/-- Material nobody has seen: drawn from the counter, and on neither side yet. -/
structure Unused (c : ConsumerId) (t : CredentialType) (material : ℕ) (s : World) : Prop where
  drawn : material < s.fresh
  noEntry : material ∉ entries s c t
  noRow : ∀ row ∈ pairRows c t s, row.fingerprint ≠ material

theorem names_createRow {input : CreateInput} (hc : input.ferrumConsumerId = c)
    (ht : input.credentialType = t) (hid : current.id < s.fresh) (hn : Names c t current s) :
    Names c t current (createRow input s).2 := by
  intro row hrow heq
  rw [pairRows_createRow hc ht, List.mem_append, List.mem_singleton] at hrow
  rcases hrow with hrow | rfl
  · exact hn row hrow heq
  · rw [show (createRow input s).1.id = s.fresh from rfl] at heq
    omega

/-- An append the caller may see fail although it landed. `landed` is what the
invariant says once the entry is in the array. -/
theorem upholds_addCredential (h : Mirrored c t s)
    (landed : ∀ consumer, s.consumers c = some consumer →
      Mirrored c t (setEntries c t (entries s c t ++ [material]) s)) :
    Upholds c t (addCredential c t material)
      (fun _ s' => Mirrored c t s' ∧ s'.rows = s.rows ∧ s'.fresh = s.fresh ∧
        entries s' c t = entries s c t ++ [material])
      (fun e s' => s = s' ∨ definiteRefusal e.status = false ∧ Mirrored c t s' ∧
        s'.rows = s.rows ∧ entries s' c t = entries s c t ++ [material]) s := by
  refine wpe_edgeWrite ?_ ?_ ?_
  · rintro _ rfl a s' hok
    split at hok
    · contradiction
    · rename_i consumer hconsumer
      cases hok
      have hm := landed consumer hconsumer
      have hentries := entries_setEntries (t := t) hconsumer (entries s c t ++ [material])
      exact ⟨hm, ⟨hm, rows_setEntries _, fresh_setEntries _, hentries⟩,
        fun st hst => .inr ⟨hst, hm, rows_setEntries _, hentries⟩⟩
  · rintro _ rfl e _
    exact .inl rfl
  · rintro _ rfl
    exact ⟨h, fun _ => .inl rfl⟩

theorem mirrored_append (h : Mirrored c t s) (hdrawn : material < s.fresh)
    (hentry : material ∉ entries s c t)
    (haligned : Aligned (entries s c t ++ [material]) (liveFingerprints c t s))
    (hrow : ∀ row ∈ pairRows c t s, row.status = .revoked → row.fingerprint ≠ material)
    (hbacked : t = .basicauth → material ∈ liveFingerprints c t s)
    (hconsumer : s.consumers c = some consumer) :
    Mirrored c t (setEntries c t (entries s c t ++ [material]) s) := by
  refine h.of_entries (rows_setEntries _) (fresh_setEntries _) (entries_setEntries hconsumer _)
    ?_ ?_ haligned ?_ ?_ ?_
  · rw [List.nodup_append]
    refine ⟨h.entriesNodup, List.nodup_singleton _, ?_⟩
    intro a ha b hb hab
    rw [List.mem_singleton] at hb
    exact hentry (hb ▸ hab ▸ ha)
  · intro m hm
    rcases List.mem_append.mp hm with hm | hm
    · exact h.entriesFresh m hm
    · exact List.mem_singleton.mp hm ▸ hdrawn
  · intro row hmem hrev hm
    rcases List.mem_append.mp hm with hm | hm
    · exact h.revokedGone row hmem hrev hm
    · exact hrow row hmem hrev (List.mem_singleton.mp hm)
  · intro hb m hm
    rcases List.mem_append.mp hm with hm | hm
    · exact h.backed hb m hm
    · exact List.mem_singleton.mp hm ▸ hbacked hb
  · rw [removals_setEntries]
    exact h.removalsRight

theorem Unused.not_live (hu : Unused c t material s) :
    material ∉ liveFingerprints c t s := by
  rw [mem_liveFingerprints]
  rintro ⟨row, hrow, heq⟩
  exact hu.noRow row (mem_livePair.mp hrow).1 heq

/-- The entry first, the row after it. -/
theorem upholds_appendListed (h : Mirrored c t s) (hc : input.consumerId = c) (ht : input.type = t)
    (hlisted : t ≠ .basicauth) (hindex : input.appendIndex = (entries s c t).length)
    (hu : Unused c t material s) :
    Upholds c t (appendListed input material)
      (fun created s' => Appended c t material s created s') (fun _ s' => Mirrored c t s') s := by
  have hlast : ∀ s', entries s' c t = entries s c t ++ [material] →
      (entries s' c t).length = input.appendIndex + 1 →
        (entries s' c t)[input.appendIndex]? = some material := by
    intro s' hentries _
    simp [hentries, hindex]
  have hwithdraw : ∀ (s' : World) (error : NexusError), Mirrored c t s' →
      ((entries s' c t).length = input.appendIndex + 1 →
        (entries s' c t)[input.appendIndex]? = some material) → ∀ (α : Type)
      (Q : α → World → Prop), Upholds c t (do
        let _ ← withdrawAppendedEntry c t input.appendIndex material
        throw error) Q (fun _ s' => Mirrored c t s') s' := by
    intro s' error hm hlast α Q
    refine (upholds_withdrawAppendedEntry hm hlast).andThen ?_
    exact fun _ _ hs => upholds_throw hs.1
  rw [appendListed, hc, ht]
  refine Upholds.andThen (M := fun _ s' => Mirrored c t s' ∧ s'.rows = s.rows ∧ s'.fresh = s.fresh ∧
    entries s' c t = entries s c t ++ [material]) ?_ ?_
  · refine (wpe_tryCatch _ _).mpr (Upholds.mono (upholds_addCredential h ?_) (fun _ _ hs => hs) ?_)
    · intro consumer hconsumer
      exact mirrored_append h hu.drawn hu.noEntry (h.aligned.append_left hu.not_live)
        (fun row hrow _ => hu.noRow row hrow) (fun hb => absurd hb hlisted) hconsumer
    · rintro error s' (rfl | ⟨-, hm, -, hentries⟩)
      · exact hwithdraw s error h (by omega) _ _
      · exact hwithdraw s' error hm (hlast s' hentries) _ _
  · rintro _ s₁ ⟨hm, hrows, hfresh, hentries⟩
    have hpair : pairRows c t s₁ = pairRows c t s := by rw [pairRows, hrows, pairRows]
    have hcreated : Mirrored c t (createRow (input.row material .active) s₁).2 := by
      refine hm.createRow hc ht rfl ?_ ?_ (.inr ⟨entries s c t, hentries⟩)
      · rw [hfresh]
        exact hu.drawn
      · rw [hpair]
        exact hu.noRow
    refine (wpe_tryCatch _ _).mpr (wpe_transaction ?_ ?_ ?_)
    · rintro _ rfl created s' hok
      cases hok
      refine ⟨hcreated, hcreated, hentries, fun _ => rfl, ?_⟩
      intro current hid hn
      exact names_createRow hc ht (hfresh ▸ hid) (hn.of_rows hrows)
    · rintro _ rfl e herr
      cases herr
    · rintro _ rfl
      exact ⟨hm, hwithdraw s₁ _ hm (hlast s₁ hentries) _ _⟩

/-- The row of an HTTP Basic entry is there before the entry can be. -/
theorem mirrored_pending (h : Mirrored c t s) (hc : input.consumerId = c) (ht : input.type = t)
    (hu : Unused c t material s) :
    Mirrored c t (createRow (input.row material .retiring) s).2 :=
  h.createRow hc ht rfl hu.drawn hu.noRow (.inl hu.noEntry)

theorem mirrored_pending_append (h : Mirrored c t s) (hc : input.consumerId = c)
    (ht : input.type = t) (hu : Unused c t material s)
    (hconsumer : (createRow (input.row material .retiring) s).2.consumers c = some consumer) :
    Mirrored c t (setEntries c t (entries s c t ++ [material])
      (createRow (input.row material .retiring) s).2) := by
  have hm := mirrored_pending h hc ht hu
  have hlive : liveFingerprints c t (createRow (input.row material .retiring) s).2 =
      liveFingerprints c t s ++ [material] := liveFingerprints_createRow hc ht rfl
  refine mirrored_append hm (Nat.lt_succ_of_lt hu.drawn) hu.noEntry ?_ ?_ ?_ hconsumer
  · have haligned := hm.aligned
    rw [hlive] at haligned ⊢
    exact haligned.append_left_last hu.noEntry hu.not_live
  · intro row hrow hrev
    rw [pairRows_createRow hc ht, List.mem_append, List.mem_singleton] at hrow
    rcases hrow with hrow | rfl
    · exact hu.noRow row hrow
    · cases hrev
  · intro _
    rw [hlive]
    exact List.mem_append_right _ (List.mem_singleton_self _)

theorem upholds_activatePending (h : Mirrored c t s) (id : ℕ) :
    Upholds c t (activatePending id)
      (fun _ s' => Mirrored c t s' ∧ s' = updateStatus id .active s)
      (fun _ s' => Mirrored c t s') s := by
  refine wpe_transaction ?_ ?_ ?_
  · rintro _ rfl a s' hok
    split at hok
    · rename_i activated s₂ hmoved
      cases hok
      have heq : s' = updateStatus id .active s := by
        rw [updateIfStatus] at hmoved
        split at hmoved
        · split at hmoved
          · exact (Prod.ext_iff.mp hmoved).2.symm
          · cases hmoved
        · cases hmoved
      rw [heq]
      exact ⟨h.setLive id _ rfl, h.setLive id _ rfl, rfl⟩
    · cases hok
  · exact fun _ hs e _ => hs ▸ h
  · exact fun _ hs => ⟨hs ▸ h, hs ▸ h⟩

theorem upholds_remarkRevoked (h : Mirrored c t s) (id : ℕ) :
    Upholds c t (remarkRevoked id) (fun _ s' => Mirrored c t s')
      (fun _ s' => Mirrored c t s') s := by
  have hm := h.setLiveIf id .revoked .retiring rfl
  refine (upholds_commit h hm fun _ => h).imp ?_
  rintro a s' ⟨-, rfl⟩
  exact hm

theorem upholds_appendBasicAuth (h : Mirrored c t s) (hc : input.consumerId = c)
    (ht : input.type = t) (hb : t = .basicauth) (hu : Unused c t material s) :
    Upholds c t (appendBasicAuth input material)
      (fun created s' => Appended c t material s created s') (fun _ s' => Mirrored c t s') s := by
  have hpending := mirrored_pending h hc ht hu
  rw [appendBasicAuth, hc, ht]
  refine Upholds.andThen (M := fun pending s' => pending.id = s.fresh ∧
    s' = (createRow (input.row material .retiring) s).2) ?_ ?_
  · refine wpe_transaction ?_ ?_ ?_
    · rintro _ rfl pending s' hok
      cases hok
      exact ⟨hpending, rfl, rfl⟩
    · rintro _ rfl e herr
      cases herr
    · rintro _ rfl
      exact ⟨h, h⟩
  rintro pending _ ⟨hid, rfl⟩
  refine Upholds.andThen (M := fun _ s' => Mirrored c t s' ∧
    s'.rows = (createRow (input.row material .retiring) s).2.rows ∧
      entries s' c t = entries s c t ++ [material]) ?_ ?_
  · refine (wpe_tryCatch _ _).mpr (Upholds.mono (upholds_addCredential hpending
      fun consumer hconsumer => mirrored_pending_append h hc ht hu hconsumer) ?_ ?_)
    · rintro _ s' ⟨hm, hrows, -, hentries⟩
      exact ⟨hm, hrows, hentries⟩
    · rintro error s' (rfl | ⟨hst, hm, -, -⟩)
      · split
        · -- a definite refusal: the entry is not there, so the row may go
          have hgone : Gone c t pending.id (createRow (input.row material .retiring) s).2 := by
            intro row hrow heq
            have hnames : row.fingerprint = material := by
              rw [pairRows_createRow hc ht, List.mem_append, List.mem_singleton] at hrow
              rcases hrow with hrow | rfl
              · have hlt := h.idsFresh row (mem_pairRows.mp hrow).1
                omega
              · rfl
            rw [hnames]
            exact hu.noEntry
          have hdeleted := hpending.deleteRow _ fun _ => hgone
          refine (upholds_commit hpending hdeleted fun _ => hpending).andThen ?_
          rintro _ _ ⟨-, rfl⟩
          exact upholds_throw hdeleted
        · exact upholds_throw hpending
      · rw [if_neg (by simp [hst])]
        exact upholds_throw hm
  · rintro _ s₁ ⟨hm, hrows, hentries⟩
    refine (wpe_tryCatch _ _).mpr (Upholds.mono (upholds_activatePending hm pending.id) ?_ ?_)
    · rintro created s' ⟨hm', rfl⟩
      refine ⟨hm', hentries, fun hlisted => absurd hb hlisted, ?_⟩
      intro current hlt hn
      exact ((names_createRow hc ht hlt hn).of_rows hrows).updateStatus _ _
    · intro error s' hm'
      refine Upholds.andThen (M := fun _ s' => Mirrored c t s') ?_ (fun _ _ hs => upholds_throw hs)
      refine (wpe_tryCatch _ _).mpr (Upholds.mono (upholds_remarkRevoked hm' pending.id)
        (fun _ _ hs => hs) ?_)
      exact fun _ s' hs => wpe_bestEffort (upholds_remarkRevoked hs pending.id)

theorem unused_fresh (h : Mirrored c t s) : Unused c t s.fresh { s with fresh := s.fresh + 1 } where
  drawn := Nat.lt_succ_self _
  noEntry := fun hm => absurd (h.entriesFresh _ hm) (lt_irrefl _)
  noRow := fun row hrow heq => absurd (h.fingerprintsFresh row hrow) (by omega)

theorem upholds_appendCredential (h : Mirrored c t s) (hc : input.consumerId = c)
    (ht : input.type = t) (hindex : t ≠ .basicauth → input.appendIndex = (entries s c t).length) :
    Upholds c t (appendCredential input)
      (fun created s' => ∃ material, Appended c t material s created s')
      (fun _ s' => Mirrored c t s') s := by
  refine Upholds.bind (M := fun material s' => material = s.fresh ∧
    s' = { s with fresh := s.fresh + 1 }) (F := fun _ _ => False) ?_ ?_ (fun _ _ he => he.elim)
  · refine (wpe_atomic _).mpr ?_
    rintro _ rfl o r s' hok
    cases hok
    exact ⟨h.generate, rfl, rfl⟩
  rintro material _ ⟨rfl, rfl⟩
  have hlift : ∀ created s', Appended c t s.fresh { s with fresh := s.fresh + 1 } created s' →
      ∃ material, Appended c t material s created s' := by
    intro created s' happ
    refine ⟨s.fresh, happ.mirrored, happ.entries_eq, happ.fingerprint_eq, ?_⟩
    exact fun current hid hn => happ.names current (Nat.lt_succ_of_lt hid) hn
  split
  · rename_i hb
    exact (upholds_appendBasicAuth h.generate hc ht (ht ▸ hb) (unused_fresh h)).imp hlift
  · rename_i hb
    have hlisted : t ≠ .basicauth := ht ▸ hb
    exact (upholds_appendListed h.generate hc ht hlisted (hindex hlisted)
      (unused_fresh h)).imp hlift

end Pair

end FerrumNexus.Credentials
