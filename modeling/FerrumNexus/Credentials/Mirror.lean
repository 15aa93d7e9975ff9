import FerrumNexus.Credentials.Service
import FerrumNexus.Sequences.Alignment

/-!
# What the mirror keeps

For one consumer and type, the array and the live rows agree in order: whatever
both hold, they hold in the same order. Either side may be ahead of the other,
since a lost acknowledgement leaves an entry without a row or a row without an
entry. A revoked row has no entry, an HTTP Basic entry always has a live row,
and every positional delete so far took the entry it was issued for. Each write
of the service is shown to keep this from what the writer knows at that point.
-/
namespace FerrumNexus.Credentials

open Portal Sequences

section Pair

variable (c : ConsumerId) (t : CredentialType)

def pairRows (s : World) : List CredentialRecord :=
  s.rows.filter fun row => row.ferrumConsumerId == c && row.credentialType == t

/-- The live rows of the pair, in table order. -/
def livePair (s : World) : List CredentialRecord :=
  (pairRows c t s).filter fun row => row.status.isLive

def liveFingerprints (s : World) : List ℕ :=
  (livePair c t s).map (·.fingerprint)

/-- No row of the pair with this id has its entry in the array. -/
def Gone (id : ℕ) (s : World) : Prop :=
  ∀ row ∈ pairRows c t s, row.id = id → row.fingerprint ∉ entries s c t

structure Mirrored (s : World) : Prop where
  idsNodup : (s.rows.map (·.id)).Nodup
  idsFresh : ∀ row ∈ s.rows, row.id < s.fresh
  fingerprintsNodup : ((pairRows c t s).map (·.fingerprint)).Nodup
  fingerprintsFresh : ∀ row ∈ pairRows c t s, row.fingerprint < s.fresh
  sorted : (pairRows c t s).Pairwise (rowBefore · ·)
  entriesNodup : (entries s c t).Nodup
  entriesFresh : ∀ m ∈ entries s c t, m < s.fresh
  aligned : Aligned (entries s c t) (liveFingerprints c t s)
  revokedGone : ∀ row ∈ pairRows c t s, row.status = .revoked → row.fingerprint ∉ entries s c t
  backed : t = .basicauth → ∀ m ∈ entries s c t, m ∈ liveFingerprints c t s
  removalsRight : ∀ r ∈ s.removals, r.removed = r.intended

variable {c t} {s : World} {a b row : CredentialRecord} {id : ℕ} {st : CredentialStatus}
  {input : CreateInput}

theorem mem_pairRows :
    row ∈ pairRows c t s ↔ row ∈ s.rows ∧ row.ferrumConsumerId = c ∧ row.credentialType = t := by
  simp [pairRows]

theorem mem_livePair :
    row ∈ livePair c t s ↔ row ∈ pairRows c t s ∧ row.status.isLive = true := by
  simp [livePair]

theorem mem_liveFingerprints {m : ℕ} :
    m ∈ liveFingerprints c t s ↔ ∃ row ∈ livePair c t s, row.fingerprint = m := by
  simp [liveFingerprints]

theorem isLive_iff (st : CredentialStatus) : st.isLive = true ↔ st ≠ .revoked := by
  cases st <;> simp [CredentialStatus.isLive]

theorem rowBefore_ordinalBefore (h : rowBefore a b = true) :
    ordinalBefore a b = true := by
  simp only [rowBefore] at h
  simp only [ordinalBefore]
  split at h <;> simp_all
  omega

/-- Sorting twice changes nothing: the table is in append order already. -/
theorem liveRows_eq (h : (pairRows c t s).Pairwise (rowBefore · ·)) :
    liveRows s c t = livePair c t s := by
  have hsorted : (livePair c t s).Pairwise (rowBefore · ·) := h.sublist List.filter_sublist
  have hfilter : (s.rows.filter fun row => row.ferrumConsumerId == c && row.credentialType == t &&
      row.status.isLive) = livePair c t s := by
    simp only [livePair, pairRows, List.filter_filter]
    apply List.filter_congr
    intro row _
    rw [Bool.and_comm]
  have hlist : listByConsumer s c t = livePair c t s := by
    rw [listByConsumer, hfilter]
    exact hsorted.insertionSort_eq
  have hlive : ((livePair c t s).filter fun row => row.status.isLive) = livePair c t s := by
    rw [List.filter_eq_self]
    exact fun row hrow => (mem_livePair.mp hrow).2
  rw [liveRows, hlist, hlive]
  exact (hsorted.imp rowBefore_ordinalBefore).insertionSort_eq

/-! ## Writes to the rows -/

theorem pairRows_updateStatus (id : ℕ) (st : CredentialStatus) :
    pairRows c t (updateStatus id st s) = (pairRows c t s).map fun row =>
      if row.id = id then { row with status := st, updatedAt := s.now } else row := by
  simp only [pairRows, updateStatus, List.filter_map]
  congr 1
  apply List.filter_congr
  intro row _
  by_cases hid : row.id = id <;> simp [hid]

@[simp] theorem entries_updateStatus (id : ℕ) (st : CredentialStatus) :
    entries (updateStatus id st s) c t = entries s c t := rfl

theorem rowsIds_updateStatus (id : ℕ) (st : CredentialStatus) :
    (updateStatus id st s).rows.map (·.id) = s.rows.map (·.id) := by
  simp only [updateStatus, List.map_map]
  apply List.map_congr_left
  intro row _
  by_cases hid : row.id = id <;> simp [hid]

theorem mem_updateStatus (h : row ∈ pairRows c t (updateStatus id st s)) :
    ∃ old ∈ pairRows c t s, row.id = old.id ∧ row.fingerprint = old.fingerprint ∧
      row.status = if old.id = id then st else old.status := by
  rw [pairRows_updateStatus] at h
  obtain ⟨old, hold, rfl⟩ := List.mem_map.mp h
  refine ⟨old, hold, ?_⟩
  by_cases hid : old.id = id <;> simp [hid]

theorem fingerprints_updateStatus (id : ℕ) (st : CredentialStatus) :
    (pairRows c t (updateStatus id st s)).map (·.fingerprint) =
      (pairRows c t s).map (·.fingerprint) := by
  rw [pairRows_updateStatus, List.map_map]
  apply List.map_congr_left
  intro row _
  by_cases hid : row.id = id <;> simp [hid]

theorem liveFingerprints_filter (p : ℕ → Bool) :
    (liveFingerprints c t s).filter p =
      ((pairRows c t s).filter fun row => row.status.isLive && p row.fingerprint).map
        (·.fingerprint) := by
  simp only [liveFingerprints, livePair, List.filter_map, List.filter_filter]
  congr 1
  apply List.filter_congr
  intro row _
  simp [Bool.and_comm]

/-- A status change is invisible to the array when it keeps the row live, or
when the row's entry is gone. -/
theorem liveFingerprints_updateStatus {p : ℕ → Bool} (h : ∀ row ∈ pairRows c t s, row.id = id →
      st.isLive = row.status.isLive ∨ p row.fingerprint = false) :
    (liveFingerprints c t (updateStatus id st s)).filter p =
      (liveFingerprints c t s).filter p := by
  rw [liveFingerprints_filter, liveFingerprints_filter, pairRows_updateStatus, List.filter_map,
    List.map_map]
  have hfp : ((·.fingerprint) ∘ fun row : CredentialRecord =>
      if row.id = id then { row with status := st, updatedAt := s.now } else row) =
        (·.fingerprint) := by
    funext row
    by_cases hid : row.id = id <;> simp [hid]
  rw [hfp]
  congr 1
  apply List.filter_congr
  intro row hrow
  by_cases hid : row.id = id
  · rcases h row hrow hid with hlive | hp
    · simp [hid, hlive]
    · simp [hid, hp]
  · simp [hid]

theorem Mirrored.updateStatus (h : Mirrored c t s) (hst : ∀ row ∈ pairRows c t s, row.id = id →
      st.isLive = row.status.isLive ∨ row.fingerprint ∉ entries s c t) :
    Mirrored c t (updateStatus id st s) where
  idsNodup := by
    rw [rowsIds_updateStatus]
    exact h.idsNodup
  idsFresh := by
    intro row hrow
    have hid : row.id ∈ s.rows.map (·.id) := by
      rw [← rowsIds_updateStatus id st]
      exact List.mem_map_of_mem hrow
    obtain ⟨old, hold, heq⟩ := List.mem_map.mp hid
    exact heq ▸ h.idsFresh old hold
  fingerprintsNodup := by
    rw [fingerprints_updateStatus]
    exact h.fingerprintsNodup
  fingerprintsFresh := by
    intro row hrow
    obtain ⟨old, hold, -, hfp, -⟩ := mem_updateStatus hrow
    exact hfp ▸ h.fingerprintsFresh old hold
  sorted := by
    rw [pairRows_updateStatus, List.pairwise_map]
    refine h.sorted.imp ?_
    intro a b hab
    by_cases ha : a.id = id <;> by_cases hb : b.id = id <;> simpa [ha, hb, rowBefore] using hab
  entriesNodup := h.entriesNodup
  entriesFresh := h.entriesFresh
  aligned := by
    refine h.aligned.of_filter_eq (liveFingerprints_updateStatus ?_)
    intro row hrow hid
    simpa using hst row hrow hid
  revokedGone := by
    intro row hrow hrev
    obtain ⟨old, hold, -, hfp, hs⟩ := mem_updateStatus hrow
    rw [hfp]
    by_cases hid : old.id = id
    · rcases hst old hold hid with hlive | hgone
      · refine h.revokedGone old hold ?_
        have hdead : old.status.isLive = false := by
          rw [← hlive, ← (by simpa [hid] using hs : row.status = st), hrev]
          rfl
        cases hos : old.status <;> simp_all [CredentialStatus.isLive]
      · exact hgone
    · exact h.revokedGone old hold (by simpa [hid, hrev] using hs.symm)
  backed := by
    intro ht m hm
    have hmem : m ∈ (liveFingerprints c t s).filter (· ∈ entries s c t) :=
      List.mem_filter.mpr ⟨h.backed ht m hm, by simpa using hm⟩
    rw [← liveFingerprints_updateStatus (fun row hrow hid => by simpa using hst row hrow hid)]
      at hmem
    exact (List.mem_filter.mp hmem).1
  removalsRight := h.removalsRight

theorem updateIfStatus_cases (id : ℕ) (expected st : CredentialStatus) :
    (updateIfStatus id expected st s).2 = s ∨
      ((updateIfStatus id expected st s).2 = updateStatus id st s ∧
        ∃ row, findById s id = some row ∧ row.status = expected) := by
  simp only [updateIfStatus]
  split
  · rename_i row hrow
    split
    · rename_i hs
      exact .inr ⟨rfl, row, hrow, hs⟩
    · exact .inl rfl
  · exact .inl rfl

theorem findById_mem (h : findById s id = some row) :
    row ∈ s.rows ∧ row.id = id := by
  refine ⟨List.mem_of_find?_eq_some h, ?_⟩
  simpa using List.find?_some h

/-- Ids are unique, so a lookup finds the row itself. -/
theorem eq_of_id (hn : (s.rows.map (·.id)).Nodup) (ha : a ∈ s.rows) (hb : b ∈ s.rows)
    (hid : a.id = b.id) : a = b :=
  List.inj_on_of_nodup_map hn ha hb hid

/-- A row may always be called live: a revoked one has no entry to disturb. -/
theorem Mirrored.setLive (h : Mirrored c t s) (id : ℕ) (st : CredentialStatus)
    (hst : st.isLive = true) : Mirrored c t (Credentials.updateStatus id st s) := by
  refine h.updateStatus ?_
  intro row hrow _
  by_cases hlive : row.status.isLive = true
  · exact .inl (hst.trans hlive.symm)
  · exact .inr (h.revokedGone row hrow (by simpa [isLive_iff] using hlive))

theorem Mirrored.setRevoked (h : Mirrored c t s) (hgone : Gone c t id s) :
    Mirrored c t (Credentials.updateStatus id .revoked s) :=
  h.updateStatus fun row hrow hid => .inr (hgone row hrow hid)

theorem Mirrored.setLiveIf (h : Mirrored c t s) (id : ℕ) (expected st : CredentialStatus)
    (hst : st.isLive = true) :
    Mirrored c t (updateIfStatus id expected st s).2 := by
  rcases updateIfStatus_cases (s := s) id expected st with heq | ⟨heq, -⟩
  · rw [heq]
    exact h
  · rw [heq]
    exact h.setLive id st hst

theorem Gone.updateStatus (h : Gone c t id s) (id' : ℕ) (st : CredentialStatus) :
    Gone c t id (Credentials.updateStatus id' st s) := by
  intro row hrow hid
  obtain ⟨old, hold, hid', hfp, -⟩ := mem_updateStatus hrow
  rw [hfp]
  exact h old hold (hid'.symm.trans hid)

theorem Mirrored.settleRevoked (h : Mirrored c t s) {current : CredentialRecord}
    {swept : List CredentialRecord} (hgone : Gone c t current.id s)
    (hswept : ∀ row ∈ swept, Gone c t row.id s) :
    Mirrored c t (settleRevoked current swept s) := by
  have hstep : ∀ (rows : List CredentialRecord) (s : World), Mirrored c t s →
      (∀ row ∈ rows, Gone c t row.id s) →
      Mirrored c t (rows.foldl (fun s row => (updateIfStatus row.id row.status .revoked s).2) s) := by
    intro rows
    induction rows with
    | nil => exact fun s h _ => h
    | cons row rows ih =>
      intro s h hg
      rw [List.foldl_cons]
      rcases updateIfStatus_cases (s := s) row.id row.status .revoked with heq | ⟨heq, -⟩
      · rw [heq]
        exact ih s h fun row' hrow' => hg row' (List.mem_cons_of_mem _ hrow')
      · rw [heq]
        refine ih _ (h.setRevoked (hg row List.mem_cons_self)) ?_
        exact fun row' hrow' => (hg row' (List.mem_cons_of_mem _ hrow')).updateStatus _ _
  exact hstep swept _ (h.setRevoked hgone) fun row hrow => (hswept row hrow).updateStatus _ _

theorem foldr_max_ge {rows : List CredentialRecord} (h : row ∈ rows) :
    row.edgeOrdinal.getD 0 ≤ rows.foldr (fun row m => max (row.edgeOrdinal.getD 0) m) 0 := by
  induction rows with
  | nil => simp at h
  | cons a rows ih =>
    rw [List.foldr_cons]
    rcases List.mem_cons.mp h with rfl | h
    · exact le_max_left _ _
    · exact (ih h).trans (le_max_right _ _)

/-- A new row sorts behind every row of its pair. -/
theorem rowBefore_createRow (hc : input.ferrumConsumerId = c) (ht : input.credentialType = t)
    (h : row ∈ pairRows c t s) :
    rowBefore row (createRow input s).1 = true := by
  have hlt : row.edgeOrdinal.getD 0 < nextOrdinal s c t :=
    Nat.lt_succ_of_le (foldr_max_ge h)
  simp only [rowBefore, createRow, hc, ht]
  cases hord : row.edgeOrdinal with
  | none => rfl
  | some n =>
    have hn : n < nextOrdinal s c t := by simpa [hord] using hlt
    simp [hn]

theorem pairRows_createRow (hc : input.ferrumConsumerId = c) (ht : input.credentialType = t) :
    pairRows c t (createRow input s).2 = pairRows c t s ++ [(createRow input s).1] := by
  simp [pairRows, createRow, List.filter_append, hc, ht]

@[simp] theorem entries_createRow (input : CreateInput) :
    entries (createRow input s).2 c t = entries s c t := rfl

theorem liveFingerprints_createRow (hc : input.ferrumConsumerId = c) (ht : input.credentialType = t)
    (hlive : input.status.isLive = true) :
    liveFingerprints c t (createRow input s).2 =
      liveFingerprints c t s ++ [input.fingerprint] := by
  simp only [liveFingerprints, livePair, pairRows_createRow hc ht, List.filter_append,
    List.map_append]
  simp [createRow, hlive]

/-- A live row for material that has no row yet: its entry is the last one, or
is not there. -/
theorem Mirrored.createRow (h : Mirrored c t s) (hc : input.ferrumConsumerId = c)
    (ht : input.credentialType = t) (hlive : input.status.isLive = true)
    (hfresh : input.fingerprint < s.fresh)
    (hnew : ∀ row ∈ pairRows c t s, row.fingerprint ≠ input.fingerprint)
    (hentry : input.fingerprint ∉ entries s c t ∨
      ∃ before, entries s c t = before ++ [input.fingerprint]) :
    Mirrored c t (createRow input s).2 where
  idsNodup := by
    have hrows : (Credentials.createRow input s).2.rows.map (·.id) =
        s.rows.map (·.id) ++ [s.fresh] := by
      simp [Credentials.createRow]
    rw [hrows, List.nodup_append]
    refine ⟨h.idsNodup, List.nodup_singleton _, ?_⟩
    intro a ha b hb
    obtain ⟨row, hrow, rfl⟩ := List.mem_map.mp ha
    have hlt := h.idsFresh row hrow
    simp only [List.mem_singleton] at hb
    omega
  idsFresh := by
    intro row hrow
    simp only [Credentials.createRow, List.mem_append, List.mem_singleton] at hrow ⊢
    rcases hrow with hrow | rfl
    · exact Nat.lt_succ_of_lt (h.idsFresh row hrow)
    · exact Nat.lt_succ_self _
  fingerprintsNodup := by
    rw [pairRows_createRow hc ht, List.map_append, List.nodup_append]
    refine ⟨h.fingerprintsNodup, by simp, ?_⟩
    intro a ha b hb
    obtain ⟨row, hrow, rfl⟩ := List.mem_map.mp ha
    simp only [List.map_cons, List.map_nil, List.mem_singleton] at hb
    exact hb ▸ hnew row hrow
  fingerprintsFresh := by
    rw [pairRows_createRow hc ht]
    intro row hrow
    simp only [List.mem_append, List.mem_singleton] at hrow
    rcases hrow with hrow | rfl
    · exact Nat.lt_succ_of_lt (h.fingerprintsFresh row hrow)
    · exact Nat.lt_succ_of_lt hfresh
  sorted := by
    rw [pairRows_createRow hc ht, List.pairwise_append]
    refine ⟨h.sorted, List.pairwise_singleton _ _, ?_⟩
    intro a ha b hb
    simp only [List.mem_singleton] at hb
    exact hb ▸ rowBefore_createRow hc ht ha
  entriesNodup := h.entriesNodup
  entriesFresh := fun m hm => Nat.lt_succ_of_lt (h.entriesFresh m hm)
  aligned := by
    rw [liveFingerprints_createRow hc ht hlive]
    have hnot : input.fingerprint ∉ liveFingerprints c t s := by
      rw [mem_liveFingerprints]
      rintro ⟨row, hrow, heq⟩
      exact hnew row (mem_livePair.mp hrow).1 heq
    rcases hentry with hentry | ⟨before, hentry⟩
    · refine h.aligned.of_filter_eq ?_
      simp [List.filter_append, hentry]
    · have hbefore : input.fingerprint ∉ before := by
        have hn := h.entriesNodup
        rw [hentry, List.nodup_append] at hn
        exact fun hm => hn.2.2 _ hm _ (by simp) rfl
      have hal := h.aligned
      rw [entries_createRow, hentry] at *
      exact hal.append_right_last hbefore hnot
  revokedGone := by
    rw [pairRows_createRow hc ht]
    intro row hrow hrev
    simp only [List.mem_append, List.mem_singleton] at hrow
    rcases hrow with hrow | rfl
    · exact h.revokedGone row hrow hrev
    · rw [show (Credentials.createRow input s).1.status = input.status from rfl] at hrev
      simp [hrev, CredentialStatus.isLive] at hlive
  backed := by
    intro hb m hm
    rw [liveFingerprints_createRow hc ht hlive]
    exact List.mem_append_left _ (h.backed hb m hm)
  removalsRight := h.removalsRight

theorem pairRows_deleteRow (id : ℕ) :
    pairRows c t (deleteRow id s) = (pairRows c t s).filter fun row => row.id != id := by
  simp only [pairRows, deleteRow, List.filter_filter]
  apply List.filter_congr
  intro row _
  rw [Bool.and_comm]

theorem liveFingerprints_deleteRow (h : Mirrored c t s) (id : ℕ) :
    liveFingerprints c t (deleteRow id s) = (liveFingerprints c t s).filter fun m =>
      decide (∃ row ∈ pairRows c t s, row.fingerprint = m ∧ row.id ≠ id) := by
  rw [liveFingerprints_filter]
  simp only [liveFingerprints, livePair, pairRows_deleteRow, List.filter_filter]
  congr 1
  apply List.filter_congr
  intro row hrow
  have hiff : (∃ row' ∈ pairRows c t s, row'.fingerprint = row.fingerprint ∧ row'.id ≠ id) ↔
      row.id ≠ id := by
    constructor
    · rintro ⟨row', hrow', hfp, hid⟩
      rwa [List.inj_on_of_nodup_map h.fingerprintsNodup hrow' hrow hfp] at hid
    · exact fun hid => ⟨row, hrow, rfl, hid⟩
  simp only [hiff]
  by_cases hid : row.id = id <;> simp [hid]

theorem Mirrored.deleteRow (h : Mirrored c t s) (id : ℕ) (hgone : t = .basicauth → Gone c t id s) :
    Mirrored c t (deleteRow id s) where
  idsNodup := h.idsNodup.sublist (List.filter_sublist.map _)
  idsFresh := fun row hrow => h.idsFresh row (List.mem_of_mem_filter hrow)
  fingerprintsNodup := by
    rw [pairRows_deleteRow]
    exact h.fingerprintsNodup.sublist (List.filter_sublist.map _)
  fingerprintsFresh := by
    rw [pairRows_deleteRow]
    exact fun row hrow => h.fingerprintsFresh row (List.mem_of_mem_filter hrow)
  sorted := by
    rw [pairRows_deleteRow]
    exact h.sorted.sublist List.filter_sublist
  entriesNodup := h.entriesNodup
  entriesFresh := h.entriesFresh
  aligned := by
    rw [liveFingerprints_deleteRow h]
    exact h.aligned.filter_right _
  revokedGone := by
    rw [pairRows_deleteRow]
    exact fun row hrow => h.revokedGone row (List.mem_of_mem_filter hrow)
  backed := by
    intro hb m hm
    obtain ⟨row, hrow, rfl⟩ := mem_liveFingerprints.mp (h.backed hb m hm)
    obtain ⟨hpair, -⟩ := mem_livePair.mp hrow
    have hid : row.id ≠ id := fun hid => hgone hb row hpair hid hm
    rw [liveFingerprints_deleteRow h, List.mem_filter]
    exact ⟨h.backed hb _ hm, by simpa using ⟨row, hpair, rfl, hid⟩⟩
  removalsRight := h.removalsRight

/-! ## Writes to the array -/

@[simp] theorem rows_setEntries (array : List ℕ) : (setEntries c t array s).rows = s.rows := by
  simp only [setEntries]
  split <;> rfl

@[simp] theorem fresh_setEntries (array : List ℕ) :
    (setEntries c t array s).fresh = s.fresh := by
  simp only [setEntries]
  split <;> rfl

@[simp] theorem removals_setEntries (array : List ℕ) :
    (setEntries c t array s).removals = s.removals := by
  simp only [setEntries]
  split <;> rfl

theorem entries_setEntries {consumer : EdgeConsumer} (hc : s.consumers c = some consumer)
    (array : List ℕ) : entries (setEntries c t array s) c t = array := by
  simp [entries, setEntries, hc]

/-- A state whose rows are those of `s` and whose array is `array`. -/
theorem Mirrored.of_entries (h : Mirrored c t s) {s' : World} {array : List ℕ}
    (hrows : s'.rows = s.rows) (hfresh : s'.fresh = s.fresh) (harray : entries s' c t = array)
    (hnodup : array.Nodup) (hmem : ∀ m ∈ array, m < s.fresh)
    (haligned : Aligned array (liveFingerprints c t s))
    (hrevoked : ∀ row ∈ pairRows c t s, row.status = .revoked → row.fingerprint ∉ array)
    (hbacked : t = .basicauth → ∀ m ∈ array, m ∈ liveFingerprints c t s)
    (hremovals : ∀ r ∈ s'.removals, r.removed = r.intended) : Mirrored c t s' := by
  have hpair : pairRows c t s' = pairRows c t s := by simp only [pairRows, hrows]
  have hlive : liveFingerprints c t s' = liveFingerprints c t s := by
    simp only [liveFingerprints, livePair, hpair]
  constructor
  · exact hrows ▸ h.idsNodup
  · rw [hrows, hfresh]
    exact h.idsFresh
  · exact hpair ▸ h.fingerprintsNodup
  · rw [hpair, hfresh]
    exact h.fingerprintsFresh
  · exact hpair ▸ h.sorted
  · exact harray ▸ hnodup
  · rw [harray, hfresh]
    exact hmem
  · rw [harray, hlive]
    exact haligned
  · rw [hpair, harray]
    exact hrevoked
  · rw [harray, hlive]
    exact hbacked
  · exact hremovals

/-- Entries only ever leave: the whole type, or one position. -/
theorem Mirrored.shrink (h : Mirrored c t s) (s' : World) {array : List ℕ} {p : ℕ → Bool}
    (hrows : s'.rows = s.rows) (hfresh : s'.fresh = s.fresh) (harray : entries s' c t = array)
    (hp : array = (entries s c t).filter p)
    (hremovals : ∀ r ∈ s'.removals, r.removed = r.intended) : Mirrored c t s' := by
  have hsub : ∀ m ∈ array, m ∈ entries s c t := by
    rw [hp]
    exact fun m hm => List.mem_of_mem_filter hm
  refine h.of_entries hrows hfresh harray ?_ ?_ ?_ ?_ ?_ hremovals
  · rw [hp]
    exact h.entriesNodup.filter _
  · exact fun m hm => h.entriesFresh m (hsub m hm)
  · rw [hp]
    exact h.aligned.filter_left p
  · exact fun row hrow hrev hm => h.revokedGone row hrow hrev (hsub _ hm)
  · exact fun hb m hm => h.backed hb m (hsub m hm)

theorem Mirrored.generate (h : Mirrored c t s) :
    Mirrored c t { s with fresh := s.fresh + 1 } where
  idsNodup := h.idsNodup
  idsFresh := fun row hrow => Nat.lt_succ_of_lt (h.idsFresh row hrow)
  fingerprintsNodup := h.fingerprintsNodup
  fingerprintsFresh := fun row hrow => Nat.lt_succ_of_lt (h.fingerprintsFresh row hrow)
  sorted := h.sorted
  entriesNodup := h.entriesNodup
  entriesFresh := fun m hm => Nat.lt_succ_of_lt (h.entriesFresh m hm)
  aligned := h.aligned
  revokedGone := h.revokedGone
  backed := h.backed
  removalsRight := h.removalsRight

end Pair

end FerrumNexus.Credentials
