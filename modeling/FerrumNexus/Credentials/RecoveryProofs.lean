import FerrumNexus.Credentials.Recovery
import FerrumNexus.Credentials.Mirror

/-!
# The recovery sweep under interference

Other operations move rows while the sweep runs. They respect the consumer keys,
they leave revoked rows revoked, and a newer row that they write gets a new time
of update; an older row they may move back and forth. Of the rows it spares the
sweep itself revokes none that was not already retiring.
-/
namespace FerrumNexus.Credentials

open Saga Platform Portal

/-! ## What may happen to a row -/

structure WellFormed (s : World) : Prop where
  idsNodup : (s.rows.map (·.id)).Nodup
  idsFresh : ∀ row ∈ s.rows, row.id < s.fresh

/-- What never changes about a row. -/
def SameRow (a b : CredentialRecord) : Prop :=
  b.userId = a.userId ∧ b.createdAt = a.createdAt ∧ b.ferrumConsumerId = a.ferrumConsumerId ∧
    b.credentialType = a.credentialType

variable {a b c row : CredentialRecord} {cutoff : Option ℕ} {s s' : World}

theorem SameRow.trans (h : SameRow a b) (h' : SameRow b c) :
    SameRow a c :=
  ⟨h'.1.trans h.1, h'.2.1.trans h.2.1, h'.2.2.1.trans h.2.2.1, h'.2.2.2.trans h.2.2.2⟩

theorem spared_congr (h : SameRow a b) :
    spared cutoff b = spared cutoff a := by
  simp only [spared, h.2.1]

/-- A row and what it is found as later. Revoked is for good, and a spared row is revoked, or
written at a later time, or as it was. -/
structure Moved (cutoff : Option ℕ) (row row' : CredentialRecord) : Prop where
  same : SameRow row row'
  revoked : row.status = .revoked → row'.status = .revoked
  written : spared cutoff row = true → row'.status = .revoked ∨ row.updatedAt < row'.updatedAt ∨
    (row'.updatedAt = row.updatedAt ∧ row'.status = row.status)

theorem Moved.refl (cutoff : Option ℕ) (row : CredentialRecord) : Moved cutoff row row :=
  ⟨⟨rfl, rfl, rfl, rfl⟩, id, fun _ => .inr (.inr ⟨rfl, rfl⟩)⟩

theorem Moved.trans (h : Moved cutoff a b) (h' : Moved cutoff b c) : Moved cutoff a c := by
  refine ⟨h.same.trans h'.same, fun ha => h'.revoked (h.revoked ha), fun hspared => ?_⟩
  have hspared' : spared cutoff b = true := (spared_congr h.same).trans hspared
  rcases h.written hspared with hb | hlt | ⟨htime, hstatus⟩
  · exact .inl (h'.revoked hb)
  · rcases h'.written hspared' with hc | hlt' | ⟨htime', -⟩
    · exact .inl hc
    · exact .inr (.inl (hlt.trans hlt'))
    · exact .inr (.inl (by omega))
  · rcases h'.written hspared' with hc | hlt' | ⟨htime', hstatus'⟩
    · exact .inl hc
    · exact .inr (.inl (by omega))
    · exact .inr (.inr ⟨htime'.trans htime, hstatus'.trans hstatus⟩)

/-- Rows move as they may, none is replaced, and none that is gone comes back. -/
structure Forward (cutoff : Option ℕ) (s s' : World) : Prop where
  fresh : s.fresh ≤ s'.fresh
  moved : ∀ id < s.fresh, ∀ row', findById s' id = some row' →
    ∃ row, findById s id = some row ∧ Moved cutoff row row'

theorem Forward.refl (cutoff : Option ℕ) (s : World) : Forward cutoff s s :=
  ⟨le_rfl, fun _ _ row hrow => ⟨row, hrow, Moved.refl cutoff row⟩⟩

theorem Forward.trans {a b c : World} (h : Forward cutoff a b) (h' : Forward cutoff b c) :
    Forward cutoff a c := by
  refine ⟨h.fresh.trans h'.fresh, fun id hid row'' hrow'' => ?_⟩
  obtain ⟨row', hrow', hmoved'⟩ := h'.moved id (lt_of_lt_of_le hid h.fresh) row'' hrow''
  obtain ⟨row, hrow, hmoved⟩ := h.moved id hid row' hrow'
  exact ⟨row, hrow, hmoved.trans hmoved'⟩

/-- A write that leaves the rows alone. -/
theorem Forward.of_rows (hrows : s'.rows = s.rows) (hfresh : s.fresh ≤ s'.fresh) :
    Forward cutoff s s' := by
  refine ⟨hfresh, fun id _ row hrow => ⟨row, ?_, Moved.refl cutoff row⟩⟩
  rw [← hrow, findById, findById, hrows]

theorem findById_updateStatus (s : World) (id x : ℕ) (st : CredentialStatus) :
    findById (updateStatus id st s) x = (findById s x).map fun row =>
      if row.id = id then { row with status := st, updatedAt := s.now } else row := by
  simp only [findById, updateStatus, List.find?_map]
  congr 2
  funext row
  by_cases hid : row.id = id <;> simp [hid]

theorem findById_updateStatus_self {id : ℕ} (h : findById s id = some row) (st : CredentialStatus) :
    findById (updateStatus id st s) id =
      some { row with status := st, updatedAt := s.now } := by
  rw [findById_updateStatus, h, Option.map_some, if_pos (findById_mem h).2]

theorem findById_updateStatus_ne {id x : ℕ} (hne : x ≠ id) (st : CredentialStatus) :
    findById (updateStatus id st s) x = findById s x := by
  rw [findById_updateStatus]
  cases h : findById s x with
  | none => rfl
  | some row =>
    have hid : row.id ≠ id := fun heq => hne ((findById_mem h).2.symm.trans heq)
    simp [hid]

/-- A status change a sweep may make: a revocation, or any other of a row that is neither revoked
nor spared. -/
theorem Forward.updateStatus (cutoff : Option ℕ) (s : World) (id : ℕ) (st : CredentialStatus)
    (h : ∀ row, findById s id = some row →
      st = .revoked ∨ (row.status ≠ .revoked ∧ spared cutoff row = false)) :
    Forward cutoff s (Credentials.updateStatus id st s) := by
  refine ⟨le_rfl, fun x _ row' hrow' => ?_⟩
  by_cases hx : x = id
  · subst hx
    cases hfind : findById s x with
    | none => simp [findById_updateStatus, hfind] at hrow'
    | some row =>
      rw [findById_updateStatus_self hfind, Option.some.injEq] at hrow'
      subst hrow'
      refine ⟨row, rfl, ⟨⟨rfl, rfl, rfl, rfl⟩, fun hrevoked => ?_, fun hspared => ?_⟩⟩
      · rcases h row hfind with hst | ⟨hlive, -⟩
        · exact hst
        · exact absurd hrevoked hlive
      · rcases h row hfind with hst | ⟨-, hunspared⟩
        · exact .inl hst
        · rw [hspared] at hunspared
          cases hunspared
  · rw [findById_updateStatus_ne hx] at hrow'
    exact ⟨row', hrow', Moved.refl cutoff row'⟩

theorem WellFormed.updateStatus (h : WellFormed s) (id : ℕ) (st : CredentialStatus) :
    WellFormed (Credentials.updateStatus id st s) where
  idsNodup := by
    rw [rowsIds_updateStatus]
    exact h.idsNodup
  idsFresh := by
    intro row hrow
    have hid : row.id ∈ s.rows.map (·.id) := by
      rw [← rowsIds_updateStatus id st]
      exact List.mem_map_of_mem hrow
    obtain ⟨old, hold, heq⟩ := List.mem_map.mp hid
    exact heq ▸ h.idsFresh old hold

theorem WellFormed.find (h : WellFormed s) (hrow : row ∈ s.rows) :
    findById s row.id = some row := by
  cases hfind : findById s row.id with
  | none =>
    have hnone := List.find?_eq_none.mp hfind row hrow
    simp at hnone
  | some row' =>
    obtain ⟨hmem, hid⟩ := findById_mem hfind
    rw [eq_of_id h.idsNodup hmem hrow hid]

/-! ## Interference and what the sweep may do -/

def rowsOf (s : World) (consumerId : ConsumerId) : List CredentialRecord :=
  s.rows.filter fun row => row.ferrumConsumerId == consumerId

/-- What the other operations may do between two calls of the one in `slot`. -/
structure Rely (slot : ℕ) (cutoff : Option ℕ) (s s' : World) : Prop where
  forward : Forward cutoff s s'
  wellFormed : WellFormed s → WellFormed s'
  held : ∀ key, s.holders key = some slot → s'.holders key = some slot
  rows : ∀ consumerId, s.holders (.consumer consumerId) = some slot →
    rowsOf s' consumerId = rowsOf s consumerId
  consumers : ∀ consumerId, s.holders (.consumer consumerId) = some slot →
    s'.consumers consumerId = s.consumers consumerId

/-- Why a spared row may be revoked: it was already retiring, and either the
gateway holds no HTTP Basic entry of its consumer any more, or its pair has one
live row more than the gateway has entries. -/
def Retired (row : CredentialRecord) (s : World) : Prop :=
  row.status = .retiring ∧
    if row.credentialType = .basicauth then
      entries s row.ferrumConsumerId row.credentialType = []
    else (liveRows s row.ferrumConsumerId row.credentialType).length =
      (entries s row.ferrumConsumerId row.credentialType).length + 1

/-- One call of the sweep: a spared row that it revokes was retired. -/
def Spares (cutoff : Option ℕ) (s s' : World) : Prop :=
  ∀ id row row', findById s id = some row → findById s' id = some row' →
    row.status ≠ .revoked → row'.status = .revoked → spared cutoff row = true → Retired row s

section Steps

variable {slot : ℕ} {cutoff : Option ℕ} {s : World} {α : Type}

theorem spares_of_rows {s' : World} (h : s'.rows = s.rows) : Spares cutoff s s' := by
  intro id row row' hrow hrow' hlive hrev _
  rw [findById, h, ← findById, hrow, Option.some.injEq] at hrow'
  exact absurd (hrow' ▸ hrev) hlive

/-- A status change of one row. -/
theorem spares_updateStatus {id : ℕ} {st : CredentialStatus}
    (h : ∀ row, findById s id = some row → row.status ≠ .revoked → st = .revoked →
      spared cutoff row = true → Retired row s) :
    Spares cutoff s (updateStatus id st s) := by
  intro x row row' hrow hrow' hlive hrev hspared
  by_cases hx : x = id
  · subst hx
    rw [findById_updateStatus_self hrow, Option.some.injEq] at hrow'
    subst hrow'
    exact h row hrow hlive hrev hspared
  · rw [findById_updateStatus_ne hx, hrow, Option.some.injEq] at hrow'
    exact absurd (hrow' ▸ hrev) hlive

/-- A call of the sweep, with nothing promised about a failure. -/
def Sweeps (slot : ℕ) (cutoff : Option ℕ) (p : CredentialService α) (Q : α → World → Prop)
    (s : World) : Prop :=
  wpe (Rely slot cutoff) (Spares cutoff) p Q (fun _ _ => True) s

theorem Sweeps.bind {β : Type} {p : CredentialService β} {g : β → CredentialService α}
    {M : β → World → Prop} {Q : α → World → Prop} (hp : Sweeps slot cutoff p M s)
    (hg : ∀ b s', M b s' → Sweeps slot cutoff (g b) Q s') : Sweeps slot cutoff (p >>= g) Q s :=
  wpe_call hp hg fun _ _ _ => trivial

theorem Sweeps.mono {p : CredentialService α} {M Q : α → World → Prop}
    (hp : Sweeps slot cutoff p M s) (hq : ∀ a s', M a s' → Q a s') : Sweeps slot cutoff p Q s :=
  wpe_mono hp hq fun _ _ _ => trivial

theorem sweeps_throw {Q : α → World → Prop} (e : NexusError) :
    Sweeps slot cutoff (throw e : CredentialService α) Q s := trivial

theorem sweeps_storeRead (f : World → α) :
    Sweeps slot cutoff (storeRead f) (fun a s' => Rely slot cutoff s s' ∧ a = f s') s :=
  wpe_storeRead fun _ hr => ⟨spares_of_rows rfl, ⟨hr, rfl⟩, trivial⟩

theorem sweeps_getConsumer (consumerId : ConsumerId) :
    Sweeps slot cutoff (getConsumer consumerId)
      (fun a s' => Rely slot cutoff s s' ∧ a = (s'.consumers consumerId).map (projection s')) s :=
  wpe_edgeRead fun _ hr => ⟨spares_of_rows rfl, ⟨hr, rfl⟩, fun _ => trivial⟩

theorem sweeps_ensure (condition : Bool) (error : NexusError) :
    Sweeps slot cutoff (ensure condition error) (fun _ s' => s = s') s :=
  wpe_ensure (fun _ => rfl) fun _ => trivial

end Steps

/-! ## One revocation under its key -/

/-- The operation in `slot` holds the consumer's key, and since `s₀` rows have
only moved as they may. -/
structure InSection (slot : ℕ) (cutoff : Option ℕ) (c : ConsumerId) (s₀ s : World) : Prop where
  wellFormed : WellFormed s
  forward : Forward cutoff s₀ s
  held : s.holders (.consumer c) = some slot

/-- The copy still describes the row, if the row is there at all. -/
def Tracked (row : CredentialRecord) (s : World) : Prop :=
  row.id < s.fresh ∧ ∀ row', findById s row.id = some row' → SameRow row row'

theorem Tracked.forward (h : Tracked row s) (hf : Forward cutoff s s') : Tracked row s' := by
  refine ⟨lt_of_lt_of_le h.1 hf.fresh, fun row' hrow' => ?_⟩
  obtain ⟨old, hold, hmoved⟩ := hf.moved _ h.1 row' hrow'
  exact (h.2 old hold).trans hmoved.same

theorem WellFormed.tracked (h : WellFormed s) (hrow : row ∈ s.rows) : Tracked row s := by
  refine ⟨h.idsFresh row hrow, ?_⟩
  intro row' hrow'
  rw [h.find hrow, Option.some.injEq] at hrow'
  subst hrow'
  exact ⟨rfl, rfl, rfl, rfl⟩

section Section

variable {slot : ℕ} {cutoff : Option ℕ} {c : ConsumerId} {t : CredentialType} {s₀ s s' : World}

theorem InSection.rely (h : InSection slot cutoff c s₀ s) (hr : Rely slot cutoff s s') :
    InSection slot cutoff c s₀ s' :=
  ⟨hr.wellFormed h.wellFormed, h.forward.trans hr.forward, hr.held _ h.held⟩

/-- What happens from here on. -/
theorem InSection.restart (h : InSection slot cutoff c s₀ s) : InSection slot cutoff c s s :=
  ⟨h.wellFormed, Forward.refl cutoff s, h.held⟩

theorem InSection.after (h : InSection slot cutoff c s₀ s) (h' : InSection slot cutoff c s s') :
    InSection slot cutoff c s₀ s' :=
  ⟨h'.wellFormed, h.forward.trans h'.forward, h'.held⟩

variable {current row target : CredentialRecord} {length : ℕ} {live rows : List CredentialRecord}

/-- A row of the consumer cannot change while its key is held. -/
theorem Rely.find (hr : Rely slot cutoff s s') (h : InSection slot cutoff c s₀ s)
    (hrow : findById s row.id = some row) (hc : row.ferrumConsumerId = c) :
    findById s' row.id = some row := by
  have hmem : row ∈ rowsOf s c := by
    simp [rowsOf, (findById_mem hrow).1, hc]
  rw [← hr.rows c h.held] at hmem
  exact (hr.wellFormed h.wellFormed).find (List.mem_of_mem_filter hmem)

theorem liveRows_of_rowsOf (h : rowsOf s' c = rowsOf s c) (t : CredentialType) :
    liveRows s' c t = liveRows s c t := by
  have hfilter : ∀ w : World, (w.rows.filter fun row => row.ferrumConsumerId == c &&
      row.credentialType == t && row.status.isLive) =
        (rowsOf w c).filter fun row => row.credentialType == t && row.status.isLive := by
    intro w
    rw [rowsOf, List.filter_filter]
    apply List.filter_congr
    intro row _
    cases (row.ferrumConsumerId == c) <;> simp
  simp only [liveRows, listByConsumer, hfilter, h]

theorem mem_liveRows (h : row ∈ liveRows s c t) :
    row ∈ s.rows ∧ row.ferrumConsumerId = c ∧ row.credentialType = t ∧
      row.status.isLive = true := by
  simp only [liveRows, listByConsumer, List.mem_insertionSort, List.mem_filter,
    Bool.and_eq_true, beq_iff_eq] at h
  exact ⟨h.1.1, h.1.2.1.1, h.1.2.1.2, h.2⟩

theorem entries_of_consumers (h : s'.consumers c = s.consumers c) (t : CredentialType) :
    entries s' c t = entries s c t := by
  rw [entries, entries, h]

/-- A rows-preserving write of the sweep itself. -/
theorem InSection.of_rows (h : InSection slot cutoff c s₀ s) (hrows : s'.rows = s.rows)
    (hfresh : s'.fresh = s.fresh) (hheld : s'.holders = s.holders) :
    InSection slot cutoff c s₀ s' where
  wellFormed := by
    refine ⟨hrows ▸ h.wellFormed.idsNodup, ?_⟩
    rw [hrows, hfresh]
    exact h.wellFormed.idsFresh
  forward := h.forward.trans (Forward.of_rows hrows hfresh.ge)
  held := hheld ▸ h.held

theorem InSection.updateStatus (h : InSection slot cutoff c s₀ s) (id : ℕ) (st : CredentialStatus)
    (hst : ∀ row, findById s id = some row →
      st = .revoked ∨ (row.status ≠ .revoked ∧ spared cutoff row = false)) :
    InSection slot cutoff c s₀ (Credentials.updateStatus id st s) where
  wellFormed := h.wellFormed.updateStatus id st
  forward := h.forward.trans (Forward.updateStatus cutoff s id st hst)
  held := h.held

/-! ### The calls of a revocation -/

@[simp] theorem holders_setEntries (array : List ℕ) :
    (setEntries c t array s).holders = s.holders := by
  simp only [setEntries]
  split <;> rfl

/-- A transaction that always commits when the store answers. -/
theorem sweeps_commit {α : Type} {a : α} {f : World → World}
    (hG : ∀ s₁, Rely slot cutoff s s₁ → Spares cutoff s₁ (f s₁)) :
    Sweeps slot cutoff (transaction fun s => .ok (a, f s))
      (fun b s' => b = a ∧ ∃ s₁, Rely slot cutoff s s₁ ∧ s' = f s₁) s := by
  refine wpe_transaction ?_ ?_ ?_
  · intro s₁ hr b s' hok
    cases hok
    exact ⟨hG s₁ hr, rfl, s₁, hr, rfl⟩
  · intro s₁ _ e herr
    cases herr
  · exact fun _ _ => ⟨spares_of_rows rfl, trivial⟩

theorem sweeps_deleteCredentialType (h : InSection slot cutoff c s₀ s) :
    Sweeps slot cutoff (deleteCredentialType c t)
      (fun _ s' => InSection slot cutoff c s₀ s' ∧ entries s' c t = []) s := by
  refine wpe_edgeWrite ?_ ?_ ?_
  · intro s₁ hr a s' hok
    split at hok
    · cases hok
    · rename_i consumer hconsumer
      cases hok
      refine ⟨spares_of_rows (rows_setEntries _), ⟨?_, entries_setEntries hconsumer _⟩,
        fun _ _ => trivial⟩
      exact (h.rely hr).of_rows (rows_setEntries _) (fresh_setEntries _) (holders_setEntries _)
  · exact fun _ _ _ _ => trivial
  · exact fun _ _ => ⟨spares_of_rows rfl, fun _ => trivial⟩

theorem sweeps_deleteCredentialAt (h : InSection slot cutoff c s₀ s) (i intended : ℕ) :
    Sweeps slot cutoff (deleteCredentialAt c t i intended)
      (fun _ s' => InSection slot cutoff c s₀ s') s := by
  refine wpe_edgeWrite ?_ ?_ ?_
  · intro s₁ hr a s' hok
    split at hok
    · cases hok
      refine ⟨spares_of_rows (rows_setEntries _), ?_, fun _ _ => trivial⟩
      exact (h.rely hr).of_rows (rows_setEntries _) (fresh_setEntries _) (holders_setEntries _)
    · cases hok
  · exact fun _ _ _ _ => trivial
  · exact fun _ _ => ⟨spares_of_rows rfl, fun _ => trivial⟩

theorem sweeps_unretire (id : ℕ) :
    Sweeps slot cutoff (unretire id) (fun _ _ => True) s := by
  refine Sweeps.mono (sweeps_commit (f := fun s => (updateIfStatus id .retiring .active s).2) ?_)
    (fun _ _ _ => trivial)
  intro s₁ _
  rcases updateIfStatus_cases (s := s₁) id .retiring .active with heq | ⟨heq, -⟩
  · rw [heq]
    exact spares_of_rows rfl
  · rw [heq]
    exact spares_updateStatus fun _ _ _ hst _ => by cases hst

theorem sweeps_withdrawRetirement (credential : CredentialRecord) :
    Sweeps slot cutoff (withdrawRetirement credential) (fun _ _ => True) s := by
  have hattempt : ∀ s, Sweeps slot cutoff (swallow (unretire credential.id)) (fun _ _ => True) s :=
    fun s => (wpe_swallow _).mpr (wpe_mono (sweeps_unretire credential.id) (fun _ _ h => h)
      fun _ _ h => h)
  refine Sweeps.bind (hattempt s) fun first s₁ _ => ?_
  split
  · trivial
  · refine Sweeps.bind (hattempt s₁) fun second s₂ _ => ?_
    split
    · trivial
    · exact wpe_bestEffort (wpe_mono (sweeps_unretire credential.id) (fun _ _ h => h)
        fun _ _ h => h)

/-- The handler of a failed delete only reads and, at most, moves the row back. -/
theorem sweeps_failedRemoval {α : Type} {Q : α → World → Prop} (current : CredentialRecord)
    (c : ConsumerId) (t : CredentialType) (length : ℕ) (error : NexusError) :
    Sweeps slot cutoff (do
      let unapplied ← deleteDidNotApply c t length
      if unapplied then do
        withdrawRetirement current
        throw error
      else throw error) Q s := by
  refine Sweeps.bind (M := fun _ _ => True) ?_ fun unapplied s₁ _ => ?_
  · rw [deleteDidNotApply]
    split
    · trivial
    · refine Sweeps.bind (M := fun _ _ => True) ?_ fun live s₁ _ => ?_
      · exact (wpe_swallow _).mpr (wpe_mono (sweeps_getConsumer c) (fun _ _ _ => trivial)
          fun _ _ _ => trivial)
      · split <;> trivial
  · split
    · exact Sweeps.bind (sweeps_withdrawRetirement current) fun _ _ _ => sweeps_throw error
    · exact sweeps_throw error

theorem sweeps_retireAndRemove (h : InSection slot cutoff c s₀ s)
    (hfound : findById s current.id = some current) (hc : current.ferrumConsumerId = c)
    (ht : current.credentialType = t) (hlive : current.status.isLive = true)
    (hunspared : spared cutoff current = false) {position : Position}
    (hposition : position ≠ .notLive) (length : ℕ) :
    Sweeps slot cutoff (retireAndRemove current position length)
      (fun _ s' => InSection slot cutoff c s₀ s' ∧
        (position = .wholeType → entries s' c t = [])) s := by
  refine Sweeps.bind (M := fun _ s' => InSection slot cutoff c s₀ s') ?_ fun _ s₁ h₁ => ?_
  · refine Sweeps.mono (sweeps_commit (f := updateStatus current.id .retiring) ?_) ?_
    · exact fun s₁ _ => spares_updateStatus fun _ _ _ hst _ => by cases hst
    · rintro _ _ ⟨-, s₁, hr, rfl⟩
      refine (h.rely hr).updateStatus _ _ fun row hrow => ?_
      rw [hr.find h hfound hc, Option.some.injEq] at hrow
      subst hrow
      refine .inr ⟨fun hrevoked => ?_, hunspared⟩
      simp [hrevoked, CredentialStatus.isLive] at hlive
  · rw [removeRetiring, hc, ht]
    refine (wpe_tryCatch _ _).mpr ?_
    have hremove : Sweeps slot cutoff (removeAt c t position current.fingerprint)
        (fun _ s' => InSection slot cutoff c s₀ s' ∧
          (position = .wholeType → entries s' c t = [])) s₁ := by
      cases position with
      | index i => exact Sweeps.mono (sweeps_deleteCredentialAt h₁ i _) fun _ _ hs => ⟨hs, by simp⟩
      | wholeType => exact Sweeps.mono (sweeps_deleteCredentialType h₁) fun _ _ hs => ⟨hs.1, fun _ => hs.2⟩
      | notLive => exact absurd rfl hposition
    exact wpe_mono hremove (fun _ _ hs => hs)
      fun error s' _ => sweeps_failedRemoval current c t length error

/-! ### Settlement and placement -/

/-- What the revocation has read of its pair, and that it still holds. -/
structure Seen (cutoff : Option ℕ) (c : ConsumerId) (t : CredentialType)
    (current : CredentialRecord) (live : List CredentialRecord) (length : ℕ) (s : World) : Prop where
  found : findById s current.id = some current
  consumer_eq : current.ferrumConsumerId = c
  type_eq : current.credentialType = t
  isLive : current.status.isLive = true
  unspared : spared cutoff current = false
  live_eq : live = liveRows s c t
  length_eq : length = if t = .basicauth then live.length else (entries s c t).length

theorem Seen.rely (h : Seen cutoff c t current live length s) (hin : InSection slot cutoff c s₀ s)
    (hr : Rely slot cutoff s s') : Seen cutoff c t current live length s' where
  found := hr.find hin h.found h.consumer_eq
  consumer_eq := h.consumer_eq
  type_eq := h.type_eq
  isLive := h.isLive
  unspared := h.unspared
  live_eq := h.live_eq.trans (liveRows_of_rowsOf (hr.rows c hin.held) t).symm
  length_eq := by
    rw [entries_of_consumers (hr.consumers c hin.held)]
    exact h.length_eq

/-- The rows left after the settlement. -/
structure Remaining (c : ConsumerId) (t : CredentialType) (current : CredentialRecord)
    (rows : List CredentialRecord) (s : World) : Prop where
  tracked : ∀ row ∈ rows, Tracked row s
  pair : ∀ row ∈ rows, row.ferrumConsumerId = c ∧ row.credentialType = t ∧
    row.status.isLive = true
  found : (∃ row ∈ rows, row.id = current.id) → findById s current.id = some current

theorem Seen.remaining (h : Seen cutoff c t current live length s)
    (hin : InSection slot cutoff c s₀ s) :
    Remaining c t current live s where
  tracked := fun _ hrow => hin.wellFormed.tracked (mem_liveRows (h.live_eq ▸ hrow)).1
  pair := fun _ hrow => (mem_liveRows (h.live_eq ▸ hrow)).2
  found := fun _ => h.found

theorem sweeps_settleLostRetirement (hin : InSection slot cutoff c s₀ s)
    (h : Seen cutoff c t current live length s) :
    Sweeps slot cutoff (settleLostRetirement live length)
      (fun rows s' => InSection slot cutoff c s₀ s' ∧ Remaining c t current rows s') s := by
  rw [settleLostRetirement]
  split
  · exact ⟨hin, h.remaining hin⟩
  rename_i hone
  rw [not_not] at hone
  have ht : t ≠ .basicauth := by
    intro hb
    have hlen := h.length_eq
    rw [if_pos hb] at hlen
    omega
  split
  · rename_i retired hretired
    have hmem : retired ∈ live := by
      have hin : retired ∈ live.filter fun row => row.status == .retiring := by
        rw [hretired]
        exact List.mem_singleton_self _
      exact List.mem_of_mem_filter hin
    refine Sweeps.bind (M := fun settled s' => InSection slot cutoff c s₀ s' ∧
      ((settled = true ∧ ∃ s₁, Rely slot cutoff s s₁ ∧ s' = updateStatus retired.id .revoked s₁) ∨
        (settled = false ∧ Rely slot cutoff s s'))) ?_ ?_
    · refine wpe_transaction ?_ ?_ ?_
      · intro s₁ hr settled s' hok
        have hin₁ := hin.rely hr
        have h₁ := h.rely hin hr
        split at hok
        · cases hok
          exact ⟨spares_of_rows rfl, hin₁, .inr ⟨rfl, hr⟩⟩
        · rename_i row hrow
          split at hok
          · cases hok
            exact ⟨spares_of_rows rfl, hin₁, .inr ⟨rfl, hr⟩⟩
          · rename_i hstatus
            cases hok
            refine ⟨spares_updateStatus ?_, hin₁.updateStatus _ _ fun _ _ => .inl rfl,
              .inl ⟨rfl, s₁, hr, rfl⟩⟩
            intro row' hrow' _ _ _
            rw [hrow, Option.some.injEq] at hrow'
            subst hrow'
            -- the row read in the transaction is the listed one
            obtain ⟨hmem₁, hc₁, ht₁, -⟩ := mem_liveRows (h₁.live_eq ▸ hmem)
            rw [hin₁.wellFormed.find hmem₁, Option.some.injEq] at hrow
            subst hrow
            refine ⟨not_not.mp hstatus, ?_⟩
            rw [if_neg (by rwa [ht₁]), hc₁, ht₁, ← h₁.live_eq, hone, h₁.length_eq, if_neg ht]
      · exact fun _ _ _ _ => trivial
      · exact fun _ _ => ⟨spares_of_rows rfl, trivial⟩
    · rintro settled s' ⟨hin', ⟨rfl, s₁, hr, rfl⟩ | ⟨rfl, hr⟩⟩
      · have hrem := (h.rely hin hr).remaining (hin.rely hr)
        have hfwd := Forward.updateStatus cutoff s₁ retired.id .revoked fun _ _ => .inl rfl
        refine ⟨hin', ?_, ?_, ?_⟩
        · exact fun row hrow => (hrem.tracked row (List.mem_of_mem_filter hrow)).forward hfwd
        · exact fun row hrow => hrem.pair row (List.mem_of_mem_filter hrow)
        · rintro ⟨row, hrow, hid⟩
          have hne : current.id ≠ retired.id := by
            rw [← hid]
            simpa using (List.mem_filter.mp hrow).2
          rw [findById_updateStatus_ne hne]
          exact (h.rely hin hr).found
      · exact ⟨hin', (h.rely hin hr).remaining (hin.rely hr)⟩
  · exact ⟨hin, h.remaining hin⟩

theorem resolveCredentialIndex_placed {result : Except NexusError Position}
    (h : resolveCredentialIndex rows target length = result) (hne : result ≠ .ok .notLive) :
    ∃ row ∈ rows, row.id = target.id := by
  rw [resolveCredentialIndex] at h
  split at h
  · exact absurd h.symm hne
  · rename_i i hi
    obtain ⟨hlt, hid, -⟩ := List.findIdx?_eq_some_iff_getElem.mp hi
    exact ⟨rows[i], List.getElem_mem hlt, by simpa using hid⟩

theorem resolveCredentialIndex_wholeType
    (h : resolveCredentialIndex rows target length = .ok .wholeType) :
    ∀ row ∈ rows, row.id = target.id := by
  obtain ⟨found, hfound, hid⟩ := resolveCredentialIndex_placed h (by simp)
  rw [resolveCredentialIndex] at h
  split at h
  · cases h
  · split at h
    · split at h
      · rename_i hone
        obtain ⟨only, rfl⟩ := List.length_eq_one_iff.mp hone
        intro row hrow
        rw [List.mem_singleton] at hfound hrow
        rw [hrow, ← hfound, hid]
      · cases h
    · split at h <;> cases h

/-- A revocation that is placed anywhere is placed for a row that is listed. -/
theorem revokePosition_placed {clearType : Bool} {result : Except NexusError Position}
    (h : revokePosition rows current length clearType = result) (hne : result ≠ .ok .notLive) :
    ∃ row ∈ rows, row.id = current.id := by
  rw [revokePosition] at h
  split at h
  · exact resolveCredentialIndex_placed h hne
  · split at h
    · exact absurd h.symm hne
    · rename_i hany
      simpa using hany

theorem placeRevocation_placed {options : RevokeOptions} {position : Position}
    (h : placeRevocation rows current length options = .ok position) (hne : position ≠ .notLive) :
    ∃ row ∈ rows, row.id = current.id := by
  rw [placeRevocation] at h
  split at h
  · rename_i position' hposition
    cases h
    exact revokePosition_placed hposition (by simpa using hne)
  · rename_i error herror
    exact revokePosition_placed herror (by simp)

/-- A recovery that empties a type takes along only rows it may, or HTTP Basic
rows that are not active. -/
theorem placeRevocation_wholeType
    (h : placeRevocation rows current length ⟨false, true, cutoff⟩ = .ok .wholeType) :
    ∀ row ∈ rows, row.id ≠ current.id →
      spared cutoff row = false ∨ (current.credentialType = .basicauth ∧ row.status ≠ .active) := by
  intro row hrow hid
  rw [placeRevocation] at h
  split at h
  · rename_i position hposition
    cases h
    rw [revokePosition] at hposition
    split at hposition
    · exact absurd (resolveCredentialIndex_wholeType hposition row hrow) hid
    · rename_i hbasic
      rw [not_not] at hbasic
      split at hposition
      · cases hposition
      · split at hposition
        · rename_i hclear
          cases hclear
        · split at hposition
          · rename_i hothers
            have hother := List.all_eq_true.mp hothers row hrow
            right
            refine ⟨hbasic, ?_⟩
            simpa [hid] using hother
          · split at hposition
            · cases hposition
            · exact absurd (resolveCredentialIndex_wholeType hposition row hrow) hid
  · split at h
    · cases h
    · rename_i hours
      left
      simp only [Bool.not_true, Bool.false_or, List.any_eq_true, not_exists, not_and,
        Bool.not_eq_true] at hours
      have hrow' := hours row hrow
      simp only [notOursToEmpty, Bool.or_eq_false_iff] at hrow'
      exact hrow'.2

/-- What the settling transaction may take along. -/
def Takeable (cutoff : Option ℕ) (c : ConsumerId) (row : CredentialRecord) (s : World) : Prop :=
  Tracked row s ∧ (spared cutoff row = false ∨ row.ferrumConsumerId = c ∧
    row.credentialType = .basicauth ∧ row.status = .retiring ∧ entries s c .basicauth = [])

theorem Takeable.rely (h : Takeable cutoff c row s) (hin : InSection slot cutoff c s₀ s)
    (hr : Rely slot cutoff s s') : Takeable cutoff c row s' := by
  refine ⟨h.1.forward hr.forward, ?_⟩
  rcases h.2 with h | ⟨hc, hb, hst, hempty⟩
  · exact .inl h
  · exact .inr ⟨hc, hb, hst, by rw [entries_of_consumers (hr.consumers c hin.held), hempty]⟩

theorem sweeps_revokeOnGateway (hin : InSection slot cutoff c s₀ s) {consumer : Option ConsumerView}
    (h : ∀ view, consumer = some view →
      Seen cutoff c t current live (edgeArrayLength view t live.length) s)
    (ht : current.credentialType = t) (actor : UserRecord) :
    Sweeps slot cutoff (revokeOnGateway consumer live current actor ⟨false, true, cutoff⟩)
      (fun swept s' => InSection slot cutoff c s₀ s' ∧ ∀ row ∈ swept, Takeable cutoff c row s') s := by
  cases consumer with
  | none => exact ⟨hin, by simp⟩
  | some view =>
    have hseen := h view rfl
    simp only [revokeOnGateway, ht]
    refine Sweeps.bind (sweeps_settleLostRetirement hin hseen) ?_
    rintro rows s₁ ⟨hin₁, hrem⟩
    refine Sweeps.bind (M := fun position s' => s₁ = s' ∧ placeRevocation rows current
      (edgeArrayLength view t live.length) ⟨false, true, cutoff⟩ = .ok position)
      (wpe_check (fun _ hok => ⟨rfl, hok⟩) fun _ _ => trivial) ?_
    rintro position _ ⟨rfl, hposition⟩
    cases position with
    | notLive => exact ⟨hin₁, by simp⟩
    | index i =>
      have hfound := hrem.found (placeRevocation_placed hposition (by simp))
      refine Sweeps.bind (sweeps_retireAndRemove hin₁ hfound hseen.consumer_eq ht hseen.isLive
        hseen.unspared (by simp) _) ?_
      rintro _ s₂ ⟨hin₂, -⟩
      exact ⟨hin₂, by simp⟩
    | wholeType =>
      have hfound := hrem.found (placeRevocation_placed hposition (by simp))
      refine Sweeps.bind (sweeps_ensure _ _) ?_
      rintro _ _ rfl
      refine Sweeps.bind (M := fun _ s' => InSection slot cutoff c s₁ s' ∧ entries s' c t = []) ?_ ?_
      · refine Sweeps.mono (sweeps_retireAndRemove hin₁.restart hfound hseen.consumer_eq ht
          hseen.isLive hseen.unspared (by simp) _) ?_
        exact fun _ _ hs => ⟨hs.1, hs.2 rfl⟩
      · rintro _ s₂ ⟨hin₂, hempty⟩
        refine ⟨hin₁.after hin₂, ?_⟩
        intro row hrow
        obtain ⟨hmem, hid⟩ := List.mem_filter.mp hrow
        obtain ⟨hc, hrt, hlive⟩ := hrem.pair row hmem
        refine ⟨(hrem.tracked row hmem).forward hin₂.forward, ?_⟩
        rcases placeRevocation_wholeType hposition row hmem (by simpa using hid) with hs | ⟨hb, hst⟩
        · exact .inl hs
        · have hbasic : t = .basicauth := ht.symm.trans hb
          refine .inr ⟨hc, hrt.trans hbasic, ?_, hbasic ▸ hempty⟩
          cases hstatus : row.status with
          | active => exact absurd hstatus hst
          | retiring => rfl
          | revoked => simp [hstatus, CredentialStatus.isLive] at hlive

/-- The sweep of the settling transaction, row by row. -/
theorem foldl_updateIfStatus (cutoff : Option ℕ) (swept : List CredentialRecord) (s : World)
    (hwf : WellFormed s) :
    WellFormed (swept.foldl (fun s row => (updateIfStatus row.id row.status .revoked s).2) s) ∧
    Forward cutoff s (swept.foldl (fun s row => (updateIfStatus row.id row.status .revoked s).2) s) ∧
    (swept.foldl (fun s row => (updateIfStatus row.id row.status .revoked s).2) s).holders =
      s.holders ∧
    ∀ id row row', findById s id = some row →
      findById (swept.foldl (fun s row => (updateIfStatus row.id row.status .revoked s).2) s) id =
        some row' →
      row.status ≠ .revoked → row'.status = .revoked →
        ∃ taken ∈ swept, taken.id = id ∧ taken.status = row.status := by
  induction swept generalizing s with
  | nil =>
    refine ⟨hwf, Forward.refl cutoff s, rfl, ?_⟩
    intro id row row' hrow hrow' hlive hrev
    rw [List.foldl_nil, hrow, Option.some.injEq] at hrow'
    exact absurd (hrow' ▸ hrev) hlive
  | cons first rest ih =>
    rw [List.foldl_cons]
    rcases updateIfStatus_cases (s := s) first.id first.status .revoked with heq | ⟨heq, hit⟩
    · rw [heq]
      obtain ⟨hwf', hfwd, hheld, htaken⟩ := ih s hwf
      refine ⟨hwf', hfwd, hheld, ?_⟩
      intro id row row' hrow hrow' hlive hrev
      obtain ⟨taken, hmem, htid, htst⟩ := htaken id row row' hrow hrow' hlive hrev
      exact ⟨taken, List.mem_cons_of_mem _ hmem, htid, htst⟩
    · rw [heq]
      obtain ⟨hitRow, hfind, hstatus⟩ := hit
      obtain ⟨hwf', hfwd, hheld, htaken⟩ := ih _ (hwf.updateStatus first.id .revoked)
      refine ⟨hwf', (Forward.updateStatus cutoff s _ _ fun _ _ => .inl rfl).trans hfwd,
        hheld, ?_⟩
      intro id row row' hrow hrow' hlive hrev
      by_cases hid : id = first.id
      · subst hid
        rw [hfind, Option.some.injEq] at hrow
        exact ⟨first, List.mem_cons_self, rfl, by rw [← hrow, hstatus]⟩
      · obtain ⟨taken, hmem, htid, htst⟩ := htaken id row row'
          (by rwa [findById_updateStatus_ne hid]) hrow' hlive hrev
        exact ⟨taken, List.mem_cons_of_mem _ hmem, htid, htst⟩

theorem InSection.settleRevoked (h : InSection slot cutoff c s₀ s) (current : CredentialRecord)
    (swept : List CredentialRecord) :
    InSection slot cutoff c s₀ (Credentials.settleRevoked current swept s) := by
  have h₁ := h.updateStatus current.id .revoked fun _ _ => .inl rfl
  obtain ⟨hwf, hfwd, hheld, -⟩ := foldl_updateIfStatus cutoff swept _ h₁.wellFormed
  refine ⟨hwf, h₁.forward.trans hfwd, ?_⟩
  rw [Credentials.settleRevoked, hheld]
  exact h₁.held

theorem settleRevoked_spares (hwf : WellFormed s) {swept : List CredentialRecord}
    (hcurrent : Tracked current s) (hunspared : spared cutoff current = false)
    (hswept : ∀ row ∈ swept, Takeable cutoff c row s) :
    Spares cutoff s (settleRevoked current swept s) := by
  obtain ⟨-, -, -, htaken⟩ := foldl_updateIfStatus cutoff swept (updateStatus current.id .revoked s)
    (hwf.updateStatus _ _)
  intro id row row' hrow hrow' hlive hrev hspared
  by_cases hid : id = current.id
  · subst hid
    rw [spared_congr (hcurrent.2 row hrow), hunspared] at hspared
    cases hspared
  · obtain ⟨taken, hmem, rfl, htst⟩ := htaken id row row'
      (by rwa [findById_updateStatus_ne hid]) hrow' hlive hrev
    obtain ⟨htracked, htake⟩ := hswept taken hmem
    have hsame := htracked.2 row hrow
    rcases htake with htake | ⟨hc, hb, hst, hempty⟩
    · rw [spared_congr hsame, htake] at hspared
      cases hspared
    · obtain ⟨-, -, hcr, htr⟩ := hsame
      refine ⟨htst.symm.trans hst, ?_⟩
      rw [if_pos (htr.trans hb), hcr.trans hc, htr.trans hb]
      exact hempty

theorem sweeps_revokeCredentialRow (hin : InSection slot cutoff c s₀ s)
    (hc : row.ferrumConsumerId = c) (hrow : Tracked row s) (hs : spared cutoff row = false)
    (actor : UserRecord) :
    Sweeps slot cutoff (revokeCredentialRow row actor ⟨false, true, cutoff⟩)
      (fun _ s' => InSection slot cutoff c s₀ s') s := by
  rw [revokeCredentialRow, hc]
  refine Sweeps.bind (sweeps_storeRead _) ?_
  rintro found s₁ ⟨hr₁, rfl⟩
  have hin₁ := hin.rely hr₁
  have hrow₁ := hrow.forward hr₁.forward
  cases hfound : findById s₁ row.id with
  | none => exact hin₁
  | some current =>
    have hsame := hrow₁.2 current hfound
    have hcid : current.id = row.id := (findById_mem hfound).2
    have hcurrent : findById s₁ current.id = some current := hcid ▸ hfound
    have hcc : current.ferrumConsumerId = c := hsame.2.2.1.trans hc
    have hct : current.credentialType = row.credentialType := hsame.2.2.2
    have hunspared : spared cutoff current = false := (spared_congr hsame).trans hs
    dsimp only
    split
    · exact hin₁
    rename_i hlive
    have hstart := hin₁.restart
    have htracked : Tracked current s₁ := hin₁.wellFormed.tracked (findById_mem hcurrent).1
    refine Sweeps.bind (sweeps_getConsumer c) ?_
    rintro consumer s₂ ⟨hr₂, rfl⟩
    have hin₂ := hstart.rely hr₂
    refine Sweeps.bind (sweeps_storeRead _) ?_
    rintro live s₃ ⟨hr₃, rfl⟩
    have hin₃ := hin₂.rely hr₃
    refine Sweeps.bind (sweeps_ensure _ _) ?_
    rintro _ _ rfl
    refine Sweeps.bind (sweeps_revokeOnGateway hin₃ (t := row.credentialType) ?_ hct actor) ?_
    · intro view hview
      refine ⟨hr₃.find hin₂ (hr₂.find hstart hcurrent hcc) hcc, hcc, hct, by simpa using hlive,
        hunspared, rfl, ?_⟩
      cases hconsumer : s₂.consumers c with
      | none => simp [hconsumer] at hview
      | some consumer =>
        rw [hconsumer, Option.map_some, Option.some.injEq] at hview
        rw [edgeArrayLength, entries_of_consumers (hr₃.consumers c hin₂.held), ← hview]
        split
        · rfl
        · rename_i hlisted
          simp [listed, projection, hlisted, entries, hconsumer]
    · rintro swept s₄ ⟨hin₄, htake⟩
      refine Sweeps.mono (sweeps_commit (f := settleRevoked current swept) ?_) ?_
      · intro s₅ hr₅
        have hin₅ := hin₄.rely hr₅
        exact settleRevoked_spares hin₅.wellFormed (htracked.forward hin₅.forward) hunspared
          fun taken htaken => (htake taken htaken).rely hin₄ hr₅
      · rintro _ _ ⟨-, s₅, hr₅, rfl⟩
        have hin₅ := hin₁.after (hin₄.rely hr₅)
        exact hin₅.settleRevoked current swept

end Section

end FerrumNexus.Credentials
