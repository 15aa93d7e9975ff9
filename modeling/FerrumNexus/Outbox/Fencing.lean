import FerrumNexus.Outbox.Worker

/-!
# What a write to the outbox can do

Every event rewrites rows for one cause: the worker that holds the claim, a
claim, a stale sweep or an address release. `Rewrites` says which rows each may
touch and what it leaves in them; a row in `sent` or `failed` is touched by
none. The rest of the development reads only this.
-/
namespace FerrumNexus.Outbox

open Platform

variable {casing : Casing}

/-- Why a row is rewritten. -/
inductive Cause
  | worker (entry : OutboxEntry)
  | claim
  | stale (olderThan : ℕ)
  | release (address : String)

/-- The columns no write touches. -/
structure SameMail (row row' : OutboxRow) : Prop where
  to_email : row'.to_email = row.to_email
  recipient : row'.recipient_user_id = row.recipient_user_id

/-- What a cause may turn a row into, with generations drawn in between. -/
def Cause.Allows (casing : Casing) (fresh last : ℕ) (id : ℕ) (row row' : OutboxRow) :
    Cause → Prop
  | .worker entry => id = entry.id ∧ row.status = .sending ∧
      row.generation = entry.row.generation ∧ row'.generation = row.generation ∧
        row'.attempts = row.attempts
  | .claim => row.status = .pending ∧ (row'.status = .sending ∨ row'.status = .failed) ∧
      row'.attempts = row.attempts + 1 ∧
        ∃ generation, row'.generation = some generation ∧ fresh ≤ generation ∧ generation < last
  | .stale olderThan => isStale olderThan row ∧ row'.status = .pending ∧
      row'.generation = row.generation ∧ row'.attempts = row.attempts
  | .release address => addressedTo casing address row ∧ row.status = .pending ∧
      row'.status = .failed ∧ row'.attempts = row.attempts ∧
        ∃ generation, row'.generation = some generation ∧ fresh ≤ generation ∧ generation < last

/-- An address changes only into a tombstone; accounts appear under drawn ids. -/
def Readdressed (fresh last : ℕ) (users users' : ℕ → Option String) : Prop :=
  ∀ id, users' id = users id ∨ ∃ email, users' id = some email ∧
    ((users id).isSome ∧ endsReleased email ∨ fresh ≤ id ∧ id < last)

/-- The tables before and after one event. -/
structure Rewrites (casing : Casing) (cause : Option Cause) (t t' : OutboxTables) : Prop where
  fresh_le : t.fresh ≤ t'.fresh
  users : Readdressed t.fresh t'.fresh t.users t'.users
  listed : ∀ id ∈ t.ids, id ∈ t'.ids
  old : ∀ id row, t.rows id = some row → ∃ row', t'.rows id = some row' ∧ SameMail row row' ∧
    (row' = row ∨ ∃ c, cause = some c ∧ c.Allows casing t.fresh t'.fresh id row row')
  new : ∀ id row', t'.rows id = some row' → t.rows id = none → id ∈ t'.ids ∧ id < t'.fresh ∧
    ∃ input now, row' = enqueuedRow casing t.users input now

/-- Rows are listed, and ids and generations were drawn. -/
structure Wf (t : OutboxTables) : Prop where
  listed : ∀ id row, t.rows id = some row → id ∈ t.ids
  drawn : ∀ id row, t.rows id = some row → id < t.fresh
  generation : ∀ id row generation, t.rows id = some row → row.generation = some generation →
    generation < t.fresh
  users : ∀ id email, t.users id = some email → id < t.fresh

section Statements

variable {t t' : OutboxTables}

theorem SameMail.refl (row : OutboxRow) : SameMail row row := ⟨rfl, rfl⟩

theorem Rewrites.refl (cause : Option Cause) (t : OutboxTables) : Rewrites casing cause t t where
  fresh_le := le_rfl
  users _ := .inl rfl
  listed _ h := h
  old id row h := ⟨row, h, SameMail.refl row, .inl rfl⟩
  new id row' h hnone := by rw [hnone] at h; contradiction

/-- A statement on `rows` that leaves the other columns of the tables alone. -/
theorem rewrites_rows {cause : Option Cause} {rows : ℕ → Option OutboxRow} {fresh : ℕ}
    (hle : t.fresh ≤ fresh)
    (h : ∀ id, rows id = t.rows id ∨ ∃ row row', t.rows id = some row ∧ rows id = some row' ∧
      SameMail row row' ∧ ∃ c, cause = some c ∧ c.Allows casing t.fresh fresh id row row')
    {users : ℕ → Option String} (husers : Readdressed t.fresh fresh t.users users)
    (userIds : List ℕ) : Rewrites casing cause t ⟨rows, t.ids, users, userIds, fresh⟩ where
  fresh_le := hle
  users := husers
  listed _ hid := hid
  old id row hrow := by
    rcases h id with heq | ⟨old, row', hold, hrow', hmail, hallows⟩
    · exact ⟨row, heq.trans hrow, SameMail.refl row, .inl rfl⟩
    · rw [hold, Option.some.injEq] at hrow
      subst hrow
      exact ⟨row', hrow', hmail, .inr hallows⟩
  new id row' hrow' hnone := by
    rcases h id with heq | ⟨old, -, hold, -⟩
    · rw [hnone] at heq
      exact absurd (heq.symm.trans hrow') (by simp)
    · rw [hnone] at hold
      contradiction

theorem rewrites_enqueue (hwf : Wf t) (input : EnqueueEmailInput) (now : ℕ)
    (cause : Option Cause) : Rewrites casing cause t (enqueue casing input now t) := by
  unfold enqueue
  split
  · exact Rewrites.refl cause t
  · refine ⟨Nat.le_succ _, fun _ => .inl rfl, fun id hid => List.mem_append_left _ hid, ?_, ?_⟩
    · intro id row hrow
      have hne : id ≠ t.fresh := (hwf.drawn id row hrow).ne
      exact ⟨row, by simp [Function.update_of_ne hne, hrow], SameMail.refl row, .inl rfl⟩
    · intro id row' hrow' hnone
      by_cases hid : id = t.fresh
      · subst hid
        simp only [Function.update_self, Option.some.injEq] at hrow'
        exact ⟨by simp, Nat.lt_succ_self _, input, now, hrow'.symm⟩
      · simp [Function.update_of_ne hid, hnone] at hrow'

/-- A write of a worker touches the row of its claim, at its generation. -/
theorem rewrites_whileSending (entry : OutboxEntry) {f : OutboxRow → OutboxRow}
    (hmail : ∀ row, SameMail row (f row)) (hgeneration : ∀ row, (f row).generation = row.generation)
    (hattempts : ∀ row, (f row).attempts = row.attempts) :
    Rewrites casing (some (.worker entry)) t (whileSending entry f t).2 := by
  unfold whileSending
  split
  · exact Rewrites.refl _ t
  · rename_i row hrow
    split
    · rename_i hheld
      refine rewrites_rows le_rfl ?_ (fun _ => .inl rfl) t.userIds
      intro id
      by_cases hid : id = entry.id
      · subst hid
        exact .inr ⟨row, f row, hrow, by simp, hmail row, _, rfl, rfl, hheld.2, hheld.1,
          hgeneration row, hattempts row⟩
      · exact .inl (by simp [Function.update_of_ne hid])
    · exact Rewrites.refl _ t

theorem rewrites_updateRows {p : OutboxRow → Bool} {f : OutboxRow → OutboxRow} {c : Cause}
    {fresh : ℕ} (hle : t.fresh ≤ fresh)
    (h : ∀ id row, p row = true → SameMail row (f row) ∧
      c.Allows casing t.fresh fresh id row (f row))
    {users : ℕ → Option String} (husers : Readdressed t.fresh fresh t.users users) :
    Rewrites casing (some c) t ⟨updateRows p f t.rows, t.ids, users, t.userIds, fresh⟩ := by
  refine rewrites_rows hle ?_ husers t.userIds
  intro id
  rcases hrow : t.rows id with _ | row
  · exact .inl (by simp [updateRows, hrow])
  · by_cases hp : p row = true
    · obtain ⟨hmail, hallows⟩ := h id row hp
      exact .inr ⟨row, f row, rfl, by simp [updateRows, hrow, hp], hmail, c, rfl, hallows⟩
    · exact .inl (by simp [updateRows, hrow, hp])

theorem rewrites_releaseStale (olderThan stamp : ℕ) :
    Rewrites casing (some (.stale olderThan)) t (releaseStale olderThan stamp t) := by
  unfold releaseStale
  refine rewrites_updateRows le_rfl ?_ fun _ => .inl rfl
  intro id row hp
  exact ⟨⟨rfl, rfl⟩, hp, rfl, rfl, rfl⟩

theorem rewrites_releaseAddress {userId stamp : ℕ} {expectedEmail : String}
    (h : releaseAddress casing userId expectedEmail stamp t = some t') :
    Rewrites casing
      (some (.release (normalizeEmail casing (normalizeEmail casing expectedEmail)))) t t' := by
  simp only [releaseAddress] at h
  split at h
  · contradiction
  split at h
  · contradiction
  rename_i hholds
  simp only [cancelForReleasedAddress] at h
  split at h
  · contradiction
  cases h
  have hle : t.fresh ≤ t.fresh + 1 + 1 := by omega
  have husers : Readdressed t.fresh (t.fresh + 1 + 1) t.users
      (Function.update t.users userId (some (tombstone t.fresh))) := by
    intro id
    by_cases hid : id = userId
    · subst hid
      refine .inr ⟨_, Function.update_self .., .inl ⟨?_, endsReleased_tombstone _⟩⟩
      simp [not_not.mp hholds]
    · exact .inl (Function.update_of_ne hid ..)
  refine rewrites_updateRows hle ?_ husers
  intro id row hp
  simp only [Bool.and_eq_true, beq_iff_eq] at hp
  exact ⟨⟨rfl, rfl⟩, hp.1, hp.2, rfl, rfl, t.fresh + 1, rfl, Nat.le_succ _, Nat.lt_succ_self _⟩

theorem rewrites_register {email : String} (h : register casing email t = some t')
    (cause : Option Cause) : Rewrites casing cause t t' := by
  simp only [register] at h
  split at h
  · contradiction
  · cases h
    refine rewrites_rows (Nat.le_succ _) (fun _ => .inl rfl) ?_ _
    intro id
    by_cases hid : id = t.fresh
    · subst hid
      exact .inr ⟨_, Function.update_self .., .inr ⟨le_rfl, Nat.lt_succ_self _⟩⟩
    · exact .inl (Function.update_of_ne hid ..)

theorem rewrites_claimOne (stamp : ℕ) (entry : OutboxEntry) :
    Rewrites casing (some .claim) t (claimOne casing stamp entry t).2 := by
  simp only [claimOne]
  have hle : t.fresh ≤ t.fresh + 1 := Nat.le_succ _
  split
  · exact rewrites_rows hle (fun _ => .inl rfl) (fun _ => .inl rfl) _
  · rename_i row hrow
    split
    · rename_i hpending
      refine rewrites_rows hle ?_ (fun _ => .inl rfl) _
      intro id
      by_cases hid : id = entry.id
      · subst hid
        refine .inr ⟨row, _, hrow, Function.update_self .., ⟨rfl, rfl⟩, _, rfl, hpending, ?_, rfl,
          t.fresh, rfl, le_rfl, Nat.lt_succ_self _⟩
        simp only [claimedRow]
        split <;> simp
      · exact .inl (by simp [Function.update_of_ne hid])
    · exact rewrites_rows hle (fun _ => .inl rfl) (fun _ => .inl rfl) _

/-- The row a claim returned: pending before, sending at a new generation. -/
theorem claimOne_claimed {stamp : ℕ} {entry claimed : OutboxEntry}
    (h : (claimOne casing stamp entry t).1 = some claimed) :
    claimed.id = entry.id ∧ (∃ row, t.rows entry.id = some row ∧ row.status = .pending) ∧
      (claimOne casing stamp entry t).2.rows entry.id = some claimed.row ∧
        claimed.row.status = .sending := by
  simp only [claimOne] at h ⊢
  split at h
  · contradiction
  · rename_i row hrow
    split at h
    · rename_i hpending
      simp only [hrow, hpending, if_true]
      split at h
      · rename_i heligible
        cases h
        refine ⟨rfl, ⟨row, rfl, hpending⟩, by simp, ?_⟩
        simp [claimedRow, heligible]
      · contradiction
    · contradiction

/-- A worker claims one row at most. -/
theorem claimDue_one (casing : Casing) (now stamp : ℕ) (t : OutboxTables) :
    claimDue casing now 1 stamp t = ([], t) ∨ ∃ entry,
      claimDue casing now 1 stamp t =
        ((claimOne casing stamp entry t).1.toList, (claimOne casing stamp entry t).2) := by
  have hlength : (claimCandidates now 1 t).length ≤ 1 := by simp [claimCandidates]
  rcases hcandidates : claimCandidates now 1 t with _ | ⟨entry, rest⟩
  · exact .inl (by simp [claimDue, hcandidates, claimAll])
  · have hrest : rest = [] := by
      rw [hcandidates] at hlength
      exact List.length_eq_zero_iff.mp (by simpa using hlength)
    exact .inr ⟨entry, by simp [claimDue, hcandidates, hrest, claimAll]⟩

theorem rewrites_claimDue (now stamp : ℕ) (t : OutboxTables) :
    Rewrites casing (some .claim) t (claimDue casing now 1 stamp t).2 := by
  rcases claimDue_one casing now stamp t with h | ⟨entry, h⟩
  · rw [h]
    exact Rewrites.refl _ t
  · rw [h]
    exact rewrites_claimOne stamp entry

theorem claimDue_claimed {now stamp : ℕ} {claimed : OutboxEntry}
    (h : (claimDue casing now 1 stamp t).1.head? = some claimed) :
    (∃ row, t.rows claimed.id = some row ∧ row.status = .pending) ∧
      (claimDue casing now 1 stamp t).2.rows claimed.id = some claimed.row ∧
        claimed.row.status = .sending := by
  rcases claimDue_one casing now stamp t with heq | ⟨entry, heq⟩
  · simp [heq] at h
  · rw [heq] at h ⊢
    have hone : (claimOne casing stamp entry t).1 = some claimed := by
      cases hone : (claimOne casing stamp entry t).1 with
      | none => simp [hone] at h
      | some other => simpa [hone] using h
    obtain ⟨hid, hpending, hrow, hsending⟩ := claimOne_claimed hone
    exact hid ▸ ⟨hpending, hrow, hsending⟩

theorem rewrites_authorize (entry : OutboxEntry) (at_ stamp : ℕ) :
    Rewrites casing (some (.worker entry)) t (authorize casing entry at_ stamp t).2 := by
  simp only [authorize]
  split
  · exact Rewrites.refl _ t
  split
  · exact Rewrites.refl _ t
  split
  · exact rewrites_whileSending entry (fun _ => ⟨rfl, rfl⟩) (fun _ => rfl) (fun _ => rfl)
  · exact rewrites_whileSending entry (fun _ => ⟨rfl, rfl⟩) (fun _ => rfl) (fun _ => rfl)

theorem rewrites_settleWrite (now jitter : ℕ) {phase : Phase} {entry : OutboxEntry}
    (hentry : phase.entry? = some entry) :
    Rewrites casing (some (.worker entry)) t (settleWrite now jitter phase t) := by
  have hwrite : ∀ f : OutboxRow → OutboxRow, (∀ row, SameMail row (f row)) →
      (∀ row, (f row).generation = row.generation) → (∀ row, (f row).attempts = row.attempts) →
      Rewrites casing (some (.worker entry)) t (whileSending entry f t).2 :=
    fun f => rewrites_whileSending entry
  cases phase <;> cases hentry <;> simp only [settleWrite]
  case refused message =>
    split
    · exact hwrite _ (fun _ => ⟨rfl, rfl⟩) (fun _ => rfl) (fun _ => rfl)
    · exact hwrite _ (fun _ => ⟨rfl, rfl⟩) (fun _ => rfl) (fun _ => rfl)
  case claimed => exact Rewrites.refl _ t
  case authorized => exact Rewrites.refl _ t
  case handingOff => exact Rewrites.refl _ t
  case ready => exact Rewrites.refl _ t
  all_goals exact hwrite _ (fun _ => ⟨rfl, rfl⟩) (fun _ => rfl) (fun _ => rfl)

end Statements

section Steps

variable {s s' : OutboxState}

/-- The cause an event rewrites rows for. -/
def causeOf (casing : Casing) (s : OutboxState) : OutboxEvent → Option Cause
  | .claim _ _ _ => some .claim
  | .authorize worker _ _ => (s.workers[worker]?.bind Phase.entry?).map .worker
  | .settle worker _ _ => (s.workers[worker]?.bind Phase.entry?).map .worker
  | .releaseStale now _ => some (.stale (now - OUTBOX_STALE_AFTER_MS))
  | .releaseAddress _ expectedEmail _ =>
    some (.release (normalizeEmail casing (normalizeEmail casing expectedEmail)))
  | _ => none

@[simp] theorem enter_tables (s : OutboxState) (worker : ℕ) (phase : Phase) :
    (s.enter worker phase).tables = s.tables := rfl

@[simp] theorem enter_sends (s : OutboxState) (worker : ℕ) (phase : Phase) :
    (s.enter worker phase).sends = s.sends := rfl

@[simp] theorem enter_workers (s : OutboxState) (worker : ℕ) (phase : Phase) :
    (s.enter worker phase).workers = s.workers.set worker phase := rfl

theorem outboxStep_rewrites (hwf : Wf s.tables) {e : OutboxEvent}
    (h : outboxStep casing s e = some s') :
    Rewrites casing (causeOf casing s e) s.tables s'.tables := by
  cases e with
  | enqueue input now =>
    cases h
    exact rewrites_enqueue hwf input now _
  | claim worker now stamp =>
    simp only [outboxStep, claimStep] at h
    split at h
    · cases h
      exact rewrites_claimDue now stamp s.tables
    · contradiction
  | authorize worker at_ stamp =>
    simp only [outboxStep, authorizeStep] at h
    split at h
    · rename_i entry hphase
      cases h
      simp only [causeOf, hphase, Option.bind_some, Phase.entry?, Option.map_some]
      exact rewrites_authorize entry at_ stamp
    · contradiction
  | checkDeadline worker now =>
    simp only [outboxStep, checkDeadlineStep] at h
    split at h
    · cases h
      exact Rewrites.refl _ _
    · contradiction
  | openContent worker error =>
    simp only [outboxStep, openContentStep] at h
    split at h
    · cases h
      exact Rewrites.refl _ _
    · contradiction
  | send worker outcome =>
    simp only [outboxStep, sendStep] at h
    split at h
    · cases h
      cases outcome <;> exact Rewrites.refl _ _
    · contradiction
  | settle worker now jitter =>
    simp only [outboxStep, settleStep] at h
    split at h
    · rename_i phase hphase
      split at h
      · cases h
        rcases hentry : phase.entry? with _ | entry
        · cases phase <;> simp_all [Phase.entry?, Phase.settles]
        · simp only [causeOf, hphase, Option.bind_some, hentry, Option.map_some]
          exact rewrites_settleWrite now jitter hentry
      · contradiction
    · contradiction
  | settleThrows worker message =>
    simp only [outboxStep, settleThrowsStep] at h
    split at h
    · cases h
      exact Rewrites.refl _ _
    · split at h
      · cases h
        exact Rewrites.refl _ _
      · contradiction
    · contradiction
  | crash worker =>
    simp only [outboxStep, crashStep] at h
    split at h
    · cases h
      exact Rewrites.refl _ _
    · contradiction
  | releaseStale now stamp =>
    cases h
    exact rewrites_releaseStale _ stamp
  | releaseAddress userId expectedEmail stamp =>
    obtain ⟨t, ht, rfl⟩ := Option.map_eq_some_iff.mp h
    exact rewrites_releaseAddress ht
  | register email =>
    obtain ⟨t, ht, rfl⟩ := Option.map_eq_some_iff.mp h
    exact rewrites_register ht _

end Steps

section Consequences

variable {t t' : OutboxTables} {cause : Option Cause}

/-- A settled row is rewritten for no cause. -/
theorem Cause.Allows.not_terminal {c : Cause} {fresh last id : ℕ} {row row' : OutboxRow}
    (h : c.Allows casing fresh last id row row') : row.status.terminal = false := by
  cases c with
  | worker entry => simp [h.2.1, OutboxStatus.terminal]
  | claim => simp [h.1, OutboxStatus.terminal]
  | stale olderThan =>
    have hstale := h.1
    simp only [isStale, Bool.and_eq_true, decide_eq_true_eq] at hstale
    simp [hstale.1, OutboxStatus.terminal]
  | release address => simp [h.2.1, OutboxStatus.terminal]

theorem Rewrites.terminal (h : Rewrites casing cause t t') {id : ℕ} {row : OutboxRow}
    (hrow : t.rows id = some row) (hterminal : row.status.terminal = true) :
    t'.rows id = some row := by
  obtain ⟨row', hrow', -, heq | ⟨c, -, hallows⟩⟩ := h.old id row hrow
  · exact heq ▸ hrow'
  · rw [hallows.not_terminal] at hterminal
    contradiction

/-- The generation of a rewritten row is the one it had, or a fresh one. -/
theorem Cause.Allows.generation {c : Cause} {fresh last id : ℕ} {row row' : OutboxRow}
    (h : c.Allows casing fresh last id row row') : row'.generation = row.generation ∨
      ∃ generation, row'.generation = some generation ∧ generation < last := by
  cases c with
  | worker entry => exact .inl h.2.2.2.1
  | claim =>
    obtain ⟨-, -, -, generation, heq, -, hlt⟩ := h
    exact .inr ⟨generation, heq, hlt⟩
  | stale olderThan => exact .inl h.2.2.1
  | release address =>
    obtain ⟨-, -, -, -, generation, heq, -, hlt⟩ := h
    exact .inr ⟨generation, heq, hlt⟩

theorem Wf.rewrites (hwf : Wf t) (h : Rewrites casing cause t t') : Wf t' := by
  have hle := h.fresh_le
  refine ⟨?_, ?_, ?_, ?_⟩
  · intro id row' hrow'
    rcases hrow : t.rows id with _ | row
    · exact (h.new id row' hrow' hrow).1
    · exact h.listed id (hwf.listed id row hrow)
  · intro id row' hrow'
    rcases hrow : t.rows id with _ | row
    · exact (h.new id row' hrow' hrow).2.1
    · exact (hwf.drawn id row hrow).trans_le hle
  · intro id row' generation hrow' hgeneration
    rcases hrow : t.rows id with _ | row
    · obtain ⟨-, -, input, now, rfl⟩ := h.new id row' hrow' hrow
      simp [enqueuedRow] at hgeneration
    · obtain ⟨next, hnext, -, hcase⟩ := h.old id row hrow
      have heq : next = row' := Option.some.inj (hnext.symm.trans hrow')
      subst heq
      rcases hcase with rfl | ⟨c, -, hallows⟩
      · exact (hwf.generation id next generation hrow hgeneration).trans_le hle
      · rcases hallows.generation with hsame | ⟨drawn, hdrawn, hlt⟩
        · exact (hwf.generation id row generation hrow (hsame ▸ hgeneration)).trans_le hle
        · have hval : drawn = generation := Option.some.inj (hdrawn.symm.trans hgeneration)
          exact hval ▸ hlt
  · intro id email hemail
    rcases h.users id with heq | ⟨email', -, ⟨hsome, -⟩ | ⟨-, hlt⟩⟩
    · exact (hwf.users id email (heq ▸ hemail)).trans_le hle
    · obtain ⟨old, hold⟩ := Option.isSome_iff_exists.mp hsome
      exact (hwf.users id old hold).trans_le hle
    · exact hlt

theorem wf_emptyOutbox (n : ℕ) : Wf (emptyOutbox n).tables :=
  ⟨by simp [emptyOutbox], by simp [emptyOutbox], by simp [emptyOutbox], by simp [emptyOutbox]⟩

end Consequences

end FerrumNexus.Outbox
