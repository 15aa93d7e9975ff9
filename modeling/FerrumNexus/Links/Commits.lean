import FerrumNexus.Accounts.Commits
import FerrumNexus.Links.Service

/-!
# The commits

What each transaction does to the links: it leaves them, mints one, redeems one
or deletes the reset links of an account. The mint and the redemptions decide in
their writes, so it does not matter what changed since their reads. Only a reset
needs more of them: the link it burns is the one whose account it was read for,
and that both were read under one token says so.
-/
namespace FerrumNexus.Links

open Saga Platform Accounts

/-! ## The account tables -/

section AccountWrites

variable {α β : Type} {who : Option ℕ} {u : ℕ} {a a' a'' : Tables}

/-- The accounts may change, but no password, and no account is disabled but
the one of `who`. -/
structure Spares (who : Option ℕ) (a a' : Tables) : Prop where
  clock : a'.clock = a.clock
  passwords : ∀ w, (a'.users w).map (·.password_hash) = (a.users w).map (·.password_hash)
  resetAt : a'.resetAt = a.resetAt
  disabledAt : ∀ w, a'.disabledAt w = a.disabledAt w ∨ (who = some w ∧ a'.disabledAt w = a'.clock)
  dark : ∀ w, who ≠ some w → ∀ user', a'.users w = some user' → user'.status = .disabled →
    ∃ user, a.users w = some user ∧ user.status = .disabled

theorem Spares.of_users (hclock : a'.clock = a.clock) (husers : a'.users = a.users)
    (hreset : a'.resetAt = a.resetAt) (hdisabled : a'.disabledAt = a.disabledAt) :
    Spares who a a' where
  clock := hclock
  passwords w := by rw [husers]
  resetAt := hreset
  disabledAt w := .inl (congrFun hdisabled w)
  dark w _ user' huser' hdark := ⟨user', husers ▸ huser', hdark⟩

theorem Spares.refl (who : Option ℕ) (a : Tables) : Spares who a a :=
  Spares.of_users rfl rfl rfl rfl

theorem Spares.trans (h : Spares who a a') (h' : Spares who a' a'') : Spares who a a'' where
  clock := h'.clock.trans h.clock
  passwords w := (h'.passwords w).trans (h.passwords w)
  resetAt := h'.resetAt.trans h.resetAt
  disabledAt w := by
    rcases h'.disabledAt w with hsame | hnew
    · rcases h.disabledAt w with hsame₁ | ⟨hwho, hclock⟩
      · exact .inl (hsame.trans hsame₁)
      · exact .inr ⟨hwho, hsame.trans (hclock.trans h'.clock.symm)⟩
    · exact .inr hnew
  dark w hw user'' huser'' hdark := by
    obtain ⟨user', huser', hdark'⟩ := h'.dark w hw user'' huser'' hdark
    exact h.dark w hw user' huser' hdark'

theorem spares_pure (x : α) : Moves (Spares who) (pure x : AccountWrite α) :=
  moves_pure (Spares.refl who) x

/-- A compare-and-set without a password changes none, and no status but that of `who`. -/
theorem spares_updateIfMatches (expected : Expected) {update : UserUpdate}
    (hpassword : update.password_hash = none) (hstatus : update.status = none ∨ who = some u) :
    Moves (Spares who) (updateIfMatches u expected update) := by
  intro a row a' h
  rcases updateIfMatches_cases h with ⟨-, rfl⟩ | ⟨user, huser, -, -, rfl⟩
  · exact Spares.refl who a
  constructor
  · rfl
  · intro w
    simp only [putUser, Function.update_apply]
    split
    · rename_i hw
      subst hw
      rw [huser]
      simp [UserUpdate.apply, hpassword]
    · rfl
  · rfl
  · exact fun _ => .inl rfl
  · intro w hw user' huser' hdark
    by_cases hu : w = u
    · subst hu
      have hnone := hstatus.resolve_right hw
      simp only [putUser, Function.update_self, Option.some.injEq] at huser'
      subst huser'
      refine ⟨user, huser, ?_⟩
      simpa [UserUpdate.apply, hnone] using hdark
    · simp only [putUser, Function.update_of_ne hu] at huser'
      exact ⟨user', huser', hdark⟩

theorem spares_deleteSessions (w : ℕ) : Moves (Spares who) (deleteSessions w) := by
  intro a _ a' h
  cases h
  exact Spares.of_users rfl rfl rfl rfl

theorem spares_deleteResetLinks (w : ℕ) : Moves (Spares who) (deleteResetLinks w) := by
  intro a _ a' h
  cases h
  exact Spares.of_users rfl rfl rfl rfl

theorem spares_upsertProof (w : ℕ) (proof : EmailProofRecord) :
    Moves (Spares who) (upsertProof w proof) := by
  intro a _ a' h
  cases h
  exact Spares.of_users rfl rfl rfl rfl

theorem disabledAt_disableEffects {x : Unit} (h : (disableEffects u).run a = .ok (x, a')) :
    a'.disabledAt u = a'.clock := by
  cases h
  exact Function.update_self _ _ _

theorem spares_disableEffects : Moves (Spares (some u)) (disableEffects u) := by
  intro a _ a' h
  cases h
  refine ⟨rfl, fun _ => rfl, rfl, fun w => ?_, fun w _ user' huser' hdark =>
    ⟨user', huser', hdark⟩⟩
  by_cases hw : u = w
  · subst hw
    exact .inr ⟨rfl, Function.update_self _ _ _⟩
  · exact .inl (Function.update_of_ne (Ne.symm hw) _ _)

theorem spares_whenever {write : AccountWrite Unit} {c : Bool}
    (h : c = true → Moves (Spares who) write) : Moves (Spares who) (whenever c write) := by
  cases c with
  | false => exact spares_pure ()
  | true => exact h rfl

/-- An account that ends up disabled was so before, or its disable is on
record. -/
def Recorded (u : ℕ) (a a' : Tables) : Prop :=
  ∀ user', a'.users u = some user' → user'.status = .disabled →
    (∃ user, a.users u = some user ∧ user.status = .disabled) ∨ a'.disabledAt u = a'.clock

theorem Recorded.of_clock (h : a'.disabledAt u = a'.clock) : Recorded u a a' :=
  fun _ _ _ => .inr h

theorem Spares.recorded (h : Spares none a a') : Recorded u a a' :=
  fun user' huser' hdark => .inl (h.dark u (Option.some_ne_none u).symm user' huser' hdark)

/-- An account service's write that flips an account's status where its answer
says so. -/
def Flips (u : ℕ) (flips : α → Bool) (write : AccountWrite α) : Prop :=
  ∀ a x a', write.run a = .ok (x, a') →
    Spares (if flips x then some u else none) a a' ∧ Recorded u a a'

theorem flips_pure (flips : α → Bool) (x : α) : Flips u flips (pure x) := by
  intro a _ _ hrun
  cases hrun
  exact ⟨Spares.refl _ _, (Spares.refl none a).recorded⟩

/-- A disable that found its row. -/
theorem disable_spec {expected : Expected} {a₁ : Tables} {row : UserRecord} {x : Unit}
    (hupdate : (updateIfMatches u expected { status := some .disabled }).run a = .ok (some row, a₁))
    (heffects : (disableEffects u).run a₁ = .ok (x, a')) :
    Spares (some u) a a' ∧ Recorded u a a' :=
  ⟨(spares_updateIfMatches _ rfl (.inr rfl) _ _ _ hupdate).trans
    (spares_disableEffects _ _ _ heffects), .of_clock (disabledAt_disableEffects heffects)⟩

theorem flips_disableWrite {current : UserRecord} :
    Flips u (fun _ => true) (disableWrite u current) := by
  intro a _ a' h
  obtain ⟨row, a₁, h₁, h⟩ := run_bind_ok.mp h
  cases row with
  | none => cases h
  | some row => exact disable_spec h₁ h

theorem flips_deprovisionWrite {current : UserRecord} :
    Flips u id (deprovisionWrite u current) := by
  intro a _ a' h
  obtain ⟨row, a₁, h₁, h⟩ := run_bind_ok.mp h
  cases row with
  | none =>
    rcases updateIfMatches_cases h₁ with ⟨-, rfl⟩ | ⟨_, _, _, hsome, _⟩
    · exact flips_pure id false _ _ _ h
    · cases hsome
  | some row =>
    obtain ⟨_, _, heffects, h⟩ := run_bind_ok.mp h
    cases h
    exact disable_spec h₁ heffects

/-- Without a row nothing changed, and without a flip nobody is disabled. -/
theorem flips_transitionWrite {actor : Actor} {target : UserRecord} {update : UserUpdate}
    (hpassword : update.password_hash = none) :
    Flips u (fun row => row.isSome && update.status.isSome)
      (transitionWrite actor u target update) := by
  intro a row a' h
  obtain ⟨found, a₁, h₁, h⟩ := run_bind_ok.mp h
  rcases updateIfMatches_cases h₁ with ⟨rfl, rfl⟩ | ⟨user, huser, -, rfl, rfl⟩
  · cases h
    exact ⟨Spares.refl _ _, (Spares.refl none a).recorded⟩
  obtain ⟨_, a₂, h₂, h⟩ := run_bind_ok.mp h
  -- what follows the disable disables nobody
  obtain ⟨hrest, rfl⟩ : (∀ who, Spares who a₂ a') ∧ row = some (update.apply user) := by
    obtain ⟨_, a₃, h₃, h⟩ := run_bind_ok.mp h
    obtain ⟨_, a₄, h₄, h⟩ := run_bind_ok.mp h
    have hboth : ∀ who, Spares who a₂ a₄ := fun who =>
      (spares_whenever (fun _ => spares_deleteSessions u) _ _ _ h₃).trans
        (spares_whenever (fun _ => spares_deleteResetLinks u) _ _ _ h₄)
    cases hrole : update.role with
    | none =>
      rw [hrole] at h
      cases h
      exact ⟨hboth, rfl⟩
    | some role =>
      rw [hrole] at h
      cases h
      exact ⟨fun who => (hboth who).trans (Spares.of_users rfl rfl rfl rfl), rfl⟩
  cases hstatus : update.status with
  | none =>
    have hupdate : Spares none a _ :=
      spares_updateIfMatches _ hpassword (.inl hstatus) _ _ _ h₁
    rw [hstatus] at h₂
    cases h₂
    have hall := hupdate.trans (hrest none)
    exact ⟨hall, hall.recorded⟩
  | some status =>
    have hupdate : Spares (some u) a _ :=
      spares_updateIfMatches _ hpassword (.inr rfl) _ _ _ h₁
    cases status with
    | disabled =>
      rw [hstatus] at h₂
      have hdisabled := disabledAt_disableEffects h₂
      refine ⟨(hupdate.trans (spares_disableEffects _ _ _ h₂)).trans (hrest _), .of_clock ?_⟩
      rw [(hrest none).clock, ← hdisabled]
      exact ((hrest none).disabledAt u).resolve_right (nofun ∘ And.left)
    | active =>
      rw [hstatus] at h₂
      cases h₂
      refine ⟨hupdate.trans (hrest _), fun user' huser' hdark => ?_⟩
      obtain ⟨kept, hkept, hstill⟩ := (hrest none).dark u (nofun) user' huser' hdark
      simp only [putUser, Function.update_self, Option.some.injEq] at hkept
      subst hkept
      simp [UserUpdate.apply, hstatus] at hstill

end AccountWrites

/-! ## What a commit does to the links -/

/-- What of a row never changes. -/
def VerificationTokenRecord.stamp (row : VerificationTokenRecord) : ℕ × ℕ × ℕ × Purpose × ℕ :=
  (row.id, row.user_id, row.token_hash, row.purpose, row.number)

/-- No row goes, and each stays the link it is. -/
def Grows (d d' : LinkTables) : Prop := ∀ row ∈ d.rows, ∃ row' ∈ d'.rows, row'.stamp = row.stamp

def linkDiscipline : Discipline AccountKey LinkTables where
  protects _ _ _ := True
  grows := Grows
  protects_refl _ _ := trivial
  protects_trans _ _ _ _ _ _ := trivial
  grows_refl _ row hrow := ⟨row, hrow, rfl⟩
  grows_trans _ _ _ h h' row hrow := by
    obtain ⟨row', hrow', heq⟩ := h row hrow
    obtain ⟨row'', hrow'', heq'⟩ := h' row' hrow'
    exact ⟨row'', hrow'', heq'.trans heq⟩

theorem stamp_strike (u : ℕ) (purpose : Purpose) (row : VerificationTokenRecord) :
    (strike u purpose row).stamp = row.stamp := by
  unfold strike
  split <;> rfl

theorem stamp_burn (id usedAt : ℕ) (row : VerificationTokenRecord) :
    (burn id usedAt row).stamp = row.stamp := by
  unfold burn
  split <;> rfl

section Changes

variable (deps : Deps) (d d' : LinkTables)

/-- No mint. -/
structure Unminted : Prop where
  issueClaims : d'.issueClaims = d.issueClaims
  outbox : d'.outbox = d.outbox
  mints : d'.mints = d.mints

/-- A commit that touches no link. -/
structure Quiet : Prop where
  accounts : Spares none d.accounts.tick d'.accounts
  rows : d'.rows = d.rows
  redemptions : d'.redemptions = d.redemptions
  unminted : Unminted d d'

/-- A mint, with its window, its message and the link it supersedes. -/
structure Minted (row : VerificationTokenRecord) (issuedAt : ℕ) : Prop where
  accounts : d'.accounts = d.accounts.tick
  unused : row.used_at = none
  present : row.deleted = false
  number : row.number = d'.accounts.clock
  fresh : ∀ other ∈ d.rows, other.id ≠ row.id ∧ other.token_hash ≠ row.token_hash
  rows : d'.rows = d.rows.map (strike row.user_id row.purpose) ++ [row]
  window : ∀ last, d.issueClaims row.user_id row.purpose = some last →
    last + throttle row.purpose ≤ issuedAt
  issueClaims : d'.issueClaims = Function.update d.issueClaims row.user_id
    (Function.update (d.issueClaims row.user_id) row.purpose (some issuedAt))
  mints : d'.mints = ⟨row.user_id, row.purpose, row.number, issuedAt⟩ :: d.mints
  queued : deps.prepares row.purpose = true → d'.outbox = d.outbox ++ [⟨row.id, row.purpose⟩]
  redemptions : d'.redemptions = d.redemptions

/-- A link is burned. -/
structure Burned (row : VerificationTokenRecord) : Prop where
  present : row ∈ d.tokens
  unused : row.used_at = none
  redemptions : d'.redemptions = row.id :: d.redemptions
  unminted : Unminted d d'

/-- An address verified. -/
structure Verified (row : VerificationTokenRecord) (usedAt : ℕ) : Prop where
  accounts : Spares none d.accounts.tick d'.accounts
  burned : Burned d d' row
  rows : d'.rows = d.rows.map (burn row.id usedAt)

/-- A password reset. `outer` is the row the account was read from, and `inner`
the one the transaction found. -/
structure Reset (row outer inner : VerificationTokenRecord) (usedAt : ℕ) : Prop where
  clock : d'.accounts.clock = d.accounts.clock + 1
  burned : Burned d d' row
  knownOuter : ∃ known ∈ d.rows, known.stamp = outer.stamp
  knownInner : ∃ known ∈ d.rows, known.stamp = inner.stamp
  token : inner.token_hash = outer.token_hash
  purpose : inner.purpose = .password_reset
  id : row.id = inner.id
  rows : d'.rows =
    (d.rows.map (burn row.id usedAt)).map (strike outer.user_id .password_reset)
  passwords : ∀ w, w ≠ outer.user_id →
    (d'.accounts.users w).map (·.password_hash) = (d.accounts.users w).map (·.password_hash)
  resetAt : d'.accounts.resetAt =
    Function.update d.accounts.resetAt outer.user_id d'.accounts.clock
  disabledAt : d'.accounts.disabledAt = d.accounts.disabledAt
  dark : ∀ w user', d'.accounts.users w = some user' → user'.status = .disabled →
    ∃ user, d.accounts.users w = some user ∧ user.status = .disabled

/-- A disable or a re-enable. -/
structure Flipped (userId : ℕ) : Prop where
  accounts : Spares (some userId) d.accounts.tick d'.accounts
  recorded : Recorded userId d.accounts.tick d'.accounts
  rows : d'.rows = d.rows.map (strike userId .password_reset)
  redemptions : d'.redemptions = d.redemptions
  unminted : Unminted d d'

/-- The commits of the modelled services. -/
inductive Change : Prop
  | quiet (h : Quiet d d')
  | mint (row : VerificationTokenRecord) (issuedAt : ℕ) (h : Minted deps d d' row issuedAt)
  | verify (row : VerificationTokenRecord) (usedAt : ℕ) (h : Verified d d' row usedAt)
  | reset (row outer inner : VerificationTokenRecord) (usedAt : ℕ)
    (h : Reset d d' row outer inner usedAt)
  | flip (userId : ℕ) (h : Flipped d d' userId)

/-- The commits of a mint: all of it, or nothing of it. -/
inductive Whole : Prop
  | quiet (h : Quiet d d')
  | mint (row : VerificationTokenRecord) (issuedAt : ℕ) (h : Minted deps d d' row issuedAt)

end Changes

section Writes

variable {deps : Deps} {d d' : LinkTables} {α : Type}

theorem grows_rows {f : VerificationTokenRecord → VerificationTokenRecord}
    (hf : ∀ row, (f row).stamp = row.stamp) {more : List VerificationTokenRecord}
    (h : d'.rows = d.rows.map f ++ more) : Grows d d' := by
  intro row hrow
  refine ⟨f row, ?_, hf row⟩
  rw [h]
  exact List.mem_append_left _ (List.mem_map_of_mem hrow)

theorem Change.grows (h : Change deps d d') : Grows d d' := by
  cases h with
  | quiet h =>
    intro row hrow
    exact ⟨row, h.rows.symm ▸ hrow, rfl⟩
  | mint row issuedAt h => exact grows_rows (stamp_strike _ _) h.rows
  | verify row usedAt h =>
    exact grows_rows (stamp_burn _ _) (h.rows.trans (List.append_nil _).symm)
  | reset row outer inner usedAt h =>
    have hrows := h.rows
    rw [List.map_map, ← List.append_nil (d.rows.map _)] at hrows
    refine grows_rows (fun row => ?_) hrows
    exact (stamp_strike _ _ _).trans (stamp_burn _ _ _)
  | flip userId h =>
    exact grows_rows (stamp_strike _ _) (h.rows.trans (List.append_nil _).symm)

theorem Whole.change (h : Whole deps d d') : Change deps d d' := by
  cases h with
  | quiet h => exact .quiet h
  | mint row issuedAt h => exact .mint row issuedAt h

/-! ### The writes -/

theorem run_writeAccounts {write : AccountWrite α} {x : α}
    (h : (writeAccounts write).run d = .ok (x, d')) :
    ∃ a', write.run d.accounts = .ok (x, a') ∧ d' = { d with accounts := a' } := by
  change (write.run d.accounts).map _ = .ok (x, d') at h
  cases hw : write.run d.accounts with
  | error e =>
    rw [hw] at h
    cases h
  | ok answer =>
    rw [hw] at h
    cases h
    exact ⟨answer.2, rfl, rfl⟩

variable {id issuedAt passwordHash u usedAt : ℕ} {x : Unit}

theorem run_markUsed {burned : Bool} (h : (markUsed id usedAt).run d = .ok (burned, d')) :
    (burned = false ∧ d' = d) ∨ burned = true ∧ ∃ row ∈ d.tokens, row.id = id ∧
      row.used_at = none ∧ d' = { d with
        rows := d.rows.map (burn id usedAt), redemptions := row.id :: d.redemptions } := by
  obtain ⟨_, _, h₁, h⟩ := run_bind_ok.mp h
  cases h₁
  split at h
  · cases h
    exact .inl ⟨rfl, rfl⟩
  · rename_i row hfind
    cases h
    have hrow := List.find?_some hfind
    simp only [Bool.and_eq_true, beq_iff_eq, Option.isNone_iff_eq_none] at hrow
    exact .inr ⟨rfl, row, List.mem_of_find?_eq_some hfind, hrow.1, hrow.2, rfl⟩

/-- The claims once one is made. -/
def claimed (d : LinkTables) (u : ℕ) (purpose : Purpose) (issuedAt : ℕ) :
    ℕ → Purpose → Option ℕ :=
  Function.update d.issueClaims u (Function.update (d.issueClaims u) purpose (some issuedAt))

theorem run_claimIssue {purpose : Purpose} {won : Bool}
    (h : (claimIssue u purpose issuedAt).run d = .ok (won, d')) :
    (won = false ∧ d' = d) ∨ won = true ∧
      (∀ last, d.issueClaims u purpose = some last → last + throttle purpose ≤ issuedAt) ∧
      d' = { d with issueClaims := claimed d u purpose issuedAt } := by
  obtain ⟨_, _, h₁, h⟩ := run_bind_ok.mp h
  cases h₁
  split at h
  · rename_i hwindow
    cases h
    refine .inr ⟨rfl, fun last hlast => ?_, rfl⟩
    rw [hlast] at hwindow
    simpa using hwindow
  · cases h
    exact .inl ⟨rfl, rfl⟩

theorem run_queueEmail {prepared fails : Bool} {purpose : Purpose}
    (h : (queueEmail prepared id purpose fails).run d = .ok (x, d')) :
    d' = { d with outbox := d'.outbox } ∧
      (prepared = true → d'.outbox = d.outbox ++ [⟨id, purpose⟩]) := by
  unfold queueEmail at h
  split at h
  · rename_i hno
    cases h
    refine ⟨rfl, fun hyes => ?_⟩
    simp [hyes] at hno
  split at h
  · cases h
  · cases h
    exact ⟨rfl, fun _ => rfl⟩

theorem quiet_tick : Quiet d { d with accounts := d.accounts.tick } :=
  ⟨Spares.refl _ _, rfl, rfl, rfl, rfl, rfl⟩

/-- A mint that gets past its last statement has made all of them. -/
theorem whole_mintWrite {token : ℕ} {purpose : Purpose} {draft : Draft}
    (h : (numbered (mintWrite deps u purpose token issuedAt draft)).run d = .ok (x, d')) :
    Whole deps d d' := by
  obtain ⟨_, d₀, h₀, h⟩ := run_bind_ok.mp h
  cases h₀
  obtain ⟨won, d₁, h₁, h⟩ := run_bind_ok.mp h
  rcases run_claimIssue h₁ with ⟨rfl, rfl⟩ | ⟨rfl, hwindow, rfl⟩
  · cases h
    exact .quiet quiet_tick
  obtain ⟨_, d₂, h₂, h⟩ := run_bind_ok.mp h
  cases h₂
  obtain ⟨_, _, h₃, h⟩ := run_bind_ok.mp h
  cases h₃
  obtain ⟨_, d₄, h₄, h⟩ := run_bind_ok.mp h
  obtain ⟨_, _, h₅, h₄⟩ := run_bind_ok.mp h₄
  cases h₅
  split at h₄
  · cases h₄
  rename_i hfresh
  cases h₄
  obtain ⟨_, d₆, h₆, h⟩ := run_bind_ok.mp h
  cases h₆
  let row : VerificationTokenRecord := ⟨draft.id, u, token, purpose,
    draft.now + lifetime purpose, none, draft.created_at, d.accounts.tick.clock, false⟩
  have hnew : ∀ other ∈ d.rows, other.id ≠ row.id ∧ other.token_hash ≠ row.token_hash := by
    intro other hother
    have hnot := hfresh
    simp only [List.any_map, List.any_eq_true, Bool.or_eq_true, beq_iff_eq, not_exists, not_and,
      not_or, Function.comp] at hnot
    have hother := hnot other hother
    have hstamp := stamp_strike u purpose other
    simp only [VerificationTokenRecord.stamp, Prod.mk.injEq] at hstamp
    rw [← hstamp.1, ← hstamp.2.2.1]
    exact hother
  obtain ⟨hrest, hmail⟩ := run_queueEmail h
  rw [hrest]
  exact .mint row issuedAt ⟨rfl, rfl, rfl, rfl, hnew, rfl, hwindow, rfl, rfl, hmail, rfl⟩

theorem run_proveByLink {user : UserRecord} (h : (proveByLink deps u user).run d = .ok (x, d')) :
    ∃ a', Spares none d.accounts a' ∧ d' = { d with accounts := a' } := by
  obtain ⟨_, _, h₁, h⟩ := run_bind_ok.mp h
  cases h₁
  split at h
  · obtain ⟨a', hw, rfl⟩ := run_writeAccounts h
    exact ⟨a', spares_upsertProof u _ _ _ _ hw, rfl⟩
  · cases h
    exact ⟨d.accounts, Spares.refl _ _, rfl⟩

theorem change_verifyWrite {read : VerificationTokenRecord}
    (h : (numbered (verifyWrite deps read usedAt)).run d = .ok (x, d')) : Change deps d d' := by
  obtain ⟨_, d₀, h₀, h⟩ := run_bind_ok.mp h
  cases h₀
  obtain ⟨burned, d₁, h₁, h⟩ := run_bind_ok.mp h
  rcases run_markUsed h₁ with ⟨rfl, rfl⟩ | ⟨rfl, row, hrow, hid, hunused, rfl⟩
  · cases h
  obtain ⟨updated, _, h₂, h⟩ := run_bind_ok.mp h
  obtain ⟨a₂, hw, rfl⟩ := run_writeAccounts h₂
  have hspares : Spares none d.accounts.tick a₂ :=
    spares_updateIfMatches _ rfl (.inl rfl) _ _ _ hw
  cases updated with
  | none => cases h
  | some user =>
    obtain ⟨a₃, hspares₃, rfl⟩ := run_proveByLink h
    refine .verify row usedAt ⟨hspares.trans hspares₃, ⟨hrow, hunused, rfl, ⟨rfl, rfl, rfl⟩⟩, ?_⟩
    rw [hid]

/-- The account's tables once its password is reset. -/
theorem run_resetAccounts {a a₁ a₂ a₃ a₄ : Tables} {user : UserRecord} {y z : Unit}
    {proof : EmailProofRecord} (h₁ : (updateIfMatches u ⟨none, some .active, none⟩
      { password_hash := some passwordHash, email_verified := some true }).run a =
        .ok (some user, a₁))
    (h₂ : (upsertProof u proof).run a₁ = .ok (x, a₂))
    (h₃ : (markReset u).run a₂ = .ok (y, a₃)) (h₄ : (deleteSessions u).run a₃ = .ok (z, a₄)) :
    a₄.clock = a.clock ∧ (∀ w, w ≠ u →
      (a₄.users w).map (·.password_hash) = (a.users w).map (·.password_hash)) ∧
      a₄.resetAt = Function.update a.resetAt u a.clock ∧ a₄.disabledAt = a.disabledAt ∧
      ∀ w user', a₄.users w = some user' → user'.status = .disabled →
        ∃ user, a.users w = some user ∧ user.status = .disabled := by
  cases h₄
  cases h₃
  cases h₂
  rcases updateIfMatches_cases h₁ with ⟨h, -⟩ | ⟨current, hcurrent, -, -, rfl⟩
  · cases h
  refine ⟨rfl, fun w hw => ?_, rfl, rfl, fun w user' huser' hdark => ?_⟩
  · simp [putUser, hw]
  · by_cases hw : w = u
    · subst hw
      simp only [putUser, Function.update_self, Option.some.injEq] at huser'
      subst huser'
      exact ⟨current, hcurrent, hdark⟩
    · simp only [putUser, Function.update_of_ne hw] at huser'
      exact ⟨user', huser', hdark⟩

/-- The commit of a reset: password, burned link, struck links. -/
theorem change_resetWrite {outer inner : VerificationTokenRecord}
    (hpurpose : inner.purpose = .password_reset) (htoken : inner.token_hash = outer.token_hash)
    (houter : ∃ known ∈ d.rows, known.stamp = outer.stamp)
    (hinner : ∃ known ∈ d.rows, known.stamp = inner.stamp)
    (h : (numbered (resetWrite outer.user_id inner.id usedAt passwordHash)).run d =
      .ok (x, d')) : Change deps d d' := by
  obtain ⟨_, d₀, h₀, h⟩ := run_bind_ok.mp h
  cases h₀
  obtain ⟨burned, d₁, h₁, h⟩ := run_bind_ok.mp h
  rcases run_markUsed h₁ with ⟨rfl, rfl⟩ | ⟨rfl, row, hrow, hid, hunused, rfl⟩
  · cases h
  obtain ⟨updated, _, h₂, h⟩ := run_bind_ok.mp h
  obtain ⟨a₂, hupdate, rfl⟩ := run_writeAccounts h₂
  cases updated with
  | none => cases h
  | some user =>
    obtain ⟨_, _, h₃, h⟩ := run_bind_ok.mp h
    obtain ⟨a₃, hproof, rfl⟩ := run_writeAccounts h₃
    obtain ⟨_, _, h₄, h⟩ := run_bind_ok.mp h
    cases h₄
    obtain ⟨_, _, h₅, h⟩ := run_bind_ok.mp h
    obtain ⟨a₅, hmark, rfl⟩ := run_writeAccounts h₅
    obtain ⟨a₆, hsessions, rfl⟩ := run_writeAccounts h
    obtain ⟨hclock, hpasswords, hresetAt, hdisabledAt, hdark⟩ :=
      run_resetAccounts hupdate hproof hmark hsessions
    exact .reset row outer inner usedAt
      { clock := hclock
        burned := ⟨hrow, hunused, rfl, ⟨rfl, rfl, rfl⟩⟩
        knownOuter := houter
        knownInner := hinner
        token := htoken
        purpose := hpurpose
        id := hid
        rows := by
          rw [hid]
        passwords := hpasswords
        resetAt := by
          rw [hclock]
          exact hresetAt
        disabledAt := hdisabledAt
        dark := hdark }

/-- A flip of an account deletes its reset links in the same commit. -/
theorem change_flipping {flips : α → Bool} {write : AccountWrite α} {x : α}
    (hflips : Flips u flips write)
    (h : (numbered (flipping u flips write)).run d = .ok (x, d')) : Change deps d d' := by
  obtain ⟨_, d₀, h₀, h⟩ := run_bind_ok.mp h
  cases h₀
  obtain ⟨found, _, h₁, h⟩ := run_bind_ok.mp h
  obtain ⟨a₁, hwrite, rfl⟩ := run_writeAccounts h₁
  obtain ⟨hspares, hrecorded⟩ := hflips _ _ _ hwrite
  by_cases hflip : flips found = true
  · obtain ⟨hx, rfl⟩ : x = found ∧ d' = { d with
        accounts := a₁, rows := d.rows.map (strike u .password_reset) } := by
      simp only [hflip, if_true] at h
      cases h
      exact ⟨rfl, rfl⟩
    rw [if_pos hflip] at hspares
    exact .flip u ⟨hspares, hrecorded, rfl, rfl, ⟨rfl, rfl, rfl⟩⟩
  · obtain ⟨hx, rfl⟩ : x = found ∧ d' = { d with accounts := a₁ } := by
      simp only [hflip] at h
      cases h
      exact ⟨rfl, rfl⟩
    rw [if_neg hflip] at hspares
    exact .quiet ⟨hspares, rfl, rfl, ⟨rfl, rfl, rfl⟩⟩

theorem whole_pure (h : (numbered (pure ())).run d = .ok (x, d')) : Whole deps d d' := by
  cases h
  exact .quiet quiet_tick

end Writes

end FerrumNexus.Links
