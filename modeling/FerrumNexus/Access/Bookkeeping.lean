import FerrumNexus.Saga.Steady
import FerrumNexus.Access.Untouched

/-!
# Every program keeps the books

Whatever runs beside it, each action of a program enters its part in orderly
books or leaves them alone. All a program has to remember of what it read is
which request, which API and which grant that was, and no entry changes these.
-/
namespace FerrumNexus.Access

open Saga Platform Portal Credentials

/-- Every API stands under its own id. -/
def ApisById (s : World) : Prop :=
  ∀ id api, s.apis id = some api → api.id = id

/-- One action, and any number of them. -/
structure Move (s s' : World) : Prop where
  enters : Enters s s'
  apis : ApisById s → ApisById s'

structure InOrder (s : World) : Prop where
  orderly : (books s).Orderly
  apis : ApisById s

section Moves

variable {s s₁ s' : World}

theorem Move.refl (s : World) : Move s s := ⟨Enters.refl s, fun h => h⟩

theorem Move.trans (h : Move s s₁) (h' : Move s₁ s') : Move s s' :=
  ⟨h.enters.trans h'.enters, fun ha => h'.apis (h.apis ha)⟩

theorem Move.inOrder (h : Move s s') (hs : InOrder s) : InOrder s' :=
  ⟨h.enters.orderly hs.orderly, h.apis hs.apis⟩

theorem Move.kept (h : Move s s') (hs : InOrder s) : (books s).Kept (books s') :=
  h.enters.kept hs.orderly

/-- A write of other tables. -/
theorem move_of_books (hbooks : books s' = books s) (hapis : s'.apis = s.apis) : Move s s' where
  enters := enters_of_books hbooks
  apis h := by
    rw [ApisById, hapis]
    exact h

theorem LeavesApis.move {α : Type} {body : Tx α} {a : α} (h : LeavesApis body)
    (he : Enters s s') (hbody : body s = .ok (a, s')) : Move s s' where
  enters := he
  apis ha := by
    rw [ApisById, h s a s' hbody]
    exact ha

end Moves

/-- A fact about what was read that no entry changes. -/
def Lasting (L : World → Prop) : Prop :=
  ∀ s s', InOrder s → L s → Move s s' → L s'

/-- What a program knows: that the books are in order, and lasting facts. -/
structure Remembers (K : World → Prop) : Prop where
  stable : Stable Move K
  inOrder : ∀ s, K s → InOrder s

section Facts

variable {K L : World → Prop}

theorem remembers_inOrder : Remembers InOrder :=
  ⟨fun _ _ hs h => h.inOrder hs, fun _ hs => hs⟩

theorem Remembers.and (hK : Remembers K) (hL : Lasting L) :
    Remembers fun s => K s ∧ L s where
  stable s s' h hmove := ⟨hK.stable s s' h.1 hmove, hL s s' (hK.inOrder s h.1) h.2 hmove⟩
  inOrder s h := hK.inOrder s h.1

theorem lasting_const (P : Prop) : Lasting fun _ => P :=
  fun _ _ _ h _ => h

theorem lasting_known (request : AccessRequestRecord) : Lasting fun s => Known s request := by
  intro s s' hs h hmove
  obtain ⟨row, hr, hsame⟩ := h
  obtain ⟨row', hr', hsame', -⟩ := (hmove.kept hs).requests request.id row hr
  exact ⟨row', hr', hsame.trans hsame'⟩

/-- The grant an operation loaded is still there. -/
def KnownGrant (s : World) (id : ℕ) (grant : GrantRecord) : Prop :=
  ∃ row, s.grants id = some row ∧ SameGrant grant row

theorem lasting_knownGrant (id : ℕ) (grant : GrantRecord) :
    Lasting fun s => KnownGrant s id grant := by
  intro s s' hs h hmove
  obtain ⟨row, hg, hsame⟩ := h
  obtain ⟨row', hg', hsame'⟩ := (hmove.kept hs).grants id row hg
  exact ⟨row', hg', hsame.trans hsame'⟩

end Facts

/-! ## Calls -/

/-- Every action of `p` is a move, and its answer satisfies `Q`. -/
abbrev Bookkeeps (K : World → Prop) {α : Type} (p : AccessService α)
    (Q : α → World → Prop) : Prop :=
  Steady Move Move K p Q

abbrev KeepsBooks (K : World → Prop) {α : Type} (p : AccessService α) : Prop :=
  Bookkeeps K p fun _ _ => True

section Calls

variable {K : World → Prop} {α β : Type} {Q : α → World → Prop}

theorem keepsBooks_pure (a : α) : KeepsBooks K (pure a) := steady_pure fun _ _ => trivial

variable {f : World → Outcome → Option (Except NexusError α × World)}

theorem bookkeeps_atomic (hK : Remembers K)
    (h : ∀ s o r s', K s → f s o = some (r, s') → Move s s' ∧ ∀ a, r = .ok a → Q a s') :
    Bookkeeps K (atomic f) Q :=
  steady_atomic hK.stable fun s o r s' hs hf =>
    ⟨(h s o r s' hs hf).1, hK.stable s s' hs (h s o r s' hs hf).1, (h s o r s' hs hf).2⟩

theorem bookkeeps_storeRead (hK : Remembers K) {f : World → α} (h : ∀ s, K s → Q (f s) s) :
    Bookkeeps K (storeRead f) Q := by
  intro s hs
  refine wpe_storeRead fun s₁ hr => ?_
  have hs₁ := hK.stable s s₁ hs hr
  exact ⟨Move.refl s₁, ⟨hs₁, h s₁ hs₁⟩, hs₁⟩

theorem bookkeeps_edgeRead (hK : Remembers K) (f : World → α) :
    KeepsBooks K (edgeRead f) := by
  intro s hs
  refine wpe_edgeRead fun s₁ hr => ?_
  have hs₁ := hK.stable s s₁ hs hr
  exact ⟨Move.refl s₁, ⟨hs₁, trivial⟩, fun _ => hs₁⟩

/-- The gateway has no part in the books. -/
theorem bookkeeps_edgeWrite (hK : Remembers K) {f : World → Except NexusError (α × World)}
    (h : ∀ s a s', f s = .ok (a, s') → books s' = books s ∧ s'.apis = s.apis) :
    KeepsBooks K (edgeWrite f) := by
  intro s hs
  refine wpe_edgeWrite (fun s₁ hr a s' hf => ?_) (fun s₁ hr _ _ => hK.stable s s₁ hs hr)
    fun s₁ hr => ⟨Move.refl s₁, fun _ => hK.stable s s₁ hs hr⟩
  have hmove : Move s₁ s' := move_of_books (h s₁ a s' hf).1 (h s₁ a s' hf).2
  have hs' := hK.stable s₁ s' (hK.stable s s₁ hs hr) hmove
  exact ⟨hmove, ⟨hs', trivial⟩, fun _ _ => hs'⟩

theorem bookkeeps_transaction (hK : Remembers K) {f : World → Except NexusError (α × World)}
    (h : ∀ s a s', K s → f s = .ok (a, s') → Move s s' ∧ Q a s') :
    Bookkeeps K (transaction f) Q := by
  intro s hs
  refine wpe_transaction (fun s₁ hr a s' hf => ?_) (fun s₁ hr _ _ => hK.stable s s₁ hs hr)
    fun s₁ hr => ⟨Move.refl s₁, hK.stable s s₁ hs hr⟩
  have hs₁ := hK.stable s s₁ hs hr
  obtain ⟨hmove, hq⟩ := h s₁ a s' hs₁ hf
  exact ⟨hmove, hK.stable s₁ s' hs₁ hmove, hq⟩

theorem bookkeeps_commit (hK : Remembers K) {body : Tx α}
    (h : ∀ s a s', K s → body s = .ok (a, s') → Move s s' ∧ Q a s') : Bookkeeps K (commit body) Q :=
  bookkeeps_transaction hK h

/-- A transaction that leaves the APIs alone keeps the books if what it writes is
an entry. -/
theorem keepsBooks_commit (hK : Remembers K) {body : Tx α} (hapis : LeavesApis body)
    (h : ∀ s a s', K s → body s = .ok (a, s') → Enters s s') : KeepsBooks K (commit body) :=
  bookkeeps_commit hK fun s a s' hs hok => ⟨hapis.move (h s a s' hs hok) hok, trivial⟩

theorem bookkeeps_quiet (hK : Remembers K)
    (h : ∀ s o r s', f s o = some (r, s') → books s' = books s ∧ s'.apis = s.apis) :
    KeepsBooks K (Saga.atomic f) :=
  bookkeeps_atomic hK fun s o r s' _ hf =>
    ⟨move_of_books (h s o r s' hf).1 (h s o r s' hf).2, fun _ _ => trivial⟩

theorem bookkeeps_nowIso (hK : Remembers K) : KeepsBooks K nowIso := by
  refine bookkeeps_quiet hK fun s o r s' hf => ?_
  cases hf
  exact ⟨rfl, rfl⟩

theorem bookkeeps_serializePerKey (hK : Remembers K) {slot : ℕ} {key : Key}
    {p : AccessService α} (h : KeepsBooks K p) :
    KeepsBooks K (serializePerKey slot key p) := by
  have hrelease : KeepsBooks K (release key) := by
    refine bookkeeps_quiet hK fun s o r s' hf => ?_
    cases hf
    exact ⟨by simp [books], rfl⟩
  have hacquire : KeepsBooks K (acquire slot key) := by
    refine bookkeeps_quiet hK fun s o r s' hf => ?_
    split at hf
    · cases hf
    · cases hf
      exact ⟨by simp [books], rfl⟩
    · cases hf
      exact ⟨rfl, rfl⟩
  refine hacquire.andThen fun _ => ?_
  refine Steady.andThen (h.tryCatch fun e => hrelease.andThen fun _ => steady_throw e) fun a => ?_
  exact hrelease.andThen fun _ => keepsBooks_pure _

theorem bookkeeps_ensure {condition : Bool} {error : NexusError} :
    Bookkeeps K (ensure condition error) fun _ _ => condition = true := by
  cases condition with
  | true => exact steady_pure fun _ _ => rfl
  | false => exact steady_throw error

theorem bookkeeps_check {x : Except NexusError α} :
    Bookkeeps K (check x) fun a _ => x = .ok a := by
  cases x with
  | ok a => exact steady_pure fun _ _ => rfl
  | error e => exact steady_throw e

/-- What follows a check may rest on it. -/
theorem bookkeeps_ensureThen {condition : Bool} {error : NexusError} {g : Unit → AccessService α}
    (h : condition = true → Bookkeeps K (g ()) Q) :
    Bookkeeps K (ensure condition error >>= g) Q := by
  cases condition with
  | true => exact steady_pure_bind (h rfl)
  | false => exact steady_throw_bind error

theorem bookkeeps_checkThen {x : Except NexusError β} {g : β → AccessService α}
    (h : ∀ b, x = .ok b → Bookkeeps K (g b) Q) : Bookkeeps K (check x >>= g) Q := by
  cases x with
  | ok b => exact steady_pure_bind (h b rfl)
  | error e => exact steady_throw_bind e

theorem bookkeeps_bestEffort {p : AccessService α} (h : KeepsBooks K p) :
    KeepsBooks K (bestEffort p) :=
  Steady.map h.swallow

theorem bookkeeps_attempt {p : AccessService α} (h : KeepsBooks K p) :
    KeepsBooks K (attempt p) :=
  (Steady.map h).tryCatch fun _ => keepsBooks_pure _

end Calls

end FerrumNexus.Access
