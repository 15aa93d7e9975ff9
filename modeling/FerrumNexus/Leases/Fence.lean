import FerrumNexus.Leases.Serializer

/-!
# A lease that changed hands commits nothing

The row of a key names the last section that acquired it, since only an
acquisition writes an owner. A transaction that found its token in the row
keeps every other writer off that row until it ends, so at its commit the
token is still the last one acquired. The first part is an invariant of the
shared state; the second is what a slot may rely on while others run.
-/
namespace FerrumNexus.Leases

open Saga Platform

section History

variable {κ : Type}

/-- `fence` is the last acquisition of its key in a history, newest first. -/
def Latest (acquisitions : List (LeaseFence κ)) (fence : LeaseFence κ) : Prop :=
  ∃ newer older, acquisitions = newer ++ fence :: older ∧ ∀ e ∈ newer, e.key ≠ fence.key

/-- After `fence` its key was acquired again. -/
def TakenOver (acquisitions : List (LeaseFence κ)) (fence : LeaseFence κ) : Prop :=
  ∃ newer older, acquisitions = newer ++ fence :: older ∧ ∃ e ∈ newer, e.key = fence.key

theorem Latest.cons {acquisitions : List (LeaseFence κ)} {fence e : LeaseFence κ}
    (h : Latest acquisitions fence) (hne : e.key ≠ fence.key) :
    Latest (e :: acquisitions) fence := by
  obtain ⟨newer, older, rfl, hnewer⟩ := h
  refine ⟨e :: newer, older, rfl, ?_⟩
  intro e' he'
  rcases List.mem_cons.mp he' with rfl | he'
  · exact hne
  · exact hnewer e' he'

theorem latest_cons_self (acquisitions : List (LeaseFence κ)) (fence : LeaseFence κ) :
    Latest (fence :: acquisitions) fence :=
  ⟨[], acquisitions, rfl, by simp⟩

/-- Where every acquisition has a token of its own, the last one of a key was
not taken over. -/
theorem Latest.not_takenOver {acquisitions : List (LeaseFence κ)} {fence : LeaseFence κ}
    (hnodup : (acquisitions.map (·.token)).Nodup) (h : Latest acquisitions fence) :
    ¬ TakenOver acquisitions fence := by
  obtain ⟨newer, older, rfl, hnewer⟩ := h
  rintro ⟨newer', older', heq, e, he, hkey⟩
  rw [List.map_append, List.map_cons, List.nodup_append, List.nodup_cons] at hnodup
  have hbefore : fence ∉ newer := fun hmem =>
    hnodup.2.2 _ (List.mem_map_of_mem hmem) _ List.mem_cons_self rfl
  have hafter : fence ∉ older := fun hmem => hnodup.2.1.1 (List.mem_map_of_mem hmem)
  have hsplit : newer = newer' := ((List.append_cons_inj_of_notMem hbefore hafter).mp heq).1
  subst hsplit
  exact hnewer e he hkey

end History

section Invariant

variable {κ : Type}

/-- The table and the history agree, and every commit so far was made by the
last holder of each of its keys. -/
structure Inv (s : LeaseState κ) : Prop where
  row : ∀ key row, s.rows key = some row → Latest s.acquisitions ⟨key, row.owner⟩
  drawn : ∀ e ∈ s.acquisitions, e.token < s.tokens
  nodup : (s.acquisitions.map (·.token)).Nodup
  commits : ∀ c ∈ s.commits, c.acquisitions <:+ s.acquisitions ∧
    ∀ fence ∈ c.sections, Latest c.acquisitions fence

/-- What a slot finds unchanged whatever the others do: the rows it locked,
the whole table while it holds the write lock, and its own tokens. -/
structure Kept (slot : ℕ) (s s' : LeaseState κ) : Prop where
  locked : ∀ key, s.locked key = some slot →
    s'.locked key = some slot ∧ s'.rows key = s.rows key
  writer : s.writer = some slot → s'.writer = some slot ∧ s'.rows = s.rows
  tokens : s.tokens ≤ s'.tokens
  drawnBy : ∀ token < s.tokens, s'.drawnBy token = s.drawnBy token
  acquisitions : ∀ e ∈ s'.acquisitions,
    e ∈ s.acquisitions ∨ s.tokens ≤ e.token ∨ s.drawnBy e.token ≠ slot

def Rely (slot : ℕ) (s s' : LeaseState κ) : Prop := (Inv s → Inv s') ∧ Kept slot s s'

def Guar (slot : ℕ) (s s' : LeaseState κ) : Prop :=
  (Inv s → Inv s') ∧ ∀ other, other ≠ slot → Kept other s s'

variable {slot : ℕ} {s s' s'' : LeaseState κ}

theorem Kept.refl (slot : ℕ) (s : LeaseState κ) : Kept slot s s :=
  ⟨fun _ h => ⟨h, rfl⟩, fun h => ⟨h, rfl⟩, le_rfl, fun _ _ => rfl, fun _ he => .inl he⟩

theorem Kept.trans (h : Kept slot s s') (h' : Kept slot s' s'') : Kept slot s s'' where
  locked key hkey := by
    obtain ⟨hl, hr⟩ := h.locked key hkey
    obtain ⟨hl', hr'⟩ := h'.locked key hl
    exact ⟨hl', hr'.trans hr⟩
  writer hw := by
    obtain ⟨hw', hr⟩ := h.writer hw
    obtain ⟨hw'', hr'⟩ := h'.writer hw'
    exact ⟨hw'', hr'.trans hr⟩
  tokens := h.tokens.trans h'.tokens
  drawnBy token htoken :=
    (h'.drawnBy token (htoken.trans_le h.tokens)).trans (h.drawnBy token htoken)
  acquisitions e he := by
    rcases h'.acquisitions e he with he | hnew | hother
    · exact h.acquisitions e he
    · exact .inr (.inl (h.tokens.trans hnew))
    · rcases Nat.lt_or_ge e.token s.tokens with hlt | hge
      · exact .inr (.inr (h.drawnBy e.token hlt ▸ hother))
      · exact .inr (.inl hge)

theorem Rely.refl (slot : ℕ) (s : LeaseState κ) : Rely slot s s := ⟨id, Kept.refl slot s⟩

theorem Rely.trans (h : Rely slot s s') (h' : Rely slot s' s'') : Rely slot s s'' :=
  ⟨h'.1 ∘ h.1, h.2.trans h'.2⟩

/-- A step that leaves the table, the locks and the history as they are. -/
theorem guar_of_same (hrows : s'.rows = s.rows) (htokens : s'.tokens = s.tokens)
    (hdrawn : s'.drawnBy = s.drawnBy) (hwriter : s'.writer = s.writer)
    (hlocked : s'.locked = s.locked) (hacq : s'.acquisitions = s.acquisitions)
    (hcommits : s'.commits = s.commits) : Guar slot s s' := by
  refine ⟨fun hinv => ⟨?_, ?_, ?_, ?_⟩, fun other _ => ⟨?_, ?_, ?_, ?_, ?_⟩⟩
  · rw [hrows, hacq]
    exact hinv.row
  · rw [hacq, htokens]
    exact hinv.drawn
  · rw [hacq]
    exact hinv.nodup
  · rw [hcommits, hacq]
    exact hinv.commits
  · rw [hlocked, hrows]
    exact fun _ h => ⟨h, rfl⟩
  · rw [hwriter, hrows]
    exact fun h => ⟨h, rfl⟩
  · exact htokens.ge
  · rw [hdrawn]
    exact fun _ _ => rfl
  · rw [hacq]
    exact fun _ he => .inl he

theorem Guar.refl (slot : ℕ) (s : LeaseState κ) : Guar slot s s :=
  guar_of_same rfl rfl rfl rfl rfl rfl rfl

/-- A new token belongs to the slot that drew it and to no acquisition yet. -/
structure Unused (slot token : ℕ) (s : LeaseState κ) : Prop where
  drawn : token < s.tokens
  own : s.drawnBy token = slot
  unused : ∀ e ∈ s.acquisitions, e.token ≠ token

/-- The row of a fence names its token, and only `slot` can change it. -/
def Holds (slot : ℕ) (fence : LeaseFence κ) (s : LeaseState κ) : Prop :=
  (s.locked fence.key = some slot ∨ s.writer = some slot) ∧
    ∃ row, s.rows fence.key = some row ∧ row.owner = fence.token

/-- On SQLite an open transaction has the write lock. -/
def Begun (adapter : Adapter) (slot : ℕ) (s : LeaseState κ) : Prop :=
  adapter = .sqlite → s.writer = some slot

/-- What others leave true. -/
def Stable (slot : ℕ) (P : LeaseState κ → Prop) : Prop :=
  ∀ s s', P s → Kept slot s s' → P s'

theorem stable_true (slot : ℕ) : Stable slot fun _ : LeaseState κ => True :=
  fun _ _ _ _ => trivial

theorem Stable.and {P Q : LeaseState κ → Prop} (hP : Stable slot P) (hQ : Stable slot Q) :
    Stable slot fun s => P s ∧ Q s :=
  fun s s' h hk => ⟨hP s s' h.1 hk, hQ s s' h.2 hk⟩

theorem stable_unused (slot token : ℕ) :
    Stable slot (Unused slot token : LeaseState κ → Prop) := by
  intro s s' h hk
  refine ⟨h.drawn.trans_le hk.tokens, (hk.drawnBy token h.drawn).trans h.own, ?_⟩
  rintro e he rfl
  rcases hk.acquisitions e he with hold | hnew | hother
  · exact h.unused e hold rfl
  · exact absurd h.drawn (Nat.not_lt.mpr hnew)
  · exact hother h.own

theorem stable_holds (slot : ℕ) (fence : LeaseFence κ) : Stable slot (Holds slot fence) := by
  rintro s s' ⟨hheld, row, hrow, howner⟩ hk
  rcases hheld with hlocked | hwriter
  · obtain ⟨hlocked', hrows⟩ := hk.locked fence.key hlocked
    exact ⟨.inl hlocked', row, hrows.trans hrow, howner⟩
  · obtain ⟨hwriter', hrows⟩ := hk.writer hwriter
    exact ⟨.inr hwriter', row, hrows ▸ hrow, howner⟩

theorem stable_holdsAll (slot : ℕ) (fences : List (LeaseFence κ)) :
    Stable slot fun s => ∀ fence ∈ fences, Holds slot fence s :=
  fun s s' h hk fence hfence => stable_holds slot fence s s' (h fence hfence) hk

theorem stable_begun (adapter : Adapter) (slot : ℕ) :
    Stable slot (Begun adapter slot : LeaseState κ → Prop) :=
  fun _ _ h hk hsqlite => (hk.writer (h hsqlite)).1

end Invariant

section Steps

variable {κ : Type} [DecidableEq κ] {slot other : ℕ} {s : LeaseState κ} {key : κ}

omit [DecidableEq κ] in
theorem not_locked_of_free (hfree : s.blocked slot key = false) (hother : other ≠ slot) :
    s.locked key ≠ some other ∧ s.writer ≠ some other := by
  have hne : some other ≠ some slot := fun h => hother (Option.some.inj h)
  simp only [LeaseState.blocked, Bool.or_eq_false_iff, Bool.and_eq_false_iff, bne_eq_false_iff_eq]
    at hfree
  constructor
  · intro h
    rw [h] at hfree
    rcases hfree.2 with h' | h'
    · cases h'
    · exact hne h'
  · intro h
    rw [h] at hfree
    rcases hfree.1 with h' | h'
    · cases h'
    · exact hne h'

omit [DecidableEq κ] in
/-- A write to one row nobody else has locked disturbs no one's locks. -/
theorem kept_of_free {s' : LeaseState κ} (hfree : s.blocked slot key = false)
    (hother : other ≠ slot) (hrows : ∀ key', key' ≠ key → s'.rows key' = s.rows key')
    (hlocked : ∀ key', key' ≠ key → s'.locked key' = s.locked key')
    (htokens : s'.tokens = s.tokens) (hdrawn : s'.drawnBy = s.drawnBy)
    (hacq : ∀ e ∈ s'.acquisitions, e ∈ s.acquisitions ∨ s.drawnBy e.token ≠ other) :
    Kept other s s' := by
  obtain ⟨hnotLocked, hnotWriter⟩ := not_locked_of_free hfree hother
  refine ⟨fun key' hkey' => ?_, fun hw => absurd hw hnotWriter, htokens.ge,
    fun _ _ => by rw [hdrawn], fun e he => (hacq e he).imp_right .inr⟩
  have hne : key' ≠ key := by
    rintro rfl
    exact hnotLocked hkey'
  exact ⟨(hlocked key' hne).trans hkey', hrows key' hne⟩

/-- A row that nobody else has locked is rewritten under its owner, or
deleted. -/
theorem guar_putRow {row' : Option LeaseRow}
    (hfree : s.blocked slot key = false)
    (hrow' : ∀ r', row' = some r' → ∃ r, s.rows key = some r ∧ r.owner = r'.owner) :
    Guar slot s (putRow key row' s) := by
  refine ⟨fun hinv => ⟨?_, hinv.drawn, hinv.nodup, hinv.commits⟩, fun other hother => ?_⟩
  · intro key' r' hr'
    by_cases hkey : key' = key
    · subst hkey
      obtain ⟨r, hr, howner⟩ := hrow' r' (by simpa [putRow] using hr')
      exact howner ▸ hinv.row key' r hr
    · exact hinv.row key' r' (by simpa [putRow, hkey] using hr')
  · refine kept_of_free hfree hother (fun key' hne => ?_) (fun _ _ => rfl) rfl rfl
      (fun _ he => .inl he)
    simp [putRow, hne]

/-- The row changes hands to a section that was never there before. -/
theorem guar_takeRow {token expiresAt : ℕ} (hfree : s.blocked slot key = false)
    (hunused : Unused slot token s) : Guar slot s (takeRow key token expiresAt s) := by
  refine ⟨fun hinv => ⟨?_, ?_, ?_, ?_⟩, fun other hother => ?_⟩
  · intro key' row hrow
    by_cases hkey : key' = key
    · subst hkey
      have hrow' : row = ⟨token, expiresAt⟩ := by
        simpa [takeRow, putRow, eq_comm] using hrow
      subst hrow'
      exact latest_cons_self _ _
    · have hold := hinv.row key' row (by simpa [takeRow, putRow, hkey] using hrow)
      exact hold.cons (Ne.symm hkey)
  · intro e he
    rcases List.mem_cons.mp he with rfl | he
    · exact hunused.drawn
    · exact hinv.drawn e he
  · refine List.nodup_cons.mpr ⟨?_, hinv.nodup⟩
    intro hmem
    obtain ⟨e, he, htoken⟩ := List.mem_map.mp hmem
    exact hunused.unused e he htoken
  · intro c hc
    obtain ⟨hsuffix, hlatest⟩ := hinv.commits c hc
    exact ⟨hsuffix.trans (List.suffix_cons _ _), hlatest⟩
  · refine kept_of_free hfree hother (fun key' hne => ?_) (fun _ _ => rfl) rfl rfl ?_
    · simp [takeRow, putRow, hne]
    · intro e he
      rcases List.mem_cons.mp he with rfl | he
      · exact .inr (by rw [hunused.own]; exact hother.symm)
      · exact .inl he

omit [DecidableEq κ] in
theorem guar_draw : Guar slot s
    { s with tokens := s.tokens + 1, drawnBy := Function.update s.drawnBy s.tokens slot } := by
  refine ⟨fun hinv => ⟨hinv.row, ?_, hinv.nodup, hinv.commits⟩, fun other _ =>
    ⟨fun _ h => ⟨h, rfl⟩, fun h => ⟨h, rfl⟩, Nat.le_succ _, ?_, fun _ he => .inl he⟩⟩
  · intro e he
    exact (hinv.drawn e he).trans (Nat.lt_succ_self _)
  · intro token htoken
    exact Function.update_of_ne htoken.ne _ _

/-- A verified row is locked. -/
theorem guar_lock (hfree : s.blocked slot key = false) :
    Guar slot s { s with locked := Function.update s.locked key (some slot) } := by
  refine ⟨fun hinv => ⟨hinv.row, hinv.drawn, hinv.nodup, hinv.commits⟩, fun other hother =>
    kept_of_free hfree hother (fun _ _ => rfl) (fun key' hne => ?_) rfl rfl
      (fun _ he => .inl he)⟩
  exact Function.update_of_ne hne _ _

omit [DecidableEq κ] in
theorem guar_begin (hfree : s.writer = none) : Guar slot s { s with writer := some slot } := by
  refine ⟨fun hinv => ⟨hinv.row, hinv.drawn, hinv.nodup, hinv.commits⟩, fun other _ =>
    ⟨fun _ h => ⟨h, rfl⟩, fun h => ?_, le_rfl, fun _ _ => rfl, fun _ he => .inl he⟩⟩
  rw [hfree] at h
  cases h

omit [DecidableEq κ] in
/-- A slot that gives up its locks takes none of another's. -/
theorem kept_endTransaction (hother : other ≠ slot) : Kept other s (endTransaction slot s) := by
  have hne : some other ≠ some slot := fun h => hother (Option.some.inj h)
  refine ⟨fun key h => ⟨?_, rfl⟩, fun h => ⟨?_, rfl⟩, le_rfl, fun _ _ => rfl, fun _ he => .inl he⟩
  · simp only [endTransaction, h, if_neg hne]
  · simp only [endTransaction, h, if_neg hne]

omit [DecidableEq κ] in
theorem inv_endTransaction (hinv : Inv s) : Inv (endTransaction slot s) :=
  ⟨hinv.row, hinv.drawn, hinv.nodup, hinv.commits⟩

omit [DecidableEq κ] in
/-- The commit of a slot that holds every section it was opened inside. -/
theorem guar_commit {sections : List (LeaseFence κ)}
    (hheld : ∀ fence ∈ sections, Holds slot fence s) :
    Guar slot s (commitTransaction slot sections s) := by
  refine ⟨fun hinv => inv_endTransaction ⟨hinv.row, hinv.drawn, hinv.nodup, ?_⟩,
    fun other hother => ?_⟩
  · intro c hc
    rcases List.mem_cons.mp hc with rfl | hc
    · refine ⟨List.suffix_rfl, fun fence hfence => ?_⟩
      obtain ⟨-, row, hrow, howner⟩ := hheld fence hfence
      have hlatest := hinv.row fence.key row hrow
      rwa [howner] at hlatest
    · exact hinv.commits c hc
  · have hkept : Kept other s { s with commits := ⟨sections, s.acquisitions⟩ :: s.commits } :=
      ⟨fun _ h => ⟨h, rfl⟩, fun h => ⟨h, rfl⟩, le_rfl, fun _ _ => rfl, fun _ he => .inl he⟩
    exact hkept.trans (kept_endTransaction hother)

end Steps

section Rules

variable {κ α β : Type} {slot : ℕ} {P : LeaseState κ → Prop}

/-- From any state of a run where `P` holds: every action is within the
guarantee, and the answer or the exception leaves `Q` or `E`. -/
def Safe (slot : ℕ) (P : LeaseState κ → Prop) (p : LeaseProgram κ α)
    (Q : α → LeaseState κ → Prop) (E : LeaseState κ → Prop) : Prop :=
  ∀ s, Inv s → P s →
    wpe (Rely slot) (Guar slot) p (fun a s' => Inv s' ∧ Q a s') (fun _ s' => Inv s' ∧ E s') s

variable {p : LeaseProgram κ α} {Q : α → LeaseState κ → Prop} {E : LeaseState κ → Prop}

theorem Safe.mono {P' E' : LeaseState κ → Prop} {Q' : α → LeaseState κ → Prop}
    (h : Safe slot P p Q E) (hP : ∀ s, P' s → P s) (hQ : ∀ a s, Q a s → Q' a s)
    (hE : ∀ s, E s → E' s) : Safe slot P' p Q' E' :=
  fun s hinv hp => wpe_mono (h s hinv (hP s hp)) (fun a s' ha => ⟨ha.1, hQ a s' ha.2⟩)
    (fun _ s' he => ⟨he.1, hE s' he.2⟩)

theorem Safe.bind {M : β → LeaseState κ → Prop} {q : LeaseProgram κ β}
    {g : β → LeaseProgram κ α} (hq : Safe slot P q M E) (hg : ∀ b, Safe slot (M b) (g b) Q E) :
    Safe slot P (q >>= g) Q E :=
  fun s hinv hp => wpe_call (hq s hinv hp) (fun b s' hb => hg b s' hb.1 hb.2) (fun _ _ he => he)

theorem safe_pure (a : α) (h : ∀ s, P s → Q a s) : Safe slot P (pure a) Q E :=
  fun s hinv hp => ⟨hinv, h s hp⟩

theorem safe_throw (e : NexusError) (h : ∀ s, P s → E s) :
    Safe slot P (throw e : LeaseProgram κ α) Q E :=
  fun s hinv hp => ⟨hinv, h s hp⟩

theorem safe_check (r : Except NexusError α) (hQ : ∀ a s, P s → Q a s) (hE : ∀ s, P s → E s) :
    Safe slot P (check r) Q E := by
  cases r with
  | ok a => exact safe_pure a (hQ a)
  | error e => exact safe_throw e hE

/-- A failure that the caller goes on from. -/
theorem safe_attempt {M : LeaseState κ → Prop} (h : Safe slot P p (fun _ => M) M) :
    Safe slot P (attempt p) (fun _ => M) E :=
  fun s hinv hp => wpe_attempt (h s hinv hp)

theorem safe_bestEffort (h : Safe slot P p (fun _ => P) P) :
    Safe slot P (bestEffort p) (fun _ => P) E :=
  fun s hinv hp => wpe_bestEffort (h s hinv hp)

theorem safe_tryCatch {M : LeaseState κ → Prop} {handler : NexusError → LeaseProgram κ α}
    (hp : Safe slot P p Q M) (hh : ∀ e, Safe slot M (handler e) Q E) :
    Safe slot P (tryCatch p handler) Q E := by
  intro s hinv hP
  rw [wpe_tryCatch]
  exact wpe_mono (hp s hinv hP) (fun _ _ h => h) (fun e s' h => hh e s' h.1 h.2)

variable {f : LeaseState κ → Moment → Option (Except NexusError α × LeaseState κ)}

/-- One action, taken once the others have done what they like. -/
theorem safe_atomic (hstable : Stable slot P)
    (h : ∀ s m r s', Inv s → P s → f s m = some (r, s') → Guar slot s s' ∧
      match r with
      | .ok a => Q a s'
      | .error _ => E s') : Safe slot P (atomic f) Q E := by
  intro s hinv hp
  rw [wpe_atomic]
  intro s₁ hr m r s' hf
  have hinv₁ := hr.1 hinv
  obtain ⟨hg, hpost⟩ := h s₁ m r s' hinv₁ (hstable s s₁ hp hr.2) hf
  refine ⟨hg, ?_⟩
  cases r with
  | ok a => exact ⟨hg.1 hinv₁, hpost⟩
  | error e => exact ⟨hg.1 hinv₁, hpost⟩

/-- A step on the memory of this process. -/
theorem safe_quiet (hstable : Stable slot P)
    (h : ∀ s m r s', f s m = some (r, s') → Guar slot s s' ∧ (P s → P s')) :
    Safe slot P (atomic f) (fun _ => P) P := by
  refine safe_atomic hstable ?_
  intro s m r s' _ hp hf
  obtain ⟨hg, hkeep⟩ := h s m r s' hf
  refine ⟨hg, ?_⟩
  cases r with
  | ok a => exact hkeep hp
  | error e => exact hkeep hp

/-- A statement on one row. -/
theorem safe_statement [DecidableEq κ] {key : κ} {f : LeaseState κ → α × LeaseState κ}
    (hstable : Stable slot P)
    (h : ∀ s, Inv s → P s → s.blocked slot key = false →
      Guar slot s (f s).2 ∧ Q (f s).1 (f s).2 ∧ E (f s).2 ∧ E s) :
    Safe slot P (statement slot key f) Q E := by
  refine safe_atomic hstable ?_
  intro s m r s' hinv hp hf
  split at hf
  · cases hf
  · rename_i hblocked
    obtain ⟨hg, hq, he, he₀⟩ := h s hinv hp (by simpa using hblocked)
    split at hf
    · cases hf
      exact ⟨hg, hq⟩
    · cases hf
      exact ⟨Guar.refl slot s, he₀⟩
    · cases hf
      exact ⟨hg, he⟩
    · cases hf
      exact ⟨Guar.refl slot s, he₀⟩

end Rules

section Basics

variable {κ α : Type} {slot : ℕ} {P : LeaseState κ → Prop}

theorem safe_work (hstable : Stable slot P) : Safe slot P work (fun _ => P) P := by
  refine safe_quiet hstable ?_
  intro s m r s' hf
  split at hf <;> cases hf <;> exact ⟨Guar.refl slot s, id⟩

theorem safe_dateNow (hstable : Stable slot P) : Safe slot P dateNow (fun _ => P) P := by
  refine safe_quiet hstable ?_
  intro s m r s' hf
  cases hf
  exact ⟨Guar.refl slot s, id⟩

theorem safe_randomUUID (slot : ℕ) :
    Safe slot (fun _ : LeaseState κ => True) (randomUUID slot)
      (fun token s => Unused slot token s) fun _ => True := by
  refine safe_atomic (stable_true slot) ?_
  intro s m r s' hinv _ hf
  cases hf
  refine ⟨guar_draw, Nat.lt_succ_self _, Function.update_self _ _ _, ?_⟩
  intro e he
  exact (hinv.drawn e he).ne

/-- Whatever it does, it keeps to its guarantee. -/
abbrev Tame (slot : ℕ) (p : LeaseProgram κ α) : Prop :=
  Safe slot (fun _ => True) p (fun _ _ => True) fun _ => True

theorem Tame.bind {β : Type} {p : LeaseProgram κ β} {g : β → LeaseProgram κ α}
    (hp : Tame slot p) (hg : ∀ b, Tame slot (g b)) : Tame slot (p >>= g) :=
  Safe.bind hp hg

theorem tame_check (r : Except NexusError α) : Tame slot (check r : LeaseProgram κ α) :=
  safe_check r (fun _ _ _ => trivial) (fun _ _ => trivial)

theorem tame_attempt {p : LeaseProgram κ α} (h : Tame slot p) : Tame slot (attempt p) :=
  safe_attempt h

end Basics

section Programs

variable {κ : Type} [LinearOrder κ] {α : Type} {slot : ℕ}

theorem safe_acquire (adapter : Adapter) (key : κ) (token expiresAt now : ℕ) :
    Safe slot (Unused slot token) (acquire adapter slot key token expiresAt now)
      (fun acquired s => acquired = false → Unused slot token s) fun _ => True := by
  have hupdate : Safe slot (Unused slot token)
      (statement slot key (updateExpired key token expiresAt now))
      (fun acquired s => acquired = false → Unused slot token s) fun _ => True := by
    refine safe_statement (stable_unused slot token) ?_
    intro s _ hunused hfree
    simp only [updateExpired]
    split
    · exact ⟨Guar.refl slot s, fun _ => hunused, trivial, trivial⟩
    · split
      · exact ⟨guar_takeRow hfree hunused, nofun, trivial, trivial⟩
      · exact ⟨Guar.refl slot s, fun _ => hunused, trivial, trivial⟩
  have hupsert : Safe slot (Unused slot token)
      (statement slot key (upsertExpired key token expiresAt now))
      (fun acquired s => acquired = false → Unused slot token s) fun _ => True := by
    refine safe_statement (stable_unused slot token) ?_
    intro s _ hunused hfree
    simp only [upsertExpired]
    split
    · exact ⟨guar_takeRow hfree hunused, nofun, trivial, trivial⟩
    · split
      · exact ⟨guar_takeRow hfree hunused, nofun, trivial, trivial⟩
      · exact ⟨Guar.refl slot s, fun _ => hunused, trivial, trivial⟩
  have hinsert : Safe slot (Unused slot token)
      (statement slot key (insertIgnore key token expiresAt))
      (fun acquired s => acquired = false → Unused slot token s) fun _ => True := by
    refine safe_statement (stable_unused slot token) ?_
    intro s _ hunused hfree
    simp only [insertIgnore]
    split
    · exact ⟨guar_takeRow hfree hunused, nofun, trivial, trivial⟩
    · exact ⟨Guar.refl slot s, fun _ => hunused, trivial, trivial⟩
  cases adapter with
  | mysql =>
    refine hinsert.bind fun inserted => ?_
    cases inserted with
    | true => exact safe_pure true (fun _ _ => nofun)
    | false => exact hupdate.mono (fun _ h => h rfl) (fun _ _ h => h) (fun _ h => h)
  | sqlite => exact hupsert
  | postgres => exact hupsert
  | mongodb => exact hupsert
  | standalone => exact hupsert

theorem safe_pollLease (adapter : Adapter) (ttlMs : ℕ) (key : κ) (token deadline polls : ℕ) :
    Safe slot (Unused slot token) (pollLease adapter ttlMs slot key token deadline polls)
      (fun _ _ => True) fun _ => True := by
  induction polls with
  | zero => exact safe_throw _ fun _ _ => trivial
  | succ polls ih =>
    have hstable := stable_unused (κ := κ) slot token
    refine ((safe_dateNow hstable).mono (fun _ h => h) (fun _ _ h => h)
      (fun _ _ => trivial)).bind fun now => ?_
    refine (safe_acquire adapter key token _ now).bind fun acquired => ?_
    cases acquired with
    | true => exact safe_pure () fun _ _ => trivial
    | false =>
      refine Safe.mono (P := Unused slot token) ?_ (fun _ h => h rfl) (fun _ _ h => h)
        (fun _ h => h)
      refine ((safe_dateNow hstable).mono (fun _ h => h) (fun _ _ h => h)
        (fun _ _ => trivial)).bind fun later => ?_
      by_cases hdeadline : deadline ≤ later
      · simp only [hdeadline, if_true]
        exact safe_throw _ fun _ _ => trivial
      · simp only [hdeadline, if_false]
        exact ih

/-- A write under the owner of the row. -/
theorem tame_ifOwner {key : κ} {owner : ℕ} {f : LeaseRow → Option LeaseRow}
    (hf : ∀ row row', f row = some row' → row'.owner = row.owner) :
    Tame slot (statement slot key (ifOwner key owner f)) := by
  refine safe_statement (stable_true slot) ?_
  intro s _ _ hfree
  simp only [ifOwner]
  split
  · exact ⟨Guar.refl slot s, trivial, trivial, trivial⟩
  · rename_i row hrow
    split
    · refine ⟨guar_putRow hfree ?_, trivial, trivial, trivial⟩
      intro row' hrow'
      exact ⟨row, hrow, (hf row row' hrow').symm⟩
    · exact ⟨Guar.refl slot s, trivial, trivial, trivial⟩

theorem tame_release (key : κ) (owner : ℕ) : Tame slot (release slot key owner) :=
  tame_ifOwner fun _ _ h => nomatch h

theorem tame_renew (key : κ) (owner expiresAt : ℕ) :
    Tame slot (renew slot key owner expiresAt) := by
  refine tame_ifOwner fun row row' h => ?_
  cases h
  rfl

theorem tame_deleteExpired (key : κ) (now : ℕ) : Tame slot (deleteExpired slot key now) := by
  refine safe_statement (stable_true slot) ?_
  intro s _ _ hfree
  split
  · exact ⟨Guar.refl slot s, trivial, trivial, trivial⟩
  · split
    · exact ⟨guar_putRow hfree (fun _ h => nomatch h), trivial, trivial, trivial⟩
    · exact ⟨Guar.refl slot s, trivial, trivial, trivial⟩

/-- A token that passes is held from here to the end of the transaction. -/
theorem safe_verify {adapter : Adapter} (hadapter : adapter ≠ .standalone)
    (checked : List (LeaseFence κ)) (fence : LeaseFence κ) :
    Safe slot (fun s => Begun adapter slot s ∧ ∀ f ∈ checked, Holds slot f s)
      (verify adapter slot fence.key fence.token)
      (fun held s => held = true → Begun adapter slot s ∧ ∀ f ∈ fence :: checked, Holds slot f s)
      fun _ => True := by
  refine safe_statement ((stable_begun adapter slot).and (stable_holdsAll slot checked)) ?_
  rintro s _ ⟨hbegun, hheld⟩ hfree
  split
  · exact ⟨Guar.refl slot s, nofun, trivial, trivial⟩
  · rename_i row hrow
    split
    · rename_i howner
      have hpooled : Guar slot s { s with locked := Function.update s.locked fence.key (some slot) } ∧
          ∀ f ∈ fence :: checked,
            Holds slot f { s with locked := Function.update s.locked fence.key (some slot) } := by
        refine ⟨guar_lock hfree, ?_⟩
        intro f hf
        rcases List.mem_cons.mp hf with rfl | hf
        · exact ⟨.inl (Function.update_self _ _ _), row, hrow, howner⟩
        · obtain ⟨hlock, hrow'⟩ := hheld f hf
          refine ⟨hlock.imp_left fun hl => ?_, hrow'⟩
          by_cases hkey : f.key = fence.key
          · simp [hkey]
          · simpa [hkey] using hl
      have hsqlite : adapter = .sqlite → ∀ f ∈ fence :: checked, Holds slot f s := by
        intro hadapter f hf
        rcases List.mem_cons.mp hf with rfl | hf
        · exact ⟨.inr (hbegun hadapter), row, hrow, howner⟩
        · exact hheld f hf
      cases adapter with
      | sqlite => exact ⟨Guar.refl slot s, fun _ => ⟨hbegun, hsqlite rfl⟩, trivial, trivial⟩
      | standalone => exact absurd rfl hadapter
      | postgres => exact ⟨hpooled.1, fun _ => ⟨nofun, hpooled.2⟩, trivial, trivial⟩
      | mysql => exact ⟨hpooled.1, fun _ => ⟨nofun, hpooled.2⟩, trivial, trivial⟩
      | mongodb => exact ⟨hpooled.1, fun _ => ⟨nofun, hpooled.2⟩, trivial, trivial⟩
    · exact ⟨Guar.refl slot s, nofun, trivial, trivial⟩

/-- The fences are checked one by one, and those checked stay held. -/
theorem safe_assertLeaseFences {adapter : Adapter} (hadapter : adapter ≠ .standalone)
    (fences checked : List (LeaseFence κ)) :
    Safe slot (fun s => Begun adapter slot s ∧ ∀ f ∈ checked, Holds slot f s)
      (assertLeaseFences adapter slot fences)
      (fun _ s => ∀ f ∈ fences, Holds slot f s) fun _ => True := by
  suffices hall : Safe slot (fun s => Begun adapter slot s ∧ ∀ f ∈ checked, Holds slot f s)
      (assertLeaseFences adapter slot fences)
      (fun _ s => ∀ f, f ∈ fences ∨ f ∈ checked → Holds slot f s) fun _ => True from
    hall.mono (fun _ h => h) (fun _ _ h f hf => h f (.inl hf)) (fun _ h => h)
  induction fences generalizing checked with
  | nil =>
    refine safe_pure () ?_
    rintro s ⟨-, hheld⟩ f (hf | hf)
    · cases hf
    · exact hheld f hf
  | cons fence fences ih =>
    refine (safe_verify hadapter checked fence).bind fun held => ?_
    cases held with
    | true =>
      refine (ih (fence :: checked)).mono (fun _ h => h rfl) ?_ (fun _ h => h)
      intro _ s h f hf
      refine h f ?_
      rcases hf with hf | hf
      · exact (List.mem_cons.mp hf).symm.imp_right fun he => List.mem_cons.mpr (.inl he)
      · exact .inr (List.mem_cons_of_mem _ hf)
    | false => exact safe_throw _ fun _ _ => trivial

theorem tame_assertLeaseFences_standalone (fences : List (LeaseFence κ)) :
    Tame slot (assertLeaseFences .standalone slot fences) := by
  induction fences with
  | nil => exact safe_pure () fun _ _ => trivial
  | cons fence fences ih =>
    have hverify : Tame slot (verify .standalone slot fence.key fence.token) := by
      refine safe_statement (stable_true slot) ?_
      intro s _ _ _
      split
      · exact ⟨Guar.refl slot s, trivial, trivial, trivial⟩
      · split
        · exact ⟨Guar.refl slot s, trivial, trivial, trivial⟩
        · exact ⟨Guar.refl slot s, trivial, trivial, trivial⟩
    refine hverify.bind fun held => ?_
    cases held with
    | true => exact ih
    | false => exact safe_throw _ fun _ _ => trivial

omit [LinearOrder κ] in
theorem safe_beginTransaction (adapter : Adapter) :
    Safe slot (fun _ : LeaseState κ => True) (beginTransaction adapter slot)
      (fun _ s => Begun adapter slot s) fun _ => True := by
  refine safe_atomic (stable_true slot) ?_
  intro s m r s' _ _ hf
  split at hf
  · cases hf
  · rename_i hfree
    split at hf <;> cases hf
    · by_cases hsqlite : adapter = .sqlite
      · have hnone : s.writer = none := by
          by_contra hsome
          exact hfree ⟨hsqlite, hsome⟩
        rw [if_pos hsqlite]
        exact ⟨guar_begin hnone, fun _ => rfl⟩
      · rw [if_neg hsqlite]
        exact ⟨Guar.refl slot s, fun h => absurd h hsqlite⟩
    · exact ⟨Guar.refl slot s, trivial⟩
    · exact ⟨Guar.refl slot s, trivial⟩
    · exact ⟨Guar.refl slot s, trivial⟩

omit [LinearOrder κ] in
theorem safe_bodyRun {P : LeaseState κ → Prop} (hstable : Stable slot P) (body : Body) :
    Safe slot P body.run (fun _ => P) P := by
  induction body with
  | answer result => exact safe_check result (fun _ _ h => h) (fun _ h => h)
  | statement next ih =>
    exact (safe_attempt (safe_work hstable)).bind fun result => ih result

/-- A run of a fenced body commits only while it holds every section it was
opened inside. -/
theorem tame_runTransaction (adapter : Adapter) {sections fences : List (LeaseFence κ)}
    (hfences : ∀ f ∈ sections, f ∈ fences) (body : Body) :
    Tame slot (runTransaction adapter slot sections fences body) := by
  have hrollback : Tame slot (rollback slot : LeaseProgram κ Unit) := by
    refine safe_atomic (stable_true slot) ?_
    intro s m r s' _ _ hf
    cases hf
    exact ⟨⟨inv_endTransaction, fun _ hother => kept_endTransaction hother⟩, trivial⟩
  have hcommit : Safe slot (fun s => ∀ f ∈ fences, Holds slot f s) (commit slot sections)
      (fun _ _ => True) fun _ => True := by
    refine safe_atomic (stable_holdsAll slot fences) ?_
    intro s m r s' _ hheld hf
    have hg : Guar slot s (commitTransaction slot sections s) :=
      guar_commit fun f hf => hheld f (hfences f hf)
    split at hf <;> cases hf
    · exact ⟨hg, trivial⟩
    · exact ⟨Guar.refl slot s, trivial⟩
    · exact ⟨hg, trivial⟩
    · exact ⟨Guar.refl slot s, trivial⟩
  have hatomic : adapter ≠ .standalone → Tame slot (do
      beginTransaction adapter slot
      tryCatch (do
        let result ← body.run
        assertLeaseFences adapter slot fences
        commit slot sections
        pure result) fun error => do
          rollback slot
          throw error) := by
    intro hadapter
    refine (safe_beginTransaction adapter).bind fun _ => ?_
    refine safe_tryCatch (M := fun _ => True) ?_ fun error =>
      hrollback.bind fun _ => safe_throw error fun _ _ => trivial
    have hbody := safe_bodyRun (stable_begun (κ := κ) adapter slot) body
    refine (hbody.mono (fun _ h => h) (fun _ _ h => h) (fun _ _ => trivial)).bind fun result => ?_
    have hassert : Safe slot (fun s => Begun adapter slot s ∧ ∀ f ∈ [], Holds slot f s)
        (assertLeaseFences adapter slot fences) (fun _ s => ∀ f ∈ fences, Holds slot f s)
        fun _ => True := safe_assertLeaseFences hadapter fences []
    refine Safe.bind (hassert.mono (fun _ h => ⟨h, by simp⟩) (fun _ _ h => h) (fun _ h => h))
      fun _ => hcommit.bind fun _ => safe_pure result fun _ _ => trivial
  cases adapter with
  | standalone =>
    exact (tame_assertLeaseFences_standalone fences).bind fun _ =>
      safe_bodyRun (stable_true slot) body
  | sqlite => exact hatomic nofun
  | postgres => exact hatomic nofun
  | mysql => exact hatomic nofun
  | mongodb => exact hatomic nofun

omit [LinearOrder κ] in
theorem tame_runWithTransactionRetry {run : LeaseProgram κ ℕ} (hrun : Tame slot run)
    (retries : ℕ) : Tame slot (runWithTransactionRetry run retries) := by
  induction retries with
  | zero => exact hrun
  | succ retries ih =>
    refine (tame_attempt hrun).bind fun result => ?_
    cases result with
    | ok answer => exact safe_pure answer fun _ _ => trivial
    | error error =>
      have hretryable : Tame slot (retryable : LeaseProgram κ Bool) := by
        refine safe_quiet (stable_true slot) ?_
        intro s m r s' hf
        cases hf
        exact ⟨Guar.refl slot s, id⟩
      refine hretryable.bind fun again => ?_
      cases again with
      | true => exact ih
      | false => exact safe_throw error fun _ _ => trivial

theorem tame_transaction (adapter : Adapter) (held : List (LeaseFence κ)) (retries : ℕ)
    (body : Body) : Tame slot (Leases.transaction adapter slot held retries body) := by
  have hcapture : Safe slot (fun _ : LeaseState κ => True)
      (atomic fun s _ => some (.ok (liveSections held s, heldLeaseFences held s), s))
      (fun captured _ => ∀ f ∈ captured.1, f ∈ captured.2) fun _ => True := by
    refine safe_atomic (stable_true slot) ?_
    intro s m r s' _ _ hf
    cases hf
    exact ⟨Guar.refl slot s, fun f hf => (List.mem_insertionSort _).mpr hf⟩
  refine hcapture.bind fun captured s hinv hfences => ?_
  exact tame_runWithTransactionRetry (tame_runTransaction adapter hfences body) _ s hinv trivial

end Programs

section Sections

variable {κ : Type} [LinearOrder κ] {α : Type} {slot : ℕ} (adapter : Adapter)
  (ttlMs waitMs : ℕ) {fn : List (LeaseFence κ) → LeaseProgram κ α}

omit [LinearOrder κ] in
theorem tame_holdingLease (key : κ) (token : ℕ) (hfn : ∀ held, Tame slot (fn held))
    (held : List (LeaseFence κ)) :
    Tame slot (holdingLease key token fn held) := by
  have hlive : ∀ live, Tame slot (setLive token live : LeaseProgram κ Unit) := by
    intro live
    refine safe_quiet (stable_true slot) ?_
    intro s m r s' hf
    cases hf
    exact ⟨guar_of_same rfl rfl rfl rfl rfl rfl rfl, id⟩
  exact (hlive true).bind fun _ => (tame_attempt (hfn _)).bind fun result =>
    (hlive false).bind fun _ => tame_check result

theorem tame_underLease (key : κ) (polls : ℕ) (hfn : ∀ held, Tame slot (fn held))
    (held : List (LeaseFence κ)) :
    Tame slot (underLease adapter ttlMs waitMs slot key polls fn held) := by
  refine (safe_randomUUID slot).bind fun token => ?_
  have htake : Safe slot (Unused slot token)
      (takeLease adapter ttlMs waitMs slot key token polls) (fun _ _ => True) fun _ => True :=
    ((safe_dateNow (stable_unused slot token)).mono (fun _ h => h) (fun _ _ h => h)
      (fun _ _ => trivial)).bind fun now => safe_pollLease adapter ttlMs key token _ polls
  exact htake.bind fun _ => (tame_attempt (tame_holdingLease key token hfn held)).bind
    fun result => (safe_bestEffort (tame_release key token)).bind fun _ => tame_check result

theorem tame_serializePerKey (serializer : ℕ) (key : κ) (polls : ℕ)
    (hfn : ∀ held, Tame slot (fn held)) (held : List (LeaseFence κ)) :
    Tame slot (serializePerKey adapter ttlMs waitMs slot serializer key polls fn held) := by
  have henqueue : Tame slot (enqueue slot serializer key : LeaseProgram κ ℕ) := by
    refine safe_quiet (stable_true slot) ?_
    intro s m r s' hf
    cases hf
    exact ⟨guar_of_same rfl rfl rfl rfl rfl rfl rfl, id⟩
  have hawait : ∀ ticket, Tame slot (awaitTurn serializer key ticket : LeaseProgram κ Unit) := by
    intro ticket
    refine safe_quiet (stable_true slot) ?_
    intro s m r s' hf
    split at hf
    · cases hf
      exact ⟨Guar.refl slot s, id⟩
    · cases hf
  have hdequeue : ∀ ticket, Tame slot (dequeue serializer key ticket : LeaseProgram κ Unit) := by
    intro ticket
    refine safe_quiet (stable_true slot) ?_
    intro s m r s' hf
    cases hf
    exact ⟨guar_of_same rfl rfl rfl rfl rfl rfl rfl, id⟩
  exact henqueue.bind fun ticket => (hawait ticket).bind fun _ =>
    (tame_attempt (tame_underLease adapter ttlMs waitMs key polls hfn held)).bind fun result =>
      (hdequeue ticket).bind fun _ => tame_check result

/-- Any code of the portal, in any context. -/
theorem tame_code (code : Code κ) (held : List (LeaseFence κ)) :
    Tame slot (code.run adapter ttlMs waitMs slot held) := by
  induction code generalizing held with
  | answer result => exact tame_check result
  | work next ih =>
    exact (tame_attempt (safe_work (stable_true slot))).bind fun result => ih result held
  | serializePerKey serializer key polls fn next ihfn ih =>
    exact (tame_attempt (tame_serializePerKey adapter ttlMs waitMs serializer key polls ihfn
      held)).bind fun result => ih result held
  | transaction retries body next ih =>
    exact (tame_attempt (tame_transaction adapter held retries body)).bind
      fun result => ih result held
  | outsideHeldLeases fn next ihfn ih =>
    exact (tame_attempt (ihfn [])).bind fun result => ih result held

theorem tame_leaseProgram (o : LeaseOp κ) {s : LeaseState κ} (hinv : Inv s) :
    wp (Rely slot) (Guar slot) (leaseProgram adapter ttlMs waitMs slot o) (fun _ _ => True) s := by
  have hrun : ∀ {β : Type} {p : LeaseProgram κ β}, Tame slot p →
      wp (Rely slot) (Guar slot) p.toProgram (fun _ _ => True) s := fun hp =>
    wp_toProgram (wpe_mono (hp s hinv trivial) (fun _ _ _ => trivial) (fun _ _ _ => trivial))
  cases o with
  | code held code => exact hrun (tame_code adapter ttlMs waitMs code held)
  | renewal key token =>
    exact hrun (Tame.bind (safe_dateNow (stable_true slot)) fun now =>
      safe_bestEffort (tame_renew key token _))
  | sweep key =>
    exact hrun (Tame.bind (safe_dateNow (stable_true slot)) fun now => tame_deleteExpired key now)

end Sections

section Runs

variable {κ : Type} [LinearOrder κ] {adapter : Adapter} {ttlMs waitMs : ℕ} {s : LeaseState κ}

theorem inv_of_reachable {ts : ℕ → Option (Program (LeaseState κ) Moment Unit)}
    (h : Pool.Reachable (leaseProgram adapter ttlMs waitMs) Untouched (fun _ _ => True) stop
      s ts) : Inv s := by
  refine (Pool.invariant (I := Inv) (R := Rely) (G := Guar) ?_ (fun _ _ _ _ => Rely.trans)
    (fun _ _ _ hinv hg => hg.1 hinv) (fun _ _ hinv => ?_)
    (fun _ _ _ _ hne _ hg => ⟨hg.1, hg.2 _ hne⟩) (fun i j s hne _ => ⟨fun hinv => ?_, ?_⟩)
    Rely.refl (fun _ _ o hinv _ => tame_leaseProgram adapter ttlMs waitMs o hinv) h).1
  · intro s h
    refine ⟨fun key row hrow => ?_, ?_, ?_, ?_⟩
    · rw [h.rows key] at hrow
      cases hrow
    · simp [h.acquisitions]
    · simp [h.acquisitions]
    · simp [h.commits]
  · exact ⟨hinv.row, hinv.drawn, hinv.nodup, hinv.commits⟩
  · exact ⟨hinv.row, hinv.drawn, hinv.nodup, hinv.commits⟩
  · have hkept : Kept i s (endTransaction j s) := kept_endTransaction hne
    exact ⟨hkept.locked, hkept.writer, hkept.tokens, hkept.drawnBy, hkept.acquisitions⟩

/-- In every run each commit was made while every section the transaction was
opened inside was still the last to have acquired its key: no other section
acquired it in between, and a section whose lease was taken over, at any depth
of nesting, has no further commit. -/
theorem commits_fenced {ts : ℕ → Option (Program (LeaseState κ) Moment Unit)}
    (h : Pool.Reachable (leaseProgram adapter ttlMs waitMs) Untouched (fun _ _ => True) stop
      s ts) :
    (s.acquisitions.map (·.token)).Nodup ∧ ∀ c ∈ s.commits, c.acquisitions <:+ s.acquisitions ∧
      (∀ fence ∈ c.sections, ∃ newer older, c.acquisitions = newer ++ fence :: older ∧
        ∀ e ∈ newer, e.key ≠ fence.key) ∧
      ∀ fence, TakenOver c.acquisitions fence → fence ∉ c.sections := by
  have hinv := inv_of_reachable h
  refine ⟨hinv.nodup, fun c hc => ?_⟩
  obtain ⟨hsuffix, hlatest⟩ := hinv.commits c hc
  refine ⟨hsuffix, hlatest, fun fence htaken hmem => ?_⟩
  have hnodup : (c.acquisitions.map (·.token)).Nodup :=
    (hsuffix.map _).sublist.nodup hinv.nodup
  exact (hlatest fence hmem).not_takenOver hnodup htaken

/-- A lease table in a new database. -/
def newTable : LeaseState ℕ where
  rows := fun _ => none
  tokens := 0
  live := fun _ => false
  tickets := 0
  queues := fun _ _ => []
  writer := none
  locked := fun _ => none
  drawnBy := fun _ => 0
  acquisitions := []
  commits := []

/-- A section of key 7 inside one of key 5 that works for a while and then
opens a transaction. -/
def nestedCode (serializer : ℕ) : Code ℕ :=
  .serializePerKey serializer 5 1
    (.serializePerKey serializer 7 1
      (.work fun _ => .transaction 0 (.answer (.ok 0)) .answer) .answer) .answer

def stepsAt (slot count now : ℕ) : List (Pool.Event (LeaseOp ℕ) Moment) :=
  List.replicate count (.step slot ⟨.ok, now, 0⟩)

/-- The leases of slot 0 run out while it works, slot 1 takes both over and
commits; slot 0 then opens its transaction and finds its token replaced. -/
def takeover : List (Pool.Event (LeaseOp ℕ) Moment) :=
  [.start 0 (.code [] (nestedCode 0))] ++ stepsAt 0 14 0 ++
    [.start 1 (.code [] (nestedCode 1))] ++ stepsAt 1 20 100 ++ stepsAt 0 5 100

/-- Four acquisitions, and one commit by the last holder of both keys. -/
def committedOnce (r : LeaseState ℕ × (ℕ → Option (Program (LeaseState ℕ) Moment Unit))) : Bool :=
  r.1.commits.map (·.sections) == [[⟨5, 2⟩, ⟨7, 3⟩]] &&
    r.1.acquisitions == [⟨7, 3⟩, ⟨5, 2⟩, ⟨7, 1⟩, ⟨5, 0⟩]

theorem commits_fenced_takeover :
    ∃ s : LeaseState ℕ, s.commits.map (·.sections) = [[⟨5, 2⟩, ⟨7, 3⟩]] ∧
      s.acquisitions = [⟨7, 3⟩, ⟨5, 2⟩, ⟨7, 1⟩, ⟨5, 0⟩] ∧
      (s.acquisitions.map (·.token)).Nodup ∧ ∀ c ∈ s.commits, c.acquisitions <:+ s.acquisitions ∧
        (∀ fence ∈ c.sections, ∃ newer older, c.acquisitions = newer ++ fence :: older ∧
          ∀ e ∈ newer, e.key ≠ fence.key) ∧
        ∀ fence, TakenOver c.acquisitions fence → fence ∉ c.sections := by
  have hinit : Pool.Reachable (leaseProgram .postgres 10 0) Untouched (fun _ _ => True) stop
      newTable fun _ => none := .init ⟨fun _ => rfl, rfl, rfl⟩
  have hrun : ((Pool.exec (leaseProgram .postgres 10 0) stop takeover newTable
      fun _ => none).any committedOnce) = true := by decide
  obtain ⟨r, hr, hP⟩ := (Option.any_eq_true committedOnce _).mp hrun
  obtain ⟨hcommits, hacq⟩ := Bool.and_eq_true_iff.mp hP
  exact ⟨r.1, eq_of_beq hcommits, eq_of_beq hacq,
    commits_fenced (Pool.reachable_exec (fun _ _ => trivial) hinit hr)⟩

end Runs

end FerrumNexus.Leases
