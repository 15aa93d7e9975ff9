import FerrumNexus.Settings.SecretBinding

/-!
# What binding and rotation leave of the secrets

A plan holds what the row held, so neither a binding nor a rotation changes the
content of a row it replaces. A binding replaces a row only while it still holds
what was read, and keeps it until it commits; a rotation that ran alone writes
what it read. An old blob is opened only where the marker is not there yet, and
the marker is read after the rows.
-/
namespace FerrumNexus.Settings

open Sequences

variable {K M P V : Type}

/-! ## Planning -/

section Plans

variable {decrypt : K → Stored K M P V → Option P} {master : M} {iv : K → ℕ}
  {rows : List (K × SettingRow K M P V)}

theorem planRow_isNone (row : K × SettingRow K M P V) :
    (planRow decrypt master iv row).isNone ↔ decrypt row.1 row.2.value = none := by
  rw [planRow, Option.isNone_map, Option.isNone_iff_eq_none]

/-- Every row has its plan, and no other. -/
theorem planRows_ok {plans : List (Plan K M P V)} (h : planRows decrypt master iv rows = .ok plans) :
    (∀ row ∈ rows, decrypt row.1 row.2.value ≠ none) ∧
      plans = rows.filterMap (planRow decrypt master iv) := by
  unfold planRows at h
  simp only at h
  split at h
  · rename_i hnil
    obtain rfl := Except.ok.inj h
    refine ⟨fun row hrow hnone => ?_, rfl⟩
    have hmem : row ∈ rows.filter fun row => (planRow decrypt master iv row).isNone :=
      List.mem_filter.mpr ⟨hrow, (planRow_isNone row).mpr hnone⟩
    rw [hnil] at hmem
    exact List.not_mem_nil hmem
  · exact absurd h (by simp)

theorem planRows_error {keys : List K} (h : planRows decrypt master iv rows = .error keys) :
    ∃ row ∈ rows, decrypt row.1 row.2.value = none := by
  unfold planRows at h
  simp only at h
  split at h
  · exact absurd h (by simp)
  · rename_i hne
    obtain ⟨row, hrow⟩ := List.exists_mem_of_ne_nil _ hne
    obtain ⟨hmem, hnone⟩ := List.mem_filter.mp hrow
    exact ⟨row, hmem, (planRow_isNone row).mp hnone⟩

theorem mem_plans {plan : Plan K M P V} (h : plan ∈ rows.filterMap (planRow decrypt master iv)) :
    ∃ row ∈ rows, ∃ plain, decrypt row.1 row.2.value = some plain ∧
      plan = ⟨row.1, row.2.value, encryptJson master row.1 (iv row.1) plain, row.2.stamp⟩ := by
  obtain ⟨row, hrow, hplan⟩ := List.mem_filterMap.mp h
  obtain ⟨plain, hplain, rfl⟩ := Option.map_eq_some_iff.mp hplan
  exact ⟨row, hrow, plain, hplain, rfl⟩

theorem keys_plans (rows : List (K × SettingRow K M P V)) :
    ((rows.filterMap (planRow decrypt master iv)).map Plan.key).Sublist (rows.map Prod.fst) := by
  induction rows with
  | nil => exact List.Sublist.slnil
  | cons row rows ih =>
    cases hplan : planRow decrypt master iv row with
    | none =>
      rw [List.filterMap_cons_none hplan, List.map_cons]
      exact ih.cons row.1
    | some plan =>
      obtain ⟨plain, -, rfl⟩ := Option.map_eq_some_iff.mp hplan
      rw [List.filterMap_cons_some hplan, List.map_cons, List.map_cons]
      exact ih.cons_cons row.1

end Plans

variable [DecidableEq K]

theorem SettingRow.content_of_encrypted {key : K} {row : SettingRow K M P V}
    (h : row.encrypted = true) : row.content key = row.value.content key := if_pos h

section Writing

variable {plans : List (Plan K M P V)} {stamp : ℕ}

theorem writePlans_cons (rows : Rows K M P V) (plan : Plan K M P V) :
    writePlans rows stamp (plan :: plans) =
      writePlans (rows.set plan.key ⟨plan.bound, true, stamp⟩) stamp plans := rfl

theorem writePlans_get_of_not_mem (rows : Rows K M P V) {key : K}
    (h : key ∉ plans.map Plan.key) : (writePlans rows stamp plans).get key = rows.get key := by
  induction plans generalizing rows with
  | nil => rfl
  | cons plan plans ih =>
    rw [List.map_cons, List.mem_cons, not_or] at h
    rw [writePlans_cons, ih _ h.2, OrderedMap.get_set_of_ne _ _ h.1]

theorem writePlans_get_of_mem (rows : Rows K M P V) (hnodup : (plans.map Plan.key).Nodup)
    {plan : Plan K M P V} (h : plan ∈ plans) :
    (writePlans rows stamp plans).get plan.key = some ⟨plan.bound, true, stamp⟩ := by
  induction plans generalizing rows with
  | nil => exact absurd h List.not_mem_nil
  | cons first plans ih =>
    rw [List.map_cons, List.nodup_cons] at hnodup
    rw [writePlans_cons]
    rcases List.mem_cons.mp h with rfl | hrest
    · rw [writePlans_get_of_not_mem _ hnodup.1, OrderedMap.get_set_self]
    · exact ih _ hnodup.2 hrest

theorem writePlans_stamp {rows : Rows K M P V} {key : K} {row : SettingRow K M P V}
    (h : (writePlans rows stamp plans).get key = some row) :
    row.stamp = stamp ∨ rows.get key = some row := by
  induction plans generalizing rows with
  | nil => exact Or.inr h
  | cons plan plans ih =>
    rcases ih h with hstamp | hget
    · exact Or.inl hstamp
    · by_cases hkey : key = plan.key
      · subst hkey
        rw [OrderedMap.get_set_self, Option.some_inj] at hget
        exact Or.inl (congrArg SettingRow.stamp hget).symm
      · rw [OrderedMap.get_set_of_ne _ _ hkey] at hget
        exact Or.inr hget

end Writing

/-! ## The content of the rows -/

/-- A plan holds what the row it is for holds. -/
def Plan.Faithful (plan : Plan K M P V) : Prop :=
  ∃ master iv plain, plan.bound = .v2 master plan.key iv plain ∧
    plan.blob.content plan.key = .secret plain

theorem content_encryptJson (master : M) (key : K) (iv : ℕ) (plain : P) :
    (encryptJson master key iv plain : Stored K M P V).content key = .secret plain := if_pos rfl

theorem Plan.Faithful.content {plan : Plan K M P V} (h : plan.Faithful) :
    plan.bound.content plan.key = plan.blob.content plan.key := by
  obtain ⟨master, iv, plain, hbound, hblob⟩ := h
  rw [hbound, hblob]
  exact if_pos rfl

namespace BindingState

/-- What a row holds now. -/
def contentAt (s : BindingState K M P V) (key : K) : Option (Content K M P V) :=
  (s.rows.get key).map (SettingRow.content key)

/-- What the others leave of that. -/
structure Frame (s s' : BindingState K M P V) (call : ℕ) : Prop where
  locked : ∀ key, s.locked key = some call →
    s'.locked key = some call ∧ s'.rows.get key = s.rows.get key
  writes : ∀ key, s.writes key ≤ s'.writes key
  content : ∀ key, s'.writes key = s.writes key → s'.contentAt key = s.contentAt key

variable {call other : ℕ} {s s' : BindingState K M P V} {phase : Phase K M P V}

/-- What a rotation has read stands for the rows that were not written since. -/
theorem Frame.read (hframe : Frame s s' call) {rows : Rows K M P V} {writes : K → ℕ}
    (h : ∀ key, writes key ≤ s.writes key ∧
      (s.writes key = writes key → s.contentAt key = (rows.get key).map (SettingRow.content key)))
    (key : K) :
    writes key ≤ s'.writes key ∧
      (s'.writes key = writes key →
        s'.contentAt key = (rows.get key).map (SettingRow.content key)) := by
  obtain ⟨hwrites, hsame⟩ := h key
  have hle := hframe.writes key
  refine ⟨hwrites.trans hle, fun heq => ?_⟩
  have hunchanged : s'.writes key = s.writes key := by omega
  rw [hframe.content key hunchanged, hsame (by omega)]

theorem Frame.of_same (hrows : s'.rows = s.rows) (hlocked : s'.locked = s.locked)
    (hwrites : s'.writes = s.writes) (call : ℕ) :
    Frame s s' call := by
  constructor
  · intro key hkey
    rw [hlocked, hrows]
    exact ⟨hkey, rfl⟩
  · intro key
    rw [hwrites]
  · intro key _
    rw [contentAt, contentAt, hrows]

/-- A row that no transaction keeps is changed. -/
theorem Frame.of_row {key : K} (hfree : s.locked key = none)
    (hrows : ∀ other, other ≠ key → s'.rows.get other = s.rows.get other)
    (hlocked : s'.locked = s.locked)
    (hwrites : s'.writes = Function.update s.writes key (s.writes key + 1)) (call : ℕ) :
    Frame s s' call := by
  constructor
  · intro other hother
    have hne : other ≠ key := by
      rintro rfl
      rw [hfree] at hother
      exact Option.some_ne_none call hother.symm
    rw [hlocked]
    exact ⟨hother, hrows other hne⟩
  · intro other
    rw [hwrites]
    by_cases hne : other = key
    · subst hne
      rw [Function.update_self]
      exact Nat.le_succ _
    · rw [Function.update_of_ne hne]
  · intro other hsame
    have hne : other ≠ key := by
      rintro rfl
      rw [hwrites, Function.update_self] at hsame
      omega
    rw [contentAt, contentAt, hrows other hne]

/-- The same of a rotation, for a row that was not written since it read. -/
theorem contentAt_rewrite {rows : Rows K M P V} {plans : List (Plan K M P V)} {writes : K → ℕ}
    (hnodup : (plans.map Plan.key).Nodup) (hplans : ∀ plan ∈ plans, plan.Faithful ∧
      (rows.get plan.key).map (SettingRow.content plan.key) = some (plan.blob.content plan.key))
    {key : K}
    (hread : s.writes key = writes key →
      s.contentAt key = (rows.get key).map (SettingRow.content key))
    (hkept : s.overwrites plans writes key = false) :
    (s.rewrite plans writes).contentAt key = s.contentAt key := by
  have hrows : (s.rewrite plans writes).rows = writePlans s.rows (s.clock + 1) plans := rfl
  rw [contentAt, hrows]
  by_cases hkey : key ∈ plans.map Plan.key
  · have hsame : s.writes key = writes key := by simpa [overwrites, hkey] using hkept
    have hread := hread hsame
    obtain ⟨plan, hplan, rfl⟩ := List.mem_map.mp hkey
    obtain ⟨hfaithful, hcontent⟩ := hplans plan hplan
    rw [writePlans_get_of_mem s.rows hnodup hplan, Option.map_some,
      SettingRow.content_of_encrypted rfl, hfaithful.content, hread, hcontent]
  · rw [writePlans_get_of_not_mem s.rows hkey, contentAt]

/-- A transaction keeps a row to itself. -/
theorem Frame.of_lock {key : K} (hfree : s.locked key = none) :
    Frame s (s.lock key call) other := by
  constructor
  · intro key' hkey'
    have hne : key' ≠ key := by
      rintro rfl
      rw [hfree] at hkey'
      exact Option.some_ne_none other hkey'.symm
    exact ⟨(Function.update_of_ne hne _ _).trans hkey', rfl⟩
  · exact fun _ => le_rfl
  · exact fun _ _ => rfl

theorem Frame.of_unlock (hlocked : s'.locked = s.locked) (hne : other ≠ call)
    (hrows : ∀ key, s.locked key = some other → s'.rows.get key = s.rows.get key)
    (hwrites : s'.writes = s.writes) (hcontent : ∀ key, s'.contentAt key = s.contentAt key) :
    Frame s (s'.unlock call) other := by
  constructor
  · intro key hkey
    have hkept : (s'.unlock call).locked key = s'.locked key := by
      apply if_neg
      rw [hlocked, hkey, Option.some_inj]
      exact hne
    exact ⟨hkept.trans (hlocked ▸ hkey), hrows key hkey⟩
  · intro key
    exact (congrFun hwrites key).ge
  · intro key _
    exact hcontent key

/-! ## When the blobs were written -/

/-- What the times of a call's rows are. -/
def PhaseDated (s : BindingState K M P V) (call : ℕ) : Phase K M P V → Prop
  | .replacing _ _ => s.holder = some call → s.markers = 0
  | .finished => s.markers = 1
  | .rotating _ _ rows _ => ∀ key row, rows.get key = some row → row.stamp ≤ s.clock
  | .rewriting _ plans _ => ∀ plan ∈ plans, plan.blob.isLegacy = true →
      plan.stamp ≤ s.clock ∧ ∀ time, s.markedAt = some time → plan.stamp ≤ time
  | _ => True

/-- No row is from the future, no binding is recorded twice, and what was converted was written
before the binding was recorded. -/
structure Dated (s : BindingState K M P V) : Prop where
  phases : ∀ call, s.PhaseDated call (s.phase call)
  rows : ∀ key row, s.rows.get key = some row → row.stamp ≤ s.clock
  converted : ∀ stamp ∈ s.converted,
    stamp ≤ s.clock ∧ ∀ time, s.markedAt = some time → stamp ≤ time
  marked : s.markers = 0 ∧ s.markedAt = none ∨ s.markers = 1 ∧ s.markedAt ≠ none

/-- What the others do to a call: time goes on, and the binding is recorded by whoever has the
lease. -/
structure Later (s s' : BindingState K M P V) (call : ℕ) : Prop where
  clock : s.clock ≤ s'.clock
  markers : s.markers = 1 → s'.markers = 1
  markedAt : ∀ time, s'.markedAt = some time → s.markedAt = some time ∨ s.clock ≤ time
  fenced : s'.holder = some call → s.holder = some call ∧ s'.markers = s.markers

omit [DecidableEq K] in
theorem Later.before {stamp : ℕ} (h : Later s s' call)
    (hstamp : stamp ≤ s.clock ∧ ∀ time, s.markedAt = some time → stamp ≤ time) :
    stamp ≤ s'.clock ∧ ∀ time, s'.markedAt = some time → stamp ≤ time := by
  refine ⟨hstamp.1.trans h.clock, fun time htime => ?_⟩
  rcases h.markedAt time htime with hsame | hnew
  · exact hstamp.2 time hsame
  · exact hstamp.1.trans hnew

theorem PhaseDated.later (hlater : Later s s' call) (h : s.PhaseDated call phase) :
    s'.PhaseDated call phase := by
  cases phase with
  | replacing bound rest =>
    intro hholder
    obtain ⟨hbefore, hmarkers⟩ := hlater.fenced hholder
    exact hmarkers.trans (h hbefore)
  | finished => exact hlater.markers h
  | rotating previous next rows writes =>
    exact fun key row hrow => (h key row hrow).trans hlater.clock
  | rewriting rows plans writes =>
    exact fun plan hplan hlegacy => hlater.before (h plan hplan hlegacy)
  | idle => trivial
  | acquired master => trivial
  | listed master legacy => trivial
  | planned plans => trivial
  | rotated => trivial
  | failed => trivial

/-- Only its own call changes, and what time it is. -/
theorem Dated.goTo (h : Dated s) (hphase : s'.phase = s.phase)
    (hlater : ∀ other, other ≠ call → Later s s' other) (hdated : s'.PhaseDated call phase)
    (hrows : ∀ key row, s'.rows.get key = some row → row.stamp ≤ s'.clock)
    (hconverted : ∀ stamp ∈ s'.converted,
      stamp ≤ s'.clock ∧ ∀ time, s'.markedAt = some time → stamp ≤ time)
    (hmarked : s'.markers = 0 ∧ s'.markedAt = none ∨ s'.markers = 1 ∧ s'.markedAt ≠ none) :
    Dated (s'.goTo call phase) := by
  refine ⟨fun other => ?_, hrows, hconverted, hmarked⟩
  have hrest : (s'.goTo call phase).phase = Function.update s'.phase call phase := rfl
  rw [hrest]
  by_cases hother : other = call
  · subst hother
    rw [Function.update_self]
    exact hdated
  · rw [Function.update_of_ne hother, hphase]
    have hother' : s'.PhaseDated other (s.phase other) :=
      (h.phases other).later (hlater other hother)
    exact hother'

omit [DecidableEq K] in
theorem Later.refl (s : BindingState K M P V) (call : ℕ) : Later s s call where
  clock := le_rfl
  markers := id
  markedAt := fun _ htime => Or.inl htime
  fenced := fun hholder => ⟨hholder, rfl⟩

theorem Later.lock (s : BindingState K M P V) (key : K) (call other : ℕ) :
    Later s (s.lock key call) other := by
  constructor
  · exact le_rfl
  · exact id
  · exact fun _ htime => Or.inl htime
  · exact fun hholder => ⟨hholder, rfl⟩

omit [DecidableEq K] in
theorem Later.unlock (s : BindingState K M P V) (call other : ℕ) :
    Later s (s.unlock call) other := by
  constructor
  · exact le_rfl
  · exact id
  · exact fun _ htime => Or.inl htime
  · exact fun hholder => ⟨hholder, rfl⟩

/-- A call moves on, and nothing else is done. -/
theorem Dated.move (h : Dated s) (hdated : s.PhaseDated call phase) : Dated (s.goTo call phase) :=
  h.goTo rfl (fun other _ => Later.refl s other) hdated h.rows h.converted h.marked

theorem Dated.recorded (h : Dated s) (hmarkers : 0 < s.markers) :
    s.markers = 1 := by
  rcases h.marked with hnone | hone
  · omega
  · exact hone.1

theorem Dated.unrecorded (h : Dated s) (hmarkers : s.markers = 0) :
    s.markedAt = none := by
  rcases h.marked with hnone | hone
  · exact hnone.2
  · omega

/-- A binding commits, under its lease. -/
theorem Dated.bind (h : Dated s) {bound : List (Plan K M P V)} (hholder : s.holder = some call)
    (hmarkers : s.markers = 0) (hphase : phase = .finished ∨ phase = .failed) :
    Dated (((s.bind bound).unlock call).goTo call phase) := by
  refine h.goTo ?_ (fun other hne => ?_) ?_ ?_ ?_ ?_
  · rfl
  · constructor
    · exact Nat.le_succ _
    · intro hone
      omega
    · rintro time ⟨⟩
      exact Or.inr le_rfl
    · intro hother
      exact absurd (Option.some_inj.mp (hholder.symm.trans hother)).symm hne
  · rcases hphase with rfl | rfl
    · exact congrArg (· + 1) hmarkers
    · trivial
  · intro key row hrow
    rcases writePlans_stamp hrow with hnew | hold
    · exact hnew.le
    · exact (h.rows key row hold).trans (Nat.le_succ _)
  · intro stamp hstamp
    have hle : stamp ≤ s.clock := by
      rcases List.mem_append.mp hstamp with hold | hnew
      · exact (h.converted stamp hold).1
      · obtain ⟨plan, -, hrow⟩ := List.mem_filterMap.mp hnew
        obtain ⟨row, hget, rfl⟩ := Option.map_eq_some_iff.mp hrow
        exact h.rows plan.key row hget
    refine ⟨hle.trans (Nat.le_succ _), ?_⟩
    rintro time ⟨⟩
    exact hle
  · exact Or.inr ⟨congrArg (· + 1) hmarkers, Option.some_ne_none _⟩

/-- A rotation commits. -/
theorem Dated.rewrite (h : Dated s) {plans : List (Plan K M P V)} {writes : K → ℕ}
    (hplans : ∀ plan ∈ plans, plan.blob.isLegacy = true →
      plan.stamp ≤ s.clock ∧ ∀ time, s.markedAt = some time → plan.stamp ≤ time)
    (hphase : phase = .rotated ∨ phase = .failed) :
    Dated ((s.rewrite plans writes).goTo call phase) := by
  have hlater (other : ℕ) : Later s (s.rewrite plans writes) other :=
    ⟨Nat.le_succ _, id, fun _ htime => Or.inl htime, fun hholder => ⟨hholder, rfl⟩⟩
  refine h.goTo ?_ (fun other _ => hlater other) ?_ ?_ ?_ h.marked
  · rfl
  · rcases hphase with rfl | rfl
    · trivial
    · trivial
  · intro key row hrow
    rcases writePlans_stamp hrow with hnew | hold
    · exact hnew.le
    · exact (h.rows key row hold).trans (Nat.le_succ _)
  · intro stamp hstamp
    apply (hlater call).before
    rcases List.mem_append.mp hstamp with hold | hnew
    · exact h.converted stamp hold
    · obtain ⟨plan, hplan, rfl⟩ := List.mem_map.mp hnew
      obtain ⟨hmem, hlegacy⟩ := List.mem_filter.mp hplan
      exact hplans plan hmem hlegacy

/-- A row is written or deleted. -/
theorem Dated.of_row (h : Dated s) (hphase : s'.phase = s.phase) (hlater : ∀ call, Later s s' call)
    (hrows : ∀ key row, s'.rows.get key = some row → row.stamp ≤ s'.clock)
    (hconverted : s'.converted = s.converted) (hmarkers : s'.markers = s.markers)
    (hmarkedAt : s'.markedAt = s.markedAt) : Dated s' := by
  constructor
  · intro call
    rw [hphase]
    exact (h.phases call).later (hlater call)
  · exact hrows
  · rw [hconverted]
    exact fun stamp hstamp => (hlater 0).before (h.converted stamp hstamp)
  · rw [hmarkers, hmarkedAt]
    exact h.marked

theorem Dated.write (h : Dated s) (key : K) (value : Stored K M P V) (encrypted : Bool) :
    Dated (s.write key value encrypted) := by
  refine h.of_row ?_ (fun call => ⟨Nat.le_succ _, id, fun _ htime => Or.inl htime,
    fun hholder => ⟨hholder, rfl⟩⟩) ?_ ?_ ?_ ?_
  · rfl
  · intro other row hrow
    by_cases hother : other = key
    · subst hother
      rw [BindingState.write, OrderedMap.get_set_self, Option.some_inj] at hrow
      exact (congrArg SettingRow.stamp hrow).ge
    · rw [BindingState.write, OrderedMap.get_set_of_ne _ _ hother] at hrow
      exact (h.rows other row hrow).trans (Nat.le_succ _)
  · rfl
  · rfl
  · rfl

theorem Dated.delete (h : Dated s) (key : K) : Dated (s.delete key) := by
  refine h.of_row ?_ (fun call => ⟨le_rfl, id, fun _ htime => Or.inl htime,
    fun hholder => ⟨hholder, rfl⟩⟩) ?_ ?_ ?_ ?_
  · rfl
  · intro other row hrow
    by_cases hother : other = key
    · subst hother
      rw [BindingState.delete, OrderedMap.get_delete_self] at hrow
      exact absurd hrow (Option.some_ne_none row).symm
    · rw [BindingState.delete, OrderedMap.get_delete_of_ne _ hother] at hrow
      exact h.rows other row hrow
  · rfl
  · rfl
  · rfl

theorem Dated.start (rows : Rows K M P V) (recorded : Bool) : Dated (start rows recorded) := by
  constructor
  · exact fun _ => trivial
  · intro key row hrow
    have hmem : row.stamp ∈ rows.entries.map fun row => row.2.stamp :=
      List.mem_map.mpr ⟨(key, row), OrderedMap.get_eq_some.mp hrow, rfl⟩
    exact List.le_sum_of_mem hmem
  · exact fun stamp hstamp => absurd hstamp List.not_mem_nil
  · cases recorded with
    | false => exact Or.inl ⟨rfl, rfl⟩
    | true => exact Or.inr ⟨rfl, Option.some_ne_none _⟩

end BindingState

/-! ## Opening -/

variable [DecidableEq M] {blob : Stored K M P V} {master next previous : M} {recorded : Bool}
  {plans : List (Plan K M P V)}

theorem content_of_decryptJson {key : K} {plain : P}
    (h : decryptJson master key blob = some plain) : blob.content key = .secret plain := by
  cases blob with
  | v2 sealed row iv p =>
    simp only [decryptJson, Option.ite_none_right_eq_some, Option.some_inj] at h
    obtain ⟨⟨-, rfl⟩, rfl⟩ := h
    exact if_pos rfl
  | v1 sealed iv p => simp [decryptJson] at h
  | other value => simp [decryptJson] at h

theorem content_of_decryptLegacySetting {key : K} {plain : P}
    (h : decryptLegacySetting master key blob = some plain) : blob.content key = .secret plain := by
  cases blob with
  | v1 sealed iv p =>
    simp only [decryptLegacySetting, Option.ite_none_right_eq_some, Option.some_inj] at h
    obtain ⟨-, rfl⟩ := h
    rfl
  | v2 sealed row iv p => exact content_of_decryptJson h
  | other value => simp [decryptLegacySetting, decryptJson] at h

theorem content_of_rotationDecrypt {key : K} {plain : P}
    (h : rotationDecrypt recorded previous key blob = some plain) :
    blob.content key = .secret plain := by
  unfold rotationDecrypt at h
  split at h
  · exact content_of_decryptJson h
  · exact content_of_decryptLegacySetting h

/-- Once the binding is recorded, a rotation opens no `v1` blob. -/
theorem not_legacy_of_rotationDecrypt {key : K} {plain : P}
    (h : rotationDecrypt true previous key blob = some plain) : blob.isLegacy = false := by
  cases blob with
  | v1 sealed iv p => simp [rotationDecrypt, decryptJson] at h
  | v2 sealed row iv p => rfl
  | other value => rfl

theorem decryptJson_encryptJson (master : M) (key : K) (iv : ℕ) (plain : P) :
    decryptJson master key (encryptJson master key iv plain : Stored K M P V) = some plain := by
  simp [decryptJson, encryptJson]

/-! ## A rotation by itself -/

/-- Every encrypted row is open under the next key with the plaintext it had, and every other row is
as it was. -/
structure Resealed (rows rotated : Rows K M P V) (recorded : Bool) (previous next : M) : Prop where
  sealed : ∀ key row, rows.get key = some row → row.encrypted = true →
    ∃ plain row', rotationDecrypt recorded previous key row.value = some plain ∧
      rotated.get key = some row' ∧ row'.encrypted = true ∧
      decryptJson next key row'.value = some plain
  others : ∀ key row, rows.get key = some row → row.encrypted = false → rotated.get key = some row
  absent : ∀ key, rows.get key = none → rotated.get key = none

theorem rotationPlans_nodup {rows : Rows K M P V} {iv : K → ℕ}
    (h : rotationPlans rows recorded previous next iv = .ok plans) :
    (plans.map Plan.key).Nodup := by
  obtain ⟨-, rfl⟩ := planRows_ok h
  apply (keys_plans _).nodup
  exact (List.filter_sublist.map Prod.fst).nodup rows.distinct

theorem mem_rotationPlans {rows : Rows K M P V} {iv : K → ℕ}
    (h : rotationPlans rows recorded previous next iv = .ok plans) {plan : Plan K M P V}
    (hplan : plan ∈ plans) :
    ∃ row, rows.get plan.key = some row ∧ row.encrypted = true ∧ ∃ plain,
      rotationDecrypt recorded previous plan.key row.value = some plain ∧
      plan = ⟨plan.key, row.value, encryptJson next plan.key (iv plan.key) plain, row.stamp⟩ := by
  obtain ⟨-, rfl⟩ := planRows_ok h
  obtain ⟨⟨key, row⟩, hrow, plain, hplain, rfl⟩ := mem_plans hplan
  obtain ⟨hmem, hencrypted⟩ := List.mem_filter.mp hrow
  exact ⟨row, OrderedMap.get_eq_some.mpr hmem, hencrypted, plain, hplain, rfl⟩

theorem resealed_of_rotationPlans {rows : Rows K M P V} {iv : K → ℕ}
    (h : rotationPlans rows recorded previous next iv = .ok plans) (stamp : ℕ) :
    Resealed rows (writePlans rows stamp plans) recorded previous next := by
  have hnodup := rotationPlans_nodup h
  have hmem (key : K) (hkey : key ∈ plans.map Plan.key) :
      ∃ row, rows.get key = some row ∧ row.encrypted = true := by
    obtain ⟨plan, hplan, rfl⟩ := List.mem_map.mp hkey
    obtain ⟨row, hrow, hencrypted, -⟩ := mem_rotationPlans h hplan
    exact ⟨row, hrow, hencrypted⟩
  constructor
  · intro key row hrow hencrypted
    have hlisted : (key, row) ∈ rows.entries.filter fun row => row.2.encrypted :=
      List.mem_filter.mpr ⟨OrderedMap.get_eq_some.mp hrow, hencrypted⟩
    obtain ⟨hopen, hplans⟩ := planRows_ok h
    obtain ⟨plain, hplain⟩ := Option.ne_none_iff_exists'.mp (hopen _ hlisted)
    have hplan : ⟨key, row.value, encryptJson next key (iv key) plain, row.stamp⟩ ∈ plans := by
      rw [hplans]
      exact List.mem_filterMap.mpr ⟨_, hlisted, by simp [planRow, hplain]⟩
    exact ⟨plain, _, hplain, writePlans_get_of_mem rows hnodup hplan, rfl,
      decryptJson_encryptJson next key (iv key) plain⟩
  · intro key row hrow hencrypted
    rw [writePlans_get_of_not_mem rows, hrow]
    intro hkey
    obtain ⟨other, hother, htrue⟩ := hmem key hkey
    obtain rfl : row = other := Option.some_inj.mp (hrow.symm.trans hother)
    rw [hencrypted] at htrue
    exact Bool.false_ne_true htrue
  · intro key hnone
    rw [writePlans_get_of_not_mem rows, hnone]
    intro hkey
    obtain ⟨row, hrow, -⟩ := hmem key hkey
    rw [hnone] at hrow
    exact Option.some_ne_none row hrow.symm

/-- A rotation by itself fails on a row that does not open, or seals every row again. -/
theorem rotateEncryptedSettings_spec (rows : Rows K M P V) (recorded : Bool) (previous next : M)
    (iv : K → ℕ) (stamp : ℕ) :
    (∃ keys, rotateEncryptedSettings rows recorded previous next iv stamp = .error keys ∧
      ∃ key row, rows.get key = some row ∧ row.encrypted = true ∧
        rotationDecrypt recorded previous key row.value = none) ∨
    ∃ rotated, rotateEncryptedSettings rows recorded previous next iv stamp = .ok rotated ∧
      Resealed rows rotated recorded previous next := by
  unfold rotateEncryptedSettings
  cases hplans : rotationPlans rows recorded previous next iv with
  | error keys =>
    obtain ⟨⟨key, row⟩, hrow, hnone⟩ := planRows_error hplans
    obtain ⟨hmem, hencrypted⟩ := List.mem_filter.mp hrow
    exact Or.inl ⟨keys, rfl, key, row, OrderedMap.get_eq_some.mpr hmem, hencrypted, hnone⟩
  | ok plans => exact Or.inr ⟨_, rfl, resealed_of_rotationPlans hplans stamp⟩

namespace BindingState

variable [DecidableEq P] [DecidableEq V]

/-! ## Steps -/

/-- What a call relies on. -/
def PhaseGood (s : BindingState K M P V) (call : ℕ) : Phase K M P V → Prop
  | .listed _ legacy => (legacy.map Prod.fst).Nodup
  | .planned plans => (plans.map Plan.key).Nodup ∧ ∀ plan ∈ plans, plan.Faithful
  | .replacing bound rest =>
    ((bound ++ rest).map Plan.key).Nodup ∧ (∀ plan ∈ bound ++ rest, plan.Faithful) ∧
      ∀ plan ∈ bound, s.locked plan.key = some call ∧ s.matchesPlan plan = true
  | .rotating _ _ rows writes =>
    ∀ key, writes key ≤ s.writes key ∧
      (s.writes key = writes key → s.contentAt key = (rows.get key).map (SettingRow.content key))
  | .rewriting rows plans writes =>
    (plans.map Plan.key).Nodup ∧
      (∀ plan ∈ plans, plan.Faithful ∧
        (rows.get plan.key).map (SettingRow.content plan.key) = some (plan.blob.content plan.key)) ∧
      ∀ key, writes key ≤ s.writes key ∧
        (s.writes key = writes key → s.contentAt key = (rows.get key).map (SettingRow.content key))
  | _ => True

variable {call : ℕ} {phase : Phase K M P V} {s s' : BindingState K M P V}

theorem PhaseGood.frame (hframe : Frame s s' call) (h : s.PhaseGood call phase) :
    s'.PhaseGood call phase := by
  cases phase with
  | replacing bound rest =>
    obtain ⟨hnodup, hfaithful, hbound⟩ := h
    refine ⟨hnodup, hfaithful, fun plan hplan => ?_⟩
    obtain ⟨hlocked, hmatches⟩ := hbound plan hplan
    obtain ⟨hlocked', hrow⟩ := hframe.locked plan.key hlocked
    refine ⟨hlocked', ?_⟩
    unfold matchesPlan at hmatches ⊢
    rwa [hrow]
  | rotating previous next rows writes => exact hframe.read h
  | rewriting rows plans writes => exact ⟨h.1, h.2.1, hframe.read h.2.2⟩
  | idle => trivial
  | acquired master => trivial
  | listed master legacy => exact h
  | planned plans => exact h
  | finished => trivial
  | rotated => trivial
  | failed => trivial

/-- Every call is as it relies on, and a row that no rotation has overwritten holds what was saved
last. -/
structure Good (s : BindingState K M P V) : Prop where
  phases : ∀ call, s.PhaseGood call (s.phase call)
  saved : ∀ key, s.overwritten key = false → s.contentAt key = s.saved key

/-- Only its own call and the rows it writes change. -/
theorem Good.goTo (h : Good s) (hphase : s'.phase = s.phase)
    (hframe : ∀ other, other ≠ call → Frame s s' other) (hgood : s'.PhaseGood call phase)
    (hsaved : ∀ key, s'.overwritten key = false → s'.contentAt key = s'.saved key) :
    Good (s'.goTo call phase) := by
  constructor
  · intro other
    have hrest : (s'.goTo call phase).phase = Function.update s'.phase call phase := rfl
    rw [hrest]
    by_cases hother : other = call
    · subst hother
      rw [Function.update_self]
      exact hgood
    · rw [Function.update_of_ne hother, hphase]
      have hother' : s'.PhaseGood other (s.phase other) :=
        (h.phases other).frame (hframe other hother)
      exact hother'
  · exact hsaved

/-- A step that changes neither rows nor locks. -/
theorem Good.move (h : Good s) (hphase : s'.phase = s.phase) (hrows : s'.rows = s.rows)
    (hlocked : s'.locked = s.locked) (hwrites : s'.writes = s.writes) (hsaved : s'.saved = s.saved)
    (hoverwritten : s'.overwritten = s.overwritten) (hgood : s'.PhaseGood call phase) :
    Good (s'.goTo call phase) := by
  apply h.goTo hphase (fun other _ => Frame.of_same hrows hlocked hwrites other) hgood
  intro key hkey
  rw [hoverwritten] at hkey
  rw [contentAt, hrows, hsaved]
  exact h.saved key hkey

/-- One free row changes, to what was saved last. -/
theorem Good.row (h : Good s) {key : K} (hfree : s.locked key = none) (hphase : s'.phase = s.phase)
    (hrows : ∀ other, other ≠ key → s'.rows.get other = s.rows.get other)
    (hlocked : s'.locked = s.locked)
    (hwrites : s'.writes = Function.update s.writes key (s.writes key + 1))
    (hkey : s'.contentAt key = s'.saved key)
    (hsaved : ∀ other, other ≠ key → s'.saved other = s.saved other)
    (hover : ∀ other, other ≠ key → s'.overwritten other = s.overwritten other) : Good s' := by
  constructor
  · intro call
    rw [hphase]
    exact (h.phases call).frame (Frame.of_row hfree hrows hlocked hwrites call)
  · intro other hfalse
    by_cases hne : other = key
    · exact hne ▸ hkey
    · rw [contentAt, hrows other hne, hsaved other hne]
      exact h.saved other (hover other hne ▸ hfalse)

/-- A row is saved or injected. -/
theorem Good.write (h : Good s) {key : K} (hfree : s.locked key = none) (value : Stored K M P V)
    (encrypted : Bool) : Good (s.write key value encrypted) := by
  refine h.row hfree rfl (fun _ hne => OrderedMap.get_set_of_ne s.rows _ hne) rfl rfl ?_
    (fun _ hne => Function.update_of_ne hne _ _) fun _ hne => Function.update_of_ne hne _ _
  simp [contentAt, BindingState.write, OrderedMap.get_set_self]

theorem Good.delete (h : Good s) {key : K} (hfree : s.locked key = none) : Good (s.delete key) := by
  refine h.row hfree rfl (fun _ hne => OrderedMap.get_delete_of_ne s.rows hne) rfl rfl ?_
    (fun _ hne => Function.update_of_ne hne _ _) fun _ hne => Function.update_of_ne hne _ _
  simp [contentAt, BindingState.delete, OrderedMap.get_delete_self]

/-- A row that a plan matches holds the same when it holds what the plan says. -/
theorem contentAt_bind {bound : List (Plan K M P V)} (hnodup : (bound.map Plan.key).Nodup)
    (hfaithful : ∀ plan ∈ bound, plan.Faithful)
    (hmatches : ∀ plan ∈ bound, s.matchesPlan plan = true) (key : K) :
    (s.bind bound).contentAt key = s.contentAt key := by
  have hrows : (s.bind bound).rows = writePlans s.rows (s.clock + 1) bound := rfl
  rw [contentAt, contentAt, hrows]
  by_cases hkey : key ∈ bound.map Plan.key
  · obtain ⟨plan, hplan, rfl⟩ := List.mem_map.mp hkey
    have hmatch := hmatches plan hplan
    unfold matchesPlan at hmatch
    rw [writePlans_get_of_mem s.rows hnodup hplan]
    cases hrow : s.rows.get plan.key with
    | none => simp [hrow] at hmatch
    | some row =>
      simp only [hrow, Bool.and_eq_true, decide_eq_true_eq] at hmatch
      rw [Option.map_some, Option.map_some, SettingRow.content_of_encrypted rfl,
        SettingRow.content_of_encrypted hmatch.1, hmatch.2, (hfaithful plan hplan).content]
  · rw [writePlans_get_of_not_mem s.rows hkey]

omit [DecidableEq K] [DecidableEq M] [DecidableEq P] [DecidableEq V] in
theorem of_guard {p : Prop} [Decidable p] (h : (if p then some s else none) = some s') :
    p ∧ s = s' := by
  obtain ⟨hp, hs⟩ := Option.ite_none_right_eq_some.mp h
  exact ⟨hp, Option.some_inj.mp hs⟩

theorem Good.advance (h : Good s) {iv : K → ℕ} {acknowledged : Bool}
    (hstep : s.advance call iv acknowledged = some s') : Good s' := by
  have hgood := h.phases call
  unfold BindingState.advance at hstep
  cases hphase : s.phase call with
  | idle => simp [hphase] at hstep
  | finished => simp [hphase] at hstep
  | rotated => simp [hphase] at hstep
  | failed => simp [hphase] at hstep
  | acquired master =>
    simp only [hphase, Option.some_inj] at hstep
    subst hstep
    apply h.move rfl rfl rfl rfl rfl rfl
    exact (List.filter_sublist.map Prod.fst).nodup s.rows.distinct
  | listed master legacy =>
    rw [hphase] at hgood
    simp only [hphase] at hstep
    split at hstep
    · obtain rfl := Option.some_inj.mp hstep
      exact h.move rfl rfl rfl rfl rfl rfl trivial
    · cases hplans : planRows (decryptLegacySetting master) master iv legacy with
      | error keys =>
        simp only [hplans, Option.some_inj] at hstep
        subst hstep
        exact h.move rfl rfl rfl rfl rfl rfl trivial
      | ok plans =>
        simp only [hplans, Option.some_inj] at hstep
        subst hstep
        obtain ⟨-, rfl⟩ := planRows_ok hplans
        apply h.move rfl rfl rfl rfl rfl rfl
        refine ⟨(keys_plans legacy).nodup hgood, fun plan hplan => ?_⟩
        obtain ⟨row, hrow, plain, hplain, rfl⟩ := mem_plans hplan
        exact ⟨master, _, plain, rfl, content_of_decryptLegacySetting hplain⟩
  | planned plans =>
    rw [hphase] at hgood
    simp only [hphase] at hstep
    split at hstep
    · obtain rfl := Option.some_inj.mp hstep
      exact h.move rfl rfl rfl rfl rfl rfl trivial
    · obtain rfl := Option.some_inj.mp hstep
      apply h.move rfl rfl rfl rfl rfl rfl
      exact ⟨hgood.1, hgood.2, by simp⟩
  | replacing bound rest =>
    rw [hphase] at hgood
    obtain ⟨hnodup, hfaithful, hbound⟩ := hgood
    cases rest with
    | nil =>
      rw [List.append_nil] at hnodup hfaithful
      simp only [hphase] at hstep
      split at hstep
      · obtain rfl := Option.some_inj.mp hstep
        have hcontent := contentAt_bind hnodup hfaithful fun plan hplan => (hbound plan hplan).2
        have hend : ((s.bind bound).unlock call).PhaseGood call
            (if acknowledged then .finished else .failed) := by
          split <;> trivial
        refine h.goTo ?_ ?_ hend ?_
        · rfl
        · intro other hne
          refine Frame.of_unlock ?_ hne ?_ ?_ hcontent
          · rfl
          · intro key hkey
            apply writePlans_get_of_not_mem
            intro hmem
            obtain ⟨plan, hplan, rfl⟩ := List.mem_map.mp hmem
            rw [(hbound plan hplan).1] at hkey
            exact hne (Option.some_inj.mp hkey).symm
          · rfl
        · intro key hfalse
          exact (hcontent key).trans (h.saved key hfalse)
      · obtain rfl := Option.some_inj.mp hstep
        refine h.goTo ?_ (fun other hne => ?_) trivial h.saved
        · rfl
        · exact Frame.of_unlock rfl hne (fun _ _ => rfl) rfl fun _ => rfl
    | cons plan rest =>
      simp only [hphase] at hstep
      split at hstep
      · simp at hstep
      · rename_i hfree
        have hfree : s.locked plan.key = none := not_not.mp hfree
        split at hstep
        · rename_i hmatches
          obtain rfl := Option.some_inj.mp hstep
          refine h.goTo ?_ (fun other _ => Frame.of_lock hfree) ?_ h.saved
          · rfl
          refine ⟨by simpa using hnodup, by simpa using hfaithful, fun other hother => ?_⟩
          rcases List.mem_append.mp hother with hold | hnew
          · obtain ⟨hlocked, hmatch⟩ := hbound other hold
            exact ⟨((Frame.of_lock hfree).locked other.key hlocked).1, hmatch⟩
          · obtain rfl := List.mem_singleton.mp hnew
            exact ⟨Function.update_self _ _ _, hmatches⟩
        · obtain rfl := Option.some_inj.mp hstep
          apply h.move rfl rfl rfl rfl rfl rfl
          have hsublist : (bound ++ rest).Sublist (bound ++ plan :: rest) :=
            (List.sublist_cons_self plan rest).append_left bound
          exact ⟨(hsublist.map Plan.key).nodup hnodup,
            fun other hother => hfaithful other (hsublist.subset hother), hbound⟩
  | rotating previous next rows writes =>
    rw [hphase] at hgood
    cases hplans : rotationPlans rows (decide (0 < s.markers)) previous next iv with
    | error keys =>
      simp only [hphase, hplans, Option.some_inj] at hstep
      subst hstep
      exact h.move rfl rfl rfl rfl rfl rfl trivial
    | ok plans =>
      simp only [hphase, hplans, Option.some_inj] at hstep
      subst hstep
      apply h.move rfl rfl rfl rfl rfl rfl
      refine ⟨rotationPlans_nodup hplans, fun plan hplan => ?_, hgood⟩
      obtain ⟨row, hrow, hencrypted, plain, hplain, heq⟩ := mem_rotationPlans hplans hplan
      have hblob : plan.blob = row.value := congrArg Plan.blob heq
      refine ⟨⟨next, _, plain, congrArg Plan.bound heq, ?_⟩, ?_⟩
      · rw [hblob]
        exact content_of_rotationDecrypt hplain
      · rw [hrow, Option.map_some, SettingRow.content_of_encrypted hencrypted, hblob]
  | rewriting rows plans writes =>
    rw [hphase] at hgood
    obtain ⟨hnodup, hplans, hread⟩ := hgood
    have hcontent (key : K) (hkept : s.overwrites plans writes key = false) :
        (s.rewrite plans writes).contentAt key = s.contentAt key :=
      contentAt_rewrite hnodup hplans (hread key).2 hkept
    simp only [hphase] at hstep
    split at hstep
    · simp at hstep
    · rename_i hfree
      obtain rfl := Option.some_inj.mp hstep
      have hend : (s.rewrite plans writes).PhaseGood call
          (if acknowledged then .rotated else .failed) := by
        split <;> trivial
      refine h.goTo ?_ ?_ hend ?_
      · rfl
      · intro other hne
        constructor
        · intro key hkey
          refine ⟨hkey, writePlans_get_of_not_mem s.rows fun hmem => ?_⟩
          obtain ⟨plan, hplan, rfl⟩ := List.mem_map.mp hmem
          exact hfree ⟨plan, hplan, by rw [hkey]; exact Option.some_ne_none other⟩
        · intro key
          simp only [BindingState.rewrite]
          split <;> omega
        · intro key hunchanged
          apply hcontent key
          by_contra hover
          simp only [BindingState.rewrite, Bool.eq_true_of_not_eq_false hover, if_true] at hunchanged
          omega
      · intro key hfalse
        obtain ⟨hbefore, hkept⟩ := Bool.or_eq_false_iff.mp hfalse
        exact (hcontent key hkept).trans (h.saved key hbefore)

theorem Dated.advance (h : Dated s) {iv : K → ℕ} {acknowledged : Bool}
    (hstep : s.advance call iv acknowledged = some s') : Dated s' := by
  have hdated := h.phases call
  unfold BindingState.advance at hstep
  cases hphase : s.phase call with
  | idle => simp [hphase] at hstep
  | finished => simp [hphase] at hstep
  | rotated => simp [hphase] at hstep
  | failed => simp [hphase] at hstep
  | acquired master =>
    simp only [hphase, Option.some_inj] at hstep
    subst hstep
    exact h.move trivial
  | listed master legacy =>
    simp only [hphase] at hstep
    split at hstep
    · rename_i hmarkers
      obtain rfl := Option.some_inj.mp hstep
      exact h.move (h.recorded hmarkers)
    · split at hstep
      · obtain rfl := Option.some_inj.mp hstep
        exact h.move trivial
      · obtain rfl := Option.some_inj.mp hstep
        exact h.move trivial
  | planned plans =>
    simp only [hphase] at hstep
    split at hstep
    · rename_i hmarkers
      obtain rfl := Option.some_inj.mp hstep
      exact h.move (h.recorded hmarkers)
    · rename_i hmarkers
      obtain rfl := Option.some_inj.mp hstep
      exact h.move fun _ => Nat.eq_zero_of_not_pos hmarkers
  | replacing bound rest =>
    rw [hphase] at hdated
    cases rest with
    | nil =>
      simp only [hphase] at hstep
      split at hstep
      · rename_i hholder
        obtain rfl := Option.some_inj.mp hstep
        apply h.bind hholder (hdated hholder)
        cases acknowledged with
        | true => exact Or.inl rfl
        | false => exact Or.inr rfl
      · obtain rfl := Option.some_inj.mp hstep
        exact h.goTo rfl (fun other _ => Later.unlock s call other) trivial h.rows h.converted
          h.marked
    | cons plan rest =>
      simp only [hphase] at hstep
      split at hstep
      · simp at hstep
      · split at hstep
        · obtain rfl := Option.some_inj.mp hstep
          exact h.goTo rfl (fun other _ => Later.lock s plan.key call other) hdated h.rows
            h.converted h.marked
        · obtain rfl := Option.some_inj.mp hstep
          exact h.move hdated
  | rotating previous next rows writes =>
    rw [hphase] at hdated
    cases hplans : rotationPlans rows (decide (0 < s.markers)) previous next iv with
    | error keys =>
      simp only [hphase, hplans, Option.some_inj] at hstep
      subst hstep
      exact h.move trivial
    | ok plans =>
      simp only [hphase, hplans, Option.some_inj] at hstep
      subst hstep
      apply h.move
      intro plan hplan hlegacy
      obtain ⟨row, hrow, -, plain, hplain, heq⟩ := mem_rotationPlans hplans hplan
      have hstamp : plan.stamp = row.stamp := congrArg Plan.stamp heq
      refine ⟨hstamp ▸ hdated plan.key row hrow, fun time htime => ?_⟩
      -- with the binding recorded it would not have opened
      exfalso
      by_cases hmarkers : 0 < s.markers
      · rw [decide_eq_true hmarkers] at hplain
        have hblob : plan.blob = row.value := congrArg Plan.blob heq
        rw [hblob, not_legacy_of_rotationDecrypt hplain] at hlegacy
        exact Bool.false_ne_true hlegacy
      · rw [h.unrecorded (Nat.eq_zero_of_not_pos hmarkers)] at htime
        exact Option.some_ne_none time htime.symm
  | rewriting rows plans writes =>
    rw [hphase] at hdated
    simp only [hphase] at hstep
    split at hstep
    · simp at hstep
    · obtain rfl := Option.some_inj.mp hstep
      apply h.rewrite hdated
      cases acknowledged with
      | true => exact Or.inl rfl
      | false => exact Or.inr rfl

theorem Good.step (h : Good s) {event : BindingEvent K M P V} (hstep : s.step event = some s') :
    Good s' := by
  cases event with
  | bind call master =>
    simp only [BindingState.step] at hstep
    split at hstep
    · obtain rfl := Option.some_inj.mp hstep
      refine h.move ?_ ?_ ?_ ?_ ?_ ?_ trivial <;> rfl
    · simp at hstep
  | rotate call previous next =>
    simp only [BindingState.step] at hstep
    split at hstep
    · obtain rfl := Option.some_inj.mp hstep
      apply h.move rfl rfl rfl rfl rfl rfl
      exact fun key => ⟨le_rfl, fun _ => rfl⟩
    · simp at hstep
  | advance call iv acknowledged => exact h.advance hstep
  | fail call =>
    obtain ⟨-, rfl⟩ := of_guard hstep
    refine h.goTo ?_ (fun other hne => ?_) trivial h.saved
    · rfl
    · exact Frame.of_unlock rfl hne (fun _ _ => rfl) rfl fun _ => rfl
  | save key master iv plain =>
    obtain ⟨hfree, rfl⟩ := of_guard hstep
    exact h.write hfree _ _
  | saveUnencrypted key value =>
    obtain ⟨hfree, rfl⟩ := of_guard hstep
    exact h.write hfree _ _
  | delete key =>
    obtain ⟨hfree, rfl⟩ := of_guard hstep
    exact h.delete hfree
  | inject key master iv plain =>
    obtain ⟨hfree, rfl⟩ := of_guard hstep
    exact h.write hfree _ _

theorem Dated.step (h : Dated s) {event : BindingEvent K M P V} (hstep : s.step event = some s') :
    Dated s' := by
  cases event with
  | bind call master =>
    simp only [BindingState.step] at hstep
    split at hstep
    · obtain rfl := Option.some_inj.mp hstep
      refine h.goTo ?_ (fun other hne => ?_) trivial h.rows h.converted h.marked
      · rfl
      -- whoever had the lease has lost it
      · exact ⟨le_rfl, id, fun _ htime => Or.inl htime,
          fun hother => absurd (Option.some_inj.mp hother).symm hne⟩
    · simp at hstep
  | rotate call previous next =>
    simp only [BindingState.step] at hstep
    split at hstep
    · obtain rfl := Option.some_inj.mp hstep
      exact h.move h.rows
    · simp at hstep
  | advance call iv acknowledged => exact h.advance hstep
  | fail call =>
    obtain ⟨-, rfl⟩ := of_guard hstep
    exact h.goTo rfl (fun other _ => Later.unlock s call other) trivial h.rows h.converted h.marked
  | save key master iv plain =>
    obtain ⟨-, rfl⟩ := of_guard hstep
    exact h.write key _ _
  | saveUnencrypted key value =>
    obtain ⟨-, rfl⟩ := of_guard hstep
    exact h.write key _ _
  | delete key =>
    obtain ⟨-, rfl⟩ := of_guard hstep
    exact h.delete key
  | inject key master iv plain =>
    obtain ⟨-, rfl⟩ := of_guard hstep
    exact h.write key _ _

theorem Good.start (rows : Rows K M P V) (recorded : Bool) : Good (start rows recorded) where
  phases := fun _ => trivial
  saved := fun _ _ => rfl

/-- What every event keeps, every run keeps. -/
theorem run_induction {I : BindingState K M P V → Prop}
    (hstep : ∀ s (event : BindingEvent K M P V) s', I s → s.step event = some s' → I s')
    {events : List (BindingEvent K M P V)} (h : I s) (hrun : s.run events = some s') : I s' := by
  induction events generalizing s with
  | nil =>
    obtain rfl := Option.some_inj.mp hrun
    exact h
  | cons event events ih =>
    obtain ⟨next, hnext, hrest⟩ := Option.bind_eq_some_iff.mp hrun
    exact ih (hstep _ _ _ h hnext) hrest

theorem Good.run (h : Good s) {events : List (BindingEvent K M P V)}
    (hrun : s.run events = some s') : Good s' :=
  run_induction (fun _ _ _ h => h.step) h hrun

theorem Dated.run (h : Dated s) {events : List (BindingEvent K M P V)}
    (hrun : s.run events = some s') : Dated s' :=
  run_induction (fun _ _ _ h => h.step) h hrun

/-! ## Rotation and binding -/

/-- With nothing else going on, a rotation leaves what `rotateEncryptedSettings` says. -/
theorem run_rotate (hidle : s.phase call = .idle) (hfree : ∀ key, s.locked key = none)
    (previous next : M) (iv : K → ℕ) {rotated : Rows K M P V}
    (h : rotateEncryptedSettings s.rows (decide (0 < s.markers)) previous next iv (s.clock + 1) =
      .ok rotated) :
    ∃ s', s.run [.rotate call previous next, .advance call iv true, .advance call iv true] =
      some s' ∧ s'.rows = rotated := by
  unfold rotateEncryptedSettings at h
  cases hplans : rotationPlans s.rows (decide (0 < s.markers)) previous next iv with
  | error keys => simp [hplans, Except.map] at h
  | ok plans =>
    simp only [hplans, Except.map, Except.ok.injEq] at h
    let read := s.goTo call (.rotating previous next s.rows s.writes)
    let prepared := read.goTo call (.rewriting s.rows plans s.writes)
    have hread : s.step (.rotate call previous next) = some read := by
      simp only [BindingState.step, hidle]
      rfl
    have hreading : read.phase call = .rotating previous next s.rows s.writes :=
      Function.update_self _ _ _
    have hplans' : rotationPlans s.rows (decide (0 < read.markers)) previous next iv = .ok plans :=
      hplans
    have hprepare : read.step (.advance call iv true) = some prepared := by
      simp only [BindingState.step, BindingState.advance, hreading, hplans']
      rfl
    have hprepared : prepared.phase call = .rewriting s.rows plans s.writes :=
      Function.update_self _ _ _
    have hopen : ¬∃ plan ∈ plans, prepared.locked plan.key ≠ none := by
      rintro ⟨plan, -, hlocked⟩
      exact hlocked (hfree plan.key)
    have hcommit : prepared.step (.advance call iv true) =
        some ((prepared.rewrite plans s.writes).goTo call .rotated) := by
      simp only [BindingState.step, BindingState.advance, hprepared, if_neg hopen, if_true]
    refine ⟨(prepared.rewrite plans s.writes).goTo call .rotated, ?_, h⟩
    simp [BindingState.run, List.foldlM_cons, hread, hprepare, hcommit]

/-- Nothing that was written after the binding was recorded is converted, a row that no rotation has
overwritten holds what was saved in it last, and a binding that has completed is recorded once. A
rotation by itself changes no row or seals every one again. -/
theorem binding_and_rotation_keep_secrets {rows : Rows K M P V} {recorded : Bool}
    {events : List (BindingEvent K M P V)} {s : BindingState K M P V}
    (h : (BindingState.start rows recorded).run events = some s) :
    (∀ stamp ∈ s.converted, ∀ time, s.markedAt = some time → stamp ≤ time) ∧
    (∀ key, s.overwritten key = false → s.contentAt key = s.saved key) ∧
    s.markers ≤ 1 ∧ (∀ call, s.phase call = .finished → s.markers = 1) ∧
    ∀ (previous next : M) (iv : K → ℕ) (stamp : ℕ),
      (∃ keys, rotateEncryptedSettings s.rows (decide (0 < s.markers)) previous next iv stamp =
          .error keys ∧
        ∃ key row, s.rows.get key = some row ∧ row.encrypted = true ∧
          rotationDecrypt (decide (0 < s.markers)) previous key row.value = none) ∨
      ∃ rotated, rotateEncryptedSettings s.rows (decide (0 < s.markers)) previous next iv stamp =
          .ok rotated ∧ Resealed s.rows rotated (decide (0 < s.markers)) previous next := by
  have hgood := (Good.start rows recorded).run h
  have hdated := (Dated.start rows recorded).run h
  refine ⟨fun stamp hstamp => (hdated.converted stamp hstamp).2, hgood.saved, ?_, ?_, ?_⟩
  · rcases hdated.marked with hnone | hone
    · omega
    · omega
  · intro call hfinished
    have hcall := hdated.phases call
    rw [hfinished] at hcall
    exact hcall
  · exact fun previous next iv stamp =>
      rotateEncryptedSettings_spec s.rows (decide (0 < s.markers)) previous next iv stamp

/-- An old blob is bound, another one is written after that and refused, and a save survives. -/
theorem injected_blob_is_refused :
    let rows : Rows Bool Bool Bool Unit := OrderedMap.empty.set true ⟨.v1 false 0 true, true, 0⟩
    let events : List (BindingEvent Bool Bool Bool Unit) :=
      [.bind 0 false, .advance 0 (fun _ => 1) true, .advance 0 (fun _ => 1) true,
        .advance 0 (fun _ => 1) true, .advance 0 (fun _ => 1) true, .advance 0 (fun _ => 1) true,
        .inject false false 0 true, .save true false 2 false]
    ∃ s, (BindingState.start rows false).run events = some s ∧ s.converted = [0] ∧ s.markers = 1 ∧
      s.contentAt true = some (.secret false) ∧
      (∀ stamp ∈ s.converted, ∀ time, s.markedAt = some time → stamp ≤ time) ∧
      ∃ keys, rotateEncryptedSettings s.rows true false true (fun _ => 3) 9 = .error keys := by
  intro rows events
  refine ⟨_, rfl, by decide, by decide, by decide, ?_, ⟨[false], rfl⟩⟩
  exact (@binding_and_rotation_keep_secrets Bool Bool Bool Unit _ _ _ _ rows false events _ rfl).1

/-- A rotation reads, a secret is saved, and the rotation puts the old one back. -/
theorem rotation_overwrites_save :
    let rows : Rows Bool Bool Bool Unit := OrderedMap.empty.set true ⟨.v2 false true 0 false, true, 0⟩
    let events : List (BindingEvent Bool Bool Bool Unit) :=
      [.rotate 0 false true, .advance 0 (fun _ => 1) true, .save true false 2 true,
        .advance 0 (fun _ => 1) true]
    ∃ s, (BindingState.start rows true).run events = some s ∧
      s.saved true = some (.secret true) ∧ s.contentAt true = some (.secret false) := by
  intro rows events
  exact ⟨_, rfl, by decide, by decide⟩

end BindingState

end FerrumNexus.Settings
