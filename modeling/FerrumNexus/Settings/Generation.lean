import Mathlib.Tactic

/-!
# Reading a setting together with the rows that belong to it

`readBoundToSetting` reads the anchor, lets the caller read through a store that
records what it answers, and reads every recorded row again. The committed rows
are a function of the instant: between two instants the writers have committed
whatever they like, any rows at once. The `n`-th read of a call sees the rows of an instant no
earlier than the one before it. The store records `settings.get` alone:
`getMany`, `all` and the reads of a transaction pass through it.
-/
namespace FerrumNexus.Settings

/-- An `app_settings` row, under its key. -/
structure SettingRecord (ν : Type) where
  value : ν
  encrypted : Bool
  created_at : String
  updated_at : String
  deriving DecidableEq, Repr

/-- Whether two reads of one row saw the same committed value. -/
def sameRow {ν : Type} [DecidableEq ν] : Option (SettingRecord ν) → Option (SettingRecord ν) → Bool
  | none, none => true
  | some a, some b =>
    a.updated_at == b.updated_at && a.encrypted == b.encrypted && decide (a.value = b.value)
  | _, _ => false

/-- The rows committed at each instant. -/
abbrev Committed (ν : Type) := ℕ → String → Option (SettingRecord ν)

/-- What a caller does with the store it is given. `unrecorded` is any other
read: it sees, of one instant, the rows under some keys. -/
inductive Reader (ν ε α : Type)
  | done (value : α)
  | throws (error : ε)
  | get (key : String) (next : Option (SettingRecord ν) → Reader ν ε α)
  | unrecorded (keys : String → Bool)
      (next : (String → Option (SettingRecord ν)) → Reader ν ε α)

/-- A recorded row. Which read of the call it was is for the statements alone. -/
structure Observation (ν : Type) where
  row : Option (SettingRecord ν)
  read : ℕ
  deriving DecidableEq, Repr

/-- The map `seen`, in insertion order, with every observation of a key. -/
abbrev Observations (ν : Type) := List (String × List (Observation ν))

def observe {ν : Type} (key : String) (row : Observation ν) : Observations ν → Observations ν
  | [] => [(key, [row])]
  | (k, rows) :: rest =>
    if k = key then (k, rows ++ [row]) :: rest else (k, rows) :: observe key row rest

/-- What an unrecorded read saw. The code keeps none of it. -/
structure Unrecorded (ν : Type) where
  keys : String → Bool
  rows : String → Option (SettingRecord ν)
  read : ℕ

/-- What the caller's reads came to, and how many reads the call has made. -/
structure Reading (ν ε α : Type) where
  result : Except ε α
  seen : Observations ν
  unrecorded : List (Unrecorded ν)
  reads : ℕ

/-- A round. `reads` counts the reads up to the first of its second reads, `ends`
those up to its last. -/
structure Attempt (ν ε α : Type) where
  result : Except ε α
  seen : Observations ν
  unrecorded : List (Unrecorded ν)
  unchanged : Bool
  reads : ℕ
  ends : ℕ

inductive Outcome (ε α : Type)
  | returned (value : α)
  | threw (error : ε)
  | conflict (message setting : String)
  deriving DecidableEq, Repr

variable {ν ε α : Type} [DecidableEq ν] (committed : Committed ν) (instant : ℕ → ℕ)

omit [DecidableEq ν] in
/-- The caller's reads through the recording store. -/
def Reader.run : Reader ν ε α → Observations ν → ℕ → Reading ν ε α
  | .done value, seen, n => ⟨.ok value, seen, [], n⟩
  | .throws error, seen, n => ⟨.error error, seen, [], n⟩
  | .get key next, seen, n =>
    let row := committed (instant n) key
    (next row).run (observe key ⟨row, n⟩ seen) (n + 1)
  | .unrecorded keys next, seen, n =>
    let rows := fun key => if keys key then committed (instant n) key else none
    let reading := (next rows).run seen (n + 1)
    { reading with unrecorded := ⟨keys, rows, n⟩ :: reading.unrecorded }

/-- The second read of every recorded row, up to the first that has changed. -/
def recheck : Observations ν → ℕ → Bool × ℕ
  | [], n => (true, n)
  | (key, rows) :: rest, n =>
    let current := committed (instant n) key
    if rows.all fun observed => sameRow observed.row current then recheck rest (n + 1) else (false, n + 1)

/-- One round of the loop, from the `n`-th read of the call on. -/
def attempt (key : String) (read : Option (SettingRecord ν) → Reader ν ε α) (n : ℕ) :
    Attempt ν ε α :=
  let anchor := committed (instant n) key
  let reading := (read anchor).run committed instant [(key, [⟨anchor, n⟩])] (n + 1)
  match reading.result with
  | .error error =>
    ⟨.error error, reading.seen, reading.unrecorded, false, reading.reads, reading.reads⟩
  | .ok value =>
    let checked := recheck committed instant reading.seen reading.reads
    ⟨.ok value, reading.seen, reading.unrecorded, checked.1, reading.reads, checked.2⟩

def SETTING_GENERATION_ATTEMPTS : ℕ := 5

/-- The loop, with `attempts` rounds left. What the caller does in a round may
depend on the rest of the world, so `read` is given the round. -/
def attemptsFrom (key : String) (read : ℕ → Option (SettingRecord ν) → Reader ν ε α) :
    ℕ → ℕ → ℕ → Outcome ε α
  | 0, _, _ =>
    .conflict (s!"The {key} setting kept changing while it was being read; retry") key
  | attempts + 1, i, n =>
    let a := attempt committed instant key (read i) n
    match a.result with
    | .error error => .threw error
    | .ok value =>
      if a.unchanged then .returned value else attemptsFrom key read attempts (i + 1) a.ends

def readBoundToSetting (key : String) (read : ℕ → Option (SettingRecord ν) → Reader ν ε α)
    (attempts : ℕ) : Outcome ε α :=
  attemptsFrom committed instant key read attempts 0 0

/-- The number of reads before round `i`. -/
def begins (key : String) (read : ℕ → Option (SettingRecord ν) → Reader ν ε α) : ℕ → ℕ
  | 0 => 0
  | i + 1 => (attempt committed instant key (read i) (begins key read i)).ends

/-! ## What was read, and what was read again -/

/-- Every observation is of a row committed at its read, one of those from `lo` to `hi`. -/
def Recorded (lo hi : ℕ) (seen : Observations ν) : Prop :=
  ∀ o ∈ seen, ∀ observed ∈ o.2, lo ≤ observed.read ∧ observed.read < hi ∧
    committed (instant observed.read) o.1 = observed.row

variable {committed instant} {seen : Observations ν}

omit [DecidableEq ν] in
theorem mem_observe {key : String} {row row' : Observation ν} {o : String × List (Observation ν)}
    (ho : o ∈ observe key row seen) (hrow : row' ∈ o.2) : (o.1 = key ∧ row' = row)
    ∨ ∃ o' ∈ seen, o'.1 = o.1 ∧ row' ∈ o'.2 := by
  induction seen with
  | nil =>
    rw [observe, List.mem_singleton] at ho
    subst ho
    exact Or.inl ⟨rfl, List.mem_singleton.mp hrow⟩
  | cons head rest ih =>
    obtain ⟨k, rows⟩ := head
    simp only [observe] at ho
    split_ifs at ho with hk
    · rcases List.mem_cons.mp ho with rfl | hrest
      · rcases List.mem_append.mp hrow with hold | hnew
        · exact Or.inr ⟨(k, rows), List.mem_cons_self, rfl, hold⟩
        · exact Or.inl ⟨hk, List.mem_singleton.mp hnew⟩
      · exact Or.inr ⟨o, List.mem_cons_of_mem _ hrest, rfl, hrow⟩
    · rcases List.mem_cons.mp ho with rfl | hrest
      · exact Or.inr ⟨(k, rows), List.mem_cons_self, rfl, hrow⟩
      · rcases ih hrest with hnew | ⟨o', ho', hkey, hmem⟩
        · exact Or.inl hnew
        · exact Or.inr ⟨o', List.mem_cons_of_mem _ ho', hkey, hmem⟩

omit [DecidableEq ν] in
theorem observe_ne_nil (key : String) (row : Observation ν) (seen : Observations ν) :
    observe key row seen ≠ [] := by
  cases seen with
  | nil => simp [observe]
  | cons head rest =>
    simp only [observe]
    split_ifs <;> simp

omit [DecidableEq ν] in
theorem Reader.run_recorded (reader : Reader ν ε α) {lo n : ℕ} (hlo : lo ≤ n)
    (hseen : Recorded committed instant lo n seen) (hne : seen ≠ []) :
    n ≤ (reader.run committed instant seen n).reads ∧
      Recorded committed instant lo (reader.run committed instant seen n).reads
        (reader.run committed instant seen n).seen ∧
      (reader.run committed instant seen n).seen ≠ [] := by
  induction reader generalizing seen n with
  | done value => exact ⟨le_refl n, hseen, hne⟩
  | throws error => exact ⟨le_refl n, hseen, hne⟩
  | get key next ih =>
    have hnext : Recorded committed instant lo (n + 1)
        (observe key ⟨committed (instant n) key, n⟩ seen) := by
      intro o ho observed hobserved
      rcases mem_observe ho hobserved with ⟨hkey, rfl⟩ | ⟨o', ho', hkey, hmem⟩
      · exact ⟨hlo, Nat.lt_succ_self n, by rw [hkey]⟩
      · obtain ⟨hfrom, hlt, hcommitted⟩ := hseen o' ho' observed hmem
        exact ⟨hfrom, by omega, by rw [← hkey]; exact hcommitted⟩
    obtain ⟨hle, hrecorded, hne'⟩ := ih (committed (instant n) key) (by omega) hnext
      (observe_ne_nil key _ seen)
    exact ⟨by simp only [Reader.run]; omega, hrecorded, hne'⟩
  | unrecorded keys next ih =>
    have hlater : Recorded committed instant lo (n + 1) seen := by
      intro o ho observed hobserved
      obtain ⟨hfrom, hlt, hcommitted⟩ := hseen o ho observed hobserved
      exact ⟨hfrom, by omega, hcommitted⟩
    obtain ⟨hle, hrecorded, hne'⟩ := ih
      (fun key => if keys key then committed (instant n) key else none) (by omega) hlater hne
    exact ⟨by simp only [Reader.run]; omega, hrecorded, hne'⟩

omit [DecidableEq ν] in
/-- An unrecorded read comes before the first of the second reads. -/
theorem Reader.run_unrecorded (reader : Reader ν ε α) (seen : Observations ν) (n : ℕ) :
    n ≤ (reader.run committed instant seen n).reads ∧
      ∀ u ∈ (reader.run committed instant seen n).unrecorded,
        u.read < (reader.run committed instant seen n).reads := by
  induction reader generalizing seen n with
  | done value => exact ⟨le_refl n, by simp [Reader.run]⟩
  | throws error => exact ⟨le_refl n, by simp [Reader.run]⟩
  | get key next ih =>
    obtain ⟨hle, hbefore⟩ := ih (committed (instant n) key)
      (observe key ⟨committed (instant n) key, n⟩ seen) (n + 1)
    exact ⟨by simp only [Reader.run]; omega, hbefore⟩
  | unrecorded keys next ih =>
    obtain ⟨hle, hbefore⟩ := ih (fun key => if keys key then committed (instant n) key else none)
      seen (n + 1)
    refine ⟨by simp only [Reader.run]; omega, fun u hu => ?_⟩
    rcases List.mem_cons.mp hu with rfl | hlater
    · simp only [Reader.run]
      omega
    · exact hbefore u hlater

theorem le_recheck (seen : Observations ν) (n : ℕ) :
    n ≤ (recheck committed instant seen n).2 := by
  induction seen generalizing n with
  | nil => exact le_refl n
  | cons head rest ih =>
    simp only [recheck]
    split_ifs with hsame
    · have hrest := ih (n + 1)
      omega
    · exact Nat.le_succ n

theorem lt_recheck (hne : seen ≠ []) (n : ℕ) :
    n < (recheck committed instant seen n).2 := by
  cases seen with
  | nil => exact absurd rfl hne
  | cons head rest =>
    simp only [recheck]
    split_ifs with hsame
    · exact le_recheck rest (n + 1)
    · exact Nat.lt_succ_self n

/-- Rows that passed were each read again, and found the same. -/
theorem recheck_same {n : ℕ} (hok : (recheck committed instant seen n).1 = true) :
    ∀ o ∈ seen, ∃ c, n ≤ c ∧ c < (recheck committed instant seen n).2 ∧
      ∀ observed ∈ o.2, sameRow observed.row (committed (instant c) o.1) = true := by
  induction seen generalizing n with
  | nil => simp
  | cons head rest ih =>
    simp only [recheck] at hok ⊢
    split_ifs at hok ⊢ with hsame
    intro o ho
    rcases List.mem_cons.mp ho with rfl | hmem
    · exact ⟨n, le_refl n, le_recheck rest (n + 1), List.all_eq_true.mp hsame⟩
    · obtain ⟨c, hc, hlt, hrows⟩ := ih hok o hmem
      exact ⟨c, by omega, hlt, hrows⟩

/-! ## One instant -/

/-- A present version of a row does not come back once it has been replaced. -/
def VersionsNeverRecur (committed : Committed ν) : Prop :=
  ∀ key t₁ t t₂ a b, t₁ ≤ t → t ≤ t₂ → committed t₁ key = some a → committed t₂ key = some b →
    sameRow (some a) (some b) = true → committed t key = some a

omit [DecidableEq ν] in
/-- What a round that passes does not check. No row that `settings.get` found
absent is there again before its own second read, the `i`-th of them; and no row
that an unrecorded read saw is written before the second reads begin. -/
structure Attempt.Steady (committed : Committed ν) (instant : ℕ → ℕ) (a : Attempt ν ε α) :
    Prop where
  absent : ∀ (i : ℕ) (o : String × List (Observation ν)), a.seen[i]? = some o →
    ∀ observed ∈ o.2, observed.row = none → ∀ t, instant observed.read ≤ t →
      t ≤ instant (a.reads + i) → committed t o.1 = none
  unrecorded : ∀ u ∈ a.unrecorded, ∀ key, u.keys key = true → ∀ t, instant u.read ≤ t →
    t ≤ instant a.reads → committed t key = u.rows key

/-- Round `i` of a call. -/
def Attempted (committed : Committed ν) (instant : ℕ → ℕ) (key : String)
    (read : ℕ → Option (SettingRecord ν) → Reader ν ε α) (i : ℕ) : Attempt ν ε α :=
  attempt committed instant key (read i) (begins committed instant key read i)

/-- The round whose value a call returns: its first that passes. -/
def Passing (committed : Committed ν) (instant : ℕ → ℕ) (key : String)
    (read : ℕ → Option (SettingRecord ν) → Reader ν ε α) (i : ℕ) : Prop :=
  (∀ j < i, (Attempted committed instant key read j).unchanged = false) ∧
    (Attempted committed instant key read i).unchanged = true

/-- What a call returns was computed, in its first round that passes, from rows,
recorded or not, that were all committed at one instant of that round. -/
def OneGeneration (committed : Committed ν) (instant : ℕ → ℕ) (key : String)
    (read : ℕ → Option (SettingRecord ν) → Reader ν ε α) (attempts : ℕ) : Prop :=
  ∀ value, readBoundToSetting committed instant key read attempts = .returned value →
    ∃ i < attempts, Passing committed instant key read i ∧
      (Attempted committed instant key read i).result = .ok value ∧
      ∃ t, instant (begins committed instant key read i) ≤ t ∧
        t ≤ instant (begins committed instant key read (i + 1) - 1) ∧
        (∀ o ∈ (Attempted committed instant key read i).seen, ∀ observed ∈ o.2,
          committed t o.1 = observed.row) ∧
        ∀ u ∈ (Attempted committed instant key read i).unrecorded, ∀ key, u.keys key = true →
          committed t key = u.rows key

/-- A value comes from the first round whose rows all passed. -/
theorem attemptsFrom_returned {key : String} {read : ℕ → Option (SettingRecord ν) → Reader ν ε α}
    {attempts i : ℕ} {value : α}
    (h : attemptsFrom committed instant key read attempts i (begins committed instant key read i) =
      .returned value) :
    ∃ j, j < i + attempts ∧
      (∀ k, i ≤ k → k < j → (Attempted committed instant key read k).unchanged = false) ∧
      (Attempted committed instant key read j).unchanged = true ∧
      (Attempted committed instant key read j).result = .ok value := by
  induction attempts generalizing i with
  | zero => cases h
  | succ attempts ih =>
    have hround : attempt committed instant key (read i) (begins committed instant key read i) =
        Attempted committed instant key read i := rfl
    simp only [attemptsFrom, hround] at h
    cases hresult : (Attempted committed instant key read i).result with
    | error error =>
      rw [hresult] at h
      cases h
    | ok found =>
      rw [hresult] at h
      dsimp only at h
      split_ifs at h with hunchanged
      · rw [Outcome.returned.injEq] at h
        exact ⟨i, by omega, fun k hk hlt => by omega, hunchanged, by rw [hresult, h]⟩
      · obtain ⟨j, hlt, hbefore, hfound⟩ := ih h
        refine ⟨j, by omega, fun k hk hkj => ?_, hfound⟩
        by_cases hki : k = i
        · rw [hki]
          exact Bool.eq_false_iff.mpr hunchanged
        · exact hbefore k (by omega) hkj

omit [DecidableEq ν] in
theorem recorded_anchor (key : String) (n : ℕ) :
    Recorded committed instant n (n + 1) [(key, [⟨committed (instant n) key, n⟩])] := by
  intro o ho observed hobserved
  rw [List.mem_singleton] at ho
  subst ho
  obtain rfl := List.mem_singleton.mp hobserved
  exact ⟨le_refl n, Nat.lt_succ_self n, rfl⟩

/-- A round that passes: its rows were read before the first of the second reads,
and the recorded ones read again, the same, from there on. -/
theorem attempt_unchanged {key : String} {read : Option (SettingRecord ν) → Reader ν ε α} {n : ℕ}
    (h : (attempt committed instant key read n).unchanged = true) :
    n ≤ (attempt committed instant key read n).reads ∧
      (attempt committed instant key read n).reads < (attempt committed instant key read n).ends ∧
      Recorded committed instant n (attempt committed instant key read n).reads
        (attempt committed instant key read n).seen ∧
      (∀ u ∈ (attempt committed instant key read n).unrecorded,
        u.read < (attempt committed instant key read n).reads) ∧
      ∀ o ∈ (attempt committed instant key read n).seen,
        ∃ c, (attempt committed instant key read n).reads ≤ c ∧
          ∀ observed ∈ o.2, sameRow observed.row (committed (instant c) o.1) = true := by
  obtain ⟨hle, hrecorded, hne⟩ := Reader.run_recorded (read (committed (instant n) key))
    (Nat.le_add_right n 1) (recorded_anchor key n) (List.cons_ne_nil _ _)
  simp only [attempt] at h ⊢
  cases hresult : ((read (committed (instant n) key)).run committed instant
      [(key, [⟨committed (instant n) key, n⟩])] (n + 1)).result with
  | error error =>
    rw [hresult] at h
    cases h
  | ok value =>
    rw [hresult] at h
    refine ⟨by simp only; omega, lt_recheck hne _, hrecorded,
      (Reader.run_unrecorded _ _ _).2, fun o ho => ?_⟩
    obtain ⟨c, hc, -, hsame⟩ := recheck_same h o ho
    exact ⟨c, hc, hsame⟩

/-- A row that does not recur, found the same again later, is what it was at
every instant in between, unless it was absent and may have come and gone. -/
theorem committed_between (hversions : VersionsNeverRecur committed) {key : String}
    {t₁ t t₂ : ℕ} (h₁ : t₁ ≤ t) (h₂ : t ≤ t₂)
    (habsent : committed t₁ key = none → committed t key = none)
    (hsame : sameRow (committed t₁ key) (committed t₂ key) = true) :
    committed t key = committed t₁ key := by
  cases hfirst : committed t₁ key with
  | none => exact habsent hfirst
  | some a =>
    cases hsecond : committed t₂ key with
    | none =>
      rw [hfirst, hsecond] at hsame
      cases hsame
    | some b =>
      rw [hfirst, hsecond] at hsame
      exact hversions key t₁ t t₂ a b h₁ h₂ hfirst hsecond hsame

/-- Where the round whose value is returned is steady, the call returns what is
of one generation. What other rounds meet, and rows nobody read, do not matter. -/
theorem readBoundToSetting_oneGeneration (committed : Committed ν) (instant : ℕ → ℕ)
    (key : String) (read : ℕ → Option (SettingRecord ν) → Reader ν ε α) (attempts : ℕ)
    (hmono : Monotone instant) (hversions : VersionsNeverRecur committed)
    (hsteady : ∀ i < attempts, Passing committed instant key read i →
      (Attempted committed instant key read i).Steady committed instant) :
    OneGeneration committed instant key read attempts := by
  intro value hreturned
  obtain ⟨i, hlt, hbefore, hunchanged, hresult⟩ := attemptsFrom_returned (i := 0) hreturned
  rw [Nat.zero_add] at hlt
  have hpassing : Passing committed instant key read i :=
    ⟨fun j hj => hbefore j (Nat.zero_le j) hj, hunchanged⟩
  have hround := hsteady i hlt hpassing
  obtain ⟨hbegin, hend, hrecorded, hunrecorded, hsame⟩ := attempt_unchanged hunchanged
  -- The instant is that of the first second read.
  refine ⟨i, hlt, hpassing, hresult, instant (Attempted committed instant key read i).reads,
    hmono hbegin, hmono (Nat.le_pred_of_lt hend), fun o ho observed hobserved => ?_,
    fun u hu key hkey => ?_⟩
  · obtain ⟨-, hread, hrow⟩ := hrecorded o ho observed hobserved
    obtain ⟨c, hc, hagain⟩ := hsame o ho
    have hfound := hagain observed hobserved
    rw [← hrow] at hfound ⊢
    refine committed_between hversions (hmono hread.le) (hmono hc) (fun hnone => ?_) hfound
    obtain ⟨position, hposition⟩ := List.mem_iff_getElem?.mp ho
    exact hround.absent position o hposition observed hobserved (by rw [← hrow, hnone]) _
      (hmono hread.le) (hmono (Nat.le_add_right _ _))
  · exact hround.unrecorded u hu key hkey _ (hmono (hunrecorded u hu).le) le_rfl

/-- A row that is replaced once, by a version that is not its first. -/
theorem version_of_replacedOnce {x y : SettingRecord ν} {s t₁ t t₂ : ℕ}
    (hne : sameRow (some x) (some y) = false) (h₁ : t₁ ≤ t) (h₂ : t ≤ t₂)
    (hsame : sameRow (some (if t₁ < s then x else y)) (some (if t₂ < s then x else y)) = true) :
    (if t < s then x else y) = if t₁ < s then x else y := by
  by_cases hlt₁ : t₁ < s
  · by_cases hlt₂ : t₂ < s
    · rw [if_pos hlt₁, if_pos (by omega)]
    · rw [if_pos hlt₁, if_neg hlt₂, hne] at hsame
      cases hsame
  · rw [if_neg hlt₁, if_neg (by omega)]

/-- The settings are saved while the first round reads them; while the second
does, a row nobody reads is created and deleted again. -/
def savedOnce : Committed ℕ := fun t key =>
  if key = "smtp" then some (if t < 3 then ⟨7, false, "t0", "t0"⟩ else ⟨8, false, "t0", "t3"⟩)
  else if key = "branding" then if t = 5 then some ⟨1, false, "t5", "t5"⟩ else none
  else none

theorem savedOnce_versions : VersionsNeverRecur savedOnce := by
  intro key t₁ t t₂ a b h₁ h₂ ha hb hsame
  rw [← ha, ← hb] at hsame
  rw [← ha]
  unfold savedOnce at hsame ha hb ⊢
  by_cases hsmtp : key = "smtp"
  · simp only [if_pos hsmtp] at hsame ⊢
    rw [version_of_replacedOnce rfl h₁ h₂ hsame]
  by_cases hbranding : key = "branding"
  · simp only [if_neg hsmtp, if_pos hbranding] at ha hb ⊢
    split_ifs at ha hb with hone hone'
    rw [show t = t₁ by omega]
  · simp only [if_neg hsmtp, if_neg hbranding]

/-- Reads the password as recorded, and the portal's row with `getMany`. -/
def readPassword (anchor : Option (SettingRecord ℕ)) :
    Reader ℕ Unit (List (Option (SettingRecord ℕ))) :=
  .get "smtp_password" fun password => .unrecorded (fun key => key == "portal") fun rows =>
    .done [anchor, password, rows "portal"]

/-- No round of it is unsteady: of the rows it reads only the settings change. -/
theorem savedOnce_steady (i : ℕ) :
    (Attempted savedOnce id "smtp" (fun _ => readPassword) i).Steady savedOnce id := by
  obtain ⟨n, hn⟩ : ∃ n, begins savedOnce id "smtp" (fun _ => readPassword) i = n := ⟨_, rfl⟩
  have hseen : (Attempted savedOnce id "smtp" (fun _ => readPassword) i).seen =
      [("smtp", [⟨savedOnce n "smtp", n⟩]),
        ("smtp_password", [⟨savedOnce (n + 1) "smtp_password", n + 1⟩])] := by
    rw [← hn]
    rfl
  constructor
  · intro position o ho observed hobserved hnone t _ _
    have hmem := List.mem_of_getElem? ho
    rw [hseen] at hmem
    rcases List.mem_pair.mp hmem with rfl | rfl
    · obtain rfl := List.mem_singleton.mp hobserved
      simp [savedOnce] at hnone
    · simp [savedOnce]
  · intro u hu key hkey t _ _
    obtain rfl := List.mem_singleton.mp hu
    obtain rfl : key = "portal" := by simpa using hkey
    simp [savedOnce]

theorem readBoundToSetting_oneGeneration_savedOnce :
    readBoundToSetting savedOnce id "smtp" (fun _ => readPassword) SETTING_GENERATION_ATTEMPTS =
        .returned [some ⟨8, false, "t0", "t3"⟩, none, none] ∧
      OneGeneration savedOnce id "smtp" (fun _ => readPassword) SETTING_GENERATION_ATTEMPTS :=
  ⟨by decide, readBoundToSetting_oneGeneration savedOnce id "smtp" _ _ monotone_id
    savedOnce_versions fun i _ _ => savedOnce_steady i⟩

/-! ## A row created and deleted again -/

/-- Two commits: the first creates one provider's secret and replaces the
other's, the second deletes the one and replaces the settings. -/
def savedTwice : Committed ℕ := fun t key =>
  if key = "sso" then
    some (if t < 2 then ⟨10, false, "t0", "t0"⟩ else ⟨12, false, "t0", "t2"⟩)
  else if key = "sso_client_secret:a" then
    if t = 1 then some ⟨31, true, "t1", "t1"⟩ else none
  else if key = "sso_client_secret:b" then
    some (if t < 1 then ⟨20, true, "t0", "t0"⟩ else ⟨21, true, "t0", "t1"⟩)
  else none

/-- The first commit lands between the reads of the two secrets, the second
between the second reads of the settings and of the first secret. -/
def savedTwiceInstants (n : ℕ) : ℕ := if n < 2 then 0 else if n < 4 then 1 else 2

def readBothSecrets (anchor : Option (SettingRecord ℕ)) :
    Reader ℕ Unit (List (Option (SettingRecord ℕ))) :=
  .get "sso_client_secret:a" fun a => .get "sso_client_secret:b" fun b => .done [anchor, a, b]

theorem savedTwiceInstants_mono : Monotone savedTwiceInstants := by
  intro a b hab
  unfold savedTwiceInstants
  split_ifs <;> omega

theorem savedTwice_versions : VersionsNeverRecur savedTwice := by
  intro key t₁ t t₂ a b h₁ h₂ ha hb hsame
  rw [← ha, ← hb] at hsame
  rw [← ha]
  unfold savedTwice at hsame ha hb ⊢
  by_cases hsso : key = "sso"
  · simp only [if_pos hsso] at hsame ⊢
    rw [version_of_replacedOnce rfl h₁ h₂ hsame]
  by_cases hfirst : key = "sso_client_secret:a"
  · simp only [if_neg hsso, if_pos hfirst] at ha hb ⊢
    split_ifs at ha hb with hone hone'
    rw [show t = t₁ by omega]
  by_cases hsecond : key = "sso_client_secret:b"
  · simp only [if_neg hsso, if_neg hfirst, if_pos hsecond] at hsame ⊢
    rw [version_of_replacedOnce rfl h₁ h₂ hsame]
  · simp only [if_neg hsso, if_neg hfirst, if_neg hsecond]

/-- Versions do not recur, and yet the settings, the absent secret and the
replaced one were never committed together. -/
theorem readBoundToSetting_mixes_generations :
    ¬ ∀ (committed : Committed ℕ) (instant : ℕ → ℕ) (key : String)
      (read : ℕ → Option (SettingRecord ℕ) → Reader ℕ Unit (List (Option (SettingRecord ℕ)))),
      Monotone instant → VersionsNeverRecur committed →
        OneGeneration committed instant key read SETTING_GENERATION_ATTEMPTS := by
  intro hclaim
  have hreturned : readBoundToSetting savedTwice savedTwiceInstants "sso"
      (fun _ => readBothSecrets) SETTING_GENERATION_ATTEMPTS =
      .returned [some ⟨10, false, "t0", "t0"⟩, none, some ⟨21, true, "t0", "t1"⟩] := by decide
  obtain ⟨i, -, ⟨hbefore, -⟩, -, t, -, -, hseen, -⟩ := hclaim savedTwice savedTwiceInstants "sso"
    (fun _ => readBothSecrets) savedTwiceInstants_mono savedTwice_versions _ hreturned
  have hfirst : i = 0 := by
    by_contra hne
    have hpassed : (Attempted savedTwice savedTwiceInstants "sso" (fun _ => readBothSecrets)
        0).unchanged = true := by decide
    rw [hbefore 0 (by omega)] at hpassed
    cases hpassed
  subst hfirst
  have hrows : (Attempted savedTwice savedTwiceInstants "sso" (fun _ => readBothSecrets) 0).seen =
      [("sso", [⟨some ⟨10, false, "t0", "t0"⟩, 0⟩]), ("sso_client_secret:a", [⟨none, 1⟩]),
        ("sso_client_secret:b", [⟨some ⟨21, true, "t0", "t1"⟩, 2⟩])] := by decide
  rw [hrows] at hseen
  have hsettings := hseen _ (List.mem_cons_self ..) _ (List.mem_singleton_self _)
  have habsent := hseen _ (List.mem_cons_of_mem _ (List.mem_cons_self ..)) _
    (List.mem_singleton_self _)
  have hreplaced := hseen _ (List.mem_cons_of_mem _ (List.mem_cons_of_mem _
    (List.mem_cons_self ..))) _ (List.mem_singleton_self _)
  -- The settings place it before the second commit, the replaced secret from the
  -- first one on, and in between the other secret is there.
  simp [savedTwice] at hsettings habsent hreplaced
  omega

end FerrumNexus.Settings
