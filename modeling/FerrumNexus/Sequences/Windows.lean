import Mathlib.Tactic

/-!
# Slices and windows

The slices a loop takes that advances by one size: in order they are the
sequence, and none is longer than the size. And windows over stamped rows: a row
is added only while fewer than `limit` rows are stamped from some time on that
is at least a window before its own stamp. Then no window holds more.
-/
namespace FerrumNexus.Sequences

variable {A : Type}

def slicesFrom (size : ℕ) : ℕ → List A → List (List A)
  | 0, _ => []
  | _ + 1, [] => []
  | fuel + 1, a :: rest =>
    (a :: rest).take size :: slicesFrom size fuel ((a :: rest).drop size)

/-- `xs.slice(start, start + size)`, for each start the loop reaches. -/
def slices (size : ℕ) (xs : List A) : List (List A) := slicesFrom size xs.length xs

variable {fuel size : ℕ} {slice xs : List A}

theorem flatten_slicesFrom (hsize : 0 < size) (hfuel : xs.length ≤ fuel) :
    (slicesFrom size fuel xs).flatten = xs := by
  induction fuel generalizing xs with
  | zero =>
    have hnil : xs = [] := List.eq_nil_of_length_eq_zero (by omega)
    simp [hnil, slicesFrom]
  | succ fuel ih =>
    cases xs with
    | nil => simp [slicesFrom]
    | cons a rest =>
      have hshort : ((a :: rest).drop size).length ≤ fuel := by
        rw [List.length_drop]
        simp only [List.length_cons] at hfuel ⊢
        omega
      rw [slicesFrom, List.flatten_cons, ih hshort, List.take_append_drop]

theorem flatten_slices (hsize : 0 < size) (xs : List A) : (slices size xs).flatten = xs :=
  flatten_slicesFrom hsize le_rfl

theorem length_of_mem_slicesFrom (h : slice ∈ slicesFrom size fuel xs) : slice.length ≤ size := by
  induction fuel generalizing xs with
  | zero => simp [slicesFrom] at h
  | succ fuel ih =>
    cases xs with
    | nil => simp [slicesFrom] at h
    | cons a rest =>
      rcases List.mem_cons.mp h with rfl | hrest
      · simp [List.length_take]
      · exact ih hrest

theorem length_of_mem_slices (h : slice ∈ slices size xs) :
    slice.length ≤ size :=
  length_of_mem_slicesFrom h

theorem mem_of_mem_slices (hsize : 0 < size) (h : slice ∈ slices size xs) : slice ⊆ xs := by
  intro a ha
  rw [← flatten_slices hsize xs]
  exact List.mem_flatten.mpr ⟨slice, h, ha⟩

/-! ## Rolling windows -/

/-- How many rows are stamped within the window from `start` on, whose ends count. -/
def countWithin (stamp : A → ℕ) (window start : ℕ) (rows : List A) : ℕ :=
  rows.countP fun row => start ≤ stamp row ∧ stamp row ≤ start + window

/-- How many rows are stamped from `since` on. -/
def countSince (stamp : A → ℕ) (since : ℕ) (rows : List A) : ℕ :=
  rows.countP fun row => since ≤ stamp row

variable {stamp : A → ℕ} {window limit since : ℕ} {rows : List A} {row : A}

theorem countWithin_le_countSince {start : ℕ} (h : since ≤ start) :
    countWithin stamp window start rows ≤ countSince stamp since rows := by
  apply List.countP_mono_left
  intro row _ hrow
  simp only [decide_eq_true_eq] at hrow ⊢
  omega

/-- A window that holds the new row began no earlier than what was counted. -/
theorem countWithin_concat_le (h : ∀ start, countWithin stamp window start rows ≤ limit)
    (hsince : since ≤ stamp row - window) (hroom : countSince stamp since rows < limit)
    (start : ℕ) :
    countWithin stamp window start (rows ++ [row]) ≤ limit := by
  have hold := h start
  simp only [countWithin, List.countP_append, List.countP_singleton] at hold ⊢
  split
  · rename_i hin
    simp only [decide_eq_true_eq] at hin
    have hcounted := @countWithin_le_countSince A stamp window since rows start (by omega)
    simp only [countWithin] at hcounted
    omega
  · omega

end FerrumNexus.Sequences
