import Mathlib.Tactic
import Mathlib.Data.List.DropRight

/-!
# Reading a sequence by its indices

`indexOf` and `slice`, and what they are of a sequence that is known to fall
into parts.
-/
namespace FerrumNexus.Sequences

section Slices

variable {A : Type}

/-- `slice(start, stop)`. -/
def slice (xs : List A) (start stop : ℕ) : List A := (xs.take stop).drop start

@[simp] theorem slice_self (xs : List A) (start : ℕ) : slice xs start start = [] :=
  List.drop_eq_nil_of_le (List.length_take_le _ _)

/-- Two slices that meet are one. -/
theorem slice_append {xs : List A} {start middle stop : ℕ} (h₁ : start ≤ middle)
    (h₂ : middle ≤ stop) : slice xs start middle ++ slice xs middle stop = slice xs start stop := by
  have hparts : xs.take stop = xs.take middle ++ slice xs middle stop := by
    have htake : xs.take middle = (xs.take stop).take middle := by
      rw [List.take_take, Nat.min_eq_left h₂]
    rw [slice, htake, List.take_append_drop]
  by_cases hlength : middle ≤ xs.length
  · have hstart : start ≤ (xs.take middle).length := by simp [h₁, h₁.trans hlength]
    have hwhole : slice xs start stop = (xs.take middle ++ slice xs middle stop).drop start := by
      rw [slice, hparts]
    rw [hwhole, List.drop_append_of_le_length hstart, slice]
  · have hmiddle : xs.take middle = xs := List.take_of_length_le (by omega)
    have hstop : xs.take stop = xs := List.take_of_length_le (by omega)
    have hnil : xs.drop middle = [] := List.drop_eq_nil_of_le (by omega)
    simp only [slice, hmiddle, hstop, hnil, List.append_nil]

theorem slice_eq_take (xs : List A) (start length : ℕ) :
    slice xs start (start + length) = (xs.drop start).take length := by
  rw [slice, List.drop_take, Nat.add_sub_cancel_left]

/-- A slice is the part that stands there. -/
theorem slice_of_drop {xs piece after : List A} {start : ℕ} (h : xs.drop start = piece ++ after) :
    slice xs start (start + piece.length) = piece := by
  rw [slice_eq_take, h, List.take_left]

theorem drop_of_drop {xs piece after : List A} {start : ℕ} (h : xs.drop start = piece ++ after) :
    xs.drop (start + piece.length) = after := by
  rw [← List.drop_drop, h, List.drop_left]

end Slices

section Trimming

variable {A : Type} {p : A → Bool}

/-- What is dropped from the right of two parts joined: all of the second goes first. -/
theorem rdropWhile_append_of_nil {xs ys : List A} (h : ys.rdropWhile p = []) :
    (xs ++ ys).rdropWhile p = xs.rdropWhile p := by
  have hdropped : ys.reverse.dropWhile p = [] := by simpa [List.rdropWhile] using h
  rw [List.rdropWhile, List.reverse_append, List.dropWhile_append, hdropped]
  rfl

theorem rdropWhile_append {xs ys : List A} (h : ys.rdropWhile p ≠ []) :
    (xs ++ ys).rdropWhile p = xs ++ ys.rdropWhile p := by
  have hkept : ys.reverse.dropWhile p ≠ [] := by simpa [List.rdropWhile] using h
  rw [List.rdropWhile, List.reverse_append, List.dropWhile_append, if_neg (by simpa using hkept)]
  simp [List.rdropWhile]

theorem rdropWhile_cons (x : A) (xs : List A) : (x :: xs).rdropWhile p =
    if xs.rdropWhile p = [] ∧ p x then [] else x :: xs.rdropWhile p := by
  by_cases hnil : xs.rdropWhile p = []
  · rw [← List.singleton_append, rdropWhile_append_of_nil hnil, List.rdropWhile_singleton, hnil]
    simp
  · rw [← List.singleton_append, rdropWhile_append hnil, if_neg (by simp [hnil])]
    rfl

/-- It does not matter which end is trimmed first. -/
theorem dropWhile_rdropWhile (xs : List A) :
    (xs.rdropWhile p).dropWhile p = (xs.dropWhile p).rdropWhile p := by
  induction xs with
  | nil => rfl
  | cons x xs ih =>
    by_cases hx : p x
    · rw [List.dropWhile_cons_of_pos hx, ← ih, rdropWhile_cons]
      split
      · rename_i hgone
        rw [hgone.1]
      · rw [List.dropWhile_cons_of_pos hx]
    · rw [List.dropWhile_cons_of_neg hx, rdropWhile_cons, if_neg (by simp [hx]),
        List.dropWhile_cons_of_neg hx]

theorem head?_of_rdropWhile {x : A} {xs : List A} (h : x ∈ (xs.rdropWhile p).head?) :
    x ∈ xs.head? := by
  obtain ⟨gone, hprefix⟩ := List.rdropWhile_prefix p xs
  rw [← hprefix]
  exact List.mem_head?_append_of_mem_head? h

end Trimming

section Indices

variable {A : Type} [DecidableEq A]

/-- `indexOf(a, start)`. -/
def indexOf (xs : List A) (a : A) (start : ℕ) : Option ℕ :=
  ((xs.drop start).findIdx? fun x => x = a).map fun index => start + index

theorem indexOf_eq_none {xs : List A} {a : A} {start : ℕ} (h : a ∉ xs.drop start) :
    indexOf xs a start = none := by
  rw [indexOf, Option.map_eq_none_iff, List.findIdx?_eq_none_iff]
  intro x hx
  have hne : x ≠ a := fun heq => h (heq ▸ hx)
  simpa using hne

/-- The first one is where the part before it ends. -/
theorem indexOf_of_drop {xs before after : List A} {a : A} {start : ℕ}
    (h : xs.drop start = before ++ a :: after) (ha : a ∉ before) :
    indexOf xs a start = some (start + before.length) := by
  have hnone : before.findIdx? (fun x => x = a) = none := by
    rw [List.findIdx?_eq_none_iff]
    intro x hx
    have hne : x ≠ a := fun heq => ha (heq ▸ hx)
    simpa using hne
  rw [indexOf, h, List.findIdx?_append, hnone]
  simp [List.findIdx?_cons]

/-- A sequence up to its first separator. -/
theorem cut_first {xs : List A} {a : A} (h : a ∈ xs) :
    ∃ before after, xs = before ++ a :: after ∧ a ∉ before := by
  induction xs with
  | nil => simp at h
  | cons x xs ih =>
    by_cases hx : a = x
    · exact ⟨[], xs, by rw [hx]; rfl, List.not_mem_nil⟩
    · obtain ⟨before, after, hcut, hbefore⟩ := ih (List.mem_of_ne_of_mem hx h)
      refine ⟨x :: before, after, by rw [hcut]; rfl, ?_⟩
      simp [hx, hbefore]

omit [DecidableEq A] in
/-- Both parts, of a cut that is made at the first separator, are known. -/
theorem cut_unique {before before' after after' : List A} {a : A}
    (h : before ++ a :: after = before' ++ a :: after') (ha : a ∉ before) (ha' : a ∉ before') :
    before = before' ∧ after = after' := by
  induction before generalizing before' with
  | nil =>
    cases before' with
    | nil => simpa using h
    | cons x before' =>
      rw [List.nil_append, List.cons_append, List.cons.injEq] at h
      exact absurd (h.1 ▸ List.mem_cons_self) ha'
  | cons x before ih =>
    cases before' with
    | nil =>
      rw [List.nil_append, List.cons_append, List.cons.injEq] at h
      exact absurd (h.1 ▸ List.mem_cons_self) ha
    | cons y before' =>
      rw [List.cons_append, List.cons_append, List.cons.injEq] at h
      rw [List.mem_cons, not_or] at ha ha'
      obtain ⟨rfl, rfl⟩ := ih h.2 ha.2 ha'.2
      exact ⟨by rw [h.1], rfl⟩

/-- No part between two separators has one. -/
theorem not_mem_of_mem_splitOn {xs piece : List A} {a : A} (h : piece ∈ xs.splitOn a) :
    a ∉ piece := by
  induction xs generalizing piece with
  | nil =>
    rw [List.splitOn_nil, List.mem_singleton] at h
    rw [h]
    exact List.not_mem_nil
  | cons x xs ih =>
    rw [List.splitOn_cons_eq_if_modifyHead] at h
    split at h
    · rcases List.mem_cons.mp h with rfl | hrest
      · exact List.not_mem_nil
      · exact ih hrest
    · rename_i hx
      obtain ⟨first, rest, hsplit⟩ := List.exists_cons_of_ne_nil (List.splitOn_ne_nil a xs)
      rw [hsplit, List.modifyHead_cons, List.mem_cons] at h
      rcases h with rfl | hrest
      · have hfirst : a ∉ first := ih (hsplit ▸ List.mem_cons_self)
        have hne : a ≠ x := fun heq => hx (by simp [heq])
        simp [hne, hfirst]
      · exact ih (hsplit ▸ List.mem_cons_of_mem first hrest)

end Indices

section Readers

variable {A B : Type} {f g : A → Option B}

theorem length_filterMap_le {xs : List A} (h : ∀ x ∈ xs, g x = none → f x = none) :
    (xs.filterMap f).length ≤ (xs.filterMap g).length := by
  induction xs with
  | nil => exact le_rfl
  | cons x xs ih =>
    have htail := ih fun y hy => h y (List.mem_cons_of_mem x hy)
    cases hg : g x with
    | none =>
      have hf := h x List.mem_cons_self hg
      rwa [List.filterMap_cons_none hf, List.filterMap_cons_none hg]
    | some b =>
      rw [List.filterMap_cons_some hg, List.length_cons]
      cases hf : f x with
      | none =>
        rw [List.filterMap_cons_none hf]
        omega
      | some a =>
        rw [List.filterMap_cons_some hf, List.length_cons]
        omega

/-- Of two readers, the one that reads no more elements reads the same if and only if it reads each
element the same. -/
theorem filterMap_eq_filterMap_iff {xs : List A} (h : ∀ x ∈ xs, g x = none → f x = none) :
    xs.filterMap f = xs.filterMap g ↔ ∀ x ∈ xs, f x = g x := by
  constructor
  · intro heq
    induction xs with
    | nil => simp
    | cons x xs ih =>
      have htail : ∀ y ∈ xs, g y = none → f y = none :=
        fun y hy => h y (List.mem_cons_of_mem x hy)
      rw [List.forall_mem_cons]
      cases hg : g x with
      | none =>
        have hf := h x List.mem_cons_self hg
        rw [List.filterMap_cons_none hf, List.filterMap_cons_none hg] at heq
        exact ⟨hf, ih htail heq⟩
      | some b =>
        rw [List.filterMap_cons_some hg] at heq
        cases hf : f x with
        | none =>
          rw [List.filterMap_cons_none hf] at heq
          have hlength := length_filterMap_le htail
          rw [heq, List.length_cons] at hlength
          omega
        | some a =>
          rw [List.filterMap_cons_some hf, List.cons.injEq] at heq
          exact ⟨by rw [heq.1], ih htail heq.2⟩
  · intro hall
    exact List.filterMap_congr hall

end Readers

end FerrumNexus.Sequences
