import Mathlib.Data.List.Nodup
import Mathlib.Tactic

/-!
# Two lists in one order

A list and a mirror of it agree in order when they coincide after each is
restricted to what the other holds. Either may hold elements the other lacks,
anywhere, so the relation survives appends and deletions on one side only. Once
every element of the mirror is present and the lengths are equal, the lists are
equal, which is what licenses addressing one by a position in the other.
-/
namespace FerrumNexus.Sequences

variable {α : Type*} [DecidableEq α]

/-- The common elements appear in the same order in both lists. -/
def Aligned (xs ys : List α) : Prop :=
  xs.filter (· ∈ ys) = ys.filter (· ∈ xs)

variable {xs ys : List α}

theorem Aligned.symm (h : Aligned xs ys) : Aligned ys xs := Eq.symm h

theorem aligned_nil_left (ys : List α) : Aligned [] ys := by
  simp [Aligned]

/-- The mirror may change freely outside the list. -/
theorem Aligned.of_filter_eq {zs : List α} (h : Aligned xs ys)
    (hf : zs.filter (· ∈ xs) = ys.filter (· ∈ xs)) : Aligned xs zs := by
  have hmem : ∀ a ∈ xs, (a ∈ zs ↔ a ∈ ys) := by
    intro a ha
    have hz : a ∈ zs.filter (· ∈ xs) ↔ a ∈ ys.filter (· ∈ xs) := by rw [hf]
    simpa [ha] using hz
  calc xs.filter (· ∈ zs) = xs.filter (· ∈ ys) := by
        apply List.filter_congr
        intro a ha
        simp [hmem a ha]
    _ = ys.filter (· ∈ xs) := h
    _ = zs.filter (· ∈ xs) := hf.symm

/-- Dropping elements of the list keeps the order. -/
theorem Aligned.filter_left (h : Aligned xs ys) (p : α → Bool) :
    Aligned (xs.filter p) ys := by
  have hl : (xs.filter p).filter (· ∈ ys) = (xs.filter (· ∈ ys)).filter p := by
    rw [List.filter_filter, List.filter_filter]
    apply List.filter_congr
    intro a _
    rw [Bool.and_comm]
  rw [Aligned, hl, show xs.filter (· ∈ ys) = ys.filter (· ∈ xs) from h, List.filter_filter]
  apply List.filter_congr
  intro a _
  simp [List.mem_filter, Bool.and_comm]

theorem Aligned.filter_right (h : Aligned xs ys) (p : α → Bool) :
    Aligned xs (ys.filter p) :=
  (h.symm.filter_left p).symm

theorem eraseIdx_eq_filter (hn : xs.Nodup) {i : ℕ} {a : α} (hi : xs[i]? = some a) :
    xs.eraseIdx i = xs.filter (· ≠ a) := by
  induction xs generalizing i with
  | nil => simp at hi
  | cons x xs ih =>
    obtain ⟨hx, hn⟩ := List.nodup_cons.mp hn
    cases i with
    | zero =>
      simp only [List.getElem?_cons_zero, Option.some.injEq] at hi
      subst hi
      have hself : xs.filter (· ≠ x) = xs := by
        rw [List.filter_eq_self]
        intro b hb
        simpa using fun hbx : b = x => hx (hbx ▸ hb)
      simpa using hself.symm
    | succ i =>
      simp only [List.getElem?_cons_succ] at hi
      have hxa : x ≠ a := fun h => hx (h ▸ List.mem_of_getElem? hi)
      simp [List.eraseIdx_cons_succ, ih hn hi, hxa]

/-- A new last element of one list that the other does not hold. -/
theorem Aligned.append_left (h : Aligned xs ys) {a : α} (ha : a ∉ ys) :
    Aligned (xs ++ [a]) ys := by
  refine (h.symm.of_filter_eq ?_).symm
  simp [List.filter_append, ha]

/-- A new last element that is, or becomes, the last element of the other. -/
theorem Aligned.append_left_last (h : Aligned xs (ys ++ [a])) (hx : a ∉ xs) (hy : a ∉ ys) :
    Aligned (xs ++ [a]) (ys ++ [a]) := by
  have hys : Aligned xs ys := by
    refine h.of_filter_eq ?_
    simp [List.filter_append, hx]
  have hl : xs.filter (· ∈ ys ++ [a]) = xs.filter (· ∈ ys) := by
    apply List.filter_congr
    intro b hb
    have hba : b ≠ a := fun hab => hx (hab ▸ hb)
    simp [hba]
  have hr : ys.filter (· ∈ xs ++ [a]) = ys.filter (· ∈ xs) := by
    apply List.filter_congr
    intro b hb
    have hba : b ≠ a := fun hab => hy (hab ▸ hb)
    simp [hba]
  simp only [Aligned, List.filter_append] at hys ⊢
  rw [hl, hr, hys]
  simp

theorem Aligned.append_right_last (h : Aligned (xs ++ [a]) ys) (hx : a ∉ xs) (hy : a ∉ ys) :
    Aligned (xs ++ [a]) (ys ++ [a]) :=
  (h.symm.append_left_last hy hx).symm

/-- Everything in the mirror is present, and nothing else. -/
theorem Aligned.eq_of_length (h : Aligned xs ys) (hsub : ∀ a ∈ ys, a ∈ xs)
    (hlen : ys.length = xs.length) : xs = ys := by
  have hys : ys.filter (· ∈ xs) = ys := by
    rw [List.filter_eq_self]
    intro a ha
    simpa using hsub a ha
  have hxs : xs.filter (· ∈ ys) = ys := h.trans hys
  have hall : (xs.filter (· ∈ ys)).length = xs.length := by rw [hxs, hlen]
  have hself : xs.filter (· ∈ ys) = xs := by
    rw [List.filter_eq_self]
    exact List.length_filter_eq_length_iff.mp hall
  rw [← hself, hxs]

/-- The same elements in the same order. -/
theorem Aligned.eq_of_mem (h : Aligned xs ys) (hsub : ∀ a ∈ ys, a ∈ xs) (hsup : ∀ a ∈ xs, a ∈ ys) :
    xs = ys := by
  have hxs : xs.filter (· ∈ ys) = xs := by
    rw [List.filter_eq_self]
    exact fun a ha => by simpa using hsup a ha
  have hys : ys.filter (· ∈ xs) = ys := by
    rw [List.filter_eq_self]
    exact fun a ha => by simpa using hsub a ha
  exact hxs.symm.trans (Eq.trans h hys)

end FerrumNexus.Sequences
