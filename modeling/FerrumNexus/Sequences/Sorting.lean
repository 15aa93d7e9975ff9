import Mathlib.Data.List.Sort

/-!
# Stable sorting by a key

A stable sort leaves the entries of one key in their order, and nothing else of
the order they came in can be seen in its result: two lists with the same
entries under each key, in the same order, are sorted alike.
-/
namespace FerrumNexus.Sequences

variable {α β K : Type*} [LinearOrder K] (key : α → K)

/-- A list sorted by a key, entries with the same key as they came. -/
def sortBy (xs : List α) : List α := xs.insertionSort fun a b => key a ≤ key b

@[simp] theorem sortBy_nil : sortBy key [] = [] := rfl

theorem sortBy_perm (xs : List α) : (sortBy key xs).Perm xs := List.perm_insertionSort _ xs

theorem sortBy_pairwise (xs : List α) : (sortBy key xs).Pairwise fun a b => key a ≤ key b := by
  have : Std.Total fun a b : α => key a ≤ key b := ⟨fun a b => le_total (key a) (key b)⟩
  have : IsTrans α fun a b => key a ≤ key b := ⟨fun _ _ _ => le_trans⟩
  exact List.pairwise_insertionSort _ xs

/-- The entries of one key come out as they went in. -/
theorem filter_sortBy (xs : List α) (k : K) :
    (sortBy key xs).filter (key · = k) = xs.filter (key · = k) := by
  have : Std.Total fun a b : α => key a ≤ key b := ⟨fun a b => le_total (key a) (key b)⟩
  have : IsTrans α fun a b => key a ≤ key b := ⟨fun _ _ _ => le_trans⟩
  have hsorted : (xs.filter (key · = k)).Pairwise fun a b => key a ≤ key b := by
    apply List.pairwise_of_forall_mem_list
    intro a ha b hb
    simp only [List.mem_filter, decide_eq_true_eq] at ha hb
    rw [ha.2, hb.2]
  have hsub : (xs.filter (key · = k)).Sublist (sortBy key xs) :=
    List.sublist_insertionSort hsorted List.filter_sublist
  have hfilter := hsub.filter (key · = k)
  rw [List.filter_filter] at hfilter
  simp only [Bool.and_self] at hfilter
  exact (hfilter.eq_of_length ((sortBy_perm key xs).filter _).length_eq.symm).symm

variable {key}

/-- A sorted list is known by the entries of each key. -/
theorem eq_of_filter_eq {xs ys : List α} (hxs : xs.Pairwise fun a b => key a ≤ key b)
    (hys : ys.Pairwise fun a b => key a ≤ key b)
    (h : ∀ k, xs.filter (key · = k) = ys.filter (key · = k)) : xs = ys := by
  induction xs generalizing ys with
  | nil =>
    cases ys with
    | nil => rfl
    | cons y ys =>
      have := h (key y)
      simp at this
  | cons x xs ih =>
    cases ys with
    | nil =>
      have := h (key x)
      simp at this
    | cons y ys =>
      rw [List.pairwise_cons] at hxs hys
      -- the least key is the same, and its first entry heads both lists
      have hle : key x ≤ key y := by
        have hmem : y ∈ (x :: xs).filter (key · = key y) := by simp [h (key y)]
        obtain ⟨hmem, -⟩ := List.mem_filter.1 hmem
        rcases List.mem_cons.1 hmem with rfl | hmem
        · exact le_rfl
        · exact hxs.1 y hmem
      have hge : key y ≤ key x := by
        have hmem : x ∈ (y :: ys).filter (key · = key x) := by simp [← h (key x)]
        obtain ⟨hmem, -⟩ := List.mem_filter.1 hmem
        rcases List.mem_cons.1 hmem with rfl | hmem
        · exact le_rfl
        · exact hys.1 x hmem
      have hkey : key y = key x := le_antisymm hge hle
      have hhead := h (key x)
      simp only [hkey, decide_true, List.filter_cons_of_pos, List.cons.injEq] at hhead
      obtain ⟨rfl, -⟩ := hhead
      congr 1
      apply ih hxs.2 hys.2
      intro k
      have hk := h k
      by_cases hx : key x = k
      · simpa [hx] using hk
      · simpa [hx] using hk

theorem sortBy_congr {xs ys : List α} (h : ∀ k, xs.filter (key · = k) = ys.filter (key · = k)) :
    sortBy key xs = sortBy key ys := by
  apply eq_of_filter_eq (sortBy_pairwise key xs) (sortBy_pairwise key ys)
  intro k
  rw [filter_sortBy, filter_sortBy, h k]

/-- It does not matter where an entry stands that has its key for itself. -/
theorem sortBy_middle {xs ys : List α} {e : α} (h : ∀ a ∈ xs ++ ys, key a ≠ key e) :
    sortBy key (xs ++ e :: ys) = sortBy key (e :: (xs ++ ys)) := by
  apply sortBy_congr
  intro k
  by_cases hk : key e = k
  · have hnone : ∀ zs : List α, (∀ a ∈ zs, key a ≠ key e) → zs.filter (key · = k) = [] := by
      intro zs hzs
      apply List.filter_eq_nil_iff.2
      intro a ha
      simpa [← hk] using hzs a ha
    have hxs := hnone xs fun a ha => h a (List.mem_append_left ys ha)
    have hys := hnone ys fun a ha => h a (List.mem_append_right xs ha)
    simp [hk, hxs, hys]
  · simp [hk]

theorem map_sortBy {f : α → β} {key' : β → K} {xs : List α} (h : ∀ a ∈ xs, key' (f a) = key a) :
    (sortBy key xs).map f = sortBy key' (xs.map f) := by
  apply List.map_insertionSort
  intro a ha b hb
  rw [h a ha, h b hb]

end FerrumNexus.Sequences
