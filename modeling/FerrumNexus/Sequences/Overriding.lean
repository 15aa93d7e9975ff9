import FerrumNexus.Sequences.Sorting

/-!
# Lists in two layers

The entries of a list may have a key. An entry of the upper layer replaces those
of the lower one that have its key, and an entry without a key replaces nothing
and is never replaced. Where the entries with a key have no order of their own,
a list is put into a canonical one: they come first, sorted, and the others
follow as they stand.
-/
namespace FerrumNexus.Sequences

variable {α β K K' R : Type*}

section Defs

variable [DecidableEq K] [LinearOrder R] (key : α → Option K) (rank : K → R)

/-- No upper entry has the key of this one. -/
def survives (upper : List α) (a : α) : Bool := (key a).all (· ∉ upper.filterMap key)

/-- The lower entries no upper one replaces, and then the upper ones. -/
def override (lower upper : List α) : List α := lower.filter (survives key upper) ++ upper

/-- The entries with a key, and their keys. -/
def keyedEntries (xs : List α) : List (K × α) := xs.filterMap fun a => (key a).map (·, a)

def canonical (xs : List α) : List α :=
  (sortBy (fun entry => rank entry.1) (keyedEntries key xs)).map Prod.snd ++
    xs.filter (fun a => (key a).isNone)

end Defs

variable {key : α → Option K} {rank : K → R}

@[simp] theorem keyedEntries_append (xs ys : List α) :
    keyedEntries key (xs ++ ys) = keyedEntries key xs ++ keyedEntries key ys := by
  simp [keyedEntries]

theorem keyedEntries_cons {e : α} {k : K} (h : key e = some k) (xs : List α) :
    keyedEntries key (e :: xs) = (k, e) :: keyedEntries key xs := by
  simp [keyedEntries, h]

theorem mem_keyedEntries {xs : List α} {entry : K × α} :
    entry ∈ keyedEntries key xs ↔ entry.2 ∈ xs ∧ key entry.2 = some entry.1 := by
  simp only [keyedEntries, List.mem_filterMap, Option.map_eq_some_iff]
  constructor
  · rintro ⟨a, ha, k, hk, rfl⟩
    exact ⟨ha, hk⟩
  · rintro ⟨hmem, hkey⟩
    exact ⟨entry.2, hmem, entry.1, hkey, rfl⟩

variable [DecidableEq K] [LinearOrder R]

/-! ## Moving and dropping an entry -/

omit [DecidableEq K] in
/-- An entry that has its key for itself may stand anywhere. -/
theorem canonical_middle {xs ys : List α} {e : α} {k : K} (he : key e = some k)
    (h : ∀ a ∈ xs ++ ys, ∀ k', key a = some k' → rank k' ≠ rank k) :
    canonical key rank (xs ++ e :: ys) = canonical key rank (e :: (xs ++ ys)) := by
  have hsort : sortBy (fun entry => rank entry.1) (keyedEntries key (xs ++ e :: ys)) =
      sortBy (fun entry => rank entry.1) (keyedEntries key (e :: (xs ++ ys))) := by
    rw [keyedEntries_append, keyedEntries_cons he, keyedEntries_cons he, keyedEntries_append]
    apply sortBy_middle
    intro entry hentry
    rw [← keyedEntries_append] at hentry
    obtain ⟨hmem, hkey⟩ := mem_keyedEntries.1 hentry
    exact h entry.2 hmem entry.1 hkey
  rw [canonical, canonical, hsort]
  simp [he]

/-- Nor does it matter in which of the layers it is. -/
theorem canonical_override_move {xs ys us vs : List α} {e : α} {k : K} (he : key e = some k)
    (h : ∀ a ∈ xs ++ ys ++ (us ++ vs), ∀ k', key a = some k' → rank k' ≠ rank k) :
    canonical key rank (override key (xs ++ e :: ys) (us ++ vs)) =
      canonical key rank (override key (xs ++ ys) (us ++ e :: vs)) := by
  have hkey : ∀ a ∈ xs ++ ys ++ (us ++ vs), key a ≠ some k := fun a ha hk => h a ha k hk rfl
  have hfree : k ∉ (us ++ vs).filterMap key := by
    intro hmem
    obtain ⟨a, ha, hk⟩ := List.mem_filterMap.1 hmem
    exact hkey a (List.mem_append_right _ ha) hk
  have hkept : ∀ zs : List α, (∀ a ∈ zs, key a ≠ some k) →
      zs.filter (survives key (us ++ e :: vs)) = zs.filter (survives key (us ++ vs)) := by
    intro zs hzs
    apply List.filter_congr
    intro a ha
    unfold survives
    cases hk : key a with
    | none => rfl
    | some k' =>
      have hne : k' ≠ k := by
        rintro rfl
        exact hzs a ha hk
      simp [he, hne]
  have hxs := hkept xs fun a ha => hkey a (by simp [ha])
  have hys := hkept ys fun a ha => hkey a (by simp [ha])
  let kept := fun zs : List α => zs.filter (survives key (us ++ vs))
  have hlower : override key (xs ++ e :: ys) (us ++ vs) = kept xs ++ e :: (kept ys ++ (us ++ vs)) := by
    have hsurvives : survives key (us ++ vs) e = true := by simpa [survives, he] using hfree
    rw [override, List.filter_append, List.filter_cons_of_pos hsurvives, List.append_assoc,
      List.cons_append]
  have hupper : override key (xs ++ ys) (us ++ e :: vs) = (kept xs ++ kept ys ++ us) ++ e :: vs := by
    rw [override, List.filter_append, hxs, hys, List.append_assoc _ us]
  have hmem : ∀ a ∈ kept xs ++ (kept ys ++ (us ++ vs)), a ∈ xs ++ ys ++ (us ++ vs) := by
    intro a ha
    simp only [kept, List.mem_append, List.mem_filter] at ha ⊢
    tauto
  rw [hlower, hupper, canonical_middle he fun a ha => h a (hmem a ha)]
  rw [canonical_middle he fun a ha => h a (hmem a (by simpa using ha))]
  simp

omit [LinearOrder R] in
/-- An entry that is replaced may as well not be there. -/
theorem override_drop {xs ys upper : List α} {e : α} {k : K} (he : key e = some k)
    (hk : k ∈ upper.filterMap key) :
    override key (xs ++ e :: ys) upper = override key (xs ++ ys) upper := by
  have hreplaced : ¬ survives key upper e = true := by simpa [survives, he] using hk
  rw [override, override, List.filter_append, List.filter_append, List.filter_cons_of_neg hreplaced]

/-! ## The same lists under other keys -/

variable [DecidableEq K'] {key' : β → Option K'} {rank' : K' → R} {f : K → K'} {g : α → β}

omit [LinearOrder R] in
theorem map_override {lower upper : List α}
    (hkey : ∀ a ∈ lower ++ upper, key' (g a) = (key a).map f)
    (hf : ∀ a ∈ lower, ∀ b ∈ upper, ∀ k l, key a = some k → key b = some l → f k = f l → k = l) :
    (override key lower upper).map g = override key' (lower.map g) (upper.map g) := by
  have hupper : (upper.map g).filterMap key' = (upper.filterMap key).map f := by
    rw [List.filterMap_map, List.map_filterMap]
    apply List.filterMap_congr
    intro b hb
    exact hkey b (List.mem_append_right lower hb)
  rw [override, override, List.map_append, List.filter_map]
  congr 2
  apply List.filter_congr
  intro a ha
  rw [Function.comp_apply, survives, survives, hupper, hkey a (List.mem_append_left upper ha)]
  cases hk : key a with
  | none => rfl
  | some k =>
    have hiff : f k ∈ (upper.filterMap key).map f ↔ k ∈ upper.filterMap key := by
      constructor
      · intro hmem
        obtain ⟨l, hl, heq⟩ := List.mem_map.1 hmem
        obtain ⟨b, hb, hbl⟩ := List.mem_filterMap.1 hl
        rwa [hf a ha b hb k l hk hbl heq.symm]
      · intro hmem
        exact List.mem_map_of_mem hmem
    simp only [Option.map_some, Option.all_some, hiff]

omit [DecidableEq K] [DecidableEq K'] in
theorem map_canonical {xs : List α} (hkey : ∀ a ∈ xs, key' (g a) = (key a).map f)
    (hrank : ∀ k, rank' (f k) = rank k) :
    (canonical key rank xs).map g = canonical key' rank' (xs.map g) := by
  have hkeyed : keyedEntries key' (xs.map g) =
      (keyedEntries key xs).map fun entry => (f entry.1, g entry.2) := by
    rw [keyedEntries, keyedEntries, List.filterMap_map, List.map_filterMap]
    apply List.filterMap_congr
    intro a ha
    simp only [Function.comp_apply, hkey a ha, Option.map_map]
    rfl
  have hsort : sortBy (fun entry => rank' entry.1) (keyedEntries key' (xs.map g)) =
      (sortBy (fun entry => rank entry.1) (keyedEntries key xs)).map
        fun entry => (f entry.1, g entry.2) := by
    rw [hkeyed]
    exact (map_sortBy fun entry _ => hrank entry.1).symm
  have hrest : (xs.map g).filter (fun b => (key' b).isNone) =
      (xs.filter fun a => (key a).isNone).map g := by
    rw [List.filter_map]
    congr 1
    apply List.filter_congr
    intro a ha
    rw [Function.comp_apply, hkey a ha, Option.isNone_map]
  rw [canonical, canonical, hsort, hrest]
  simp

end FerrumNexus.Sequences
