import Mathlib.Tactic

/-!
# Patterns with wildcards

The `LIKE` of SQLite: `%` fits any stretch, `_` any character, and a letter of
ASCII fits itself in either case. A pattern between two `%` fits a text as soon
as what it encloses fits somewhere in it.
-/
namespace FerrumNexus.Sequences

/-- What is left of a text can be read. -/
def like : List Char → List Char → Bool
  | [], text => text.isEmpty
  | c :: pattern, text =>
    if c = '%' then text.tails.any (like pattern)
    else
      (text.head?.any fun d => c = '_' || c.toLower == d.toLower) && like pattern text.tail

theorem like_percent (pattern text : List Char) :
    like ('%' :: pattern) text = true ↔ ∃ rest, rest <:+ text ∧ like pattern rest = true := by
  rw [like, if_pos rfl, List.any_eq_true]
  simp only [List.mem_tails]

theorem like_cons_of_ne {c : Char} (hc : c ≠ '%') (pattern : List Char) (d : Char)
    (text : List Char) :
    like (c :: pattern) (d :: text) =
      ((decide (c = '_') || c.toLower == d.toLower) && like pattern text) := by
  rw [like, if_neg hc]
  rfl

theorem like_cons_nil_of_ne {c : Char} (hc : c ≠ '%') (pattern : List Char) :
    like (c :: pattern) [] = false := by
  rw [like, if_neg hc]
  rfl

/-- A text that is written out fits itself, wildcards included. -/
theorem like_self (text : List Char) : like text text = true := by
  induction text with
  | nil => rfl
  | cons c text ih =>
    by_cases hc : c = '%'
    · subst hc
      exact (like_percent text _).mpr ⟨text, List.suffix_cons '%' text, ih⟩
    · rw [like_cons_of_ne hc, ih]
      simp

theorem like_append {pattern more text rest : List Char} (h : like pattern text = true)
    (hmore : like more rest = true) : like (pattern ++ more) (text ++ rest) = true := by
  induction pattern generalizing text with
  | nil =>
    obtain rfl := List.isEmpty_iff.mp h
    exact hmore
  | cons c pattern ih =>
    by_cases hc : c = '%'
    · subst hc
      obtain ⟨tail, htail, hlike⟩ := (like_percent pattern text).mp h
      obtain ⟨front, rfl⟩ := htail
      refine (like_percent (pattern ++ more) _).mpr ⟨tail ++ rest, ?_, ih hlike⟩
      exact ⟨front, (List.append_assoc front tail rest).symm⟩
    · cases text with
      | nil =>
        rw [like_cons_nil_of_ne hc] at h
        exact absurd h Bool.false_ne_true
      | cons d text =>
        rw [like_cons_of_ne hc, Bool.and_eq_true] at h
        rw [List.cons_append, List.cons_append, like_cons_of_ne hc, h.1, ih h.2]
        rfl

theorem like_percent_any (text : List Char) : like ['%'] text = true :=
  (like_percent [] text).mpr ⟨[], List.nil_suffix, rfl⟩

/-- The rest of a text fits `%`. -/
theorem like_append_percent {pattern text : List Char} (h : like (pattern ++ ['%']) text = true)
    (rest : List Char) : like (pattern ++ ['%']) (text ++ rest) = true := by
  induction pattern generalizing text with
  | nil => exact like_percent_any (text ++ rest)
  | cons c pattern ih =>
    by_cases hc : c = '%'
    · subst hc
      obtain ⟨tail, ⟨front, rfl⟩, hlike⟩ := (like_percent (pattern ++ ['%']) text).mp h
      refine (like_percent (pattern ++ ['%']) _).mpr ⟨tail ++ rest, ?_, ih hlike⟩
      exact ⟨front, (List.append_assoc front tail rest).symm⟩
    · cases text with
      | nil =>
        rw [List.cons_append, like_cons_nil_of_ne hc] at h
        exact absurd h Bool.false_ne_true
      | cons d text =>
        rw [List.cons_append, like_cons_of_ne hc, Bool.and_eq_true] at h
        rw [List.cons_append, List.cons_append, like_cons_of_ne hc, h.1, ih h.2]
        rfl

/-- What fits in a part of a text fits in the text. -/
theorem like_of_part {pattern text whole : List Char} (hpart : text <:+: whole)
    (h : like ('%' :: (pattern ++ ['%'])) text = true) :
    like ('%' :: (pattern ++ ['%'])) whole = true := by
  obtain ⟨front, rest, rfl⟩ := hpart
  obtain ⟨tail, ⟨skipped, rfl⟩, hlike⟩ := (like_percent (pattern ++ ['%']) text).mp h
  refine (like_percent (pattern ++ ['%']) _).mpr
    ⟨tail ++ rest, ⟨front ++ skipped, ?_⟩, like_append_percent hlike rest⟩
  simp only [List.append_assoc]

/-- What is written out in a text is found. -/
theorem like_of_mem {pattern text : List Char} (h : pattern <:+: text) :
    like ('%' :: (pattern ++ ['%'])) text = true := by
  apply like_of_part h
  refine (like_percent (pattern ++ ['%']) pattern).mpr ⟨pattern, List.suffix_rfl, ?_⟩
  have hself := like_append (like_self pattern) (like_percent_any [])
  rwa [List.append_nil] at hself

end FerrumNexus.Sequences
