import Mathlib.Tactic

/-!
# A pattern wherever it matches

A global pattern is tried at each element from the left. Where it matches, the
search goes on behind the match. An element that no match can have inside it
divides the search.
-/
namespace FerrumNexus.Sequences

variable {A B : Type}

/-- What a pattern finds at the start of a sequence, and the length of the match. -/
abbrev Pattern (A B : Type) := List A → Option (B × ℕ)

/-- The elements outside all matches, and the matches, in order. `skip` elements belong to a match
already. -/
def pieces (pattern : Pattern A B) : ℕ → List A → List (A ⊕ B)
  | _, [] => []
  | skip + 1, _ :: rest => pieces pattern skip rest
  | 0, a :: rest =>
    match pattern (a :: rest) with
    | none => .inl a :: pieces pattern 0 rest
    | some (b, length) => .inr b :: pieces pattern (length - 1) rest

/-- `xs.matchAll(pattern)`. -/
def matchAll (pattern : Pattern A B) (xs : List A) : List B :=
  (pieces pattern 0 xs).filterMap Sum.getRight?

/-- `xs.replace(pattern, f)`. -/
def replace (pattern : Pattern A B) (f : B → List A) (xs : List A) : List A :=
  (pieces pattern 0 xs).flatMap (Sum.elim (fun a => [a]) f)

section Search

variable {pattern : Pattern A B}

theorem pieces_skip (skip : ℕ) (xs : List A) :
    pieces pattern skip xs = pieces pattern 0 (xs.drop skip) := by
  induction skip generalizing xs with
  | zero => rfl
  | succ skip ih =>
    cases xs with
    | nil => rfl
    | cons a rest => exact ih rest

variable {before after rest xs : List A}

theorem pieces_of_none {a : A} (h : pattern (a :: rest) = none) :
    pieces pattern 0 (a :: rest) = .inl a :: pieces pattern 0 rest := by
  rw [pieces, h]

theorem pieces_of_some {a : A} {b : B} {length : ℕ} (h : pattern (a :: rest) = some (b, length)) :
    pieces pattern 0 (a :: rest) = .inr b :: pieces pattern 0 (rest.drop (length - 1)) := by
  rw [pieces, h]
  simp only [pieces_skip (length - 1) rest]

/-- A pattern that matches at no suffix matches nowhere. -/
theorem matchAll_eq_nil_iff :
    matchAll pattern xs = [] ↔ ∀ ys, ys <:+ xs → ys ≠ [] → pattern ys = none := by
  induction xs with
  | nil =>
    constructor
    · intro _ ys hys hne
      exact absurd (List.suffix_nil.mp hys) hne
    · intro _
      rfl
  | cons a rest ih =>
    unfold matchAll at ih ⊢
    cases hmatch : pattern (a :: rest) with
    | none =>
      rw [pieces_of_none hmatch, List.filterMap_cons_none rfl, ih]
      constructor
      · intro h ys hys hne
        rcases List.suffix_cons_iff.mp hys with rfl | hrest
        · exact hmatch
        · exact h ys hrest hne
      · intro h ys hys
        exact h ys (hys.trans (List.suffix_cons a rest))
    | some found =>
      obtain ⟨b, length⟩ := found
      have hfound : Sum.getRight? (Sum.inr b : A ⊕ B) = some b := rfl
      rw [pieces_of_some hmatch, List.filterMap_cons_some hfound]
      constructor
      · intro h
        exact absurd h (List.cons_ne_nil _ _)
      · intro h
        have hnone := h (a :: rest) List.suffix_rfl (List.cons_ne_nil a rest)
        rw [hmatch] at hnone
        exact absurd hnone (Option.some_ne_none _)

/-- Where there is no match, everything stays. -/
theorem pieces_append_of_none (h : ∀ a rest, a ∈ before → pattern (a :: rest) = none) :
    pieces pattern 0 (before ++ after) = before.map .inl ++ pieces pattern 0 after := by
  induction before with
  | nil => rfl
  | cons a before ih =>
    have hrest := ih fun b rest hb => h b rest (List.mem_cons_of_mem a hb)
    rw [List.cons_append, pieces_of_none (h a _ List.mem_cons_self), hrest]
    rfl

theorem pieces_of_matchAll_eq_nil (h : matchAll pattern xs = []) :
    pieces pattern 0 xs = xs.map .inl := by
  rw [matchAll_eq_nil_iff] at h
  induction xs with
  | nil => rfl
  | cons a rest ih =>
    rw [pieces_of_none (h _ List.suffix_rfl (List.cons_ne_nil a rest)),
      ih fun ys hys => h ys (hys.trans (List.suffix_cons a rest))]
    rfl

theorem mem_of_inl_mem_pieces {a : A} {skip : ℕ} (h : Sum.inl a ∈ pieces pattern skip xs) :
    a ∈ xs := by
  induction xs generalizing skip with
  | nil => exact absurd h List.not_mem_nil
  | cons b rest ih =>
    cases skip with
    | succ skip => exact List.mem_cons_of_mem b (ih h)
    | zero =>
      cases hmatch : pattern (b :: rest) with
      | none =>
        rw [pieces_of_none hmatch] at h
        rcases List.mem_cons.mp h with hhere | hlater
        · obtain rfl := Sum.inl.inj hhere
          exact List.mem_cons_self
        · exact List.mem_cons_of_mem b (ih hlater)
      | some found =>
        rw [pieces_of_some hmatch] at h
        rcases List.mem_cons.mp h with hhere | hlater
        · exact absurd hhere Sum.inl_ne_inr
        · rw [← pieces_skip] at hlater
          exact List.mem_cons_of_mem b (ih hlater)

/-- What is replaced has only elements of the sequence and of the replacements. -/
theorem mem_replace {a : A} {f : B → List A} (h : a ∈ replace pattern f xs) :
    a ∈ xs ∨ ∃ b, a ∈ f b := by
  obtain ⟨piece, hpiece, ha⟩ := List.mem_flatMap.mp h
  cases piece with
  | inr b => exact Or.inr ⟨b, ha⟩
  | inl x =>
    obtain rfl := List.mem_singleton.mp ha
    exact Or.inl (mem_of_inl_mem_pieces hpiece)

theorem flatMap_inl (f : B → List A) (xs : List A) :
    (xs.map .inl).flatMap (Sum.elim (fun a => [a]) f) = xs := by
  induction xs with
  | nil => rfl
  | cons a xs ih =>
    rw [List.map_cons, List.flatMap_cons, ih]
    rfl

theorem replace_of_matchAll_eq_nil (h : matchAll pattern xs = []) (f : B → List A) :
    replace pattern f xs = xs := by
  rw [replace, pieces_of_matchAll_eq_nil h, flatMap_inl]

theorem replace_append_of_none (h : ∀ a rest, a ∈ before → pattern (a :: rest) = none)
    (f : B → List A) :
    replace pattern f (before ++ after) = before ++ replace pattern f after := by
  rw [replace, pieces_append_of_none h, List.flatMap_append, flatMap_inl, replace]

end Search

/-! ## Dividing a search -/

/-- No match has `c` inside it or depends on what follows `c`. -/
structure Barrier (pattern : Pattern A B) (c : A) : Prop where
  start : ∀ after, pattern (c :: after) = none
  within : ∀ a before after, pattern (a :: before ++ c :: after) = pattern (a :: before)
  fits : ∀ xs b length, pattern xs = some (b, length) → length ≤ xs.length

section Division

variable {pattern : Pattern A B} {c : A}

theorem Barrier.pieces_append (h : Barrier pattern c) (before after : List A) :
    pieces pattern 0 (before ++ c :: after) =
      pieces pattern 0 before ++ .inl c :: pieces pattern 0 after := by
  induction hlength : before.length using Nat.strong_induction_on generalizing before with
  | _ n ih =>
    cases before with
    | nil => exact pieces_of_none (h.start after)
    | cons a before =>
      have hsame : pattern (a :: (before ++ c :: after)) = pattern (a :: before) :=
        h.within a before after
      rw [List.length_cons] at hlength
      cases hmatch : pattern (a :: before) with
      | none =>
        rw [hmatch] at hsame
        have hrest := ih before.length (by omega) before rfl
        rw [List.cons_append, pieces_of_none hsame, pieces_of_none hmatch, hrest]
        rfl
      | some found =>
        obtain ⟨b, length⟩ := found
        rw [hmatch] at hsame
        have hfits := h.fits (a :: before) b length hmatch
        rw [List.length_cons] at hfits
        have hdrop : (before ++ c :: after).drop (length - 1) =
            before.drop (length - 1) ++ c :: after :=
          List.drop_append_of_le_length (by omega)
        have hshort : (before.drop (length - 1)).length < n := by
          rw [List.length_drop]
          omega
        have hrest := ih _ hshort (before.drop (length - 1)) rfl
        rw [List.cons_append, pieces_of_some hsame, pieces_of_some hmatch, hdrop, hrest]
        rfl

theorem Barrier.replace_append (h : Barrier pattern c) (f : B → List A) (before after : List A) :
    replace pattern f (before ++ c :: after) =
      replace pattern f before ++ c :: replace pattern f after := by
  rw [replace, h.pieces_append, List.flatMap_append, List.flatMap_cons]
  rfl

theorem Barrier.matchAll_append (h : Barrier pattern c) (before after : List A) :
    matchAll pattern (before ++ c :: after) =
      matchAll pattern before ++ matchAll pattern after := by
  rw [matchAll, h.pieces_append, List.filterMap_append, List.filterMap_cons_none rfl]
  rfl

end Division

/-! ## Runs up to an element -/

section Runs

variable {p : A → Bool} {c : A}

theorem takeWhile_append_stop (h : p c = false) (before after : List A) :
    (before ++ c :: after).takeWhile p = before.takeWhile p := by
  induction before with
  | nil => simp [h]
  | cons a before ih =>
    rw [List.cons_append, List.takeWhile_cons, List.takeWhile_cons, ih]

theorem dropWhile_append_stop (h : p c = false) (before after : List A) :
    (before ++ c :: after).dropWhile p = before.dropWhile p ++ c :: after := by
  induction before with
  | nil => simp [h]
  | cons a before ih =>
    rw [List.cons_append, List.dropWhile_cons, List.dropWhile_cons, ih]
    split <;> rfl

theorem takeWhile_append_all {before after : List A} (hbefore : before.all p) (h : p c = false) :
    (before ++ c :: after).takeWhile p = before := by
  rw [List.takeWhile_append_of_pos (List.all_eq_true.mp hbefore), List.takeWhile_cons]
  simp [h]

theorem dropWhile_append_all {before after : List A} (hbefore : before.all p) (h : p c = false) :
    (before ++ c :: after).dropWhile p = c :: after := by
  rw [List.dropWhile_append_of_pos (List.all_eq_true.mp hbefore), List.dropWhile_cons]
  simp [h]

end Runs

/-! ## Stand-ins -/

section Replacing

variable {pattern : Pattern A B} {f g : B → List A}

theorem replace_of_none {a : A} {rest : List A} (h : pattern (a :: rest) = none) :
    replace pattern f (a :: rest) = a :: replace pattern f rest := by
  simp [replace, pieces_of_none h]

theorem replace_of_some {a : A} {rest : List A} {b : B} {length : ℕ}
    (h : pattern (a :: rest) = some (b, length)) :
    replace pattern f (a :: rest) = f b ++ replace pattern f (rest.drop (length - 1)) := by
  simp [replace, pieces_of_some h]

/-! ## Weights -/

/-- The weight of a sequence whose elements weigh `w`. -/
def weight (w : A → ℕ) (xs : List A) : ℕ := (xs.map w).sum

@[simp] theorem weight_nil (w : A → ℕ) : weight w [] = 0 := rfl

@[simp] theorem weight_cons (w : A → ℕ) (a : A) (xs : List A) :
    weight w (a :: xs) = w a + weight w xs := by
  simp [weight]

@[simp] theorem weight_append (w : A → ℕ) (xs ys : List A) :
    weight w (xs ++ ys) = weight w xs + weight w ys := by
  simp [weight]

theorem weight_replicate (w : A → ℕ) (n : ℕ) (a : A) :
    weight w (List.replicate n a) = n * w a := by
  simp [weight]

theorem weight_flatMap_le {w : A → ℕ} {p q : B → List A} (xs : List B)
    (h : ∀ b, weight w (p b) ≤ weight w (q b)) :
    weight w (xs.flatMap p) ≤ weight w (xs.flatMap q) := by
  induction xs with
  | nil => simp
  | cons b xs ih =>
    have hb := h b
    simp only [List.flatMap_cons, weight_append]
    omega

/-- Larger stand-ins give a larger sequence. -/
theorem weight_replace_le {w : A → ℕ} (xs : List A) (h : ∀ b, weight w (f b) ≤ weight w (g b)) :
    weight w (replace pattern f xs) ≤ weight w (replace pattern g xs) := by
  apply weight_flatMap_le
  intro piece
  cases piece with
  | inl a => simp
  | inr b => simpa using h b

/-! ## Stand-ins that complete no match -/

/-- Either nothing was replaced, or the first stand-in is behind what stood in
front of a match. -/
theorem replace_cases (xs : List A) :
    replace pattern f xs = xs ∨
      ∃ before ys b tail, xs = before ++ ys ∧ pattern ys ≠ none ∧
        replace pattern f xs = before ++ (f b ++ tail) := by
  induction xs with
  | nil => simp [replace, pieces]
  | cons a rest ih =>
    cases hmatch : pattern (a :: rest) with
    | some found =>
      right
      exact ⟨[], a :: rest, found.1, _, rfl, by simp [hmatch], replace_of_some hmatch⟩
    | none =>
      rw [replace_of_none hmatch]
      rcases ih with hsame | ⟨before, ys, b, tail, hrest, hys, hout⟩
      · left
        rw [hsame]
      · right
        exact ⟨a :: before, ys, b, tail, by simp [hrest], hys, by simp [hout]⟩

/-- A stand-in in which no match begins, and behind which one would have been a
match already. -/
structure Inert (pattern : Pattern A B) (f : B → List A) : Prop where
  within : ∀ b ys tail, ys <:+ f b → ys ≠ [] → pattern (ys ++ tail) = none
  behind : ∀ before ys b tail, before ≠ [] → pattern ys ≠ none → pattern (before ++ ys) = none →
    pattern (before ++ (f b ++ tail)) = none

theorem suffix_of_append {ys before after : List A} (h : ys <:+ before ++ after) :
    ys <:+ after ∨ ∃ rest, rest <:+ before ∧ rest ≠ [] ∧ ys = rest ++ after := by
  obtain ⟨front, hfront⟩ := h
  rcases List.append_eq_append_iff.mp hfront with ⟨middle, hbefore, hys⟩ | ⟨middle, -, hafter⟩
  · cases middle with
    | nil => exact .inl (by simp [hys])
    | cons a middle => exact .inr ⟨a :: middle, ⟨front, hbefore.symm⟩, by simp, hys⟩
  · exact .inl ⟨middle, hafter.symm⟩

/-- With inert stand-ins for its matches a pattern matches nowhere. -/
theorem matchAll_replace_eq_nil (hf : Inert pattern f) (xs : List A) :
    matchAll pattern (replace pattern f xs) = [] := by
  rw [matchAll_eq_nil_iff]
  -- over the length, since a match may be long
  induction hlength : xs.length using Nat.strong_induction_on generalizing xs with
  | _ n ih =>
    cases xs with
    | nil =>
      intro ys hys hne
      exact absurd (List.suffix_nil.mp hys) hne
    | cons a rest =>
      cases hmatch : pattern (a :: rest) with
      | some found =>
        rw [replace_of_some hmatch]
        intro ys hys hne
        rcases suffix_of_append hys with hafter | ⟨part, hpart, hpartne, rfl⟩
        · exact ih _ (by simp at hlength ⊢; omega) _ rfl ys hafter hne
        · exact hf.within found.1 part _ hpart hpartne
      | none =>
        rw [replace_of_none hmatch]
        intro ys hys hne
        rcases List.suffix_cons_iff.mp hys with rfl | hafter
        · rcases @replace_cases A B pattern f rest with hsame |
            ⟨before, zs, b, tail, hrest, hzs, hout⟩
          · rw [hsame, hmatch]
          · rw [hout]
            rw [hrest] at hmatch
            exact hf.behind (a :: before) zs b tail (by simp) hzs hmatch
        · exact ih _ (by simp at hlength; omega) rest rfl ys hafter hne

end Replacing

end FerrumNexus.Sequences
