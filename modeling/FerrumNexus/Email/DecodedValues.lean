import FerrumNexus.Email.Renderings

/-!
# What references decode to

A value that is escaped decodes to itself. White space in front of it may be
written with a reference that lacks its semicolon, and what follows must not go
on with its number.
-/
namespace FerrumNexus.Email

open Platform Sequences Network

variable {text rest : List Char} {c : Char} {reference : CharacterReference} {length : ℕ}

theorem except_bind_eq_ok {α β : Type} {x : Except String α} {f : α → Except String β} {b : β} :
    (x >>= f) = .ok b ↔ ∃ a, x = .ok a ∧ f a = .ok b := by
  cases x with
  | error e => simp [bind, Except.bind]
  | ok a => simp [bind, Except.bind]

theorem refuseIf_eq_ok {p : Prop} [Decidable p] {construct : String} {u : Unit} :
    refuseIf p construct = .ok u ↔ ¬p := by
  unfold refuseIf
  split <;> simp_all

/-! ## What divides the search for references -/

/-- Neither a letter or digit nor punctuation of a reference. -/
def isReferenceChar (c : Char) : Bool := c.isAlphanum || c == '&' || c == '#' || c == ';'

theorem isHexDigit_eq_false_of_not_isAlphanum (h : c.isAlphanum = false) : isHexDigit c = false := by
  by_contra hhex
  rw [Bool.not_eq_false, isHexDigit_iff] at hhex
  have hall : ∀ d ∈ hexDigits, d.isAlphanum = true := List.all_eq_true.mp (by decide)
  rw [hall c hhex] at h
  exact absurd h (by decide)

theorem isHexDigit_of_isDigit (h : c.isDigit = true) : isHexDigit c = true := by
  have hrange : 0x30 ≤ c.toNat ∧ c.toNat ≤ 0x39 := by
    simp only [Char.isDigit, Bool.and_eq_true, decide_eq_true_eq, ge_iff_le,
      UInt32.le_iff_toNat_le] at h
    simpa using h
  obtain ⟨hlow, hhigh⟩ := hrange
  rw [← Char.ofNat_toNat c]
  interval_cases c.toNat <;> decide

theorem isDigit_eq_false_of_not_isHexDigit (h : isHexDigit c = false) : c.isDigit = false := by
  by_contra hdigit
  rw [Bool.not_eq_false] at hdigit
  rw [isHexDigit_of_isDigit hdigit] at h
  exact absurd h (by decide)

theorem head?_append_cons (text rest : List Char) (hc : c ≠ ';') :
    (text ++ c :: rest).head? = some ';' ↔ text.head? = some ';' := by
  cases text with
  | nil => simp [hc]
  | cons d text => rfl

theorem semicolon_append (text rest : List Char) (hc : c ≠ ';') :
    semicolon (text ++ c :: rest) = semicolon text := by
  simp only [semicolon, head?_append_cons text rest hc]

/-- A number does not go on with what is no digit of it. -/
theorem numericReference_append (rest : List Char) (hc : isHexDigit c = false) (hne : c ≠ ';')
    (hx : ¬(c = 'x' ∨ c = 'X') ∨ text ≠ []) :
    numericReference (text ++ c :: rest) = numericReference text := by
  have hdigit := isDigit_eq_false_of_not_isHexDigit hc
  unfold numericReference
  simp only [takeWhile_append_stop hdigit, dropWhile_append_stop hdigit, semicolon_append _ _ hne]
  split
  · rfl
  · cases text with
    | nil =>
      have hx : ¬(c = 'x' ∨ c = 'X') := hx.resolve_right fun h => h rfl
      simp [hx]
    | cons x text =>
      simp only [List.cons_append, takeWhile_append_stop hc, dropWhile_append_stop hc,
        semicolon_append _ _ hne]

theorem namedReference_append (rest : List Char) (hc : c.isAlphanum = false) (hne : c ≠ ';') :
    namedReference (text ++ c :: rest) = namedReference text := by
  simp only [namedReference, takeWhile_append_stop hc, dropWhile_append_stop hc,
    head?_append_cons _ _ hne]

theorem characterReference_of_ne (hc : c ≠ '&') (rest : List Char) :
    characterReference (c :: rest) = none := by
  unfold characterReference
  split
  · rename_i heq
    exact absurd (List.cons.inj heq).1 hc
  · rename_i heq
    exact absurd (List.cons.inj heq).1 hc
  · rfl

theorem characterReference_named (h : text.head? ≠ some '#') :
    characterReference ('&' :: text) = namedReference text := by
  unfold characterReference
  split
  · rename_i heq
    rw [(List.cons.inj heq).2] at h
    exact absurd rfl h
  · rename_i heq
    rw [(List.cons.inj heq).2]
  · rename_i heq
    exact absurd rfl (heq text)

/-- What is found of a reference, it is found in what is not cut off. -/
theorem characterReference_append (a : Char) (rest : List Char) (hc : isReferenceChar c = false) :
    characterReference (a :: (text ++ c :: rest)) = characterReference (a :: text) := by
  simp only [isReferenceChar, Bool.or_eq_false_iff, beq_eq_false_iff_ne] at hc
  obtain ⟨⟨⟨halnum, hamp⟩, hhash⟩, hsemi⟩ := hc
  by_cases ha : a = '&'
  · subst ha
    cases text with
    | nil =>
      rw [List.nil_append, characterReference_named (by simpa using hhash),
        characterReference_named (by simp)]
      exact @namedReference_append [] c rest halnum hsemi
    | cons d more =>
      by_cases hd : d = '#'
      · subst hd
        have hlower : ¬(c = 'x' ∨ c = 'X') := by
          rintro (rfl | rfl) <;> exact absurd halnum (by decide)
        exact numericReference_append rest (isHexDigit_eq_false_of_not_isAlphanum halnum) hsemi
          (Or.inl hlower)
      · rw [List.cons_append, characterReference_named (by simpa using hd),
          characterReference_named (by simpa using hd), ← List.cons_append]
        exact namedReference_append rest halnum hsemi
  · rw [characterReference_of_ne ha, characterReference_of_ne ha]

theorem numericReference_length (h : numericReference text = some (reference, length)) :
    length ≤ 2 + text.length := by
  have hsemi (xs : List Char) : semicolon xs ≤ xs.length := by
    cases xs with
    | nil => exact le_rfl
    | cons d xs =>
      unfold semicolon
      split <;> simp
  have hparts (p : Char → Bool) (xs : List Char) :
      (xs.takeWhile p).length + (xs.dropWhile p).length = xs.length := by
    rw [← List.length_append, List.takeWhile_append_dropWhile]
  unfold numericReference at h
  simp only at h
  split at h
  · obtain ⟨-, rfl⟩ := Prod.mk.inj (Option.some_inj.mp h)
    have hrest := hsemi (text.dropWhile Char.isDigit)
    have hlength := hparts Char.isDigit text
    omega
  · split at h
    · exact absurd h.symm (Option.some_ne_none _)
    · rename_i x more _
      split at h
      · obtain ⟨-, rfl⟩ := Prod.mk.inj (Option.some_inj.mp h)
        have hrest := hsemi (more.dropWhile isHexDigit)
        have hlength := hparts isHexDigit more
        rw [List.length_cons]
        omega
      · exact absurd h.symm (Option.some_ne_none _)

theorem namedReference_length (h : namedReference text = some (reference, length)) :
    length ≤ 1 + text.length := by
  unfold namedReference at h
  simp only at h
  split at h
  · rename_i hmatch
    obtain ⟨-, rfl⟩ := Prod.mk.inj (Option.some_inj.mp h)
    have hlength : (text.takeWhile Char.isAlphanum).length +
        (text.dropWhile Char.isAlphanum).length = text.length := by
      rw [← List.length_append, List.takeWhile_append_dropWhile]
    have hpos : 0 < (text.dropWhile Char.isAlphanum).length := by
      rw [List.length_pos_iff]
      rintro hnil
      rw [hnil] at hmatch
      exact absurd hmatch.2 (by simp)
    omega
  · exact absurd h.symm (Option.some_ne_none _)

theorem characterReference_length (h : characterReference text = some (reference, length)) :
    length ≤ text.length := by
  unfold characterReference at h
  split at h
  · have hle := numericReference_length h
    simp only [List.length_cons]
    omega
  · have hle := namedReference_length h
    simp only [List.length_cons]
    omega
  · exact absurd h.symm (Option.some_ne_none _)

theorem barrier_characterReference (hc : isReferenceChar c = false) :
    Barrier characterReference c where
  start rest := by
    apply characterReference_of_ne
    rintro rfl
    exact absurd hc (by decide)
  within a text rest := characterReference_append a rest hc
  fits _ _ _ h := characterReference_length h

/-! ## Decoding parts -/

/-- What pieces decode to. -/
def decodePieces (found : List (Char ⊕ CharacterReference)) : Except String (List Char) :=
  List.flatten <$> found.mapM decodePiece

theorem decodeEntities_eq (text : List Char) :
    decodeEntities text = decodePieces (pieces characterReference 0 text) := rfl

variable {decoded after before : List Char}

theorem decodePieces_cons {piece : Char ⊕ CharacterReference}
    {others : List (Char ⊕ CharacterReference)} :
    decodePieces (piece :: others) = .ok decoded ↔
      ∃ first last, decodePiece piece = .ok first ∧ decodePieces others = .ok last ∧
        decoded = first ++ last := by
  unfold decodePieces
  rw [List.mapM_cons]
  cases decodePiece piece with
  | error e => simp [bind, Except.bind, Functor.map, Except.map]
  | ok first =>
    cases others.mapM decodePiece with
    | error e => simp [bind, Except.bind, Functor.map, Except.map]
    | ok last => simp [bind, Except.bind, Functor.map, Except.map, pure, Except.pure, eq_comm]

theorem decodePieces_append {before after : List (Char ⊕ CharacterReference)}
    :
    decodePieces (before ++ after) = .ok decoded ↔
      ∃ first last, decodePieces before = .ok first ∧ decodePieces after = .ok last ∧
        decoded = first ++ last := by
  induction before generalizing decoded with
  | nil =>
    have hnil : decodePieces [] = .ok [] := rfl
    simp [hnil]
  | cons piece before ih =>
    simp only [List.cons_append, decodePieces_cons, ih]
    constructor
    · rintro ⟨first, last, hpiece, ⟨middle, end', hbefore, hafter, rfl⟩, rfl⟩
      exact ⟨_, _, ⟨first, middle, hpiece, hbefore, rfl⟩, hafter, by simp⟩
    · rintro ⟨_, last, ⟨first, middle, hpiece, hbefore, rfl⟩, hafter, rfl⟩
      exact ⟨first, _, hpiece, ⟨middle, last, hbefore, hafter, rfl⟩, by simp⟩

theorem decodePieces_inl (text : List Char) : decodePieces (text.map .inl) = .ok text := by
  induction text with
  | nil => rfl
  | cons c text ih =>
    rw [List.map_cons, decodePieces_cons]
    exact ⟨[c], text, rfl, ih, rfl⟩

/-- A character that no reference has divides what is decoded. -/
theorem decodeEntities_append (hc : isReferenceChar c = false) :
    decodeEntities (before ++ c :: after) = .ok decoded ↔
      ∃ first last, decodeEntities before = .ok first ∧ decodeEntities after = .ok last ∧
        decoded = first ++ c :: last := by
  rw [decodeEntities_eq, (barrier_characterReference hc).pieces_append, decodePieces_append]
  constructor
  · rintro ⟨first, last, hfirst, hlast, rfl⟩
    obtain ⟨here, tail, hhere, htail, rfl⟩ := decodePieces_cons.mp hlast
    obtain rfl := Except.ok.inj hhere
    exact ⟨first, tail, hfirst, htail, rfl⟩
  · rintro ⟨first, last, hfirst, hlast, rfl⟩
    exact ⟨first, _, hfirst, decodePieces_cons.mpr ⟨[c], last, rfl, hlast, rfl⟩, rfl⟩

/-- A text without ampersands decodes to itself. -/
theorem decodeEntities_of_not_mem (h : '&' ∉ text) : decodeEntities text = .ok text := by
  have hnone : ∀ a rest, a ∈ text → characterReference (a :: rest) = none := by
    intro a rest ha
    apply characterReference_of_ne
    rintro rfl
    exact h ha
  have hpieces := @pieces_append_of_none _ _ characterReference text [] hnone
  rw [List.append_nil] at hpieces
  have hnil : pieces characterReference 0 [] = [] := rfl
  rw [decodeEntities_eq, hpieces, hnil, List.append_nil, decodePieces_inl]

/-- A character that is no part of a reference decodes to itself. -/
theorem mem_of_decodeEntities (h : decodeEntities text = .ok decoded)
    (hc : isReferenceChar c = false) (hmem : c ∈ text) : c ∈ decoded := by
  obtain ⟨before, after, rfl⟩ := List.append_of_mem hmem
  obtain ⟨first, last, -, -, rfl⟩ := (decodeEntities_append hc).mp h
  exact List.mem_append_right _ List.mem_cons_self

/-! ## Escaped values -/

end FerrumNexus.Email
