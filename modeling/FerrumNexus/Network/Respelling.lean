import FerrumNexus.Network.Literals
import Mathlib

/-!
# Other spellings of one address

Lower case letters, and a dotted quad written as its two groups, change the
spelling and not the address.
-/
namespace FerrumNexus.Network

@[simp] theorem lower_append (text more : Text) : lower (text ++ more) = lower text ++ lower more :=
  List.map_append

theorem lower_join {c : Char} (hc : c.toLower = c) (pieces : List Text) :
    lower (join c pieces) = join c (pieces.map lower) := by
  induction pieces with
  | nil => rfl
  | cons piece pieces ih =>
    cases pieces with
    | nil => simp
    | cons next pieces =>
      simp only [List.map_cons, join_cons_cons, lower_append] at ih ⊢
      simp [lower, hc] at ih ⊢
      exact ih

theorem lower_idem (text : Text) : lower (lower text) = lower text := by
  simp [lower, Function.comp_def]

theorem toLower_digit {c : Char} (h : c.isDigit = true) : c.toLower = c := by
  apply Char.toLower_eq_of_not_isUpper
  simp only [Char.isDigit, Char.isUpper, Bool.and_eq_true, decide_eq_true_eq,
    UInt32.le_iff_toNat_le] at h ⊢
  simp at h ⊢
  omega

theorem isZoneChar_toLower (c : Char) (h : isZoneChar c = true) : isZoneChar c.toLower = true := by
  by_cases hup : c.isUpper = true
  · -- an upper-case letter becomes a lower-case one
    have halpha : c.toLower.isAlpha = true := by
      rw [Char.isAlpha_toLower_eq_isAlpha, Char.isAlpha, hup]
      rfl
    simp [isZoneChar, Char.isAlphanum, halpha]
  · rwa [Char.toLower_eq_of_not_isUpper hup]

theorem IPv4.lower_text (q : IPv4) : lower q.text = q.text := by
  unfold lower
  refine (List.map_congr_left fun c hc => ?_).trans (List.map_id _)
  rcases q.mem_text hc with rfl | h
  · decide
  · exact toLower_digit h

namespace Hextet

def lowered (g : Hextet) : Hextet := ⟨lower g.val, by
  have h := g.property
  simp only [isHextet, Bool.and_eq_true, decide_eq_true_eq, List.all_eq_true, lower,
    List.length_map, List.mem_map] at h ⊢
  refine ⟨h.1, ?_⟩
  rintro - ⟨c, hc, rfl⟩
  exact (isHexDigit_iff _).2 (lower_hexDigit c (g.digits c hc)).1⟩

theorem hexValue_lowered (g : Hextet) : hexValue g.lowered.val = hexValue g.val :=
  hexValue_lower g.val fun c hc => (isHexDigit_iff c).2 (g.digits c hc)

/-- The numeral of a number below `2 ^ 16`. -/
def ofNat (n : ℕ) (h : n < 2 ^ 16) : Hextet := ⟨Nat.toDigits 16 n, by
  have hlen : (Nat.toDigits 16 n).length ≤ 4 :=
    (Nat.length_toDigits_le_iff (by decide) (by decide)).2 (by omega)
  have hpos : 0 < (Nat.toDigits 16 n).length := Nat.length_toDigits_pos
  simp only [isHextet, Bool.and_eq_true, decide_eq_true_eq, List.all_eq_true]
  exact ⟨⟨hpos, hlen⟩, fun c hc => (digitChars_toDigits n c hc).1⟩⟩

theorem lower_ofNat (n : ℕ) (h : n < 2 ^ 16) : lower (ofNat n h).val = (ofNat n h).val :=
  (List.map_congr_left fun c hc => (digitChars_toDigits n c hc).2).trans (List.map_id _)

@[simp] theorem hexValue_ofNat (n : ℕ) (h : n < 2 ^ 16) : hexValue (ofNat n h).val = n :=
  hexValue_toDigits n

end Hextet

/-- The two groups of a dotted quad, as numerals. -/
def IPv4.hextets (q : IPv4) : List Hextet :=
  [Hextet.ofNat (q.a * 256 + q.b) (by omega), Hextet.ofNat (q.c * 256 + q.d) (by omega)]

namespace Spelling

theorem lower_pieces (groups : List Hextet) (quad : Option IPv4) :
    (pieces groups quad).map lower = pieces (groups.map Hextet.lowered) quad := by
  cases quad <;> simp [pieces, Function.comp_def, IPv4.lower_text, Hextet.lowered]

theorem values_lowered (groups : List Hextet) (quad : Option IPv4) :
    values (groups.map Hextet.lowered) quad = values groups quad := by
  simp [values, Function.comp_def, Hextet.hexValue_lowered]

theorem isZone_lower {zone : Text} (h : isZone zone = true) : isZone (lower zone) = true := by
  cases zone with
  | nil => rfl
  | cons c zone =>
    simp only [isZone, Bool.and_eq_true, beq_iff_eq, Bool.not_eq_true', List.isEmpty_eq_false_iff,
      List.all_eq_true] at h
    obtain ⟨⟨rfl, hne⟩, hall⟩ := h
    simp only [lower, List.map_cons, isZone, Bool.and_eq_true, beq_iff_eq, Bool.not_eq_true',
      List.isEmpty_eq_false_iff, List.all_eq_true, List.mem_map]
    refine ⟨⟨by decide, by simpa using hne⟩, ?_⟩
    rintro - ⟨c, hc, rfl⟩
    exact isZoneChar_toLower c (hall c hc)

/-- The spelling in lower case. -/
def lowered (s : Spelling) : Spelling where
  head := s.head.map Hextet.lowered
  rest := s.rest.map (List.map Hextet.lowered)
  quad := s.quad
  zone := lower s.zone
  zone_ok := isZone_lower s.zone_ok
  fits := by
    have := s.fits
    cases h : s.rest <;> simpa [h] using this

/-- Lower case respells the same address. -/
theorem lower_text (s : Spelling) : lower s.text = s.lowered.text := by
  unfold text
  cases h : s.rest with
  | none =>
    rw [body_none h, body_none (s := s.lowered) (by simp [lowered, h]), lower_append,
      lower_join (by decide), lower_pieces]
    rfl
  | some rest =>
    rw [body_some h, body_some (show s.lowered.rest = some (rest.map Hextet.lowered) by
      simp [lowered, h]), lower_append, lower_append, lower_join (by decide), lower_pieces]
    have hcons (text : Text) : lower (':' :: ':' :: text) = ':' :: ':' :: lower text := rfl
    rw [hcons, lower_join (by decide), lower_pieces]
    rfl

theorem groups_lowered (s : Spelling) : s.lowered.groups = s.groups := by
  cases h : s.rest with
  | none =>
    rw [groups_none h, groups_none (s := s.lowered) (by simp [lowered, h])]
    exact values_lowered s.head s.quad
  | some rest =>
    rw [groups_some h, groups_some (show s.lowered.rest = some (rest.map Hextet.lowered) by
      simp [lowered, h])]
    simp only [lowered, List.length_map, values_lowered]

/-- The groups with the dotted quad's two behind them. -/
def spellOut (groups : List Hextet) (quad : Option IPv4) : List Hextet :=
  groups ++ quad.toList.flatMap IPv4.hextets

theorem spellOut_length (groups : List Hextet) (quad : Option IPv4) :
    (spellOut groups quad).length = groups.length + 2 * quad.toList.length := by
  cases quad <;> simp [spellOut, IPv4.hextets]

theorem values_spellOut (groups : List Hextet) (quad : Option IPv4) :
    values (spellOut groups quad) none = values groups quad := by
  cases quad <;> simp [values, spellOut, IPv4.hextets, IPv4.groups]

/-- The spelling without a dotted quad, and without its zone index. -/
def undotted (s : Spelling) : Spelling where
  head := if s.rest = none then spellOut s.head s.quad else s.head
  rest := s.rest.map fun rest => spellOut rest s.quad
  quad := none
  zone := []
  zone_ok := rfl
  fits := by
    have := s.fits
    cases h : s.rest with
    | none => simpa [h, spellOut_length] using this
    | some rest =>
      simp only [h] at this
      simp [spellOut_length]
      omega

theorem groups_undotted (s : Spelling) : s.undotted.groups = s.groups := by
  cases h : s.rest with
  | none =>
    rw [groups_none h, groups_none (s := s.undotted) (by simp [undotted, h])]
    simp [undotted, h, values_spellOut]
  | some rest =>
    rw [groups_some h, groups_some (show s.undotted.rest = some (spellOut rest s.quad) by
      simp [undotted, h])]
    simp [undotted, h, values_spellOut]

end Spelling

/-! ## The characters of a literal -/

def literalChars : Text := ':' :: '.' :: hexDigits

theorem digit_mem_hexDigits {c : Char} (h : c.isDigit = true) : c ∈ hexDigits := by
  simp only [Char.isDigit, Bool.and_eq_true, decide_eq_true_eq, UInt32.le_iff_toNat_le] at h
  have hlow : 48 ≤ c.toNat := h.1
  have hhigh : c.toNat ≤ 57 := h.2
  rw [← Char.ofNat_toNat c]
  generalize c.toNat = n at *
  interval_cases n <;> decide

theorem IPv4.chars_text (q : IPv4) : ∀ c ∈ q.text, c ∈ literalChars := by
  intro c hc
  rcases q.mem_text hc with rfl | h
  · decide
  · simp [literalChars, digit_mem_hexDigits h]

theorem IPv4.getLast_text (q : IPv4) : q.text.getLast? ≠ some '.' := by
  have hlast : q.text = ([Nat.toDigits 10 q.a, Nat.toDigits 10 q.b, Nat.toDigits 10 q.c].flatMap
      fun piece => piece ++ ['.']) ++ Nat.toDigits 10 q.d :=
    join_concat '.' [_, _, _] (Nat.toDigits 10 q.d)
  rw [hlast, List.getLast?_append_of_ne_nil _ Nat.toDigits_ne_nil]
  intro h
  exact not_mem_toDigits (by decide) (List.mem_of_getLast? h)

namespace Spelling

theorem chars_join (groups : List Hextet) (quad : Option IPv4) :
    ∀ c ∈ join ':' (pieces groups quad), c ∈ literalChars := by
  intro c hc
  rcases mem_join hc with rfl | ⟨p, hp, hpc⟩
  · decide
  · rcases mem_pieces hp with ⟨g, rfl⟩ | ⟨q, rfl⟩
    · exact List.mem_cons_of_mem _ (List.mem_cons_of_mem _ (g.digits c hpc))
    · exact q.chars_text c hpc

theorem chars_body (s : Spelling) : ∀ c ∈ s.body, c ∈ literalChars := by
  intro c hc
  cases h : s.rest with
  | none => exact chars_join _ _ c (body_none h ▸ hc)
  | some rest =>
    rw [body_some h, List.mem_append, List.mem_cons, List.mem_cons] at hc
    rcases hc with hc | rfl | rfl | hc
    · exact chars_join _ _ c hc
    · decide
    · decide
    · exact chars_join _ _ c hc

theorem getLast_join (groups : List Hextet) (quad : Option IPv4) :
    (join ':' (pieces groups quad)).getLast? ≠ some '.' := by
  cases h : pieces groups quad using List.reverseRecOn with
  | nil => simp
  | append_singleton ps p =>
    rw [join_concat]
    rcases mem_pieces (h ▸ List.mem_concat_self : p ∈ pieces groups quad) with ⟨g, rfl⟩ | ⟨q, rfl⟩
    · rw [List.getLast?_append_of_ne_nil _ g.ne_nil]
      exact fun hd => g.not_mem.2.1 (List.mem_of_getLast? hd)
    · rw [List.getLast?_append_of_ne_nil _ q.text_ne_nil]
      exact q.getLast_text

theorem getLast_body (s : Spelling) : s.body.getLast? ≠ some '.' := by
  cases h : s.rest with
  | none => exact body_none h ▸ getLast_join _ _
  | some rest =>
    rw [body_some h, List.getLast?_append_of_ne_nil _ (by simp)]
    have hlast := getLast_join rest s.quad
    generalize join ':' (pieces rest s.quad) = text at *
    cases text with
    | nil => simp
    | cons c text => simpa [List.getLast?_cons_cons] using hlast

end Spelling

/-- The characters of a literal, with its zone index. -/
theorem isZoneChar_of_names {text : Text} {address : Address} (h : Names text address) :
    ∀ c ∈ text, isZoneChar c = true ∨ c = '%' := by
  have hliteral : ∀ c ∈ literalChars, isZoneChar c = true :=
    List.forall_iff_forall_mem.1 (by decide)
  intro c hc
  cases address with
  | v4 q =>
    rw [← show q.text = text from h] at hc
    exact .inl (hliteral c (q.chars_text c hc))
  | v6 a =>
    obtain ⟨s, rfl, -⟩ := h
    rcases List.mem_append.1 hc with hc | hc
    · exact .inl (hliteral c (s.chars_body c hc))
    · have hz := s.zone_ok
      generalize s.zone = zone at *
      cases zone with
      | nil => simp at hc
      | cons d zone =>
        simp only [isZone, Bool.and_eq_true, beq_iff_eq, List.all_eq_true] at hz
        rcases List.mem_cons.1 hc with rfl | hc
        · exact .inr hz.1.1
        · exact .inl (hz.2 c hc)

/-- A literal without a zone index is a dotted quad or the body of a spelling. -/
theorem plain_of_names {text : Text} {address : Address} (h : Names text address)
    (hzone : '%' ∉ text) :
    (∀ c ∈ text, c ∈ literalChars) ∧ text.getLast? ≠ some '.' := by
  cases address with
  | v4 q =>
    rw [← show q.text = text from h]
    exact ⟨q.chars_text, q.getLast_text⟩
  | v6 a =>
    obtain ⟨s, rfl, -⟩ := h
    have hz := s.zone_ok
    have hnil : s.zone = [] := by
      unfold Spelling.text at hzone
      generalize s.zone = zone at *
      cases zone with
      | nil => rfl
      | cons d zone =>
        simp only [isZone, Bool.and_eq_true, beq_iff_eq] at hz
        exact absurd (by simp [hz.1.1]) hzone
    rw [Spelling.text, hnil, List.append_nil]
    exact ⟨s.chars_body, s.getLast_body⟩

end FerrumNexus.Network
