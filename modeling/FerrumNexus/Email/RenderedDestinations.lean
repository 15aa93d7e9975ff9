import FerrumNexus.Email.Placement

/-!
# Where a rendering leads

A destination that was checked in the template is checked in the rendering, if
no variable is in it. A placeholder that only decoding shows is no variable, and
is a path at the portal. The value of a destination variable is what the
destination decodes to, up to white space.
-/
namespace FerrumNexus.Email

open Platform Sequences Network

variable {config : LinkConfig}

/-! ## Paths at the portal -/

theorem normalized_append (xs ys : List Char) :
    normalized (xs ++ ys) = normalized xs ++ normalized ys := by
  simp [normalized]

variable {before after blank blank' space text value : List Char}

/-- White space that a URL keeps is not ASCII. -/
theorem not_ascii_of_blank (h : space.all isWhiteSpace = true) {c : Char}
    (hc : c ∈ normalized space) : 0x80 ≤ c.toNat ∧ isWhiteSpace c = true := by
  unfold normalized at hc
  obtain ⟨d, hd, rfl⟩ := List.mem_map.mp hc
  obtain ⟨hmem, hkept⟩ := List.mem_filter.mp hd
  have hspace := List.all_eq_true.mp h d hmem
  have hne : d ≠ '\\' := by
    rintro rfl
    exact absurd hspace (by decide)
  rw [if_neg hne]
  refine ⟨?_, hspace⟩
  simp only [isWhiteSpace, isStripped, Bool.or_eq_true, Bool.and_eq_true, decide_eq_true_eq,
    List.contains_eq_mem, List.mem_cons, List.not_mem_nil, or_false, Bool.not_eq_eq_eq_not,
    Bool.not_true, Bool.or_eq_false_iff, decide_eq_false_iff_not, not_le,
    beq_eq_false_iff_ne] at hspace hkept
  omega

theorem ParsesUrls.not_ascii (h : ParsesUrls config) {c : Char} (hc : 0x80 ≤ c.toNat)
    (rest : List Char) : ∃ url, config.resolve (c :: rest) = some url ∧ allowed config url = true := by
  refine h.relative c rest ?_ ?_ ?_ (by omega)
  · by_contra halpha
    have hrange := toNat_of_isAlphanum (c := c) (by simp [Char.isAlphanum, halpha])
    omega
  · rintro rfl
    exact absurd hc (by decide)
  · rintro rfl
    exact absurd hc (by decide)

/-- A placeholder that is not rendered is a path. -/
theorem ParsesUrls.placeholder (h : ParsesUrls config) (hspace : space.all isWhiteSpace = true)
    (p : Placeholder) (rest : List Char) :
    Resolves config (space ++ (p.text ++ rest)) := by
  unfold Resolves
  rw [normalized_append]
  cases hkept : normalized space with
  | nil =>
    have hbrace : normalized (p.text ++ rest) = '{' :: normalized (p.text.tail ++ rest) := rfl
    rw [List.nil_append, hbrace]
    exact h.relative '{' _ (by decide) (by decide) (by decide) (by decide)
  | cons c more =>
    exact h.not_ascii (not_ascii_of_blank hspace (by simp [hkept])).1 _

/-- What was not refused resolves. -/
theorem ParsesUrls.resolves (h : ParsesUrls config) {target : List Char} {construct : String}
    (hdestination : destination config target construct = .ok ()) : Resolves config target := by
  unfold destination at hdestination
  split at hdestination
  · rename_i first others hfound
    simp only [except_bind_eq_ok, refuseIf_eq_ok, not_or, not_not] at hdestination
    obtain ⟨-, ⟨-, htext⟩, -⟩ := hdestination
    obtain ⟨space, space', hparts, hspace, -⟩ := trimmed_parts target
    rw [hparts, ← htext]
    exact h.placeholder hspace first space'
  · split at hdestination
    · exact absurd hdestination (by simp)
    · rename_i url hurl
      simp only [except_bind_eq_ok, refuseIf_eq_ok, not_not] at hdestination
      obtain ⟨_, -, _, -, hallowed⟩ := hdestination
      exact ⟨url, hurl, hallowed⟩

theorem eq_h_of_toLower {c : Char} (h : c.toLower = 'h') : c = 'h' ∨ c = 'H' := by
  by_cases hrange : 65 ≤ c.toNat ∧ c.toNat ≤ 90
  · obtain ⟨hlow, hhigh⟩ := hrange
    rw [← Char.ofNat_toNat c] at h ⊢
    interval_cases c.toNat <;> revert h <;> decide
  · unfold Char.toLower at h
    split at h
    · rename_i hupper
      simp only [ge_iff_le, UInt32.le_iff_toNat_le] at hupper
      exact absurd hupper hrange
    · exact Or.inl h

theorem PortalOrAllowed.letter (h : PortalOrAllowed config value) :
    ∃ c rest, value = c :: rest ∧ (c = 'h' ∨ c = 'H') := by
  cases value with
  | nil => exact absurd h.scheme (by decide)
  | cons c rest =>
    refine ⟨c, rest, rfl, ?_⟩
    have hlower : c.toLower = 'h' := by
      rcases h.scheme with hscheme | hscheme
      · exact (List.cons.inj hscheme).1
      · exact (List.cons.inj hscheme).1
    exact eq_h_of_toLower hlower

/-- What is bare in the template is bare in the rendering. -/
theorem Whole.resolves {p : Placeholder} (h : Whole text p before after blank blank')
    (hurls : ParsesUrls config) (hvalue : PortalOrAllowed config value)
    (hbare : Bare (blank ++ (p.text ++ blank'))) :
    Resolves config (blank ++ (value ++ blank')) := by
  cases hkept : normalized blank with
  | cons c more =>
    unfold Resolves
    rw [normalized_append, hkept]
    exact hurls.not_ascii (not_ascii_of_blank h.blankBefore (by simp [hkept])).1 _
  | nil =>
    have hbrace : (normalized (blank ++ (p.text ++ blank'))).head? = some '{' := by
      rw [normalized_append, hkept]
      rfl
    have hblank' : normalized blank' = [] := by
      by_contra hne
      have hlast := hbare hbrace
      rw [normalized_append, normalized_append, ← List.append_assoc,
        List.getLast?_append_of_ne_nil _ hne] at hlast
      have hspace := (not_ascii_of_blank h.blankAfter (List.mem_of_getLast? hlast)).2
      exact absurd hspace (by decide)
    unfold Resolves
    rw [normalized_append, normalized_append, hkept, hblank', List.nil_append, List.append_nil]
    exact hvalue.resolves

/-! ## Accepted templates -/

section Accepted

variable {content : EmailTemplateContent} {all : List Token}

theorem Placed.not_srcset (hplaced : Placed config all) {found : Attribute}
    (hfound : found ∈ attributesIn all) (hne : matchAll placeholder found.value.text ≠ [])
    {key value : List Char} (hchecked : Checked config found key value) :
    key ≠ "srcset".toList := by
  rintro rfl
  obtain ⟨name, hname, hkey⟩ := hchecked.named
  have hurl : URL_ATTRIBUTES.contains (config.toLowerCase name) = true := by
    rw [← hkey]
    decide
  exact (hplaced.bare found hfound hne name value hname hchecked.decoded hurl).1 hkey.symm

theorem Placed.wholly (hplaced : Placed config all)
    (hchecked : ∀ found ∈ attributesIn all, ∃ key value, Checked config found key value)
    (values : List Char → List Char) : ∀ found ∈ attributesIn all,
      matchAll placeholder found.value.text ≠ [] → Wholly values found := by
  intro found hfound hne
  obtain ⟨key, value, h⟩ := hchecked found hfound
  obtain ⟨p, before, after, blank, blank', hwhole, -, hp⟩ := h.whole_of_placeholder hne
  have hname := h.isUrlVariable hp (hplaced.not_srcset hfound hne h)
  exact ⟨p, before, after, blank, blank', hwhole, hname, hwhole.rendering_eq hname values⟩

end Accepted

end FerrumNexus.Email
