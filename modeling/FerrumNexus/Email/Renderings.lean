import FerrumNexus.Email.Substitution

/-!
# What a rendering is read as

The slash of a tag that closes itself, the tag, and the loop over the tags, each
read from the rendering of what it is read from in the template.
-/
namespace FerrumNexus.Email

open Platform Sequences Network

variable {value : Placeholder → List Char} {f : List Char → List Char} {text text' : List Char}

/-! ## The slash of a tag that closes itself -/

/-- No placeholder stands in a tag but in quoted values. -/
def Quoted (tag : Tag) : Prop :=
  matchAll placeholder (outside none (withoutSlash tag.attributes)) = []

theorem render_of_no_brace (h : ∀ c ∈ text, c ≠ '{') (rest : List Char) :
    replace placeholder value (text ++ rest) = text ++ replace placeholder value rest :=
  replace_append_of_none (fun c rest hc => placeholder_of_ne (h c hc) rest) value

/-- What a slash is written as, or none. -/
def written (closing : Bool) : List Char := if closing then ['/'] else []

theorem optionalSlash_written (closing : Bool) (h : text.head? ≠ some '/') :
    optionalSlash (written closing ++ text) = (closing, text) := by
  cases closing with
  | true => rfl
  | false =>
    have hplain : written false ++ text = text := rfl
    rw [hplain]
    unfold optionalSlash
    split
    · exact absurd rfl h
    · rfl

/-- What a tag is of the text. -/
structure Tagged (text : List Char) (tag : Tag) (after : List Char) : Prop where
  text : text = '<' :: (written tag.closing ++ (tag.name ++ (tag.attributes ++ '>' :: after)))
  name : tag.name.all isTagNameCharacter = true
  letter : tag.name.head?.any Char.isAlpha = true
  inside : tag.attributes.all isInTag = true
  ends : tag.attributes.head?.all (fun c => !isTagNameCharacter c) = true

theorem Tagged.htmlTag {tag : Tag} {after : List Char} (h : Tagged text tag after) :
    htmlTag text = some (tag, after) := by
  have hname : (tag.name ++ (tag.attributes ++ '>' :: after)).takeWhile isTagNameCharacter =
        tag.name ∧
      (tag.name ++ (tag.attributes ++ '>' :: after)).dropWhile isTagNameCharacter =
        tag.attributes ++ '>' :: after := by
    have hall := List.all_eq_true.mp h.name
    have hends := h.ends
    rw [List.takeWhile_append_of_pos hall, List.dropWhile_append_of_pos hall]
    cases hattributes : tag.attributes with
    | nil => simp [isTagNameCharacter]
    | cons c more =>
      rw [hattributes] at hends
      have hstop : isTagNameCharacter c = false := by simpa using hends
      simp [hstop]
  have hinside : (tag.attributes ++ '>' :: after).takeWhile isInTag = tag.attributes ∧
      (tag.attributes ++ '>' :: after).dropWhile isInTag = '>' :: after :=
    ⟨takeWhile_append_all h.inside (by decide), dropWhile_append_all h.inside (by decide)⟩
  have hhead : (tag.name ++ (tag.attributes ++ '>' :: after)).head? ≠ some '/' := by
    have hletter := h.letter
    cases hletters : tag.name with
    | nil =>
      rw [hletters] at hletter
      exact absurd hletter (by simp)
    | cons c more =>
      rw [hletters] at hletter
      rintro heq
      obtain rfl : c = '/' := Option.some_inj.mp heq
      have hslash : Char.isAlpha '/' = false := by decide
      simp [hslash] at hletter
  rw [h.text]
  unfold Email.htmlTag
  simp only [optionalSlash_written tag.closing hhead, hname.1, hname.2, hinside.1, hinside.2,
    h.letter, if_true]

/-- The tag of a rendering is the rendered tag. -/
theorem Tagged.render {tag : Tag} {after : List Char} (h : Tagged text tag after)
    (hvalue : Escaped value)
    (hhead : (replace placeholder value tag.attributes).head? = tag.attributes.head?) :
    Tagged (replace placeholder value text)
      { tag with attributes := replace placeholder value tag.attributes }
      (replace placeholder value after) := by
  have hopen := (barrier_placeholder (c := '<') (by decide)).replace_append value []
  have hclose := (barrier_placeholder (c := '>') (by decide)).replace_append value
  have hslash : ∀ c ∈ written tag.closing, c ≠ '{' := by
    cases tag.closing with
    | true => simp [written]
    | false => simp [written]
  have hname : ∀ c ∈ tag.name, c ≠ '{' := by
    rintro c hc rfl
    exact absurd (List.all_eq_true.mp h.name '{' hc) (by decide)
  refine ⟨?_, h.name, h.letter, ?_, ?_⟩
  · rw [h.text]
    calc _ = '<' :: replace placeholder value
          (written tag.closing ++ (tag.name ++ (tag.attributes ++ '>' :: after))) := hopen _
      _ = _ := by
          rw [render_of_no_brace hslash, render_of_no_brace hname, hclose]
  · rw [List.all_eq_true]
    intro c hc
    by_contra hout
    have hmarkup : isMarkup c = true := by
      simp only [isInTag, Bool.and_eq_true, bne_iff_ne, not_and_or, not_not] at hout
      rcases hout with rfl | rfl <;> decide
    refine not_mem_render hmarkup hvalue ?_ hc
    intro hmem
    exact hout (List.all_eq_true.mp h.inside c hmem)
  · rw [hhead]
    exact h.ends

/-! ## Tokens -/

/-- A token with `f` applied to the text of a text node, and to the quoted values of a tag. -/
def Token.substituted (f : List Char → List Char) : Token → Token
  | .text content => .text (f content)
  | .tag found attributes =>
    .tag { found with attributes := f found.attributes } (attributes.map (Attribute.substituted f))

end FerrumNexus.Email
