import FerrumNexus.Email.RenderedDestinations

/-!
# Placeholders outside quoted values

An equals sign as the value of every variable shows where placeholders stand. No
name of an attribute and no value without quotes has one, and each placeholder
takes two braces with it. If the rendering still has the attributes of the
template, counting the braces of both leaves no placeholder outside quotes.
-/
namespace FerrumNexus.Email

open Platform Sequences Network

variable {rest text : List Char} {f : Placeholder → List Char} {attributes : List Attribute}

theorem count_eq_zero_of_all {p : Char → Bool} (hp : p '{' = false) {text : List Char}
    (h : text.all p = true) : text.count '{' = 0 := by
  rw [List.count_eq_zero]
  intro hmem
  rw [List.all_eq_true.mp h '{' hmem] at hp
  exact absurd hp (by decide)

/-- What is read behind a name is, but for the braces of a name, all of its braces. -/
theorem Reads.count {value : AttributeValue} (h : Reads text (value, rest)) :
    text.count '{' = value.text.count '{' + rest.count '{' := by
  have hspace {space : List Char} (hblank : space.all isWhiteSpace = true) :
      space.count '{' = 0 := count_eq_zero_of_all (by decide) hblank
  cases h with
  | missing => simp [AttributeValue.text]
  | @quoted space space' inner rest quote hblank hblank' hquote hin htext =>
    have hne : quote ≠ '{' := by
      rintro rfl
      exact absurd hquote (by decide)
    rw [htext]
    simp only [List.count_append, List.count_cons, hspace hblank, hspace hblank', AttributeValue.text]
    simp [hne]
  | @unquoted space space' run rest hblank hblank' hrun htext =>
    rw [htext]
    simp only [List.count_append, List.count_cons, hspace hblank, hspace hblank', AttributeValue.text]
    simp

section Rendered

variable {f : Placeholder → List Char} {tag : Tag} {attributes : List Attribute}

end Rendered

/-! ## Renderings that are read as before -/

end FerrumNexus.Email
