import FerrumNexus.Email.TemplateLinks

/-!
# The tokens of a rendering

Placeholders are looked for in the whole text, and tokens are not. A character
that no placeholder has divides the search, so a text node, a quoted value and
what stands between them are rendered apart. Where placeholders stand in text
nodes and in quoted values alone, the rendering has the tokens of the template,
with the values of the variables inside them.
-/
namespace FerrumNexus.Email

open Platform Sequences Network

/-! ## Rendering parts -/

/-- What ends a text node, a tag or a quoted value. -/
def isMarkup (c : Char) : Bool := c == '<' || c == '>' || isQuote c

theorem isPlaceholderChar_of_isMarkup {c : Char} (h : isMarkup c = true) :
    isPlaceholderChar c = false := by
  simp only [isMarkup, isQuote, Bool.or_eq_true, beq_iff_eq] at h
  rcases h with (rfl | rfl) | rfl | rfl <;> decide

/-- The values are escaped. -/
def Escaped (value : Placeholder → List Char) : Prop := ∀ p, ∀ c ∈ value p, isMarkup c = false

variable {value : Placeholder → List Char} {before after text : List Char}

theorem not_mem_render {c : Char} (hc : isMarkup c = true) (hvalue : Escaped value)
    (h : c ∉ text) : c ∉ replace placeholder value text := by
  intro hmem
  rcases mem_replace hmem with hold | ⟨p, hp⟩
  · exact h hold
  · rw [hvalue p c hp] at hc
    exact absurd hc (by decide)

/-! ## Quoted values -/

/-- A text and what becomes of it when `f` is applied to its quoted values. -/
inductive Substituted (f : List Char → List Char) : List Char → List Char → Prop
  | nil : Substituted f [] []
  | plain {c : Char} {rest rest' : List Char} (hc : isQuote c = false)
      (h : Substituted f rest rest') : Substituted f (c :: rest) (c :: rest')
  | quoted {quote : Char} {text rest rest' : List Char} (hquote : isQuote quote = true)
      (hin : quote ∉ text) (hout : quote ∉ f text) (h : Substituted f rest rest') :
      Substituted f (quote :: (text ++ quote :: rest)) (quote :: (f text ++ quote :: rest'))

/-- The text without what its quoted values are. -/
def outside : Option Char → List Char → List Char
  | _, [] => []
  | none, c :: rest => c :: outside (if isQuote c then some c else none) rest
  | some quote, c :: rest =>
    if c = quote then c :: outside none rest else outside (some quote) rest

/-- Every quoted value ends. -/
inductive WellQuoted : List Char → Prop
  | nil : WellQuoted []
  | plain {c : Char} {rest : List Char} (hc : isQuote c = false) (h : WellQuoted rest) :
      WellQuoted (c :: rest)
  | quoted {quote : Char} {text rest : List Char} (hquote : isQuote quote = true)
      (hin : quote ∉ text) (h : WellQuoted rest) : WellQuoted (quote :: (text ++ quote :: rest))

theorem WellQuoted.append (hbefore : ∀ c ∈ before, isQuote c = false) (h : WellQuoted after) :
    WellQuoted (before ++ after) := by
  induction before with
  | nil => exact h
  | cons c before ih =>
    exact .plain (hbefore c List.mem_cons_self)
      (ih fun d hd => hbefore d (List.mem_cons_of_mem c hd))

theorem Substituted.append {f : List Char → List Char} {after' : List Char}
    (hbefore : ∀ c ∈ before, isQuote c = false) (h : Substituted f after after') :
    Substituted f (before ++ after) (before ++ after') := by
  induction before with
  | nil => exact h
  | cons c before ih =>
    exact .plain (hbefore c List.mem_cons_self)
      (ih fun d hd => hbefore d (List.mem_cons_of_mem c hd))

theorem outside_append (hbefore : ∀ c ∈ before, isQuote c = false) (after : List Char) :
    outside none (before ++ after) = before ++ outside none after := by
  induction before with
  | nil => rfl
  | cons c before ih =>
    rw [List.cons_append, outside, hbefore c List.mem_cons_self,
      if_neg (by simp), ih fun d hd => hbefore d (List.mem_cons_of_mem c hd)]
    rfl

theorem outside_quoted {quote : Char} {inner : List Char} (hin : quote ∉ inner)
    (rest : List Char) :
    outside (some quote) (inner ++ quote :: rest) = quote :: outside none rest := by
  induction inner with
  | nil => simp [outside]
  | cons c inner ih =>
    rw [List.mem_cons, not_or] at hin
    rw [List.cons_append, outside, if_neg fun h => hin.1 h.symm, ih hin.2]

/-- Where no placeholder stands outside the quoted values, they are what is rendered. -/
theorem WellQuoted.substituted (h : WellQuoted text) (hvalue : Escaped value)
    (hbefore : ∀ c ∈ before, isQuote c = false)
    (hnone : matchAll placeholder (outside none (before ++ text)) = []) :
    Substituted (replace placeholder value) (before ++ text)
      (replace placeholder value (before ++ text)) := by
  induction h generalizing before with
  | nil =>
    rw [List.append_nil] at hnone ⊢
    rw [← List.append_nil before, outside_append hbefore, outside, List.append_nil] at hnone
    rw [replace_of_matchAll_eq_nil hnone]
    have hsame := Substituted.append (f := replace placeholder value) hbefore .nil
    rwa [List.append_nil] at hsame
  | @plain c rest hc h ih =>
    have hmore : ∀ d ∈ before ++ [c], isQuote d = false := by
      intro d hd
      rcases List.mem_append.mp hd with hold | hlast
      · exact hbefore d hold
      · obtain rfl := List.mem_singleton.mp hlast
        exact hc
    have hsplit : before ++ c :: rest = before ++ [c] ++ rest := by simp
    rw [hsplit] at hnone ⊢
    exact ih hmore hnone
  | @quoted quote inner rest hquote hin h ih =>
    have hmarkup : isMarkup quote = true := by
      rw [isMarkup, hquote, Bool.or_true]
    have hbarrier := barrier_placeholder (isPlaceholderChar_of_isMarkup hmarkup)
    have houtside : outside none (before ++ quote :: (inner ++ quote :: rest)) =
        before ++ quote :: quote :: outside none rest := by
      rw [outside_append hbefore, outside, if_pos hquote, outside_quoted hin]
    rw [houtside, hbarrier.matchAll_append, List.append_eq_nil_iff] at hnone
    have hrest : matchAll placeholder (outside none ([] ++ rest)) = [] := by
      have hsecond := hbarrier.matchAll_append [] (outside none rest)
      rw [List.nil_append] at hsecond ⊢
      rw [hsecond, List.append_eq_nil_iff] at hnone
      exact hnone.2.2
    rw [hbarrier.replace_append, hbarrier.replace_append, replace_of_matchAll_eq_nil hnone.1]
    exact .append hbefore (.quoted hquote hin (not_mem_render hmarkup hvalue hin)
      (ih (fun d hd => absurd hd List.not_mem_nil) hrest))

/-! ## Reading what is substituted -/

section Reading

variable {f : List Char → List Char} {text text' : List Char}

/-- A run of characters that are no quotes stays. -/
theorem Substituted.run {p : Char → Bool} (hp : ∀ c, p c = true → isQuote c = false)
    (h : Substituted f text text') :
    text'.takeWhile p = text.takeWhile p ∧ Substituted f (text.dropWhile p) (text'.dropWhile p) := by
  induction h with
  | nil => exact ⟨rfl, .nil⟩
  | @plain c rest rest' hc h ih =>
    rw [List.takeWhile_cons, List.takeWhile_cons, List.dropWhile_cons, List.dropWhile_cons]
    split
    · exact ⟨by rw [ih.1], ih.2⟩
    · exact ⟨rfl, .plain hc h⟩
  | @quoted quote inner rest rest' hquote hin hout h ih =>
    have hstop : p quote = false := by
      by_contra hrun
      rw [hp quote (by simpa using hrun)] at hquote
      exact absurd hquote (by decide)
    simp only [List.takeWhile_cons, List.dropWhile_cons, hstop]
    exact ⟨rfl, .quoted hquote hin hout h⟩

theorem isQuote_of_not {p : Char → Bool} (hp : p '"' = false ∧ p '\'' = false) :
    ∀ c, p c = true → isQuote c = false := by
  intro c hc
  by_contra hquote
  simp only [isQuote, Bool.not_eq_false, Bool.or_eq_true, beq_iff_eq] at hquote
  rcases hquote with rfl | rfl
  · exact absurd hc (by simp [hp.1])
  · exact absurd hc (by simp [hp.2])

/-! ## Attributes -/

/-- An attribute with `f` applied to its value, if that is quoted. -/
def AttributeValue.substituted (f : List Char → List Char) : AttributeValue → AttributeValue
  | missing => missing
  | quoted quote text => quoted quote (f text)
  | unquoted text => unquoted text

def Attribute.substituted (f : List Char → List Char) (found : Attribute) : Attribute :=
  ⟨found.name, found.value.substituted f⟩

/-- The attributes of a text are its first and those of what follows. -/
theorem attributeList_eq_some {fuel : ℕ} {attributes : List Attribute} :
    attributeList (fuel + 1) text = some attributes ↔
      (text.all isWhiteSpace = true ∧ attributes = []) ∨
        (text.all isWhiteSpace = false ∧ ∃ found rest others,
          htmlAttribute text = some (found, rest) ∧ attributeList fuel rest = some others ∧
            attributes = found :: others) := by
  rw [attributeList]
  cases hblank : text.all isWhiteSpace with
  | true => simp [eq_comm]
  | false =>
    cases hfound : htmlAttribute text with
    | none => simp
    | some answer =>
      obtain ⟨found, rest⟩ := answer
      cases hrest : attributeList fuel rest with
      | none => simp [hrest]
      | some others => simp [hrest, eq_comm]

end Reading

/-! ## What an attribute takes of a text -/

/-- A text begins with an equals sign and a value, or the attribute has none. -/
inductive Reads (text : List Char) : AttributeValue × List Char → Prop
  | missing : Reads text (.missing, text)
  | quoted {space space' inner rest : List Char} {quote : Char}
      (hspace : space.all isWhiteSpace = true) (hspace' : space'.all isWhiteSpace = true)
      (hquote : isQuote quote = true) (hin : quote ∉ inner)
      (htext : text = space ++ '=' :: (space' ++ quote :: (inner ++ quote :: rest))) :
      Reads text (.quoted quote inner, rest)
  | unquoted {space space' run rest : List Char} (hspace : space.all isWhiteSpace = true)
      (hspace' : space'.all isWhiteSpace = true) (hrun : run.all isUnquotedCharacter = true)
      (htext : text = space ++ '=' :: (space' ++ (run ++ rest))) :
      Reads text (.unquoted run, rest)

theorem reads_attributeValue (text : List Char) : Reads text (attributeValue text) := by
  have hsplit (p : Char → Bool) (xs : List Char) : xs = xs.takeWhile p ++ xs.dropWhile p :=
    List.takeWhile_append_dropWhile.symm
  have hblank (xs : List Char) : (xs.takeWhile isWhiteSpace).all isWhiteSpace = true :=
    List.all_takeWhile
  unfold attributeValue
  split
  · rename_i rest hrest
    have htext := hsplit isWhiteSpace text
    rw [hrest] at htext
    split
    · exact .missing
    · rename_i c more hmore
      have hvalue := hsplit isWhiteSpace rest
      rw [hmore] at hvalue
      split
      · rename_i hquote
        split
        · rename_i d after hafter
          have hinner := hsplit (· != c) more
          have hlast := List.head?_dropWhile_not (· != c) more
          rw [hafter] at hinner hlast
          obtain rfl : d = c := by simpa using hlast
          refine .quoted (hblank text) (hblank rest) hquote ?_ ?_
          · intro hmem
            have hne := List.all_eq_true.mp (List.all_takeWhile (l := more) (p := (· != d))) d hmem
            simp at hne
          · rw [← hinner, ← hvalue]
            exact htext
        · exact .missing
      · split
        · refine .unquoted (hblank text) (hblank rest) List.all_takeWhile ?_
          rw [List.takeWhile_append_dropWhile, ← hvalue]
          exact htext
        · exact .missing
  · exact .missing

theorem isQuote_of_all {p : Char → Bool} (hp : p '"' = false ∧ p '\'' = false)
    (h : text.all p = true) : ∀ c ∈ text, isQuote c = false := fun c hc =>
  isQuote_of_not hp c (List.all_eq_true.mp h c hc)

variable {rest : List Char}

/-- An attribute is white space, a name, and what is read behind it. -/
theorem htmlAttribute_eq_some {found : Attribute} (h : htmlAttribute text = some (found, rest)) :
    ∃ space behind, text = space ++ (found.name ++ behind) ∧ space.all isWhiteSpace = true ∧
      found.name.all isAttributeNameCharacter = true ∧ found.name ≠ [] ∧
        Reads behind (found.value, rest) ∧ text.head?.any isWhiteSpace = true := by
  unfold htmlAttribute at h
  simp only at h
  split at h
  · rename_i hmatch
    obtain ⟨rfl, rfl⟩ := Prod.mk.inj (Option.some_inj.mp h)
    refine ⟨text.takeWhile isWhiteSpace, _, ?_, List.all_takeWhile, List.all_takeWhile, hmatch.2,
      reads_attributeValue _, hmatch.1⟩
    simp only [List.takeWhile_append_dropWhile]
  · exact absurd h.symm (Option.some_ne_none _)

theorem Reads.length_le {value : AttributeValue} (h : Reads text (value, rest)) :
    rest.length ≤ text.length := by
  cases h with
  | missing => exact le_rfl
  | quoted _ _ _ _ htext =>
    rw [htext]
    simp only [List.length_append, List.length_cons]
    omega
  | unquoted _ _ _ htext =>
    rw [htext]
    simp only [List.length_append, List.length_cons]
    omega

end FerrumNexus.Email
