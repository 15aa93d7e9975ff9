import FerrumNexus.Platform.Text
import FerrumNexus.Sequences.Matching

/-!
# Rendering templates

A placeholder is a name in double braces, with white space around it or not.
Rendering puts the value of the variable in its place; into HTML it goes
escaped, unless the caller says that it is HTML.
-/
namespace FerrumNexus.Email

open Platform Sequences

def isWord (c : Char) : Bool := c.isAlphanum || c == '_'

/-! ## Placeholders -/

/-- A text that is a placeholder: the name and the white space in front of it and behind. -/
structure Placeholder where
  before : List Char
  name : List Char
  after : List Char
  blankBefore : before.all isWhiteSpace
  word : name.all isWord
  named : name ≠ []
  blankAfter : after.all isWhiteSpace
  deriving DecidableEq

def Placeholder.text (p : Placeholder) : List Char :=
  '{' :: '{' :: (p.before ++ (p.name ++ (p.after ++ ['}', '}'])))

/-- `PLACEHOLDER`. -/
def placeholder : Pattern Char Placeholder
  | '{' :: '{' :: rest =>
    let inner := rest.dropWhile isWhiteSpace
    let behind := inner.dropWhile isWord
    if hname : inner.takeWhile isWord = [] then none
    else
      match behind.dropWhile isWhiteSpace with
      | '}' :: '}' :: _ =>
        let found : Placeholder :=
          { before := rest.takeWhile isWhiteSpace
            name := inner.takeWhile isWord
            after := behind.takeWhile isWhiteSpace
            blankBefore := List.all_takeWhile
            word := List.all_takeWhile
            named := hname
            blankAfter := List.all_takeWhile }
        some (found, found.text.length)
      | _ => none
  | _ => none

/-! ## Values -/

def escapeChar : Char → List Char
  | '&' => "&amp;".toList
  | '<' => "&lt;".toList
  | '>' => "&gt;".toList
  | '"' => "&quot;".toList
  | '\'' => "&#39;".toList
  | c => [c]

/-- `escapeHtml`. The ampersand goes first, so that none of the others is escaped twice. -/
def escapeHtml (value : List Char) : List Char := value.flatMap escapeChar

def REMOVED_TEMPLATE_VARIABLES : List (List Char) :=
  ["reset_token".toList, "verification_token".toList]

/-- Values by name; `none` is `undefined` or `null`. -/
abbrev TemplateVars := List Char → Option (List Char)

/-- What a placeholder becomes. -/
def valueOf (vars : TemplateVars) (escape : Bool) (rawNames : List (List Char)) (name : List Char) :
    List Char :=
  if REMOVED_TEMPLATE_VARIABLES.contains name then []
  else match vars name with
    | none => []
    | some text => if !escape || rawNames.contains name then text else escapeHtml text

def interpolate (template : List Char) (vars : TemplateVars) (escape : Bool)
    (rawNames : List (List Char)) : List Char :=
  replace placeholder (fun found => valueOf vars escape rawNames found.name) template

structure EmailTemplateContent where
  subject : List Char
  bodyHtml : List Char
  bodyText : List Char

structure RenderedEmail where
  subject : List Char
  html : List Char
  text : List Char

def renderTemplate (content : EmailTemplateContent) (vars : TemplateVars)
    (rawHtmlVars : List (List Char)) : RenderedEmail where
  subject := interpolate content.subject vars false []
  html := interpolate content.bodyHtml vars true rawHtmlVars
  text := interpolate content.bodyText vars false []

/-! ## What a placeholder is -/

variable {c : Char}

theorem isWhiteSpace_of_brace (h : c = '{' ∨ c = '}') : isWhiteSpace c = false := by
  rcases h with rfl | rfl <;> decide

theorem isWord_of_brace (h : c = '{' ∨ c = '}') : isWord c = false := by
  rcases h with rfl | rfl <;> decide

theorem isWhiteSpace_eq_false_of_isWord (h : isWord c = true) :
    isWhiteSpace c = false := by
  rcases Bool.or_eq_true_iff.mp h with hletter | hdash
  · exact isWhiteSpace_of_isAlphanum hletter
  · obtain rfl := beq_iff_eq.mp hdash
    rfl

theorem not_isWord_of_isWhiteSpace (h : isWhiteSpace c = true) : isWord c = false := by
  by_contra hword
  rw [isWhiteSpace_eq_false_of_isWord (Bool.not_eq_false _ ▸ hword)] at h
  exact absurd h (by decide)

/-- Behind a name comes white space or the end of the placeholder. -/
theorem Placeholder.behind (p : Placeholder) (rest : List Char) :
    (p.after ++ '}' :: rest).takeWhile isWord = [] ∧
      (p.after ++ '}' :: rest).dropWhile isWord = p.after ++ '}' :: rest := by
  have hblank := p.blankAfter
  cases hafter : p.after with
  | nil => simp [isWord_of_brace]
  | cons c after =>
    rw [hafter, List.all_cons, Bool.and_eq_true] at hblank
    simp [not_isWord_of_isWhiteSpace hblank.1]

/-- A placeholder is found where it stands, whatever follows. -/
theorem placeholder_text (p : Placeholder) (rest : List Char) :
    placeholder (p.text ++ rest) = some (p, p.text.length) := by
  have hbrace : isWhiteSpace '}' = false := isWhiteSpace_of_brace (Or.inr rfl)
  obtain ⟨htake, hdrop⟩ := p.behind ('}' :: rest)
  have hname : (p.name ++ (p.after ++ '}' :: '}' :: rest)).takeWhile isWord = p.name := by
    rw [List.takeWhile_append_of_pos (List.all_eq_true.mp p.word), htake, List.append_nil]
  have hbehind : (p.name ++ (p.after ++ '}' :: '}' :: rest)).dropWhile isWord =
      p.after ++ '}' :: '}' :: rest := by
    rw [List.dropWhile_append_of_pos (List.all_eq_true.mp p.word), hdrop]
  have hinner : (p.before ++ (p.name ++ (p.after ++ '}' :: '}' :: rest))).takeWhile isWhiteSpace =
        p.before ∧
      (p.before ++ (p.name ++ (p.after ++ '}' :: '}' :: rest))).dropWhile isWhiteSpace =
        p.name ++ (p.after ++ '}' :: '}' :: rest) := by
    obtain ⟨first, name, hfirst⟩ := List.exists_cons_of_ne_nil p.named
    have hword := p.word
    rw [hfirst, List.all_cons, Bool.and_eq_true] at hword
    have hspace := isWhiteSpace_eq_false_of_isWord hword.1
    rw [hfirst, List.cons_append]
    exact ⟨takeWhile_append_all p.blankBefore hspace, dropWhile_append_all p.blankBefore hspace⟩
  have htext : p.text ++ rest =
      '{' :: '{' :: (p.before ++ (p.name ++ (p.after ++ '}' :: '}' :: rest))) := by
    simp [Placeholder.text]
  rw [htext]
  unfold placeholder
  simp only [hinner.1, hinner.2, hname, hbehind, p.named, dropWhile_append_all p.blankAfter hbrace,
    takeWhile_append_all p.blankAfter hbrace, dif_neg, not_false_eq_true]

theorem placeholder_eq_some {text : List Char} {p : Placeholder} {length : ℕ}
    (h : placeholder text = some (p, length)) :
    length = p.text.length ∧ ∃ rest, text = p.text ++ rest := by
  unfold placeholder at h
  split at h
  · rename_i rest
    simp only at h
    split at h
    · exact absurd h (by simp)
    · split at h
      · rename_i after hafter
        obtain ⟨rfl, rfl⟩ := Prod.mk.inj (Option.some_inj.mp h)
        refine ⟨rfl, after, ?_⟩
        simp only [Placeholder.text, List.cons_append, List.append_assoc, List.nil_append]
        rw [← hafter, List.takeWhile_append_dropWhile, List.takeWhile_append_dropWhile,
          List.takeWhile_append_dropWhile]
      · exact absurd h (by simp)
  · exact absurd h (by simp)

/-- What a placeholder is made of. -/
def isPlaceholderChar (c : Char) : Bool := c == '{' || c == '}' || isWhiteSpace c || isWord c

theorem isPlaceholderChar_of_mem {p : Placeholder} (h : c ∈ p.text) :
    isPlaceholderChar c = true := by
  have hblankBefore := List.all_eq_true.mp p.blankBefore
  have hword := List.all_eq_true.mp p.word
  have hblankAfter := List.all_eq_true.mp p.blankAfter
  simp only [Placeholder.text, List.mem_cons, List.mem_append, List.not_mem_nil, or_false] at h
  unfold isPlaceholderChar
  rcases h with rfl | rfl | h | h | h | rfl | rfl
  · rfl
  · rfl
  · simp [hblankBefore c h]
  · simp [hword c h]
  · simp [hblankAfter c h]
  · rfl
  · rfl

/-- A character that no placeholder has divides the search for placeholders. -/
theorem barrier_placeholder (h : isPlaceholderChar c = false) :
    Barrier placeholder c := by
  have hout (p : Placeholder) : c ∉ p.text := by
    intro hmem
    rw [isPlaceholderChar_of_mem hmem] at h
    exact absurd h (by decide)
  -- a match ends in front of `c`
  have hcut {text after rest : List Char} {p : Placeholder}
      (heq : text ++ c :: after = p.text ++ rest) : ∃ rest', text = p.text ++ rest' := by
    rcases List.append_eq_append_iff.mp heq with ⟨middle, htext, hmiddle⟩ | ⟨middle, htext, -⟩
    · cases middle with
      | nil =>
        rw [List.append_nil] at htext
        exact ⟨[], by rw [htext, List.append_nil]⟩
      | cons d middle =>
        obtain ⟨rfl, -⟩ := List.cons.inj hmiddle
        exact absurd (htext ▸ List.mem_append_right text List.mem_cons_self) (hout p)
    · exact ⟨middle, htext⟩
  have hwithin (text after : List Char) (hne : text ≠ []) :
      placeholder (text ++ c :: after) = placeholder text := by
    cases hlong : placeholder (text ++ c :: after) with
    | none =>
      cases hshort : placeholder text with
      | none => rfl
      | some found =>
        obtain ⟨p, length⟩ := found
        obtain ⟨rfl, rest, rfl⟩ := placeholder_eq_some hshort
        rw [List.append_assoc, placeholder_text] at hlong
        exact absurd hlong (Option.some_ne_none _)
    | some found =>
      obtain ⟨p, length⟩ := found
      obtain ⟨rfl, rest, heq⟩ := placeholder_eq_some hlong
      obtain ⟨rest', rfl⟩ := hcut heq
      rw [placeholder_text]
  refine ⟨fun after => ?_, fun a before after => ?_, fun text p length hsome => ?_⟩
  · cases hnone : placeholder (c :: after) with
    | none => rfl
    | some found =>
      obtain ⟨p, length⟩ := found
      obtain ⟨-, rest, heq⟩ := placeholder_eq_some hnone
      obtain ⟨rfl, -⟩ := List.cons.inj heq
      exact absurd List.mem_cons_self (hout p)
  · exact hwithin (a :: before) after (List.cons_ne_nil a before)
  · obtain ⟨rfl, rest, rfl⟩ := placeholder_eq_some hsome
    rw [List.length_append]
    exact Nat.le_add_right _ _

theorem placeholder_of_ne (h : c ≠ '{') (rest : List Char) :
    placeholder (c :: rest) = none := by
  unfold placeholder
  split
  · rename_i heq
    exact absurd (List.cons.inj heq).1 h
  · rfl

/-- A text with a placeholder in it is the placeholder between two texts. -/
theorem exists_placeholder_of_matchAll {text : List Char} (h : matchAll placeholder text ≠ []) :
    ∃ (before : List Char) (p : Placeholder) (after : List Char),
      text = before ++ (p.text ++ after) := by
  by_contra hnot
  apply h
  rw [matchAll_eq_nil_iff]
  rintro ys ⟨before, rfl⟩ -
  cases hfound : placeholder ys with
  | none => rfl
  | some found =>
    obtain ⟨p, length⟩ := found
    obtain ⟨-, rest, rfl⟩ := placeholder_eq_some hfound
    exact absurd ⟨before, p, rest, rfl⟩ hnot

theorem matchAll_ne_nil_of_placeholder (before : List Char) (p : Placeholder) (after : List Char) :
    matchAll placeholder (before ++ (p.text ++ after)) ≠ [] := by
  intro hnil
  have hnone := matchAll_eq_nil_iff.mp hnil (p.text ++ after) (List.suffix_append before _)
    (List.cons_ne_nil _ _)
  rw [placeholder_text] at hnone
  exact absurd hnone (Option.some_ne_none _)

/-! ## What an escaped value is -/

end FerrumNexus.Email
