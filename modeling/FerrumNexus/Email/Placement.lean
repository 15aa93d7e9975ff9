import FerrumNexus.Email.VariableSafety

/-!
# Inert variables

A rendering with any values is to have the tags and the attribute names of the
template, each value is to be inside a text node or to be all of an attribute's
value, and destinations are to stay at the portal and the allowed hosts. That is
so where placeholders stand between tags and in quoted values alone, where none
is in a `srcset`, and where no white space that a URL keeps is behind one.
-/
namespace FerrumNexus.Email

open Platform Sequences Network

variable {config : LinkConfig}

/-! ## What is read of a rendering -/

/-- A text node, or the name of a tag and its attributes. -/
def Token.parts : Token → List Char ⊕ (Bool × List Char × List Attribute)
  | .text content => .inl content
  | .tag found attributes => .inr (found.closing, found.name, attributes)

def AttributeValue.rendered (f : List Char → List Char) : AttributeValue → AttributeValue
  | missing => missing
  | quoted quote text => quoted quote (f text)
  | unquoted text => unquoted (f text)

def Attribute.rendered (f : List Char → List Char) (found : Attribute) : Attribute :=
  ⟨found.name, found.value.rendered f⟩

/-- The parts of a token, with `f` applied to the text of a text node and to the values of
attributes. -/
def Token.rendered (f : List Char → List Char) :
    Token → List Char ⊕ (Bool × List Char × List Attribute)
  | .text content => .inl (f content)
  | .tag found attributes => .inr (found.closing, found.name, attributes.map (Attribute.rendered f))

def attributesIn (all : List Token) : List Attribute :=
  all.flatMap fun
    | .text _ => []
    | .tag _ attributes => attributes

/-- A destination at the portal or at an allowed host. -/
def Resolves (config : LinkConfig) (target : List Char) : Prop :=
  ∃ url, config.resolve (normalized target) = some url ∧ allowed config url = true

/-- An `http(s)` URL of the portal or of an allowed host. -/
structure PortalOrAllowed (config : LinkConfig) (value : List Char) : Prop where
  scheme : lower (value.take 5) = "http:".toList ∨ lower (value.take 6) = "https:".toList
  resolves : Resolves config value

/-- If the attribute names destinations, they are at the portal or at allowed hosts. -/
def LeadsHome (config : LinkConfig) (found : Attribute) : Prop :=
  ∃ name value, decodeEntities found.name = .ok name ∧ decodeEntities found.value.text = .ok value ∧
    (URL_ATTRIBUTES.contains (config.toLowerCase name) = true →
      ∀ target ∈ destinationsOf (config.toLowerCase name) value, Resolves config target)

/-- What is used of the URL parser. A text that begins with neither a letter nor a slash is a path,
a query or a fragment at the portal. The portal has an address that ends in a port, behind which a
path may follow but nothing else that is not ASCII. Some address is not allowed. -/
structure ParsesUrls (config : LinkConfig) : Prop where
  relative : ∀ c rest, c.isAlpha = false → c ≠ '/' → c ≠ '\\' → 0x20 < c.toNat →
    ∃ url, config.resolve (c :: rest) = some url ∧ allowed config url = true
  portal : ∃ address, PortalOrAllowed config address ∧ normalized address = address ∧
    (∀ rest, ∃ url, config.resolve (address ++ '/' :: rest) = some url ∧
      allowed config url = true) ∧
    ∀ c rest, 0x80 ≤ c.toNat → config.resolve (address ++ c :: rest) = none
  foreign : ∃ address, address ≠ [] ∧ normalized address = address ∧ ',' ∉ address ∧
    (∀ c ∈ address, isWhiteSpace c = false) ∧
    ∃ url, config.resolve address = some url ∧ allowed config url = false

/-! ## What is claimed, and where it holds -/

def renderedHtml (content : EmailTemplateContent) (values : List Char → List Char) : List Char :=
  (renderTemplate content (fun name => some (values name)) []).html

/-- What the rendering makes of a text of the template. -/
def rendering (values : List Char → List Char) (text : List Char) : List Char :=
  interpolate text (fun name => some (values name)) true []

/-- The value of one destination variable is all of the attribute's value, up to white space. -/
def Wholly (values : List Char → List Char) (found : Attribute) : Prop :=
  ∃ p before after blank blank', Whole found.value.text p before after blank blank' ∧
    isUrlVariable p.name = true ∧
    rendering values found.value.text = before ++ (escapeHtml (values p.name) ++ after)

/-- With these values, no variable of the template is markup of the rendering. -/
structure Inert (config : LinkConfig) (content : EmailTemplateContent)
    (values : List Char → List Char) : Prop where
  tokens : ∃ all, tokenise content.bodyHtml = some all ∧
    (tokenise (renderedHtml content values)).map (List.map Token.parts) =
      some (all.map (Token.rendered (rendering values)))
  wholly : ∀ all, tokenise content.bodyHtml = some all → ∀ found ∈ attributesIn all,
    matchAll placeholder found.value.text ≠ [] → Wholly values found
  destinations : (∀ name, isUrlVariable name = true → PortalOrAllowed config (values name)) →
    ∀ all, tokenise (renderedHtml content values) = some all →
      ∀ found ∈ attributesIn all, LeadsHome config found

/-- Behind a placeholder is no white space that a URL keeps, unless such is in front of it. -/
def Bare (value : List Char) : Prop :=
  (normalized value).head? = some '{' → (normalized value).getLast? = some '}'

/-- Placeholders stand between tags and in quoted values, and as destinations bare and outside
`srcset`. -/
structure Placed (config : LinkConfig) (all : List Token) : Prop where
  quoted : ∀ tag attributes, .tag tag attributes ∈ all → Quoted tag
  bare : ∀ found ∈ attributesIn all, matchAll placeholder found.value.text ≠ [] →
    ∀ name value, decodeEntities found.name = .ok name →
      decodeEntities found.value.text = .ok value →
      URL_ATTRIBUTES.contains (config.toLowerCase name) = true →
        config.toLowerCase name ≠ "srcset".toList ∧ Bare value

/-! ## Rendering a value -/

theorem rendering_eq (values : List Char → List Char) : rendering values =
    replace placeholder fun found => valueOf (fun name => some (values name)) true [] found.name :=
  rfl

theorem replace_placeholder (f : Placeholder → List Char) (p : Placeholder) (rest : List Char) :
    replace placeholder f (p.text ++ rest) = f p ++ replace placeholder f rest := by
  have hcons : p.text = '{' :: p.text.tail := rfl
  have hlength : p.text.length - 1 = p.text.tail.length := by
    rw [List.length_tail]
  have hmatch := placeholder_text p rest
  rw [hcons, List.cons_append] at hmatch
  rw [replace, hcons, List.cons_append, pieces_of_some hmatch]
  have hdrop : (p.text.tail ++ rest).drop (p.text.length - 1) = rest := by
    rw [hlength, List.drop_left]
  have hcons' : ('{' :: p.text.tail).length - 1 = p.text.length - 1 := rfl
  rw [hcons', hdrop, List.flatMap_cons]
  rfl

variable {blank run text : List Char} {attributes : List Attribute}

theorem not_brace_of_decoded_blank (h : decodeEntities text = .ok blank)
    (hblank : blank.all isWhiteSpace = true) : ∀ c ∈ text, c ≠ '{' := by
  rintro c hc rfl
  exact not_mem_of_blank hblank (by decide) (mem_of_decodeEntities h (by decide) hc)

/-- No destination variable was removed. -/
theorem valueOf_url {name : List Char} (h : isUrlVariable name = true)
    (values : List Char → List Char) :
    valueOf (fun name => some (values name)) true [] name = escapeHtml (values name) := by
  have hremoved : REMOVED_TEMPLATE_VARIABLES.contains name ≠ true := by
    intro hremoved
    simp only [List.contains_eq_mem, REMOVED_TEMPLATE_VARIABLES, List.mem_cons, List.not_mem_nil,
      or_false, decide_eq_true_eq] at hremoved
    rcases hremoved with rfl | rfl
    · exact absurd h (by decide)
    · exact absurd h (by decide)
  rw [valueOf, if_neg hremoved]
  rfl

/-- Where the placeholder is all of the value, so is what is put in its place. -/
theorem Whole.rendering_eq {before after blank' : List Char} {p : Placeholder}
    (h : Whole text p before after blank blank') (hname : isUrlVariable p.name = true)
    (values : List Char → List Char) :
    rendering values text = before ++ (escapeHtml (values p.name) ++ after) := by
  have hbefore := not_brace_of_decoded_blank h.before h.blankBefore
  have hafter := not_brace_of_decoded_blank h.after h.blankAfter
  have hlast := @render_of_no_brace
    (fun found => valueOf (fun name => some (values name)) true [] found.name) after hafter []
  have hnil (f : Placeholder → List Char) : replace placeholder f [] = [] := rfl
  rw [hnil, List.append_nil] at hlast
  rw [h.value, Email.rendering_eq, render_of_no_brace hbefore, replace_placeholder, hlast,
    valueOf_url hname]

/-! ## Values that are not quoted -/

theorem Reads.outside {rest : List Char} {value : AttributeValue}
    (h : Reads text (value, rest)) : ∃ front, outside none text = front ++ outside none rest ∧
      ∀ run, value = .unquoted run → ∃ front', front = front' ++ run := by
  have hspace {space : List Char} (hblank : space.all isWhiteSpace = true) :
      ∀ c ∈ space, isQuote c = false := isQuote_of_all (by decide) hblank
  have hequals (more : List Char) : Email.outside none ('=' :: more) = '=' :: Email.outside none more :=
    @outside_append ['='] (by simp [isQuote]) more
  cases h with
  | missing => exact ⟨[], rfl, fun run h => by cases h⟩
  | @quoted space space' inner rest quote hblank hblank' hquote hin htext =>
    refine ⟨space ++ '=' :: (space' ++ [quote, quote]), ?_, fun run h => by cases h⟩
    rw [htext, outside_append (hspace hblank), hequals, outside_append (hspace hblank'), Email.outside,
      if_pos hquote, outside_quoted hin]
    simp
  | @unquoted space space' run rest hblank hblank' hrun htext =>
    refine ⟨space ++ '=' :: (space' ++ run), ?_, ?_⟩
    · rw [htext, outside_append (hspace hblank), hequals, outside_append (hspace hblank'),
        outside_append (isQuote_of_all (by decide) hrun)]
      simp
    · rintro run' h
      obtain rfl := AttributeValue.unquoted.inj h
      exact ⟨space ++ '=' :: space', by simp⟩

/-- A value that is not quoted is a part of what stands outside quoted values. -/
theorem outside_unquoted {fuel : ℕ} {found : Attribute}
    (h : attributeList fuel text = some attributes) (hfound : found ∈ attributes)
    (hvalue : found.value = .unquoted run) :
    ∃ front back, outside none text = front ++ (run ++ back) := by
  induction fuel generalizing text attributes with
  | zero => exact absurd h.symm (Option.some_ne_none attributes)
  | succ fuel ih =>
    rcases attributeList_eq_some.mp h with ⟨-, rfl⟩ | ⟨-, first, rest, others, hfirst, hrest, rfl⟩
    · exact absurd hfound List.not_mem_nil
    · obtain ⟨space, behind, rfl, hspace, hname, -, hreads, -⟩ := htmlAttribute_eq_some hfirst
      obtain ⟨front, hfront, hunquoted⟩ := hreads.outside
      rw [outside_append (isQuote_of_all (by decide) hspace),
        outside_append (isQuote_of_all (by decide) hname), hfront]
      rcases List.mem_cons.mp hfound with rfl | hlater
      · obtain ⟨front', rfl⟩ := hunquoted run hvalue
        exact ⟨space ++ (found.name ++ front'), outside none rest, by simp⟩
      · obtain ⟨front', back, hthere⟩ := ih hrest hlater
        exact ⟨space ++ (first.name ++ (front ++ front')), back, by rw [hthere]; simp⟩

theorem matchAll_part {front part back : List Char}
    (h : matchAll placeholder (front ++ (part ++ back)) = []) : matchAll placeholder part = [] := by
  by_contra hne
  obtain ⟨before, p, after, rfl⟩ := exists_placeholder_of_matchAll hne
  refine matchAll_ne_nil_of_placeholder (front ++ before) p (after ++ back) ?_
  rw [← h]
  simp

theorem Quoted.unquoted {tag : Tag} {found : Attribute} (h : Quoted tag)
    (hattributes : attributesOf tag = some attributes) (hfound : found ∈ attributes)
    (hvalue : found.value = .unquoted run) :
    matchAll placeholder run = [] := by
  obtain ⟨front, back, hparts⟩ := outside_unquoted hattributes hfound hvalue
  unfold Quoted at h
  rw [hparts] at h
  exact matchAll_part h

/-! ## The tokens stay -/

end FerrumNexus.Email
