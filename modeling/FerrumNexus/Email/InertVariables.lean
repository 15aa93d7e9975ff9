import FerrumNexus.Email.StrayPlaceholders

/-!
# When variables never become markup

The placement of the placeholders decides. With an equals sign for a value, a
placeholder outside quoted values changes what is read; with the address of the
portal, one with white space behind it leads nowhere; and a value in a `srcset`
can name a second destination.
-/
namespace FerrumNexus.Email

open Platform Sequences Network

section Inert

variable {config : LinkConfig} {content : EmailTemplateContent} {all : List Token}

/-! ## Quoted values -/

theorem Inert.rendered {values : List Char → List Char} (h : Inert config content values)
    (hall : tokenise content.bodyHtml = some all) :
    ∃ all', tokenise (renderedHtml content values) = some all' ∧
      all'.map Token.parts = all.map (Token.rendered (rendering values)) := by
  obtain ⟨_, hsame, hparts⟩ := h.tokens
  obtain rfl := Option.some_inj.mp (hsame.symm.trans hall)
  exact Option.map_eq_some_iff.mp hparts

variable {found : Attribute} {address name value : List Char}

end Inert

/-! ## An attribute of one's own -/

/-- A portal, and one address that is not allowed. -/
def portalUrl : Url := ⟨"https:", "", "", "https://portal.example", "portal.example".toList⟩

def otherUrl : Url := ⟨"https:", "", "", "https://other.example", "other.example".toList⟩

/-- `new URL` of addresses of the two, and of what is relative to the portal. -/
def resolved : List Char → Option Url
  | [] => some portalUrl
  | c :: rest =>
    if c.isAlpha then
      if "https://portal.example".toList.isPrefixOf (c :: rest) then
        let behind := (c :: rest).drop 22
        let path := if ":443".toList.isPrefixOf behind then behind.drop 4 else behind
        if path.head?.all "/?#".toList.contains then some portalUrl else none
      else if c :: rest = "https://other.example".toList then some otherUrl
      else none
    else if isSlash c && rest.head?.any isSlash then none
    else some portalUrl

end FerrumNexus.Email
