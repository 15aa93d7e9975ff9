import Mathlib.Data.List.DropRight
import FerrumNexus.Email.Templates
import FerrumNexus.Network.Numerals

/-!
# The links of a template

What `validateTemplateLinks` makes of the HTML body of a template. The body is
read without being rendered: text, tags, and in a tag attributes with a value
or without one. Anything that a mail client might read in another way is
refused, and so is a destination outside the portal and the allowed hosts. A
placeholder may be a destination if its name ends in `_url`.
-/
namespace FerrumNexus.Email

open Platform Sequences Network

def trimmed (text : List Char) : List Char := (text.dropWhile isWhiteSpace).rdropWhile isWhiteSpace

def refuseIf (p : Prop) [Decidable p] (construct : String) : Except String Unit :=
  if p then .error construct else .ok ()

/-! ## Character references -/

inductive CharacterReference
  | code (number : ℕ)
  | name (letters : List Char)
  deriving DecidableEq

/-- `;?` -/
def semicolon (text : List Char) : ℕ := if text.head? = some ';' then 1 else 0

/-- What follows `&#`. -/
def numericReference (text : List Char) : Option (CharacterReference × ℕ) :=
  let digits := text.takeWhile Char.isDigit
  if digits ≠ [] then
    some (.code (digits.foldl (fun n c => 10 * n + hexDigit c) 0),
      2 + digits.length + semicolon (text.dropWhile Char.isDigit))
  else
    match text with
    | [] => none
    | x :: rest =>
      let digits := rest.takeWhile isHexDigit
      if (x = 'x' ∨ x = 'X') ∧ digits ≠ [] then
        some (.code (hexValue digits), 3 + digits.length + semicolon (rest.dropWhile isHexDigit))
      else none

/-- What follows `&`. -/
def namedReference (text : List Char) : Option (CharacterReference × ℕ) :=
  let letters := text.takeWhile Char.isAlphanum
  if letters.head?.any Char.isAlpha ∧ (text.dropWhile Char.isAlphanum).head? = some ';' then
    some (.name letters, 2 + letters.length)
  else none

/-- `CHARACTER_REFERENCE`. -/
def characterReference : Pattern Char CharacterReference
  | '&' :: '#' :: rest => numericReference rest
  | '&' :: rest => namedReference rest
  | _ => none

def ENTITIES : List (List Char × List Char) :=
  [("amp".toList, ['&']), ("quot".toList, ['"']), ("apos".toList, ['\'']), ("lt".toList, ['<']),
    ("gt".toList, ['>']), ("nbsp".toList, [' ']), ("middot".toList, ['·']),
    ("hellip".toList, ['…']), ("copy".toList, ['©']), ("reg".toList, ['®']),
    ("ndash".toList, ['–']), ("mdash".toList, ['—']), ("colon".toList, [':']),
    ("sol".toList, ['/']), ("bsol".toList, ['\\']), ("equals".toList, ['=']),
    ("Tab".toList, ['\t']), ("NewLine".toList, ['\n'])]

def decodeReference : CharacterReference → Except String (List Char)
  | .code number =>
    if number = 0 ∨ 0x10FFFF < number ∨ (0xD800 ≤ number ∧ number ≤ 0xDFFF) then
      .error "invalid HTML entity"
    else .ok [Char.ofNat number]
  | .name letters =>
    match ENTITIES.lookup letters with
    | none => .error "unsupported HTML entity"
    | some text => .ok text

def decodePiece : Char ⊕ CharacterReference → Except String (List Char)
  | .inl c => .ok [c]
  | .inr reference => decodeReference reference

def decodeEntities (value : List Char) : Except String (List Char) :=
  List.flatten <$> (pieces characterReference 0 value).mapM decodePiece

/-! ## Destinations -/

/-- What is read of a parsed URL. -/
structure Url where
  protocol : String
  username : String
  password : String
  origin : String
  host : List Char

/-- The configuration. `resolve` is `new URL(text, portal)`. -/
structure LinkConfig where
  portal : Url
  allowedHosts : List (List Char)
  resolve : List Char → Option Url
  toLowerCase : List Char → List Char

def isUrlVariable (name : List Char) : Bool := "_url".toList.isSuffixOf name

/-- `URL_STRIPPED_CHARACTERS`. -/
def isStripped (c : Char) : Bool := c.toNat ≤ 0x20 || c.toNat == 0x7F

def normalized (value : List Char) : List Char :=
  (value.filter fun c => !isStripped c).map fun c => if c = '\\' then '/' else c

/-- Whether a URL leads to the portal or to an allowed host. -/
def allowed (config : LinkConfig) (url : Url) : Bool :=
  url.origin == config.portal.origin || config.allowedHosts.contains (config.toLowerCase url.host)

def destination (config : LinkConfig) (value : List Char) (construct : String) :
    Except String Unit :=
  match matchAll placeholder value with
  | first :: others => do
    refuseIf (others ≠ [] ∨ first.text ≠ trimmed value) ("concatenated placeholder in " ++ construct)
    refuseIf (¬isUrlVariable first.name) ("non-URL placeholder in " ++ construct)
  | [] =>
    match config.resolve (normalized value) with
    | none => .error ("invalid URL in " ++ construct)
    | some url => do
      refuseIf (url.protocol ≠ "https:" ∧ url.protocol ≠ "http:")
        ("unsupported scheme in " ++ construct)
      refuseIf (url.username ≠ "" ∨ url.password ≠ "") ("URL credentials in " ++ construct)
      refuseIf (¬allowed config url) ("host '" ++ String.ofList url.host ++ "' in " ++ construct)

/-! ## What is looked for in the whole text -/

def isSlash (c : Char) : Bool := c == '/' || c == '\\'

def isUrlCharacter (c : Char) : Bool := !isWhiteSpace c && !"<>\"'()".toList.contains c

/-- The length of two slashes and what follows them. -/
def slashesLength : List Char → Option ℕ
  | a :: b :: rest =>
    let body := rest.takeWhile isUrlCharacter
    if isSlash a ∧ isSlash b ∧ body ≠ [] then some (2 + body.length) else none
  | _ => none

def isControl (c : Char) : Bool := c.toNat ≤ 0x1F || c.toNat == 0x7F

/-- The text with control characters as spaces. -/
def spaced (decoded : List Char) : List Char :=
  decoded.map fun c => if isControl c then ' ' else c

/-! ## Style -/

/-- Whether a text has a word and then an opening bracket. -/
def opens (word : List Char) (text : List Char) : Bool :=
  lower (text.take word.length) == word &&
    ((text.drop word.length).dropWhile isWhiteSpace).head? == some '('

def isQuote (c : Char) : Bool := c == '"' || c == '\''

structure Tag where
  closing : Bool
  name : List Char
  attributes : List Char
  deriving DecidableEq

def isTagNameCharacter (c : Char) : Bool := c.isAlphanum || c == ':' || c == '-'

def isInTag (c : Char) : Bool := c != '<' && c != '>'

/-- `\/?` -/
def optionalSlash : List Char → Bool × List Char
  | '/' :: rest => (true, rest)
  | rest => (false, rest)

/-- `HTML_TAG`: the tag at the start of a text, and what follows it. -/
def htmlTag : List Char → Option (Tag × List Char)
  | '<' :: rest =>
    let slash := optionalSlash rest
    let name := slash.2.takeWhile isTagNameCharacter
    let behind := slash.2.dropWhile isTagNameCharacter
    match behind.dropWhile isInTag with
    | '>' :: after =>
      if name.head?.any Char.isAlpha then some (⟨slash.1, name, behind.takeWhile isInTag⟩, after)
      else none
    | _ => none
  | _ => none

inductive AttributeValue
  | missing
  | quoted (quote : Char) (text : List Char)
  | unquoted (text : List Char)
  deriving DecidableEq

def AttributeValue.text : AttributeValue → List Char
  | missing => []
  | quoted _ text => text
  | unquoted text => text

structure Attribute where
  name : List Char
  value : AttributeValue
  deriving DecidableEq

def isAttributeNameCharacter (c : Char) : Bool :=
  !isWhiteSpace c && !"=<>\"'\x60/".toList.contains c

def isUnquotedCharacter (c : Char) : Bool :=
  !isWhiteSpace c && !"<>\"'\x60=".toList.contains c

/-- `(?:\s*=\s*(?:"([^"]*)"|'([^']*)'|([^\s<>"'`=]+)))?` -/
def attributeValue (text : List Char) : AttributeValue × List Char :=
  match text.dropWhile isWhiteSpace with
  | '=' :: rest =>
    match rest.dropWhile isWhiteSpace with
    | [] => (.missing, text)
    | c :: rest =>
      if isQuote c then
        match rest.dropWhile (· != c) with
        | _ :: after => (.quoted c (rest.takeWhile (· != c)), after)
        | [] => (.missing, text)
      else if isUnquotedCharacter c then
        (.unquoted ((c :: rest).takeWhile isUnquotedCharacter),
          (c :: rest).dropWhile isUnquotedCharacter)
      else (.missing, text)
  | _ => (.missing, text)

/-- `HTML_ATTRIBUTE`: the attribute at the start of a text, and what follows it. -/
def htmlAttribute (text : List Char) : Option (Attribute × List Char) :=
  let named := text.dropWhile isWhiteSpace
  let name := named.takeWhile isAttributeNameCharacter
  if text.head?.any isWhiteSpace ∧ name ≠ [] then
    let found := attributeValue (named.dropWhile isAttributeNameCharacter)
    some (⟨name, found.1⟩, found.2)
  else none

/-- Whether `SELF_CLOSING_SLASH` matches. -/
def isSelfClosing (attributes : List Char) : Bool :=
  (attributes.rdropWhile isWhiteSpace).getLast? == some '/'

/-- The attributes without the slash of a tag that closes itself. -/
def withoutSlash (attributes : List Char) : List Char :=
  if isSelfClosing attributes then (attributes.rdropWhile isWhiteSpace).dropLast else attributes

def URL_ATTRIBUTES : List (List Char) :=
  ["href".toList, "src".toList, "action".toList, "srcset".toList, "data".toList, "poster".toList,
    "formaction".toList, "background".toList, "xlink:href".toList]

/-- The destinations that an attribute names. -/
def destinationsOf (key value : List Char) : List (List Char) :=
  if key = "srcset".toList then
    (value.splitOn ',').map fun candidate =>
      (trimmed candidate).takeWhile fun c => !isWhiteSpace c
  else [value]

inductive Token
  | text (content : List Char)
  | tag (tag : Tag) (attributes : List Attribute)
  deriving DecidableEq

/-- The attributes of a tag. -/
def attributeList : ℕ → List Char → Option (List Attribute)
  | 0, _ => none
  | fuel + 1, text =>
    if text.all isWhiteSpace then some []
    else do
      let (found, rest) ← htmlAttribute text
      let attributes ← attributeList fuel rest
      some (found :: attributes)

def attributesOf (tag : Tag) : Option (List Attribute) :=
  let attributes := withoutSlash tag.attributes
  attributeList (attributes.length + 1) attributes

def tokens : ℕ → List Char → Option (List Token)
  | 0, _ => none
  | fuel + 1, source =>
    let before := source.takeWhile (· != '<')
    match source.dropWhile (· != '<') with
    | [] => some [.text before]
    | rest => do
      let (tag, after) ← htmlTag rest
      let attributes ← attributesOf tag
      let others ← tokens fuel after
      some (.text before :: .tag tag attributes :: others)

/-- A text as the grammar of the loop over tags reads it. -/
def tokenise (source : List Char) : Option (List Token) := tokens (source.length + 1) source

end FerrumNexus.Email
