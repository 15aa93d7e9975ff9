import Mathlib.Data.List.DropRight
import FerrumNexus.Platform.Text
import FerrumNexus.Sequences.OrderedMap

/-!
# The reader of a metrics scrape

`parsePrometheusText` reads the text exposition format line by line, with an
index that only moves forward: here a reader takes what is left of its line and
gives back what is left behind it. A line it cannot read is skipped. A value is
known before it is rounded to a double.
-/
namespace FerrumNexus.Telemetry

open Platform

/-! ## Numbers -/

/-- A number: `NaN`, an infinity, or digits at a power of ten. -/
inductive MetricValue
  | nan
  | infinity (negative : Bool)
  | decimal (negative : Bool) (digits : ℕ) (exponent : ℤ)
  deriving DecidableEq, Repr

def MetricValue.negate : MetricValue → MetricValue
  | .nan => .nan
  | .infinity negative => .infinity !negative
  | .decimal negative digits exponent => .decimal (!negative) digits exponent

/-- The value of digits in a base. -/
def digitsValue (base : ℕ) (digits : List Char) : ℕ :=
  digits.foldl (fun n c => base * n +
    if c.isDigit then c.toNat - 48 else if c.isUpper then c.toNat - 55 else c.toNat - 87) 0

def isHexDigit (c : Char) : Bool :=
  c.isDigit || ('a' ≤ c && c ≤ 'f') || ('A' ≤ c && c ≤ 'F')

/-- The exponent of a decimal literal. -/
def exponentPart : List Char → Option ℤ
  | [] => some 0
  | e :: rest =>
    if e = 'e' ∨ e = 'E' then
      match rest with
      | '+' :: digits => if digits ≠ [] ∧ digits.all Char.isDigit then
          some (digitsValue 10 digits) else none
      | '-' :: digits => if digits ≠ [] ∧ digits.all Char.isDigit then
          some (-(digitsValue 10 digits : ℤ)) else none
      | digits => if digits ≠ [] ∧ digits.all Char.isDigit then
          some (digitsValue 10 digits) else none
    else none

/-- `StrUnsignedDecimalLiteral`. -/
def unsignedLiteral (text : List Char) : Option MetricValue :=
  if text = "Infinity".toList then some (.infinity false)
  else
    let whole := text.takeWhile Char.isDigit
    let rest := text.dropWhile Char.isDigit
    let (fraction, rest) := match rest with
      | '.' :: rest => (rest.takeWhile Char.isDigit, rest.dropWhile Char.isDigit)
      | rest => ([], rest)
    if whole = [] ∧ fraction = [] then none
    else (exponentPart rest).map fun exponent =>
      .decimal false (digitsValue 10 (whole ++ fraction)) (exponent - fraction.length)

/-- A literal in base 16, 8 or 2, behind its prefix. -/
def radixLiteral (base : ℕ) (isDigit : Char → Bool) (digits : List Char) : Option MetricValue :=
  if digits ≠ [] ∧ digits.all isDigit then some (.decimal false (digitsValue base digits) 0) else none

/-- `Number(text)`, `none` for `NaN`. -/
def number (text : List Char) : Option MetricValue :=
  match (text.dropWhile isWhiteSpace).rdropWhile isWhiteSpace with
  | [] => some (.decimal false 0 0)
  | '+' :: rest => unsignedLiteral rest
  | '-' :: rest => (unsignedLiteral rest).map MetricValue.negate
  | '0' :: 'x' :: digits => radixLiteral 16 isHexDigit digits
  | '0' :: 'X' :: digits => radixLiteral 16 isHexDigit digits
  | '0' :: 'o' :: digits => radixLiteral 8 (fun c => '0' ≤ c && c ≤ '7') digits
  | '0' :: 'O' :: digits => radixLiteral 8 (fun c => '0' ≤ c && c ≤ '7') digits
  | '0' :: 'b' :: digits => radixLiteral 2 (fun c => c = '0' || c = '1') digits
  | '0' :: 'B' :: digits => radixLiteral 2 (fun c => c = '0' || c = '1') digits
  | literal => unsignedLiteral literal

/-- `parseValue`. -/
def parseValue (token : List Char) : Option MetricValue :=
  if token = [] then none
  else if token = "+Inf".toList ∨ token = "Inf".toList then some (.infinity false)
  else if token = "-Inf".toList then some (.infinity true)
  else if token = "NaN".toList then some .nan
  else number token

/-! ## Readers -/

/-- `NAME_START`. -/
def isNameStart (c : Char) : Bool := c.isAlpha || c = '_' || c = ':'

/-- `NAME_CHAR`. -/
def isNameChar (c : Char) : Bool := c.isAlphanum || c = '_' || c = ':'

def readName : List Char → Option (List Char × List Char)
  | [] => none
  | c :: rest =>
    if isNameStart c then some (c :: rest.takeWhile isNameChar, rest.dropWhile isNameChar) else none

/-- The loop of `readQuoted`, behind the opening quote. -/
def readQuotedBody : List Char → Option (List Char × List Char)
  | [] => none
  | '\\' :: [] => none
  | '\\' :: escaped :: rest =>
    (readQuotedBody rest).map fun (value, rest) =>
      ((if escaped = 'n' then '\n' else escaped) :: value, rest)
  | c :: rest =>
    if c = '"' then some ([], rest)
    else (readQuotedBody rest).map fun (value, rest) => (c :: value, rest)

def readQuoted : List Char → Option (List Char × List Char)
  | '"' :: rest => readQuotedBody rest
  | _ => none

def isBlank (c : Char) : Bool := c = ' ' || c = '\t'

def skipSpace (line : List Char) : List Char := line.dropWhile isBlank

/-- `Record<string, string>`. -/
abbrev Labels := Sequences.OrderedMap (List Char) (List Char)

/-- The name every object literal has a setter for, which takes no string. -/
def protoName : List Char := "__proto__".toList

/-- `labels[name] = value`. -/
def assign (labels : Labels) (name value : List Char) : Labels :=
  if name = protoName then labels else labels.set name value

/-- One label, and what is left behind its value. -/
def readLabel (line : List Char) : Option ((List Char × List Char) × List Char) :=
  match readName line with
  | none => none
  | some (name, rest) =>
    match skipSpace rest with
    | '=' :: rest =>
      (readQuoted (skipSpace rest)).map fun (value, rest) => ((name, value), skipSpace rest)
    | _ => none

/-- The loop of `readLabels`. Every turn reads a name. -/
def readLabelsLoop : ℕ → Labels → List Char → Option (Labels × List Char)
  | 0, _, _ => none
  | turns + 1, labels, line =>
    match readLabel line with
    | none => none
    | some ((name, value), rest) =>
      let labels := assign labels name value
      match rest with
      | '}' :: rest => some (labels, rest)
      | ',' :: rest =>
        match skipSpace rest with
        | '}' :: rest => some (labels, rest)
        | rest => readLabelsLoop turns labels rest
      | _ => none

def readLabels : List Char → Option (Labels × List Char)
  | '{' :: rest =>
    match skipSpace rest with
    | '}' :: rest => some (.empty, rest)
    | line => readLabelsLoop line.length .empty line
  | _ => none

/-! ## Lines -/

structure PrometheusSample where
  name : List Char
  labels : Labels
  value : MetricValue

/-- The label block of a line, where its next character opens one. -/
def readBlock (line : List Char) : Option (Labels × List Char) :=
  if line.head? = some '{' then readLabels line else some (.empty, line)

/-- The value of a line, up to the next blank. A timestamp behind it is not read. -/
def readValue (name : List Char) (labels : Labels) (line : List Char) : Option PrometheusSample :=
  let rest := skipSpace line
  if rest = [] then none
  else (parseValue (rest.takeWhile fun c => !isBlank c)).map fun value => ⟨name, labels, value⟩

/-- A line from its name on. -/
def readSample (line : List Char) : Option PrometheusSample :=
  match readName line with
  | none => none
  | some (name, rest) =>
    match readBlock rest with
    | none => none
    | some (labels, rest) => readValue name labels rest

/-- The body of the loop of `parsePrometheusText`. -/
def parseLine (rawLine : List Char) : Option PrometheusSample :=
  let line := skipSpace (rawLine.rdropWhile isWhiteSpace)
  if line = [] ∨ line.head? = some '#' then none else readSample line

def parsePrometheusText (body : List Char) : List PrometheusSample :=
  (body.splitOn '\n').filterMap parseLine

end FerrumNexus.Telemetry
