import Mathlib.Tactic

/-!
# JSON values and their texts

A JSON value, the text `JSON.stringify` gives it, and what `JSON.parse` makes of
a text. An object is the list of its members, in the order of its text; a member
assigned twice keeps its first place and its last value. Strings are sequences
of Unicode scalar values, so a lone surrogate does not occur in one. How a number
is written is left open: a number format is any pair of a printer and a reader
that agree, and the format of finite IEEE doubles is one, in which 0 and -0 are
the same number.
-/
namespace FerrumNexus.Formats

inductive Json (ν : Type)
  | null
  | bool (b : Bool)
  | number (n : ν)
  | string (s : String)
  | array (items : List (Json ν))
  | object (members : List (String × Json ν))

/-- `Number.MAX_SAFE_INTEGER`. -/
def MAX_SAFE_INTEGER : ℕ := 2 ^ 53 - 1

/-- The characters a number is written with. -/
def isNumberChar (c : Char) : Bool :=
  c.isDigit || c == '-' || c == '+' || c == '.' || c == 'e' || c == 'E'

/-- How the numbers of a JSON text are written and read back. `safeInteger` is
the value of a number that `Number.isSafeInteger` accepts. -/
structure NumberFormat (ν : Type) where
  text : ν → List Char
  read : List Char → Option ν
  ofNat : ℕ → ν
  safeInteger : ν → Option ℤ
  text_ne_nil : ∀ n, text n ≠ []
  text_chars : ∀ n, ∀ c ∈ text n, isNumberChar c = true
  read_text : ∀ n, read (text n) = some n
  safeInteger_ofNat : ∀ n ≤ MAX_SAFE_INTEGER, safeInteger (ofNat n) = some n

/-- Natural numbers, written in decimal. -/
def decimalFormat : NumberFormat ℕ where
  text := Nat.toDigits 10
  read digits :=
    if digits.all Char.isDigit && !digits.isEmpty then some (Nat.ofDigitChars 10 digits 0) else none
  ofNat n := n
  safeInteger n := if n ≤ MAX_SAFE_INTEGER then some n else none
  text_ne_nil n := Nat.toDigits_ne_nil
  text_chars n c hc := by
    have hdigit := Nat.isDigit_of_mem_toDigits (by decide) (by decide) hc
    simp [isNumberChar, hdigit]
  read_text n := by
    have hdigits : (Nat.toDigits 10 n).all Char.isDigit = true :=
      List.all_eq_true.mpr fun c hc => Nat.isDigit_of_mem_toDigits (by decide) (by decide) hc
    have hne : (Nat.toDigits 10 n).isEmpty = false := by
      simp [Nat.toDigits_ne_nil]
    simp only [hdigits, hne, Nat.ofDigitChars_toDigits (b := 10) (n := n) (by decide) (by decide)]
    rfl
  safeInteger_ofNat n hn := if_pos hn

variable {ν : Type}

/-- `value[name]`, for a value that is an object. -/
def member (members : List (String × Json ν)) (name : String) : Option (Json ν) :=
  (members.find? fun entry => entry.1 == name).map (·.2)

/-- `target[name] = value`. -/
def assign (members : List (String × Json ν)) (name : String) (value : Json ν) :
    List (String × Json ν) :=
  if members.any fun entry => entry.1 == name then
    members.map fun entry => if entry.1 == name then (name, value) else entry
  else members ++ [(name, value)]

mutual

/-- No object of the value names a member twice. -/
def Json.Keyed : Json ν → Prop
  | .array items => KeyedItems items
  | .object members => (members.map (·.1)).Nodup ∧ KeyedMembers members
  | _ => True

def KeyedItems : List (Json ν) → Prop
  | [] => True
  | v :: vs => v.Keyed ∧ KeyedItems vs

def KeyedMembers : List (String × Json ν) → Prop
  | [] => True
  | (_, v) :: ms => v.Keyed ∧ KeyedMembers ms

end

/-! ## Printing -/

def hexDigit (n : ℕ) : Char :=
  if n < 10 then Char.ofNat (48 + n) else Char.ofNat (87 + n)

/-- One character of a string's text: the short escapes, `\\u00XX` for the other
control characters, and everything else as it is. -/
def quoteChar (c : Char) : List Char :=
  if c = '"' then ['\\', '"']
  else if c = '\\' then ['\\', '\\']
  else if c.toNat = 8 then ['\\', 'b']
  else if c.toNat = 9 then ['\\', 't']
  else if c.toNat = 10 then ['\\', 'n']
  else if c.toNat = 12 then ['\\', 'f']
  else if c.toNat = 13 then ['\\', 'r']
  else if c.toNat < 32 then
    ['\\', 'u', '0', '0', hexDigit (c.toNat / 16), hexDigit (c.toNat % 16)]
  else [c]

def quote (s : String) : List Char :=
  '"' :: (s.toList.flatMap quoteChar ++ ['"'])

section Printing

variable (format : NumberFormat ν)

mutual

/-- `JSON.stringify`. -/
def stringify : Json ν → List Char
  | .null => ['n', 'u', 'l', 'l']
  | .bool true => ['t', 'r', 'u', 'e']
  | .bool false => ['f', 'a', 'l', 's', 'e']
  | .number n => format.text n
  | .string s => quote s
  | .array [] => ['[', ']']
  | .array (v :: vs) => '[' :: (stringify v ++ stringifyItems vs)
  | .object [] => ['\x7b', '\x7d']
  | .object ((name, v) :: ms) =>
    '\x7b' :: (quote name ++ ':' :: (stringify v ++ stringifyMembers ms))

/-- The items that follow one, and the bracket. -/
def stringifyItems : List (Json ν) → List Char
  | [] => [']']
  | v :: vs => ',' :: (stringify v ++ stringifyItems vs)

def stringifyMembers : List (String × Json ν) → List Char
  | [] => ['\x7d']
  | (name, v) :: ms => ',' :: (quote name ++ ':' :: (stringify v ++ stringifyMembers ms))

end

end Printing

/-! ## Reading -/

def isWhitespace (c : Char) : Bool :=
  c == ' ' || c == '\t' || c == '\n' || c == '\r'

def skip (text : List Char) : List Char :=
  text.dropWhile isWhitespace

def hexValue (c : Char) : Option ℕ :=
  if '0' ≤ c ∧ c ≤ '9' then some (c.toNat - 48)
  else if 'a' ≤ c ∧ c ≤ 'f' then some (c.toNat - 87)
  else if 'A' ≤ c ∧ c ≤ 'F' then some (c.toNat - 55)
  else none

/-- The code unit four hexadecimal digits name. -/
def codeUnit (a b c d : Char) : Option ℕ := do
  let w ← hexValue a
  let x ← hexValue b
  let y ← hexValue c
  let z ← hexValue d
  pure (4096 * w + 256 * x + 16 * y + z)

/-- The characters of a string up to its closing quotation mark, and what
follows it. A pair of escaped surrogates is one character; a lone one is
refused. -/
def readString : List Char → Option (List Char × List Char)
  | [] => none
  | '"' :: rest => some ([], rest)
  | '\\' :: '"' :: rest => (readString rest).map fun r => ('"' :: r.1, r.2)
  | '\\' :: '\\' :: rest => (readString rest).map fun r => ('\\' :: r.1, r.2)
  | '\\' :: '/' :: rest => (readString rest).map fun r => ('/' :: r.1, r.2)
  | '\\' :: 'b' :: rest => (readString rest).map fun r => (Char.ofNat 8 :: r.1, r.2)
  | '\\' :: 't' :: rest => (readString rest).map fun r => (Char.ofNat 9 :: r.1, r.2)
  | '\\' :: 'n' :: rest => (readString rest).map fun r => (Char.ofNat 10 :: r.1, r.2)
  | '\\' :: 'f' :: rest => (readString rest).map fun r => (Char.ofNat 12 :: r.1, r.2)
  | '\\' :: 'r' :: rest => (readString rest).map fun r => (Char.ofNat 13 :: r.1, r.2)
  | '\\' :: 'u' :: a :: b :: c :: d :: rest =>
    match codeUnit a b c d with
    | none => none
    | some high =>
      if high < 55296 ∨ 57344 ≤ high then
        (readString rest).map fun r => (Char.ofNat high :: r.1, r.2)
      else
        match rest with
        | '\\' :: 'u' :: a' :: b' :: c' :: d' :: rest' =>
          match codeUnit a' b' c' d' with
          | none => none
          | some low =>
            if high < 56320 ∧ 56320 ≤ low ∧ low < 57344 then
              (readString rest').map fun r =>
                (Char.ofNat (65536 + 1024 * (high - 55296) + (low - 56320)) :: r.1, r.2)
            else none
        | _ => none
  | '\\' :: _ => none
  | c :: rest =>
    if c.toNat < 32 then none else (readString rest).map fun r => (c :: r.1, r.2)

section Reading

variable (format : NumberFormat ν)

mutual

/-- One value at the head of a text, and what follows it. -/
def readValue : ℕ → List Char → Option (Json ν × List Char)
  | 0, _ => none
  | fuel + 1, text =>
    match skip text with
    | 'n' :: 'u' :: 'l' :: 'l' :: rest => some (.null, rest)
    | 't' :: 'r' :: 'u' :: 'e' :: rest => some (.bool true, rest)
    | 'f' :: 'a' :: 'l' :: 's' :: 'e' :: rest => some (.bool false, rest)
    | '"' :: rest => (readString rest).map fun r => (.string (String.ofList r.1), r.2)
    | '[' :: rest =>
      match skip rest with
      | ']' :: rest' => some (.array [], rest')
      | rest' => (readItems fuel rest').map fun r => (.array r.1, r.2)
    | '\x7b' :: rest =>
      match skip rest with
      | '\x7d' :: rest' => some (.object [], rest')
      | rest' => (readMembers fuel [] rest').map fun r => (.object r.1, r.2)
    | rest =>
      (format.read (rest.takeWhile isNumberChar)).map fun n =>
        (.number n, rest.dropWhile isNumberChar)

/-- A value and the items after it. -/
def readItems : ℕ → List Char → Option (List (Json ν) × List Char)
  | 0, _ => none
  | fuel + 1, text => do
    let (v, rest) ← readValue fuel text
    match skip rest with
    | ']' :: rest' => some ([v], rest')
    | ',' :: rest' => (readItems fuel rest').map fun r => (v :: r.1, r.2)
    | _ => none

/-- A member and those after it, assigned in turn. -/
def readMembers : ℕ → List (String × Json ν) → List Char →
    Option (List (String × Json ν) × List Char)
  | 0, _, _ => none
  | fuel + 1, members, text =>
    match skip text with
    | '"' :: rest => do
      let (name, rest₁) ← readString rest
      match skip rest₁ with
      | ':' :: rest₂ => do
        let (v, rest₃) ← readValue fuel rest₂
        let assigned := assign members (String.ofList name) v
        match skip rest₃ with
        | '\x7d' :: rest₄ => some (assigned, rest₄)
        | ',' :: rest₄ => readMembers fuel assigned rest₄
        | _ => none
      | _ => none
    | _ => none

end

/-- `JSON.parse`. -/
def parse (text : List Char) : Option (Json ν) :=
  match readValue format (text.length + 1) text with
  | some (v, rest) => if (skip rest).isEmpty then some v else none
  | none => none

end Reading

end FerrumNexus.Formats
