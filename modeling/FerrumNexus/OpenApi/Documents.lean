import Mathlib.Data.List.Nodup
import FerrumNexus.Platform.Text

/-!
# Parsed documents and the pointers into them

A parsed document is a graph of objects and arrays. A node has an identity, by
which the readers remember it, and may be the member of several others. Only own
members are ever read, so an object is the list of its members, in the order
they are enumerated in. A number is known by the text `String` gives it, and -0 by
`-0`.
-/
namespace FerrumNexus.OpenApi

open Platform

inductive Value (ι : Type)
  | null
  | bool (b : Bool)
  | number (text : String)
  | string (s : String)
  | node (id : ι)
  deriving DecidableEq

/-- `String(value)` of a number, which does not tell -0 from 0. -/
def numberString (text : String) : String := if text = "-0" then "0" else text

/-- The members of an object: no name twice. -/
structure Members (ι : Type) where
  entries : List (String × Value ι)
  distinct : (entries.map Prod.fst).Nodup

inductive Node (ι : Type)
  | array (items : List (Value ι))
  | record (members : Members ι)

structure Document (ι : Type) where
  nodes : ι → Node ι
  root : Value ι

variable {ι : Type}

/-! ## Members -/

def Members.none : Members ι := ⟨[], List.nodup_nil⟩

/-- `value[key]` of an own member. -/
def Members.get (members : Members ι) (key : String) : Option (Value ι) :=
  (members.entries.find? fun entry => entry.1 == key).map Prod.snd

theorem Members.mem_of_get {members : Members ι} {key : String} {value : Value ι}
    (h : members.get key = some value) : (key, value) ∈ members.entries := by
  obtain ⟨entry, hfind, rfl⟩ := Option.map_eq_some_iff.mp h
  obtain rfl : entry.1 = key := by simpa using List.find?_some hfind
  exact List.mem_of_find?_eq_some hfind

theorem Members.get_of_mem {members : Members ι} {entry : String × Value ι}
    (h : entry ∈ members.entries) : members.get entry.1 = some entry.2 := by
  have hsome : (members.entries.find? fun other => other.1 == entry.1).isSome := by
    rw [List.find?_isSome]
    exact ⟨entry, h, beq_self_eq_true _⟩
  obtain ⟨other, hother⟩ := Option.isSome_iff_exists.mp hsome
  have hkey : other.1 = entry.1 := by simpa using List.find?_some hother
  have hsame := List.inj_on_of_nodup_map members.distinct (List.mem_of_find?_eq_some hother) h hkey
  rw [Members.get, hother, hsame]
  rfl

/-- The own members of an object, and none for an array. -/
def Document.members (doc : Document ι) (id : ι) : Members ι :=
  match doc.nodes id with
  | .record members => members
  | .array _ => .none

/-- `own(value, key)`. -/
def Document.own (doc : Document ι) (id : ι) (key : String) : Option (Value ι) :=
  (doc.members id).get key

/-- The object a value is: `isRecord`, `isPlainRecord` and `record`. -/
def Document.record? (doc : Document ι) : Option (Value ι) → Option ι
  | some (.node id) =>
    match doc.nodes id with
    | .record _ => some id
    | .array _ => none
  | _ => none

/-- The items of a value that is an array. -/
def Document.array? (doc : Document ι) : Option (Value ι) → Option (List (Value ι))
  | some (.node id) =>
    match doc.nodes id with
    | .array items => some items
    | .record _ => none
  | _ => none

def string? : Option (Value ι) → Option String
  | some (.string s) => some s
  | _ => none

/-! ## Pointers -/

def MAX_OPENAPI_REF_LENGTH : ℕ := 2048

/-- `MAX_SPEC_DEPTH`. -/
def MAX_OPENAPI_POINTER_SEGMENTS : ℕ := 200

def hexDigit (c : Char) : Option ℕ :=
  if '0' ≤ c ∧ c ≤ '9' then some (c.toNat - 48)
  else if 'a' ≤ c ∧ c ≤ 'f' then some (c.toNat - 87)
  else if 'A' ≤ c ∧ c ≤ 'F' then some (c.toNat - 55)
  else none

/-- The byte an escape stands for, and what follows it. -/
def percentByte : List Char → Option (ℕ × List Char)
  | '%' :: a :: b :: rest => do
    let high ← hexDigit a
    let low ← hexDigit b
    pure (16 * high + low, rest)
  | _ => none

/-- `n` continuation bytes, put behind the bits already read. -/
def continuation : ℕ → ℕ → List Char → Option (ℕ × List Char)
  | 0, bits, text => some (bits, text)
  | n + 1, bits, text => do
    let (byte, rest) ← percentByte text
    if 128 ≤ byte ∧ byte < 192 then continuation n (64 * bits + (byte - 128)) rest else none

/-- One escaped character: its bytes must be the UTF-8 encoding of a code point. -/
def percentChar (text : List Char) : Option (Char × List Char) := do
  let (byte, rest) ← percentByte text
  if byte < 128 then pure (Char.ofNat byte, rest)
  else if 192 ≤ byte ∧ byte < 224 then do
    let (code, rest) ← continuation 1 (byte - 192) rest
    if 128 ≤ code then pure (Char.ofNat code, rest) else none
  else if 224 ≤ byte ∧ byte < 240 then do
    let (code, rest) ← continuation 2 (byte - 224) rest
    if 2048 ≤ code ∧ (code < 55296 ∨ 57344 ≤ code) then pure (Char.ofNat code, rest) else none
  else if 240 ≤ byte ∧ byte < 248 then do
    let (code, rest) ← continuation 3 (byte - 240) rest
    if 65536 ≤ code ∧ code < 1114112 then pure (Char.ofNat code, rest) else none
  else none

/-- `decodeURIComponent`, `none` where it throws. Every step reads at least one
character. -/
def decodeURIComponent : ℕ → List Char → Option (List Char)
  | _, [] => some []
  | 0, _ :: _ => none
  | fuel + 1, c :: rest =>
    if c = '%' then do
      let (decoded, rest) ← percentChar (c :: rest)
      let tail ← decodeURIComponent fuel rest
      pure (decoded :: tail)
    else (decodeURIComponent fuel rest).map (c :: ·)

/-- Every `~` with `digit` after it, replaced. -/
def replaceTilde (digit : Char) (replacement : Char) : List Char → List Char
  | '~' :: c :: rest =>
    if c = digit then replacement :: replaceTilde digit replacement rest
    else '~' :: replaceTilde digit replacement (c :: rest)
  | c :: rest => c :: replaceTilde digit replacement rest
  | [] => []

/-- One segment of a pointer as a member name. -/
def decodeSegment (raw : List Char) : Option String :=
  (decodeURIComponent raw.length raw).map fun decoded =>
    String.ofList (replaceTilde '0' '~' (replaceTilde '1' '/' decoded))

/-- `ARRAY_INDEX`, and the number it reads. -/
def arrayIndex (segment : String) : Option ℕ :=
  let digits := segment.toList
  if digits = [] ∨ !(digits.all Char.isDigit) ∨ (digits.head? = some '0' ∧ digits.length ≠ 1) then none
  else some (digits.foldl (fun n c => 10 * n + (c.toNat - 48)) 0)

/-- One segment of a walk. -/
def Document.enter (doc : Document ι) (current : Value ι) (segment : String) : Option (Value ι) :=
  match current with
  | .node id =>
    match doc.nodes id with
    | .array items => (arrayIndex segment).bind fun index => items[index]?
    | .record members => members.get segment
  | _ => none

/-- `resolveOpenApiPointer`. -/
def Document.walkPointer (doc : Document ι) (ref : String) : Option (Value ι) :=
  if MAX_OPENAPI_REF_LENGTH < utf16Length ref then none
  else
    match ref.toList with
    | ['#'] => some doc.root
    | '#' :: '/' :: path =>
      if MAX_OPENAPI_POINTER_SEGMENTS < path.count '/' + 1 then none
      else (path.splitOn '/').foldlM (fun current raw =>
        (decodeSegment raw).bind (doc.enter current)) doc.root
    | _ => none

end FerrumNexus.OpenApi
