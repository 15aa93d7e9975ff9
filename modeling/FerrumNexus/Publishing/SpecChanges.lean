import Mathlib.Data.Fintype.Basic
import FerrumNexus.Formats.Json
import FerrumNexus.OpenApi.PathItems

/-!
# What changed between two revisions

The vocabulary of `spec-changes`: a change, where it is, which way it goes for a
caller, and the texts a change carries. The `record` of the comparison counts
every change and lists the first of each severity.
-/
namespace FerrumNexus.Publishing.SpecChanges

open OpenApi Platform

/-! ## Changes -/

inductive SpecChangeSeverity
  | breaking
  | nonBreaking
  deriving DecidableEq, Repr

inductive SpecChangeKind
  | operationAdded
  | operationRemoved
  | operationDeprecated
  | operationUndeprecated
  | parameterAdded
  | parameterRemoved
  | parameterRequired
  | parameterOptional
  | requestBodyAdded
  | requestBodyRemoved
  | requestBodyRequired
  | requestBodyOptional
  | responseAdded
  | responseRemoved
  | mediaTypeAdded
  | mediaTypeRemoved
  | schemaTypeChanged
  | schemaPropertyAdded
  | schemaPropertyRemoved
  | schemaPropertyRequired
  | schemaPropertyOptional
  | schemaEnumValuesAdded
  | schemaEnumValuesRemoved
  | schemaCompositionChanged
  deriving DecidableEq, Repr

inductive SpecChangeSection
  | operation
  | parameter
  | request
  | response
  deriving DecidableEq, Repr

/-- The way a schema travels. -/
inductive Direction
  | parameter
  | request
  | response
  deriving DecidableEq, Repr

instance : Fintype Direction where
  elems := {.parameter, .request, .response}
  complete direction := by cases direction <;> simp

def Direction.toSection : Direction → SpecChangeSection
  | parameter => .parameter
  | request => .request
  | response => .response

def Direction.text : Direction → String
  | parameter => "parameter"
  | request => "request"
  | response => "response"

/-- Whether the caller sends the schemas of a direction. -/
def sends (direction : Direction) : Bool := direction != .response

/-- What accepting less, and accepting more, does to a caller. -/
def narrowing (direction : Direction) : SpecChangeSeverity :=
  if sends direction then .breaking else .nonBreaking

def widening (direction : Direction) : SpecChangeSeverity :=
  if sends direction then .nonBreaking else .breaking

/-- An operation of both revisions, known by its key; the other two are what is
shown of it. -/
structure SpecOperationRef where
  key : String
  method : String
  path : String
  deriving DecidableEq, Repr

/-- Where a change is reported. -/
structure Place where
  operation : Option SpecOperationRef
  part : SpecChangeSection
  location : Option String

structure SpecChange where
  kind : SpecChangeKind
  severity : SpecChangeSeverity
  operation : Option SpecOperationRef
  part : SpecChangeSection
  location : Option String
  schemaPath : Option String
  fromText : Option String
  toText : Option String
  deriving DecidableEq, Repr

/-! ## Texts -/

def MAX_SPEC_CHANGE_TEXT : ℕ := 200

/-- The characters of a text that fit into `units` UTF-16 code units. -/
def takeUnits : ℕ → List Char → List Char
  | _, [] => []
  | units, c :: rest =>
    let size := if 0xFFFF < c.toNat then 2 else 1
    if size ≤ units then c :: takeUnits (units - size) rest else []

def clipSpecText (text : String) (limit : ℕ) : String :=
  if utf16Length text ≤ limit then text
  else String.ofList (takeUnits (limit - 1) text.toList ++ ['…'])

def clipped (text : String) : String := clipSpecText text MAX_SPEC_CHANGE_TEXT

/-- What the record of a change says besides its place. -/
structure Detail where
  schemaPath : Option String
  fromText : Option String
  toText : Option String

def noDetail : Detail := ⟨none, none, none⟩

/-- The change `record` lists. -/
def changeAt (place : Place) (kind : SpecChangeKind) (severity : SpecChangeSeverity)
    (detail : Detail) : SpecChange where
  kind := kind
  severity := severity
  operation := place.operation
  part := place.part
  location := place.location.map clipped
  schemaPath := detail.schemaPath.map clipped
  fromText := detail.fromText
  toText := detail.toText

/-! ## Counting and listing -/

structure SpecChangeCounts where
  breaking : ℕ
  nonBreaking : ℕ
  operationsAdded : ℕ
  operationsRemoved : ℕ
  operationsDeprecated : ℕ
  operationsChanged : ℕ
  deriving DecidableEq, Repr

def noCounts : SpecChangeCounts := ⟨0, 0, 0, 0, 0, 0⟩

/-- What `record` writes to. -/
structure Recorder where
  counts : SpecChangeCounts
  breaking : List SpecChange
  nonBreaking : List SpecChange
  changedOperations : List SpecOperationRef

def noRecords : Recorder := ⟨noCounts, [], [], []⟩

def countSeverity (counts : SpecChangeCounts) : SpecChangeSeverity → SpecChangeCounts
  | .breaking => { counts with breaking := counts.breaking + 1 }
  | .nonBreaking => { counts with nonBreaking := counts.nonBreaking + 1 }

def countOperation (changedOperations : List SpecOperationRef) (change : SpecChange)
    (counts : SpecChangeCounts) : SpecChangeCounts :=
  match change.kind, change.operation with
  | .operationAdded, _ => { counts with operationsAdded := counts.operationsAdded + 1 }
  | .operationRemoved, _ => { counts with operationsRemoved := counts.operationsRemoved + 1 }
  | _, none => counts
  | kind, some operation =>
    let counts :=
      if kind = .operationDeprecated then
        { counts with operationsDeprecated := counts.operationsDeprecated + 1 }
      else counts
    if operation ∈ changedOperations then counts
    else { counts with operationsChanged := counts.operationsChanged + 1 }

/-- The operation a change is counted against. -/
def changedOperation (change : SpecChange) : Option SpecOperationRef :=
  if change.kind = .operationAdded ∨ change.kind = .operationRemoved then none else change.operation

def push (listLimit : ℕ) (list : List SpecChange) (change : SpecChange) : List SpecChange :=
  if listLimit ≤ list.length then list else list ++ [change]

/-- `record`. -/
def Recorder.record (listLimit : ℕ) (recorder : Recorder) (change : SpecChange) : Recorder where
  counts := countOperation recorder.changedOperations change (countSeverity recorder.counts change.severity)
  breaking :=
    if change.severity = .breaking then push listLimit recorder.breaking change
    else recorder.breaking
  nonBreaking :=
    if change.severity = .breaking then recorder.nonBreaking
    else push listLimit recorder.nonBreaking change
  changedOperations :=
    match changedOperation change with
    | none => recorder.changedOperations
    | some operation =>
      if operation ∈ recorder.changedOperations then recorder.changedOperations
      else recorder.changedOperations ++ [operation]

inductive SpecInfoField
  | title
  | version
  | description
  deriving DecidableEq, Repr

def SpecInfoField.key : SpecInfoField → String
  | title => "title"
  | version => "version"
  | description => "description"

def INFO_FIELDS : List SpecInfoField := [.title, .version, .description]

structure SpecChangeReport where
  changed : Bool
  complete : Bool
  changes : List SpecChange
  counts : SpecChangeCounts
  truncated : Bool
  infoChanges : List SpecInfoField
  deriving DecidableEq, Repr

/-! ## Types -/

/-- The names that are types, in the order they sort in. -/
inductive SchemaType
  | array
  | boolean
  | integer
  | null
  | number
  | object
  | string
  deriving DecidableEq, Repr

def SchemaType.name : SchemaType → String
  | array => "array"
  | boolean => "boolean"
  | integer => "integer"
  | null => "null"
  | number => "number"
  | object => "object"
  | string => "string"

def SCHEMA_TYPES : List SchemaType :=
  [.array, .boolean, .integer, .null, .number, .object, .string]

def MAX_TYPE_ENTRIES : ℕ := 32

def schemaType (text : String) : Option SchemaType :=
  SCHEMA_TYPES.find? fun type => type.name == text

section Readers

variable {ν : Type} (doc : Document ν)

def ownRecord (value : ν) (key : String) : Option ν := doc.record? (doc.own value key)

/-- An array is known by its identity, by which its keys are remembered. -/
def ownArray (value : ν) (key : String) : Option (ν × List (Value ν)) :=
  match doc.own value key with
  | some (.node id) => (doc.array? (some (.node id))).map fun items => (id, items)
  | _ => none

def entriesOf : Option ν → List (String × Value ν)
  | none => []
  | some value => (doc.members value).entries

/-- The object a value is, and its `$ref` where it has one. -/
def reference (value : Option (Value ν)) : Option (ν × String) :=
  (doc.record? value).bind fun id => (doc.refOf id).map fun ref => (id, ref)

/-- `own(value, key) === true`. -/
def isTrue : Option (Value ν) → Bool
  | some (.bool b) => b
  | _ => false

def typesWritten (schema : ν) : List SchemaType :=
  match doc.own schema "type" with
  | none => []
  | some (.string text) => (schemaType text).toList
  | some value =>
    (((doc.array? (some value)).getD []).take MAX_TYPE_ENTRIES).filterMap fun entry =>
      (string? (some entry)).bind schemaType

def typesOf (schema : ν) : List SchemaType :=
  let written := typesWritten doc schema
  let types :=
    if written ≠ [] then written
    else if (ownRecord doc schema "properties").isSome then [.object]
    else if (doc.own schema "items").isSome then [.array]
    else []
  let nullable := types ≠ [] && isTrue (doc.own schema "nullable")
  SCHEMA_TYPES.filter fun type => type ∈ types || (type = .null && nullable)

end Readers

/-- Whether `allowed` has every type of `types`; an integer is a number. -/
def covers (allowed types : List SchemaType) : Bool :=
  allowed = [] || (types ≠ [] && types.all fun type =>
    type ∈ allowed || (type = .integer && .number ∈ allowed))

def typeChangeSeverity (fromTypes toTypes : List SchemaType) (direction : Direction) :
    SpecChangeSeverity :=
  let accepted := if sends direction then covers toTypes fromTypes else covers fromTypes toTypes
  if accepted then .nonBreaking else .breaking

def describeTypes (types : List SchemaType) : String :=
  if types = [] then "any" else clipped (" | ".intercalate (types.map SchemaType.name))

def describeValue {ν : Type} (doc : Document ν) (value : Option (Value ν)) : String :=
  match reference doc value, value with
  | some (_, ref), _ => clipped ("$ref " ++ ref)
  | none, some (.bool b) => if b then "any" else "nothing"
  | none, value =>
    match doc.record? value with
    | some id => describeTypes (typesOf doc id)
    | none => "invalid"

def childPath (path name : String) : String := if path = "" then name else path ++ "." ++ name

/-! ## Keys -/

/-- What the comparison has from the platform: the lower case of a text, and the
SHA-256 digest of its code units in Base64. -/
structure Texts where
  toLowerCase : String → String
  sha256 : String → String

def MAX_VERBATIM_KEY_LENGTH : ℕ := 64

def compactSpecKey (texts : Texts) (text : String) : String :=
  if utf16Length text ≤ MAX_VERBATIM_KEY_LENGTH then "=" ++ text
  else "#" ++ toString (utf16Length text) ++ ":" ++ texts.sha256 text

section Enums

variable {ν : Type}

/-- A value that is no object or array, as `String` writes it. -/
def primitiveText : Value ν → Option String
  | .null => some "null"
  | .bool b => some (toString b)
  | .number text => some (numberString text)
  | .string text => some text
  | .node _ => none

def enumKey (texts : Texts) : Value ν → Option String
  | .null => some "null"
  | .string text => some ("s" ++ compactSpecKey texts text)
  | .number text => some ("n" ++ numberString text)
  | .bool b => some ("b" ++ toString b)
  | .node _ => none

def ENUM_VALUES_NAMED : ℕ := 5

def ENUM_VALUE_TEXT : ℕ := 60

def enumText : Value ν → Option String
  | .string text => some (String.ofList (Formats.quote (clipSpecText text ENUM_VALUE_TEXT)))
  | value => primitiveText value

def enumList (values : List (Value ν)) : String :=
  let shown := values.filterMap enumText
  let named := shown.take ENUM_VALUES_NAMED
  let rest := shown.length - named.length
  if named = [] then "non-primitive values"
  else
    clipped (if 0 < rest then ", ".intercalate named ++ " and " ++ toString rest ++ " more"
      else ", ".intercalate named)

end Enums

/-! ## Maps and operations -/

/-- `map.set(key, value)`. -/
def setEntry {β : Type} (map : List (String × β)) (key : String) (value : β) : List (String × β) :=
  if map.any (·.1 == key) then map.map fun entry => if entry.1 == key then (key, value) else entry
  else map ++ [(key, value)]

/-- `map.get(key)`. -/
def getEntry {β : Type} (map : List (String × β)) (key : String) : Option β :=
  (map.find? (·.1 == key)).map Prod.snd

def OperationMethod.upper : OperationMethod → String
  | .get => "GET"
  | .put => "PUT"
  | .post => "POST"
  | .delete => "DELETE"
  | .options => "OPTIONS"
  | .head => "HEAD"
  | .patch => "PATCH"
  | .trace => "TRACE"

/-- `METHOD path`. -/
def operationKey (method : OperationMethod) (path : String) : String :=
  OperationMethod.upper method ++ " " ++ path

def keyMethod (key : String) : String := String.ofList (key.toList.takeWhile (· ≠ ' '))

def keyPath (key : String) : String := String.ofList ((key.toList.dropWhile (· ≠ ' ')).drop 1)

def operationRef (key : String) : SpecOperationRef := ⟨key, keyMethod key, clipped (keyPath key)⟩

def isPathKey (key : String) : Bool := key.toList.head? = some '/'

/-- What is known of one document's operations. -/
structure OperationIndex (ν : Type) where
  operations : List (String × ν)
  resolved : List String
  named : List String
  complete : Bool

def operationIndex {ν : Type} (doc : Document ν) : OperationIndex ν where
  operations := []
  resolved := []
  named := ((pathEntries doc).map Prod.fst).filter isPathKey
  complete := true

/-- Whether the document is known to lack the operation: a path that is present
but unread proves nothing. -/
def knownAbsent {ν : Type} (index : OperationIndex ν) (key : String) : Bool :=
  (getEntry index.operations key).isNone &&
    (keyPath key ∈ index.resolved || keyPath key ∉ index.named)

end FerrumNexus.Publishing.SpecChanges
