import FerrumNexus.Publishing.SpecChanges
import FerrumNexus.Saga.Metered

/-!
# Comparing two revisions

`compareSpecRevisions`: the walk over the operations, schemas and referenced
components of two documents. Everything it reads goes through memos, every step
spends from one budget, and running out of it unwinds the walk from wherever it
is. The recursion and the queue take a fuel here, and what they do when it runs
out is not in the source.
-/
namespace FerrumNexus.Publishing.SpecChanges

open OpenApi Platform Saga

/-! ## What the comparison remembers -/

def SPEC_KEY_CODE_UNITS_PER_UNIT : ℕ := 256

/-- `createKeyTextCharge`: the code units keyed, and the units spent on them. -/
structure KeyTextCharge where
  total : ℕ
  charged : ℕ

/-- `spendUpTo`, with what is due. -/
def KeyTextCharge.spendUpTo (charge : KeyTextCharge) (units : ℕ) : ℕ × KeyTextCharge :=
  (units - charge.charged, if charge.charged < units then { charge with charged := units } else charge)

def KeyTextCharge.charge (charge : KeyTextCharge) (codeUnits : ℕ) : ℕ × KeyTextCharge :=
  let total := charge.total + codeUnits
  { charge with total := total }.spendUpTo (total / SPEC_KEY_CODE_UNITS_PER_UNIT)

def KeyTextCharge.settle (charge : KeyTextCharge) : ℕ × KeyTextCharge :=
  charge.spendUpTo ((charge.total + SPEC_KEY_CODE_UNITS_PER_UNIT - 1) / SPEC_KEY_CODE_UNITS_PER_UNIT)

structure EnumKeys (ν : Type) where
  entries : List (Value ν × String)
  keys : List String

/-- A schema's properties and `required` names, by their keys. -/
structure SchemaMembers (ν : Type) where
  properties : List (String × String × Value ν)
  required : List (String × String)
  requiredEntries : ℕ

/-- What is remembered of the nodes of one document. -/
structure Caches (ν : Type) where
  refs : Outcomes ν
  reader : PathItemReader ν
  enumKeys : ν → Option (EnumKeys ν)
  members : ν → Option (SchemaMembers ν)
  parameterKeys : ν → Option (Option String)

def Caches.empty {ν : Type} : Caches ν :=
  ⟨fun _ => none, createPathItemReader, fun _ => none, fun _ => none, fun _ => none⟩

/-- Two references met at one place. -/
structure PendingComponent (ι κ : Type) where
  before : ι
  after : κ
  direction : Direction
  location : String

variable {ι κ : Type}

def PendingComponent.pair (pending : PendingComponent ι κ) : ι × κ × Direction :=
  (pending.before, pending.after, pending.direction)

structure Comparison (ι κ : Type) where
  before : Caches ι
  after : Caches κ
  keyText : KeyTextCharge
  pointerText : KeyTextCharge
  comparedPairs : List (ι × κ × Direction)
  queuedComponents : List String
  pendingComponents : List (PendingComponent ι κ)

def Comparison.fresh : Comparison ι κ :=
  ⟨.empty, .empty, ⟨0, 0⟩, ⟨0, 0⟩, [], [], []⟩

/-- A change recorded, a pair of references met, or a work item expanded. -/
inductive Event (ι κ : Type)
  | change (c : SpecChange)
  | referencePair (pair : ι × κ × Direction)
  | schemaPair (pair : ι × κ × Direction)
  | componentPair (pair : ι × κ × Direction)

def Event.change? : Event ι κ → Option SpecChange
  | change c => some c
  | _ => none

def Event.referencePair? : Event ι κ → Option (ι × κ × Direction)
  | referencePair pair => some pair
  | _ => none

def Event.schemaPair? : Event ι κ → Option (ι × κ × Direction)
  | schemaPair pair => some pair
  | _ => none

def Event.componentPair? : Event ι κ → Option (ι × κ × Direction)
  | componentPair pair => some pair
  | _ => none

variable {ι κ ν : Type}

abbrev Compare (ι κ α : Type) := Metered (Comparison ι κ) (Event ι κ) α

/-- One of the two documents, with its part of the memos. -/
structure Side (ι κ ν : Type) where
  document : Document ν
  caches : Comparison ι κ → Caches ν
  update : Caches ν → Comparison ι κ → Comparison ι κ

def beforeSide (before : Document ι) : Side ι κ ι where
  document := before
  caches := Comparison.before
  update caches s := { s with before := caches }

def afterSide (after : Document κ) : Side ι κ κ where
  document := after
  caches := Comparison.after
  update caches s := { s with after := caches }

/-! ## The budget -/

def spend (amount : ℕ) : Compare ι κ Unit := .spend amount (.done ())

def record (place : Place) (kind : SpecChangeKind) (severity : SpecChangeSeverity)
    (detail : Detail) : Compare ι κ Unit :=
  .record (.change (changeAt place kind severity detail)) (.done ())

def recordIf (condition : Bool) (place : Place) (kind : SpecChangeKind)
    (severity : SpecChangeSeverity) (detail : Detail) : Compare ι κ Unit :=
  if condition then record place kind severity detail else .done ()

/-- What is said of a flag that was set or is set. -/
def recordFlag (was is : Bool) (place : Place) (setKind : SpecChangeKind)
    (setSeverity : SpecChangeSeverity) (clearedKind : SpecChangeKind)
    (clearedSeverity : SpecChangeSeverity) (detail : Detail) : Compare ι κ Unit :=
  if !was && is then record place setKind setSeverity detail
  else recordIf (was && !is) place clearedKind clearedSeverity detail

/-- `spendUpTo` spends nothing where nothing is due. -/
def spendDue (due : ℕ) : Compare ι κ Unit := if due = 0 then .done () else spend due

def chargeKeyText (codeUnits : ℕ) : Compare ι κ Unit :=
  .step (fun s =>
    let (due, keyText) := s.keyText.charge codeUnits
    (due, { s with keyText := keyText })) spendDue

def chargePointer (codeUnits : ℕ) : Compare ι κ Unit := do
  spend 1
  .step (fun s =>
    let (due, pointerText) := s.pointerText.charge codeUnits
    (due, { s with pointerText := pointerText })) spendDue

def settle : Compare ι κ Unit := do
  .step (fun s =>
    let (due, keyText) := s.keyText.settle
    (due, { s with keyText := keyText })) spendDue
  .step (fun s =>
    let (due, pointerText) := s.pointerText.settle
    (due, { s with pointerText := pointerText })) spendDue

def ENTRIES_PER_UNIT : ℕ := 16

/-- `Math.ceil(entries / ENTRIES_PER_UNIT)`. -/
def entryUnits (entries : ℕ) : ℕ := (entries + ENTRIES_PER_UNIT - 1) / ENTRIES_PER_UNIT

/-! ## One document -/

section Side

variable (texts : Texts) (side : Side ι κ ν)

/-- `resolver.resolve(value)`, for an object. -/
def resolveObject [Fintype ν] (id : ν) : Compare ι κ (OpenApiRefResolution ν) :=
  .step (fun s =>
    match resolve side.document false (side.caches s).refs id with
    | none => (none, s)
    | some (resolution, refs) => (some resolution, side.update { side.caches s with refs := refs } s))
    fun resolution =>
      match resolution with
      | none => .stuck
      | some resolution => .done resolution

/-- `resolveSchema`. -/
def resolveSchema [Fintype ν] (value : Option (Value ν)) : Compare ι κ (Option ν) :=
  match side.document.record? value with
  | none => .done none
  | some id =>
    if (side.document.refOf id).any fun ref => MAX_OPENAPI_REF_LENGTH < utf16Length ref then .done none
    else do
      let resolution ← resolveObject side id
      match resolution with
      | .ok value _ => .done (some value)
      | .failed _ _ => .done none

/-- The code units of the texts among some values. -/
def textUnits (values : List (Value ν)) : ℕ :=
  (values.map fun value => ((string? (some value)).map utf16Length).getD 0).sum

variable [DecidableEq ν]

def enumKeysOf (values : ν × List (Value ν)) : Compare ι κ (EnumKeys ν) :=
  .step (fun s => ((side.caches s).enumKeys values.1, s)) fun known =>
    match known with
    | some known => .done known
    | none => do
      chargeKeyText (textUnits values.2)
      let entries := values.2.filterMap fun value => (enumKey texts value).map fun key => (value, key)
      let keyed : EnumKeys ν := ⟨entries, entries.map Prod.snd⟩
      .step (fun s =>
        let caches := side.caches s
        (keyed, side.update
          { caches with enumKeys := Function.update caches.enumKeys values.1 (some keyed) } s)) .done

def keyedMembers (declared : List (String × Value ν)) (required : List (Value ν)) :
    SchemaMembers ν where
  properties := declared.foldl (fun properties entry =>
    setEntry properties (compactSpecKey texts entry.1) entry) []
  required := (required.filterMap fun name => string? (some name)).foldl (fun names name =>
    let key := compactSpecKey texts name
    if (getEntry names key).isSome then names else names ++ [(key, name)]) []
  requiredEntries := required.length

def membersOf (schema : ν) : Compare ι κ (SchemaMembers ν) :=
  .step (fun s => ((side.caches s).members schema, s)) fun known =>
    match known with
    | some known => .done known
    | none => do
      let declared := entriesOf side.document (ownRecord side.document schema "properties")
      let required := ((ownArray side.document schema "required").map Prod.snd).getD []
      chargeKeyText ((declared.map fun entry => utf16Length entry.1).sum + textUnits required)
      let members := keyedMembers texts declared required
      .step (fun s =>
        let caches := side.caches s
        (members, side.update
          { caches with members := Function.update caches.members schema (some members) } s)) .done

/-- `read` of the Path Item reader: every pointer followed is paid for. -/
def readItem (path : String) : Compare ι κ (Option (AgentPathItem ν)) :=
  .step (fun s =>
    let (item, reader, charged) := (side.caches s).reader.read side.document path
    ((item, charged), side.update { side.caches s with reader := reader } s)) fun (item, charged) => do
      Metered.each chargePointer charged
      .done item

/-- `parameterKeyOf`, for a parameter that is resolved. -/
def parameterKeyOf (parameter : ν) : Compare ι κ (Option String) :=
  match string? (side.document.own parameter "name"), string? (side.document.own parameter "in") with
  | some name, some location => do
    chargeKeyText (utf16Length location + utf16Length name)
    let folded := if location = "header" then texts.toLowerCase name else name
    let place := compactSpecKey texts location
    .done (some (toString (utf16Length place) ++ ":" ++ place ++ "\x00" ++ compactSpecKey texts folded))
  | _, _ => .done none

/-- `keyOf` of the parameter keyer. -/
def keyOf : Option (OpenApiRefResolution ν) → Compare ι κ (Option String)
  | some (.ok parameter _) =>
    .step (fun s => ((side.caches s).parameterKeys parameter, s)) fun known =>
      match known with
      | some known => .done known
      | none => do
        let key ← parameterKeyOf texts side parameter
        .step (fun s =>
          let caches := side.caches s
          (key, side.update { caches with
            parameterKeys := Function.update caches.parameterKeys parameter (some key) } s)) .done
  | _ => .done none

structure KeyedOpenApiParameter (ν : Type) where
  parameter : Value ν
  resolution : Option (OpenApiRefResolution ν)
  key : Option String

variable [Fintype ν]

/-- A parameter as written, resolved where it is an object. -/
def resolveParameter (parameter : Value ν) : Compare ι κ (Option (OpenApiRefResolution ν)) :=
  match side.document.record? (some parameter) with
  | none => .done none
  | some id => do
    let resolution ← resolveObject side id
    .done (some resolution)

def keyOpenApiParameters : List (Value ν) → Compare ι κ (List (KeyedOpenApiParameter ν))
  | [] => .done []
  | parameter :: rest => do
    let resolution ← resolveParameter side parameter
    let key ← keyOf texts side resolution
    let keyed ← keyOpenApiParameters rest
    .done (⟨parameter, resolution, key⟩ :: keyed)

def mergeOpenApiParameters (shared declared : List (KeyedOpenApiParameter ν)) :
    List (KeyedOpenApiParameter ν) :=
  let overridden := declared.filterMap KeyedOpenApiParameter.key
  shared.filter (fun entry => entry.key.all (· ∉ overridden)) ++ declared

def parametersOf (path : String) (operation : ν) : Compare ι κ (List (KeyedOpenApiParameter ν)) := do
  let item ← readItem side path
  let shared := (side.document.array?
    (item.bind fun item => agentPathItemMember side.document item "parameters")).getD []
  let declared := ((ownArray side.document operation "parameters").map Prod.snd).getD []
  spend (shared.length + declared.length)
  let shared ← keyOpenApiParameters texts side shared
  let declared ← keyOpenApiParameters texts side declared
  .done (mergeOpenApiParameters shared declared)

/-- The operations of one Path Item, read into the index. -/
def readOperations (path : String) (item : AgentPathItem ν) (index : OperationIndex ν) :
    OperationIndex ν where
  operations := OPENAPI_OPERATION_METHODS.foldl (fun operations method =>
    match side.document.record? (agentPathItemMember side.document item method.key) with
    | none => operations
    | some operation => setEntry operations (operationKey method path) operation) index.operations
  resolved := index.resolved ++ [path]
  named := index.named
  complete := index.complete

/-- A path's item, `none` where it is no object or cannot be followed. -/
def readPath (path : String) (raw : Value ν) : Compare ι κ (Option (AgentPathItem ν)) :=
  match side.document.record? (some raw) with
  | none => .done none
  | some _ => readItem side path

/-- The loop of `enumerateOperations`. -/
def enumerateEntries : List (String × Value ν) → OperationIndex ν → Compare ι κ (OperationIndex ν)
  | [], index => .done index
  | (path, raw) :: rest, index =>
    if isPathKey path then do
      let item ← readPath side path raw
      match item with
      | none => enumerateEntries rest { index with complete := false }
      | some item => enumerateEntries rest (readOperations side path item index)
    else enumerateEntries rest index

def enumerateOperations : Compare ι κ (OperationIndex ν) :=
  enumerateEntries side (pathEntries side.document) (operationIndex side.document)

end Side

/-! ## Schemas -/

section Schemas

variable [Fintype ι] [Fintype κ] [DecidableEq ι] [DecidableEq κ]
variable (texts : Texts) (before : Document ι) (after : Document κ) {ν : Type}

/-- The values whose key the other enum lacks, each once. -/
def missing : List (Value ν × String) → List String → List String → List (Value ν)
  | [], _, _ => []
  | (value, key) :: rest, present, seen =>
    if key ∈ present ∨ key ∈ seen then missing rest present seen
    else value :: missing rest present (key :: seen)

def compareEnums (left : ι) (right : κ) (place : Place) (path : String) (direction : Direction) :
    Compare ι κ Unit :=
  let fromEnum := ownArray before left "enum"
  let toEnum := ownArray after right "enum"
  let units := 1 + entryUnits ((fromEnum.elim 0 (·.2.length)) + (toEnum.elim 0 (·.2.length)))
  match fromEnum, toEnum with
  | none, none => .done ()
  | none, some values => do
    spend units
    record place .schemaEnumValuesAdded (narrowing direction)
      ⟨some path, some "any value", some (enumList values.2)⟩
  | some values, none => do
    spend units
    record place .schemaEnumValuesRemoved (widening direction)
      ⟨some path, some (enumList values.2), some "any value"⟩
  | some fromValues, some toValues => do
    spend units
    let fromKeys ← enumKeysOf texts (beforeSide before) fromValues
    let toKeys ← enumKeysOf texts (afterSide after) toValues
    let removed := missing fromKeys.entries toKeys.keys []
    let added := missing toKeys.entries fromKeys.keys []
    recordIf (!removed.isEmpty) place .schemaEnumValuesRemoved (narrowing direction)
      ⟨some path, some (enumList removed), none⟩
    recordIf (!added.isEmpty) place .schemaEnumValuesAdded (widening direction)
      ⟨some path, none, some (enumList added)⟩

/-- The key a pair of references is queued under. -/
def componentKey (direction : Direction) (fromRef toRef : String) : String :=
  direction.text ++ "\x00" ++ fromRef ++ "\x00" ++ toRef

def queueComponent (left : ι) (right : κ) (direction : Direction) (fromRef toRef : String) :
    Compare ι κ Unit :=
  .step (fun s =>
    let key := componentKey direction fromRef toRef
    if key ∈ s.queuedComponents then ((), s)
    else ((), { s with
      queuedComponents := s.queuedComponents ++ [key]
      pendingComponents := s.pendingComponents ++ [⟨left, right, direction, toRef⟩] })) .done

/-- How two objects that are not references are compared. -/
abbrev Resolved (ι κ : Type) := ι → κ → Place → String → Direction → Compare ι κ Unit

/-- The texts of two values of which one is no schema. -/
def compareInvalid (fromText toText : String) (place : Place) (path : String) : Compare ι κ Unit :=
  if fromText = toText then .done ()
  else record place .schemaTypeChanged .breaking ⟨some path, some fromText, some toText⟩

/-- `compareSchema`, by the comparison of the objects reached. -/
def compareSchema (compareResolved : Resolved ι κ) (left : Option (Value ι))
    (right : Option (Value κ)) (place : Place) (path : String) (direction : Direction) :
    Compare ι κ Unit :=
  if left.isNone && right.isNone then .done ()
  else do
    spend 1
    match reference before left, reference after right with
    | some (leftNode, fromRef), some (rightNode, toRef) => do
      .record (.referencePair (leftNode, rightNode, direction)) (.done ())
      queueComponent leftNode rightNode direction fromRef toRef
    | _, _ => do
      let fromNode ← resolveSchema (beforeSide before) left
      let toNode ← resolveSchema (afterSide after) right
      match fromNode, toNode with
      | some fromNode, some toNode => compareResolved fromNode toNode place path direction
      | _, _ => compareInvalid (describeValue before left) (describeValue after right) place path

inductive Composition
  | oneOf
  | anyOf
  | allOf
  deriving DecidableEq, Repr

def Composition.key : Composition → String
  | oneOf => "oneOf"
  | anyOf => "anyOf"
  | allOf => "allOf"

def COMPOSITIONS : List Composition := [.oneOf, .anyOf, .allOf]

/-- More alternatives accept more; more `allOf` members accept less. -/
def Composition.accepts (composition : Composition) (fromLength toLength : ℕ) : Bool :=
  if composition = .allOf then toLength < fromLength else fromLength < toLength

def compareTypes (left : ι) (right : κ) (place : Place) (path : String) (direction : Direction) :
    Compare ι κ Unit :=
  let fromTypes := typesOf before left
  let toTypes := typesOf after right
  if fromTypes = toTypes then .done ()
  else
    record place .schemaTypeChanged (typeChangeSeverity fromTypes toTypes direction)
      ⟨some path, some (describeTypes fromTypes), some (describeTypes toTypes)⟩

def compareComposition (compareResolved : Resolved ι κ) (left : ι) (right : κ) (place : Place)
    (path : String) (direction : Direction) (composition : Composition) : Compare ι κ Unit :=
  let fromItems := ((ownArray before left composition.key).map Prod.snd).getD []
  let toItems := ((ownArray after right composition.key).map Prod.snd).getD []
  if fromItems = [] ∧ toItems = [] then .done ()
  else do
    spend 1
    recordIf (fromItems.length != toItems.length) place .schemaCompositionChanged
      (if composition.accepts fromItems.length toItems.length then widening direction
        else narrowing direction)
      ⟨some path, some (composition.key ++ " of " ++ toString fromItems.length),
        some (composition.key ++ " of " ++ toString toItems.length)⟩
    Metered.each (fun (index, fromItem, toItem) =>
      compareSchema before after compareResolved (some fromItem) (some toItem) place
        (childPath path (composition.key ++ "[" ++ toString index ++ "]")) direction)
      ((List.range (min fromItems.length toItems.length)).zip (fromItems.zip toItems))

def compareItems (compareResolved : Resolved ι κ) (left : ι) (right : κ) (place : Place)
    (path : String) (direction : Direction) : Compare ι κ Unit :=
  match before.own left "items", after.own right "items" with
  | some fromItems, some toItems =>
    compareSchema before after compareResolved (some fromItems) (some toItems) place (path ++ "[]")
      direction
  | _, _ => .done ()

/-- A property of the later schema. -/
def compareProperty (compareResolved : Resolved ι κ) (fromMembers : SchemaMembers ι)
    (toMembers : SchemaMembers κ) (place : Place) (path : String) (direction : Direction)
    (property : String × String × Value κ) : Compare ι κ Unit :=
  let (key, name, schema) := property
  let memberPath := childPath path name
  let isRequired := (getEntry toMembers.required key).isSome
  match getEntry fromMembers.properties key with
  | none =>
    record place .schemaPropertyAdded (if isRequired then narrowing direction else .nonBreaking)
      ⟨some memberPath, none, some (if isRequired then "required" else "optional")⟩
  | some (_, previous) => do
    let wasRequired := (getEntry fromMembers.required key).isSome
    recordFlag wasRequired isRequired place .schemaPropertyRequired (narrowing direction)
      .schemaPropertyOptional (widening direction) ⟨some memberPath, none, none⟩
    compareSchema before after compareResolved (some previous) (some schema) place memberPath direction

/-- What is said of a member the other schema does not declare or require. -/
def recordMembers (place : Place) (path : String) (kind : SpecChangeKind)
    (severity : SpecChangeSeverity) (names : List String) : Compare ι κ Unit :=
  Metered.each (fun name => record place kind severity ⟨some (childPath path name), none, none⟩) names

def compareMembers (compareResolved : Resolved ι κ) (left : ι) (right : κ) (place : Place)
    (path : String) (direction : Direction) : Compare ι κ Unit := do
  let fromMembers ← membersOf texts (beforeSide before) left
  let toMembers ← membersOf texts (afterSide after) right
  spend (fromMembers.properties.length + toMembers.properties.length)
  spend (entryUnits fromMembers.requiredEntries)
  spend (entryUnits toMembers.requiredEntries)
  let declaredBefore := fun key => (getEntry fromMembers.properties key).isSome
  let declaredAfter := fun key => (getEntry toMembers.properties key).isSome
  Metered.each
    (compareProperty before after compareResolved fromMembers toMembers place path direction)
    toMembers.properties
  recordMembers place path .schemaPropertyRemoved (widening direction)
    ((fromMembers.properties.filter fun entry => !declaredAfter entry.1).map fun entry => entry.2.1)
  -- the requiredness of members these schemas do not declare themselves
  recordMembers place path .schemaPropertyRequired (narrowing direction)
    ((toMembers.required.filter fun entry =>
      !(declaredAfter entry.1 || (getEntry fromMembers.required entry.1).isSome)).map Prod.snd)
  recordMembers place path .schemaPropertyOptional (widening direction)
    ((fromMembers.required.filter fun entry =>
      !(declaredBefore entry.1 || declaredAfter entry.1 ||
        (getEntry toMembers.required entry.1).isSome)).map Prod.snd)

/-- `alreadyCompared`. -/
def alreadyCompared (pair : ι × κ × Direction) : Compare ι κ Bool :=
  .step (fun s =>
    if pair ∈ s.comparedPairs then (true, s)
    else (false, { s with comparedPairs := s.comparedPairs ++ [pair] })) .done

/-- `compareResolved`, at most `fuel` deep. -/
def compareResolved : ℕ → Resolved ι κ
  | 0, _, _, _, _, _ => .stuck
  | fuel + 1, left, right, place, path, direction => do
    let known ← alreadyCompared (left, right, direction)
    if known then .done ()
    else do
      .record (.schemaPair (left, right, direction)) (.done ())
      compareTypes before after left right place path direction
      compareEnums texts before after left right place path direction
      Metered.each (compareComposition before after (compareResolved fuel) left right place path direction)
        COMPOSITIONS
      compareItems before after (compareResolved fuel) left right place path direction
      compareMembers texts before after (compareResolved fuel) left right place path direction

/-- More than the pairs of objects there are, in either direction. -/
def fuel (_ : Document ι) (_ : Document κ) : ℕ := Fintype.card (ι × κ × Direction) + 1

/-- The targets of one item of the queue. -/
def compareTargets (pending : PendingComponent ι κ) : Compare ι κ Unit := do
  let place : Place := ⟨none, pending.direction.toSection, some pending.location⟩
  let fromNode ← resolveSchema (beforeSide before) (some (.node pending.before))
  let toNode ← resolveSchema (afterSide after) (some (.node pending.after))
  match fromNode, toNode with
  | some fromNode, some toNode =>
    compareResolved texts before after (fuel before after) fromNode toNode place "" pending.direction
  | _, _ =>
    compareInvalid (describeValue before (some (.node (fromNode.getD pending.before))))
      (describeValue after (some (.node (toNode.getD pending.after)))) place ""

/-- One item of the queue. -/
def compareComponent (pending : PendingComponent ι κ) : Compare ι κ Unit := do
  spend 1
  .record (.componentPair pending.pair) (.done ())
  compareTargets texts before after pending

/-- `compareComponents` from the item `index` on, for at most `n` items. -/
def compareComponents : ℕ → ℕ → Compare ι κ Unit
  | 0, _ => .stuck
  | n + 1, index =>
    .step (fun s => (s.pendingComponents[index]?, s)) fun pending =>
      match pending with
      | none => .done ()
      | some pending => do
        compareComponent texts before after pending
        compareComponents n (index + 1)

/-! ## Operations -/

/-- Two schemas of an operation. -/
def compareSchemas (left : Option (Value ι)) (right : Option (Value κ)) (place : Place)
    (direction : Direction) : Compare ι κ Unit :=
  compareSchema before after (compareResolved texts before after (fuel before after)) left right place ""
    direction

def compareContent (left : Option ι) (right : Option κ) (place : Place) (heading : Option String)
    (direction : Direction) : Compare ι κ Unit := do
  let fromContent := entriesOf before (left.bind fun id => ownRecord before id "content")
  let toContent := entriesOf after (right.bind fun id => ownRecord after id "content")
  spend (fromContent.length + toContent.length)
  let mediaPlace := fun media : String =>
    { place with location := some (heading.elim media fun heading => heading ++ " " ++ media) }
  Metered.each (fun (media, value) =>
    match getEntry fromContent media with
    | none => record (mediaPlace media) .mediaTypeAdded .nonBreaking noDetail
    | some previous =>
      match before.record? (some previous), after.record? (some value) with
      | some previous, some value =>
        compareSchemas texts before after (before.own previous "schema") (after.own value "schema")
          (mediaPlace media) direction
      | _, _ => .done ()) toContent
  Metered.each (fun (media, _) =>
    match getEntry toContent media with
    | none => record (mediaPlace media) .mediaTypeRemoved .breaking noDetail
    | some _ => .done ()) fromContent

/-- The parameters that can be matched, the first of each identity. -/
def byKey (list : List (KeyedOpenApiParameter ν)) : List (String × ν) :=
  list.foldl (fun keyed entry =>
    match entry.key, entry.resolution with
    | some key, some (.ok value _) =>
      if (getEntry keyed key).isSome then keyed else keyed ++ [(key, value)]
    | _, _ => keyed) []

/-- `String(value)` of a parameter's `in` and `name`, which are texts wherever it
has an identity. -/
def memberText (value : Option (Value ν)) : String := (string? value).getD "undefined"

def parameterPlace (doc : Document ν) (operation : SpecOperationRef) (parameter : ν) :
    Place :=
  ⟨some operation, .parameter,
    some (memberText (doc.own parameter "in") ++ " " ++ memberText (doc.own parameter "name"))⟩

def requiredOf (doc : Document ν) (parameter : ν) : Bool :=
  isTrue (doc.own parameter "required") || string? (doc.own parameter "in") = some "path"

def compareParameters (operation : SpecOperationRef) (left : List (KeyedOpenApiParameter ι))
    (right : List (KeyedOpenApiParameter κ)) : Compare ι κ Unit := do
  let fromParameters := byKey left
  let toParameters := byKey right
  Metered.each (fun (key, parameter) =>
    let place := parameterPlace after operation parameter
    let isRequired := requiredOf after parameter
    match getEntry fromParameters key with
    | none =>
      record place .parameterAdded (if isRequired then .breaking else .nonBreaking)
        ⟨none, none, some (if isRequired then "required" else "optional")⟩
    | some previous => do
      recordFlag (requiredOf before previous) isRequired place .parameterRequired .breaking
        .parameterOptional .nonBreaking noDetail
      compareSchemas texts before after (before.own previous "schema") (after.own parameter "schema")
        place .parameter) toParameters
  Metered.each (fun (key, parameter) =>
    match getEntry toParameters key with
    | none =>
      record (parameterPlace before operation parameter) .parameterRemoved .breaking noDetail
    | some _ => .done ()) fromParameters

def compareRequestBody (operation : SpecOperationRef) (left : ι) (right : κ) : Compare ι κ Unit := do
  let fromBody ← resolveSchema (beforeSide before) (before.own left "requestBody")
  let toBody ← resolveSchema (afterSide after) (after.own right "requestBody")
  let place : Place := ⟨some operation, .request, none⟩
  match fromBody, toBody with
  | none, none => .done ()
  | none, some toBody => do
    spend 1
    record place .requestBodyAdded
      (if isTrue (after.own toBody "required") then .breaking else .nonBreaking) noDetail
  | some _, none => do
    spend 1
    record place .requestBodyRemoved .breaking noDetail
  | some fromBody, some toBody => do
    spend 1
    recordFlag (isTrue (before.own fromBody "required")) (isTrue (after.own toBody "required")) place
      .requestBodyRequired .breaking .requestBodyOptional .nonBreaking noDetail
    compareContent texts before after (some fromBody) (some toBody) place none .request

/-- `SUCCESS_STATUS`. -/
def successStatus (status : String) : Bool := status.toList.head? = some '2'

def compareResponses (operation : SpecOperationRef) (left : ι) (right : κ) : Compare ι κ Unit := do
  let fromResponses := entriesOf before (ownRecord before left "responses")
  let toResponses := entriesOf after (ownRecord after right "responses")
  spend (fromResponses.length + toResponses.length)
  let placeOf := fun status : String => (⟨some operation, .response, some status⟩ : Place)
  Metered.each (fun (status, response) =>
    match getEntry fromResponses status with
    | none => record (placeOf status) .responseAdded .nonBreaking noDetail
    | some previous => do
      let fromResponse ← resolveSchema (beforeSide before) (some previous)
      let toResponse ← resolveSchema (afterSide after) (some response)
      compareContent texts before after fromResponse toResponse (placeOf status) (some status)
        .response) toResponses
  Metered.each (fun (status, _) =>
    match getEntry toResponses status with
    | none =>
      record (placeOf status) .responseRemoved
        (if successStatus status then .breaking else .nonBreaking) noDetail
    | some _ => .done ()) fromResponses

/-- One operation of the later document. -/
def compareOperation (fromIndex : OperationIndex ι) (entry : String × κ) : Compare ι κ Unit := do
  let (key, operation) := entry
  spend 1
  let ref := operationRef key
  let place : Place := ⟨some ref, .operation, none⟩
  match getEntry fromIndex.operations key with
  | none =>
    recordIf (knownAbsent fromIndex key) place .operationAdded .nonBreaking noDetail
  | some previous => do
    recordFlag (isTrue (before.own previous "deprecated")) (isTrue (after.own operation "deprecated"))
      place .operationDeprecated .nonBreaking .operationUndeprecated .nonBreaking noDetail
    let fromParameters ← parametersOf texts (beforeSide before) (keyPath key) previous
    let toParameters ← parametersOf texts (afterSide after) (keyPath key) operation
    compareParameters texts before after ref fromParameters toParameters
    compareRequestBody texts before after ref previous operation
    compareResponses texts before after ref previous operation

/-- An operation the later document may lack. -/
def compareRemoved (toIndex : OperationIndex κ) (entry : String × ι) : Compare ι κ Unit :=
  if knownAbsent toIndex entry.1 then do
    spend 1
    record ⟨some (operationRef entry.1), .operation, none⟩ .operationRemoved .breaking noDetail
  else .done ()

/-- What runs inside the budget; whether every Path Item could be followed. -/
def comparison : Compare ι κ Bool := do
  let fromIndex ← enumerateOperations (beforeSide before)
  let toIndex ← enumerateOperations (afterSide after)
  Metered.each (compareOperation texts before after fromIndex) toIndex.operations
  Metered.each (compareRemoved toIndex) fromIndex.operations
  compareComponents texts before after (fuel before after) 0
  settle
  .done (fromIndex.complete && toIndex.complete)

end Schemas

/-! ## The report -/

def infoFields (before : Document ι) (after : Document κ) : List SpecInfoField :=
  let fromInfo := (before.record? (some before.root)).bind fun root => ownRecord before root "info"
  let toInfo := (after.record? (some after.root)).bind fun root => ownRecord after root "info"
  INFO_FIELDS.filter fun field =>
    string? (fromInfo.bind fun info => before.own info field.key) ≠
      string? (toInfo.bind fun info => after.own info field.key)

section Report

variable [Fintype ι] [Fintype κ] [DecidableEq ι] [DecidableEq κ]
variable (texts : Texts) (before : Document ι) (after : Document κ)

/-- The comparison under a limit of units. -/
def compared (unitLimit : Option ℕ) : Metered.Run (Comparison ι κ) (Event ι κ) Bool :=
  (comparison texts before after).run unitLimit 0 .fresh

/-- The changes `record` was called with, in order. -/
def recordedChanges (unitLimit : Option ℕ) : List SpecChange :=
  (compared texts before after unitLimit).events.filterMap Event.change?

/-- What `record` made of its calls. -/
def recorder (listLimit : ℕ) (changes : List SpecChange) : Recorder :=
  changes.foldl (Recorder.record listLimit) noRecords

/-- `complete`; `none` where the walk does not end. -/
def completeOf : Metered.Outcome Bool → Option Bool
  | .ended complete => some complete
  | .exhausted => some false
  | .stuck => none

def reportOf (listLimit : ℕ) (complete : Bool) (changes : List SpecChange) : SpecChangeReport :=
  let recorder := recorder listLimit changes
  let info := infoFields before after
  let listed := (recorder.breaking ++ recorder.nonBreaking).take listLimit
  let total := recorder.counts.breaking + recorder.counts.nonBreaking
  { changed := 0 < total || info ≠ []
    complete := complete
    changes := listed
    counts := recorder.counts
    truncated := listed.length < total
    infoChanges := info }

def compareSpecRevisions (unitLimit : Option ℕ) (listLimit : ℕ) : Option SpecChangeReport :=
  (completeOf (compared texts before after unitLimit).outcome).map fun complete =>
    reportOf before after listLimit complete (recordedChanges texts before after unitLimit)

end Report

end FerrumNexus.Publishing.SpecChanges
