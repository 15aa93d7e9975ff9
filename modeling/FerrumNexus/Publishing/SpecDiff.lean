import FerrumNexus.OpenApi.Contents
import FerrumNexus.Publishing.SpecComparison
import FerrumNexus.Sequences.Overriding

/-!
# The operations two revisions differ in

`diffSpecDocuments`: which operations appear, which disappear, and which members
of an operation differ once the parameters of its path item are folded in. The
folding is paid for, and a comparison that cannot pay lists no changed operation.
-/
namespace FerrumNexus.Publishing.Differences

open Formats OpenApi Platform Saga Sequences SpecChanges

/-- `Operation`, with its members written out. -/
abbrev Operation := List (String × Json String)

/-- `Map<string, Operation>`. -/
abbrev Operations := List (String × Operation)

/-- `OPERATION_MEMBERS`. -/
def OPERATION_MEMBERS : List String :=
  ["summary", "description", "operationId", "tags", "parameters", "requestBody", "responses",
    "callbacks", "deprecated", "security", "servers"]

structure SpecOperationRef where
  method : String
  path : String
  deriving DecidableEq, Repr

structure SpecOperationChange where
  operation : SpecOperationRef
  changes : List String
  deriving DecidableEq, Repr

structure SpecInfoChange where
  field : SpecInfoField
  fromText : Option String
  toText : Option String
  deriving DecidableEq, Repr

/-- `refOf`: `METHOD path` back into its two halves. -/
def refOf (key : String) : SpecOperationRef := ⟨keyMethod key, keyPath key⟩

/-- A character in UTF-16. -/
def charUnits (c : Char) : List ℕ :=
  if 0xFFFF < c.toNat then
    [0xD800 + (c.toNat - 0x10000) / 0x400, 0xDC00 + (c.toNat - 0x10000) % 0x400]
  else [c.toNat]

/-- The UTF-16 code units of a text, which texts are ordered by. -/
def codeUnits (text : String) : List ℕ := text.toList.flatMap charUnits

variable {ι κ ν : Type}

/-! ## One document -/

/-- Parameters with an identity sorted by it, then those without one, in
declaration order. -/
def canonicalParameters (parameters : List (KeyedOpenApiParameter ν)) : List (Value ν) :=
  (canonical KeyedOpenApiParameter.key codeUnits parameters).map KeyedOpenApiParameter.parameter

section Document

variable [Fintype ν] (doc : Document ν)

/-- The members of an operation but its `parameters`. -/
def restOf (operation : ν) : Operation :=
  (doc.contents operation).filter fun entry => entry.1 ≠ "parameters"

/-- An operation with its effective parameters. A `parameters` member that is not
a list is compared as written where there are none. -/
def normalized (operation : ν) (effective : List (Value ν)) : Operation :=
  let written := doc.own operation "parameters"
  if effective ≠ [] then
    restOf doc operation ++ [("parameters", .array (effective.map doc.content))]
  else if written.isNone ∨ (doc.array? written).isSome then restOf doc operation
  else doc.contents operation

/-- The operations of one Path Item, as written. -/
def writtenOperations (operations : Operations) (entry : String × Value ν) : Operations :=
  match doc.record? (some entry.2) with
  | none => operations
  | some item => OPENAPI_OPERATION_METHODS.foldl (fun operations method =>
      match doc.record? (doc.own item method.key) with
      | none => operations
      | some operation => setEntry operations (operationKey method entry.1) (doc.contents operation))
      operations

/-- `operationKeysOf`. -/
def operationKeysOf : Operations := (pathEntries doc).foldl (writtenOperations doc) []

/-- `pathsOf`. -/
def pathsOf : List String :=
  ((pathEntries doc).filter fun entry => (doc.record? (some entry.2)).any fun item =>
    OPENAPI_OPERATION_METHODS.any fun method => (doc.record? (doc.own item method.key)).isSome).map
      Prod.fst

/-- A member of the document itself. -/
def rootMember (key : String) : Option (Value ν) :=
  (doc.record? (some doc.root)).bind fun root => doc.own root key

/-- A field of `info`, `none` where it is no text. -/
def infoText (field : SpecInfoField) : Option String :=
  (doc.record? (rootMember doc "info")).bind fun info => string? (doc.own info field.key)

end Document

section Side

variable [Fintype ν] [DecidableEq ν] (texts : Texts) (side : Side ι κ ν)

/-- `keyed`. -/
def keyed (parameters : Option (Value ν)) : Compare ι κ (List (KeyedOpenApiParameter ν)) := do
  let list := (side.document.array? parameters).getD []
  spend list.length
  keyOpenApiParameters texts side list

/-- The parameters of a Path Item, keyed at its first operation. -/
def sharedOf (item : ν) :
    Option (List (KeyedOpenApiParameter ν)) → Compare ι κ (List (KeyedOpenApiParameter ν))
  | some shared => .done shared
  | none => keyed texts side (side.document.own item "parameters")

/-- The inner loop of `operationsOf`, over the methods of one Path Item. -/
def readMethods (path : String) (item : ν) :
    List OperationMethod → Option (List (KeyedOpenApiParameter ν)) → Operations →
      Compare ι κ Operations
  | [], _, operations => .done operations
  | method :: rest, known, operations =>
    match side.document.record? (side.document.own item method.key) with
    | none => readMethods path item rest known operations
    | some operation => do
      spend 1
      let shared ← sharedOf texts side item known
      let own ← keyed texts side (side.document.own operation "parameters")
      spend (shared.length + own.length)
      let effective := canonicalParameters (mergeOpenApiParameters shared own)
      readMethods path item rest (some shared)
        (setEntry operations (operationKey method path) (normalized side.document operation effective))

/-- Its outer loop, over the entries of `paths`. -/
def readItems : List (String × Value ν) → Operations → Compare ι κ Operations
  | [], operations => .done operations
  | (path, raw) :: rest, operations =>
    match side.document.record? (some raw) with
    | none => readItems rest operations
    | some item => do
      let operations ← readMethods texts side path item OPENAPI_OPERATION_METHODS none operations
      readItems rest operations

def operationsOf : Compare ι κ Operations := readItems texts side (pathEntries side.document) []

end Side

/-! ## The comparison -/

/-- Which named members of two operations differ; the others are one. -/
def memberChanges (before after : Operation) : List String :=
  let differs := fun name => !equalAt (member before name) (member after name)
  let extras := (before.map Prod.fst ++ after.map Prod.fst).filter (· ∉ OPERATION_MEMBERS)
  OPERATION_MEMBERS.filter differs ++ if extras.any differs then ["other"] else []

def infoChanges [Fintype ι] [Fintype κ] (before : Document ι) (after : Document κ) :
    List SpecInfoChange :=
  (INFO_FIELDS.map fun field => (⟨field, infoText before field, infoText after field⟩ : SpecInfoChange)).filter
    fun change => change.fromText ≠ change.toText

/-- `keyText.settle`. -/
def settleKeyText : Compare ι κ Unit :=
  .step (fun s =>
    let (due, keyText) := s.keyText.settle
    (due, { s with keyText := keyText })) spendDue

/-- `SpecDiff`; `S` is what a revision is summed up by. -/
structure SpecDiff (S : Type) where
  fromSummary : Option S
  toSummary : Option S
  addedOperations : List SpecOperationRef
  removedOperations : List SpecOperationRef
  changedOperations : List SpecOperationChange
  addedPaths : List String
  removedPaths : List String
  infoChanges : List SpecInfoChange
  serversChanged : Bool
  potentiallyBreaking : List SpecOperationRef
  complete : Bool
  changed : Bool
  deriving Repr

/-- A revision to compare. -/
structure Revision (S ν : Type) where
  document : Document ν
  summary : Option S

section Diff

variable [Fintype ι] [Fintype κ] [DecidableEq ι] [DecidableEq κ]
variable (texts : Texts) (before : Document ι) (after : Document κ)

/-- The operations of both documents, folded. -/
def foldBoth : Compare ι κ (Operations × Operations) := do
  let operations ← operationsOf texts (beforeSide before)
  let operations' ← operationsOf texts (afterSide after)
  .done (operations, operations')

def folded (unitLimit : ℕ) : Metered.Run (Comparison ι κ) (Event ι κ) (Operations × Operations) :=
  (foldBoth texts before after).run (some unitLimit) 0 .fresh

def settled (unitLimit : ℕ) : Metered.Run (Comparison ι κ) (Event ι κ) Unit :=
  let run := folded texts before after unitLimit
  settleKeyText.run (some unitLimit) run.units run.state

/-- The operations to compare and whether they are folded. `none` where the
folding does not end. -/
def operationsToCompare (unitLimit : ℕ) (unchecked : Bool) : Option (Operations × Operations × Bool) :=
  let written := (operationKeysOf before, operationKeysOf after, false)
  if unchecked then some written
  else
    match (folded texts before after unitLimit).outcome with
    | .stuck => none
    | .exhausted => some written
    | .ended (operations, operations') =>
      match (settled texts before after unitLimit).outcome with
      | .stuck => none
      | .exhausted => some (operations, operations', false)
      | .ended () => some (operations, operations', true)

end Diff

/-- Every operation of the later document that the earlier one lacks. -/
def addedKeys (before after : Operations) : List String :=
  (after.map Prod.fst).filter fun key => (getEntry before key).isNone

/-- What differs in the operations of the later document that the earlier one has. -/
def changesOf (before after : Operations) : List SpecOperationChange :=
  after.filterMap fun entry => (getEntry before entry.1).bind fun previous =>
    let changes := memberChanges previous entry.2
    if changes ≠ [] then some ⟨refOf entry.1, changes⟩ else none

section Documents

variable [Fintype ι] [Fintype κ] {S : Type}

/-- What is reported of two revisions with these operations. -/
def reportOf (before : Revision S ι) (after : Revision S κ) (operations operations' : Operations)
    (complete : Bool) : SpecDiff S :=
  let added := (addedKeys operations operations').map refOf
  let removed := (addedKeys operations' operations).map refOf
  let changed := if complete then changesOf operations operations' else []
  let paths := pathsOf before.document
  let paths' := pathsOf after.document
  let info := infoChanges before.document after.document
  let serversChanged := !equalAt ((rootMember before.document "servers").map before.document.content)
    ((rootMember after.document "servers").map after.document.content)
  { fromSummary := before.summary
    toSummary := after.summary
    addedOperations := added
    removedOperations := removed
    changedOperations := changed
    addedPaths := paths'.filter (· ∉ paths)
    removedPaths := paths.filter (· ∉ paths')
    infoChanges := info
    serversChanged := serversChanged
    potentiallyBreaking := removed
    complete := complete
    changed := !complete || added ≠ [] || removed ≠ [] || changed ≠ [] || info ≠ [] ||
      serversChanged }

def diffSpecDocuments [DecidableEq ι] [DecidableEq κ] (texts : Texts) (before : Revision S ι)
    (after : Revision S κ) (unitLimit : ℕ) (unchecked : Bool) : Option (SpecDiff S) :=
  (operationsToCompare texts before.document after.document unitLimit unchecked).map
    fun compared => reportOf before after compared.1 compared.2.1 compared.2.2

end Documents

end FerrumNexus.Publishing.Differences
