import FerrumNexus.Graphs.Unfolding
import FerrumNexus.OpenApi.Documents
import Mathlib.Logic.Function.Basic

/-!
# The shape of a parsed document

`assertSpecShape` bounds the nesting of a parsed document and the text it comes
to once every YAML alias is written out. The walk keeps its own stack, and a
node is walked once: its height and its size are remembered when it completes.
Every container the parse builds is plain, an array or a record.
-/
namespace FerrumNexus.Publishing.SpecShape

open OpenApi Platform Graphs

def MAX_SPEC_DEPTH : ℕ := 200

/-- `ParsedSpec['contentType']`. -/
inductive ContentType
  | json
  | yaml
  deriving DecidableEq

/-- What `specInvalid` is told. -/
structure Refusal where
  message : String
  reason : String
  limit : Option ℕ
  deriving DecidableEq

def expandedTooLarge : Refusal where
  message := "The document is larger than the " ++ (MAX_SPEC_EXPANDED_BYTES / 1024).repr ++
    " KiB limit once expanded for serving"
  reason := "expanded_too_large"
  limit := some MAX_SPEC_EXPANDED_BYTES

def nestingTooDeep : Refusal where
  message := "The document exceeds the " ++ MAX_SPEC_DEPTH.repr ++ " level nesting limit"
  reason := "nesting_too_deep"
  limit := some MAX_SPEC_DEPTH

def cyclicAlias : Refusal where
  message := "The OpenAPI document contains a cyclic YAML alias"
  reason := "cyclic_alias"
  limit := none

/-- How sums and products of whole numbers come out: as they are up to `2 ^ 53`,
and rounded in any way beyond. -/
structure Arithmetic where
  round : ℕ → ℕ
  round_eq : ∀ n ≤ 2 ^ 53, round n = n

namespace Arithmetic

variable (arith : Arithmetic)

def add (m n : ℕ) : ℕ := arith.round (m + n)

def mul (m n : ℕ) : ℕ := arith.round (m * n)

/-- Every number as it is. -/
def unbounded : Arithmetic := ⟨id, fun _ _ => rfl⟩

end Arithmetic

variable {ι : Type}

/-! ## Texts -/

/-- `scalarBytes`: UTF-8 bytes of a string, the length of `String(value)` for a
boolean or a number. It is not asked about containers. -/
def scalarBytes : Value ι → ℕ
  | .null => 0
  | .bool b => if b then 4 else 5
  | .number text => utf16Length (numberString text)
  | .string s => s.utf8ByteSize
  | .node _ => 0

/-- `stringIndentItems`. -/
def stringIndentItems (arith : Arithmetic) (contentType : ContentType) (value : String) : ℕ :=
  match contentType with
  | .json => 1
  | .yaml => value.toList.foldl (fun items c => if c = '\n' then arith.add items 1 else items) 1

def scalarItems (arith : Arithmetic) (contentType : ContentType) : Value ι → ℕ
  | .string s => stringIndentItems arith contentType s
  | _ => 1

/-- `Array.isArray`. -/
def isArray (doc : Document ι) (id : ι) : Bool :=
  match doc.nodes id with
  | .array _ => true
  | .record _ => false

/-- `Object.values`. -/
def values (doc : Document ι) (id : ι) : List (Value ι) :=
  match doc.nodes id with
  | .array items => items
  | .record members => members.entries.map Prod.snd

/-- The keys that are charged: `Object.keys` of a record, none of an array. -/
def chargedKeys (doc : Document ι) (id : ι) : List String :=
  match doc.nodes id with
  | .array _ => []
  | .record members => members.entries.map Prod.fst

/-! ## The walk -/

structure CompletedSize where
  bytes : ℕ
  chargedItems : ℕ
  relativeDepths : ℕ
  deriving DecidableEq

structure Frame (ι : Type) where
  value : ι
  depth : ℕ
  children : List (Value ι)
  childIndex : ℕ
  maxChildHeight : ℕ
  bytes : ℕ
  chargedItems : ℕ
  relativeDepths : ℕ

/-- `frame.childIndex++`. -/
def Frame.next (frame : Frame ι) : Frame ι := { frame with childIndex := frame.childIndex + 1 }

/-- The frame with a child of some height. -/
def Frame.over (frame : Frame ι) (height : ℕ) : Frame ι :=
  { frame with maxChildHeight := max frame.maxChildHeight height }

def Frame.size (frame : Frame ι) : CompletedSize :=
  ⟨frame.bytes, frame.chargedItems, frame.relativeDepths⟩

/-- What the loop keeps. The last frame of `pending` comes first. -/
structure Walk (ι : Type) where
  active : ι → Bool
  completedHeights : ι → Option ℕ
  completedSizes : ι → Option CompletedSize
  pending : List (Frame ι)
  total : ℕ

def Walk.none : Walk ι where
  active _ := false
  completedHeights _ := Option.none
  completedSizes _ := Option.none
  pending := []
  total := 0

section Loop

variable [DecidableEq ι] (arith : Arithmetic) (doc : Document ι) (contentType : ContentType)

def charge (frame : Frame ι) (total bytes items : ℕ) : Except Refusal (Frame ι × ℕ) :=
  let frame := { frame with
    bytes := arith.add frame.bytes bytes
    chargedItems := arith.add frame.chargedItems items }
  let total := arith.add total (arith.add bytes
    (arith.mul items (arith.add (arith.mul 2 (frame.depth - 1)) 4)))
  if MAX_SPEC_EXPANDED_BYTES < total then .error expandedTooLarge else .ok (frame, total)

def chargeKeys : List String → Frame ι → ℕ → Except Refusal (Frame ι × ℕ)
  | [], frame, total => .ok (frame, total)
  | key :: keys, frame, total => do
    let (frame, total) ← charge arith frame total key.utf8ByteSize
      (stringIndentItems arith contentType key)
    chargeKeys keys frame total

def newFrame (value : ι) (depth : ℕ) : Frame ι where
  value := value
  depth := depth
  children := values doc value
  childIndex := 0
  maxChildHeight := 0
  bytes := 0
  chargedItems := 0
  relativeDepths := 0

def push (walk : Walk ι) (value : ι) (depth : ℕ) : Except Refusal (Walk ι) :=
  if MAX_SPEC_DEPTH < depth then .error nestingTooDeep
  else if walk.active value then .error cyclicAlias
  else do
    let (frame, total) ← chargeKeys arith contentType (chargedKeys doc value)
      (newFrame doc value depth) walk.total
    .ok { walk with
      active := Function.update walk.active value true
      pending := frame :: walk.pending
      total := total }

/-- A child whose size is known, charged from the memo. -/
def chargeCompleted (walk : Walk ι) (frame : Frame ι) (below : List (Frame ι))
    (size : CompletedSize) : Except Refusal (Walk ι) :=
  let total := arith.add walk.total (arith.add
    (arith.add size.bytes (arith.mul size.chargedItems (arith.add (arith.mul 2 frame.depth) 4)))
    (arith.mul 2 size.relativeDepths))
  if MAX_SPEC_EXPANDED_BYTES < total then .error expandedTooLarge
  else
    let frame := { frame with
      bytes := arith.add frame.bytes size.bytes
      chargedItems := arith.add frame.chargedItems size.chargedItems
      relativeDepths := arith.add frame.relativeDepths
        (arith.add size.relativeDepths size.chargedItems) }
    .ok { walk with pending := frame :: below, total := total }

/-- An item of an array that is a container is charged by itself. -/
def chargeItem (frame : Frame ι) (total : ℕ) : Except Refusal (Frame ι × ℕ) :=
  if isArray doc frame.value then charge arith frame total 0 1 else .ok (frame, total)

/-- A child that is a container, after the item it may be is charged. -/
def descend (walk : Walk ι) (frame : Frame ι) (below : List (Frame ι)) (child : ι) :
    Except Refusal (Walk ι) :=
  if walk.active child then .error cyclicAlias
  else
    match walk.completedHeights child with
    | some completedHeight =>
      if MAX_SPEC_DEPTH < frame.depth + completedHeight then .error nestingTooDeep
      else
        match walk.completedSizes child with
        | some size => chargeCompleted arith walk (frame.over completedHeight) below size
        | none => .ok { walk with pending := frame.over completedHeight :: below }
    | none =>
      push arith doc contentType { walk with pending := frame :: below } child (frame.depth + 1)

/-- The next child of the last frame, when it is a container. -/
def enter (walk : Walk ι) (frame : Frame ι) (below : List (Frame ι)) (child : ι) :
    Except Refusal (Walk ι) := do
  let (frame, total) ← chargeItem arith doc frame walk.total
  descend arith doc contentType { walk with total := total } frame below child

/-- The last frame, once all its children are visited. -/
def complete (walk : Walk ι) (frame : Frame ι) (below : List (Frame ι)) : Walk ι :=
  let height := frame.maxChildHeight + 1
  { walk with
    active := Function.update walk.active frame.value false
    completedHeights := Function.update walk.completedHeights frame.value (some height)
    completedSizes := Function.update walk.completedSizes frame.value (some frame.size)
    pending :=
      match below with
      | [] => []
      | parent :: rest =>
        { parent.over height with
          bytes := arith.add parent.bytes frame.bytes
          chargedItems := arith.add parent.chargedItems frame.chargedItems
          relativeDepths := arith.add parent.relativeDepths
            (arith.add frame.relativeDepths frame.chargedItems) } :: rest }

/-- One round of the loop. -/
def turn (walk : Walk ι) : Except Refusal (Walk ι) :=
  match walk.pending with
  | [] => .ok walk
  | frame :: below =>
    match frame.children[frame.childIndex]? with
    | some (.node child) =>
      enter arith doc contentType walk frame.next below child
    | some child => do
      let (frame, total) ← charge arith frame.next walk.total (scalarBytes child)
        (scalarItems arith contentType child)
      .ok { walk with pending := frame :: below, total := total }
    | none => .ok (complete arith walk frame below)

def turns : ℕ → Walk ι → Except Refusal (Walk ι)
  | 0, walk => .ok walk
  | n + 1, walk => do
    let walk ← turn arith doc contentType walk
    if walk.pending.isEmpty then .ok walk else turns n walk

/-- The loop's state when it is entered. -/
def start (root : ι) : Except Refusal (Walk ι) := push arith doc contentType Walk.none root 1

/-- The state after at most `n` rounds. -/
def after (root : ι) (n : ℕ) : Except Refusal (Walk ι) := do
  let walk ← start arith doc contentType root
  turns arith doc contentType n walk

/-- Rounds the loop can take: all but one for each unit of the limit. -/
def MAX_TURNS : ℕ := MAX_SPEC_EXPANDED_BYTES + 2

/-- `none` where the loop would still be running. -/
def assertSpecShape : Option (Except Refusal Unit) :=
  match doc.root with
  | .node root =>
    match after arith doc contentType root MAX_TURNS with
    | .error refusal => some (.error refusal)
    | .ok walk => if walk.pending.isEmpty then some (.ok ()) else none
  | _ => some (.ok ())

end Loop

/-! ## What a document comes to -/

/-- A document as a graph. An item of an array has no key. -/
def contents (doc : Document ι) (id : ι) : List (Option String × Value ι) :=
  match doc.nodes id with
  | .array items => items.map (Prod.mk none)
  | .record members => members.entries.map fun entry => (some entry.1, entry.2)

def container? : Value ι → Option ι
  | .node id => some id
  | _ => none

def graph (doc : Document ι) : Graph ι (Option String) (Value ι) := ⟨container?, contents doc⟩

/-- Lines of a text that are indented on their own: YAML may write one for each
newline. -/
def lines (contentType : ContentType) (text : String) : ℕ :=
  match contentType with
  | .json => 1
  | .yaml => 1 + text.toList.count '\n'

/-- The text of a member: its key, and the scalar it is. -/
def memberBytes (key : Option String) (scalar : Option (Value ι)) : ℕ :=
  (key.elim 0 String.utf8ByteSize) + scalar.elim 0 scalarBytes

/-- The indented lines of a member: those of its key and of its scalar, and one
for an item of an array that is a container. -/
def memberLines (contentType : ContentType) (key : Option String) : Option (Value ι) → ℕ
  | some (.string s) => (key.elim 0 (lines contentType)) + lines contentType s
  | some _ => (key.elim 0 (lines contentType)) + 1
  | none => key.elim 1 (lines contentType)

/-- What a member takes at a depth, the root's members being at depth one. -/
def memberPrice (contentType : ContentType) (depth : ℕ) (key : Option String)
    (scalar : Option (Value ι)) : ℕ :=
  memberBytes key scalar + memberLines contentType key scalar * (2 * (depth - 1) + 4)

/-- The bytes of a document written out in full: what every member takes at
every place it occurs. -/
def expandedBytes (contentType : ContentType) (tree : Tree (Option String) (Value ι)) : ℕ :=
  tree.cost (memberPrice contentType) 1

end FerrumNexus.Publishing.SpecShape
