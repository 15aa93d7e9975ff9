import FerrumNexus.Publishing.SpecComparison

/-!
# What the comparison keeps

Every function of the comparison works through a few steps: it records a change,
pays, fills a memo, or queues a pair of references. An invariant these steps keep
is kept by the whole comparison, as long as the comparison of two objects keeps
it.
-/
namespace FerrumNexus.Publishing.SpecChanges

open OpenApi Platform Saga Metered

variable {ι κ ν : Type}

/-! ## Stable invariants -/

abbrev Invariant (ι κ : Type) := Comparison ι κ → List (Event ι κ) → Prop

/-- A change, and what is due for text, leave the invariant alone. -/
structure Neutral (I : Invariant ι κ) : Prop where
  change {s events} (c : SpecChange) (h : I s events) : I s (events ++ [.change c])
  keyText {s events} (charge : KeyTextCharge) (h : I s events) : I { s with keyText := charge } events
  pointerText {s events} (charge : KeyTextCharge) (h : I s events) :
    I { s with pointerText := charge } events

/-- So do the memos of one document, while its resolver is sound. -/
structure SideStable (I : Invariant ι κ) (side : Side ι κ ν) : Prop extends Neutral I where
  sound {s events} (h : I s events) : SoundOutcomes side.document false (side.caches s).refs
  update {s events} {caches : Caches ν} (h : I s events)
    (hsound : SoundOutcomes side.document false caches.refs) : I (side.update caches s) events

variable {I : Invariant ι κ}

section Neutral

variable (hI : Neutral I)
include hI

variable {kind : SpecChangeKind} {place : Place} {severity : SpecChangeSeverity}

theorem Neutral.record {detail : Detail} : Keeps I (record place kind severity detail) :=
  keeps_record (fun _ _ => hI.change _) (keeps_done ())

omit hI in
theorem keeps_spendUnits {amount : ℕ} : Keeps I (spend amount) := keeps_spend (keeps_done ())

omit hI in
theorem keeps_spendDue {due : ℕ} : Keeps I (spendDue due) := by
  unfold spendDue
  split
  · exact keeps_done ()
  · exact keeps_spendUnits

theorem Neutral.recordIf {condition : Bool} {detail : Detail} :
    Keeps I (recordIf condition place kind severity detail) := by
  unfold SpecChanges.recordIf
  split
  · exact hI.record
  · exact keeps_done ()

theorem Neutral.recordFlag {was is : Bool} {setKind clearedKind : SpecChangeKind}
    {setSeverity clearedSeverity : SpecChangeSeverity} {detail : Detail} :
    Keeps I (recordFlag was is place setKind setSeverity clearedKind clearedSeverity detail) := by
  unfold SpecChanges.recordFlag
  split
  · exact hI.record
  · exact hI.recordIf

theorem Neutral.compareInvalid {fromText toText : String} {path : String} :
    Keeps I (compareInvalid fromText toText place path) := by
  unfold SpecChanges.compareInvalid
  split
  · exact keeps_done ()
  · exact hI.record

theorem Neutral.chargeKeyText {codeUnits : ℕ} : Keeps I (chargeKeyText codeUnits) :=
  keeps_step (fun _ _ h => hI.keyText _ h) fun _ => keeps_spendDue

theorem Neutral.chargePointer {codeUnits : ℕ} : Keeps I (chargePointer codeUnits) :=
  keeps_spendUnits.bind fun _ => keeps_step (fun _ _ h => hI.pointerText _ h) fun _ => keeps_spendDue

theorem Neutral.settle : Keeps I settle := by
  apply Keeps.bind
  · exact keeps_step (fun _ _ h => hI.keyText _ h) fun _ => keeps_spendDue
  · intro _
    exact keeps_step (fun _ _ h => hI.pointerText _ h) fun _ => keeps_spendDue

theorem Neutral.recordMembers {path : String} {names : List String} :
    Keeps I (recordMembers place path kind severity names) :=
  keeps_each fun _ _ => hI.record

end Neutral

/-! ## One document -/

section Side

variable {texts : Texts} {side : Side ι κ ν}

/-- A read of the memos changes nothing. -/
theorem keeps_read {α β : Type} {f : Comparison ι κ → β} {k : β → Compare ι κ α}
    (h : ∀ b, Keeps I (k b)) : Keeps I (.step (fun s => (f s, s)) k) :=
  keeps_step (fun _ _ hi => hi) h

variable (hI : SideStable I side)
include hI

theorem SideStable.resolveObject [Fintype ν] (id : ν) : Keeps I (resolveObject side id) := by
  intro s events h
  obtain ⟨refs, resolution, hresolve, hsound, -⟩ := resolve_spec (hI.sound h) id
  simp only [SpecChanges.resolveObject, Holds, hresolve]
  exact hI.update h hsound

theorem SideStable.resolveSchema [Fintype ν] (value : Option (Value ν)) :
    Keeps I (resolveSchema side value) := by
  unfold SpecChanges.resolveSchema
  split
  · exact keeps_done none
  split
  · exact keeps_done none
  apply (hI.resolveObject _).bind
  intro resolution
  cases resolution with
  | ok value overrides => exact keeps_done (some value)
  | failed ref reason => exact keeps_done none

/-- The last step of a read through a memo. -/
theorem SideStable.remember {β : Type} {b : β} {caches : Comparison ι κ → Caches ν}
    (hrefs : ∀ s, (caches s).refs = (side.caches s).refs) :
    Keeps I (.step (fun s => (b, side.update (caches s) s)) .done) := by
  apply keeps_step _ keeps_done
  intro s events h
  apply hI.update h
  rw [hrefs]
  exact hI.sound h

theorem SideStable.parameterKeyOf (parameter : ν) : Keeps I (parameterKeyOf texts side parameter) := by
  unfold SpecChanges.parameterKeyOf
  split
  · apply hI.chargeKeyText.bind
    intro _
    exact keeps_done _
  · exact keeps_done none

theorem SideStable.resolveParameter [Fintype ν] (parameter : Value ν) :
    Keeps I (resolveParameter side parameter) := by
  unfold SpecChanges.resolveParameter
  split
  · exact keeps_done none
  · apply (hI.resolveObject _).bind
    intro resolution
    exact keeps_done (some resolution)

variable [DecidableEq ν]

theorem SideStable.enumKeysOf (values : ν × List (Value ν)) :
    Keeps I (enumKeysOf texts side values) := by
  apply keeps_read
  intro known
  cases known with
  | some known => exact keeps_done known
  | none =>
    apply hI.chargeKeyText.bind
    intro _
    exact hI.remember fun _ => rfl

theorem SideStable.membersOf (schema : ν) : Keeps I (membersOf texts side schema) := by
  apply keeps_read
  intro known
  cases known with
  | some known => exact keeps_done known
  | none =>
    apply hI.chargeKeyText.bind
    intro _
    exact hI.remember fun _ => rfl

theorem SideStable.readItem (path : String) : Keeps I (readItem side path) := by
  apply keeps_step
  · intro s events h
    exact hI.update h (hI.sound h)
  · intro charged
    apply Keeps.bind
    · exact keeps_each fun _ _ => hI.chargePointer
    · intro _
      exact keeps_done charged.1

theorem SideStable.keyOf (resolution : Option (OpenApiRefResolution ν)) :
    Keeps I (keyOf texts side resolution) := by
  unfold SpecChanges.keyOf
  split
  · apply keeps_read
    intro known
    cases known with
    | some known => exact keeps_done known
    | none =>
      apply (hI.parameterKeyOf _).bind
      intro key
      exact hI.remember fun _ => rfl
  · exact keeps_done none

theorem SideStable.readPath (path : String) (raw : Value ν) : Keeps I (readPath side path raw) := by
  unfold SpecChanges.readPath
  split
  · exact keeps_done none
  · exact hI.readItem path

theorem SideStable.enumerateEntries (entries : List (String × Value ν)) (index : OperationIndex ν) :
    Keeps I (enumerateEntries side entries index) := by
  induction entries generalizing index with
  | nil => exact keeps_done index
  | cons entry rest ih =>
    obtain ⟨path, raw⟩ := entry
    rw [SpecChanges.enumerateEntries]
    split
    · apply (hI.readPath path raw).bind
      intro item
      cases item with
      | none => exact ih _
      | some item => exact ih _
    · exact ih index

theorem SideStable.enumerateOperations : Keeps I (enumerateOperations side) :=
  hI.enumerateEntries _ _

variable [Fintype ν]

theorem SideStable.keyOpenApiParameters (parameters : List (Value ν)) :
    Keeps I (keyOpenApiParameters texts side parameters) := by
  induction parameters with
  | nil => exact keeps_done []
  | cons parameter rest ih =>
    apply (hI.resolveParameter parameter).bind
    intro resolution
    apply (hI.keyOf resolution).bind
    intro key
    apply ih.bind
    intro keyed
    exact keeps_done _

theorem SideStable.parametersOf (path : String) (operation : ν) :
    Keeps I (parametersOf texts side path operation) := by
  apply (hI.readItem path).bind
  intro item
  apply keeps_spendUnits.bind
  intro _
  apply (hI.keyOpenApiParameters _).bind
  intro shared
  apply (hI.keyOpenApiParameters _).bind
  intro declared
  exact keeps_done _

end Side

/-! ## Both documents -/

/-- Everything but the comparison of two objects keeps the invariant. -/
structure Stable (before : Document ι) (after : Document κ) (I : Invariant ι κ) : Prop where
  beforeSide : SideStable I (beforeSide before)
  afterSide : SideStable I (afterSide after)
  queue {left : ι} {right : κ} {direction : Direction} {fromRef toRef : String}
    (hleft : before.refOf left = some fromRef) (hright : after.refOf right = some toRef) :
    Keeps I (.record (.referencePair (left, right, direction)) (.done ()) >>= fun _ =>
      queueComponent left right direction fromRef toRef)

section Schemas

variable {texts : Texts} {before : Document ι} {after : Document κ}

theorem reference_eq_some {doc : Document ν} {value : Option (Value ν)} {id : ν} {ref : String}
    (h : reference doc value = some (id, ref)) :
    doc.record? value = some id ∧ doc.refOf id = some ref := by
  simp only [reference, Option.bind_eq_some_iff, Option.map_eq_some_iff, Prod.mk.injEq] at h
  obtain ⟨id, hid, ref, href, rfl, rfl⟩ := h
  exact ⟨hid, href⟩

variable (hI : Stable before after I)
include hI

theorem Stable.compareTypes (left : ι) (right : κ) (place : Place) (path : String)
    (direction : Direction) : Keeps I (compareTypes before after left right place path direction) := by
  unfold SpecChanges.compareTypes
  dsimp only
  split
  · exact keeps_done ()
  · exact hI.beforeSide.record

theorem Stable.compareEnums [DecidableEq ι] [DecidableEq κ] (left : ι) (right : κ) (place : Place)
    (path : String) (direction : Direction) :
    Keeps I (compareEnums texts before after left right place path direction) := by
  unfold SpecChanges.compareEnums
  dsimp only
  split
  · exact keeps_done ()
  · exact keeps_spendUnits.bind fun _ => hI.beforeSide.record
  · exact keeps_spendUnits.bind fun _ => hI.beforeSide.record
  · apply keeps_spendUnits.bind
    intro _
    apply (hI.beforeSide.enumKeysOf _).bind
    intro fromKeys
    apply (hI.afterSide.enumKeysOf _).bind
    intro toKeys
    exact hI.beforeSide.recordIf.bind fun _ => hI.beforeSide.recordIf

variable [Fintype ι] [Fintype κ] {compareResolved : Resolved ι κ}
variable (hresolved : ∀ left right place path direction,
  Keeps I (compareResolved left right place path direction))
include hresolved

theorem Stable.compareSchema (left : Option (Value ι)) (right : Option (Value κ)) (place : Place)
    (path : String) (direction : Direction) :
    Keeps I (compareSchema before after compareResolved left right place path direction) := by
  unfold SpecChanges.compareSchema
  split
  · exact keeps_done ()
  apply keeps_spendUnits.bind
  intro _
  split
  · rename_i hleft hright
    exact hI.queue (reference_eq_some hleft).2 (reference_eq_some hright).2
  apply (hI.beforeSide.resolveSchema left).bind
  intro fromNode
  apply (hI.afterSide.resolveSchema right).bind
  intro toNode
  split
  · exact hresolved _ _ _ _ _
  · exact hI.beforeSide.compareInvalid

theorem Stable.compareComposition (left : ι) (right : κ) (place : Place) (path : String)
    (direction : Direction) (composition : Composition) :
    Keeps I (compareComposition before after compareResolved left right place path direction
      composition) := by
  unfold SpecChanges.compareComposition
  dsimp only
  split
  · exact keeps_done ()
  apply keeps_spendUnits.bind
  intro _
  apply hI.beforeSide.recordIf.bind
  intro _
  exact keeps_each fun _ _ => hI.compareSchema hresolved _ _ _ _ _

theorem Stable.compareItems (left : ι) (right : κ) (place : Place) (path : String)
    (direction : Direction) :
    Keeps I (compareItems before after compareResolved left right place path direction) := by
  unfold SpecChanges.compareItems
  split
  · exact hI.compareSchema hresolved _ _ _ _ _
  · exact keeps_done ()

theorem Stable.compareProperty (fromMembers : SchemaMembers ι) (toMembers : SchemaMembers κ)
    (place : Place) (path : String) (direction : Direction) (property : String × String × Value κ) :
    Keeps I (compareProperty before after compareResolved fromMembers toMembers place path direction
      property) := by
  obtain ⟨key, name, schema⟩ := property
  unfold SpecChanges.compareProperty
  dsimp only
  split
  · exact hI.beforeSide.record
  · exact hI.beforeSide.recordFlag.bind fun _ => hI.compareSchema hresolved _ _ _ _ _

variable [DecidableEq ι] [DecidableEq κ]

theorem Stable.compareMembers (left : ι) (right : κ) (place : Place) (path : String)
    (direction : Direction) :
    Keeps I (compareMembers texts before after compareResolved left right place path direction) := by
  apply (hI.beforeSide.membersOf left).bind
  intro fromMembers
  apply (hI.afterSide.membersOf right).bind
  intro toMembers
  apply keeps_spendUnits.bind
  intro _
  apply keeps_spendUnits.bind
  intro _
  apply keeps_spendUnits.bind
  intro _
  apply (keeps_each fun _ _ => hI.compareProperty hresolved _ _ _ _ _ _).bind
  intro _
  apply hI.beforeSide.recordMembers.bind
  intro _
  apply hI.beforeSide.recordMembers.bind
  intro _
  exact hI.beforeSide.recordMembers

end Schemas

/-! ## Operations -/

section Operations

variable [Fintype ι] [Fintype κ] [DecidableEq ι] [DecidableEq κ]
variable {texts : Texts} {before : Document ι} {after : Document κ}
variable (hI : Stable before after I)
variable (hresolved : ∀ left right place path direction,
  Keeps I (compareResolved texts before after (fuel before after) left right place path direction))
include hI hresolved

theorem Stable.compareContent (left : Option ι) (right : Option κ) (place : Place)
    (heading : Option String) (direction : Direction) :
    Keeps I (compareContent texts before after left right place heading direction) := by
  apply keeps_spendUnits.bind
  intro _
  apply Keeps.bind
  · apply keeps_each
    intro ⟨_, _⟩ _
    dsimp only
    split
    · exact hI.beforeSide.record
    split
    · exact hI.compareSchema hresolved _ _ _ _ _
    · exact keeps_done ()
  · intro _
    apply keeps_each
    intro ⟨_, _⟩ _
    dsimp only
    split
    · exact hI.beforeSide.record
    · exact keeps_done ()

theorem Stable.compareParameters (operation : SpecOperationRef)
    (left : List (KeyedOpenApiParameter ι)) (right : List (KeyedOpenApiParameter κ)) :
    Keeps I (compareParameters texts before after operation left right) := by
  apply Keeps.bind
  · apply keeps_each
    intro ⟨_, _⟩ _
    dsimp only
    split
    · exact hI.beforeSide.record
    · exact hI.beforeSide.recordFlag.bind fun _ => hI.compareSchema hresolved _ _ _ _ _
  · intro _
    apply keeps_each
    intro ⟨_, _⟩ _
    dsimp only
    split
    · exact hI.beforeSide.record
    · exact keeps_done ()

theorem Stable.compareRequestBody (operation : SpecOperationRef) (left : ι) (right : κ) :
    Keeps I (compareRequestBody texts before after operation left right) := by
  apply (hI.beforeSide.resolveSchema _).bind
  intro fromBody
  apply (hI.afterSide.resolveSchema _).bind
  intro toBody
  split
  · exact keeps_done ()
  · exact keeps_spendUnits.bind fun _ => hI.beforeSide.record
  · exact keeps_spendUnits.bind fun _ => hI.beforeSide.record
  · apply keeps_spendUnits.bind
    intro _
    apply hI.beforeSide.recordFlag.bind
    intro _
    exact hI.compareContent hresolved _ _ _ _ _

theorem Stable.compareResponses (operation : SpecOperationRef) (left : ι) (right : κ) :
    Keeps I (compareResponses texts before after operation left right) := by
  apply keeps_spendUnits.bind
  intro _
  apply Keeps.bind
  · apply keeps_each
    intro ⟨_, _⟩ _
    dsimp only
    split
    · exact hI.beforeSide.record
    · apply (hI.beforeSide.resolveSchema _).bind
      intro fromResponse
      apply (hI.afterSide.resolveSchema _).bind
      intro toResponse
      exact hI.compareContent hresolved _ _ _ _ _
  · intro _
    apply keeps_each
    intro ⟨_, _⟩ _
    dsimp only
    split
    · exact hI.beforeSide.record
    · exact keeps_done ()

theorem Stable.compareOperation (fromIndex : OperationIndex ι) (entry : String × κ) :
    Keeps I (compareOperation texts before after fromIndex entry) := by
  apply keeps_spendUnits.bind
  intro _
  split
  · exact hI.beforeSide.recordIf
  · apply hI.beforeSide.recordFlag.bind
    intro _
    apply (hI.beforeSide.parametersOf _ _).bind
    intro fromParameters
    apply (hI.afterSide.parametersOf _ _).bind
    intro toParameters
    apply (hI.compareParameters hresolved _ _ _).bind
    intro _
    apply (hI.compareRequestBody hresolved _ _ _).bind
    intro _
    exact hI.compareResponses hresolved _ _ _

omit hI hresolved [Fintype ι] [Fintype κ] [DecidableEq ι] [DecidableEq κ] in
theorem Neutral.compareRemoved (hI : Neutral I) (toIndex : OperationIndex κ) (entry : String × ι) :
    Keeps I (compareRemoved toIndex entry) := by
  unfold SpecChanges.compareRemoved
  split
  · exact keeps_spendUnits.bind fun _ => hI.record
  · exact keeps_done ()

end Operations

end FerrumNexus.Publishing.SpecChanges
