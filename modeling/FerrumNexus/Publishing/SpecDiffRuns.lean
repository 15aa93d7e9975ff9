import FerrumNexus.Publishing.ParameterKeys
import FerrumNexus.Publishing.SpecDiff

/-!
# What folding two documents comes to

The folding reads every identity through memos and pays as it goes. What it ends
with are the operations of each document on its own, and what it has paid is a
unit for each thing folded and the text of each parameter it has keyed, once.
-/
namespace FerrumNexus.Publishing.Differences

open Formats OpenApi Platform Saga Metered Sequences SpecChanges

variable {ι κ ν : Type}

/-! ## The operations of one document -/

section Folded

variable [Fintype ν] (texts : Texts) (doc : Document ν)

def parametersIn (value : Option (Value ν)) : List (Value ν) := (doc.array? value).getD []

def keyedList (value : Option (Value ν)) : List (KeyedOpenApiParameter ν) :=
  (parametersIn doc value).map (keyedParameter texts doc)

/-- An operation of a Path Item with its effective parameters. -/
def foldedOperation (item operation : ν) : Operation :=
  normalized doc operation (canonicalParameters (mergeOpenApiParameters
    (keyedList texts doc (doc.own item "parameters"))
    (keyedList texts doc (doc.own operation "parameters"))))

/-- The operations of a Path Item, by their methods. -/
def operationsIn (item : ν) (methods : List OperationMethod) : List (OperationMethod × ν) :=
  methods.filterMap fun method => (doc.record? (doc.own item method.key)).map (method, ·)

def foldedMethods (path : String) (item : ν) (methods : List OperationMethod)
    (operations : Operations) : Operations :=
  (operationsIn doc item methods).foldl (fun operations entry =>
    setEntry operations (operationKey entry.1 path) (foldedOperation texts doc item entry.2)) operations

def foldedItem (operations : Operations) (entry : String × Value ν) : Operations :=
  match doc.record? (some entry.2) with
  | none => operations
  | some item => foldedMethods texts doc entry.1 item OPENAPI_OPERATION_METHODS operations

def foldedOperations : Operations := (pathEntries doc).foldl (foldedItem texts doc) []

end Folded

/-! ## The units of one document -/

section Units

variable (doc : Document ν)

def listUnits (value : Option (Value ν)) : ℕ := (parametersIn doc value).length

/-- Keying and merging the parameters of one operation; the list of its Path
Item is keyed at the first. -/
def operationUnits (item : ν) (first : Bool) (operation : ν) : ℕ :=
  let shared := listUnits doc (doc.own item "parameters")
  let own := listUnits doc (doc.own operation "parameters")
  1 + (if first then shared else 0) + own + (shared + own)

def methodUnits (item : ν) : List (OperationMethod × ν) → Bool → ℕ
  | [], _ => 0
  | entry :: rest, first => operationUnits doc item first entry.2 + methodUnits item rest false

def itemUnits (entry : String × Value ν) : ℕ :=
  (doc.record? (some entry.2)).elim 0 fun item =>
    methodUnits doc item (operationsIn doc item OPENAPI_OPERATION_METHODS) true

def foldUnits : ℕ := ((pathEntries doc).map (itemUnits doc)).sum

end Units

/-! ## The account of both -/

/-- The text of the parameters that are keyed. -/
def keyedText [Fintype ν] (doc : Document ν) (caches : Caches ν) : ℕ :=
  ∑ parameter with (caches.parameterKeys parameter).isSome, identityText doc parameter

/-- What is remembered of one document is what it says. -/
structure Remembered (texts : Texts) (doc : Document ν) (named : ν → Prop) (caches : Caches ν) :
    Prop where
  sound : SoundOutcomes doc false caches.refs
  known {parameter : ν} {key : Option String} (h : caches.parameterKeys parameter = some key) :
    key = (identityOf texts doc parameter).map (identityKey texts)
  named {parameter : ν} (h : (caches.parameterKeys parameter).isSome) : named parameter

theorem remembered_empty {texts : Texts} {doc : Document ν} {named : ν → Prop} :
    Remembered texts doc named Caches.empty where
  sound := Chains.sound_empty
  known h := by cases h
  named h := by cases h

theorem Remembered.refs {texts : Texts} {doc : Document ν} {named : ν → Prop} {caches : Caches ν}
    (h : Remembered texts doc named caches) {refs : Outcomes ν}
    (hrefs : SoundOutcomes doc false refs) :
    Remembered texts doc named { caches with refs := refs } where
  sound := hrefs
  known := h.known
  named := h.named

section Remember

variable [DecidableEq ν] {texts : Texts} {doc : Document ν} {named : ν → Prop} {caches : Caches ν}
variable {parameter : ν} {key : Option String}

theorem Remembered.withKey (h : Remembered texts doc named caches) (hnamed : named parameter) :
    Remembered texts doc named
      (caches.withKey parameter ((identityOf texts doc parameter).map (identityKey texts))) where
  sound := h.sound
  known {other key} hkey := by
    by_cases heq : other = parameter
    · subst heq
      simp only [Caches.withKey_self, Option.some.injEq] at hkey
      exact hkey.symm
    · rw [Caches.withKey_ne _ _ _ heq] at hkey
      exact h.known hkey
  named {other} hother := by
    by_cases heq : other = parameter
    · exact heq ▸ hnamed
    · rw [Caches.withKey_ne _ _ _ heq] at hother
      exact h.named hother

variable (doc key) in
theorem keyedText_withKey [Fintype ν] (hnew : caches.parameterKeys parameter = none) :
    keyedText doc (caches.withKey parameter key) =
      keyedText doc caches + identityText doc parameter := by
  have hkeyed : (Finset.univ.filter fun other =>
        ((caches.withKey parameter key).parameterKeys other).isSome = true) =
      insert parameter (Finset.univ.filter fun other => (caches.parameterKeys other).isSome = true) := by
    ext other
    by_cases heq : other = parameter
    · simp [heq]
    · simp [heq, Caches.withKey_ne caches parameter key heq]
  have hfresh : parameter ∉
      Finset.univ.filter fun other => (caches.parameterKeys other).isSome = true := by simp [hnew]
  rw [keyedText, hkeyed, Finset.sum_insert hfresh, Nat.add_comm]
  rfl

end Remember

section Ledger

variable [Fintype ι] [Fintype κ]

/-- `n` units for what was folded, and those due for the text of the parameters
keyed so far. -/
structure Ledger (texts : Texts) (before : Document ι) (after : Document κ) (named : ι → Prop)
    (named' : κ → Prop) (n : ℕ) (s : Comparison ι κ) (units : ℕ) : Prop where
  earlier : Remembered texts before named s.before
  later : Remembered texts after named' s.after
  total : s.keyText.total = keyedText before s.before + keyedText after s.after
  balanced : s.keyText.charged = s.keyText.total / SPEC_KEY_CODE_UNITS_PER_UNIT
  paid : units = n + s.keyText.charged

variable {texts : Texts} {before : Document ι} {after : Document κ} {named : ι → Prop}
variable {named' : κ → Prop}

theorem ledger_fresh : Ledger texts before after named named' 0 .fresh 0 where
  earlier := remembered_empty
  later := remembered_empty
  total := by simp [Comparison.fresh, keyedText, Caches.empty]
  balanced := by simp [Comparison.fresh]
  paid := rfl

variable [DecidableEq ι] [DecidableEq κ]

omit [DecidableEq κ] in
theorem accounted_before :
    Accounted texts (beforeSide before) named (Ledger texts before after named named') where
  pay amount h := { h with paid := by rw [h.paid]; omega }
  balanced h := h.balanced
  sound h := h.earlier.sound
  known h := h.earlier.known
  resolved h hrefs := { h with earlier := h.earlier.refs hrefs }
  keyed {n s units parameter} h hnamed hnew := by
    obtain ⟨hbalanced, hdue⟩ := s.keyText.charge_balanced (identityText before parameter) h.balanced
    refine ⟨h.earlier.withKey hnamed, h.later, ?_, hbalanced, ?_⟩
    · have htext := keyedText_withKey before
        ((identityOf texts before parameter).map (identityKey texts)) hnew
      have htotal := s.keyText.charge_total (identityText before parameter)
      have hbefore := h.total
      show (s.keyText.charge (identityText before parameter)).2.total = _ + _
      simp only [Side.remember, beforeSide] at htext ⊢
      omega
    · have hpaid := h.paid
      show units + _ = n + (s.keyText.charge (identityText before parameter)).2.charged
      simp only [beforeSide]
      omega

omit [DecidableEq ι] in
theorem accounted_after :
    Accounted texts (afterSide after) named' (Ledger texts before after named named') where
  pay amount h := { h with paid := by rw [h.paid]; omega }
  balanced h := h.balanced
  sound h := h.later.sound
  known h := h.later.known
  resolved h hrefs := { h with later := h.later.refs hrefs }
  keyed {n s units parameter} h hnamed hnew := by
    obtain ⟨hbalanced, hdue⟩ := s.keyText.charge_balanced (identityText after parameter) h.balanced
    refine ⟨h.earlier, h.later.withKey hnamed, ?_, hbalanced, ?_⟩
    · have htext := keyedText_withKey after
        ((identityOf texts after parameter).map (identityKey texts)) hnew
      have htotal := s.keyText.charge_total (identityText after parameter)
      have hbefore := h.total
      show (s.keyText.charge (identityText after parameter)).2.total = _ + _
      simp only [Side.remember, afterSide] at htext ⊢
      omega
    · have hpaid := h.paid
      show units + _ = n + (s.keyText.charge (identityText after parameter)).2.charged
      simp only [afterSide]
      omega

end Ledger

/-! ## The runs -/

section Runs

/-- The object declares parameters, and this is one of them. -/
def Declares [Fintype ν] (doc : Document ν) (declaring parameter : ν) : Prop :=
  ∃ value ∈ parametersIn doc (doc.own declaring "parameters"), parameterAt doc value = some parameter

/-- The parameters the Path Items of a document and their operations declare. -/
def Named [Fintype ν] (doc : Document ν) (parameter : ν) : Prop :=
  ∃ entry ∈ pathEntries doc, ∃ item, doc.record? (some entry.2) = some item ∧
    (Declares doc item parameter ∨ ∃ (method : OperationMethod) (operation : ν),
      doc.record? (doc.own item method.key) = some operation ∧ Declares doc operation parameter)

variable [Fintype ν] [DecidableEq ν] {texts : Texts} {side : Side ι κ ν} {named : ν → Prop}
variable {I : ℕ → Comparison ι κ → ℕ → Prop} (hI : Accounted texts side named I)
include hI

variable {n units : ℕ} {s : Comparison ι κ} {known : Option (List (KeyedOpenApiParameter ν))}

omit [Fintype ν] in
theorem spend_ends (h : I n s units) (amount : ℕ) :
    Ends (fun _ s units => I (n + amount) s units) (spend amount) s units :=
  hI.pay amount h

theorem keyed_ends (h : I n s units) {declaring : ν}
    (hnamed : ∀ parameter, Declares side.document declaring parameter → named parameter) :
    Ends (fun list s units =>
        list = keyedList texts side.document (side.document.own declaring "parameters") ∧
        I (n + listUnits side.document (side.document.own declaring "parameters")) s units)
      (keyed texts side (side.document.own declaring "parameters")) s units := by
  apply (spend_ends hI h _).bind
  intro _ s units h
  apply hI.keyOpenApiParameters h
  intro value hvalue parameter hparameter
  exact hnamed parameter ⟨value, hvalue, hparameter⟩

/-- What is known of the parameters of a Path Item is what it declares. -/
def Shared (texts : Texts) (doc : Document ν) (item : ν)
    (known : Option (List (KeyedOpenApiParameter ν))) : Prop :=
  ∀ shared, known = some shared → shared = keyedList texts doc (doc.own item "parameters")

theorem sharedOf_ends (h : I n s units) {item : ν}
    (hnamed : ∀ parameter, Declares side.document item parameter → named parameter)
    (hknown : Shared texts side.document item known) :
    Ends (fun list s units =>
        list = keyedList texts side.document (side.document.own item "parameters") ∧
        I (n + if known.isNone then listUnits side.document (side.document.own item "parameters") else 0)
          s units)
      (sharedOf texts side item known) s units := by
  cases known with
  | none => exact keyed_ends hI h hnamed
  | some shared => exact ⟨hknown shared rfl, h⟩

theorem readMethods_ends {path : String} {item : ν}
    (hitem : ∀ parameter, Declares side.document item parameter → named parameter)
    (hoperation : ∀ (method : OperationMethod) (operation : ν),
      side.document.record? (side.document.own item method.key) = some operation →
        ∀ parameter, Declares side.document operation parameter → named parameter)
    (methods : List OperationMethod) (h : I n s units)
    (hknown : Shared texts side.document item known) (operations : Operations) :
    Ends (fun result s units =>
        result = foldedMethods texts side.document path item methods operations ∧
        I (n + methodUnits side.document item (operationsIn side.document item methods) known.isNone)
          s units)
      (readMethods texts side path item methods known operations) s units := by
  induction methods generalizing n s units known operations with
  | nil => exact ⟨rfl, h⟩
  | cons method rest ih =>
    rw [readMethods]
    cases hrecord : side.document.record? (side.document.own item method.key) with
    | none =>
      have hin : operationsIn side.document item (method :: rest) =
          operationsIn side.document item rest := by
        simp [operationsIn, hrecord]
      simp only [foldedMethods, hin]
      exact ih h hknown operations
    | some operation =>
      have hin : operationsIn side.document item (method :: rest) =
          (method, operation) :: operationsIn side.document item rest := by
        simp [operationsIn, hrecord]
      apply (spend_ends hI h 1).bind
      intro _ s units h
      apply (sharedOf_ends hI h hitem hknown).bind
      rintro shared s units ⟨rfl, h⟩
      apply (keyed_ends hI h (hoperation method operation hrecord)).bind
      rintro own s units ⟨rfl, h⟩
      apply (spend_ends hI h _).bind
      intro _ s units h
      have hshared : Shared texts side.document item
          (some (keyedList texts side.document (side.document.own item "parameters"))) := by
        rintro _ ⟨rfl⟩
        rfl
      apply (ih h hshared _).mono
      rintro result s units ⟨rfl, h⟩
      simp only [foldedMethods, hin, List.foldl_cons]
      refine ⟨rfl, ?_⟩
      convert h using 1
      simp only [methodUnits, operationUnits, keyedList, listUnits, List.length_map, Option.isNone_some]
      omega

theorem readItems_ends (entries : List (String × Value ν))
    (hnamed : ∀ entry ∈ entries, ∀ item, side.document.record? (some entry.2) = some item →
      ∀ parameter, (Declares side.document item parameter ∨ ∃ (method : OperationMethod) (operation : ν),
        side.document.record? (side.document.own item method.key) = some operation ∧
          Declares side.document operation parameter) → named parameter)
    (h : I n s units) (operations : Operations) :
    Ends (fun result s units =>
        result = entries.foldl (foldedItem texts side.document) operations ∧
        I (n + (entries.map (itemUnits side.document)).sum) s units)
      (readItems texts side entries operations) s units := by
  induction entries generalizing n s units operations with
  | nil => exact ⟨rfl, h⟩
  | cons entry rest ih =>
    obtain ⟨path, raw⟩ := entry
    have hrest := fun entry hentry => hnamed entry (List.mem_cons_of_mem _ hentry)
    rw [readItems, List.foldl_cons, List.map_cons, List.sum_cons, ← Nat.add_assoc]
    cases hrecord : side.document.record? (some raw) with
    | none =>
      simp only [foldedItem, itemUnits, hrecord, Option.elim_none, Nat.add_zero]
      exact ih hrest h operations
    | some item =>
      have hhere := hnamed (path, raw) List.mem_cons_self item hrecord
      have hitem := fun parameter hparameter => hhere parameter (.inl hparameter)
      have hoperation := fun method operation hoperation parameter hparameter =>
        hhere parameter (.inr ⟨method, operation, hoperation, hparameter⟩)
      have hnone : Shared texts side.document item none := by
        rintro _ ⟨⟩
      simp only [foldedItem, itemUnits, hrecord, Option.elim_some]
      apply (readMethods_ends hI hitem hoperation _ h hnone operations).bind
      rintro result s units ⟨rfl, h⟩
      exact ih hrest h _

end Runs

theorem operationsOf_ends [Fintype ν] [DecidableEq ν] {texts : Texts} (side : Side ι κ ν)
    {I : ℕ → Comparison ι κ → ℕ → Prop} (hI : Accounted texts side (Named side.document) I)
    {n units : ℕ} {s : Comparison ι κ} (h : I n s units) :
    Ends (fun result s units => result = foldedOperations texts side.document ∧
      I (n + foldUnits side.document) s units) (operationsOf texts side) s units := by
  apply readItems_ends hI _ _ h
  intro entry hentry item hitem parameter hparameter
  exact ⟨entry, hentry, item, hitem, hparameter⟩

section Both

variable [Fintype ι] [Fintype κ] [DecidableEq ι] [DecidableEq κ]
variable (texts : Texts) (before : Document ι) (after : Document κ)

theorem foldBoth_ends :
    Ends (fun result s units =>
        result = (foldedOperations texts before, foldedOperations texts after) ∧
        Ledger texts before after (Named before) (Named after) (foldUnits before + foldUnits after)
          s units)
      (foldBoth texts before after) .fresh 0 := by
  apply (operationsOf_ends (beforeSide before) accounted_before ledger_fresh).bind
  rintro operations s units ⟨rfl, h⟩
  apply (operationsOf_ends (afterSide after) accounted_after h).bind
  rintro operations' s units ⟨rfl, h⟩
  refine ⟨rfl, ?_⟩
  rwa [Nat.zero_add] at h

end Both

end FerrumNexus.Publishing.Differences
