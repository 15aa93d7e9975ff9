import FerrumNexus.Publishing.SpecDiffRuns

/-!
# Which operations a comparison lists

The keys of a document's operations are the pairs of a path and a method it
declares. Two maps of operations are compared entry by entry: an operation is
listed as changed exactly if the two differ in a member.
-/
namespace FerrumNexus.Publishing.Differences

open Formats OpenApi Platform Saga Metered Sequences SpecChanges

variable {ι κ ν : Type}

/-! ## Keys -/

theorem space_not_mem_upper (method : OperationMethod) : ' ' ∉ (OperationMethod.upper method).toList := by
  cases method <;> decide

theorem operationKey_toList (method : OperationMethod) (path : String) :
    (operationKey method path).toList =
      (OperationMethod.upper method).toList ++ ' ' :: path.toList := by
  simp [operationKey]

theorem refOf_operationKey (method : OperationMethod) (path : String) :
    refOf (operationKey method path) = ⟨OperationMethod.upper method, path⟩ := by
  have hspace := space_not_mem_upper method
  have hmethod : ∀ c ∈ (OperationMethod.upper method).toList, (c ≠ ' ' : Bool) = true := by
    intro c hc
    have hne : c ≠ ' ' := by
      rintro rfl
      exact hspace hc
    simpa using hne
  have htake : (operationKey method path).toList.takeWhile (fun c => c ≠ ' ') =
      (OperationMethod.upper method).toList := by
    rw [operationKey_toList, List.takeWhile_append_of_pos hmethod]
    simp
  have hdrop : (operationKey method path).toList.dropWhile (fun c => c ≠ ' ') = ' ' :: path.toList := by
    rw [operationKey_toList, List.dropWhile_append_of_pos hmethod]
    simp
  rw [refOf, keyMethod, keyPath, htake, hdrop]
  simp

theorem operationKey_inj {method method' : OperationMethod} {path path' : String}
    (h : operationKey method path = operationKey method' path') : method = method' ∧ path = path' := by
  have href := congrArg refOf h
  rw [refOf_operationKey, refOf_operationKey, SpecOperationRef.mk.injEq] at href
  refine ⟨?_, href.2⟩
  have hupper := href.1
  cases method <;> cases method' <;> first | rfl | exact absurd hupper (by decide)

/-! ## Maps -/

theorem setEntry_new {β : Type} {map : List (String × β)} {key : String}
    (h : key ∉ map.map Prod.fst) (value : β) : setEntry map key value = map ++ [(key, value)] := by
  rw [setEntry, if_neg]
  intro hany
  obtain ⟨entry, hentry, heq⟩ := List.any_eq_true.1 hany
  exact h (List.mem_map.2 ⟨entry, hentry, by simpa using heq⟩)

/-- Entries set under new keys stand in the order they are set in. -/
theorem foldl_setEntry {α β : Type} (key : α → String) (value : α → β) (items : List α)
    {map : List (String × β)} (h : (map.map Prod.fst ++ items.map key).Nodup) :
    items.foldl (fun map item => setEntry map (key item) (value item)) map =
      map ++ items.map fun item => (key item, value item) := by
  induction items generalizing map with
  | nil => simp
  | cons item items ih =>
    have hnew : key item ∉ map.map Prod.fst := by
      rw [List.map_cons, List.nodup_append] at h
      intro hmem
      exact h.2.2 _ hmem _ List.mem_cons_self rfl
    rw [List.foldl_cons, setEntry_new hnew, ih]
    · simp
    · simpa using h

theorem getEntry_isSome {β : Type} {map : List (String × β)} {key : String} :
    (getEntry map key).isSome ↔ key ∈ map.map Prod.fst := by
  simp only [getEntry, Option.isSome_map, List.find?_isSome, List.mem_map]
  constructor
  · rintro ⟨entry, hentry, heq⟩
    exact ⟨entry, hentry, by simpa using heq⟩
  · rintro ⟨entry, hentry, rfl⟩
    exact ⟨entry, hentry, beq_self_eq_true _⟩

theorem getEntry_of_mem {β : Type} {map : List (String × β)} (h : (map.map Prod.fst).Nodup)
    {entry : String × β} (hentry : entry ∈ map) : getEntry map entry.1 = some entry.2 := by
  have hsome := getEntry_isSome.2 (List.mem_map_of_mem (f := Prod.fst) hentry)
  obtain ⟨value, hvalue⟩ := Option.isSome_iff_exists.1 hsome
  obtain ⟨other, hother, rfl⟩ := Option.map_eq_some_iff.1 hvalue
  have hkey : other.1 = entry.1 := by simpa using List.find?_some hother
  rw [hvalue, List.inj_on_of_nodup_map h (List.mem_of_find?_eq_some hother) hentry hkey]

/-! ## The operations of a document -/

/-- An operation and its Path Item. -/
structure ListedOperation (ν : Type) where
  path : String
  method : OperationMethod
  item : ν
  operation : ν

def ListedOperation.key (listed : ListedOperation ν) : String :=
  operationKey listed.method listed.path

section Document

variable (doc : Document ν)

/-- The operation a document has under a path and a method. -/
def operationAt (path : String) (method : OperationMethod) : Option (ListedOperation ν) :=
  ((pathEntries doc).find? fun entry => entry.1 == path).bind fun entry =>
    (doc.record? (some entry.2)).bind fun item =>
      (doc.record? (doc.own item method.key)).map fun operation => ⟨path, method, item, operation⟩

def listedIn (entry : String × Value ν) : List (ListedOperation ν) :=
  (doc.record? (some entry.2)).elim [] fun item =>
    (operationsIn doc item OPENAPI_OPERATION_METHODS).map fun found =>
      ⟨entry.1, found.1, item, found.2⟩

def listedOperations : List (ListedOperation ν) := (pathEntries doc).flatMap (listedIn doc)

theorem pathEntries_distinct : ((pathEntries doc).map Prod.fst).Nodup := by
  unfold pathEntries
  split
  · exact List.nodup_nil
  · exact (doc.members _).distinct

variable {doc}

theorem mem_operationsIn {item : ν} {entry : OperationMethod × ν} :
    entry ∈ operationsIn doc item OPENAPI_OPERATION_METHODS ↔
      doc.record? (doc.own item entry.1.key) = some entry.2 := by
  simp only [operationsIn, List.mem_filterMap, Option.map_eq_some_iff]
  constructor
  · rintro ⟨method, -, operation, hoperation, rfl⟩
    exact hoperation
  · intro h
    refine ⟨entry.1, ?_, entry.2, h, rfl⟩
    cases entry.1 <;> decide

theorem find_pathEntries {entry : String × Value ν} (h : entry ∈ pathEntries doc) :
    (pathEntries doc).find? (fun other => other.1 == entry.1) = some entry := by
  have hget := getEntry_of_mem (pathEntries_distinct doc) h
  obtain ⟨other, hother, hvalue⟩ := Option.map_eq_some_iff.1 hget
  have hkey : other.1 = entry.1 := by simpa using List.find?_some hother
  rw [hother, Prod.ext hkey hvalue]

theorem mem_listedOperations {listed : ListedOperation ν} :
    listed ∈ listedOperations doc ↔ operationAt doc listed.path listed.method = some listed := by
  simp only [listedOperations, List.mem_flatMap, listedIn]
  constructor
  · rintro ⟨entry, hentry, hlisted⟩
    cases hitem : doc.record? (some entry.2) with
    | none => simp [hitem] at hlisted
    | some item =>
      rw [hitem, Option.elim_some, List.mem_map] at hlisted
      obtain ⟨found, hfound, rfl⟩ := hlisted
      simp [operationAt, find_pathEntries hentry, hitem, mem_operationsIn.1 hfound]
  · intro h
    obtain ⟨entry, hfind, h⟩ := Option.bind_eq_some_iff.1 h
    obtain ⟨item, hitem, h⟩ := Option.bind_eq_some_iff.1 h
    obtain ⟨operation, hoperation, h⟩ := Option.map_eq_some_iff.1 h
    have hpath : entry.1 = listed.path := by simpa using List.find?_some hfind
    refine ⟨entry, List.mem_of_find?_eq_some hfind, ?_⟩
    rw [hitem, Option.elim_some, List.mem_map]
    exact ⟨(listed.method, operation), mem_operationsIn.2 hoperation, by rw [hpath]; exact h⟩

theorem operationsIn_sublist (item : ν) (methods : List OperationMethod) :
    ((operationsIn doc item methods).map Prod.fst).Sublist methods := by
  induction methods with
  | nil => exact List.Sublist.slnil
  | cons method methods ih =>
    rw [operationsIn, List.filterMap_cons]
    cases doc.record? (doc.own item method.key) with
    | none => exact ih.cons method
    | some operation => exact ih.cons_cons method

theorem listedIn_keys (entry : String × Value ν) :
    ((listedIn doc entry).map ListedOperation.key).Nodup := by
  unfold listedIn
  cases doc.record? (some entry.2) with
  | none => exact List.nodup_nil
  | some item =>
    have hmethods : ((operationsIn doc item OPENAPI_OPERATION_METHODS).map Prod.fst).Nodup :=
      (operationsIn_sublist item _).nodup (by decide)
    rw [Option.elim_some, List.map_map]
    have hinj : Function.Injective fun method => operationKey method entry.1 :=
      fun _ _ h => (operationKey_inj h).1
    have hkeys := hmethods.map hinj
    rwa [List.map_map] at hkeys

theorem listedIn_path {entry : String × Value ν} {listed : ListedOperation ν}
    (h : listed ∈ listedIn doc entry) : listed.path = entry.1 := by
  unfold listedIn at h
  cases hitem : doc.record? (some entry.2) with
  | none => simp [hitem] at h
  | some item =>
    rw [hitem, Option.elim_some, List.mem_map] at h
    obtain ⟨found, -, rfl⟩ := h
    rfl

theorem listedOperations_distinct : ((listedOperations doc).map ListedOperation.key).Nodup := by
  rw [listedOperations, List.map_flatMap, List.nodup_flatMap]
  refine ⟨fun entry _ => listedIn_keys entry, ?_⟩
  have hpaths := pathEntries_distinct doc
  rw [List.Nodup, List.pairwise_map] at hpaths
  apply hpaths.imp
  intro entry entry' hne key hkey hkey'
  obtain ⟨listed, hlisted, rfl⟩ := List.mem_map.1 hkey
  obtain ⟨listed', hlisted', heq⟩ := List.mem_map.1 hkey'
  apply hne
  rw [← listedIn_path hlisted, ← listedIn_path hlisted']
  exact (operationKey_inj heq).2.symm

/-- The operations of a document, and what is known of each. -/
def listing {β : Type} (doc : Document ν) (value : ListedOperation ν → β) : List (String × β) :=
  (listedOperations doc).map fun listed => (listed.key, value listed)

theorem listing_keys {β : Type} (value : ListedOperation ν → β) :
    (listing doc value).map Prod.fst = (listedOperations doc).map ListedOperation.key := by
  simp [listing]

theorem operationAt_path {path : String} {method : OperationMethod} {listed : ListedOperation ν}
    (h : operationAt doc path method = some listed) : listed.path = path ∧ listed.method = method := by
  obtain ⟨entry, -, h⟩ := Option.bind_eq_some_iff.1 h
  obtain ⟨item, -, h⟩ := Option.bind_eq_some_iff.1 h
  obtain ⟨operation, -, rfl⟩ := Option.map_eq_some_iff.1 h
  exact ⟨rfl, rfl⟩

/-- What is known under a key is what is known of the operation it spells. -/
theorem getEntry_listing {β : Type} (value : ListedOperation ν → β) (path : String)
    (method : OperationMethod) :
    getEntry (listing doc value) (operationKey method path) =
      (operationAt doc path method).map value := by
  have hdistinct : ((listing doc value).map Prod.fst).Nodup := by
    rw [listing_keys]
    exact listedOperations_distinct
  cases hat : operationAt doc path method with
  | some listed =>
    obtain ⟨hpath, hmethod⟩ := operationAt_path hat
    have hlisted : listed ∈ listedOperations doc := by
      rw [mem_listedOperations, hpath, hmethod, hat]
    have hmem : (listed.key, value listed) ∈ listing doc value :=
      List.mem_map.2 ⟨listed, hlisted, rfl⟩
    have hget := getEntry_of_mem hdistinct hmem
    rwa [ListedOperation.key, hpath, hmethod] at hget
  | none =>
    rw [Option.map_none, ← Option.not_isSome_iff_eq_none, getEntry_isSome, listing_keys]
    intro hkey
    obtain ⟨listed, hlisted, heq⟩ := List.mem_map.1 hkey
    obtain ⟨rfl, rfl⟩ := operationKey_inj heq
    rw [mem_listedOperations, hat] at hlisted
    cases hlisted

theorem foldl_listed {value : ListedOperation ν → Operation}
    {step : Operations → String × Value ν → Operations}
    (hstep : ∀ operations entry, step operations entry = (listedIn doc entry).foldl
      (fun operations listed => setEntry operations listed.key (value listed)) operations) :
    (pathEntries doc).foldl step [] = listing doc value := by
  have hfold : (pathEntries doc).foldl step [] = (listedOperations doc).foldl
      (fun operations listed => setEntry operations listed.key (value listed)) [] := by
    rw [listedOperations, List.foldl_flatMap]
    congr 1
    funext operations entry
    exact hstep operations entry
  rw [hfold, foldl_setEntry]
  · rfl
  · exact listedOperations_distinct

variable [Fintype ν]

theorem foldedOperations_eq (texts : Texts) : foldedOperations texts doc =
    listing doc fun listed => foldedOperation texts doc listed.item listed.operation := by
  apply foldl_listed
  intro operations entry
  unfold foldedItem listedIn
  cases doc.record? (some entry.2) with
  | none => rfl
  | some item =>
    rw [Option.elim_some, List.foldl_map]
    rfl

theorem operationKeysOf_eq : operationKeysOf doc =
    listing doc fun listed => doc.contents listed.operation := by
  apply foldl_listed
  intro operations entry
  unfold writtenOperations listedIn
  cases doc.record? (some entry.2) with
  | none => rfl
  | some item =>
    rw [Option.elim_some, List.foldl_map, operationsIn, List.foldl_filterMap]
    apply List.foldl_ext
    intro operations method _
    cases doc.record? (doc.own item method.key) <;> rfl

end Document

/-! ## Members -/

theorem member_eq_none {members : Operation} {name : String} :
    member members name = none ↔ name ∉ members.map Prod.fst := by
  rw [member, Option.map_eq_none_iff, List.find?_eq_none, List.mem_map, not_exists]
  apply forall_congr'
  intro entry
  simp

/-- No member is reported exactly if the operations are equal under every name. -/
theorem memberChanges_eq_nil {before after : Operation} :
    memberChanges before after = [] ↔
      ∀ name, equalAt (member before name) (member after name) = true := by
  have hextras (differs : String → Bool) (names : List String) :
      ((if names.any differs then ["other"] else []) = ([] : List String)) ↔
        ∀ name ∈ names, differs name = false := by
    simp
  rw [memberChanges, List.append_eq_nil_iff, List.filter_eq_nil_iff, hextras]
  constructor
  · rintro ⟨hknown, hother⟩ name
    by_cases hmember : name ∈ OPERATION_MEMBERS
    · simpa using hknown name hmember
    by_cases hname : name ∈ before.map Prod.fst ++ after.map Prod.fst
    · have := hother name (List.mem_filter.2 ⟨hname, by simpa using hmember⟩)
      simpa using this
    · rw [List.mem_append, not_or] at hname
      rw [member_eq_none.2 hname.1, member_eq_none.2 hname.2]
      rfl
  · intro h
    constructor
    · intro name _
      simp [h name]
    · intro name _
      simp [h name]

end FerrumNexus.Publishing.Differences
