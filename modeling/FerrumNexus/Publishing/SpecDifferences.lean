import FerrumNexus.Publishing.SpecHoisting

/-!
# What a comparison of two documents lists

Whether a comparison is complete depends on what it costs alone. The operations
it lists as added and removed are those only one document has, whatever it can
pay for; the changed ones are those whose normal forms differ, and a comparison
that is not complete lists none.
-/
namespace FerrumNexus.Publishing.Differences

open Formats OpenApi Platform Saga Metered Sequences SpecChanges

variable {ι κ ν : Type}

/-! ## What a comparison costs -/

section Cost

theorem settleKeyText_ends (s : Comparison ι κ) (units : ℕ) :
    Ends (fun _ _ _ => True) settleKeyText s units := by
  simp only [settleKeyText, Ends, spendDue]
  split <;> trivial

variable [Fintype ι] [Fintype κ] [DecidableEq ι] [DecidableEq κ]
variable (texts : Texts) (before : Document ι) (after : Document κ)

/-- What folding both documents and settling the text comes to, without a limit. -/
def diffUnits : ℕ :=
  ((foldBoth texts before after >>= fun _ => settleKeyText).run none 0 .fresh).units

variable {texts before after} {unitLimit : ℕ}

theorem diffUnits_of_ended {result : Operations × Operations}
    (h : (folded texts before after unitLimit).outcome = .ended result) :
    diffUnits texts before after =
      (settleKeyText.run none (folded texts before after unitLimit).units
        (folded texts before after unitLimit).state).units := by
  have hrun := run_of_ended h
  unfold folded at h ⊢
  rw [hrun] at h ⊢
  exact (run_bind_of_ended h).1

variable (texts before after unitLimit) in
/-- The folding pays what it costs, or it cannot be paid. -/
theorem folded_outcome :
    (folded texts before after unitLimit).outcome =
        .ended (foldedOperations texts before, foldedOperations texts after) ∨
      (folded texts before after unitLimit).outcome = .exhausted ∧
        unitLimit < diffUnits texts before after := by
  have hends := foldBoth_ends texts before after
  rcases hends.limited unitLimit with hexhausted | ⟨result, hended, rfl, -⟩
  · refine .inr ⟨hexhausted, ?_⟩
    by_contra hle
    have hfolded : ((foldBoth texts before after).run none 0 .fresh).units ≤ unitLimit := by
      obtain ⟨result, hresult, -⟩ := hends.run
      have hunits := (run_bind_of_ended (g := fun _ => settleKeyText) hresult).1
      have hle' := le_units none settleKeyText ((foldBoth texts before after).run none 0 .fresh).units
        ((foldBoth texts before after).run none 0 .fresh).state
      unfold diffUnits at hle
      omega
    rw [run_within hfolded] at hexhausted
    obtain ⟨result, hresult, -⟩ := hends.run
    rw [hexhausted] at hresult
    cases hresult
  · exact .inl hended

theorem settled_outcome {result : Operations × Operations}
    (h : (folded texts before after unitLimit).outcome = .ended result) :
    (settled texts before after unitLimit).outcome = .ended () ∧
        diffUnits texts before after ≤ unitLimit ∨
      (settled texts before after unitLimit).outcome = .exhausted ∧
        unitLimit < diffUnits texts before after := by
  have hstart : (folded texts before after unitLimit).units ≤ unitLimit :=
    units_of_ended (Nat.zero_le _) h
  have hunits := diffUnits_of_ended h
  have hends := settleKeyText_ends (folded texts before after unitLimit).state
    (folded texts before after unitLimit).units
  by_cases hle : diffUnits texts before after ≤ unitLimit
  · refine .inl ⟨?_, hle⟩
    obtain ⟨_, hended, -⟩ := hends.run
    rw [hunits] at hle
    unfold settled
    simp only [run_within hle, hended]
  · refine .inr ⟨?_, by omega⟩
    rcases hends.limited unitLimit with hexhausted | ⟨_, hended, -⟩
    · exact hexhausted
    · have hpaid := units_of_ended hstart hended
      rw [run_of_ended hended] at hpaid
      omega

/-- An operation as it is compared, and as it is written. -/
def foldedAt [Fintype ν] (texts : Texts) (doc : Document ν) (listed : ListedOperation ν) : Operation :=
  foldedOperation texts doc listed.item listed.operation

def writtenAt [Fintype ν] (doc : Document ν) (listed : ListedOperation ν) : Operation :=
  doc.contents listed.operation

variable (texts before after unitLimit) in
theorem operationsToCompare_spec (unchecked : Bool) :
    ∃ value value' complete,
      operationsToCompare texts before after unitLimit unchecked =
        some (listing before value, listing after value', complete) ∧
      (complete = true ↔ unchecked = false ∧ diffUnits texts before after ≤ unitLimit) ∧
      (complete = true → value = foldedAt texts before ∧ value' = foldedAt texts after) := by
  have hwritten : (some (operationKeysOf before, operationKeysOf after, false) :
        Option (Operations × Operations × Bool)) =
      some (listing before (writtenAt before), listing after (writtenAt after), false) := by
    rw [operationKeysOf_eq, operationKeysOf_eq]
    rfl
  cases unchecked with
  | true => exact ⟨writtenAt before, writtenAt after, false, hwritten, by simp, by simp⟩
  | false =>
    rcases folded_outcome texts before after unitLimit with hfolded | ⟨hfolded, hlimit⟩
    · have hlisted : foldedOperations texts before = listing before (foldedAt texts before) ∧
          foldedOperations texts after = listing after (foldedAt texts after) :=
        ⟨foldedOperations_eq texts, foldedOperations_eq texts⟩
      rcases settled_outcome hfolded with ⟨hsettled, hlimit⟩ | ⟨hsettled, hlimit⟩
      · refine ⟨foldedAt texts before, foldedAt texts after, true, ?_, by simpa using hlimit, by simp⟩
        simp only [operationsToCompare, hfolded, hsettled, hlisted]
        rfl
      · refine ⟨foldedAt texts before, foldedAt texts after, false, ?_, by simpa using hlimit, by simp⟩
        simp only [operationsToCompare, hfolded, hsettled, hlisted]
        rfl
    · refine ⟨writtenAt before, writtenAt after, false, ?_, by simpa using hlimit, by simp⟩
      simp only [operationsToCompare, hfolded]
      exact hwritten

end Cost

/-! ## The lists -/

section Lists

variable {before : Document ι} {after : Document κ}

/-- A list of operations names those with a property, and no others. -/
def Lists (refs : List SpecOperationRef) (property : String → OperationMethod → Prop) : Prop :=
  ∀ ref, ref ∈ refs ↔ ∃ path method, ref = ⟨OperationMethod.upper method, path⟩ ∧ property path method

theorem lists_addedKeys (value : ListedOperation ι → Operation) (value' : ListedOperation κ → Operation) :
    Lists ((addedKeys (listing before value) (listing after value')).map refOf) fun path method =>
      operationAt before path method = none ∧ (operationAt after path method).isSome := by
  intro ref
  simp only [addedKeys, listing_keys, List.mem_map, List.mem_filter]
  constructor
  · rintro ⟨_, ⟨⟨listed, hlisted, rfl⟩, habsent⟩, rfl⟩
    rw [ListedOperation.key, getEntry_listing, Option.isNone_map, Option.isNone_iff_eq_none] at habsent
    refine ⟨listed.path, listed.method, refOf_operationKey _ _, habsent, ?_⟩
    rw [mem_listedOperations.1 hlisted]
    rfl
  · rintro ⟨path, method, rfl, habsent, hpresent⟩
    obtain ⟨listed, hlisted⟩ := Option.isSome_iff_exists.1 hpresent
    obtain ⟨rfl, rfl⟩ := operationAt_path hlisted
    refine ⟨listed.key, ⟨⟨listed, mem_listedOperations.2 hlisted, rfl⟩, ?_⟩, refOf_operationKey _ _⟩
    rw [ListedOperation.key, getEntry_listing, Option.isNone_map, Option.isNone_iff_eq_none]
    exact habsent

theorem lists_changesOf (value : ListedOperation ι → Operation) (value' : ListedOperation κ → Operation) :
    Lists ((changesOf (listing before value) (listing after value')).map SpecOperationChange.operation)
      fun path method => ∃ listed listed', operationAt before path method = some listed ∧
        operationAt after path method = some listed' ∧ memberChanges (value listed) (value' listed') ≠ [] := by
  intro ref
  simp only [changesOf, List.mem_map, List.mem_filterMap, Option.bind_eq_some_iff]
  constructor
  · rintro ⟨change, ⟨entry, hentry, previous, hprevious, hchange⟩, rfl⟩
    obtain ⟨listed', hlisted', rfl⟩ := List.mem_map.1 hentry
    rw [ListedOperation.key, getEntry_listing] at hprevious
    obtain ⟨listed, hlisted, rfl⟩ := Option.map_eq_some_iff.1 hprevious
    by_cases hsame : memberChanges (value listed) (value' listed') = []
    · simp [hsame] at hchange
    · simp only [ne_eq, hsame, not_false_eq_true, if_true, Option.some.injEq] at hchange
      subst hchange
      exact ⟨listed'.path, listed'.method, refOf_operationKey _ _, listed, listed', hlisted,
        mem_listedOperations.1 hlisted', hsame⟩
  · rintro ⟨path, method, rfl, listed, listed', hlisted, hlisted', hdiffer⟩
    obtain ⟨rfl, rfl⟩ := operationAt_path hlisted'
    refine ⟨⟨refOf listed'.key, memberChanges (value listed) (value' listed')⟩, ?_,
      refOf_operationKey _ _⟩
    refine ⟨(listed'.key, value' listed'), List.mem_map.2
      ⟨listed', mem_listedOperations.2 hlisted', rfl⟩, value listed, ?_, by simp [hdiffer]⟩
    rw [ListedOperation.key, getEntry_listing, hlisted]
    rfl

theorem Lists.eq_nil {refs : List SpecOperationRef} {property : String → OperationMethod → Prop}
    (h : Lists refs property) (hnone : ∀ path method, ¬ property path method) : refs = [] := by
  apply List.eq_nil_iff_forall_not_mem.2
  intro ref href
  obtain ⟨path, method, -, hproperty⟩ := (h ref).1 href
  exact hnone path method hproperty

end Lists

/-! ## Hoisting -/

section Hoisting

variable {texts : Texts}

/-- The identities of a reading are told apart by their ranks. -/
def Reading.Ranked (texts : Texts) (reading : Reading) : Prop :=
  ∀ entry ∈ reading.shared ++ reading.own, ∀ entry' ∈ reading.shared ++ reading.own,
    ∀ identity identity', entry.identity = some identity → entry'.identity = some identity' →
      identityRank texts identity = identityRank texts identity' → identity = identity'

theorem readingOf_ranked [Fintype ν] {doc : Document ν} (hdoc : NoCollision texts doc)
    (listed : ListedOperation ν) : (readingOf texts doc listed).Ranked texts := by
  have hread : ∀ entry ∈ (readingOf texts doc listed).shared ++ (readingOf texts doc listed).own,
      ∃ value, entry = entryOf texts doc value := by
    intro entry hentry
    rcases List.mem_append.1 hentry with hentry | hentry
    · obtain ⟨value, -, rfl⟩ := List.mem_map.1 hentry
      exact ⟨value, rfl⟩
    · obtain ⟨value, -, rfl⟩ := List.mem_map.1 hentry
      exact ⟨value, rfl⟩
  intro entry hentry entry' hentry' identity identity' hidentity hidentity' hrank
  obtain ⟨value, rfl⟩ := hread entry hentry
  obtain ⟨value', rfl⟩ := hread entry' hentry'
  exact identityRank_inj hdoc hidentity hidentity' hrank

/-- A parameter that is moved or dropped leaves the normal form alone. -/
theorem Hoisted.normalForm {reading reading' : Reading} (h : Hoisted reading reading')
    (hranked : reading.Ranked texts) : reading.normalForm texts = reading'.normalForm texts := by
  have heffective : reading.effective texts = reading'.effective texts := by
    cases h with
    | @moved rest shared shared' own own' entry identity hidentity halone =>
      apply canonical_override_move hidentity
      intro other hother identity' hidentity' hrank
      have hmem : other ∈ (shared ++ entry :: shared') ++ (own ++ own') := by
        simp only [List.mem_append, List.mem_cons] at hother ⊢
        tauto
      have hsame := hranked other hmem entry (by simp) identity' identity hidentity' hidentity hrank
      exact halone other hother (hsame ▸ hidentity')
    | dropped hidentity hoverridden =>
      obtain ⟨other, hother, hsame⟩ := hoverridden
      unfold Reading.effective
      rw [override_drop hidentity (List.mem_filterMap.2 ⟨other, hother, hsame⟩)]
  have hrest : reading.rest = reading'.rest := by
    cases h <;> rfl
  have hodd : reading.odd = reading'.odd := by
    cases h <;> rfl
  rw [Reading.normalForm, Reading.normalForm, heffective, hrest, hodd]

variable [Fintype ν] {doc : Document ν}

theorem normalForm_keyed (listed : ListedOperation ν) :
    (Json.object ((readingOf texts doc listed).normalForm texts)).Keyed := by
  rw [Json.Keyed]
  refine ⟨normalForm_names listed, ?_⟩
  apply keyedMembers_of_forall
  intro entry hentry
  rcases List.mem_append.1 hentry with hrest | hparameters
  · obtain ⟨hcontents, -⟩ := List.mem_filter.1 hrest
    obtain ⟨member, -, rfl⟩ := List.mem_map.1 hcontents
    exact doc.content_keyed member.2
  · rw [effective_readingOf] at hparameters
    split at hparameters
    · obtain rfl := List.mem_singleton.1 hparameters
      rw [Json.Keyed]
      apply keyedItems_of_forall
      intro item hitem
      rw [List.map_map] at hitem
      obtain ⟨value, -, rfl⟩ := List.mem_map.1 hitem
      exact doc.content_keyed value
    · obtain ⟨odd, hodd, rfl⟩ := Option.map_eq_some_iff.1 (Option.mem_toList.1 hparameters)
      unfold readingOf at hodd
      simp only at hodd
      split at hodd
      · cases hodd
      · obtain ⟨value, -, rfl⟩ := Option.map_eq_some_iff.1 hodd
        exact doc.content_keyed value

theorem sameForm_refl (listed : ListedOperation ν) :
    SameForm texts (readingOf texts doc listed) (readingOf texts doc listed) :=
  isDeepStrictEqual_refl _ (normalForm_keyed listed)

end Hoisting

/-! ## The comparison -/

section Comparison

variable [Fintype ι] [Fintype κ] [DecidableEq ι] [DecidableEq κ] {S : Type} {texts : Texts}

/-- Nothing is listed. -/
structure SpecDiff.Empty (diff : SpecDiff S) : Prop where
  added : diff.addedOperations = []
  removed : diff.removedOperations = []
  changed : diff.changedOperations = []
  addedPaths : diff.addedPaths = []
  removedPaths : diff.removedPaths = []
  info : diff.infoChanges = []
  servers : diff.serversChanged = false

variable (before : Revision S ι) (after : Revision S κ) (unitLimit : ℕ) (unchecked : Bool)

variable (texts) in
/-- A comparison ends, with a report on the operations as they are folded or, where
it is not complete, on some reading of them. -/
theorem diffSpecDocuments_eq :
    ∃ value value' complete, diffSpecDocuments texts before after unitLimit unchecked =
        some (reportOf before after (listing before.document value) (listing after.document value')
          complete) ∧
      (complete = true ↔
        unchecked = false ∧ diffUnits texts before.document after.document ≤ unitLimit) ∧
      (complete = true →
        value = foldedAt texts before.document ∧ value' = foldedAt texts after.document) := by
  obtain ⟨value, value', complete, hcompare, hcomplete, hfolded⟩ :=
    operationsToCompare_spec texts before.document after.document unitLimit unchecked
  exact ⟨value, value', complete, by rw [diffSpecDocuments, hcompare, Option.map_some], hcomplete,
    hfolded⟩

omit [Fintype ι] [Fintype κ] [DecidableEq ι] [DecidableEq κ] in
/-- The keys that are listed do not depend on what is known of the operations. -/
theorem addedKeys_listing {before : Document ι} {after : Document κ}
    (value other : ListedOperation ι → Operation) (value' other' : ListedOperation κ → Operation) :
    addedKeys (listing before value) (listing after value') =
      addedKeys (listing before other) (listing after other') := by
  have hkeys (key : String) : (getEntry (listing before value) key).isNone =
      (getEntry (listing before other) key).isNone := by
    have hsome : (getEntry (listing before value) key).isSome =
        (getEntry (listing before other) key).isSome := by
      rw [Bool.eq_iff_iff, getEntry_isSome, getEntry_isSome, listing_keys, listing_keys]
    rw [← Option.not_isSome, ← Option.not_isSome, hsome]
  simp only [addedKeys, listing_keys, hkeys]

variable {before after} {value : ListedOperation ι → Operation} {value' : ListedOperation κ → Operation}

omit [DecidableEq ι] [DecidableEq κ] in
theorem lists_added (texts : Texts) (before : Document ι) (after : Document κ) :
    Lists ((addedKeys (listing before value) (listing after value')).map refOf) fun path method =>
      readingAt texts before path method = none ∧ (readingAt texts after path method).isSome := by
  have hlists : Lists _ _ := @lists_addedKeys _ _ before after value value'
  simpa only [readingAt, Option.map_eq_none_iff, Option.isSome_map] using hlists

omit [DecidableEq ι] [DecidableEq κ] in
theorem lists_changed {before : Document ι} {after : Document κ} (hbefore : NoCollision texts before)
    (hafter : NoCollision texts after) {complete : Bool}
    (hfolded : complete = true → value = foldedAt texts before ∧ value' = foldedAt texts after) :
    Lists ((if complete then changesOf (listing before value) (listing after value') else []).map
        SpecOperationChange.operation) fun path method =>
      complete = true ∧ ∃ reading reading', readingAt texts before path method = some reading ∧
        readingAt texts after path method = some reading' ∧ ¬ SameForm texts reading reading' := by
  cases complete with
  | false =>
    intro ref
    simp
  | true =>
    obtain ⟨rfl, rfl⟩ := hfolded rfl
    intro ref
    rw [if_pos rfl, lists_changesOf (foldedAt texts before) (foldedAt texts after) ref]
    constructor
    · rintro ⟨path, method, rfl, listed, listed', hlisted, hlisted', hdiffer⟩
      refine ⟨path, method, rfl, rfl, readingOf texts before listed, readingOf texts after listed',
        by rw [readingAt, hlisted]; rfl, by rw [readingAt, hlisted']; rfl, ?_⟩
      exact fun hsame => hdiffer ((memberChanges_folded hbefore hafter listed listed').2 hsame)
    · rintro ⟨path, method, rfl, -, reading, reading', hreading, hreading', hdiffer⟩
      obtain ⟨listed, hlisted, rfl⟩ := Option.map_eq_some_iff.1 hreading
      obtain ⟨listed', hlisted', rfl⟩ := Option.map_eq_some_iff.1 hreading'
      refine ⟨path, method, rfl, listed, listed', hlisted, hlisted', ?_⟩
      exact fun hsame => hdiffer ((memberChanges_folded hbefore hafter listed listed').1 hsame)

omit [DecidableEq ι] [DecidableEq κ] in
/-- Hoisting adds no operation, removes none, and leaves the normal forms alone. -/
theorem HoistedAt.same {before : Document ι} {after : Document κ} {path : String}
    (hbefore : NoCollision texts before) (h : HoistedAt texts before after path) (path' : String)
    (method : OperationMethod) :
    ((readingAt texts before path' method).isSome = (readingAt texts after path' method).isSome) ∧
      ∀ reading reading', readingAt texts before path' method = some reading →
        readingAt texts after path' method = some reading' → SameForm texts reading reading' := by
  have hrel := h path' method
  constructor
  · generalize readingAt texts before path' method = found at hrel ⊢
    generalize readingAt texts after path' method = found' at hrel ⊢
    cases hrel <;> rfl
  · intro reading reading' hreading hreading'
    rw [hreading, hreading', Option.rel_some_some] at hrel
    obtain ⟨listed, -, rfl⟩ := Option.map_eq_some_iff.1 hreading
    have hform : (readingOf texts before listed).normalForm texts = reading'.normalForm texts := by
      split at hrel
      · exact hrel.normalForm (readingOf_ranked hbefore listed)
      · rw [hrel]
    have hrefl : SameForm texts (readingOf texts before listed) (readingOf texts before listed) :=
      sameForm_refl listed
    rw [SameForm] at hrefl ⊢
    rw [← hform]
    exact hrefl

omit [DecidableEq ι] in
theorem reportOf_self (before : Revision S ι) {value value' : ListedOperation ι → Operation}
    {complete : Bool} (hbefore : NoCollision texts before.document)
    (hfolded : complete = true →
      value = foldedAt texts before.document ∧ value' = foldedAt texts before.document) :
    (reportOf before before (listing before.document value) (listing before.document value')
        complete).Empty ∧
      (reportOf before before (listing before.document value) (listing before.document value')
        complete).changed = !complete := by
  have hnone (first second : ListedOperation ι → Operation) :
      (addedKeys (listing before.document first) (listing before.document second)).map refOf = [] := by
    apply (lists_added texts before.document before.document).eq_nil
    rintro path method ⟨habsent, hpresent⟩
    rw [habsent] at hpresent
    cases hpresent
  have hchanged : (if complete then
      changesOf (listing before.document value) (listing before.document value') else []) = [] := by
    apply List.map_eq_nil_iff.1
    apply (lists_changed hbefore hbefore hfolded).eq_nil
    rintro path method ⟨-, reading, reading', hreading, hreading', hdiffer⟩
    rw [hreading, Option.some.injEq] at hreading'
    subst hreading'
    obtain ⟨listed, -, rfl⟩ := Option.map_eq_some_iff.1 hreading
    exact hdiffer (sameForm_refl listed)
  have hinfo : infoChanges before.document before.document = [] := by
    simp [infoChanges]
  have hservers : equalAt ((rootMember before.document "servers").map before.document.content)
      ((rootMember before.document "servers").map before.document.content) = true := by
    apply equalAt_refl
    intro json hjson
    obtain ⟨value, -, rfl⟩ := Option.map_eq_some_iff.1 hjson
    exact before.document.content_keyed value
  have hpaths : (pathsOf before.document).filter (· ∉ pathsOf before.document) = [] := by
    simp
  constructor
  · exact ⟨hnone _ _, hnone _ _, hchanged, hpaths, hpaths, hinfo, by simp [reportOf, hservers]⟩
  · simp only [reportOf, hnone, hchanged, hinfo, hservers]
    simp

variable (before after)

/-- A comparison lists exactly the operations of one document alone, and those of
both whose normal forms differ if it is complete. Where a parameter is declared
makes no difference, a document does not differ from itself, and what one
comparison adds the other way round removes. -/
theorem diff_sees_through_hoisting (hbefore : NoCollision texts before.document)
    (hafter : NoCollision texts after.document) :
    ∃ diff back same, diffSpecDocuments texts before after unitLimit unchecked = some diff ∧
      diffSpecDocuments texts after before unitLimit unchecked = some back ∧
      diffSpecDocuments texts before before unitLimit unchecked = some same ∧
      (diff.complete = true ↔
        unchecked = false ∧ diffUnits texts before.document after.document ≤ unitLimit) ∧
      Lists diff.addedOperations (fun path method =>
        readingAt texts before.document path method = none ∧
          (readingAt texts after.document path method).isSome) ∧
      Lists diff.removedOperations (fun path method =>
        readingAt texts after.document path method = none ∧
          (readingAt texts before.document path method).isSome) ∧
      Lists (diff.changedOperations.map SpecOperationChange.operation) (fun path method =>
        diff.complete = true ∧ ∃ reading reading',
          readingAt texts before.document path method = some reading ∧
          readingAt texts after.document path method = some reading' ∧
          ¬ SameForm texts reading reading') ∧
      (∀ path, HoistedAt texts before.document after.document path →
        diff.addedOperations = [] ∧ diff.removedOperations = [] ∧ diff.changedOperations = []) ∧
      same.Empty ∧ same.changed = !same.complete ∧
      back.removedOperations = diff.addedOperations ∧
      back.addedOperations = diff.removedOperations := by
  obtain ⟨value, value', complete, hdiff, hcomplete, hfolded⟩ :=
    diffSpecDocuments_eq texts before after unitLimit unchecked
  obtain ⟨other', other, complete', hback, -, -⟩ :=
    diffSpecDocuments_eq texts after before unitLimit unchecked
  obtain ⟨own, own', complete'', hsame, -, hown⟩ :=
    diffSpecDocuments_eq texts before before unitLimit unchecked
  refine ⟨_, _, _, hdiff, hback, hsame, hcomplete, lists_added texts _ _, lists_added texts _ _,
    lists_changed hbefore hafter hfolded, ?_, ?_⟩
  · intro path hhoisted
    have hsame := hhoisted.same hbefore
    refine ⟨?_, ?_, ?_⟩
    · apply (lists_added texts before.document after.document).eq_nil
      rintro path' method ⟨habsent, hpresent⟩
      rw [← (hsame path' method).1, habsent] at hpresent
      cases hpresent
    · apply (lists_added texts after.document before.document).eq_nil
      rintro path' method ⟨habsent, hpresent⟩
      rw [(hsame path' method).1, habsent] at hpresent
      cases hpresent
    · apply List.map_eq_nil_iff.1
      apply (lists_changed hbefore hafter hfolded).eq_nil
      rintro path' method ⟨-, reading, reading', hreading, hreading', hdiffer⟩
      exact hdiffer ((hsame path' method).2 reading reading' hreading hreading')
  · obtain ⟨hempty, hunchanged⟩ := reportOf_self before hbefore hown
    refine ⟨hempty, hunchanged, ?_, ?_⟩
    · exact congrArg (List.map refOf) (addedKeys_listing _ _ _ _)
    · exact congrArg (List.map refOf) (addedKeys_listing _ _ _ _)

end Comparison

/-! ## A parameter moved from a Path Item -/

/-- One operation, `GET /x`, with the members of its Path Item and its own. -/
def oneOperation (item operation : Members (Fin 9)) (shared own : List (Value (Fin 9)))
    (first second : Members (Fin 9)) : Document (Fin 9) where
  root := .node 0
  nodes
    | 0 => .record ⟨[("paths", .node 1)], by decide⟩
    | 1 => .record ⟨[("/x", .node 2)], by decide⟩
    | 2 => .record item
    | 3 => .record operation
    | 4 => .array shared
    | 5 => .array own
    | 6 => .record first
    | _ => .record second

/-- The first parameter is shared, the second the operation's own. -/
def sharing (first second : Members (Fin 9)) : Document (Fin 9) :=
  oneOperation ⟨[("parameters", .node 4), ("get", .node 3)], by decide⟩
    ⟨[("parameters", .node 5)], by decide⟩ [.node 6] [.node 7] first second

/-- Both are the operation's own. -/
def unshared (first second : Members (Fin 9)) : Document (Fin 9) :=
  oneOperation ⟨[("get", .node 3)], by decide⟩ ⟨[("parameters", .node 5)], by decide⟩ []
    [.node 7, .node 6] first second

def queryParameter (name : String) : Members (Fin 9) :=
  ⟨[("in", .string "query"), ("name", .string name)], by simp⟩

/-- A parameter without an identity. -/
def plainParameter : Members (Fin 9) := ⟨[("b", .null)], by decide⟩

def queryEntry (name : String) : Entry :=
  ⟨some ⟨"query", name⟩, .object [("in", .string "query"), ("name", .string name)]⟩

def plainTexts : Texts := ⟨id, id⟩

theorem readingAt_oneOperation {item operation : Members (Fin 9)} {shared own : List (Value (Fin 9))}
    {first second : Members (Fin 9)} {path : String} {method : OperationMethod} (h : path ≠ "/x") :
    readingAt plainTexts (oneOperation item operation shared own first second) path method = none := by
  have hentries : pathEntries (oneOperation item operation shared own first second) =
      [("/x", .node 2)] := rfl
  have hfind : ("/x" == path) = false := by simpa using Ne.symm h
  simp [readingAt, operationAt, hentries, hfind]

theorem hoistedAt_sharing : HoistedAt plainTexts (sharing (queryParameter "id") (queryParameter "q"))
    (unshared (queryParameter "id") (queryParameter "q")) "/x" := by
  intro path method
  by_cases hpath : path = "/x"
  · subst hpath
    cases method with
    | get =>
      have hmoved : Hoisted ⟨[], none, [queryEntry "id"], [queryEntry "q"]⟩
          ⟨[], none, [], [queryEntry "q", queryEntry "id"]⟩ :=
        @Hoisted.moved [] [] [] [queryEntry "q"] [] (queryEntry "id") ⟨"query", "id"⟩ rfl
          (by simp [queryEntry])
      exact .some hmoved
    | _ => exact .none
  · rw [sharing, unshared, readingAt_oneOperation hpath, readingAt_oneOperation hpath]
    exact .none

theorem diff_sees_through_hoisting_shared :
    ∃ diff : SpecDiff Unit, diffSpecDocuments plainTexts
        ⟨sharing (queryParameter "id") (queryParameter "q"), none⟩
        ⟨unshared (queryParameter "id") (queryParameter "q"), none⟩ 11 false = some diff ∧
      diff.complete = true ∧ diff.changedOperations = [] := by
  have hcost : diffUnits plainTexts (sharing (queryParameter "id") (queryParameter "q"))
      (unshared (queryParameter "id") (queryParameter "q")) ≤ 11 := by decide +kernel
  obtain ⟨diff, -, -, hdiff, -, -, hcomplete, -, -, -, hhoisted, -⟩ :=
    @diff_sees_through_hoisting _ _ _ _ _ _ Unit plainTexts
      ⟨sharing (queryParameter "id") (queryParameter "q"), none⟩
      ⟨unshared (queryParameter "id") (queryParameter "q"), none⟩ 11 false
      (fun _ _ _ _ _ _ h => h) (fun _ _ _ _ _ _ h => h)
  exact ⟨diff, hdiff, hcomplete.2 ⟨rfl, hcost⟩, (hhoisted "/x" hoistedAt_sharing).2.2⟩

/-- A parameter without an identity that is moved to the end of the operation's
list is reported. Where a comparison is not complete, nothing is. -/
theorem hoisting_changes_unidentified :
    readingAt plainTexts (sharing .none plainParameter) "/x" .get =
        some ⟨[], none, [⟨none, .object []⟩], [⟨none, .object [("b", .null)]⟩]⟩ ∧
      readingAt plainTexts (unshared .none plainParameter) "/x" .get =
        some ⟨[], none, [], [⟨none, .object [("b", .null)]⟩, ⟨none, .object []⟩]⟩ ∧
      ((diffSpecDocuments (S := Unit) plainTexts ⟨sharing .none plainParameter, none⟩
        ⟨unshared .none plainParameter, none⟩ 11 false).map fun diff =>
          (diff.complete, diff.changedOperations)) =
        some (true, [⟨⟨"GET", "/x"⟩, ["parameters"]⟩]) ∧
      ((diffSpecDocuments (S := Unit) plainTexts ⟨sharing .none plainParameter, none⟩
        ⟨unshared .none plainParameter, none⟩ 11 true).map fun diff =>
          (diff.complete, diff.changedOperations)) = some (false, []) :=
  ⟨rfl, rfl, by decide +kernel, by decide +kernel⟩

end FerrumNexus.Publishing.Differences
