import FerrumNexus.Publishing.SpecTermination

/-!
# The work budget only truncates

A comparison that runs out of units has made the first calls of `record` that a
comparison without a budget makes. Its counts are no larger and its lists are the
beginnings of the other's.
-/
namespace FerrumNexus.Publishing.SpecChanges

open OpenApi Saga Metered

/-! ## What one more change does -/

/-- No total is larger. -/
structure SpecChangeCounts.AtMost (counts counts' : SpecChangeCounts) : Prop where
  breaking : counts.breaking ≤ counts'.breaking
  nonBreaking : counts.nonBreaking ≤ counts'.nonBreaking
  operationsAdded : counts.operationsAdded ≤ counts'.operationsAdded
  operationsRemoved : counts.operationsRemoved ≤ counts'.operationsRemoved
  operationsDeprecated : counts.operationsDeprecated ≤ counts'.operationsDeprecated
  operationsChanged : counts.operationsChanged ≤ counts'.operationsChanged

theorem SpecChangeCounts.AtMost.refl (counts : SpecChangeCounts) : counts.AtMost counts := by
  constructor <;> exact le_rfl

theorem SpecChangeCounts.AtMost.trans {a b c : SpecChangeCounts} (h : a.AtMost b)
    (h' : b.AtMost c) : a.AtMost c where
  breaking := h.breaking.trans h'.breaking
  nonBreaking := h.nonBreaking.trans h'.nonBreaking
  operationsAdded := h.operationsAdded.trans h'.operationsAdded
  operationsRemoved := h.operationsRemoved.trans h'.operationsRemoved
  operationsDeprecated := h.operationsDeprecated.trans h'.operationsDeprecated
  operationsChanged := h.operationsChanged.trans h'.operationsChanged

theorem atMost_countSeverity (counts : SpecChangeCounts) (severity : SpecChangeSeverity) :
    counts.AtMost (countSeverity counts severity) := by
  cases severity <;> constructor <;> simp [countSeverity]

theorem atMost_countOperation (changedOperations : List SpecOperationRef) (change : SpecChange)
    (counts : SpecChangeCounts) :
    counts.AtMost (countOperation changedOperations change counts) := by
  unfold countOperation
  split
  · constructor <;> simp
  · constructor <;> simp
  · exact .refl counts
  · dsimp only
    split <;> split <;> constructor <;> simp

/-- What has been recorded stays recorded. -/
structure Recorder.Grows (recorder recorder' : Recorder) : Prop where
  counts : recorder.counts.AtMost recorder'.counts
  breaking : recorder.breaking <+: recorder'.breaking
  nonBreaking : recorder.nonBreaking <+: recorder'.nonBreaking

theorem Recorder.Grows.refl (recorder : Recorder) : recorder.Grows recorder :=
  ⟨.refl recorder.counts, List.prefix_rfl, List.prefix_rfl⟩

theorem Recorder.Grows.trans {a b c : Recorder} (h : a.Grows b) (h' : b.Grows c) : a.Grows c where
  counts := h.counts.trans h'.counts
  breaking := h.breaking.trans h'.breaking
  nonBreaking := h.nonBreaking.trans h'.nonBreaking

theorem prefix_push (listLimit : ℕ) (list : List SpecChange) (change : SpecChange) :
    list <+: push listLimit list change := by
  unfold push
  split
  · exact List.prefix_rfl
  · exact List.prefix_append list [change]

theorem Recorder.grows_record (listLimit : ℕ) (recorder : Recorder) (change : SpecChange) :
    recorder.Grows (recorder.record listLimit change) := by
  constructor
  · exact (atMost_countSeverity _ _).trans (atMost_countOperation _ _ _)
  · simp only [Recorder.record]
    split
    · exact prefix_push _ _ _
    · exact List.prefix_rfl
  · simp only [Recorder.record]
    split
    · exact List.prefix_rfl
    · exact prefix_push _ _ _

theorem Recorder.grows_foldl (listLimit : ℕ) (recorder : Recorder) (changes : List SpecChange) :
    recorder.Grows (changes.foldl (Recorder.record listLimit) recorder) := by
  induction changes generalizing recorder with
  | nil => exact .refl recorder
  | cons change changes ih => exact (recorder.grows_record listLimit change).trans (ih _)

theorem grows_of_begins (listLimit : ℕ) {changes changes' : List SpecChange}
    (h : changes <+: changes') : (recorder listLimit changes).Grows (recorder listLimit changes') := by
  obtain ⟨more, rfl⟩ := h
  rw [recorder, recorder, List.foldl_append]
  exact Recorder.grows_foldl listLimit _ more

/-- Only changes that were recorded are listed. -/
theorem mem_of_listed {listLimit : ℕ} {changes : List SpecChange} (recorder : Recorder) :
    let recorder' := changes.foldl (Recorder.record listLimit) recorder
    ∀ change ∈ recorder'.breaking ++ recorder'.nonBreaking,
      change ∈ recorder.breaking ++ recorder.nonBreaking ∨ change ∈ changes := by
  induction changes generalizing recorder with
  | nil => exact fun change h => .inl h
  | cons first changes ih =>
    intro recorder' change h
    rcases ih (recorder.record listLimit first) change h with h | h
    · simp only [Recorder.record, List.mem_append] at h ⊢
      grind [push]
    · exact .inr (List.mem_cons_of_mem first h)

/-! ## Two limits -/

variable {ι κ : Type} [Fintype ι] [Fintype κ] [DecidableEq ι] [DecidableEq κ]
variable (texts : Texts) (before : Document ι) (after : Document κ)

theorem compared_raises {limit limit' : Option ℕ} (h : Raises limit limit') :
    compared texts before after limit = compared texts before after limit' ∨
      (compared texts before after limit).outcome = .exhausted ∧
        recordedChanges texts before after limit <+: recordedChanges texts before after limit' := by
  rcases run_raises h (comparison texts before after) 0 .fresh with hsame | ⟨hexhausted, hbegins⟩
  · exact .inl hsame
  · exact .inr ⟨hexhausted, hbegins.filterMap Event.change?⟩

theorem recorded_begins {limit limit' : Option ℕ} (h : Raises limit limit') :
    recordedChanges texts before after limit <+: recordedChanges texts before after limit' := by
  rcases compared_raises texts before after h with hsame | ⟨-, hbegins⟩
  · rw [recordedChanges, recordedChanges, hsame]
  · exact hbegins

theorem compared_ended : ∃ complete, (compared texts before after none).outcome = .ended complete := by
  obtain ⟨complete, hended, -⟩ := (holds_comparison texts before after).run 0
  exact ⟨complete, hended⟩

/-- Under a limit the comparison ends too, and with all of it done it is the
comparison without one. -/
theorem compared_within (limit : Option ℕ) :
    ∃ complete, completeOf (compared texts before after limit).outcome = some complete ∧
      (complete = true → compared texts before after limit = compared texts before after none) := by
  rcases compared_raises texts before after (raises_none limit) with hsame | ⟨hexhausted, -⟩
  · obtain ⟨complete, hended⟩ := compared_ended texts before after
    exact ⟨complete, by rw [hsame, hended]; rfl, fun _ => hsame⟩
  · exact ⟨false, by rw [hexhausted]; rfl, fun h => by cases h⟩

/-- For every two documents and every limit: a comparison that finishes is the
unbounded one, and in any case it recorded the first changes that the unbounded
one records, with counts no larger, and a limit raised by `more` records no less. -/
theorem budget_only_truncates (listLimit limit more : ℕ) :
    ∃ unbounded bounded,
      compareSpecRevisions texts before after none listLimit = some unbounded ∧
      compareSpecRevisions texts before after (some limit) listLimit = some bounded ∧
      (bounded.complete = true → bounded = unbounded) ∧
      recordedChanges texts before after (some limit) <+: recordedChanges texts before after none ∧
      bounded.counts.AtMost unbounded.counts ∧
      (∀ change ∈ bounded.changes, change ∈ recordedChanges texts before after none) ∧
      recordedChanges texts before after (some limit) <+:
        recordedChanges texts before after (some (limit + more)) ∧
      (recorder listLimit (recordedChanges texts before after (some limit))).Grows
        (recorder listLimit (recordedChanges texts before after (some (limit + more)))) := by
  obtain ⟨finished, hfinished⟩ := compared_ended texts before after
  obtain ⟨complete, hcomplete, hsame⟩ := compared_within texts before after (some limit)
  have hbegins := recorded_begins texts before after (raises_none (some limit))
  have hraised := recorded_begins texts before after (raises_some (Nat.le_add_right limit more))
  refine ⟨reportOf before after listLimit finished (recordedChanges texts before after none),
    reportOf before after listLimit complete (recordedChanges texts before after (some limit)),
    ?_, ?_, ?_, hbegins, (grows_of_begins listLimit hbegins).counts, ?_, hraised,
    grows_of_begins listLimit hraised⟩
  · rw [compareSpecRevisions, hfinished]
    rfl
  · rw [compareSpecRevisions, hcomplete]
    rfl
  · intro hdone
    have hrun := hsame hdone
    rw [hrun, hfinished] at hcomplete
    cases hcomplete
    rw [recordedChanges, recordedChanges, hrun]
  · intro change hchange
    rcases mem_of_listed noRecords change (List.mem_of_mem_take hchange) with h | h
    · cases h
    · exact hbegins.subset h

end FerrumNexus.Publishing.SpecChanges
