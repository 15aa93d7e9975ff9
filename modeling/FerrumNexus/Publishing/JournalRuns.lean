import FerrumNexus.Publishing.RebuildSteps

/-!
# Runs of journalled operations on one API

Conversions, restores and deletions of one API hold its restore key, so they
run one after another, each to its end or to a crash at any of its actions.
What the gateway holds may be changed by others in between. Every action of
every run is a step of the ledger.
-/
namespace FerrumNexus.Publishing

open Saga Saga.Scope Platform

section Runs

variable {J : Type} [DecidableEq J]

/-- The operations of a run; `slot` is the memory of the request. -/
inductive JournalOp (J : Type)
  | update (slot : ℕ) (initial : Option ℕ) (patch : EnforcementPatch J)
  | restore (slot : ℕ)
  | remove (initial : Option ℕ)
  /-- A change of the gateway by anybody else. -/
  | elsewhere (change : Edge J → Edge J)

def JournalOp.program (docs : Documents J) (policies : Policies J) :
    JournalOp J → Program (PublishingState J) Outcome Unit
  | update slot initial patch => (updateEnforcement docs slot policies initial patch).toProgram
  | restore slot => (restoreGateway docs policies slot).toProgram
  | remove initial => (Publishing.remove initial).toProgram
  | elsewhere change => (writeEdge fun e => .ok ((), change e)).toProgram

/-- Runs start without a journal and before any conditional write. -/
def Unjournalled (s : PublishingState J) : Prop :=
  s.recovery = none ∧ s.cleanup = none ∧ s.sent = [] ∧ s.acked = []

abbrev JournalTransition (docs : Documents J) (policies : Policies J) :
    PublishingState J → PublishingState J → Prop :=
  Serial.Transition (JournalOp.program docs policies) Unjournalled fun _ _ => True

omit [DecidableEq J] in
theorem Unjournalled.inv {s : PublishingState J} (h : Unjournalled s) : s.ledger.Inv := by
  obtain ⟨hrecovery, hcleanup, hsent, -⟩ := h
  have hstored : s.ledger.stored = [] := by
    simp [Ledger.stored, storedConversion, storedCleanup, PublishingState.ledger, hrecovery, hcleanup]
  refine ⟨?_, ?_, ?_, ?_, ?_⟩
  · rw [hstored]
    exact fun m hm => absurd hm List.not_mem_nil
  · rw [hstored]
    exact fun m hm => absurd hm List.not_mem_nil
  · intro request hrequest
    rw [show s.ledger.sent = [] from hsent] at hrequest
    exact absurd hrequest List.not_mem_nil
  · intro hsome
    rw [show s.ledger.recovery = none from hrecovery] at hsome
    cases hsome
  · intro hsome
    rw [show s.ledger.cleanup = none from hcleanup] at hsome
    cases hsome

omit [DecidableEq J] in
/-- An operation that is sound on its desk is sound in a run. -/
theorem Sound.wp_program {α : Type} {slot : ℕ} {s : PublishingState J} {p : PublishingService J α}
    (h : Sound slot (desk slot s) p) (hinv : s.ledger.Inv) :
    wp Eq (fun s s' => s.ledger.Step s'.ledger ∧ s'.ledger.Inv) p.toProgram (fun _ _ => True) s := by
  have hstays : ∀ s, (deskScope slot).Others s s := fun (s : PublishingState J) => ⟨rfl, id⟩
  have hguar : wp (deskScope slot).Others (fun s s' => s.ledger.Guar s'.ledger) p.toProgram
      (fun _ _ => True) s := by
    refine wp_toProgram (wpe_mono (h s rfl trivial) ?_ ?_)
    · exact fun _ _ _ => trivial
    · exact fun _ _ _ => trivial
  exact wp_along hstays hguar hinv

/-- Conditional writes are journalled ahead. -/
theorem conditional_writes_are_journalled (docs : Documents J) (policies : Policies J)
    {s s' : PublishingState J} (h : JournalTransition docs policies s s') :
    s.ledger.Step s'.ledger := by
  have hinit : ∀ s : PublishingState J, Unjournalled s → s.ledger.Inv := fun _ hs => hs.inv
  have hop : ∀ (s : PublishingState J) (o : JournalOp J), s.ledger.Inv → True →
      wp Eq (fun s s' => s.ledger.Step s'.ledger ∧ s'.ledger.Inv) (o.program docs policies)
        (fun _ _ => True) s := by
    intro s o hinv _
    cases o with
    | update slot initial patch =>
      have hsound : Sound slot (desk slot s) (updateEnforcement docs slot policies initial patch) :=
        sound_updateEnforcement hinv initial patch
      exact hsound.wp_program hinv
    | restore slot =>
      have hsound : Sound slot (desk slot s) (restoreGateway docs policies slot) :=
        sound_restoreGateway hinv
      exact hsound.wp_program hinv
    | remove initial =>
      have hsound : Sound 0 (desk 0 s) (remove initial) := sound_remove initial
      exact hsound.wp_program hinv
    | elsewhere change =>
      have hsound : Sound 0 (desk 0 s) (writeEdge fun e => .ok ((), change e)) :=
        (idle_writeEdge _).does (fun _ => trivial) fun _ => trivial
      exact hsound.wp_program hinv
  exact Serial.transition hinit hop h

end Runs

section Worlds

def plainDocuments : Documents ℕ where
  rewrite document _ := document
  policy _ _ _ _ := []
  preserve generated _ := generated
  importer _ := []
  policyMatches _ _ _ _ := true
  unenrolled _ := false
  replayable _ _ := true

def plainPolicies : Policies ℕ where
  restorable _ _ := true
  settings _ := 0
  firstClass _ := []
  palette row := ⟨0, row.pluginName, 0, row.enabled, row.config, row.trigger, 0, none⟩
  generatedMatches _ _ _ := false

/-- An API whose proxy is gone. -/
def missingWorld : PublishingState ℕ where
  edge := { proxies := fun _ => none, configs := [], specs := [], etag := 0, fresh := 50 }
  api := some ⟨⟨"orders", .docsOnly, none, none, none, 0⟩, none, .repairRequired⟩
  currentSpec := some ⟨5, 7⟩
  palette := []
  recovery := none
  cleanup := none
  memory := fun _ => none
  rebuild := fun _ => none
  fresh := 0
  rollbacks := 0
  sent := []
  acked := []

/-- The restore of the API up to the adoption of its proxy, the refusal of that
transaction, and `n` actions of its cleanup. -/
def refusedAdoption (n : ℕ) : List Outcome :=
  List.replicate 18 .ok ++ [.down] ++ List.replicate n .ok

theorem reachable_missingWorld : Serial.Reachable
    (JournalOp.program plainDocuments plainPolicies) Unjournalled (fun _ _ => True)
    missingWorld none :=
  .init ⟨rfl, rfl, rfl, rfl⟩

/-- The removal of a failed attempt is sent while its entry is pending. -/
theorem conditional_writes_are_journalled_removal :
    ∃ s s', JournalTransition plainDocuments plainPolicies s s' ∧
      s'.sent = ⟨.remove, 1, 2⟩ :: s.sent ∧ s.ledger.pending = [⟨.remove, 1, 2⟩] ∧
      s.ledger.Step s'.ledger := by
  obtain ⟨s, s', htransition, hP⟩ := Serial.exists_transition (.restore 0) (refusedAdoption 5) .ok
    (fun s s' => s'.sent == ⟨.remove, 1, 2⟩ :: s.sent && s.ledger.pending == [⟨.remove, 1, 2⟩])
    reachable_missingWorld trivial (by decide +kernel)
  simp only [Bool.and_eq_true, beq_iff_eq] at hP
  exact ⟨s, s', htransition, hP.1, hP.2, conditional_writes_are_journalled _ _ htransition⟩

/-- The failed restore drops its cleanup journal while the stored entry is not
acknowledged. -/
theorem failed_restore_drops_pending_cleanup :
    ∃ s s', JournalTransition plainDocuments plainPolicies s s' ∧
      s.cleanup.isSome = true ∧ s.ledger.pending ≠ [] ∧ s'.cleanup = none := by
  obtain ⟨s, s', htransition, hP⟩ := Serial.exists_transition (.restore 0) (refusedAdoption 7) .ok
    (fun s s' => s.cleanup.isSome && !s.ledger.pending.isEmpty && s'.cleanup.isNone)
    reachable_missingWorld trivial (by decide +kernel)
  simp only [Bool.and_eq_true, Bool.not_eq_true', List.isEmpty_eq_false_iff,
    Option.isNone_iff_eq_none] at hP
  exact ⟨s, s', htransition, hP.1.1, hP.1.2, hP.2⟩

end Worlds

end FerrumNexus.Publishing
