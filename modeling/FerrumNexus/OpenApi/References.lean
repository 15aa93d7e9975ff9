import Mathlib.Data.Fintype.Basic
import FerrumNexus.OpenApi.Documents
import FerrumNexus.Sequences.Chains

/-!
# Following Reference Objects

`createOpenApiRefResolver` follows a chain of local references to the object it
names, and remembers for every reference on the way where its chain ends and how
many lookups that takes. The memo cannot be told from the answers: whatever was
resolved before, a resolution is what a walk without a memo finds.
-/
namespace FerrumNexus.OpenApi

open Sequences

/-- Longest chain followed. -/
def MAX_OPENAPI_REF_HOPS : ℕ := 32

inductive OpenApiRefFailure
  | external
  | missing
  | cycle
  | depth
  deriving DecidableEq, Repr

/-- Reference Object siblings that replace the target's own members. -/
structure OpenApiRefOverrides where
  summary : Option String
  description : Option String
  deriving DecidableEq, Repr

def NO_OVERRIDES : OpenApiRefOverrides := ⟨none, none⟩

inductive OpenApiRefResolution (ι : Type)
  | ok (value : ι) (overrides : OpenApiRefOverrides)
  | failed (ref : String) (reason : OpenApiRefFailure)
  deriving DecidableEq

/-- What following one `$ref` leads to, and the lookups it takes. -/
inductive ChainOutcome (ι : Type)
  | ok (value : ι) (overrides : OpenApiRefOverrides) (length : ℕ)
  | failed (ref : String) (reason : OpenApiRefFailure) (length : ℕ)
  deriving DecidableEq

def ChainOutcome.length {ι : Type} : ChainOutcome ι → ℕ
  | .ok _ _ length => length
  | .failed _ _ length => length

variable {ι : Type}

/-- `openApiRefOf`, for a value that is an object. -/
def Document.refOf (doc : Document ι) (id : ι) : Option String := string? (doc.own id "$ref")

/-- `outer` siblings of a Reference Object, falling back to `inner` per field. -/
def mergeOverrides (doc : Document ι) (outer : ι) (inner : OpenApiRefOverrides) :
    OpenApiRefOverrides where
  summary := (string? (doc.own outer "summary")).or inner.summary
  description := (string? (doc.own outer "description")).or inner.description

section Resolver

variable (doc : Document ι) (siblingsApply : Bool)

def siblings (outer : ι) (inner : OpenApiRefOverrides) : OpenApiRefOverrides :=
  if siblingsApply then mergeOverrides doc outer inner else NO_OVERRIDES

/-- One turn of the loop of `follow`: how a chain ends at `ref`, or the
Reference Object it names and the next reference. -/
def refStep (ref : String) : ChainOutcome ι ⊕ (ι × String) :=
  if ref.toList.head? ≠ some '#' then .inl (.failed ref .external 0)
  else
    match doc.record? (doc.walkPointer ref) with
    | none => .inl (.failed ref .missing 1)
    | some target =>
      match doc.refOf target with
      | none => .inl (.ok target NO_OVERRIDES 1)
      | some next => .inr (target, next)

/-- Every reference on a loop reports itself. -/
def onLoop (ref : String) : ChainOutcome ι := .failed ref .cycle 0

/-- One turn of the loop that goes back along the chain. -/
def onLink (target : ι) : ChainOutcome ι → ChainOutcome ι
  | .ok value overrides length => .ok value (siblings doc siblingsApply target overrides) (length + 1)
  | .failed ref reason length =>
    if reason = .cycle then .failed ref reason length else .failed ref reason (length + 1)

/-- `resolve` once `follow` has an outcome. -/
def conclude (value : ι) (ref : String) (outcome : ChainOutcome ι) : OpenApiRefResolution ι :=
  if MAX_OPENAPI_REF_HOPS < outcome.length then .failed ref .depth
  else
    match outcome with
    | .failed ref' reason _ => .failed ref' reason
    | .ok target overrides _ => .ok target (siblings doc siblingsApply value overrides)

/-- `outcomes`: what the resolver remembers. -/
abbrev Outcomes (ι : Type) := String → Option (ChainOutcome ι)

variable [Fintype ι]

/-- More than the references a chain can go through before one repeats. -/
def hops (_ : Document ι) : ℕ := Fintype.card ι + 2

def follow (outcomes : Outcomes ι) (start : String) : Option (Outcomes ι) :=
  Chains.follow (refStep doc) onLoop (onLink doc siblingsApply) (hops doc) outcomes start

/-- `resolve`, with what the resolver remembers afterwards; `none` for a walk
that does not end. -/
def resolve (outcomes : Outcomes ι) (value : ι) : Option (OpenApiRefResolution ι × Outcomes ι) :=
  match doc.refOf value with
  | none => some (.ok value NO_OVERRIDES, outcomes)
  | some ref => do
    let outcomes ← follow doc siblingsApply outcomes ref
    let outcome ← outcomes ref
    pure (conclude doc siblingsApply value ref outcome, outcomes)

/-- A resolver after it has resolved `earlier`, one after the other. -/
def resolveAll (outcomes : Outcomes ι) (earlier : List ι) : Option (Outcomes ι) :=
  earlier.foldlM (fun outcomes value => (resolve doc siblingsApply outcomes value).map Prod.snd)
    outcomes

/-- What a walk without a memo answers. -/
def walk (value : ι) : Option (OpenApiRefResolution ι) :=
  match doc.refOf value with
  | none => some (.ok value NO_OVERRIDES)
  | some ref =>
    (Chains.chase (refStep doc) onLoop (onLink doc siblingsApply) (hops doc) [] ref).map
      (conclude doc siblingsApply value ref)

end Resolver

/-! ## The memo and the plain walk -/

section Proofs

variable {doc : Document ι} {siblingsApply : Bool}

theorem onLink_onLoop (target : ι) (ref : String) :
    onLink doc siblingsApply target (onLoop ref) = onLoop ref := rfl

variable {next ref : String}

theorem refStep_inr {target : ι} (h : refStep doc ref = .inr (target, next)) :
    doc.refOf target = some next := by
  rw [refStep] at h
  split at h
  · cases h
  split at h
  · cases h
  split at h
  · cases h
  · rename_i hnext
    cases h
    exact hnext

variable (doc siblingsApply) in
abbrev RefValue : String → ChainOutcome ι → Prop :=
  Chains.Value (refStep doc) onLoop (onLink doc siblingsApply)

variable (doc siblingsApply) in
abbrev SoundOutcomes : Outcomes ι → Prop :=
  Chains.Sound (refStep doc) onLoop (onLink doc siblingsApply)

/-! ## What the plain walk finds -/

variable (doc) in
/-- `n` references lead from an object to one that has no `$ref`. -/
inductive Reaches : ι → ℕ → ι → Prop
  | here {value : ι} (h : doc.refOf value = none) : Reaches value 0 value
  | next {value target found : ι} {ref : String} {n : ℕ} (href : doc.refOf value = some ref)
      (hlocal : ref.toList.head? = some '#')
      (htarget : doc.record? (doc.walkPointer ref) = some target) (h : Reaches target n found) :
      Reaches value (n + 1) found

theorem Reaches.unique {value found found' : ι} {n n' : ℕ} (h : Reaches doc value n found)
    (h' : Reaches doc value n' found') : n = n' ∧ found = found' := by
  induction h generalizing n' with
  | here hnone =>
    cases h' with
    | here => exact ⟨rfl, rfl⟩
    | next href =>
      rw [hnone] at href
      cases href
  | next href _ htarget _ ih =>
    cases h' with
    | here hnone =>
      rw [href] at hnone
      cases hnone
    | next href' _ htarget' h' =>
      rw [href, Option.some.injEq] at href'
      subst href'
      rw [htarget, Option.some.injEq] at htarget'
      subst htarget'
      obtain ⟨rfl, rfl⟩ := ih h'
      exact ⟨rfl, rfl⟩

theorem refStep_of_target {target : ι} (hlocal : ref.toList.head? = some '#')
    (htarget : doc.record? (doc.walkPointer ref) = some target) :
    refStep doc ref = match doc.refOf target with
      | none => .inl (.ok target NO_OVERRIDES 1)
      | some next => .inr (target, next) := by
  rw [refStep, if_neg (not_not_intro hlocal), htarget]

/-- The chain of a reference that leads to an object has that object for its
outcome, and the lookups for its length. -/
theorem Reaches.value {value found : ι} {n : ℕ} (h : Reaches doc value n found)
    (href : doc.refOf value = some ref) :
    ∃ overrides, RefValue doc siblingsApply ref (.ok found overrides n) := by
  induction h generalizing ref with
  | here hnone =>
    rw [href] at hnone
    cases hnone
  | @next value target found ref' n href' hlocal htarget hrest ih =>
    rw [href, Option.some.injEq] at href'
    subst href'
    have hstep := refStep_of_target hlocal htarget
    cases hnext : doc.refOf target with
    | none =>
      rw [hnext] at hstep
      have hhere := hrest.unique (.here hnext)
      obtain ⟨rfl, rfl⟩ := hhere
      exact ⟨_, Chains.value_end hstep⟩
    | some next =>
      rw [hnext] at hstep
      obtain ⟨overrides, hvalue⟩ := ih hnext
      -- a reference further on in the chain is nearer to its end
      let P : String → Prop := fun r => ∃ t m, doc.refOf t = some r ∧ Reaches doc t m found ∧ m ≤ n
      have hclosed : Chains.Closed (refStep doc) P := by
        rintro r t' r' ⟨t, m, hr, hreach, hm⟩ hr'
        have htr' := refStep_inr hr'
        cases hreach with
        | here hnone =>
          rw [hr] at hnone
          cases hnone
        | @next _ t'' _ r'' m href'' hlocal'' htarget'' hreach'' =>
          rw [hr, Option.some.injEq] at href''
          subst href''
          rw [refStep_of_target hlocal'' htarget''] at hr'
          cases hnext'' : doc.refOf t'' with
          | none =>
            rw [hnext''] at hr'
            cases hr'
          | some r'' =>
            rw [hnext''] at hr'
            cases hr'
            exact ⟨t', m, hnext'', hreach'', by omega⟩
      have hnot : ¬ P ref := by
        rintro ⟨t, m, ht, hreach, hm⟩
        cases hreach with
        | here hnone =>
          rw [ht] at hnone
          cases hnone
        | @next _ t'' _ r'' m href'' hlocal'' htarget'' hreach'' =>
          rw [ht, Option.some.injEq] at href''
          subst href''
          rw [htarget, Option.some.injEq] at htarget''
          subst htarget''
          have := (hrest.unique hreach'').1
          omega
      exact ⟨_, hvalue.over hclosed hnot ⟨target, n, hnext, hrest, le_rfl⟩ hstep⟩

/-- And every chain with an object for its outcome leads to it. -/
theorem reaches_of_chase {n : ℕ} {seen : List String} {value found : ι}
    {overrides : OpenApiRefOverrides} {length : ℕ} (href : doc.refOf value = some ref)
    (h : Chains.chase (refStep doc) onLoop (onLink doc siblingsApply) n seen ref =
      some (.ok found overrides length)) : Reaches doc value length found := by
  induction n generalizing seen value ref overrides length with
  | zero => cases h
  | succ n ih =>
    rw [Chains.chase] at h
    split at h
    · cases h
    by_cases hlocal : ref.toList.head? = some '#'
    swap
    · rw [refStep, if_pos hlocal] at h
      cases h
    cases htarget : doc.record? (doc.walkPointer ref) with
    | none =>
      rw [refStep, if_neg (not_not_intro hlocal), htarget] at h
      cases h
    | some target =>
      rw [refStep_of_target hlocal htarget] at h
      cases hnext : doc.refOf target with
      | none =>
        simp only [hnext, Option.some.injEq, ChainOutcome.ok.injEq] at h
        obtain ⟨rfl, -, rfl⟩ := h
        exact .next href hlocal htarget (.here hnext)
      | some next =>
        simp only [hnext] at h
        obtain ⟨outcome, hchase, hlink⟩ := Option.map_eq_some_iff.mp h
        cases outcome with
        | failed ref' reason length' =>
          rw [onLink] at hlink
          split at hlink <;> cases hlink
        | ok value' overrides' length' =>
          rw [onLink, ChainOutcome.ok.injEq] at hlink
          obtain ⟨rfl, -, rfl⟩ := hlink
          exact .next href hlocal htarget (ih hnext hchase)

/-! ## The memo -/

variable [Fintype ι]

/-- The references that objects of the document make. -/
def references (doc : Document ι) : Finset String :=
  Finset.univ.biUnion fun target => (doc.refOf target).toFinset

theorem refStep_references {target : ι} (h : refStep doc ref = .inr (target, next)) :
    next ∈ references doc := by
  refine Finset.mem_biUnion.mpr ⟨target, Finset.mem_univ target, ?_⟩
  rw [refStep_inr h]
  simp

theorem references_card : (references doc).card + 2 ≤ hops doc := by
  have hcard : (references doc).card ≤ ∑ target : ι, (doc.refOf target).toFinset.card :=
    Finset.card_biUnion_le
  have hone : ∑ target : ι, (doc.refOf target).toFinset.card ≤ Fintype.card ι := by
    have hle : ∀ target ∈ Finset.univ, (doc.refOf target).toFinset.card ≤ 1 := by
      intro target _
      cases doc.refOf target <;> simp
    simpa using Finset.sum_le_card_nsmul Finset.univ _ 1 hle
  rw [hops]
  omega

variable {outcomes : Outcomes ι}

theorem follow_spec (h : SoundOutcomes doc siblingsApply outcomes) (ref : String) :
    ∃ outcomes' outcome, follow doc siblingsApply outcomes ref = some outcomes' ∧
      SoundOutcomes doc siblingsApply outcomes' ∧ outcomes' ref = some outcome ∧
      RefValue doc siblingsApply ref outcome :=
  Chains.follow_value onLink_onLoop (fun _ _ _ => refStep_references) references_card h ref

theorem walk_of_value {value : ι} {outcome : ChainOutcome ι} (href : doc.refOf value = some ref)
    (h : RefValue doc siblingsApply ref outcome) :
    walk doc siblingsApply value = some (conclude doc siblingsApply value ref outcome) := by
  have hchase := Chains.chase_value (fun _ _ _ => refStep_references) references_card h
  simp only [walk, href, hchase, Option.map_some]

/-- One resolution: it ends, answers as the plain walk does and leaves the memo
sound. -/
theorem resolve_spec (h : SoundOutcomes doc siblingsApply outcomes) (value : ι) :
    ∃ outcomes' resolution, resolve doc siblingsApply outcomes value = some (resolution, outcomes') ∧
      SoundOutcomes doc siblingsApply outcomes' ∧
      walk doc siblingsApply value = some resolution := by
  cases href : doc.refOf value with
  | none => exact ⟨outcomes, .ok value NO_OVERRIDES, by simp [resolve, href], h, by simp [walk, href]⟩
  | some ref =>
    obtain ⟨outcomes', outcome, hfollow, hsound, hmem, hvalue⟩ := follow_spec h ref
    refine ⟨outcomes', _, ?_, hsound, walk_of_value href hvalue⟩
    simp [resolve, href, hfollow, hmem]

theorem resolveAll_spec (h : SoundOutcomes doc siblingsApply outcomes) (earlier : List ι) :
    ∃ outcomes', resolveAll doc siblingsApply outcomes earlier = some outcomes' ∧
      SoundOutcomes doc siblingsApply outcomes' := by
  induction earlier generalizing outcomes with
  | nil => exact ⟨outcomes, rfl, h⟩
  | cons value earlier ih =>
    obtain ⟨outcomes₁, resolution, hresolve, hsound, -⟩ := resolve_spec h value
    obtain ⟨outcomes₂, hrest, hsound₂⟩ := ih hsound
    refine ⟨outcomes₂, ?_, hsound₂⟩
    rw [resolveAll] at hrest ⊢
    simp [hresolve, hrest]

variable (siblingsApply) in
/-- The plain walk finds the object an object's references lead to, within the
bound. -/
theorem walk_ok_iff (value found : ι) :
    (∃ overrides, walk doc siblingsApply value = some (.ok found overrides)) ↔
      ∃ n ≤ MAX_OPENAPI_REF_HOPS, Reaches doc value n found := by
  cases href : doc.refOf value with
  | none =>
    constructor
    · rintro ⟨overrides, h⟩
      simp only [walk, href, Option.some.injEq, OpenApiRefResolution.ok.injEq] at h
      exact ⟨0, Nat.zero_le _, h.1 ▸ .here href⟩
    · rintro ⟨n, -, h⟩
      obtain ⟨-, rfl⟩ := h.unique (.here href)
      exact ⟨NO_OVERRIDES, by simp [walk, href]⟩
  | some ref =>
    constructor
    · rintro ⟨overrides, h⟩
      simp only [walk, href] at h
      obtain ⟨outcome, hchase, hconclude⟩ := Option.map_eq_some_iff.mp h
      by_cases hlength : MAX_OPENAPI_REF_HOPS < outcome.length
      · rw [conclude.eq_def, if_pos hlength] at hconclude
        cases hconclude
      rw [conclude.eq_def, if_neg hlength] at hconclude
      cases outcome with
      | failed ref' reason length => cases hconclude
      | ok target overrides' length =>
        simp only [OpenApiRefResolution.ok.injEq] at hconclude
        obtain ⟨rfl, -⟩ := hconclude
        exact ⟨length, not_lt.mp hlength, reaches_of_chase href hchase⟩
    · rintro ⟨n, hn, h⟩
      obtain ⟨overrides, hvalue⟩ : ∃ overrides, RefValue doc siblingsApply _ (.ok found overrides n) :=
        h.value href
      refine ⟨siblings doc siblingsApply value overrides, ?_⟩
      have hlength : ¬ MAX_OPENAPI_REF_HOPS < (ChainOutcome.ok found overrides n).length :=
        not_lt.mpr hn
      rw [walk_of_value href hvalue, conclude.eq_def, if_neg hlength]

/-- Whatever was resolved before, a resolution ends and answers what a walk
without a memo answers: the first object without a `$ref`, if one is reached
within the bound, and otherwise the walk's own failure. -/
theorem resolution_is_history_free (doc : Document ι) (siblingsApply : Bool) (earlier : List ι)
    (value : ι) :
    ∃ outcomes resolution outcomes',
      resolveAll doc siblingsApply (fun _ => none) earlier = some outcomes ∧
      resolve doc siblingsApply outcomes value = some (resolution, outcomes') ∧
      walk doc siblingsApply value = some resolution ∧
      ∀ found, (∃ overrides, resolution = .ok found overrides) ↔
        ∃ n ≤ MAX_OPENAPI_REF_HOPS, Reaches doc value n found := by
  have hempty : SoundOutcomes doc siblingsApply fun _ => none := Chains.sound_empty
  obtain ⟨outcomes, hall, hsound⟩ := resolveAll_spec hempty earlier
  obtain ⟨outcomes', resolution, hresolve, -, hwalk⟩ := resolve_spec hsound value
  refine ⟨outcomes, resolution, outcomes', hall, hresolve, hwalk, fun found => ?_⟩
  rw [← walk_ok_iff siblingsApply, hwalk]
  simp only [Option.some.injEq]

end Proofs

end FerrumNexus.OpenApi
