import FerrumNexus.Egress.Verdicts

/-!
# The summary of an attestation

The weakest policy does not depend on the order of the streams, and an
attestation that is accepted carries the summary of the streams it lists.
-/
namespace FerrumNexus.Egress

open Formats

/-! ## The weakest policy -/

theorem weakenPolicy_comm (a b : DataPlaneEgressPolicy) : weakenPolicy a b = weakenPolicy b a := by
  simp only [weakenPolicy, or_comm, Bool.and_comm, Bool.or_comm]

theorem weakenPolicy_right_comm (a b c : DataPlaneEgressPolicy) :
    weakenPolicy (weakenPolicy a b) c = weakenPolicy (weakenPolicy a c) b := by
  have hmode : (weakenPolicy (weakenPolicy a b) c).mode = (weakenPolicy (weakenPolicy a c) b).mode := by
    rcases a with ⟨ma, _⟩
    rcases b with ⟨mb, _⟩
    rcases c with ⟨mc, _⟩
    cases ma <;> cases mb <;> cases mc <;> rfl
  have hallow : (weakenPolicy (weakenPolicy a b) c).allowCidrOverridesPresent =
      (weakenPolicy (weakenPolicy a c) b).allowCidrOverridesPresent :=
    Bool.or_right_comm _ _ _
  have hbuilt (x y : DataPlaneEgressPolicy) : weakenPolicy x y =
      ⟨(weakenPolicy x y).mode, (weakenPolicy x y).mode.allowed, (weakenPolicy x y).mode.blocked,
        x.dangerousRangesBlocked && y.dangerousRangesBlocked,
        (weakenPolicy x y).allowCidrOverridesPresent,
        x.denyCidrOverridesPresent && y.denyCidrOverridesPresent,
        (weakenPolicy x y).mode == .publicOnly &&
          !(weakenPolicy x y).allowCidrOverridesPresent⟩ := rfl
  rw [hbuilt (weakenPolicy a b) c, hbuilt (weakenPolicy a c) b, hmode, hallow]
  simp only [weakenPolicy, Bool.and_right_comm]

theorem weakenStep_comm (weakest : Option DataPlaneEgressPolicy) (a b : DataPlaneEgressPolicy) :
    weakenStep (weakenStep weakest a) b = weakenStep (weakenStep weakest b) a := by
  cases weakest with
  | none => exact congrArg some (weakenPolicy_comm a b)
  | some weakest => exact congrArg some (weakenPolicy_right_comm weakest a b)

/-- The weakest policy is that of the streams, in whatever order they are listed. -/
theorem weakestOf_perm {planes other : List DataPlaneEgressEntry} (h : planes.Perm other) :
    weakestOf planes = weakestOf other :=
  (h.filterMap _).foldl_eq' (fun a _ b _ weakest => weakenStep_comm weakest a b) none

theorem summaryOf_perm (connected : ℕ) {planes other : List DataPlaneEgressEntry}
    (h : planes.Perm other) :
    summaryOf connected planes = { summaryOf connected other with dataPlanes := planes } := by
  unfold summaryOf
  rw [weakestOf_perm h, (h.filterMap DataPlaneEgressEntry.policy).length_eq]

/-- What the weakest of some policies is: weak wherever one of them is. -/
structure IsWeakest (policies : List DataPlaneEgressPolicy) (weakest : DataPlaneEgressPolicy) :
    Prop where
  publicOnly : weakest.mode = .publicOnly ↔ ∀ p ∈ policies, p.mode = .publicOnly
  privateOnly : weakest.mode = .privateOnly ↔ ∀ p ∈ policies, p.mode = .privateOnly
  dangerous : weakest.dangerousRangesBlocked = true ↔
    ∀ p ∈ policies, p.dangerousRangesBlocked = true
  allows : weakest.allowCidrOverridesPresent = true ↔
    ∃ p ∈ policies, p.allowCidrOverridesPresent = true
  denies : weakest.denyCidrOverridesPresent = true ↔
    ∀ p ∈ policies, p.denyCidrOverridesPresent = true

theorem isWeakest_weaken {policies : List DataPlaneEgressPolicy} {a b : DataPlaneEgressPolicy}
    (h : IsWeakest policies a) : IsWeakest (policies ++ [b]) (weakenPolicy a b) := by
  have hpublic : (weakenPolicy a b).mode = .publicOnly ↔
      a.mode = .publicOnly ∧ b.mode = .publicOnly := by
    simp only [weakenPolicy]
    cases a.mode <;> cases b.mode <;> simp
  have hprivate : (weakenPolicy a b).mode = .privateOnly ↔
      a.mode = .privateOnly ∧ b.mode = .privateOnly := by
    simp only [weakenPolicy]
    cases a.mode <;> cases b.mode <;> simp
  constructor
  · rw [hpublic, h.publicOnly]; simp [or_imp, forall_and]
  · rw [hprivate, h.privateOnly]; simp [or_imp, forall_and]
  · simp [weakenPolicy, h.dangerous, or_imp, forall_and]
  · simp [weakenPolicy, h.allows, or_and_right, exists_or]
  · simp [weakenPolicy, h.denies, or_imp, forall_and]

/-- The fold over the streams is the weakest of what they reported. -/
theorem isWeakest_foldl (policies : List DataPlaneEgressPolicy) :
    (policies = [] ∧ policies.foldl weakenStep none = none) ∨
      ∃ weakest, policies.foldl weakenStep none = some weakest ∧ IsWeakest policies weakest := by
  induction policies using List.reverseRecOn with
  | nil => exact .inl ⟨rfl, rfl⟩
  | append_singleton policies p ih =>
    right
    rw [List.foldl_append]
    rcases ih with ⟨rfl, -⟩ | ⟨weakest, hfold, hw⟩
    · exact ⟨p, rfl, by constructor <;> simp⟩
    · exact ⟨weakenPolicy weakest p, by rw [hfold]; rfl, isWeakest_weaken hw⟩

/-! ## Accepted attestations -/

section Accepted

variable {ν : Type} {value : Json ν}

theorem member_of_equalMembers [DecidableEq ν] {ms ns : Row ν} (h : equalMembers ms ns = true) {name : String}
    (hmem : (name, value) ∈ ms) :
    ∃ other, member ns name = some other ∧ isDeepStrictEqual value other = true := by
  have hat := equalMembers_iff.1 h (name, value) hmem
  cases hother : member ns name with
  | none => simp [hother, equalAt] at hat
  | some other => exact ⟨other, rfl, by simpa [hother, equalAt] using hat⟩

theorem stringAt_eq {row : Row ν} {key text : String} (h : stringAt row key = some text) :
    member row key = some (.string text) := by
  unfold stringAt at h
  split at h
  · simp_all
  · simp at h

theorem boolAt_eq {row : Row ν} {key : String} {b : Bool} (h : boolAt row key = some b) :
    member row key = some (.bool b) := by
  unfold boolAt at h
  split at h
  · simp_all
  · simp at h

theorem EgressMode.ofText_eq_some {text : String} {mode : EgressMode}
    (h : EgressMode.ofText text = some mode) : mode.text = text := by
  simpa using List.find?_some h

theorem EgressMode.text_injective : Function.Injective EgressMode.text := by
  intro a b h
  cases a <;> cases b <;> first | rfl | exact absurd h (by decide)

/-- A policy as the parser makes it: its classes and its guarantee follow from the rest. -/
structure Canonical (policy : DataPlaneEgressPolicy) : Prop where
  allowed : policy.modeAllowedIpClasses = policy.mode.allowed
  blocked : policy.modeBlockedIpClasses = policy.mode.blocked
  guaranteed : policy.publicOnlyGuaranteed =
    (policy.mode == .publicOnly && !policy.allowCidrOverridesPresent)

/-- What an accepted policy says of its text. -/
structure ParsedAs (row : Row ν) (policy : DataPlaneEgressPolicy) : Prop where
  canonical : Canonical policy
  mode : member row "mode" = some (.string policy.mode.text)
  dangerous : member row "dangerous_ranges_blocked" = some (.bool policy.dangerousRangesBlocked)
  allows : member row "allow_cidr_overrides_present" =
    some (.bool policy.allowCidrOverridesPresent)
  denies : member row "deny_cidr_overrides_present" = some (.bool policy.denyCidrOverridesPresent)

theorem parseDataPlanePolicy_eq_some {policy : DataPlaneEgressPolicy}
    (h : parseDataPlanePolicy value = some policy) :
    ∃ row, value = .object row ∧ ParsedAs row policy := by
  simp only [parseDataPlanePolicy, Option.bind_eq_bind, Option.bind_eq_some_iff,
    Option.guard_eq_some', Option.some.injEq] at h
  obtain ⟨row, hrow, -, -, mode, ⟨text, htext, hmode⟩, dangerous, hd, allows, ha, denies, hn,
    guaranteed, -, -, -, -, -, -, hg, rfl⟩ := h
  have hvalue : value = .object row := by
    unfold isRecord at hrow
    split at hrow
    · simp_all
    · simp at hrow
  refine ⟨row, hvalue, ⟨⟨rfl, rfl, hg⟩, ?_, boolAt_eq hd, boolAt_eq ha, boolAt_eq hn⟩⟩
  rw [stringAt_eq htext, EgressMode.ofText_eq_some hmode]

/-- Deep equality of two policies is equality of what they say. -/
theorem eq_of_isDeepStrictEqual [DecidableEq ν] {row : Row ν} {a b : DataPlaneEgressPolicy}
    (ha : ParsedAs row a) (hb : Canonical b)
    (h : isDeepStrictEqual (.object row) (b.json : Json ν) = true) : a = b := by
  obtain ⟨-, hmembers⟩ := Bool.and_eq_true_iff.1 h
  have hat {name : String} {value : Json ν} (hv : member row name = some value) :=
    member_of_equalMembers hmembers (mem_of_member hv)
  have hmode : a.mode = b.mode := by
    obtain ⟨other, ho, he⟩ := hat ha.mode
    obtain rfl : Json.string b.mode.text = other := Option.some.inj ho
    exact EgressMode.text_injective (eq_of_beq he)
  have hdangerous : a.dangerousRangesBlocked = b.dangerousRangesBlocked := by
    obtain ⟨other, ho, he⟩ := hat ha.dangerous
    obtain rfl : Json.bool b.dangerousRangesBlocked = other := Option.some.inj ho
    exact eq_of_beq he
  have hallows : a.allowCidrOverridesPresent = b.allowCidrOverridesPresent := by
    obtain ⟨other, ho, he⟩ := hat ha.allows
    obtain rfl : Json.bool b.allowCidrOverridesPresent = other := Option.some.inj ho
    exact eq_of_beq he
  have hdenies : a.denyCidrOverridesPresent = b.denyCidrOverridesPresent := by
    obtain ⟨other, ho, he⟩ := hat ha.denies
    obtain rfl : Json.bool b.denyCidrOverridesPresent = other := Option.some.inj ho
    exact eq_of_beq he
  have hallowed := ha.canonical.allowed.trans (hmode ▸ hb.allowed.symm)
  have hblocked := ha.canonical.blocked.trans (hmode ▸ hb.blocked.symm)
  have hguaranteed : a.publicOnlyGuaranteed = b.publicOnlyGuaranteed := by
    rw [ha.canonical.guaranteed, hb.guaranteed, hmode, hallows]
  cases a
  cases b
  simp_all

theorem parseDataPlaneEntry_eq_some {entry : DataPlaneEgressEntry}
    (h : parseDataPlaneEntry value = some entry) {policy : DataPlaneEgressPolicy}
    (hpolicy : entry.policy = some policy) : Canonical policy := by
  simp only [parseDataPlaneEntry, Option.bind_eq_bind, Option.bind_eq_some_iff,
    Option.guard_eq_some', Option.some.injEq] at h
  obtain ⟨row, -, -, -, nodeId, -, -, -, connectedAt, -, -, -, attestation, -, value, -, report,
    hreport, rfl⟩ := h
  unfold parseReport at hreport
  split_ifs at hreport
  · obtain ⟨parsed, hparsed, rfl⟩ := Option.map_eq_some_iff.1 hreport
    obtain rfl : parsed = policy := Option.some.inj hpolicy
    obtain ⟨row, -, hrow⟩ := parseDataPlanePolicy_eq_some hparsed
    exact hrow.canonical
  · split at hreport
    · obtain rfl := Option.some.inj hreport
      simp at hpolicy
    · simp at hreport

theorem exists_of_mapM {α β : Type} {f : α → Option β} {xs : List α} {ys : List β}
    (h : xs.mapM f = some ys) : ∀ y ∈ ys, ∃ x ∈ xs, f x = some y := by
  induction xs generalizing ys with
  | nil =>
    obtain rfl : [] = ys := by simpa using h
    simp
  | cons x xs ih =>
    rw [List.mapM_cons, Option.bind_eq_bind, Option.bind_eq_some_iff] at h
    obtain ⟨y, hy, h⟩ := h
    obtain ⟨rest, hrest, h⟩ := Option.bind_eq_some_iff.1 h
    obtain rfl : y :: rest = ys := Option.some.inj h
    intro z hz
    rcases List.mem_cons.1 hz with rfl | hz
    · exact ⟨x, by simp, hy⟩
    · obtain ⟨w, hw, hf⟩ := ih hrest z hz
      exact ⟨w, by simp [hw], hf⟩

theorem canonical_of_planesAt {row : Row ν} {key : String} {planes : List DataPlaneEgressEntry}
    (h : planesAt row key = some planes) :
    ∀ policy ∈ planes.filterMap DataPlaneEgressEntry.policy, Canonical policy := by
  intro policy hpolicy
  obtain ⟨entry, hentry, hp⟩ := List.mem_filterMap.1 hpolicy
  unfold planesAt at h
  split at h
  · obtain ⟨item, -, hitem⟩ := exists_of_mapM h entry hentry
    exact parseDataPlaneEntry_eq_some hitem hp
  · simp at h

theorem canonical_weaken (a b : DataPlaneEgressPolicy) : Canonical (weakenPolicy a b) :=
  ⟨rfl, rfl, rfl⟩

theorem canonical_foldl {policies : List DataPlaneEgressPolicy}
    (h : ∀ policy ∈ policies, Canonical policy) {weakest : DataPlaneEgressPolicy}
    (hw : policies.foldl weakenStep none = some weakest) : Canonical weakest := by
  induction policies using List.reverseRecOn with
  | nil => simp at hw
  | append_singleton policies p ih =>
    rw [List.foldl_append] at hw
    cases hfold : policies.foldl weakenStep none with
    | none =>
      rw [hfold] at hw
      obtain rfl : p = weakest := Option.some.inj hw
      exact h p (by simp)
    | some known =>
      rw [hfold] at hw
      obtain rfl : weakenPolicy known p = weakest := Option.some.inj hw
      exact canonical_weaken known p

/-- The weakest policy of the answer, read back, is the one of its streams. -/
theorem parse_weakest [DecidableEq ν] {weakest : Option DataPlaneEgressPolicy}
    (hvalue : isPolicyOrNull value = true) (hw : ∀ policy, weakest = some policy → Canonical policy)
    (h : isDeepStrictEqual value (weakest.elim .null DataPlaneEgressPolicy.json) = true) :
    parseDataPlanePolicy value = weakest := by
  cases hparse : parseDataPlanePolicy value with
  | none =>
    have hnull : value = .null := by
      unfold isPolicyOrNull at hvalue
      split at hvalue
      · rfl
      · simp [hparse] at hvalue
    subst hnull
    cases weakest with
    | none => rfl
    | some policy => exact absurd h Bool.false_ne_true
  | some parsed =>
    obtain ⟨row, rfl, hrow⟩ := parseDataPlanePolicy_eq_some hparse
    cases weakest with
    | none => exact absurd h Bool.false_ne_true
    | some policy => exact congrArg some (eq_of_isDeepStrictEqual hrow (hw policy rfl) h)

variable [DecidableEq ν] (format : NumberFormat ν)

/-- An attestation that is accepted is the summary of the streams it lists. -/
theorem readDataPlaneAttestation_eq_ok {attestation : DataPlaneEgressAttestation}
    (h : readDataPlaneAttestation format value = .ok attestation) :
    attestation = summaryOf attestation.connectedDataPlanes attestation.dataPlanes ∧
      attestation.dataPlanes.length = attestation.connectedDataPlanes := by
  unfold readDataPlaneAttestation at h
  cases hparse : parseAttestation format value with
  | none => simp [hparse] at h
  | some m =>
    simp only [hparse] at h
    split_ifs at h with hagrees
    obtain rfl := Except.ok.inj h
    simp only [parseAttestation, Option.bind_eq_bind, Option.bind_eq_some_iff,
      Option.guard_eq_some', Option.some.injEq] at hparse
    obtain ⟨row, -, -, -, -, -, connected, -, planes, hplanes, weakest, hweakest, -, hpolicy, rfl⟩ :=
      hparse
    simp only [summaryAgrees, Bool.and_eq_true, beq_iff_eq, hweakest, Option.any_some] at hagrees
    obtain ⟨⟨⟨⟨⟨hlength, -⟩, -⟩, hequal⟩, hcomplete⟩, hall⟩ := hagrees
    have hw := parse_weakest hpolicy
      (fun policy hp => canonical_foldl (canonical_of_planesAt hplanes) hp) hequal
    refine ⟨?_, hlength⟩
    simp only [hw, hcomplete, hall, Option.getD_some]
    rfl

/-- The attestation of a reading is one that was accepted. -/
theorem attestation_of_reading {nspace : String} {reading : BackendEgressPolicyReading}
    {attestation : DataPlaneEgressAttestation}
    (h : readBackendEgressPolicy format value nspace = some reading)
    (ha : reading.policy.dataPlaneAttestation = some attestation) :
    ∃ attested, readDataPlaneAttestation format attested = .ok attestation := by
  simp only [readBackendEgressPolicy, Option.bind_eq_bind, Option.bind_eq_some_iff,
    Option.some.injEq] at h
  obtain ⟨members, -, policy, hpolicy, rfl⟩ := h
  have hnone : policy.dataPlaneAttestation = none := by
    simp only [readProcessPolicy, Option.bind_eq_bind, Option.bind_eq_some_iff,
      Option.guard_eq_some', Option.some.injEq] at hpolicy
    obtain ⟨-, -, -, -, -, -, -, -, -, -, scope, -, mode, -, dangerous, -, allows, -, denies, -,
      guaranteed, -, -, -, -, -, -, -, -, -, rfl⟩ := hpolicy
    rfl
  cases hmember : member members DATA_PLANE_ATTESTATION_KEY with
  | none =>
    simp only [hmember, Option.elim_none] at ha
    simp [hnone] at ha
  | some attested =>
    simp only [hmember, Option.elim_some, withAttestation] at ha
    split_ifs at ha
    · simp [hnone] at ha
    · cases hread : readDataPlaneAttestation format attested with
      | error problem => simp [hread, hnone] at ha
      | ok accepted =>
        simp only [hread, Option.some.injEq] at ha
        exact ⟨attested, ha ▸ hread⟩

end Accepted

end FerrumNexus.Egress
