import FerrumNexus.Egress.Fleet

/-!
# The guarantee counts each data plane once

In every sequence of reads of a fleet, one read settles at most one `node_id` of
each slot, and a guarantee rests on that many distinct settled processes.
-/
namespace FerrumNexus.Egress

open Formats

section FirstConnected

variable (ceilMillis : List Char → ℤ)

theorem recordConnected_keys (known : List (String × ℤ)) (nodeId : String) (connectedAt : ℤ) :
    ∀ id, id ∈ (recordConnected known nodeId connectedAt).map Prod.fst ↔
      id ∈ known.map Prod.fst ∨ id = nodeId := by
  intro id
  induction known with
  | nil => simp [recordConnected]
  | cons entry known ih =>
    obtain ⟨other, at'⟩ := entry
    unfold recordConnected
    split_ifs with h
    · subst h
      simp only [List.map_cons, List.mem_cons]
      tauto
    · simp only [List.map_cons, List.mem_cons, ih]
      tauto

theorem nodup_recordConnected {known : List (String × ℤ)} (h : (known.map Prod.fst).Nodup)
    (nodeId : String) (connectedAt : ℤ) :
    ((recordConnected known nodeId connectedAt).map Prod.fst).Nodup := by
  induction known with
  | nil => simp [recordConnected]
  | cons entry known ih =>
    obtain ⟨other, at'⟩ := entry
    simp only [List.map_cons, List.nodup_cons] at h
    unfold recordConnected
    split_ifs with hid
    · simpa using h
    · simp only [List.map_cons, List.nodup_cons, recordConnected_keys]
      refine ⟨?_, ih h.2⟩
      rintro (hmem | heq)
      · exact h.1 hmem
      · exact hid heq

/-- The instant kept is that of a listed stream. -/
theorem mem_recordConnected {known : List (String × ℤ)} {nodeId : String} {connectedAt : ℤ}
    {entry : String × ℤ} (h : entry ∈ recordConnected known nodeId connectedAt) :
    entry ∈ known ∨ entry = (nodeId, connectedAt) := by
  induction known with
  | nil => exact .inr (List.mem_singleton.1 h)
  | cons first known ih =>
    obtain ⟨other, at'⟩ := first
    unfold recordConnected at h
    split_ifs at h with hid
    · rcases List.mem_cons.1 h with rfl | h
      · rcases min_choice at' connectedAt with hm | hm
        · rw [hm]; exact .inl (by simp)
        · rw [hm, hid]; exact .inr rfl
      · exact .inl (by simp [h])
    · rcases List.mem_cons.1 h with rfl | h
      · exact .inl (by simp)
      · rcases ih h with h | h
        · exact .inl (by simp [h])
        · exact .inr h

theorem firstConnected_spec (planes : List DataPlaneEgressEntry) :
    ((firstConnected ceilMillis planes).map Prod.fst).Nodup ∧
      ∀ entry ∈ firstConnected ceilMillis planes, ∃ plane ∈ planes,
        entry = (plane.nodeId, connectedMillis ceilMillis plane) := by
  unfold firstConnected
  induction planes using List.reverseRecOn with
  | nil => simp
  | append_singleton planes plane ih =>
    rw [List.foldl_append]
    refine ⟨nodup_recordConnected ih.1 _ _, fun entry hentry => ?_⟩
    rcases mem_recordConnected hentry with h | h
    · obtain ⟨other, hother, heq⟩ := ih.2 entry h
      exact ⟨other, by simp [hother], heq⟩
    · exact ⟨plane, by simp, h⟩

theorem nodup_settledNodes (planes : List DataPlaneEgressEntry) (freshness : DataPlaneFreshness) :
    (settledNodes ceilMillis planes freshness).Nodup :=
  (firstConnected_spec ceilMillis planes).1.sublist (List.filter_sublist.map Prod.fst)

/-- A settled `node_id` is listed, and was sighted or has a stream old enough on the gateway's
clock. -/
theorem mem_settledNodes {planes : List DataPlaneEgressEntry} {freshness : DataPlaneFreshness}
    {id : String} (h : id ∈ settledNodes ceilMillis planes freshness) :
    ∃ plane ∈ planes, plane.nodeId = id ∧
      (id ∈ freshness.settledNodeIds ∨ ∃ date, freshness.gatewayDate = some date ∧
        SETTLED_AGE_MS ≤ date - connectedMillis ceilMillis plane) := by
  unfold settledNodes at h
  obtain ⟨entry, hentry, rfl⟩ := List.mem_map.1 h
  obtain ⟨hfirst, hsettled⟩ := List.mem_filter.1 hentry
  obtain ⟨plane, hplane, rfl⟩ := (firstConnected_spec ceilMillis planes).2 entry hfirst
  refine ⟨plane, hplane, rfl, ?_⟩
  rcases Bool.or_eq_true_iff.1 hsettled with hs | hs
  · exact .inl (by simpa using hs)
  · simp only [Bool.and_eq_true, Option.isSome_iff_exists, List.all_eq_true,
      decide_eq_true_eq] at hs
    obtain ⟨⟨-, date, hdate⟩, hall⟩ := hs
    exact .inr ⟨date, hdate, hall date (by simp [DataPlaneFreshness.clocks, hdate])⟩

end FirstConnected

section Runs

variable {N : ℕ} {fleet : Fleet N} {clocks : Clocks}
variable {ν : Type} [DecidableEq ν] {format : NumberFormat ν} {nspace : String}
variable {ceilMillis : List Char → ℤ}

/-- What one read of a faithful run settles is listed, settled processes. -/
theorem settled_of_read (hceil : ∀ digits, 1000 * fractionOf digits ≤ ceilMillis digits + 1)
    {sightings : Sightings} (hhonest : Honest fleet clocks sightings) {read : Read ν}
    (hread : Faithful format nspace fleet clocks read) {reading : BackendEgressPolicyReading}
    {freshness : DataPlaneFreshness}
    (h : (readEgressPolicy format nspace sightings read).1 = some (reading, freshness))
    {attestation : DataPlaneEgressAttestation}
    (hatt : reading.policy.dataPlaneAttestation = some attestation) :
    ∀ id ∈ settledNodes ceilMillis attestation.dataPlanes freshness, ∃ p, fleet.nodeId p = id ∧
      fleet.Listable p read.answeredAt ∧ fleet.Settled p read.answeredAt := by
  unfold readEgressPolicy at h
  cases hvalue : readBackendEgressPolicy format read.value nspace with
  | none => simp [hvalue] at h
  | some found =>
    simp only [hvalue] at h
    intro id hid
    obtain ⟨plane, hplane, hnode, hway⟩ := mem_settledNodes ceilMillis hid
    split_ifs at h with hproblem
    · obtain ⟨rfl, rfl⟩ := Prod.mk.inj (Option.some.inj h)
      obtain ⟨p, hp⟩ := hread.lists found attestation hvalue hatt plane hplane
      refine ⟨p, hp.nodeId.trans hnode, hp.listable, ?_⟩
      rcases hway with hsighted | ⟨date, hdate, hage⟩
      · have hsight : isSighted read.startedAt sightings id = true :=
          (List.mem_filter.1 hsighted).2
        exact settled_of_sighted hread hhonest hsight (hp.nodeId.trans hnode)
      · exact settled_of_age hceil hread hdate hp hage
    · obtain ⟨rfl, rfl⟩ := Prod.mk.inj (Option.some.inj h)
      obtain ⟨p, hp⟩ := hread.lists found attestation hvalue hatt plane hplane
      refine ⟨p, hp.nodeId.trans hnode, hp.listable, ?_⟩
      rcases hway with hsighted | ⟨date, hdate, hage⟩
      · simp at hsighted
      · exact settled_of_age hceil hread hdate hp hage

end Runs

theorem of_guaranteed {ceilMillis : List Char → ℤ} {policy : BackendEgressPolicy}
    {expected : Option ℕ} {freshness : DataPlaneFreshness}
    (h : dataPlaneAttestationVerdict ceilMillis policy expected freshness = .guaranteed) :
    ∃ attestation count, policy.dataPlaneAttestation = some attestation ∧ expected = some count ∧
      0 < count ∧ allPublicOnly attestation = true ∧
      count ≤ (settledNodes ceilMillis attestation.dataPlanes freshness).length := by
  unfold dataPlaneAttestationVerdict at h
  by_cases hscope : policy.enforcementScope = .admissionOnly
  · cases hatt : policy.dataPlaneAttestation with
    | none => simp [hscope, hatt] at h
    | some attestation =>
      cases hpublic : allPublicOnly attestation with
      | false => simp [hscope, hatt, hpublic] at h
      | true =>
        cases hexpected : isExpectedDataPlanes expected with
        | none => simp [hscope, hatt, hpublic, hexpected] at h
        | some count =>
          simp only [hscope, hatt, hpublic, hexpected, ne_eq, not_true_eq_false, if_false,
            Bool.true_eq_false] at h
          split_ifs at h with hfew hsettled
          obtain ⟨hsome, hbounds⟩ := Option.filter_eq_some_iff.1 hexpected
          simp only [Bool.and_eq_true, decide_eq_true_eq] at hbounds
          exact ⟨attestation, count, rfl, hsome, hbounds.2, hpublic, hsettled⟩
  · simp [hscope] at h

theorem publicOnly_of_all {attestation : DataPlaneEgressAttestation}
    (h : allPublicOnly attestation = true) : ∀ entry ∈ attestation.dataPlanes,
      ∃ policy, entry.attestation = .reported ∧ entry.policy = some policy ∧
        policy.mode = .publicOnly ∧ policy.allowCidrOverridesPresent = false := by
  unfold allPublicOnly at h
  simp only [Bool.and_eq_true, List.all_eq_true, beq_iff_eq] at h
  intro entry hentry
  obtain ⟨hreported, hpolicy⟩ := h.2 entry hentry
  cases hp : entry.policy with
  | none => simp [hp] at hpolicy
  | some policy =>
    simp only [hp, Option.any_some, Bool.and_eq_true, beq_iff_eq, Bool.not_eq_true'] at hpolicy
    exact ⟨policy, hreported, rfl, hpolicy.1, hpolicy.2⟩

/-- In every run of faithful reads of a fleet of `N` slots, a read settles at most `N` distinct
`node_id`s; a guarantee means every listed stream reported public mode without allow overrides and
as many distinct settled `node_id`s as expected; and the summary accepted with an attestation is
the fold of the listed policies, in any order. -/
theorem egress_counts_once {N : ℕ} {fleet : Fleet N} {clocks : Clocks} {ν : Type} [DecidableEq ν]
    {format : NumberFormat ν} {nspace : String} {ceilMillis : List Char → ℤ}
    (hceil : ∀ digits, 1000 * fractionOf digits ≤ ceilMillis digits + 1)
    {before : List (Read ν)} {read : Read ν}
    (hreads : ∀ r ∈ before ++ [read], Faithful format nspace fleet clocks r)
    {reading : BackendEgressPolicyReading} {freshness : DataPlaneFreshness}
    (h : (readEgressPolicy format nspace (sightingsAfter format nspace before) read).1 =
      some (reading, freshness)) :
    (∀ attestation, reading.policy.dataPlaneAttestation = some attestation →
      (settledNodes ceilMillis attestation.dataPlanes freshness).Nodup ∧
        (settledNodes ceilMillis attestation.dataPlanes freshness).length ≤ N ∧
        attestation.dataPlanes.length = attestation.connectedDataPlanes ∧
        ∀ planes, planes.Perm attestation.dataPlanes →
          attestation = { summaryOf attestation.connectedDataPlanes planes with
            dataPlanes := attestation.dataPlanes }) ∧
    ∀ expected,
      dataPlaneAttestationVerdict ceilMillis reading.policy expected freshness = .guaranteed →
      ∃ attestation count, reading.policy.dataPlaneAttestation = some attestation ∧
        expected = some count ∧ 0 < count ∧ count ≤ N ∧
        count ≤ (settledNodes ceilMillis attestation.dataPlanes freshness).length ∧
        ∀ entry ∈ attestation.dataPlanes, ∃ policy, entry.attestation = .reported ∧
          entry.policy = some policy ∧ policy.mode = .publicOnly ∧
          policy.allowCidrOverridesPresent = false := by
  have hhonest : Honest fleet clocks (sightingsAfter format nspace before) :=
    honest_run fun r hr => hreads r (by simp [hr])
  have hread := hreads read (by simp)
  have hcount (attestation : DataPlaneEgressAttestation)
      (hatt : reading.policy.dataPlaneAttestation = some attestation) :
      (settledNodes ceilMillis attestation.dataPlanes freshness).length ≤ N :=
    Fleet.length_le_slots (nodup_settledNodes ceilMillis _ _)
      (settled_of_read hceil hhonest hread h hatt)
  refine ⟨fun attestation hatt => ?_, fun expected hverdict => ?_⟩
  · have hvalue : readBackendEgressPolicy format read.value nspace = some reading := by
      unfold readEgressPolicy at h
      cases hvalue : readBackendEgressPolicy format read.value nspace with
      | none => simp [hvalue] at h
      | some found =>
        simp only [hvalue] at h
        split_ifs at h <;> simp_all
    obtain ⟨attested, haccepted⟩ := attestation_of_reading format hvalue hatt
    obtain ⟨hsummary, hlength⟩ := readDataPlaneAttestation_eq_ok format haccepted
    refine ⟨nodup_settledNodes ceilMillis _ _, hcount attestation hatt, hlength, ?_⟩
    intro planes hperm
    rw [← summaryOf_perm attestation.connectedDataPlanes hperm.symm]
    exact hsummary
  · obtain ⟨attestation, count, hatt, hexpected, hpos, hpublic, hsettled⟩ := of_guaranteed hverdict
    exact ⟨attestation, count, hatt, hexpected, hpos, hsettled.trans (hcount attestation hatt),
      hsettled, publicOnly_of_all hpublic⟩

/-! ## A process that is replaced -/

/-- One slot: the process `dp-a` until 150 s, then `dp-b`. -/
def replacedProcess : Fleet 1 where
  Process := Bool
  slot _ := 0
  nodeId p := if p then "dp-b" else "dp-a"
  started p := if p then 150000 else 0
  died p := if p then none else some 150000
  fresh := by decide
  sequential p q _ hne := by
    cases p with
    | false =>
      cases q with
      | false => exact absurd rfl hne
      | true => exact .inl ⟨150000, rfl, le_rfl⟩
    | true =>
      cases q with
      | false => exact .inr ⟨150000, rfl, le_rfl⟩
      | true => exact absurd rfl hne

def publicPolicy : DataPlaneEgressPolicy :=
  ⟨.publicOnly, ["public"], ["private-reserved"], true, false, false, true⟩

def listedPlane (plane : String × String) : DataPlaneEgressEntry :=
  ⟨plane.1, plane.2, .reported, some publicPolicy⟩

/-- The answer of a control plane that lists some data planes. -/
def answerOf (planes : List (String × String)) : Json ℕ :=
  .object
    [("schema_version", .number 2), ("ip_classification", .string "ferrum-private-reserved-v1"),
      ("namespace", .string "nexus"), ("policy_scope", .string "process"),
      ("enforcement_scope", .string "admission-only"), ("mode", .string "public"),
      ("mode_allowed_ip_classes", .array [.string "public"]),
      ("mode_blocked_ip_classes", .array [.string "private-reserved"]),
      ("dangerous_ranges_blocked", .bool true), ("allow_cidr_overrides_present", .bool false),
      ("deny_cidr_overrides_present", .bool false),
      ("evaluation_order", .array (EVALUATION_ORDER.map .string)),
      ("public_only_guaranteed", .bool false),
      (DATA_PLANE_ATTESTATION_KEY, .object
        [("source", .string "configsync-subscribe"),
          ("connected_data_planes", .number planes.length),
          ("reporting_data_planes", .number planes.length), ("unknown_data_planes", .number 0),
          ("weakest_policy", publicPolicy.json), ("weakest_policy_complete", .bool true),
          ("all_connected_public_only_guaranteed", .bool true),
          ("data_planes", .array (planes.map fun plane => .object
            [("node_id", .string plane.1), ("connected_at", .string plane.2),
              ("attestation", .string "reported"), ("policy", publicPolicy.json)]))])]

def readingOf (planes : List (String × String)) : BackendEgressPolicyReading :=
  ⟨⟨"nexus", .admissionOnly, .publicOnly, true, false, false, false,
    some (summaryOf planes.length (planes.map listedPlane))⟩, none⟩

def earlierPlanes : List (String × String) := [("dp-a", "1970-01-01T00:00:00Z")]

def laterPlanes : List (String × String) := earlierPlanes ++ [("dp-b", "1970-01-01T00:02:30Z")]

theorem read_earlierPlanes : readBackendEgressPolicy decimalFormat (answerOf earlierPlanes) "nexus" =
    some (readingOf earlierPlanes) := by
  decide

theorem read_laterPlanes : readBackendEgressPolicy decimalFormat (answerOf laterPlanes) "nexus" =
    some (readingOf laterPlanes) := by
  decide

def steadyClocks : Clocks :=
  ⟨0, 0, 0, by norm_num [STALE_STREAM_MS, SETTLED_AGE_MS, DATA_PLANE_SETTLE_MS,
    CLOCK_SKEW_ALLOWANCE_MS]⟩

/-- An answer of the instant `now`, with the gateway's `Date`. -/
def readOf (planes : List (String × String)) (now : ℤ) : Read ℕ :=
  ⟨answerOf planes, some now, now, now, now, now⟩

theorem faithful_readOf {planes : List (String × String)} {now : ℤ}
    (hread : readBackendEgressPolicy decimalFormat (answerOf planes) "nexus" =
      some (readingOf planes))
    (hplanes : ∀ plane ∈ planes, ∃ p, Stream replacedProcess steadyClocks now (listedPlane plane) p) :
    Faithful decimalFormat "nexus" replacedProcess steadyClocks (readOf planes now) := by
  refine ⟨by simp [readOf, steadyClocks], by simp [readOf, steadyClocks], ?_, ?_⟩
  · intro date hdate
    obtain rfl := Option.some.inj hdate
    simp [readOf, steadyClocks]
  · intro reading attestation hreading hatt entry hentry
    obtain rfl := Option.some.inj (hread.symm.trans hreading)
    obtain rfl := Option.some.inj hatt
    obtain ⟨plane, hplane, rfl⟩ := List.mem_map.1 hentry
    exact hplanes plane hplane

theorem stream_earlier {now : ℚ} (hlow : 0 ≤ now) (hhigh : now ≤ 190000) :
    Stream replacedProcess steadyClocks now (listedPlane ("dp-a", "1970-01-01T00:00:00Z")) false := by
  refine ⟨rfl, ⟨hlow, fun d hd => ?_⟩, ⟨1970, 1, 1, 0, 0, 0, none, none⟩, by decide, ?_⟩
  · obtain rfl := Option.some.inj hd
    norm_num [STALE_STREAM_MS]
    linarith
  · have hstarted : replacedProcess.started false = 0 := rfl
    norm_num [hstarted, steadyClocks, DateTimeFields.instant, DateTimeFields.offsetMinutes,
      dayNumber, daysBeforeYear, daysBeforeMonth]

theorem stream_later {now : ℚ} (hlow : 150000 ≤ now) :
    Stream replacedProcess steadyClocks now (listedPlane ("dp-b", "1970-01-01T00:02:30Z")) true := by
  refine ⟨rfl, ⟨hlow, fun d hd => by cases hd⟩, ⟨1970, 1, 1, 0, 2, 30, none, none⟩, by decide, ?_⟩
  have hstarted : replacedProcess.started true = 150000 := rfl
  norm_num [hstarted, steadyClocks, DateTimeFields.instant, DateTimeFields.offsetMinutes,
    dayNumber, daysBeforeYear, daysBeforeMonth]

/-- A read of both streams 30 seconds after the process was replaced, and an earlier one of the
first: one of the two counts, and it is enough for a guarantee of one. -/
theorem egress_counts_once_replaced :
    let ceilMillis (digits : List Char) : ℤ := ⌈1000 * fractionOf digits⌉
    let freshness : DataPlaneFreshness := ⟨180000, some 180000, ["dp-a"]⟩
    dataPlaneAttestationVerdict ceilMillis (readingOf laterPlanes).policy (some 1) freshness =
        .guaranteed ∧
      (settledNodes ceilMillis (laterPlanes.map listedPlane) freshness).length ≤ 1 ∧
      ∃ attestation count,
        (readingOf laterPlanes).policy.dataPlaneAttestation = some attestation ∧
        some 1 = some count ∧ 0 < count ∧ count ≤ 1 ∧
        count ≤ (settledNodes ceilMillis attestation.dataPlanes freshness).length ∧
        ∀ entry ∈ attestation.dataPlanes, ∃ policy, entry.attestation = .reported ∧
          entry.policy = some policy ∧ policy.mode = .publicOnly ∧
          policy.allowCidrOverridesPresent = false := by
  intro ceilMillis freshness
  have hceil (digits : List Char) : 1000 * fractionOf digits ≤ ceilMillis digits + 1 := by
    have := Int.le_ceil (1000 * fractionOf digits)
    linarith
  have hreads : ∀ r ∈ [readOf earlierPlanes 100000] ++ [readOf laterPlanes 180000],
      Faithful decimalFormat "nexus" replacedProcess steadyClocks r := by
    simp only [List.cons_append, List.nil_append, List.forall_mem_cons, List.not_mem_nil,
      false_implies, implies_true, and_true]
    refine ⟨faithful_readOf read_earlierPlanes ?_, faithful_readOf read_laterPlanes ?_⟩
    · simp only [earlierPlanes, List.forall_mem_singleton]
      exact ⟨false, stream_earlier (by norm_num) (by norm_num)⟩
    · simp only [laterPlanes, earlierPlanes, List.cons_append, List.nil_append,
        List.forall_mem_cons, List.not_mem_nil, false_implies, implies_true, and_true]
      exact ⟨⟨false, stream_earlier (by norm_num) (by norm_num)⟩,
        true, stream_later (by norm_num)⟩
  have h : (readEgressPolicy decimalFormat "nexus" (sightingsAfter decimalFormat "nexus"
      [readOf earlierPlanes 100000]) (readOf laterPlanes 180000)).1 =
      some (readingOf laterPlanes, freshness) := by
    have hsightings : sightingsAfter decimalFormat "nexus" [readOf earlierPlanes 100000] =
        [("dp-a", ⟨100000, 100000⟩)] := by
      simp only [sightingsAfter, List.foldl, readEgressPolicy, readOf, read_earlierPlanes]
      rfl
    have hsettled : (observe [("dp-a", ⟨100000, 100000⟩)] (readingOf laterPlanes).policy
        ((180000 : ℤ) : ℚ) ((180000 : ℤ) : ℚ)).1 = ["dp-a"] := by
      decide +kernel
    rw [hsightings]
    simp only [readEgressPolicy, readOf, read_laterPlanes, hsettled]
    rfl
  have hguaranteed : dataPlaneAttestationVerdict ceilMillis (readingOf laterPlanes).policy (some 1)
      freshness = .guaranteed := by
    decide +kernel
  have hcounts := egress_counts_once hceil hreads h
  exact ⟨hguaranteed, (hcounts.1 _ rfl).2.1, hcounts.2 (some 1) hguaranteed⟩

end FerrumNexus.Egress
