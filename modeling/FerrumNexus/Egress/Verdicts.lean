import FerrumNexus.Egress.Policies

/-!
# What an attestation proves

`dataPlaneAttestationVerdict`, the sightings that settle a data plane across
reconnects, and the assessment of one reading. Times are milliseconds: the
monotonic clock's are rational, a wall clock's are whole.
-/
namespace FerrumNexus.Egress

inductive DataPlaneAttestationVerdict where
  | guaranteed
  | attestationAbsent
  | attestationUnreadable
  | dataPlanesNotPublicOnly
  | expectedDataPlanesUnset
  | fewerDataPlanesThanExpected
  | dataPlaneRecentlyConnected
  | dataPlaneClockSkew
  | notControlPlane
  deriving DecidableEq

def DATA_PLANE_SETTLE_MS : ℤ := 60000
def CLOCK_SKEW_ALLOWANCE_MS : ℤ := 30000
def STREAM_AGE_CEILING_MS : ℤ := 86401000
def SETTLED_AGE_MS : ℤ := DATA_PLANE_SETTLE_MS + CLOCK_SKEW_ALLOWANCE_MS
def MAX_PLAUSIBLE_AGE_MS : ℤ := STREAM_AGE_CEILING_MS + CLOCK_SKEW_ALLOWANCE_MS

/-- When one answer was read. -/
structure DataPlaneFreshness where
  /-- Nexus's wall clock when the request was sent. -/
  readAt : ℤ
  /-- The answer's `Date`, when it had one. -/
  gatewayDate : Option ℤ
  settledNodeIds : List String

/-- Only a positive safe integer is an inventory. -/
def isExpectedDataPlanes (value : Option ℕ) : Option ℕ :=
  value.filter fun n => n ≤ Formats.MAX_SAFE_INTEGER && 0 < n

/-- Whether every listed stream attests public mode without allow overrides. -/
def allPublicOnly (attestation : DataPlaneEgressAttestation) : Bool :=
  attestation.allConnectedPublicOnlyGuaranteed && attestation.weakestPolicyComplete &&
    0 < attestation.connectedDataPlanes && attestation.unknownDataPlanes == 0 &&
    attestation.dataPlanes.length == attestation.connectedDataPlanes &&
    attestation.dataPlanes.all fun entry =>
      entry.attestation == .reported && entry.policy.any fun policy =>
        policy.mode == .publicOnly && !policy.allowCidrOverridesPresent

section Verdict

variable (ceilMillis : List Char → ℤ)

/-- The instant of an entry whose date-time was accepted. -/
def connectedMillis (entry : DataPlaneEgressEntry) : ℤ :=
  (rfc3339Millis ceilMillis entry.connectedAt.toList).getD 0

def DataPlaneFreshness.clocks (freshness : DataPlaneFreshness) : List ℤ :=
  freshness.readAt :: freshness.gatewayDate.toList

/-- Whether a stream's age is one a live stream can have, on every clock. -/
def isPlausible (clocks : List ℤ) (entry : DataPlaneEgressEntry) : Bool :=
  clocks.all fun clock =>
    let age := (clock - connectedMillis ceilMillis entry);
    (-CLOCK_SKEW_ALLOWANCE_MS ≤ age) && (age ≤ MAX_PLAUSIBLE_AGE_MS)

/-- `firstConnected.set(nodeId, Math.min(known, connectedAt))`. -/
def recordConnected (known : List (String × ℤ)) (nodeId : String) (connectedAt : ℤ) :
    List (String × ℤ) :=
  match known with
  | [] => [(nodeId, connectedAt)]
  | (other, at') :: rest =>
    if other = nodeId then (other, min at' connectedAt) :: rest
    else (other, at') :: recordConnected rest nodeId connectedAt

/-- Each `node_id`'s earliest listed stream. -/
def firstConnected (planes : List DataPlaneEgressEntry) : List (String × ℤ) :=
  planes.foldl
    (fun known entry => recordConnected known entry.nodeId (connectedMillis ceilMillis entry)) []

/-- The `node_id`s that count as settled in one read. -/
def settledNodes (planes : List DataPlaneEgressEntry) (freshness : DataPlaneFreshness) :
    List String :=
  let allPlausible := planes.all (isPlausible ceilMillis freshness.clocks)
  let ageReadable := allPlausible && freshness.gatewayDate.isSome
  ((firstConnected ceilMillis planes).filter fun entry =>
    freshness.settledNodeIds.contains entry.1 ||
      (ageReadable && freshness.clocks.all fun clock => SETTLED_AGE_MS ≤ clock - entry.2)).map
    Prod.fst

def dataPlaneAttestationVerdict (policy : BackendEgressPolicy) (expectedDataPlanes : Option ℕ)
    (freshness : DataPlaneFreshness) : DataPlaneAttestationVerdict :=
  if policy.enforcementScope ≠ .admissionOnly then .notControlPlane
  else
    match policy.dataPlaneAttestation with
    | none => .attestationAbsent
    | some attestation =>
      if allPublicOnly attestation = false then .dataPlanesNotPublicOnly
      else
        match isExpectedDataPlanes expectedDataPlanes with
        | none => .expectedDataPlanesUnset
        | some expected =>
          let planes := attestation.dataPlanes
          if (firstConnected ceilMillis planes).length < expected then .fewerDataPlanesThanExpected
          else if expected ≤ (settledNodes ceilMillis planes freshness).length then .guaranteed
          else if planes.all (isPlausible ceilMillis freshness.clocks) then
            .dataPlaneRecentlyConnected
          else .dataPlaneClockSkew

end Verdict

/-! ## Sightings -/

def SIGHTING_RETENTION_MS : ℚ := 15 * 60000
def MAX_SIGHTINGS : ℕ := 20000

structure Sighting where
  first : ℚ
  last : ℚ

/-- The `node_id`s seen, in the order they were first seen. -/
abbrev Sightings := List (String × Sighting)

def Sightings.get (sightings : Sightings) (nodeId : String) : Option Sighting :=
  (sightings.find? fun entry => entry.1 == nodeId).map Prod.snd

/-- `new Set(data_planes.map((entry) => entry.node_id))`. -/
def listedNodes (policy : BackendEgressPolicy) : List String :=
  let attestation :=
    if policy.enforcementScope = .admissionOnly then policy.dataPlaneAttestation else none
  (attestation.elim [] fun a => a.dataPlanes.map DataPlaneEgressEntry.nodeId).eraseDups

/-- One listed `node_id`: recorded, or its last sighting moved forward. -/
def sight (seenAt : ℚ) (sightings : Sightings) (nodeId : String) : Sightings :=
  match sightings.get nodeId with
  | none => sightings ++ [(nodeId, ⟨seenAt, seenAt⟩)]
  | some _ => sightings.map fun entry =>
      if entry.1 = nodeId then (entry.1, { entry.2 with last := max entry.2.last seenAt })
      else entry

/-- Whether a `node_id` was first seen long enough before the request. -/
def isSighted (startedAt : ℚ) (sightings : Sightings) (nodeId : String) : Bool :=
  (sightings.get nodeId).any fun sighting => DATA_PLANE_SETTLE_MS ≤ startedAt - sighting.first

/-- The sweep of the `node_id`s no longer listed; `size` is how many are left. -/
def forget (seenAt : ℚ) (listed : List String) : Sightings → ℕ → Sightings
  | [], _ => []
  | (nodeId, sighting) :: rest, size =>
    if listed.contains nodeId then (nodeId, sighting) :: forget seenAt listed rest size
    else if SIGHTING_RETENTION_MS < seenAt - sighting.last ∨ MAX_SIGHTINGS < size then
      forget seenAt listed rest (size - 1)
    else (nodeId, sighting) :: forget seenAt listed rest size

/-- `observe`: the `node_id`s settled by earlier sightings, and the sightings after the answer. -/
def observe (sightings : Sightings) (policy : BackendEgressPolicy) (startedAt seenAt : ℚ) :
    List String × Sightings :=
  let listed := listedNodes policy
  let sighted := listed.foldl (sight seenAt) sightings
  (listed.filter (isSighted startedAt sightings), forget seenAt listed sighted sighted.length)

end FerrumNexus.Egress
