import FerrumNexus.Formats.DeepEquality
import FerrumNexus.Egress.DateTimes

/-!
# Reading a gateway's egress policy

`readBackendEgressPolicy`: the process policy, which is refused unless it is the
owner's exact shape, and the attestation of a control plane's data planes, which
is set aside unless its summary is what the listed streams add up to.
-/
namespace FerrumNexus.Egress

open Formats

inductive EgressMode where
  | both
  | publicOnly
  | privateOnly
  deriving DecidableEq

namespace EgressMode

def text : EgressMode → String
  | both => "both"
  | publicOnly => "public"
  | privateOnly => "private"

/-- `isEgressMode`. -/
def ofText (text : String) : Option EgressMode :=
  [both, publicOnly, privateOnly].find? fun mode => mode.text == text

/-- `modeClasses(mode).allowed`. -/
def allowed : EgressMode → List String
  | both => ["public", "private-reserved"]
  | publicOnly => ["public"]
  | privateOnly => ["private-reserved"]

/-- `modeClasses(mode).blocked`. -/
def blocked : EgressMode → List String
  | both => []
  | publicOnly => ["private-reserved"]
  | privateOnly => ["public"]

end EgressMode

/-- The policy one data plane reported. -/
structure DataPlaneEgressPolicy where
  mode : EgressMode
  modeAllowedIpClasses : List String
  modeBlockedIpClasses : List String
  dangerousRangesBlocked : Bool
  allowCidrOverridesPresent : Bool
  denyCidrOverridesPresent : Bool
  publicOnlyGuaranteed : Bool
  deriving DecidableEq

inductive Attestation where
  | reported
  | unknown
  deriving DecidableEq

/-- One live stream of the namespace. -/
structure DataPlaneEgressEntry where
  nodeId : String
  connectedAt : String
  attestation : Attestation
  policy : Option DataPlaneEgressPolicy
  deriving DecidableEq

/-- What a control plane's connected data planes reported. -/
structure DataPlaneEgressAttestation where
  connectedDataPlanes : ℕ
  reportingDataPlanes : ℕ
  unknownDataPlanes : ℕ
  weakestPolicy : Option DataPlaneEgressPolicy
  weakestPolicyComplete : Bool
  allConnectedPublicOnlyGuaranteed : Bool
  dataPlanes : List DataPlaneEgressEntry
  deriving DecidableEq

inductive EnforcementScope where
  | localDataPlane
  | unservedNamespace
  | admissionOnly
  | noDataPlane
  deriving DecidableEq

namespace EnforcementScope

def text : EnforcementScope → String
  | localDataPlane => "local-data-plane"
  | unservedNamespace => "unserved-namespace"
  | admissionOnly => "admission-only"
  | noDataPlane => "no-data-plane"

def ofText (text : String) : Option EnforcementScope :=
  [localDataPlane, unservedNamespace, admissionOnly, noDataPlane].find? fun scope =>
    scope.text == text

end EnforcementScope

structure BackendEgressPolicy where
  nspace : String
  enforcementScope : EnforcementScope
  mode : EgressMode
  dangerousRangesBlocked : Bool
  allowCidrOverridesPresent : Bool
  denyCidrOverridesPresent : Bool
  publicOnlyGuaranteed : Bool
  dataPlaneAttestation : Option DataPlaneEgressAttestation
  deriving DecidableEq

inductive DataPlaneAttestationProblem where
  | malformed
  | inconsistent
  | outOfScope
  deriving DecidableEq

structure BackendEgressPolicyReading where
  policy : BackendEgressPolicy
  attestationProblem : Option DataPlaneAttestationProblem
  deriving DecidableEq

def KEYS : List String :=
  ["schema_version", "ip_classification", "namespace", "policy_scope", "enforcement_scope", "mode",
    "mode_allowed_ip_classes", "mode_blocked_ip_classes", "dangerous_ranges_blocked",
    "allow_cidr_overrides_present", "deny_cidr_overrides_present", "evaluation_order",
    "public_only_guaranteed"]

def EVALUATION_ORDER : List String := ["allow-cidrs", "deny-cidrs", "dangerous-ranges", "ip-mode"]

def DATA_PLANE_ATTESTATION_KEY : String := "data_plane_attestation"

def ATTESTATION_KEYS : List String :=
  ["source", "connected_data_planes", "reporting_data_planes", "unknown_data_planes",
    "weakest_policy", "weakest_policy_complete", "all_connected_public_only_guaranteed",
    "data_planes"]

def DATA_PLANE_ENTRY_KEYS : List String := ["node_id", "connected_at", "attestation", "policy"]

def DATA_PLANE_POLICY_KEYS : List String :=
  ["mode", "mode_allowed_ip_classes", "mode_blocked_ip_classes", "dangerous_ranges_blocked",
    "allow_cidr_overrides_present", "deny_cidr_overrides_present", "public_only_guaranteed"]

/-! ## Values of an answer -/

section Values

variable {ν : Type}

abbrev Row (ν : Type) := List (String × Json ν)

def isRecord : Json ν → Option (Row ν)
  | .object members => some members
  | _ => none

def hasExactKeys (row : Row ν) (keys : List String) : Bool :=
  row.length == keys.length && keys.all fun key => (member row key).isSome

def stringAt (row : Row ν) (key : String) : Option String :=
  match member row key with
  | some (.string s) => some s
  | _ => none

def boolAt (row : Row ν) (key : String) : Option Bool :=
  match member row key with
  | some (.bool b) => some b
  | _ => none

/-- `exactArray`. -/
def exactArray (value : Option (Json ν)) (expected : List String) : Bool :=
  match value with
  | some (.array items) =>
    items.length == expected.length && (items.zip expected).all fun entry =>
      match entry.1 with
      | .string s => s == entry.2
      | _ => false
  | _ => false

variable [DecidableEq ν]

/-- Whether a value is the number `n`. -/
def isNumber (format : NumberFormat ν) (value : Option (Json ν)) (n : ℕ) : Bool :=
  match value with
  | some (.number x) => x == format.ofNat n
  | _ => false

/-! ## Data planes -/

/-- One data plane's self-reported policy, with Edge's serving guarantee rule. -/
def parseDataPlanePolicy (value : Json ν) : Option DataPlaneEgressPolicy := do
  let row ← isRecord value
  guard (hasExactKeys row DATA_PLANE_POLICY_KEYS)
  let mode ← (stringAt row "mode").bind EgressMode.ofText
  let dangerous ← boolAt row "dangerous_ranges_blocked"
  let allowOverrides ← boolAt row "allow_cidr_overrides_present"
  let denyOverrides ← boolAt row "deny_cidr_overrides_present"
  let guaranteed ← boolAt row "public_only_guaranteed"
  guard (exactArray (member row "mode_allowed_ip_classes") mode.allowed)
  guard (exactArray (member row "mode_blocked_ip_classes") mode.blocked)
  guard (guaranteed = (mode == .publicOnly && !allowOverrides))
  some ⟨mode, mode.allowed, mode.blocked, dangerous, allowOverrides, denyOverrides, guaranteed⟩

/-- `reported` exactly when a recognised policy came with the stream. -/
def parseReport (attestation : String) (value : Json ν) :
    Option (Attestation × Option DataPlaneEgressPolicy) :=
  if attestation = "reported" then
    (parseDataPlanePolicy value).map fun policy => (.reported, some policy)
  else if attestation = "unknown" then
    match value with
    | .null => some (.unknown, none)
    | _ => none
  else none

def parseDataPlaneEntry (value : Json ν) : Option DataPlaneEgressEntry := do
  let row ← isRecord value
  guard (hasExactKeys row DATA_PLANE_ENTRY_KEYS)
  let nodeId ← stringAt row "node_id"
  guard (nodeId ≠ "")
  let connectedAt ← stringAt row "connected_at"
  guard (isRfc3339DateTime connectedAt.toList)
  let attestation ← stringAt row "attestation"
  let value ← member row "policy"
  let report ← parseReport attestation value
  some ⟨nodeId, connectedAt, report.1, report.2⟩

end Values

/-- Edge's `weaken`: the least restrictive combination of two reports. -/
def weakenPolicy (a b : DataPlaneEgressPolicy) : DataPlaneEgressPolicy :=
  let publicAllowed := a.mode ≠ .privateOnly ∨ b.mode ≠ .privateOnly
  let privateAllowed := a.mode ≠ .publicOnly ∨ b.mode ≠ .publicOnly
  let mode : EgressMode :=
    if ¬privateAllowed then .publicOnly else if ¬publicAllowed then .privateOnly else .both
  let allowOverrides := a.allowCidrOverridesPresent || b.allowCidrOverridesPresent
  { mode
    modeAllowedIpClasses := mode.allowed
    modeBlockedIpClasses := mode.blocked
    dangerousRangesBlocked := a.dangerousRangesBlocked && b.dangerousRangesBlocked
    allowCidrOverridesPresent := allowOverrides
    denyCidrOverridesPresent := a.denyCidrOverridesPresent && b.denyCidrOverridesPresent
    publicOnlyGuaranteed := mode == .publicOnly && !allowOverrides }

/-- The policy as the answer writes it. -/
def DataPlaneEgressPolicy.json {ν : Type} (policy : DataPlaneEgressPolicy) : Json ν :=
  .object
    [("mode", .string policy.mode.text),
      ("mode_allowed_ip_classes", .array (policy.modeAllowedIpClasses.map .string)),
      ("mode_blocked_ip_classes", .array (policy.modeBlockedIpClasses.map .string)),
      ("dangerous_ranges_blocked", .bool policy.dangerousRangesBlocked),
      ("allow_cidr_overrides_present", .bool policy.allowCidrOverridesPresent),
      ("deny_cidr_overrides_present", .bool policy.denyCidrOverridesPresent),
      ("public_only_guaranteed", .bool policy.publicOnlyGuaranteed)]

/-- One stream's policy into the weakest so far. -/
def weakenStep (weakest : Option DataPlaneEgressPolicy) (policy : DataPlaneEgressPolicy) :
    Option DataPlaneEgressPolicy :=
  match weakest with
  | none => some policy
  | some weakest => some (weakenPolicy weakest policy)

/-- The weakest policy of the streams that reported one, in their order. -/
def weakestOf (planes : List DataPlaneEgressEntry) : Option DataPlaneEgressPolicy :=
  (planes.filterMap DataPlaneEgressEntry.policy).foldl weakenStep none

section Reading

variable {ν : Type} [DecidableEq ν] (format : NumberFormat ν)

/-- The summary an attestation must carry for its streams. -/
def summaryOf (connected : ℕ) (planes : List DataPlaneEgressEntry) : DataPlaneEgressAttestation :=
  let reporting := (planes.filterMap DataPlaneEgressEntry.policy).length
  let complete := 0 < connected ∧ reporting = connected
  let weakest := weakestOf planes
  { connectedDataPlanes := connected
    reportingDataPlanes := reporting
    unknownDataPlanes := connected - reporting
    weakestPolicy := weakest
    weakestPolicyComplete := complete
    allConnectedPublicOnlyGuaranteed :=
      decide complete && weakest.any DataPlaneEgressPolicy.publicOnlyGuaranteed
    dataPlanes := planes }

/-- Whether the summary members of an attestation are those of its streams. -/
def summaryAgrees (row : Row ν) (summary : DataPlaneEgressAttestation) : Bool :=
  summary.dataPlanes.length == summary.connectedDataPlanes &&
    isNumber format (member row "reporting_data_planes") summary.reportingDataPlanes &&
    isNumber format (member row "unknown_data_planes") summary.unknownDataPlanes &&
    (member row "weakest_policy").any (fun value =>
      isDeepStrictEqual value (summary.weakestPolicy.elim .null DataPlaneEgressPolicy.json)) &&
    boolAt row "weakest_policy_complete" == some summary.weakestPolicyComplete &&
    boolAt row "all_connected_public_only_guaranteed" ==
      some summary.allConnectedPublicOnlyGuaranteed

/-- Whether a value is `null` or a policy. -/
def isPolicyOrNull : Json ν → Bool
  | .null => true
  | value => (parseDataPlanePolicy value).isSome

/-- `connected_data_planes`, a safe integer that is not negative. -/
def countAt (row : Row ν) (key : String) : Option ℕ :=
  match member row key with
  | some (.number n) => (format.safeInteger n).bind fun z => if 0 ≤ z then some z.toNat else none
  | _ => none

def planesAt (row : Row ν) (key : String) : Option (List DataPlaneEgressEntry) :=
  match member row key with
  | some (.array items) => items.mapM parseDataPlaneEntry
  | _ => none

/-- The members of an attestation of the owner's shape. -/
structure AttestationMembers (ν : Type) where
  row : Row ν
  connected : ℕ
  planes : List DataPlaneEgressEntry
  weakest : Json ν

/-- The shape of an attestation, `none` where it is malformed. -/
def parseAttestation (value : Json ν) : Option (AttestationMembers ν) := do
  let row ← isRecord value
  guard (hasExactKeys row ATTESTATION_KEYS)
  guard (stringAt row "source" = some "configsync-subscribe")
  let connected ← countAt format row "connected_data_planes"
  let planes ← planesAt row "data_planes"
  let weakest ← member row "weakest_policy"
  guard (isPolicyOrNull weakest)
  some ⟨row, connected, planes, weakest⟩

/-- The attestation as the owner writes it, or the problem with it. -/
def readDataPlaneAttestation (value : Json ν) :
    Except DataPlaneAttestationProblem DataPlaneEgressAttestation :=
  match parseAttestation format value with
  | none => .error .malformed
  | some m =>
    let summary := summaryOf m.connected m.planes
    if summaryAgrees format m.row summary then
      -- the counts are the numbers just compared; the rest is read from the answer
      .ok { summary with
        weakestPolicy := parseDataPlanePolicy m.weakest
        weakestPolicyComplete := (boolAt m.row "weakest_policy_complete").getD false
        allConnectedPublicOnlyGuaranteed :=
          (boolAt m.row "all_connected_public_only_guaranteed").getD false }
    else .error .inconsistent

/-- The process policy without its attestation; `none` refuses the answer. -/
def readProcessPolicy (row : Row ν) (nspace : String) : Option BackendEgressPolicy := do
  guard (hasExactKeys row KEYS)
  guard (isNumber format (member row "schema_version") 2)
  guard (stringAt row "ip_classification" = some "ferrum-private-reserved-v1")
  guard (stringAt row "namespace" = some nspace)
  guard (stringAt row "policy_scope" = some "process")
  let scope ← (stringAt row "enforcement_scope").bind EnforcementScope.ofText
  let mode ← (stringAt row "mode").bind EgressMode.ofText
  let dangerous ← boolAt row "dangerous_ranges_blocked"
  let allowOverrides ← boolAt row "allow_cidr_overrides_present"
  let denyOverrides ← boolAt row "deny_cidr_overrides_present"
  let guaranteed ← boolAt row "public_only_guaranteed"
  guard (exactArray (member row "mode_allowed_ip_classes") mode.allowed)
  guard (exactArray (member row "mode_blocked_ip_classes") mode.blocked)
  guard (exactArray (member row "evaluation_order") EVALUATION_ORDER)
  guard (guaranteed = (scope == .localDataPlane && mode == .publicOnly && !allowOverrides))
  some ⟨nspace, scope, mode, dangerous, allowOverrides, denyOverrides, guaranteed, none⟩

/-- The reading of an accepted policy, with its attestation unless that is set aside. -/
def withAttestation (policy : BackendEgressPolicy) (attested : Json ν) :
    BackendEgressPolicyReading :=
  if policy.enforcementScope ≠ .admissionOnly then ⟨policy, some .outOfScope⟩
  else
    match readDataPlaneAttestation format attested with
    | .error problem => ⟨policy, some problem⟩
    | .ok attestation => ⟨{ policy with dataPlaneAttestation := some attestation }, none⟩

/-- Closed parsing of the process policy; a problem in the attestation sets it aside. -/
def readBackendEgressPolicy (value : Json ν) (nspace : String) :
    Option BackendEgressPolicyReading := do
  let members ← isRecord value
  let policy ← readProcessPolicy format
    (members.filter fun entry => entry.1 != DATA_PLANE_ATTESTATION_KEY) nspace
  some ((member members DATA_PLANE_ATTESTATION_KEY).elim ⟨policy, none⟩
    (withAttestation format policy))

end Reading

end FerrumNexus.Egress
